import Hamerkop.Lib.FreeList

/-!
# `StableSlotmap`: the model

The slotmap of `hamerkop/src/stable_slotmap.rs`.  Elements live in slabs of
`SLABSIZE` entries that never move; the entries without an element form a free
list, threaded through the entries themselves from `head` to `SENTINEL`.

`usize` is 64 bits wide and indices are natural numbers.  A slab is allocated
with `Box::new`, which aborts the process when there is no memory left; since an
entry takes at least eight bytes, that happens before `MAX_SLABS` slabs exist,
and `expand` models it as the failure `outOfMemory`.
-/

namespace Hamerkop

/-- `usize::MAX`: the link that ends the free list. -/
def SENTINEL : ℕ := 2 ^ 64 - 1

/-- The number of entries in a slab. -/
def SLABSIZE : ℕ := 1024

/-- No 64-bit address space holds more slabs than this: a slab takes `2 ^ 13` bytes or more. -/
def MAX_SLABS : ℕ := 2 ^ 51

theorem SLABSIZE_pos : 0 < SLABSIZE := by decide

/-- A slot of a slab: an element, or a link of the free list. -/
inductive Entry (T : Type) where
  | Element (value : T)
  | Link (next : ℕ)

namespace Entry

variable {T : Type}

/-- The element, if the entry is one. -/
def element? : Entry T → Option T
  | .Element v => some v
  | .Link _ => none

/-- The index the entry links to, if it is a link. -/
def link? : Entry T → Option ℕ
  | .Element _ => none
  | .Link next => some next

@[simp] theorem element?_Element (v : T) : (Element v).element? = some v := rfl
@[simp] theorem element?_Link (n : ℕ) : (Link n : Entry T).element? = none := rfl
@[simp] theorem link?_Element (v : T) : (Element v).link? = none := rfl
@[simp] theorem link?_Link (n : ℕ) : (Link n : Entry T).link? = some n := rfl

end Entry

/-- `[Entry<T>; SLABSIZE]`. -/
abbrev Slab (T : Type) := Fin SLABSIZE → Entry T

/-- The ways an operation on the map can end without a result. -/
inductive SlotmapFault where
  /-- `Box::new` found no memory: the process aborts -/
  | outOfMemory
  /-- `unwrap` of a slot that does not exist -/
  | unwrapNone
  /-- one of the `unreachable!()` arms -/
  | unreachable
  /-- `panic!("Invalid index {}", index)` -/
  | invalidIndex (index : ℕ)
deriving DecidableEq, Repr

/-- A slotmap with stable addresses: the index of an element is its slab and its place there. -/
structure StableSlotmap (T : Type) where
  slabs : List (Slab T)
  /-- the first slot of the free list -/
  head : ℕ
  /-- the number of elements -/
  size : ℕ

namespace StableSlotmap

variable {T : Type}

/-- A map without slabs. -/
def new : StableSlotmap T where
  slabs := []
  head := SENTINEL
  size := 0

/-- The number of elements, which is counted along. -/
def len (m : StableSlotmap T) : ℕ := m.size

/-- Whether the map has no elements. -/
def isEmpty (m : StableSlotmap T) : Bool := m.len == 0

/-- Where `index` sits inside its slab. -/
def offset (index : ℕ) : Fin SLABSIZE := ⟨index % SLABSIZE, Nat.mod_lt _ SLABSIZE_pos⟩

/-- `slot_at(index)`: the entry there, `none` behind the last slab. -/
def slotAt (m : StableSlotmap T) (index : ℕ) : Option (Entry T) :=
  m.slabs[index / SLABSIZE]?.map fun slab => slab (offset index)

/-- Writing through the reference that `slot_at_mut(index)` returns. -/
def setSlot (m : StableSlotmap T) (index : ℕ) (entry : Entry T) : StableSlotmap T :=
  { m with
    slabs := m.slabs.modify (index / SLABSIZE) fun slab =>
      Function.update slab (offset index) entry }

/-- `create_slab(head, base)`: the slots from `base` on, linked in order, the last to `head`. -/
def createSlab (head base : ℕ) : Slab T := fun i =>
  if i.val < SLABSIZE - 1 then .Link (base + i.val + 1) else .Link head

/-- A slab more, put in front of the free list. -/
def expand (m : StableSlotmap T) : Except SlotmapFault (StableSlotmap T) :=
  let base := m.slabs.length * SLABSIZE
  if m.slabs.length < MAX_SLABS then
    .ok { m with slabs := m.slabs ++ [createSlab m.head base], head := base }
  else
    .error .outOfMemory

/-- The first slot of the free list, of a new slab if the list is empty. -/
def nextSlot (m : StableSlotmap T) : Except SlotmapFault (ℕ × StableSlotmap T) :=
  if m.head = SENTINEL then
    match m.expand with
    | .ok m' => .ok (m'.head, m')
    | .error e => .error e
  else
    .ok (m.head, m)

/-- `insert(value)`: the value takes the place of a link, whose slot leaves the free list. -/
def insert (m : StableSlotmap T) (value : T) : Except SlotmapFault (ℕ × StableSlotmap T) :=
  match m.nextSlot with
  | .error e => .error e
  | .ok (index, m) =>
    match m.slotAt index with
    | none => .error .unwrapNone
    | some (.Element _) => .error .unreachable
    | some (.Link next) =>
      .ok (index, { m.setSlot index (.Element value) with head := next, size := m.size + 1 })

/-- `remove(index)`: the slot of the element goes in front of the free list. -/
def remove (m : StableSlotmap T) (index : ℕ) :
    Except SlotmapFault (Option T × StableSlotmap T) :=
  let head := m.head
  match m.slotAt index with
  | none => .ok (none, m)
  | some entry =>
    if entry.link?.isSome then
      .ok (none, m)
    else
      match entry with
      | .Link _ => .error .unreachable
      | .Element v =>
        .ok (some v, { m.setSlot index (.Link head) with head := index, size := m.size - 1 })

/-- `get(index)`: the element there. -/
def get (m : StableSlotmap T) (index : ℕ) : Option T :=
  (m.slotAt index).bind Entry.element?

/-- `get_mut(index)` and, when it returns a reference, `*r = f(*r)` through it. -/
def getMut (m : StableSlotmap T) (index : ℕ) (f : T → T) : Option T × StableSlotmap T :=
  match m.get index with
  | some v => (some v, m.setSlot index (.Element (f v)))
  | none => (none, m)

/-- `iter()`: the elements of every slab, in order. -/
def iter (m : StableSlotmap T) : List T :=
  m.slabs.flatMap fun slab => (List.ofFn slab).filterMap Entry.element?

/-- `self[index]`. -/
def index (m : StableSlotmap T) (i : ℕ) : Except SlotmapFault T :=
  match m.get i with
  | some value => .ok value
  | none => .error (.invalidIndex i)

/-- `self[index] = f(self[index])`. -/
def indexMut (m : StableSlotmap T) (i : ℕ) (f : T → T) : Except SlotmapFault (StableSlotmap T) :=
  match m.getMut i f with
  | (some _, m') => .ok m'
  | (none, _) => .error (.invalidIndex i)

/-! ## Slots and links -/

/-- The link that slot `i` holds, if it holds one. -/
def link (m : StableSlotmap T) (i : ℕ) : Option ℕ := (m.slotAt i).bind Entry.link?

/-- The number of slots there are. -/
def capacity (m : StableSlotmap T) : ℕ := m.slabs.length * SLABSIZE

theorem slotAt_isSome {m : StableSlotmap T} {i : ℕ} : (m.slotAt i).isSome ↔ i < m.capacity := by
  simp only [slotAt, Option.isSome_map, isSome_getElem?, capacity]
  exact Nat.div_lt_iff_lt_mul SLABSIZE_pos

theorem slotAt_eq_none {m : StableSlotmap T} {i : ℕ} : m.slotAt i = none ↔ m.capacity ≤ i := by
  rw [← Option.not_isSome_iff_eq_none, slotAt_isSome, not_lt]

theorem link_eq_none_of_capacity_le {m : StableSlotmap T} {i : ℕ} (h : m.capacity ≤ i) :
    m.link i = none := by
  rw [link, slotAt_eq_none.2 h]
  rfl

theorem get_eq_none_of_capacity_le {m : StableSlotmap T} {i : ℕ} (h : m.capacity ≤ i) :
    m.get i = none := by
  rw [get, slotAt_eq_none.2 h]
  rfl

theorem get_eq_some {m : StableSlotmap T} {i : ℕ} {v : T} :
    m.get i = some v ↔ m.slotAt i = some (.Element v) := by
  rw [get, Option.bind_eq_some_iff]
  constructor
  · rintro ⟨e, he, hv⟩
    cases e with
    | Element w => rw [he]; simpa using hv
    | Link n => simp at hv
  · exact fun h => ⟨_, h, rfl⟩

theorem link_eq_some {m : StableSlotmap T} {i n : ℕ} :
    m.link i = some n ↔ m.slotAt i = some (.Link n) := by
  rw [link, Option.bind_eq_some_iff]
  constructor
  · rintro ⟨e, he, hn⟩
    cases e with
    | Element w => simp at hn
    | Link k => rw [he]; simpa using hn
  · exact fun h => ⟨_, h, rfl⟩

theorem offset_div_ne {i j : ℕ} (hne : j ≠ i) (hdiv : j / SLABSIZE = i / SLABSIZE) :
    offset j ≠ offset i := by
  intro h
  have hmod : j % SLABSIZE = i % SLABSIZE := congrArg Fin.val h
  exact hne (by rw [← Nat.div_add_mod j SLABSIZE, ← Nat.div_add_mod i SLABSIZE, hdiv, hmod])

@[simp] theorem slotAt_setSlot_self {m : StableSlotmap T} {i : ℕ} (e : Entry T)
    (h : i < m.capacity) : (m.setSlot i e).slotAt i = some e := by
  obtain ⟨s, hs⟩ := Option.isSome_iff_exists.1 (slotAt_isSome.2 h)
  simp only [slotAt, Option.map_eq_some_iff] at hs
  obtain ⟨slab, hslab, -⟩ := hs
  simp [slotAt, setSlot, hslab]

/-- Writing one slot leaves every other entry where it was, in the same slab at the
same offset. -/
theorem slotAt_setSlot_ne {m : StableSlotmap T} {i j : ℕ} (e : Entry T) (h : j ≠ i) :
    (m.setSlot i e).slotAt j = m.slotAt j := by
  by_cases hdiv : j / SLABSIZE = i / SLABSIZE
  · have hoff := offset_div_ne h hdiv
    rw [slotAt, slotAt, setSlot, hdiv, List.getElem?_modify_eq]
    cases m.slabs[i / SLABSIZE]? with
    | none => rfl
    | some slab => simp [Function.update_of_ne hoff]
  · rw [slotAt, slotAt, setSlot, List.getElem?_modify_ne _ _ (Ne.symm hdiv)]

@[simp] theorem capacity_setSlot (m : StableSlotmap T) (i : ℕ) (e : Entry T) :
    (m.setSlot i e).capacity = m.capacity := by
  simp [capacity, setSlot]

@[simp] theorem length_slabs_setSlot (m : StableSlotmap T) (i : ℕ) (e : Entry T) :
    (m.setSlot i e).slabs.length = m.slabs.length := by
  simp [setSlot]

theorem link_setSlot {m : StableSlotmap T} {i : ℕ} (e : Entry T) (h : i < m.capacity) :
    (m.setSlot i e).link = Function.update m.link i e.link? := by
  funext j
  by_cases hj : j = i
  · subst hj
    simp [link, slotAt_setSlot_self e h]
  · rw [link, slotAt_setSlot_ne e hj, Function.update_of_ne hj, link]

theorem get_setSlot {m : StableSlotmap T} {i : ℕ} (e : Entry T) (h : i < m.capacity) :
    (m.setSlot i e).get = Function.update m.get i e.element? := by
  funext j
  by_cases hj : j = i
  · subst hj
    simp [get, slotAt_setSlot_self e h]
  · rw [get, slotAt_setSlot_ne e hj, Function.update_of_ne hj, get]

theorem lt_capacity_of_get {m : StableSlotmap T} {i : ℕ} {v : T} (h : m.get i = some v) :
    i < m.capacity := slotAt_isSome.1 (by rw [get_eq_some.1 h]; rfl)

theorem lt_capacity_of_link {m : StableSlotmap T} {i n : ℕ} (h : m.link i = some n) :
    i < m.capacity := slotAt_isSome.1 (by rw [link_eq_some.1 h]; rfl)

/-- A slot that exists holds an element or a link. -/
theorem get_or_link {m : StableSlotmap T} {i : ℕ} (h : i < m.capacity) :
    (∃ v, m.get i = some v ∧ m.link i = none) ∨ ∃ n, m.link i = some n ∧ m.get i = none := by
  obtain ⟨e, he⟩ := Option.isSome_iff_exists.1 (slotAt_isSome.2 h)
  cases e with
  | Element v => exact .inl ⟨v, by simp [get, he], by simp [link, he]⟩
  | Link n => exact .inr ⟨n, by simp [link, he], by simp [get, he]⟩

theorem get_eq_none_of_link {m : StableSlotmap T} {i n : ℕ} (h : m.link i = some n) :
    m.get i = none := by
  rw [link_eq_some] at h
  simp [get, h]

theorem link_eq_none_of_get {m : StableSlotmap T} {i : ℕ} {v : T} (h : m.get i = some v) :
    m.link i = none := by
  rw [get_eq_some] at h
  simp [link, h]

/-! ## A slab more -/

/-- The map with one more slab, as `expand` leaves it. -/
def expanded (m : StableSlotmap T) : StableSlotmap T :=
  { m with slabs := m.slabs ++ [createSlab m.head m.capacity], head := m.capacity }

theorem expand_eq (m : StableSlotmap T) :
    m.expand = if m.slabs.length < MAX_SLABS then .ok m.expanded else .error .outOfMemory := rfl

theorem capacity_expanded (m : StableSlotmap T) : m.expanded.capacity = m.capacity + SLABSIZE := by
  simp [capacity, expanded, Nat.add_mul]

theorem slotAt_expanded_of_lt {m : StableSlotmap T} {i : ℕ} (h : i < m.capacity) :
    m.expanded.slotAt i = m.slotAt i := by
  have hdiv : i / SLABSIZE < m.slabs.length := (Nat.div_lt_iff_lt_mul SLABSIZE_pos).2 h
  simp [slotAt, expanded, List.getElem?_append_left hdiv]

theorem slotAt_expanded_block {m : StableSlotmap T} {j : ℕ} (h : j < SLABSIZE) :
    m.expanded.slotAt (m.capacity + j) =
      some (if j < SLABSIZE - 1 then .Link (m.capacity + j + 1) else .Link m.head) := by
  have hdiv : (m.capacity + j) / SLABSIZE = m.slabs.length := by
    rw [capacity, Nat.mul_comm, Nat.mul_add_div SLABSIZE_pos, Nat.div_eq_of_lt h, Nat.add_zero]
  have hmod : (m.capacity + j) % SLABSIZE = j := by
    rw [capacity, Nat.mul_comm, Nat.mul_add_mod, Nat.mod_eq_of_lt h]
  simp [slotAt, expanded, hdiv, createSlab, offset, hmod]

theorem link_expanded_of_lt {m : StableSlotmap T} {i : ℕ} (h : i < m.capacity) :
    m.expanded.link i = m.link i := by
  rw [link, slotAt_expanded_of_lt h, link]

theorem get_expanded (m : StableSlotmap T) : m.expanded.get = m.get := by
  funext i
  by_cases h : i < m.capacity
  · rw [get, slotAt_expanded_of_lt h, get]
  · rw [get_eq_none_of_capacity_le (m := m) (by omega)]
    by_cases h' : i < m.capacity + SLABSIZE
    · obtain ⟨j, rfl⟩ : ∃ j, i = m.capacity + j := ⟨i - m.capacity, by omega⟩
      rw [get, slotAt_expanded_block (by omega)]
      split <;> rfl
    · exact get_eq_none_of_capacity_le (by rw [capacity_expanded]; omega)

end StableSlotmap

end Hamerkop
