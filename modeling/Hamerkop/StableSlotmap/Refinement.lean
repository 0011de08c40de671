import Hamerkop.StableSlotmap.Basic
import Hamerkop.Lib.Runs

/-!
# `StableSlotmap` refines a finite map

`Wf` is the invariant of the slotmap: the free list from `head` visits exactly
the slots without an element, and `size` counts the slots with one.  Every
operation keeps it, and seen through `get` every operation is one step of a
finite map (`MapStep`): `stableSlotmap_refines_map`.
-/

namespace Hamerkop

namespace StableSlotmap

variable {T : Type}

/-- The indices that hold an element. -/
def live (m : StableSlotmap T) : Finset ℕ :=
  (Finset.range m.capacity).filter fun i => (m.get i).isSome

@[simp] theorem mem_live {m : StableSlotmap T} {i : ℕ} : i ∈ m.live ↔ (m.get i).isSome := by
  simp only [live, Finset.mem_filter, Finset.mem_range, and_iff_right_iff_imp]
  intro h
  obtain ⟨v, hv⟩ := Option.isSome_iff_exists.1 h
  exact lt_capacity_of_get hv

theorem live_congr {m m' : StableSlotmap T} (h : m.get = m'.get) : m.live = m'.live := by
  ext i
  simp [h]

/-- The invariant of the slotmap. -/
structure Wf (m : StableSlotmap T) : Prop where
  slabs_le : m.slabs.length ≤ MAX_SLABS
  free : FreeList.Complete m.link SENTINEL m.head
  size_eq : m.size = m.live.card

namespace Wf

variable {m : StableSlotmap T}

theorem capacity_le (h : m.Wf) : m.capacity ≤ 2 ^ 61 := by
  have := Nat.mul_le_mul_right SLABSIZE h.slabs_le
  simpa [capacity, MAX_SLABS, SLABSIZE] using this

theorem link_SENTINEL (h : m.Wf) : m.link SENTINEL = none :=
  link_eq_none_of_capacity_le (h.capacity_le.trans (by decide))

theorem new : (StableSlotmap.new : StableSlotmap T).Wf where
  slabs_le := Nat.zero_le _
  free := ⟨[], .nil, by simp [link, slotAt, StableSlotmap.new]⟩
  size_eq := by
    have : (StableSlotmap.new : StableSlotmap T).live = ∅ := by
      ext i
      simp [StableSlotmap.get, slotAt, StableSlotmap.new]
    rw [this]
    rfl

/-- With no free slot left, every slot holds an element. -/
theorem capacity_eq_size (h : m.Wf) (hfull : m.head = SENTINEL) : m.capacity = m.size := by
  have hlive : m.live = Finset.range m.capacity := by
    ext i
    rw [mem_live, Finset.mem_range]
    constructor
    · intro hi
      obtain ⟨v, hv⟩ := Option.isSome_iff_exists.1 hi
      exact lt_capacity_of_get hv
    · intro hi
      have hnone := h.free.eq_none_of_head_eq_stop h.link_SENTINEL hfull i
      rcases get_or_link hi with ⟨v, hv, -⟩ | ⟨n, hn, -⟩
      · simp [hv]
      · simp [hnone] at hn
  rw [h.size_eq, hlive, Finset.card_range]

/-- A new slab is put in front of the free list. -/
theorem expanded (h : m.Wf) (hlt : m.slabs.length < MAX_SLABS) : m.expanded.Wf where
  slabs_le := by simpa [StableSlotmap.expanded] using hlt
  free := by
    have hlast : SLABSIZE - 1 + 1 = SLABSIZE := by decide
    show FreeList.Complete m.expanded.link SENTINEL m.capacity
    refine h.free.block (n := SLABSIZE - 1) ?_ ?_ ?_ ?_
    · exact fun i hi => link_eq_none_of_capacity_le hi
    · rintro i (hi | hi)
      · exact link_expanded_of_lt hi
      · rw [link_eq_none_of_capacity_le (m := m) (by omega)]
        exact link_eq_none_of_capacity_le (by rw [capacity_expanded]; omega)
    · intro i hi
      rw [link_eq_some, slotAt_expanded_block (by omega), if_pos hi]
    · rw [link_eq_some, slotAt_expanded_block (by omega), if_neg (lt_irrefl _)]
  size_eq := by
    rw [live_congr (get_expanded m)]
    exact h.size_eq

end Wf

/-! ## `next_slot` -/

/-- All the slabs there can be are full. -/
def Full (m : StableSlotmap T) : Prop := MAX_SLABS * SLABSIZE ≤ m.len

/-- `next_slot` names a slot that holds a link: the first of the free list, of a new slab if
there was none. -/
theorem nextSlot_spec {m : StableSlotmap T} (h : m.Wf) :
    m.Full ∧ m.nextSlot = .error .outOfMemory ∨
    ∃ m', m.nextSlot = .ok (m'.head, m') ∧ m'.Wf ∧ m'.head ≠ SENTINEL ∧
      m'.get = m.get ∧ m'.size = m.size ∧
      (m' = m ∨ (m.head = SENTINEL ∧ m' = m.expanded)) := by
  by_cases hhead : m.head = SENTINEL
  · by_cases hlt : m.slabs.length < MAX_SLABS
    · refine .inr ⟨m.expanded, by simp [nextSlot, hhead, expand_eq, hlt], h.expanded hlt, ?_,
        get_expanded m, rfl, .inr ⟨hhead, rfl⟩⟩
      have : m.capacity ≤ 2 ^ 61 := h.capacity_le
      intro hs
      have hcap : m.capacity = SENTINEL := hs
      rw [hcap] at this
      exact absurd this (by decide)
    · refine .inl ⟨?_, by simp [nextSlot, hhead, expand_eq, hlt]⟩
      have hsize : m.slabs.length * SLABSIZE = m.size := h.capacity_eq_size hhead
      exact (Nat.mul_le_mul_right SLABSIZE (not_lt.1 hlt)).trans_eq hsize
  · exact .inr ⟨m, by simp [nextSlot, hhead], h, hhead, rfl, rfl, .inl rfl⟩

/-! ## `insert` -/

/-- What `insert` does when memory lasts. -/
structure Inserted (m : StableSlotmap T) (value : T) (i : ℕ) (m' : StableSlotmap T) : Prop where
  wf : m'.Wf
  get_before : m.get i = none
  get_after : m'.get = Function.update m.get i (some value)
  lt_capacity : i < m'.capacity
  len : m'.len = m.len + 1
  /-- live elements stay in their slab, at their offset -/
  stable : ∀ j w, m.slotAt j = some (.Element w) → m'.slotAt j = some (.Element w)
  /-- a slab is only added when every slot is in use -/
  slabs : m'.slabs.length = m.slabs.length ∨
    (m.capacity = m.size ∧ m'.slabs.length = m.slabs.length + 1)

theorem insert_spec {m : StableSlotmap T} (h : m.Wf) (value : T) :
    m.Full ∧ m.insert value = .error .outOfMemory ∨
    ∃ i m', m.insert value = .ok (i, m') ∧ Inserted m value i m' := by
  rcases nextSlot_spec h with ⟨hfull, hoom⟩ | ⟨m₁, hnext, hwf, hne, hget, hsize, hm₁⟩
  · exact .inl ⟨hfull, by simp [insert, hoom]⟩
  obtain ⟨next, hlink⟩ := hwf.free.exists_next hne
  have hslot := link_eq_some.1 hlink
  have hlt : m₁.head < m₁.capacity := lt_capacity_of_link hlink
  have hfree : m₁.get m₁.head = none := get_eq_none_of_link hlink
  refine .inr ⟨m₁.head,
    { m₁.setSlot m₁.head (.Element value) with head := next, size := m₁.size + 1 },
    by simp [insert, hnext, hslot], ?_⟩
  set m₂ : StableSlotmap T :=
    { m₁.setSlot m₁.head (.Element value) with head := next, size := m₁.size + 1 } with hm₂
  have hget₂ : m₂.get = Function.update m₁.get m₁.head (some value) :=
    get_setSlot (.Element value) hlt
  have hcap₂ : m₂.capacity = m₁.capacity := capacity_setSlot m₁ _ _
  have hlive : m₂.live = Insert.insert m₁.head m₁.live := by
    ext i
    rw [Finset.mem_insert, mem_live, mem_live, hget₂]
    by_cases hi : i = m₁.head
    · simp [hi]
    · simp [hi]
  refine ⟨⟨?_, ?_, ?_⟩, by rw [← hget, hfree], by rw [hget₂, hget], by rw [hcap₂]; exact hlt,
    by simp [len, hm₂, hsize], ?_, ?_⟩
  · simpa [hm₂] using hwf.slabs_le
  · exact hwf.free.pop hwf.link_SENTINEL hlink (link_setSlot (.Element value) hlt)
  · rw [hlive, Finset.card_insert_of_notMem (by simp [hfree])]
    simp [hm₂, hwf.size_eq]
  · intro j w hj
    have hjget : m₁.get j = some w := by rw [hget]; exact get_eq_some.2 hj
    have hjne : j ≠ m₁.head := by
      rintro rfl
      rw [hfree] at hjget
      cases hjget
    rw [← get_eq_some, hget₂, Function.update_of_ne hjne, hjget]
  · rcases hm₁ with rfl | ⟨hfull, rfl⟩
    · exact .inl (by simp [hm₂])
    · exact .inr ⟨h.capacity_eq_size hfull, by simp [hm₂, expanded]⟩

/-! ## `remove` -/

/-- What `remove` does to a live index. -/
structure Removed (m : StableSlotmap T) (i : ℕ) (m' : StableSlotmap T) : Prop where
  wf : m'.Wf
  get_after : m'.get = Function.update m.get i none
  len : m'.len + 1 = m.len
  stable : ∀ j, j ≠ i → m'.slotAt j = m.slotAt j
  slabs : m'.slabs.length = m.slabs.length

theorem remove_of_get_none {m : StableSlotmap T} {i : ℕ} (hi : m.get i = none) :
    m.remove i = .ok (none, m) := by
  rw [remove]
  cases he : m.slotAt i with
  | none => rfl
  | some e =>
    cases e with
    | Element v => simp [get, he] at hi
    | Link n => rfl

theorem remove_spec {m : StableSlotmap T} (h : m.Wf) {i : ℕ} {v : T} (hi : m.get i = some v) :
    ∃ m', m.remove i = .ok (some v, m') ∧ Removed m i m' := by
  have hslot := get_eq_some.1 hi
  have hlt : i < m.capacity := lt_capacity_of_get hi
  refine ⟨{ m.setSlot i (.Link m.head) with head := i, size := m.size - 1 },
    by simp [remove, hslot], ?_⟩
  set m' : StableSlotmap T :=
    { m.setSlot i (.Link m.head) with head := i, size := m.size - 1 } with hm'
  have hget : m'.get = Function.update m.get i none := get_setSlot (.Link m.head) hlt
  have hmem : i ∈ m.live := by simp [hi]
  have hlive : m'.live = m.live.erase i := by
    ext j
    rw [Finset.mem_erase, mem_live, mem_live, hget]
    by_cases hj : j = i
    · simp [hj]
    · simp [hj]
  have hpos : 0 < m.live.card := Finset.card_pos.2 ⟨i, hmem⟩
  refine ⟨⟨?_, ?_, ?_⟩, hget, ?_, fun j hj => slotAt_setSlot_ne _ hj, by simp [hm']⟩
  · simpa [hm'] using h.slabs_le
  · exact h.free.push (link_eq_none_of_get hi) (link_setSlot (.Link m.head) hlt)
  · rw [hlive, Finset.card_erase_of_mem hmem]
    simp [hm', h.size_eq]
  · have := h.size_eq
    simp only [len, hm']
    omega

/-! ## `get_mut` -/

theorem getMut_of_get_none {m : StableSlotmap T} {i : ℕ} (f : T → T) (hi : m.get i = none) :
    m.getMut i f = (none, m) := by
  simp [getMut, hi]

theorem getMut_of_get_some {m : StableSlotmap T} {i : ℕ} {v : T} (f : T → T)
    (hi : m.get i = some v) : m.getMut i f = (some v, m.setSlot i (.Element (f v))) := by
  simp [getMut, hi]

/-- Overwriting an element changes neither the free list nor the set of live indices. -/
theorem Wf.setElement {m : StableSlotmap T} (h : m.Wf) {i : ℕ} {v w : T} (hi : m.get i = some v) :
    (m.setSlot i (.Element w)).Wf := by
  have hlt : i < m.capacity := lt_capacity_of_get hi
  have hlink : (m.setSlot i (.Element w)).link = m.link := by
    rw [link_setSlot _ hlt, Entry.link?_Element, ← link_eq_none_of_get hi, Function.update_eq_self]
  have hlive : (m.setSlot i (.Element w)).live = m.live := by
    ext j
    rw [mem_live, mem_live, get_setSlot _ hlt]
    by_cases hj : j = i
    · simp [hj, hi]
    · simp [hj]
  exact ⟨by simpa using h.slabs_le, by rw [hlink]; exact h.free, by rw [hlive]; exact h.size_eq⟩

/-! ## `iter` -/

theorem iter_eq_filterMap_range (m : StableSlotmap T) :
    m.iter = (List.range m.capacity).filterMap m.get := by
  obtain ⟨slabs, head, size⟩ := m
  induction slabs using List.reverseRecOn with
  | nil => simp [iter, capacity]
  | append_singleton slabs slab ih =>
    set m₀ : StableSlotmap T := ⟨slabs, head, size⟩ with hm₀
    set m₁ : StableSlotmap T := ⟨slabs ++ [slab], head, size⟩ with hm₁
    have hcap : m₁.capacity = m₀.capacity + SLABSIZE := by
      simp [hm₀, hm₁, capacity, Nat.add_mul]
    have hold : ∀ i ∈ List.range m₀.capacity, m₁.get i = m₀.get i := by
      intro i hi
      have hdiv : i / SLABSIZE < slabs.length :=
        (Nat.div_lt_iff_lt_mul SLABSIZE_pos).2 (List.mem_range.1 hi)
      simp [get, slotAt, hm₀, hm₁, List.getElem?_append_left hdiv]
    have hnew : ∀ j : Fin SLABSIZE, m₁.get (m₀.capacity + j) = (slab j).element? := by
      intro j
      have hdiv : (m₀.capacity + j) / SLABSIZE = slabs.length := by
        rw [capacity, Nat.mul_comm, Nat.mul_add_div SLABSIZE_pos, Nat.div_eq_of_lt j.2,
          Nat.add_zero]
      have hmod : (m₀.capacity + j) % SLABSIZE = j := by
        rw [capacity, Nat.mul_comm, Nat.mul_add_mod, Nat.mod_eq_of_lt j.2]
      simp [get, slotAt, hm₁, hdiv, offset, hmod]
    have hblock : ((List.range SLABSIZE).map (m₀.capacity + ·)).filterMap m₁.get =
        (List.ofFn slab).filterMap Entry.element? := by
      rw [List.filterMap_map, ← List.map_coe_finRange_eq_range, List.filterMap_map,
        List.ofFn_eq_map, List.filterMap_map]
      exact List.filterMap_congr fun j _ => hnew j
    have hiter : m₁.iter = m₀.iter ++ (List.ofFn slab).filterMap Entry.element? := by
      simp [iter, hm₀, hm₁]
    rw [hiter, ih, hcap, List.range_add, List.filterMap_append, hblock,
      List.filterMap_congr hold]

/-- The live indices in increasing order. -/
def liveIndices (m : StableSlotmap T) : List ℕ :=
  (List.range m.capacity).filter fun i => (m.get i).isSome

theorem pairwise_liveIndices (m : StableSlotmap T) : m.liveIndices.Pairwise (· < ·) :=
  List.pairwise_lt_range.filter _

@[simp] theorem mem_liveIndices {m : StableSlotmap T} {i : ℕ} :
    i ∈ m.liveIndices ↔ (m.get i).isSome := by
  rw [← mem_live]
  simp [liveIndices, live]

theorem length_liveIndices (m : StableSlotmap T) : m.liveIndices.length = m.live.card := by
  rw [← List.toFinset_card_of_nodup ((pairwise_liveIndices m).imp ne_of_lt)]
  congr 1
  ext i
  simp

theorem iter_eq (m : StableSlotmap T) : m.iter = m.liveIndices.filterMap m.get := by
  rw [iter_eq_filterMap_range, liveIndices, List.filterMap_filter]
  refine List.filterMap_congr fun i _ => ?_
  cases m.get i <;> simp

/-! ## Operations in any order -/

/-- One call on the map, with its arguments. -/
inductive Op (T : Type) where
  | insert (value : T)
  | remove (index : ℕ)
  | get (index : ℕ)
  | getMut (index : ℕ) (f : T → T)
  | index (index : ℕ)
  | indexMut (index : ℕ) (f : T → T)
  | iter
  | len

/-- What a call returns. -/
inductive Out (T : Type) where
  | index (i : ℕ)
  | value (v : Option T)
  | values (l : List T)
  | count (n : ℕ)

/-- One call as the code carries it out. -/
def exec (m : StableSlotmap T) : Op T → Except SlotmapFault (Out T × StableSlotmap T)
  | .insert v => (m.insert v).map fun r => (.index r.1, r.2)
  | .remove i => (m.remove i).map fun r => (.value r.1, r.2)
  | .get i => .ok (.value (m.get i), m)
  | .getMut i f => .ok (.value (m.getMut i f).1, (m.getMut i f).2)
  | .index i => (m.index i).map fun v => (.value (some v), m)
  | .indexMut i f => (m.indexMut i f).map fun m' => (.value (m.get i), m')
  | .iter => .ok (.values m.iter, m)
  | .len => .ok (.count m.len, m)

/-- A step of a program that uses the map: a call that returns, or an index that panics (the map
is as it was, and the program may go on). -/
def Step (m : StableSlotmap T) (op : Op T) (m' : StableSlotmap T) : Prop :=
  (∃ out, m.exec op = .ok (out, m')) ∨ ((∃ i, m.exec op = .error (.invalidIndex i)) ∧ m' = m)

/-- The same calls on a finite map from indices to values. -/
inductive MapStep (a : ℕ → Option T) : Op T → Out T → (ℕ → Option T) → Prop
  | insert {v : T} {i : ℕ} : a i = none →
      MapStep a (.insert v) (.index i) (Function.update a i (some v))
  | remove {i : ℕ} : MapStep a (.remove i) (.value (a i)) (Function.update a i none)
  | get {i : ℕ} : MapStep a (.get i) (.value (a i)) a
  | getMut {i : ℕ} {f : T → T} :
      MapStep a (.getMut i f) (.value (a i)) (Function.update a i ((a i).map f))
  | index {i : ℕ} {v : T} : a i = some v → MapStep a (.index i) (.value (some v)) a
  | indexMut {i : ℕ} {f : T → T} {v : T} : a i = some v →
      MapStep a (.indexMut i f) (.value (some v)) (Function.update a i (some (f v)))
  | iter {live : List ℕ} : live.Pairwise (· < ·) → (∀ i, i ∈ live ↔ (a i).isSome) →
      MapStep a .iter (.values (live.filterMap a)) a
  | len {live : List ℕ} : live.Pairwise (· < ·) → (∀ i, i ∈ live ↔ (a i).isSome) →
      MapStep a .len (.count live.length) a

/-- What one call does to a well-formed map. -/
structure OpOk (m : StableSlotmap T) (op : Op T) (out : Out T) (m' : StableSlotmap T) : Prop where
  wf : m'.Wf
  refines : MapStep m.get op out m'.get
  /-- an element the call is not about stays in its slab, at its offset -/
  stable : ∀ j w, (∀ i f, op = .remove i ∨ op = .getMut i f ∨ op = .indexMut i f → j ≠ i) →
    m.slotAt j = some (.Element w) → m'.slotAt j = some (.Element w)

theorem getMut_ok {m : StableSlotmap T} (h : m.Wf) {i : ℕ} (f : T → T) :
    (m.getMut i f).1 = m.get i ∧ (m.getMut i f).2.Wf ∧
      (m.getMut i f).2.get = Function.update m.get i ((m.get i).map f) ∧
      ∀ j, j ≠ i → (m.getMut i f).2.slotAt j = m.slotAt j := by
  cases hi : m.get i with
  | none =>
    rw [getMut_of_get_none f hi]
    exact ⟨rfl, h, by rw [Option.map_none, ← hi, Function.update_eq_self], fun _ _ => rfl⟩
  | some v =>
    rw [getMut_of_get_some f hi]
    exact ⟨rfl, h.setElement hi, get_setSlot _ (lt_capacity_of_get hi),
      fun j hj => slotAt_setSlot_ne _ hj⟩

/-- **One call.**  An `insert` into a map that is full runs out of memory, indexing a dead index
panics, and every other call takes the step that a finite map takes; never does it reach an
`unreachable!()` or a failing `unwrap`. -/
theorem exec_spec {m : StableSlotmap T} (h : m.Wf) (op : Op T) :
    (∃ value, op = .insert value ∧ m.Full ∧ m.exec op = .error .outOfMemory) ∨
    (∃ i f, (op = .index i ∨ op = .indexMut i f) ∧ m.get i = none ∧
      m.exec op = .error (.invalidIndex i)) ∨
    ∃ out m', m.exec op = .ok (out, m') ∧ OpOk m op out m' := by
  cases op with
  | insert v =>
    rcases insert_spec h v with ⟨hfull, hoom⟩ | ⟨i, m', hi, hins⟩
    · exact .inl ⟨v, rfl, hfull, by simp [exec, hoom, Except.map]⟩
    · refine .inr (.inr ⟨.index i, m', by simp [exec, hi, Except.map], hins.wf, ?_,
        fun j w _ => hins.stable j w⟩)
      rw [hins.get_after]
      exact .insert hins.get_before
  | remove i =>
    refine .inr (.inr ?_)
    cases hi : m.get i with
    | none =>
      refine ⟨.value none, m, by simp [exec, remove_of_get_none hi, Except.map], h, ?_,
        fun _ _ _ hj => hj⟩
      have := MapStep.remove (a := m.get) (i := i)
      rwa [hi, ← hi, Function.update_eq_self, hi] at this
    | some v =>
      obtain ⟨m', hm', hrem⟩ := remove_spec h hi
      refine ⟨.value (some v), m', by simp [exec, hm', Except.map], hrem.wf, ?_, ?_⟩
      · rw [hrem.get_after, ← hi]
        exact .remove
      · intro j w hj hslot
        rw [hrem.stable j (hj i id (.inl rfl)), hslot]
  | get i => exact .inr (.inr ⟨_, m, rfl, h, .get, fun _ _ _ hj => hj⟩)
  | getMut i f =>
    obtain ⟨hret, hwf, hget, hstable⟩ := getMut_ok h (i := i) f
    refine .inr (.inr ⟨_, _, rfl, hwf, ?_, ?_⟩)
    · rw [hret, hget]
      exact .getMut
    · intro j w hj hslot
      rw [hstable j (hj i f (.inr (.inl rfl))), hslot]
  | index i =>
    refine .inr ?_
    cases hi : m.get i with
    | none => exact .inl ⟨i, id, .inl rfl, hi, by simp [exec, index, hi, Except.map]⟩
    | some v =>
      exact .inr ⟨.value (some v), m, by simp [exec, index, hi, Except.map], h, .index hi,
        fun _ _ _ hj => hj⟩
  | indexMut i f =>
    refine .inr ?_
    obtain ⟨hret, hwf, hget, hstable⟩ := getMut_ok h (i := i) f
    cases hi : m.get i with
    | none =>
      exact .inl ⟨i, f, .inr rfl, hi,
        by simp [exec, indexMut, getMut_of_get_none f hi, Except.map]⟩
    | some v =>
      refine .inr ⟨.value (some v), (m.getMut i f).2,
        by simp [exec, indexMut, getMut_of_get_some f hi, Except.map, hi], hwf, ?_, ?_⟩
      · rw [hget, hi, Option.map_some]
        exact .indexMut hi
      · intro j w hj hslot
        rw [hstable j (hj i f (.inr (.inr rfl))), hslot]
  | iter =>
    refine .inr (.inr ⟨_, m, rfl, h, ?_, fun _ _ _ hj => hj⟩)
    rw [iter_eq]
    exact .iter (pairwise_liveIndices m) fun i => mem_liveIndices
  | len =>
    refine .inr (.inr ⟨_, m, rfl, h, ?_, fun _ _ _ hj => hj⟩)
    rw [len, h.size_eq, ← length_liveIndices]
    exact .len (pairwise_liveIndices m) fun i => mem_liveIndices

theorem Wf.step {m m' : StableSlotmap T} {op : Op T} (h : m.Wf) (hs : m.Step op m') : m'.Wf := by
  rcases hs with ⟨out, hout⟩ | ⟨-, rfl⟩
  · rcases exec_spec h op with ⟨-, -, -, hoom⟩ | ⟨i, f, -, -, hidx⟩ | ⟨out', m'', hok, hwf⟩
    · simp [hoom] at hout
    · simp [hidx] at hout
    · rw [hok, Except.ok.injEq, Prod.mk.injEq] at hout
      exact hout.2 ▸ hwf.wf
  · exact h

/-- The invariant holds after any sequence of calls. -/
theorem wf_of_reachable {m : StableSlotmap T} (h : Runs.Reachable (· = new) Step m) : m.Wf :=
  h.invariant (fun _ hs => hs ▸ Wf.new) fun _ _ _ hi hs => hi.step hs

/-- What holds of the map after any sequence of calls. -/
structure RefinesMap (m : StableSlotmap T) : Prop where
  /-- the free list is acyclic, ends at `SENTINEL`, visits every `Link` slot once and no
  `Element` slot -/
  free_list : ∃ free, FreeList.Path m.link SENTINEL m.head free ∧ free.Nodup ∧
    ∀ i, i ∈ free ↔ ∃ next, m.slotAt i = some (.Link next)
  /-- the next call does what the finite map does, unless it is an `insert` into a full map, which
  runs out of memory, or indexes a dead index, which panics -/
  call : ∀ op, (∃ value, op = .insert value ∧ m.Full ∧ m.exec op = .error .outOfMemory) ∨
    (∃ i f, (op = .index i ∨ op = .indexMut i f) ∧ m.get i = none ∧
      m.exec op = .error (.invalidIndex i)) ∨
    ∃ out m', m.exec op = .ok (out, m') ∧ MapStep m.get op out m'.get
  /-- removing a dead index changes nothing -/
  remove_dead : ∀ i, m.get i = none → m.exec (.remove i) = .ok (.value none, m)
  /-- the other elements stay in their slab, at their offset -/
  stable : ∀ op out m', m.exec op = .ok (out, m') →
    ∀ j w, (∀ i f, op = .remove i ∨ op = .getMut i f ∨ op = .indexMut i f → j ≠ i) →
      m.slotAt j = some (.Element w) → m'.slotAt j = some (.Element w)

/-- **`StableSlotmap` refines a finite map**, after any sequence of calls, valid or not, from
`new()`. -/
theorem stableSlotmap_refines_map {m : StableSlotmap T} (h : Runs.Reachable (· = new) Step m) :
    m.RefinesMap := by
  have hwf := wf_of_reachable h
  refine ⟨?_, ?_, ?_, ?_⟩
  · obtain ⟨free, hpath, hmem⟩ := hwf.free
    refine ⟨free, hpath, hpath.nodup hwf.link_SENTINEL, fun i => ?_⟩
    rw [hmem i, Option.isSome_iff_exists]
    exact exists_congr fun n => link_eq_some
  · intro op
    rcases exec_spec hwf op with hoom | hidx | ⟨out, m', hok, hop⟩
    · exact .inl hoom
    · exact .inr (.inl hidx)
    · exact .inr (.inr ⟨out, m', hok, hop.refines⟩)
  · intro i hi
    simp [exec, remove_of_get_none hi, Except.map]
  · intro op out m' hout
    rcases exec_spec hwf op with ⟨-, -, -, hoom⟩ | ⟨i, f, -, -, hidx⟩ | ⟨out', m'', hok, hop⟩
    · simp [hoom] at hout
    · simp [hidx] at hout
    · rw [hok, Except.ok.injEq, Prod.mk.injEq] at hout
      exact hout.2 ▸ hop.stable

theorem refinesMap_after_insert :
    ∃ m : StableSlotmap ℕ, (new : StableSlotmap ℕ).insert 7 = .ok (0, m) ∧ m.get 0 = some 7 ∧
      m.RefinesMap := by
  obtain ⟨m, hm, hget⟩ : ∃ m : StableSlotmap ℕ, (new : StableSlotmap ℕ).insert 7 = .ok (0, m) ∧
      m.get 0 = some 7 := ⟨_, rfl, rfl⟩
  have hstep : Step (new : StableSlotmap ℕ) (.insert 7) m := .inl ⟨.index 0, by
    simp [exec, hm, Except.map]⟩
  exact ⟨m, hm, hget, stableSlotmap_refines_map (.tail (.init rfl) hstep)⟩

end StableSlotmap

end Hamerkop
