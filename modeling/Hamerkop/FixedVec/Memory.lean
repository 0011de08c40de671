import Hamerkop.FixedVec

/-!
# The memory of a `FixedVec`

`hamerkop/src/fixedvec.rs` moves its elements through raw pointers.  Here the boxed slice
is a list of cells: a cell is uninitialised, holds an element, or still has the bits of an
element that has been moved out of it or dropped.

A function of the source is a `VecM`: it works on a `Mem`, which besides the vector keeps
account of what must not happen silently, the elements dropped in place, the cells read
although they held no element and the elements shown to a predicate.  It may end normally,
panic, or run into undefined behaviour: an access outside the slice, or the use of a cell
that was never initialised.  Elements are taken to need dropping.

The accesses through pointers are the primitives `takeOut`, `putIn`, `ptrRead`, `ptrWrite`,
`ptrSwap` and `dropInPlace`, each with a lemma that says what it does to a slice of which
the cells before and behind the access are split off.
-/

namespace Hamerkop

/-- One element of `Box<[MaybeUninit<T>]>`. -/
inductive Cell (T : Type) where
  | uninit
  | init (x : T)
  /-- the element has left, its bits are still there -/
  | moved (x : T)
deriving DecidableEq, Repr

namespace Cell

variable {T : Type}

/-- What the memory of the cell holds, whether the element is still there or not. -/
def bits : Cell T → Option T
  | .uninit => none
  | .init x | .moved x => some x

/-- Whether the cell holds an element. -/
def isInit : Cell T → Bool
  | .init _ => true
  | _ => false

/-- The element leaves. -/
def leave : Cell T → Cell T
  | .init x => .moved x
  | c => c

@[simp] theorem isInit_init (x : T) : (init x).isInit = true := rfl
@[simp] theorem isInit_leave (c : Cell T) : c.leave.isInit = false := by cases c <;> rfl
@[simp] theorem bits_init (x : T) : (init x).bits = some x := rfl
@[simp] theorem bits_leave (c : Cell T) : c.leave.bits = c.bits := by cases c <;> rfl

end Cell

/-- A `FixedVec` with its memory. -/
structure RawVec (T : Type) where
  cells : List (Cell T)
  size : ℕ
deriving DecidableEq, Repr

namespace RawVec

variable {T : Type}

/-- `with_capacity(capacity)` -/
def withCapacity (capacity : ℕ) : RawVec T :=
  { cells := List.replicate capacity .uninit, size := 0 }

/-- The number of cells. -/
def capacity (v : RawVec T) : ℕ := v.cells.length

/-- `len()` -/
def len (v : RawVec T) : ℕ := v.size

/-- The number of elements that can be added. -/
def available (v : RawVec T) : ℕ := v.capacity - v.len

/-- What `as_slice` shows. -/
def contents (v : RawVec T) : List (Option T) := (v.cells.take v.size).map Cell.bits

/-- The vector as the buffer pool sees it. -/
def toFixedVec (v : RawVec T) (ptr : UInt64) : FixedVec T :=
  { ptr, data := v.cells.map Cell.bits, size := v.size }

/-- Exactly the cells below the length hold elements, and these are `l`. -/
def Holds (v : RawVec T) (l : List T) : Prop :=
  ∃ rest, v.cells = l.map Cell.init ++ rest ∧ v.size = l.length ∧ ∀ c ∈ rest, c.isInit = false

theorem Holds.len_eq {v : RawVec T} {l : List T} (h : v.Holds l) : v.len = l.length := by
  obtain ⟨_, -, hsize, -⟩ := h
  exact hsize

theorem Holds.length_le {v : RawVec T} {l : List T} (h : v.Holds l) : l.length ≤ v.capacity := by
  obtain ⟨rest, hcells, -, -⟩ := h
  rw [capacity, hcells, List.length_append, List.length_map]
  omega

theorem Holds.contents_eq {v : RawVec T} {l : List T} (h : v.Holds l) :
    v.contents = l.map some := by
  obtain ⟨rest, hcells, hsize, -⟩ := h
  rw [contents, hcells, hsize, List.take_left' (List.length_map ..), List.map_map]
  rfl

theorem withCapacity_holds (n : ℕ) : (withCapacity n : RawVec T).Holds [] :=
  ⟨List.replicate n .uninit, rfl, rfl, fun c hc => by rw [List.eq_of_mem_replicate hc]; rfl⟩

@[simp] theorem capacity_withCapacity (n : ℕ) : (withCapacity n : RawVec T).capacity = n :=
  List.length_replicate

/-- A full vector of these elements. -/
def ofList (l : List T) : RawVec T := { cells := l.map .init, size := l.length }

theorem ofList_holds (l : List T) : (ofList l).Holds l :=
  ⟨[], (List.append_nil _).symm, rfl, fun _ h => absurd h List.not_mem_nil⟩

end RawVec

/-- A vector at work. -/
structure Mem (T : Type) where
  vec : RawVec T
  /-- the elements dropped in place -/
  dropped : List T
  /-- the cells that were read without holding an element -/
  stale : List ℕ
  /-- the elements lent to a predicate of the caller -/
  lent : List T

/-- A vector of which nothing has been dropped or lent. -/
def RawVec.mem {T : Type} (v : RawVec T) : Mem T :=
  { vec := v, dropped := [], stale := [], lent := [] }

/-- What must not happen. -/
inductive Fault where
  /-- an access outside the boxed slice -/
  | outOfBounds
  /-- the use of a cell that was never initialised -/
  | uninitialised
deriving DecidableEq, Repr

/-- How a function of the source ends. -/
inductive Outcome (T α : Type) where
  | ok (a : α) (m : Mem T)
  | panic (m : Mem T)
  | undefined (fault : Fault)

/-- What comes behind a function that has ended, if it has ended normally. -/
def Outcome.bind {T α β : Type} : Outcome T α → (α → Mem T → Outcome T β) → Outcome T β
  | .ok a m, f => f a m
  | .panic m, _ => .panic m
  | .undefined fault, _ => .undefined fault

/-- A function of the source. -/
def VecM (T α : Type) : Type := Mem T → Outcome T α

namespace VecM

variable {T α β : Type}

instance : Monad (VecM T) where
  pure a := fun m => .ok a m
  bind x f := fun m => (x m).bind f

@[simp] theorem pure_apply (a : α) (m : Mem T) : (pure a : VecM T α) m = .ok a m := rfl

theorem bind_apply (x : VecM T α) (f : α → VecM T β) (m : Mem T) : (x >>= f) m = (x m).bind f := rfl

/-- What comes first ends normally. -/
theorem bind_ok {x : VecM T α} {f : α → VecM T β} {m m' : Mem T} {a : α} (h : x m = .ok a m') :
    (x >>= f) m = f a m' := by
  rw [bind_apply, h]
  rfl

/-- What comes first panics. -/
theorem bind_panic {x : VecM T α} {f : α → VecM T β} {m m' : Mem T} (h : x m = .panic m') :
    (x >>= f) m = .panic m' := by
  rw [bind_apply, h]
  rfl

/-- What comes first has undefined behaviour. -/
theorem bind_undefined {x : VecM T α} {f : α → VecM T β} {m : Mem T} {fault : Fault}
    (h : x m = .undefined fault) : (x >>= f) m = .undefined fault := by
  rw [bind_apply, h]
  rfl

/-- The vector as it is now. -/
def vec : VecM T (RawVec T) := fun m => .ok m.vec m

/-- `panic!` -/
def panic : VecM T α := fun m => .panic m

/-- `assert!` -/
def assert (p : Prop) [Decidable p] : VecM T Unit := if p then pure () else panic

/-- `set_len(new_len)` -/
def setLen (newLen : ℕ) : VecM T Unit := fun m =>
  .ok () { m with vec := { m.vec with size := newLen } }

theorem vec_bind (f : RawVec T → VecM T β) (m : Mem T) : (vec >>= f) m = f m.vec m := rfl

theorem setLen_bind (newLen : ℕ) (f : Unit → VecM T β) (m : Mem T) :
    (setLen newLen >>= f) m = f () { m with vec := { m.vec with size := newLen } } := rfl

/-- `for i in start..start + count` -/
def forRange (body : ℕ → VecM T Unit) : ℕ → ℕ → VecM T Unit
  | _, 0 => pure ()
  | i, count + 1 => do
    body i
    forRange body (i + 1) count

/-! ## Accesses through pointers -/

/-- The cells among these, from this index on, that hold no element. -/
def staleIn : ℕ → List (Cell T) → List ℕ
  | _, [] => []
  | i, c :: cs => if c.isInit then staleIn (i + 1) cs else i :: staleIn (i + 1) cs

/-- Cells are copied out; the elements in them leave. -/
def takeOut (src count : ℕ) : VecM T (List (Cell T)) := fun m =>
  if src + count ≤ m.vec.capacity then
    let segment := (m.vec.cells.drop src).take count
    .ok segment
      { m with
        vec := { m.vec with
          cells := m.vec.cells.take src ++ segment.map Cell.leave ++
            m.vec.cells.drop (src + count) }
        stale := m.stale ++ staleIn src segment }
  else
    .undefined .outOfBounds

/-- Cells are copied in. -/
def putIn (dst : ℕ) (segment : List (Cell T)) : VecM T Unit := fun m =>
  if dst + segment.length ≤ m.vec.capacity then
    .ok () { m with
      vec := { m.vec with
        cells := m.vec.cells.take dst ++ segment ++ m.vec.cells.drop (dst + segment.length) } }
  else
    .undefined .outOfBounds

/-- `ptr::copy`, whose source and destination may overlap. -/
def ptrCopy (src dst count : ℕ) : VecM T Unit := do
  let segment ← takeOut src count
  putIn dst segment

/-- `ptr::write` -/
def ptrWrite (i : ℕ) (x : T) : VecM T Unit := putIn i [.init x]

/-- Something happens that must not. -/
def undefined (fault : Fault) : VecM T α := fun _ => .undefined fault

/-- The elements in these cells, the first of which is this cell. -/
def elements (i : ℕ) (cells : List (Cell T)) : VecM T (List T) := fun m =>
  match cells.mapM Cell.bits with
  | some l => .ok l { m with stale := m.stale ++ staleIn i cells }
  | none => .undefined .uninitialised

/-- `as_slice`, all of which is read -/
def asSlice : VecM T (List T) := do
  let v ← vec
  if v.size ≤ v.capacity then
    elements 0 (v.cells.take v.size)
  else
    undefined .outOfBounds

/-- The element in this cell. -/
def element (cells : List (Cell T)) : VecM T T :=
  match cells with
  | [.init x] | [.moved x] => pure x
  | _ => undefined .uninitialised

/-- `ptr::read` -/
def ptrRead (i : ℕ) : VecM T T := do
  let segment ← takeOut i 1
  element segment

/-- `ptr::swap`, which may be given the same cell twice. -/
def ptrSwap (i j : ℕ) : VecM T Unit := fun m =>
  match m.vec.cells[i]?, m.vec.cells[j]? with
  | some x, some y =>
    .ok () { m with
      vec := { m.vec with cells := (m.vec.cells.set i y).set j x }
      stale := m.stale ++ staleIn i [x] ++ staleIn j [y] }
  | _, _ => .undefined .outOfBounds

/-- An element's destructor runs. -/
def dropped (x : T) : VecM T Unit := fun m => .ok () { m with dropped := m.dropped ++ [x] }

/-- `ptr::drop_in_place` -/
def dropInPlace (i : ℕ) : VecM T Unit := do
  let x ← ptrRead i
  dropped x

/-- The element lent by `&self[i]` -/
def index (i : ℕ) : VecM T T := do
  let v ← vec
  if i < v.size then
    let l ← elements i ((v.cells.drop i).take 1)
    match l with
    | [x] => pure x
    | _ => undefined .outOfBounds
  else
    panic

/-- An element is shown to a predicate. -/
def lend (x : T) : VecM T Unit := fun m => .ok () { m with lent := m.lent ++ [x] }

/-! ## What the accesses do -/

variable {m : Mem T} {src dst count i : ℕ} {before after : List (Cell T)}

@[simp] theorem staleIn_init (i : ℕ) (l : List T) : staleIn i (l.map Cell.init) = [] := by
  induction l generalizing i with
  | nil => rfl
  | cons x l ih => exact ih (i + 1)

theorem assert_pos {p : Prop} [Decidable p] (h : p) (m : Mem T) : assert p m = .ok () m := by
  rw [assert, if_pos h]
  rfl

theorem assert_neg {p : Prop} [Decidable p] (h : ¬ p) (m : Mem T) : assert p m = .panic m := by
  rw [assert, if_neg h]
  rfl

theorem takeOut_eq {segment : List (Cell T)} (h : m.vec.cells = before ++ segment ++ after)
    (hsrc : src = before.length) (hcount : count = segment.length) :
    takeOut src count m = .ok segment
      { m with
        vec := { m.vec with cells := before ++ segment.map Cell.leave ++ after }
        stale := m.stale ++ staleIn src segment } := by
  have hcap : m.vec.capacity = before.length + segment.length + after.length := by
    rw [RawVec.capacity, h, List.length_append, List.length_append]
  have htake : m.vec.cells.take src = before := by
    rw [h, List.append_assoc, List.take_left' hsrc.symm]
  have hsegment : (m.vec.cells.drop src).take count = segment := by
    rw [h, List.append_assoc, List.drop_left' hsrc.symm, List.take_left' hcount.symm]
  have hdrop : m.vec.cells.drop (src + count) = after := by
    rw [h, List.drop_left' (by rw [List.length_append, hsrc, hcount])]
  rw [takeOut, if_pos (by omega)]
  simp only [htake, hsegment, hdrop]

theorem takeOut_outOfBounds (h : m.vec.capacity < src + count) :
    takeOut src count m = .undefined .outOfBounds := by
  rw [takeOut, if_neg (not_le.mpr h)]

theorem putIn_eq {old segment : List (Cell T)} (h : m.vec.cells = before ++ old ++ after)
    (hdst : dst = before.length) (hlen : segment.length = old.length) :
    putIn dst segment m =
      .ok () { m with vec := { m.vec with cells := before ++ segment ++ after } } := by
  have hcap : m.vec.capacity = before.length + old.length + after.length := by
    rw [RawVec.capacity, h, List.length_append, List.length_append]
  have htake : m.vec.cells.take dst = before := by
    rw [h, List.append_assoc, List.take_left' hdst.symm]
  have hdrop : m.vec.cells.drop (dst + segment.length) = after := by
    rw [h, List.drop_left' (by rw [List.length_append, hdst, hlen])]
  rw [putIn, if_pos (by omega), htake, hdrop]

/-- Elements move over a gap before them. -/
theorem ptrCopy_left {gap segment : List (Cell T)}
    (h : m.vec.cells = before ++ gap ++ segment ++ after)
    (hsrc : src = before.length + gap.length) (hdst : dst = before.length)
    (hcount : count = segment.length) :
    ptrCopy src dst count m = .ok ()
      { m with
        vec := { m.vec with
          cells := before ++ segment ++ (gap ++ segment.map Cell.leave).drop count ++ after }
        stale := m.stale ++ staleIn src segment } := by
  have hsrc' : src = (before ++ gap).length := by rw [hsrc, List.length_append]
  rw [ptrCopy, bind_ok (takeOut_eq h hsrc' hcount)]
  have hsplit := List.take_append_drop count (gap ++ segment.map Cell.leave)
  have hcells : before ++ gap ++ segment.map Cell.leave ++ after =
      before ++ (gap ++ segment.map Cell.leave).take count ++
        ((gap ++ segment.map Cell.leave).drop count ++ after) := by
    conv_lhs => rw [List.append_assoc before, ← hsplit]
    simp only [List.append_assoc]
  rw [putIn_eq hcells hdst (by
    rw [List.length_take, List.length_append, List.length_map]
    omega), List.append_assoc (before ++ segment)]

/-- Elements move one cell on. -/
theorem ptrCopy_right {segment : List (Cell T)} {c : Cell T}
    (h : m.vec.cells = before ++ segment ++ c :: after) (hsrc : src = before.length)
    (hcount : count = segment.length) :
    ∃ c', ptrCopy src (src + 1) count m = .ok ()
      { m with
        vec := { m.vec with cells := before ++ c' :: (segment ++ after) }
        stale := m.stale ++ staleIn src segment } := by
  rw [ptrCopy, bind_ok (takeOut_eq h hsrc hcount)]
  obtain ⟨c', old, hold⟩ : ∃ c' old, segment.map Cell.leave ++ [c] = c' :: old :=
    List.exists_cons_of_ne_nil (by simp)
  have hlen := congrArg List.length hold
  simp only [List.length_append, List.length_map, List.length_cons, List.length_nil] at hlen
  have hcells : before ++ segment.map Cell.leave ++ c :: after =
      (before ++ [c']) ++ old ++ after := by
    rw [List.append_assoc, ← @List.singleton_append _ c after, ← List.append_assoc _ [c], hold]
    simp
  refine ⟨c', ?_⟩
  rw [putIn_eq hcells (by rw [hsrc, List.length_append, List.length_singleton]) (by omega)]
  simp

theorem ptrWrite_eq {c : Cell T} {x : T} (h : m.vec.cells = before ++ c :: after)
    (hi : i = before.length) :
    ptrWrite i x m =
      .ok () { m with vec := { m.vec with cells := before ++ .init x :: after } } := by
  have hcells : m.vec.cells = before ++ [c] ++ after := by rw [h, List.append_assoc]; rfl
  rw [ptrWrite, putIn_eq hcells hi (rfl : [Cell.init x].length = [c].length), List.append_assoc]
  rfl

/-- An element is read out of its cell, or what it has left there. -/
theorem ptrRead_bits {c : Cell T} {x : T} (h : m.vec.cells = before ++ c :: after)
    (hi : i = before.length) (hx : c.bits = some x) :
    ptrRead i m = .ok x
      { m with
        vec := { m.vec with cells := before ++ .moved x :: after }
        stale := m.stale ++ staleIn i [c] } := by
  have hcells : m.vec.cells = before ++ [c] ++ after := by rw [h, List.append_assoc]; rfl
  rw [ptrRead, bind_ok (takeOut_eq hcells hi (rfl : 1 = [c].length))]
  cases c with
  | uninit => cases hx
  | init y =>
    obtain rfl := Option.some.inj hx
    simp [element, Cell.leave]
  | moved y =>
    obtain rfl := Option.some.inj hx
    simp [element, Cell.leave]

theorem ptrRead_eq {x : T} (h : m.vec.cells = before ++ .init x :: after)
    (hi : i = before.length) :
    ptrRead i m =
      .ok x { m with vec := { m.vec with cells := before ++ .moved x :: after } } := by
  rw [ptrRead_bits h hi rfl]
  simp [staleIn]

theorem dropInPlace_bits {c : Cell T} {x : T} (h : m.vec.cells = before ++ c :: after)
    (hi : i = before.length) (hx : c.bits = some x) :
    dropInPlace i m = .ok ()
      { m with
        vec := { m.vec with cells := before ++ .moved x :: after }
        dropped := m.dropped ++ [x]
        stale := m.stale ++ staleIn i [c] } := by
  rw [dropInPlace, bind_ok (ptrRead_bits h hi hx)]
  rfl

theorem staleIn_cons (i : ℕ) (c : Cell T) (cells : List (Cell T)) :
    staleIn i (c :: cells) = staleIn i [c] ++ staleIn (i + 1) cells := by
  simp only [staleIn]
  split_ifs <;> simp

/-- Cells are dropped in place one after the other, whether or not the elements are still there. -/
theorem forRange_dropInPlace_bits {segment : List (Cell T)} {l : List T}
    (h : m.vec.cells = before ++ segment ++ after) (hi : i = before.length)
    (hl : segment.map Cell.bits = l.map some) :
    forRange dropInPlace i l.length m = .ok ()
      { m with
        vec := { m.vec with cells := before ++ l.map Cell.moved ++ after }
        dropped := m.dropped ++ l
        stale := m.stale ++ staleIn i segment } := by
  induction l generalizing m before i segment with
  | nil =>
    obtain rfl := List.map_eq_nil_iff.mp hl
    rw [List.length_nil, forRange]
    simp only [List.map_nil, List.append_nil, staleIn] at h ⊢
    rw [← h]
    rfl
  | cons x l ih =>
    obtain ⟨c, segment, rfl, hx, hl⟩ := List.map_eq_cons_iff.mp hl
    have hcells : m.vec.cells = before ++ c :: (segment ++ after) := by
      rw [h, List.append_assoc, List.cons_append]
    rw [List.length_cons, forRange, bind_ok (dropInPlace_bits hcells hi hx),
      @ih _ (i + 1) (before ++ [.moved x]) segment (by simp) (by rw [hi]; simp) hl,
      staleIn_cons i c segment]
    simp

theorem forRange_dropInPlace {l : List T} (h : m.vec.cells = before ++ l.map Cell.init ++ after)
    (hi : i = before.length) :
    forRange dropInPlace i l.length m = .ok ()
      { m with
        vec := { m.vec with cells := before ++ l.map Cell.moved ++ after }
        dropped := m.dropped ++ l } := by
  rw [forRange_dropInPlace_bits h hi List.map_map, staleIn_init, List.append_nil]

theorem ptrSwap_eq {l : List T} {rest : List (Cell T)} {j : ℕ}
    (h : m.vec.cells = l.map Cell.init ++ rest) (hi : i < l.length) (hj : j < l.length) :
    ptrSwap i j m = .ok ()
      { m with
        vec := { m.vec with cells := ((l.set i l[j]).set j l[i]).map Cell.init ++ rest } } := by
  have hget : ∀ k (hk : k < l.length), m.vec.cells[k]? = some (Cell.init l[k]) := by
    intro k hk
    rw [h, List.getElem?_append_left (by rwa [List.length_map]), List.getElem?_map,
      List.getElem?_eq_getElem hk]
    rfl
  have hcells : (m.vec.cells.set i (.init l[j])).set j (.init l[i]) =
      ((l.set i l[j]).set j l[i]).map Cell.init ++ rest := by
    rw [h, List.set_append_left _ _ (by rwa [List.length_map]),
      List.set_append_left _ _ (by rwa [List.length_set, List.length_map]), List.map_set,
      List.map_set]
  rw [ptrSwap, hget i hi, hget j hj]
  simp only [hcells, staleIn, Cell.isInit_init, if_true, List.append_nil]

theorem elements_eq (i : ℕ) (l : List T) (m : Mem T) :
    elements i (l.map Cell.init) m = .ok l m := by
  have hbits : (l.map Cell.init).mapM Cell.bits = some l := by
    induction l with
    | nil => rfl
    | cons x l ih => rw [List.map_cons, List.mapM_cons, ih]; rfl
  rw [elements, hbits, staleIn_init, List.append_nil]

theorem asSlice_eq {l : List T} (h : m.vec.Holds l) : asSlice m = .ok l m := by
  have hle := h.length_le
  obtain ⟨rest, hcells, hsize, -⟩ := h
  rw [← hsize] at hle
  have htake : m.vec.cells.take m.vec.size = l.map Cell.init := by
    rw [hcells, hsize, List.take_left' (List.length_map ..)]
  rw [asSlice, vec_bind, if_pos hle, htake, elements_eq]

theorem index_eq {l : List T} (h : m.vec.Holds l) (hi : i < l.length) :
    index i m = .ok l[i] m := by
  obtain ⟨rest, hcells, hsize, -⟩ := h
  have hlt : i < m.vec.size := hsize ▸ hi
  have htake : (m.vec.cells.drop i).take 1 = [l[i]].map Cell.init := by
    rw [hcells, List.drop_append_of_le_length (by rw [List.length_map]; omega), ← List.map_drop,
      List.drop_eq_getElem_cons hi]
    rfl
  rw [index, vec_bind, if_pos hlt, htake, bind_ok (elements_eq i [l[i]] m)]
  rfl

end VecM

end Hamerkop
