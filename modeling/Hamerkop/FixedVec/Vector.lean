import Hamerkop.FixedVec.Memory
import Hamerkop.Util.Dedup

/-!
# The operations of a `FixedVec`

The functions of `hamerkop/src/fixedvec.rs` that push, pop, shift, swap and clone elements,
translated access by access, and what each of them does to a vector whose cells below the
length are exactly the initialised ones.  `After` is the form of all these results: the
list that the vector holds afterwards, and the elements dropped on the way.

A closure or an iterator is given by what it returns: the results of its calls, the items
it still has to give.
-/

namespace Hamerkop

namespace RawVec

open VecM

variable {T : Type}

/-! ## The source -/

/-- `push(value)`, which gives the value back when there is no room. -/
def push (value : T) : VecM T (Except T Unit) := do
  let v ← vec
  if v.available = 0 then
    return .error value
  else
    ptrWrite v.len value
    setLen (v.len + 1)
    return .ok ()

/-- `pop()` -/
def pop : VecM T (Option T) := do
  let v ← vec
  if v.len = 0 then
    return none
  else
    setLen (v.len - 1)
    let x ← ptrRead (v.len - 1)
    return some x

/-- `swap_remove(index)` -/
def swapRemove (index : ℕ) : VecM T T := do
  let v ← vec
  assert (index < v.len)
  if index + 1 < v.len then
    ptrSwap (v.len - 1) index
  match ← pop with
  | some x => return x
  | none => panic

/-- `insert(index, element)` -/
def insert (index : ℕ) (element : T) : VecM T Unit := do
  let v ← vec
  assert (index ≤ v.len)
  assert (v.available > 0)
  ptrCopy index (index + 1) (v.len - index)
  ptrWrite index element
  setLen (v.len + 1)

/-- `remove(index)` -/
def remove (index : ℕ) : VecM T T := do
  let v ← vec
  assert (index < v.len)
  let value ← ptrRead index
  ptrCopy (index + 1) index (v.len - index - 1)
  setLen (v.len - 1)
  return value

/-- `truncate(len)` -/
def truncate (len : ℕ) : VecM T Unit := do
  let v ← vec
  if len ≥ v.len then
    return ()
  else
    setLen len
    forRange dropInPlace len (v.len - len)

/-- `clear()` -/
def clear : VecM T Unit := do
  let v ← vec
  setLen 0
  forRange dropInPlace 0 v.len

/-- The `for` loop of `resize_with`; the next call of the closure is the `k`-th. -/
def fillWith (f : ℕ → T) : ℕ → ℕ → ℕ → VecM T Unit
  | _, _, 0 => pure ()
  | k, i, count + 1 => do
    ptrWrite i (f k)
    let v ← vec
    setLen (v.len + 1)
    fillWith f (k + 1) (i + 1) count

/-- `resize_with(new_len, f)`, where `f` is asked for the elements in order. -/
def resizeWith (newLen : ℕ) (f : ℕ → T) : VecM T Unit := do
  let v ← vec
  if newLen ≤ v.len then
    truncate newLen
  else do
    assert (newLen ≤ v.capacity)
    fillWith f 0 v.len (newLen - v.len)

/-- What the element type brings: whether it is `Copy`, and its `clone`. -/
structure ElementType (T : Type) where
  isCopy : Bool
  clone : T → T

/-- The element that `extend_from_slice` stores for an element of the slice. -/
def ElementType.stored (elem : ElementType T) (x : T) : T := if elem.isCopy then x else elem.clone x

/-- The `for` loop of `extend_from_slice` -/
def cloneEach (elem : ElementType T) : List T → VecM T Unit
  | [] => pure ()
  | item :: other => do
    let v ← vec
    ptrWrite v.len (elem.clone item)
    setLen (v.len + 1)
    cloneEach elem other

/-- `extend_from_slice(other)`: what there is room for is cloned, and counted. -/
def extendFromSlice (elem : ElementType T) (other : List T) : VecM T ℕ := do
  let v ← vec
  let other := other.take (min v.available other.length)
  if elem.isCopy then
    putIn v.len (other.map Cell.init)
    setLen (v.len + other.length)
  else
    cloneEach elem other
  return other.length

/-- `clone`, of which the new vector is the result -/
def clone (elem : ElementType T) : VecM T (Outcome T ℕ) := do
  let v ← vec
  let slice ← asSlice
  return extendFromSlice elem slice (withCapacity v.capacity).mem

/-- `Extend::extend`, which returns the items it has left in the iterator.  An item is stored as
it is, or cloned when the iterator only lends it. -/
def extend (item : T → T) : List T → VecM T (List T)
  | [] => pure []
  | x :: iter => do
    let v ← vec
    if v.available > 0 then
      match ← push (item x) with
      | .ok () => extend item iter
      | .error _ => panic
    else
      return x :: iter

/-! ## What an operation leaves behind -/

/-- The vector holds `l` now, in as many cells as before; the elements `gone`, and no others, have
been dropped, and every cell that was read held an element. -/
structure After (m m' : Mem T) (l gone : List T) : Prop where
  holds : m'.vec.Holds l
  capacity : m'.vec.capacity = m.vec.capacity
  dropped : m'.dropped = m.dropped ++ gone
  stale : m'.stale = m.stale

variable {m m' : Mem T} {l : List T}

theorem After.refl (h : m.vec.Holds l) : After m m l [] :=
  ⟨h, rfl, (List.append_nil _).symm, rfl⟩

theorem After.trans {m'' : Mem T} {l' l'' gone gone' : List T} (h : After m m' l' gone)
    (h' : After m' m'' l'' gone') : After m m'' l'' (gone ++ gone') where
  holds := h'.holds
  capacity := h'.capacity.trans h.capacity
  dropped := by rw [h'.dropped, h.dropped, List.append_assoc]
  stale := h'.stale.trans h.stale

theorem Holds.available_eq {v : RawVec T} (h : v.Holds l) :
    v.available = v.capacity - l.length := by
  rw [available, h.len_eq]

/-- The cells of a vector that has room. -/
theorem Holds.room {v : RawVec T} (h : v.Holds l) (hroom : l.length < v.capacity) :
    ∃ c rest, v.cells = l.map Cell.init ++ c :: rest ∧ v.size = l.length ∧
      ∀ c' ∈ rest, c'.isInit = false := by
  obtain ⟨rest, hcells, hsize, hrest⟩ := h
  cases rest with
  | nil =>
    rw [capacity, hcells, List.append_nil, List.length_map] at hroom
    omega
  | cons c rest =>
    exact ⟨c, rest, hcells, hsize, fun c' hc' => hrest c' (List.mem_cons_of_mem _ hc')⟩

/-! ## The specification of each operation -/

/-- One more element is written behind the last. -/
theorem write_room {x : T} (h : m.vec.Holds l) (hroom : l.length < m.vec.capacity) :
    ∃ m₁, ptrWrite m.vec.len x m = .ok () m₁ ∧ m₁.vec.len = m.vec.len ∧
      After m { m₁ with vec := { m₁.vec with size := m.vec.len + 1 } } (l ++ [x]) [] := by
  obtain ⟨c, rest, hcells, hsize, hrest⟩ := h.room hroom
  have hlen : m.vec.len = (l.map Cell.init).length := by rw [len, hsize, List.length_map]
  refine ⟨_, ptrWrite_eq hcells hlen, rfl, ⟨rest, ?_, ?_, hrest⟩, ?_, ?_, rfl⟩
  · simp
  · simp [hlen]
  · simp [capacity, hcells]
  · simp

theorem push_room {x : T} (h : m.vec.Holds l) (hroom : l.length < m.vec.capacity) :
    ∃ m', push x m = .ok (.ok ()) m' ∧ After m m' (l ++ [x]) [] := by
  have havail := h.available_eq
  obtain ⟨m₁, hwrite, -, hafter⟩ := write_room h hroom
  refine ⟨_, ?_, hafter⟩
  rw [push, vec_bind, if_neg (by omega), bind_ok hwrite]
  rfl

theorem push_full {x : T} (h : m.vec.Holds l) (hfull : l.length = m.vec.capacity) :
    push x m = .ok (.error x) m := by
  rw [push, vec_bind, if_pos (by rw [h.available_eq]; omega)]
  rfl

theorem pop_empty (h : m.vec.Holds []) : pop m = .ok none m := by
  have hlen : m.vec.len = 0 := h.len_eq
  rw [pop, vec_bind, if_pos hlen]
  rfl

theorem pop_append {x : T} (h : m.vec.Holds (l ++ [x])) :
    ∃ m', pop m = .ok (some x) m' ∧ After m m' l [] := by
  have hlen := h.len_eq
  rw [List.length_append, List.length_singleton] at hlen
  obtain ⟨rest, hcells, hsize, hrest⟩ := h
  have hcells' : m.vec.cells = l.map Cell.init ++ .init x :: rest := by
    rw [hcells, List.map_append, List.append_assoc]
    rfl
  have hread := ptrRead_eq (m := { m with vec := { m.vec with size := m.vec.len - 1 } }) hcells'
    (by rw [hlen, List.length_map]; rfl : m.vec.len - 1 = _)
  refine ⟨_, by
    rw [pop, vec_bind, if_neg (by omega), setLen_bind, bind_ok hread]
    rfl, ?_⟩
  refine ⟨⟨.moved x :: rest, rfl, ?_, ?_⟩, ?_, ?_, rfl⟩
  · simp [hlen]
  · exact List.forall_mem_cons.mpr ⟨rfl, hrest⟩
  · simp [capacity, hcells']
  · simp

theorem pop_eq (h : m.vec.Holds l) :
    ∃ m', pop m = .ok l.getLast? m' ∧ After m m' l.dropLast [] := by
  obtain rfl | ⟨l, x, rfl⟩ := List.eq_nil_or_concat' l
  · exact ⟨m, pop_empty h, After.refl h⟩
  · rw [List.getLast?_concat, List.dropLast_concat]
    exact pop_append h

theorem insertIdx_append (l l' : List T) (x : T) :
    (l ++ l').insertIdx l.length x = l ++ x :: l' := by
  induction l with
  | nil => rfl
  | cons y l ih =>
    rw [List.cons_append, List.length_cons, List.insertIdx_succ_cons, ih]
    rfl

theorem insert_append {l' : List T} {x : T} (h : m.vec.Holds (l ++ l'))
    (hroom : (l ++ l').length < m.vec.capacity) :
    ∃ m', insert l.length x m = .ok () m' ∧ After m m' (l ++ x :: l') [] := by
  have hlen := h.len_eq
  have havail := h.available_eq
  obtain ⟨c, rest, hcells, -, hrest⟩ := h.room hroom
  rw [List.length_append] at hlen havail hroom
  have hbefore : l.length = (l.map Cell.init).length := (List.length_map _).symm
  obtain ⟨c', hcopy⟩ := ptrCopy_right (List.map_append ▸ hcells) hbefore
    (by rw [hlen, List.length_map]; omega : m.vec.len - l.length = (l'.map Cell.init).length)
  refine ⟨_, by
    rw [insert, vec_bind, bind_ok (assert_pos (by omega) m), bind_ok (assert_pos (by omega) m),
      bind_ok hcopy, bind_ok (ptrWrite_eq rfl hbefore)]
    rfl, ?_⟩
  refine ⟨⟨rest, ?_, ?_, hrest⟩, ?_, ?_, ?_⟩
  · simp
  · simp [hlen]
    omega
  · simp [capacity, hcells]
    omega
  · simp
  · exact (congrArg (m.stale ++ ·) (staleIn_init l.length l')).trans (List.append_nil _)

theorem remove_append {l' : List T} {x : T} (h : m.vec.Holds (l ++ x :: l')) :
    ∃ m', remove l.length m = .ok x m' ∧ After m m' (l ++ l') [] := by
  have hlen := h.len_eq
  obtain ⟨rest, hcells, -, hrest⟩ := h
  rw [List.length_append, List.length_cons] at hlen
  have hbefore : l.length = (l.map Cell.init).length := (List.length_map _).symm
  have hcells' : m.vec.cells = l.map Cell.init ++ .init x :: (l'.map Cell.init ++ rest) := by
    rw [hcells, List.map_append, List.map_cons, List.append_assoc, List.cons_append]
  have hcells'' : l.map Cell.init ++ .moved x :: (l'.map Cell.init ++ rest) =
      l.map Cell.init ++ [.moved x] ++ l'.map Cell.init ++ rest := by
    simp
  have hcopy := ptrCopy_left (m := { m with vec := { m.vec with
      cells := l.map Cell.init ++ .moved x :: (l'.map Cell.init ++ rest) } }) hcells''
    (congrArg (· + 1) hbefore) hbefore
    (by rw [hlen, List.length_map]; omega : m.vec.len - l.length - 1 = _)
  refine ⟨_, by
    rw [remove, vec_bind, bind_ok (assert_pos (by omega) m), bind_ok (ptrRead_eq hcells' hbefore),
      bind_ok hcopy]
    rfl, ?_⟩
  refine ⟨⟨([Cell.moved x] ++ (l'.map Cell.init).map Cell.leave).drop
    (m.vec.len - l.length - 1) ++ rest, ?_, ?_, ?_⟩, ?_, ?_, ?_⟩
  · simp
  · simp [hlen]
  · simp only [List.mem_append]
    rintro c (hc | hc)
    · obtain hc | hc := List.mem_append.mp (List.mem_of_mem_drop hc)
      · rw [List.mem_singleton.mp hc]
        rfl
      · obtain ⟨c, -, rfl⟩ := List.mem_map.mp hc
        exact c.isInit_leave
    · exact hrest c hc
  · simp [capacity, hcells, hlen]
    omega
  · simp
  · exact (congrArg (m.stale ++ ·) (staleIn_init _ l')).trans (List.append_nil _)

theorem insert_eq {x : T} {index : ℕ} (h : m.vec.Holds l) (hindex : index ≤ l.length)
    (hroom : l.length < m.vec.capacity) :
    ∃ m', insert index x m = .ok () m' ∧ After m m' (l.insertIdx index x) [] := by
  obtain ⟨l₁, l₂, rfl, rfl⟩ : ∃ l₁ l₂, l = l₁ ++ l₂ ∧ index = l₁.length :=
    ⟨l.take index, l.drop index, (List.take_append_drop ..).symm, by simp [hindex]⟩
  rw [insertIdx_append]
  exact insert_append h hroom

theorem remove_eq {index : ℕ} (h : m.vec.Holds l) (hindex : index < l.length) :
    ∃ m', remove index m = .ok l[index] m' ∧ After m m' (l.eraseIdx index) [] := by
  have hsplit : l = l.take index ++ l[index] :: l.drop (index + 1) := by
    rw [← List.drop_eq_getElem_cons hindex, List.take_append_drop]
  have hlen : (l.take index).length = index := by simp [hindex.le]
  rw [hsplit] at h
  obtain ⟨m', hrun, hafter⟩ := remove_append h
  rw [hlen] at hrun
  rw [List.eraseIdx_eq_take_drop_succ]
  exact ⟨m', hrun, hafter⟩

theorem swapRemove_eq {index : ℕ} (h : m.vec.Holds l) (hindex : index < l.length) :
    ∃ m', swapRemove index m = .ok l[index] m' ∧ After m m' (Hamerkop.swapRemove l index) [] := by
  have hlen := h.len_eq
  obtain rfl | ⟨l₀, last, rfl⟩ := List.eq_nil_or_concat' l
  · exact absurd hindex (Nat.not_lt_zero _)
  rw [List.length_append, List.length_singleton] at hlen hindex
  rw [Dedup.swapRemove_concat l₀ last hindex, swapRemove, vec_bind,
    bind_ok (assert_pos (by omega) m)]
  by_cases hlt : index < l₀.length
  · obtain ⟨rest, hcells, hsize, hrest⟩ := h
    have hlast : m.vec.len - 1 < (l₀ ++ [last]).length := by
      simp
      omega
    have hswap := ptrSwap_eq (i := m.vec.len - 1) (j := index) hcells hlast (by simp; omega)
    have hlist : ((l₀ ++ [last]).set (m.vec.len - 1) (l₀ ++ [last])[index]).set index
        (l₀ ++ [last])[m.vec.len - 1] = l₀.set index last ++ [l₀[index]] := by
      simp [hlen, hlt]
    obtain ⟨m', hpop, hafter⟩ := pop_append (l := l₀.set index last) (x := l₀[index])
      (m := { m with vec := { m.vec with
        cells := (l₀.set index last ++ [l₀[index]]).map Cell.init ++ rest } })
      ⟨rest, rfl, by simp [hsize], hrest⟩
    rw [hlist] at hswap
    refine ⟨m', ?_, ?_⟩
    · rw [if_pos (by omega), bind_ok hswap]
      refine (bind_ok hpop).trans ?_
      simp [hlt]
    · rw [if_pos hlt]
      exact ⟨hafter.holds, by rw [hafter.capacity]; simp [capacity, hcells], hafter.dropped,
        hafter.stale⟩
  · obtain rfl : index = l₀.length := by omega
    obtain ⟨m', hpop, hafter⟩ := pop_append h
    refine ⟨m', ?_, ?_⟩
    · rw [if_neg (by omega)]
      refine (bind_ok hpop).trans ?_
      simp
    · rwa [if_neg (lt_irrefl _)]

/-- The length is lowered, and the elements behind it are dropped. -/
theorem setLen_dropInPlace {n : ℕ} (h : m.vec.Holds l) (hn : n ≤ l.length) :
    ∃ m', (setLen n >>= fun _ => forRange dropInPlace n (m.vec.len - n)) m = .ok () m' ∧
      After m m' (l.take n) (l.drop n) ∧ m'.lent = m.lent ∧
      ∀ ptr, m'.vec.toFixedVec ptr = (m.vec.toFixedVec ptr).setLen n := by
  have hlen := h.len_eq
  obtain ⟨rest, hcells, -, hrest⟩ := h
  have hbefore : n = ((l.take n).map Cell.init).length := by
    rw [List.length_map, List.length_take, min_eq_left hn]
  have hcells' : m.vec.cells = (l.take n).map Cell.init ++ (l.drop n).map Cell.init ++ rest := by
    rw [hcells, ← List.map_append, List.take_append_drop]
  have hdrop := forRange_dropInPlace (m := { m with vec := { m.vec with size := n } }) hcells'
    hbefore
  rw [List.length_drop, ← hlen] at hdrop
  refine ⟨_, by rw [setLen_bind, hdrop], ?_⟩
  refine ⟨⟨⟨(l.drop n).map Cell.moved ++ rest, ?_, ?_, ?_⟩, ?_, rfl, rfl⟩, rfl, fun ptr => ?_⟩
  · simp
  · simp [hn]
  · simp only [List.mem_append]
    rintro c (hc | hc)
    · obtain ⟨x, -, rfl⟩ := List.mem_map.mp hc
      rfl
    · exact hrest c hc
  · simp [capacity, hcells]
    omega
  · -- the bits of the dropped elements stay
    have hbits : (Cell.bits ∘ Cell.moved : T → Option T) = Cell.bits ∘ Cell.init := rfl
    rw [toFixedVec, toFixedVec, FixedVec.setLen, hcells']
    simp only [List.map_append, List.map_map, hbits]

theorem truncate_eq (n : ℕ) (h : m.vec.Holds l) :
    ∃ m', truncate n m = .ok () m' ∧ After m m' (l.take n) (l.drop n) ∧ m'.lent = m.lent := by
  have hlen := h.len_eq
  rw [truncate, vec_bind]
  by_cases hge : n ≥ m.vec.len
  · rw [if_pos hge, List.take_of_length_le (by omega), List.drop_of_length_le (by omega)]
    exact ⟨m, rfl, After.refl h, rfl⟩
  · rw [if_neg hge]
    have hle : n ≤ l.length := by omega
    obtain ⟨m', hrun, hafter, hlent, -⟩ := setLen_dropInPlace h hle
    exact ⟨m', hrun, hafter, hlent⟩

theorem clear_eq (h : m.vec.Holds l) : ∃ m', clear m = .ok () m' ∧ After m m' [] l := by
  obtain ⟨m', hrun, hafter, -⟩ := setLen_dropInPlace h (Nat.zero_le _)
  exact ⟨m', hrun, hafter⟩

/-- The pool sees `clear` change the length of its vector of bytes, and nothing else. -/
theorem clear_toFixedVec {m m' : Mem UInt8} {l : List UInt8} (h : m.vec.Holds l)
    (hrun : clear m = .ok () m') (ptr : UInt64) :
    m'.vec.toFixedVec ptr = (m.vec.toFixedVec ptr).clear := by
  obtain ⟨m₁, hrun₁, -, -, hpool⟩ := setLen_dropInPlace h (Nat.zero_le _)
  obtain ⟨-, rfl⟩ := Outcome.ok.inj (hrun.symm.trans hrun₁)
  exact hpool ptr

theorem fillWith_eq (f : ℕ → T) {count : ℕ} (k : ℕ) (h : m.vec.Holds l)
    (hroom : l.length + count ≤ m.vec.capacity) :
    ∃ m', fillWith f k m.vec.len count m = .ok () m' ∧
      After m m' (l ++ (List.range' k count).map f) [] := by
  induction count generalizing m l k with
  | zero =>
    refine ⟨m, rfl, ?_⟩
    rw [List.range'_zero, List.map_nil, List.append_nil]
    exact After.refl h
  | succ count ih =>
    obtain ⟨m₁, hwrite, hlen, hafter⟩ := write_room (x := f k) h (by omega)
    obtain ⟨m', hfill, hafter'⟩ := ih (k + 1) hafter.holds (by
      rw [hafter.capacity, List.length_append, List.length_singleton]
      omega)
    refine ⟨m', ?_, ?_⟩
    · rw [fillWith, bind_ok hwrite, vec_bind, setLen_bind, hlen]
      exact hfill
    · rw [List.range'_succ, List.map_cons, List.append_cons]
      exact hafter.trans hafter'

theorem resizeWith_eq (f : ℕ → T) {newLen : ℕ} (h : m.vec.Holds l)
    (hroom : newLen ≤ m.vec.capacity) :
    ∃ m', resizeWith newLen f m = .ok () m' ∧
      After m m' (l.take newLen ++ (List.range (newLen - l.length)).map f) (l.drop newLen) := by
  have hlen := h.len_eq
  rw [resizeWith, vec_bind]
  by_cases hle : newLen ≤ m.vec.len
  · rw [if_pos hle, Nat.sub_eq_zero_of_le (by omega), List.range_zero, List.map_nil,
      List.append_nil]
    obtain ⟨m', hrun, hafter, -⟩ := truncate_eq newLen h
    exact ⟨m', hrun, hafter⟩
  · obtain ⟨m', hfill, hafter⟩ := fillWith_eq f 0 h (by omega : l.length + (newLen - l.length) ≤ _)
    refine ⟨m', ?_, ?_⟩
    · rw [if_neg hle, bind_ok (assert_pos hroom m), hlen, ← hlen, ← hfill, hlen]
    · rw [List.take_of_length_le (by omega), List.drop_of_length_le (by omega),
        List.range_eq_range']
      exact hafter

theorem cloneEach_eq (elem : ElementType T) {other : List T} (h : m.vec.Holds l)
    (hroom : l.length + other.length ≤ m.vec.capacity) :
    ∃ m', cloneEach elem other m = .ok () m' ∧ After m m' (l ++ other.map elem.clone) [] := by
  induction other generalizing m l with
  | nil =>
    refine ⟨m, rfl, ?_⟩
    rw [List.map_nil, List.append_nil]
    exact After.refl h
  | cons item other ih =>
    rw [List.length_cons] at hroom
    obtain ⟨m₁, hwrite, hlen, hafter⟩ := write_room (x := elem.clone item) h (by omega)
    obtain ⟨m', hclone, hafter'⟩ := ih hafter.holds (by
      rw [hafter.capacity, List.length_append, List.length_singleton]
      omega)
    refine ⟨m', ?_, ?_⟩
    · rw [cloneEach, vec_bind, bind_ok hwrite, setLen_bind]
      exact hclone
    · rw [List.map_cons, List.append_cons]
      exact hafter.trans hafter'

/-- More elements are copied in behind the last. -/
theorem putIn_room {other : List T} (h : m.vec.Holds l)
    (hroom : l.length + other.length ≤ m.vec.capacity) :
    ∃ m₁, putIn m.vec.len (other.map Cell.init) m = .ok () m₁ ∧
      After m { m₁ with vec := { m₁.vec with size := m.vec.len + other.length } }
        (l ++ other) [] := by
  have hlen := h.len_eq
  obtain ⟨rest, hcells, -, hrest⟩ := h
  have hcap : m.vec.capacity = l.length + rest.length := by
    rw [capacity, hcells, List.length_append, List.length_map]
  have hcells' : m.vec.cells = l.map Cell.init ++ rest.take other.length ++
      rest.drop other.length := by
    rw [hcells, List.append_assoc, List.take_append_drop]
  have hput := putIn_eq hcells' (by rw [hlen, List.length_map] : m.vec.len = _)
    (by simp; omega : (other.map Cell.init).length = _)
  refine ⟨_, hput, ⟨rest.drop other.length, ?_, ?_, ?_⟩, ?_, ?_, rfl⟩
  · simp
  · simp [hlen]
  · exact fun c hc => hrest c (List.mem_of_mem_drop hc)
  · simp [capacity, hcells]
    omega
  · simp

theorem extendFromSlice_eq (elem : ElementType T) (other : List T) (h : m.vec.Holds l) :
    ∃ m', extendFromSlice elem other m = .ok (min (m.vec.capacity - l.length) other.length) m' ∧
      After m m' (l ++ (other.take (m.vec.capacity - l.length)).map elem.stored) [] := by
  have havail := h.available_eq
  have hle := h.length_le
  obtain ⟨slice, hslice⟩ : ∃ slice, slice = other.take (m.vec.capacity - l.length) := ⟨_, rfl⟩
  have htake : other.take (min m.vec.available other.length) = slice := by
    rw [← List.take_eq_take_min, havail, hslice]
  have hlen : min (m.vec.capacity - l.length) other.length = slice.length := by
    rw [hslice, List.length_take]
  rw [extendFromSlice, vec_bind, ← hslice, hlen]
  simp only [htake]
  by_cases hcopy : elem.isCopy
  · obtain ⟨m₁, hput, hafter⟩ := putIn_room h (by omega : l.length + slice.length ≤ _)
    have hstored : elem.stored = id := funext fun x => if_pos hcopy
    rw [hstored, List.map_id]
    refine ⟨_, ?_, hafter⟩
    rw [if_pos hcopy, bind_ok hput, setLen_bind]
    rfl
  · obtain ⟨m', hclone, hafter⟩ := cloneEach_eq elem h (by omega : l.length + slice.length ≤ _)
    have hstored : elem.stored = elem.clone := funext fun x => if_neg hcopy
    refine ⟨m', ?_, ?_⟩
    · rw [if_neg hcopy, bind_ok hclone]
      rfl
    · rwa [hstored]

theorem extend_eq (item : T → T) (iter : List T) (h : m.vec.Holds l) :
    ∃ m', extend item iter m = .ok (iter.drop (m.vec.capacity - l.length)) m' ∧
      After m m' (l ++ (iter.take (m.vec.capacity - l.length)).map item) [] := by
  induction iter generalizing m l with
  | nil =>
    refine ⟨m, by rw [List.drop_nil]; rfl, ?_⟩
    rw [List.take_nil, List.map_nil, List.append_nil]
    exact After.refl h
  | cons x iter ih =>
    have havail := h.available_eq
    rw [extend, vec_bind]
    by_cases hroom : l.length < m.vec.capacity
    · obtain ⟨m₁, hpush, hafter⟩ := push_room (x := item x) h hroom
      obtain ⟨m', hextend, hafter'⟩ := ih hafter.holds
      obtain ⟨n, hn⟩ : ∃ n, m.vec.capacity - l.length = n + 1 :=
        Nat.exists_eq_add_one.mpr (by omega)
      have hn' : m₁.vec.capacity - (l ++ [item x]).length = n := by
        rw [hafter.capacity, List.length_append, List.length_singleton]
        omega
      rw [hn'] at hextend hafter'
      refine ⟨m', ?_, ?_⟩
      · rw [if_pos (by omega), bind_ok hpush, hn, List.drop_succ_cons]
        exact hextend
      · rw [hn, List.take_succ_cons, List.map_cons, List.append_cons]
        exact hafter.trans hafter'
    · have hzero : m.vec.capacity - l.length = 0 := by omega
      refine ⟨m, ?_, ?_⟩
      · rw [if_neg (by omega), hzero, List.drop_zero]
        rfl
      · rw [hzero, List.take_zero, List.map_nil, List.append_nil]
        exact After.refl h

/-- The clone holds the clones of all the elements, and the vector is as it was. -/
theorem clone_eq (elem : ElementType T) (h : m.vec.Holds l) :
    ∃ n m', clone elem m = .ok (.ok n m') m ∧
      After (withCapacity m.vec.capacity : RawVec T).mem m' (l.map elem.stored) [] := by
  obtain ⟨m', hextend, hafter⟩ := extendFromSlice_eq (m := (withCapacity m.vec.capacity).mem) elem l
    (withCapacity_holds m.vec.capacity)
  refine ⟨_, m', by
    rw [clone, vec_bind, bind_ok (asSlice_eq h), hextend]
    rfl, ?_⟩
  have hle := h.length_le
  have hcap : (withCapacity m.vec.capacity : RawVec T).mem.vec.capacity = m.vec.capacity :=
    capacity_withCapacity _
  rwa [hcap, List.length_nil, List.take_of_length_le (by omega)] at hafter

end RawVec

end Hamerkop
