import Hamerkop.FixedVec.Vector

/-!
# `FixedVec::append`

`append` copies the first elements of the other vector behind its own and then has
`excise_front` close the gap.  That copies as many elements to the front as were taken away,
not as many as are left.  The vectors end as they should exactly when these numbers agree
or nothing was moved (`movesPrefix_iff`).
-/

namespace Hamerkop

namespace RawVec

open VecM

variable {T : Type}

/-- `excise_front`: remove the first `count` elements. -/
def exciseFront (count : ℕ) : VecM T Unit := do
  let v ← vec
  ptrCopy count 0 count
  setLen (v.len - count)

/-- `a.append(&mut other)`, as it works on the memory of `other`; what becomes of `a` is the
result. -/
def append (a : Mem T) : VecM T (Outcome T Unit) := do
  let other ← vec
  let amount := min a.vec.available other.len
  let segment ← takeOut 0 amount
  let a' := (putIn a.vec.len segment >>= fun _ => setLen (a.vec.len + amount)) a
  exciseFront amount
  return a'

/-- `self.available().min(other.len())` -/
def amount (a b : Mem T) : ℕ := min a.vec.available b.vec.len

/-- What `append` is for: the first elements of `b` move behind those of `a`, the others stay in
`b`, and no cell that holds no element is read. -/
def MovesPrefix (a b : Mem T) (la lb : List T) : Prop :=
  ∃ a' b', append a b = .ok (.ok () a') b' ∧
    After a a' (la ++ lb.take (amount a b)) [] ∧ After b b' (lb.drop (amount a b)) []

variable {a b : Mem T} {la lb : List T}

/-! ## What it does -/

theorem staleIn_eq_nil {i : ℕ} {l : List (Cell T)} :
    staleIn i l = [] ↔ ∀ c ∈ l, c.isInit = true := by
  induction l generalizing i with
  | nil => simp [staleIn]
  | cons c l ih =>
    by_cases hc : c.isInit <;> simp [staleIn, hc, ih]

theorem Holds.isInit {v : RawVec T} {l : List T} (h : v.Holds l) {i : ℕ} (hi : i < v.size)
    {c : Cell T} (hc : v.cells[i]? = some c) : c.isInit = true := by
  obtain ⟨rest, hcells, hsize, -⟩ := h
  rw [hcells, List.getElem?_append_left (by rw [List.length_map]; omega), List.getElem?_map,
    Option.map_eq_some_iff] at hc
  obtain ⟨x, -, rfl⟩ := hc
  rfl

theorem amount_eq (ha : a.vec.Holds la) (hb : b.vec.Holds lb) :
    amount a b = min (a.vec.capacity - la.length) lb.length := by
  rw [amount, ha.available_eq, hb.len_eq]

/-- The memory of `b` when its first elements have been copied out. -/
theorem takeOut_front {n : ℕ} {rest : List (Cell T)} (hcells : b.vec.cells = lb.map .init ++ rest)
    (hn : n ≤ lb.length) :
    takeOut 0 n b = .ok ((lb.take n).map .init)
      { b with vec := { b.vec with
          cells := (lb.take n).map .moved ++ ((lb.drop n).map .init ++ rest) } } := by
  have hsplit : b.vec.cells =
      [] ++ (lb.take n).map Cell.init ++ ((lb.drop n).map Cell.init ++ rest) := by
    rw [hcells, List.nil_append, ← List.append_assoc, ← List.map_append, List.take_append_drop]
  have hleave : ((lb.take n).map Cell.init).map Cell.leave = (lb.take n).map .moved :=
    List.map_map
  rw [takeOut_eq hsplit (rfl : 0 = ([] : List (Cell T)).length) (by simp [hn]), staleIn_init,
    hleave, List.nil_append, List.append_nil]

/-- The cells of `b` behind those that were copied out. -/
def tailCells (lb : List T) (rest : List (Cell T)) (n : ℕ) : List (Cell T) :=
  (lb.drop n).map .init ++ rest

/-- The gap is closed with as many cells as it is long. -/
theorem append_eq {rest : List (Cell T)} (ha : a.vec.Holds la)
    (hcells : b.vec.cells = lb.map .init ++ rest) (hsize : b.vec.size = lb.length)
    (hrest : ∀ c ∈ rest, c.isInit = false) (hfit : 2 * amount a b ≤ b.vec.capacity) :
    ∃ a', After a a' (la ++ lb.take (amount a b)) [] ∧
      append a b = .ok (.ok () a')
        { b with
          vec :=
            { cells := (tailCells lb rest (amount a b)).take (amount a b) ++
                ((tailCells lb rest (amount a b)).take (amount a b)).map Cell.leave ++
                (tailCells lb rest (amount a b)).drop (amount a b)
              size := lb.length - amount a b }
          stale := b.stale ++
            staleIn (amount a b) ((tailCells lb rest (amount a b)).take (amount a b)) } := by
  obtain ⟨n, hn⟩ : ∃ n, n = amount a b := ⟨_, rfl⟩
  have hamount := amount_eq ha ⟨rest, hcells, hsize, hrest⟩
  have hroom := ha.length_le
  have hcap : b.vec.capacity = lb.length + rest.length := by
    rw [capacity, hcells, List.length_append, List.length_map]
  rw [← hn] at hamount hfit ⊢
  have hspace : la.length + (lb.take n).length ≤ a.vec.capacity := by
    rw [List.length_take]
    omega
  obtain ⟨a₁, hput, hafter⟩ := putIn_room ha hspace
  have hlen : (lb.take n).length = n := by
    rw [List.length_take]
    omega
  rw [hlen] at hafter
  have htail : (tailCells lb rest n).length = lb.length - n + rest.length := by
    rw [tailCells, List.length_append, List.length_map, List.length_drop]
  have hsplit : (lb.take n).map Cell.moved ++ tailCells lb rest n =
      [] ++ (lb.take n).map .moved ++ (tailCells lb rest n).take n ++
        (tailCells lb rest n).drop n := by
    rw [List.nil_append, List.append_assoc, List.take_append_drop]
  have hcopy := ptrCopy_left (m := { b with vec := { b.vec with
      cells := (lb.take n).map .moved ++ tailCells lb rest n } }) hsplit
    (by rw [List.length_map, hlen, List.length_nil, zero_add] : n = _)
    (rfl : 0 = ([] : List (Cell T)).length)
    (by rw [List.length_take, htail]; omega : n = _)
  refine ⟨_, hafter, ?_⟩
  have hdrop :
      ((lb.take n).map Cell.moved ++ ((tailCells lb rest n).take n).map Cell.leave).drop n =
        ((tailCells lb rest n).take n).map Cell.leave :=
    List.drop_left' (by rw [List.length_map, hlen])
  rw [hdrop] at hcopy
  have hexcise := (vec_bind (fun v => ptrCopy n 0 n >>= fun _ => setLen (v.len - n)) _).trans
    (bind_ok hcopy)
  rw [append, vec_bind]
  simp only [← amount.eq_1, ← hn]
  rw [bind_ok (takeOut_front hcells (by omega : n ≤ lb.length)), bind_ok hput]
  refine (bind_ok hexcise).trans ?_
  simp only [List.nil_append, len, hsize]
  rfl

/-- The gap is too long for as many cells to be behind it. -/
theorem append_outOfBounds {rest : List (Cell T)} (hcells : b.vec.cells = lb.map .init ++ rest)
    (hsize : b.vec.size = lb.length) (hfit : b.vec.capacity < 2 * amount a b) :
    append a b = .undefined .outOfBounds := by
  obtain ⟨n, hn⟩ : ∃ n, n = amount a b := ⟨_, rfl⟩
  have hle : amount a b ≤ lb.length := (min_le_right _ _).trans hsize.le
  have hcap : b.vec.capacity = lb.length + rest.length := by
    rw [capacity, hcells, List.length_append, List.length_map]
  rw [← hn] at hfit hle
  rw [append, vec_bind]
  simp only [← amount.eq_1, ← hn]
  rw [bind_ok (takeOut_front hcells hle)]
  refine bind_undefined ((vec_bind _ _).trans (bind_undefined (bind_undefined ?_)))
  apply takeOut_outOfBounds
  simp only [capacity, List.length_append, List.length_map, List.length_take, List.length_drop]
  omega

/-! ## When it does what it is for -/

/-- Nothing is moved, or as much as is left. -/
theorem MovesPrefix.of_half (ha : a.vec.Holds la) (hb : b.vec.Holds lb)
    (h : amount a b = 0 ∨ 2 * amount a b = lb.length) : MovesPrefix a b la lb := by
  have hle : amount a b ≤ lb.length := (min_le_right _ _).trans hb.len_eq.le
  have hlength := hb.length_le
  obtain ⟨rest, hcells, hsize, hrest⟩ := hb
  obtain ⟨a', hafter, happend⟩ := append_eq ha hcells hsize hrest (by omega)
  refine ⟨a', _, happend, hafter, ?_⟩
  have htail : (tailCells lb rest (amount a b)).take (amount a b) =
      ((lb.drop (amount a b)).take (amount a b)).map .init := by
    rw [tailCells, List.take_append_of_le_length (by simp; omega), List.map_take]
  rw [htail]
  obtain hzero | hhalf := h
  · simp only [hzero, List.take_zero, List.map_nil, List.nil_append, List.drop_zero,
      Nat.sub_zero, staleIn, List.append_nil, tailCells]
    exact ⟨⟨rest, rfl, rfl, hrest⟩, by rw [capacity, capacity, hcells], (List.append_nil _).symm,
      rfl⟩
  · have hall : (lb.drop (amount a b)).take (amount a b) = lb.drop (amount a b) :=
      List.take_of_length_le (by rw [List.length_drop]; omega)
    have hrest' : (tailCells lb rest (amount a b)).drop (amount a b) = rest :=
      List.drop_left' (by rw [List.length_map, List.length_drop]; omega)
    rw [hall, hrest', staleIn_init]
    refine ⟨⟨_, List.append_assoc .., (List.length_drop ..).symm, ?_⟩, ?_, ?_, List.append_nil _⟩
    · intro c hc
      obtain hc | hc := List.mem_append.mp hc
      · obtain ⟨c, -, rfl⟩ := List.mem_map.mp hc
        exact c.isInit_leave
      · exact hrest c hc
    · simp [capacity, hcells]
      omega
    · exact (List.append_nil _).symm

/-- Otherwise it does something else. -/
theorem not_movesPrefix (ha : a.vec.Holds la) (hb : b.vec.Holds lb) (hpos : amount a b ≠ 0)
    (hhalf : 2 * amount a b ≠ lb.length) : ¬ MovesPrefix a b la lb := by
  rintro ⟨a', b', happend, -, hafter⟩
  have hle : amount a b ≤ lb.length := (min_le_right _ _).trans hb.len_eq.le
  obtain ⟨rest, hcells, hsize, hrest⟩ := hb
  have hcap : b.vec.capacity = lb.length + rest.length := by
    rw [capacity, hcells, List.length_append, List.length_map]
  by_cases hfit : 2 * amount a b ≤ b.vec.capacity
  · obtain ⟨a₁, -, happend'⟩ := append_eq ha hcells hsize hrest hfit
    rw [happend'] at happend
    obtain ⟨-, rfl⟩ := Outcome.ok.inj happend
    obtain ⟨seg, hseg⟩ : ∃ seg, seg = (tailCells lb rest (amount a b)).take (amount a b) :=
      ⟨_, rfl⟩
    have hlen : seg.length = amount a b := by
      rw [hseg, List.length_take, tailCells, List.length_append, List.length_map,
        List.length_drop]
      omega
    have hholds := hafter.holds
    have hinit := staleIn_eq_nil.mp (List.self_eq_append_right.mp hafter.stale.symm)
    rw [← hseg] at hinit hholds
    obtain hlt | hgt := lt_or_gt_of_ne hhalf
    · -- the cells behind those copied to the front have been moved out of
      obtain ⟨c, hc⟩ : ∃ c, seg[0]? = some c :=
        ⟨_, List.getElem?_eq_getElem (by omega)⟩
      have hcell : (seg ++ seg.map Cell.leave ++
          (tailCells lb rest (amount a b)).drop (amount a b))[amount a b]? = some c.leave := by
        rw [List.append_assoc, List.getElem?_append_right hlen.le, hlen, Nat.sub_self,
          List.getElem?_append_left (by rw [List.length_map]; omega), List.getElem?_map, hc]
        rfl
      have hinit' := hholds.isInit (by simp only; omega) hcell
      rw [Cell.isInit_leave] at hinit'
      exact Bool.noConfusion hinit'
    · -- a cell behind the last element was copied
      obtain ⟨c, hc⟩ : ∃ c, rest[0]? = some c :=
        ⟨_, List.getElem?_eq_getElem (by omega)⟩
      have hcell : seg[lb.length - amount a b]? = some c := by
        rw [hseg, List.getElem?_take_of_lt (by omega), tailCells,
          List.getElem?_append_right (by rw [List.length_map, List.length_drop]),
          List.length_map, List.length_drop, Nat.sub_self, hc]
      have hinit' := hinit c (List.mem_of_getElem? hcell)
      rw [hrest c (List.mem_of_getElem? hc)] at hinit'
      exact Bool.noConfusion hinit'
  · rw [append_outOfBounds hcells hsize (not_le.mp hfit)] at happend
    cases happend

/-- **`append` leaves the two vectors as it should exactly when it moves nothing or half of the
other vector.** -/
theorem movesPrefix_iff (ha : a.vec.Holds la) (hb : b.vec.Holds lb) :
    MovesPrefix a b la lb ↔ amount a b = 0 ∨ 2 * amount a b = lb.length := by
  refine ⟨fun h => ?_, MovesPrefix.of_half ha hb⟩
  by_contra hne
  rw [not_or] at hne
  exact not_movesPrefix ha hb hne.1 hne.2 h

/-- The second vector has twice what the first has room for. -/
theorem movesPrefix_two_of_four :
    MovesPrefix (withCapacity 2 : RawVec ℕ).mem (ofList [1, 2, 3, 4]).mem [] [1, 2, 3, 4] ↔
      amount (withCapacity 2 : RawVec ℕ).mem (ofList [1, 2, 3, 4]).mem = 0 ∨
        2 * amount (withCapacity 2 : RawVec ℕ).mem (ofList [1, 2, 3, 4]).mem = 4 :=
  movesPrefix_iff (withCapacity_holds 2) (ofList_holds [1, 2, 3, 4])

/-- A vector of one cell takes the first of three elements; then the second of them is there twice
and the third is lost. -/
theorem append_one_of_three :
    append (withCapacity 1 : RawVec ℕ).mem (ofList [1, 2, 3]).mem =
      .ok (.ok () (ofList [1]).mem)
        ({ cells := [.init 2, .moved 2, .init 3], size := 2 } : RawVec ℕ).mem ∧
    ¬ MovesPrefix (withCapacity 1 : RawVec ℕ).mem (ofList [1, 2, 3]).mem [] [1, 2, 3] :=
  ⟨rfl, not_movesPrefix (withCapacity_holds 1) (ofList_holds _) (by decide) (by decide)⟩

end RawVec

end Hamerkop
