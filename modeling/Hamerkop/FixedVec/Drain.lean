import Hamerkop.FixedVec.Vector

/-!
# `FixedVec::drain`

A `Drain` moves elements of a range out to its caller, one at a call of `next`, and gets
rid of the range when it is dropped.  Its destructor drops the whole range, not just what
has not been moved out yet.  So an element that the caller has got is dropped a second time
(`drain_eq`), and only a `Drain` that gave nothing away disposes of each element exactly once
(`drainsOnce_iff`).
-/

namespace Hamerkop

/-- `std::ops::Bound` -/
inductive Bound where
  | included (x : ℕ)
  | excluded (x : ℕ)
  | unbounded
deriving DecidableEq, Repr

/-- Where a range with this `start_bound` starts. -/
def Bound.start : Bound → ℕ
  | .excluded x => x + 1
  | .included x => x
  | .unbounded => 0

/-- Where a range with this `end_bound` ends, in a vector of this length. -/
def Bound.stop (len : ℕ) : Bound → ℕ
  | .excluded x => x
  | .included x => x + 1
  | .unbounded => len

/-- `Drain`, without its reference to the vector; `stop` is its `end`. -/
structure Drain where
  start : ℕ
  stop : ℕ
  current : ℕ
  len : ℕ
deriving DecidableEq, Repr

namespace RawVec

open VecM

variable {T : Type}

/-! ## The source -/

/-- An index past the last is past the length as well: both panic. -/
def drain (startBound endBound : Bound) : VecM T Drain := do
  let v ← vec
  let start := startBound.start
  let stop := endBound.stop v.len
  assert (start ≤ stop ∧ stop ≤ v.len)
  setLen start
  return { start, stop, current := start, len := v.len }

/-- `Drain::next` -/
def drainNext (d : Drain) : VecM T (Option T × Drain) :=
  if d.current = d.stop then
    return (none, d)
  else do
    let value ← ptrRead d.current
    return (some value, { d with current := d.current + 1 })

/-- `Drop for Drain` -/
def drainDrop (d : Drain) : VecM T Unit := do
  forRange dropInPlace d.start (d.stop - d.start)
  ptrCopy d.stop d.start (d.len - d.stop)
  setLen (d.len - (d.stop - d.start))

/-- So many calls of `next`. -/
def drainNexts : ℕ → Drain → VecM T (List (Option T) × Drain)
  | 0, d => return ([], d)
  | k + 1, d => do
    let (x, d) ← drainNext d
    let (xs, d) ← drainNexts k d
    return (x :: xs, d)

/-- The life of a `Drain` that is asked for elements so many times. -/
def drainFor (startBound endBound : Bound) (k : ℕ) : VecM T (List (Option T)) := do
  let d ← drain startBound endBound
  let (xs, d) ← drainNexts k d
  drainDrop d
  return xs

/-! ## What it does -/

variable {m : Mem T} {l : List T} {startBound endBound : Bound} {k : ℕ}

/-- The elements of the range. -/
def drainRange (startBound endBound : Bound) (l : List T) : List T :=
  (l.take (endBound.stop l.length)).drop startBound.start

/-- The elements that stay. -/
def drainKept (startBound endBound : Bound) (l : List T) : List T :=
  l.take startBound.start ++ l.drop (endBound.stop l.length)

/-- What so many calls of `next` give, of the elements of the range. -/
def drainYield (k : ℕ) (range : List T) : List (Option T) :=
  (range.take k).map some ++ List.replicate (k - range.length) none

/-- The vector holds the elements that stay, the caller gets the first elements of the range, and
the other elements of the range, and no more, are dropped. -/
def DrainsOnce (startBound endBound : Bound) (k : ℕ) (m : Mem T) (l : List T) : Prop :=
  ∃ m' gone, drainFor startBound endBound k m =
      .ok (drainYield k (drainRange startBound endBound l)) m' ∧
    After m m' (drainKept startBound endBound l) gone ∧
    gone.Perm ((drainRange startBound endBound l).drop k)

/-- The memory while elements of the range are moved out. -/
theorem drainNexts_eq {before after : List (Cell T)} {range : List T} {d : Drain} (k : ℕ)
    (h : m.vec.cells = before ++ range.map .init ++ after) (hcurrent : d.current = before.length)
    (hstop : d.stop = d.current + range.length) :
    drainNexts k d m =
      .ok (drainYield k range, { d with current := d.current + min k range.length })
        { m with
          vec := { m.vec with
            cells := before ++ (range.take k).map .moved ++ (range.drop k).map .init ++
              after } } := by
  induction k generalizing m before range d with
  | zero =>
    rw [drainNexts]
    simp only [drainYield, List.take_zero, List.map_nil, List.drop_zero, List.append_nil,
      Nat.zero_sub, Nat.zero_min, Nat.add_zero, List.replicate_zero, ← h]
    rfl
  | succ k ih =>
    rw [drainNexts]
    cases range with
    | nil =>
      have hnext : drainNext d m = .ok (none, d) m := by
        rw [drainNext, if_pos (by rw [hstop]; rfl)]
        rfl
      rw [bind_ok hnext]
      refine (bind_ok (ih h hcurrent hstop)).trans ?_
      simp [drainYield, List.replicate_succ]
    | cons x range =>
      rw [List.length_cons] at hstop
      have hcells : m.vec.cells = before ++ .init x :: (range.map .init ++ after) := by
        rw [h, List.map_cons, List.append_assoc, List.cons_append]
      have hnext : drainNext d m = .ok (some x, { d with current := d.current + 1 })
          { m with vec := { m.vec with
              cells := before ++ .moved x :: (range.map .init ++ after) } } := by
        rw [drainNext, if_neg (by omega), bind_ok (ptrRead_eq hcells hcurrent)]
        rfl
      rw [bind_ok hnext]
      refine (bind_ok (@ih _ (before ++ [.moved x]) range { d with current := d.current + 1 }
        (by simp) (by simp [hcurrent]) (by simp only; omega))).trans ?_
      simp [drainYield]
      omega

theorem drain_eq (h : m.vec.Holds l)
    (hin : startBound.start ≤ endBound.stop l.length ∧ endBound.stop l.length ≤ l.length) :
    drain startBound endBound m =
      .ok { start := startBound.start, stop := endBound.stop l.length,
            current := startBound.start, len := l.length }
        { m with vec := { m.vec with size := startBound.start } } := by
  have hlen := h.len_eq
  rw [drain, vec_bind, hlen, bind_ok (assert_pos hin m)]
  rfl

/-- The destructor drops the whole range, wherever the elements are. -/
theorem drainDrop_eq {before rest : List (Cell T)} {range tail : List T} {d : Drain} (k : ℕ)
    (h : m.vec.cells = before ++ ((range.take k).map .moved ++ (range.drop k).map .init) ++
      (tail.map .init ++ rest))
    (hstart : d.start = before.length) (hstop : d.stop = d.start + range.length)
    (hlen : d.len = d.stop + tail.length) :
    drainDrop d m = .ok ()
      { m with
        vec :=
          { cells := before ++ tail.map .init ++
              (range.map Cell.moved ++ (tail.map Cell.init).map Cell.leave).drop (d.len - d.stop) ++
              rest
            size := d.len - range.length }
        dropped := m.dropped ++ range
        stale := m.stale ++
          staleIn d.start ((range.take k).map .moved ++ (range.drop k).map .init) } := by
  have hbits : ((range.take k).map Cell.moved ++ (range.drop k).map Cell.init).map Cell.bits =
      range.map some := by
    have hmap : (range.take k).map some ++ (range.drop k).map some = range.map some := by
      rw [← List.map_append, List.take_append_drop]
    rw [List.map_append, List.map_map, List.map_map, ← hmap]
    rfl
  have hdrop := forRange_dropInPlace_bits h hstart hbits
  have hcount : d.stop - d.start = range.length := by omega
  rw [drainDrop, hcount, bind_ok hdrop]
  have hcopy := ptrCopy_left (m := { m with
      vec := { m.vec with cells := before ++ range.map .moved ++ (tail.map .init ++ rest) }
      dropped := m.dropped ++ range
      stale := m.stale ++ staleIn d.start ((range.take k).map .moved ++ (range.drop k).map .init) })
    (List.append_assoc ..).symm
    (by rw [hstop, hstart, List.length_map] :
      d.stop = before.length + (range.map Cell.moved).length)
    hstart (by rw [List.length_map]; omega : d.len - d.stop = _)
  rw [bind_ok hcopy, staleIn_init, List.append_nil]
  rfl

theorem length_drainRange
    (hin : startBound.start ≤ endBound.stop l.length ∧ endBound.stop l.length ≤ l.length) :
    (drainRange startBound endBound l).length = endBound.stop l.length - startBound.start := by
  rw [drainRange, List.length_drop, List.length_take, min_eq_left hin.2]

theorem drain_split
    (hin : startBound.start ≤ endBound.stop l.length ∧ endBound.stop l.length ≤ l.length) :
    l = l.take startBound.start ++ drainRange startBound endBound l ++
      l.drop (endBound.stop l.length) := by
  have htake : l.take startBound.start =
      (l.take (endBound.stop l.length)).take startBound.start := by
    rw [List.take_take, min_eq_left hin.1]
  rw [htake, drainRange, List.take_append_drop, List.take_append_drop]

/-- **What becomes of the elements of a range that is drained.**  The caller gets the first of them;
the whole range is dropped. -/
theorem drainFor_eq (k : ℕ) (h : m.vec.Holds l)
    (hin : startBound.start ≤ endBound.stop l.length ∧ endBound.stop l.length ≤ l.length) :
    ∃ m', drainFor startBound endBound k m =
        .ok (drainYield k (drainRange startBound endBound l)) m' ∧
      m'.vec.Holds (drainKept startBound endBound l) ∧ m'.vec.capacity = m.vec.capacity ∧
      m'.dropped = m.dropped ++ drainRange startBound endBound l ∧
      m'.stale = m.stale ++ staleIn startBound.start
        (((drainRange startBound endBound l).take k).map .moved ++
          ((drainRange startBound endBound l).drop k).map .init) := by
  have hdrain := drain_eq h hin
  have hrange := length_drainRange hin
  obtain ⟨rest, hcells, -, hrest⟩ := h
  obtain ⟨before, hbefore⟩ : ∃ before, before = (l.take startBound.start).map Cell.init := ⟨_, rfl⟩
  obtain ⟨tail, htail⟩ : ∃ tail, tail = l.drop (endBound.stop l.length) := ⟨_, rfl⟩
  obtain ⟨range, hdef⟩ : ∃ range, range = drainRange startBound endBound l := ⟨_, rfl⟩
  have hlen : startBound.start = before.length := by
    rw [hbefore, List.length_map, List.length_take]
    omega
  have hsplit : m.vec.cells = before ++ range.map .init ++ (tail.map .init ++ rest) := by
    rw [hcells]
    conv_lhs => rw [drain_split hin]
    rw [hbefore, hdef, htail, List.map_append, List.map_append, List.append_assoc]
  rw [drainFor, bind_ok hdrain, drainKept, ← hdef, ← htail]
  rw [← hdef] at hrange
  have hnexts := drainNexts_eq (m := { m with vec := { m.vec with size := startBound.start } })
    (d := { start := startBound.start, stop := endBound.stop l.length,
            current := startBound.start, len := l.length }) k hsplit hlen (by simp only; omega)
  rw [bind_ok hnexts]
  have hdrop := @drainDrop_eq T
    { m with vec :=
        { cells := before ++ (range.take k).map .moved ++ (range.drop k).map .init ++
            (tail.map .init ++ rest)
          size := startBound.start } }
    before rest range tail
    { start := startBound.start, stop := endBound.stop l.length,
      current := startBound.start + min k range.length, len := l.length }
    k (by simp only [List.append_assoc]) hlen (by simp only; omega)
    (by rw [htail, List.length_drop]; simp only; omega)
  refine ⟨_, (bind_ok hdrop).trans rfl,
    ⟨(range.map Cell.moved ++ (tail.map Cell.init).map Cell.leave).drop
      (l.length - endBound.stop l.length) ++ rest, ?_, ?_, ?_⟩, ?_, rfl, rfl⟩
  · simp [hbefore]
  · rw [htail, List.length_append, List.length_take, List.length_drop]
    simp only
    omega
  · intro c hc
    obtain hc | hc := List.mem_append.mp hc
    · obtain hc | hc := List.mem_append.mp (List.mem_of_mem_drop hc)
      · obtain ⟨x, -, rfl⟩ := List.mem_map.mp hc
        rfl
      · obtain ⟨c, -, rfl⟩ := List.mem_map.mp hc
        exact c.isInit_leave
    · exact hrest c hc
  · simp [capacity, hsplit, htail]
    omega

/-- A `Drain` that has given something away does not dispose of each element once. -/
theorem not_drainsOnce (h : m.vec.Holds l)
    (hin : startBound.start ≤ endBound.stop l.length ∧ endBound.stop l.length ≤ l.length)
    (hk : min k (endBound.stop l.length - startBound.start) ≠ 0) :
    ¬ DrainsOnce startBound endBound k m l := by
  rintro ⟨m', gone, hrun, hafter, hgone⟩
  obtain ⟨m'', hrun', -, -, hdropped, -⟩ := drainFor_eq k h hin
  rw [hrun'] at hrun
  obtain ⟨-, rfl⟩ := Outcome.ok.inj hrun
  rw [hafter.dropped, List.append_cancel_left_eq] at hdropped
  have hlen := hgone.length_eq
  rw [hdropped, List.length_drop, length_drainRange hin] at hlen
  omega

/-- **A `Drain` disposes of each element exactly once if and only if it gave none away.** -/
theorem drainsOnce_iff (k : ℕ) (h : m.vec.Holds l)
    (hin : startBound.start ≤ endBound.stop l.length ∧ endBound.stop l.length ≤ l.length) :
    DrainsOnce startBound endBound k m l ↔
      min k (endBound.stop l.length - startBound.start) = 0 := by
  constructor
  · intro hdrains
    by_contra hk
    exact not_drainsOnce h hin hk hdrains
  · intro hk
    obtain ⟨m', hrun, hholds, hcap, hdropped, hstale⟩ := drainFor_eq k h hin
    have hlen := length_drainRange hin
    have htake : (drainRange startBound endBound l).take k = [] := by
      rw [← List.length_eq_zero_iff, List.length_take, hlen, hk]
    have hdrop : (drainRange startBound endBound l).drop k = drainRange startBound endBound l := by
      conv_rhs => rw [← List.take_append_drop k (drainRange startBound endBound l), htake]
      rfl
    rw [htake, hdrop, List.map_nil, List.nil_append, staleIn_init, List.append_nil] at hstale
    exact ⟨m', _, hrun, ⟨hholds, hcap, hdropped, hstale⟩, by rw [hdrop]⟩

/-- Nothing is asked of the `Drain` of a range in the middle. -/
theorem drainsOnce_zero :
    DrainsOnce (.included 1) (.excluded 3) 0 (ofList [1, 2, 3, 4]).mem [1, 2, 3, 4] ↔
      min 0 (3 - 1) = 0 :=
  drainsOnce_iff 0 (ofList_holds [1, 2, 3, 4]) ⟨by decide, by decide⟩

/-- The caller takes the first of two elements; it is dropped all the same. -/
theorem drainFor_one :
    drainFor (.included 1) (.included 2) 1 (ofList [1, 2, 3, 4]).mem =
      .ok [some 2]
        { vec := { cells := [.init 1, .init 4, .moved 3, .moved 4], size := 2 }
          dropped := [2, 3]
          stale := [1]
          lent := [] } ∧
    ¬ DrainsOnce (.included 1) (.included 2) 1 (ofList [1, 2, 3, 4]).mem [1, 2, 3, 4] :=
  ⟨rfl, not_drainsOnce (ofList_holds _) ⟨by decide, by decide⟩ (by decide)⟩

end RawVec

end Hamerkop
