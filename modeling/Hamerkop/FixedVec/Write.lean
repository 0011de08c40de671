import Hamerkop.FixedVec.Vector

/-!
# `Write` for `FixedVec<u8>`

`write` takes as much of the buffer as there is room for, and `write_vectored` goes on to the
next buffer as long as they are written completely.  A short write leaves no room, and what
would be written after it is nothing, so the buffers might as well be one
(`writeVectored_eq_write`).  `write_all` is one `write`, which is complete or fills the vector
(`writeAll_eq`).
-/

namespace Hamerkop

/-- `io::Error`, as far as it comes from `write_all` -/
inductive WriteError where
  | writeZero (message : String)
deriving DecidableEq, Repr

namespace RawVec

open VecM

/-- `u8`, which is `Copy` -/
def u8 : ElementType UInt8 where
  isCopy := true
  clone := id

/-- `write`, which does not fail -/
def write (buf : List UInt8) : VecM UInt8 ℕ := do
  let v ← vec
  let remaining := v.capacity - v.len
  if remaining = 0 then
    return 0
  else
    let slice := buf.take (min buf.length remaining)
    let _ ← extendFromSlice u8 slice
    return slice.length

/-- The loop of `write_vectored` -/
def writeEach : List (List UInt8) → ℕ → VecM UInt8 ℕ
  | [], total => return total
  | buf :: bufs, total => do
    let n ← write buf
    let total := total + n
    if n ≠ buf.length then
      return total
    else
      writeEach bufs total

/-- `write_vectored(bufs)` -/
def writeVectored (bufs : List (List UInt8)) : VecM UInt8 ℕ := writeEach bufs 0

/-- `write_all(buf)` -/
def writeAll (buf : List UInt8) : VecM UInt8 (Except WriteError Unit) := do
  let n ← write buf
  if n = buf.length then
    return .ok ()
  else
    return .error (.writeZero "failed to write whole buffer")

variable {m : Mem UInt8} {l : List UInt8} {rest : List (Cell UInt8)}

/-- Behind the elements `l` these bytes have been written to the cells `rest`, as many as fit. -/
def written (m : Mem UInt8) (l : List UInt8) (rest : List (Cell UInt8)) (bytes : List UInt8) :
    Mem UInt8 :=
  { m with
    vec :=
      { cells := (l ++ bytes.take rest.length).map Cell.init ++ rest.drop bytes.length
        size := l.length + min bytes.length rest.length } }

theorem written_nil (hcells : m.vec.cells = l.map Cell.init ++ rest)
    (hsize : m.vec.size = l.length) :
    written m l rest [] = m := by
  obtain ⟨⟨cells, size⟩, dropped, stale, lent⟩ := m
  simp only at hcells hsize
  simp [written, hcells, hsize]

theorem written_full (bytes : List UInt8) : written m l [] bytes = written m l [] [] := by
  simp [written]

/-- What is written in two steps is written in one. -/
theorem written_written (m : Mem UInt8) (l : List UInt8) (rest : List (Cell UInt8))
    (bytes bytes' : List UInt8) (h : bytes.length ≤ rest.length) :
    written (written m l rest bytes) (l ++ bytes) (rest.drop bytes.length) bytes' =
      written m l rest (bytes ++ bytes') := by
  unfold written
  simp only [Mem.mk.injEq, RawVec.mk.injEq, and_true]
  constructor
  · rw [List.take_append, List.take_of_length_le h, List.length_drop, List.drop_drop,
      List.length_append, List.append_assoc]
  · simp only [List.length_append, List.length_drop]
    omega

theorem write_eq (hcells : m.vec.cells = l.map Cell.init ++ rest) (hsize : m.vec.size = l.length)
    (buf : List UInt8) :
    write buf m = .ok (min buf.length rest.length) (written m l rest buf) := by
  have hcap : m.vec.capacity = l.length + rest.length := by
    unfold capacity
    rw [hcells, List.length_append, List.length_map]
  have hlen : m.vec.len = l.length := hsize
  unfold write
  rw [vec_bind, hcap, hlen, Nat.add_sub_cancel_left]
  cases rest with
  | nil =>
    rw [if_pos List.length_nil, written_full, written_nil hcells hsize, List.length_nil,
      Nat.min_zero]
    rfl
  | cons c rest =>
    rw [if_neg (by simp)]
    obtain ⟨rest', hrest'⟩ : ∃ rest', rest' = c :: rest := ⟨_, rfl⟩
    rw [← hrest'] at hcells hcap ⊢
    obtain ⟨slice, hslice⟩ : ∃ slice, slice = buf.take rest'.length := ⟨_, rfl⟩
    have htake : buf.take (min buf.length rest'.length) = slice := by
      rw [min_comm, ← List.take_eq_take_min, hslice]
    have hlength : slice.length = min buf.length rest'.length := by
      rw [hslice, List.length_take, min_comm]
    have hall : slice.take (min m.vec.available slice.length) = slice := by
      apply List.take_of_length_le
      unfold available
      rw [hcap, hlen]
      omega
    have hput : putIn m.vec.len (slice.map Cell.init) m =
        .ok () { m with vec := { m.vec with
          cells := l.map Cell.init ++ slice.map Cell.init ++ rest'.drop slice.length } } := by
      have hsplit : m.vec.cells = l.map Cell.init ++ rest'.take slice.length ++
          rest'.drop slice.length := by
        rw [hcells, List.append_assoc, List.take_append_drop]
      exact putIn_eq hsplit (by simp [hlen]) (by simp; omega)
    have hdrop : rest'.drop slice.length = rest'.drop buf.length := by
      rw [hlength]
      rcases le_total buf.length rest'.length with h | h
      · rw [min_eq_left h]
      · rw [min_eq_right h, List.drop_of_length_le le_rfl, List.drop_of_length_le h]
    have hextend : extendFromSlice u8 slice m = .ok slice.length (written m l rest' buf) := by
      have hcopy : u8.isCopy = true := rfl
      rw [extendFromSlice, vec_bind]
      simp only [hall]
      rw [if_pos hcopy, bind_ok hput, setLen_bind, pure_apply, hdrop, hlen]
      simp only [written, hlength, ← hslice, List.map_append]
    simp only [htake]
    rw [bind_ok hextend, hlength]
    rfl

/-- The buffers are written one behind the other, up to the first that does not fit. -/
theorem writeEach_eq (bufs : List (List UInt8)) (total : ℕ)
    (hcells : m.vec.cells = l.map Cell.init ++ rest) (hsize : m.vec.size = l.length) :
    writeEach bufs total m =
      .ok (total + min bufs.flatten.length rest.length) (written m l rest bufs.flatten) := by
  induction bufs generalizing m l rest total with
  | nil =>
    rw [List.flatten_nil, written_nil hcells hsize, List.length_nil, Nat.zero_min]
    rfl
  | cons buf bufs ih =>
    unfold writeEach
    rw [bind_ok (write_eq hcells hsize buf), List.flatten_cons, List.length_append]
    rcases le_or_gt buf.length rest.length with h | h
    · -- the buffer fits, and the next one is written behind it
      rw [min_eq_left h, if_neg (by simp)]
      have hnext : (written m l rest buf).vec.cells =
          (l ++ buf).map Cell.init ++ rest.drop buf.length := by
        simp only [written]
        rw [List.take_of_length_le h]
      have hnextSize : (written m l rest buf).vec.size = (l ++ buf).length := by
        simp only [written]
        rw [min_eq_left h, List.length_append]
      rw [ih (total + buf.length) hnext hnextSize, written_written m l rest buf _ h]
      congr 1
      rw [List.length_drop]
      omega
    · -- a short write is the last
      rw [min_eq_right h.le, if_pos (by omega)]
      have hwritten : written m l rest (buf ++ bufs.flatten) = written m l rest buf := by
        unfold written
        rw [List.take_append_of_le_length h.le, List.drop_of_length_le h.le,
          List.drop_of_length_le (by rw [List.length_append]; omega), List.length_append,
          min_eq_right (by omega), min_eq_right h.le]
      rw [hwritten, pure_apply]
      congr 1
      omega

/-- What is written stands behind what the vector held, and nothing is dropped. -/
theorem after_written (h : m.vec.Holds l) (hcells : m.vec.cells = l.map Cell.init ++ rest)
    (bytes : List UInt8) :
    After m (written m l rest bytes) (l ++ bytes.take rest.length) [] := by
  obtain ⟨rest', hcells', -, hrest⟩ := h
  obtain rfl : rest = rest' := List.append_cancel_left (hcells.symm.trans hcells')
  refine ⟨⟨rest.drop bytes.length, rfl, ?_, ?_⟩, ?_, ?_, rfl⟩
  · simp only [written]
    rw [List.length_append, List.length_take, min_comm]
  · intro c hc
    exact hrest c (List.mem_of_mem_drop hc)
  · unfold capacity written
    rw [hcells]
    simp only [List.length_append, List.length_map, List.length_take, List.length_drop]
    omega
  · simp [written]

/-- `write` appends the first bytes of the buffer, as many as there is room for. -/
theorem write_after (buf : List UInt8) (h : m.vec.Holds l) :
    ∃ m', write buf m = .ok (min buf.length (m.vec.capacity - l.length)) m' ∧
      After m m' (l ++ buf.take (m.vec.capacity - l.length)) [] := by
  obtain ⟨rest, hcells, hsize, -⟩ := id h
  have hroom : m.vec.capacity - l.length = rest.length := by
    unfold capacity
    rw [hcells, List.length_append, List.length_map, Nat.add_sub_cancel_left]
  rw [hroom]
  exact ⟨_, write_eq hcells hsize buf, after_written h hcells buf⟩

/-- **Vectored writes are one write of the concatenation**: they end in the same state with the
same result, and append the first bytes of the buffers, as many as there is room for. -/
theorem writeVectored_eq_write (bufs : List (List UInt8)) (h : m.vec.Holds l) :
    writeVectored bufs m = write bufs.flatten m ∧
      ∃ m', writeVectored bufs m =
          .ok (min (m.vec.capacity - l.length) bufs.flatten.length) m' ∧
        After m m' (l ++ bufs.flatten.take (m.vec.capacity - l.length)) [] := by
  have heq : writeVectored bufs m = write bufs.flatten m := by
    obtain ⟨rest, hcells, hsize, -⟩ := h
    have heach : writeVectored bufs m = _ := writeEach_eq bufs 0 hcells hsize
    rw [heach, write_eq hcells hsize, Nat.zero_add]
  obtain ⟨m', hwrite, hafter⟩ := write_after bufs.flatten h
  rw [min_comm] at hwrite
  exact ⟨heq, m', heq.trans hwrite, hafter⟩

/-- An empty buffer in front, and one that does not fit. -/
theorem writeVectored_eq_write_short :
    writeVectored [[], [1, 2], [3, 4]] (withCapacity 3).mem =
      write [1, 2, 3, 4] (withCapacity 3).mem :=
  (writeVectored_eq_write [[], [1, 2], [3, 4]] (withCapacity_holds 3)).1

/-- **`write_all` writes everything or fills the vector.** -/
theorem writeAll_eq (buf : List UInt8) (h : m.vec.Holds l) :
    ∃ m', writeAll buf m =
        .ok (if buf.length ≤ m.vec.capacity - l.length then .ok ()
          else .error (.writeZero "failed to write whole buffer")) m' ∧
      After m m' (l ++ buf.take (m.vec.capacity - l.length)) [] := by
  obtain ⟨m', hwrite, hafter⟩ := write_after buf h
  refine ⟨m', ?_, hafter⟩
  unfold writeAll
  rw [bind_ok hwrite]
  by_cases hfits : buf.length ≤ m.vec.capacity - l.length
  · rw [if_pos (min_eq_left hfits), if_pos hfits]
    rfl
  · rw [if_neg (by omega), if_neg hfits]
    rfl

end RawVec

end Hamerkop
