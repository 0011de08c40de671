import Hamerkop.Lib.Runs
import Hamerkop.Util.Dedup

/-!
# The loop of `dedup_partial`, turn by turn

`dedupStep` is one turn of the loop on the state it works on: the vector, the table of
pointers, and `i`.  `dedupLoop` takes such turns until there is none left
(`dedupLoop_eq`).

`dedupPartial_deduplicates` is about every vector and every pair of hash functions: the
loop ends; what lies before `i` never changes, and the table points there only; the
result has the values of the vector, none more often than the vector has it, and no two
adjacent ones are equal.
-/

namespace Hamerkop

open Runs

/-- What the loop of `dedup_partial` works on. -/
structure DedupState (T : Type) where
  data : List T
  table : ℕ → Option ℕ
  i : ℕ

namespace Dedup

variable {T : Type} {hash1 hash2 : T → ℕ} {s t : DedupState T}

/-! ## The two things a turn may do -/

/-- The slot in which the pointer to `value` is stored. -/
def storeSlot (hash1 hash2 : T → ℕ) (s : DedupState T) (value : T) : ℕ :=
  if (s.table (hash1 value % TABLE_LEN)).isNone then hash1 value % TABLE_LEN
  else if (s.table (hash2 value % TABLE_LEN)).isNone then hash2 value % TABLE_LEN
  else if s.i % 2 = 0 then hash1 value % TABLE_LEN
  else hash2 value % TABLE_LEN

/-- `data.swap_remove(i)` -/
def DedupState.remove (s : DedupState T) : DedupState T := { s with data := swapRemove s.data s.i }

/-- The pointer to `data[i]` is stored, and `i` moves on. -/
def DedupState.keep (s : DedupState T) (slot : ℕ) : DedupState T :=
  { s with table := Function.update s.table slot (some s.i), i := s.i + 1 }

/-- The loop begins with an empty table. -/
def start (data : List T) : DedupState T := { data, table := fun _ => none, i := 0 }

theorem storeSlot_eq (hash1 hash2 : T → ℕ) (s : DedupState T) (value : T) :
    storeSlot hash1 hash2 s value = hash1 value % TABLE_LEN ∨
      storeSlot hash1 hash2 s value = hash2 value % TABLE_LEN := by
  rw [storeSlot]
  split_ifs <;> simp

/-! ## The invariant of the loop -/

/-- The element that was kept last is pointed to from one of its slots, and no element kept equals
the one before it. -/
structure LoopInv (hash1 hash2 : T → ℕ) (s : DedupState T) : Prop where
  below : PointsBelow s.table s.i
  le : s.i ≤ s.data.length
  last : ∀ j value, s.i = j + 1 → s.data[j]? = some value →
    s.table (hash1 value % TABLE_LEN) = some j ∨ s.table (hash2 value % TABLE_LEN) = some j
  adjacent : ∀ j, j + 1 < s.i → s.data[j]? ≠ s.data[j + 1]?

theorem loopInv_start (data : List T) : LoopInv hash1 hash2 (start data) :=
  ⟨fun _ _ h => (Option.some_ne_none _ h.symm).elim, Nat.zero_le _,
    fun _ _ h => absurd h.symm (Nat.succ_ne_zero _), fun _ h => absurd h (Nat.not_lt_zero _)⟩

theorem LoopInv.remove (h : LoopInv hash1 hash2 s) (hi : s.i < s.data.length) :
    LoopInv hash1 hash2 (DedupState.remove s) := by
  have hkept : ∀ j < s.i, (swapRemove s.data s.i)[j]? = s.data[j]? := fun j hj =>
    getElem?_swapRemove_of_lt hi hj
  refine ⟨h.below, ?_, fun j value hj hvalue => ?_, fun j hj => ?_⟩
  · show s.i ≤ (swapRemove s.data s.i).length
    rw [length_swapRemove hi]
    omega
  · have hj' : s.i = j + 1 := hj
    have hvalue' : (swapRemove s.data s.i)[j]? = some value := hvalue
    rw [hkept j (by omega)] at hvalue'
    exact h.last j value hj' hvalue'
  · have hj' : j + 1 < s.i := hj
    show (swapRemove s.data s.i)[j]? ≠ (swapRemove s.data s.i)[j + 1]?
    rw [hkept j (by omega), hkept (j + 1) hj']
    exact h.adjacent j hj'

variable [DecidableEq T]

/-! ## The loop -/

/-- Whether one of the two slots of `value` points to an equal. -/
def found (hash1 hash2 : T → ℕ) (s : DedupState T) (value : T) : Bool :=
  ptrCmp s.data (s.table (hash1 value % TABLE_LEN)) value ||
    ptrCmp s.data (s.table (hash2 value % TABLE_LEN)) value

/-- One turn of the loop; `none` when it is over. -/
def dedupStep (hash1 hash2 : T → ℕ) (s : DedupState T) : Option (DedupState T) :=
  s.data[s.i]?.map fun value =>
    if found hash1 hash2 s value then DedupState.remove s
    else DedupState.keep s (storeSlot hash1 hash2 s value)

/-- A turn of the loop. -/
def Step (hash1 hash2 : T → ℕ) (s : DedupState T) (_ : Unit) (t : DedupState T) : Prop :=
  dedupStep hash1 hash2 s = some t

/-- What a turn does, and when. -/
theorem step_cases {e : Unit} (h : Step hash1 hash2 s e t) :
    ∃ hi : s.i < s.data.length,
      (found hash1 hash2 s s.data[s.i] = true ∧ t = DedupState.remove s) ∨
      (found hash1 hash2 s s.data[s.i] = false ∧
        t = DedupState.keep s (storeSlot hash1 hash2 s s.data[s.i])) := by
  obtain ⟨value, hvalue, rfl⟩ := Option.map_eq_some_iff.1 h
  obtain ⟨hi, rfl⟩ := List.getElem?_eq_some_iff.1 hvalue
  refine ⟨hi, ?_⟩
  cases hfound : found hash1 hash2 s s.data[s.i] with
  | true => exact .inl ⟨rfl, if_pos rfl⟩
  | false => exact .inr ⟨rfl, if_neg Bool.false_ne_true⟩

theorem dedupStep_eq_none : dedupStep hash1 hash2 s = none ↔ s.data.length ≤ s.i := by
  rw [dedupStep, Option.map_eq_none_iff, List.getElem?_eq_none_iff]

/-- The loop takes turns as long as there are any. -/
theorem dedupLoop_eq (fuel : ℕ) (s : DedupState T) :
    dedupLoop hash1 hash2 (fuel + 1) s.data s.table s.i =
      match dedupStep hash1 hash2 s with
      | none => s.data
      | some t => dedupLoop hash1 hash2 fuel t.data t.table t.i := by
  rw [dedupLoop, dedupStep]
  cases hvalue : s.data[s.i]? with
  | none => rfl
  | some value =>
    simp only [Option.map_some]
    cases hfound : found hash1 hash2 s value with
    | true =>
      rw [if_pos (by exact hfound)]
      rfl
    | false =>
      rw [if_neg (by
        rw [Bool.not_eq_true]
        exact hfound)]
      rfl

/-! ## What every turn keeps -/

/-- Nothing before `i` is touched. -/
theorem Step.getElem?_eq {e : Unit} (h : Step hash1 hash2 s e t) :
    s.i ≤ t.i ∧ ∀ j < s.i, t.data[j]? = s.data[j]? := by
  obtain ⟨hi, ⟨-, rfl⟩ | ⟨-, rfl⟩⟩ := step_cases h
  · exact ⟨le_rfl, fun j hj => getElem?_swapRemove_of_lt hi hj⟩
  · exact ⟨Nat.le_succ _, fun _ _ => rfl⟩

/-- A turn that changes the table stores the pointer to the element it has come to. -/
theorem Step.table_eq {e : Unit} (h : Step hash1 hash2 s e t) :
    t.table = s.table ∨ t.i = s.i + 1 ∧ t.data = s.data ∧
      ∃ slot, t.table = Function.update s.table slot (some s.i) := by
  obtain ⟨hi, ⟨-, rfl⟩ | ⟨-, rfl⟩⟩ := step_cases h
  · exact .inl rfl
  · exact .inr ⟨rfl, rfl, _, rfl⟩

/-- An element that a pointer in one of its slots leads to is found. -/
theorem found_of_table {j : ℕ} {value : T} (hj : s.data[j]? = some value)
    (h : s.table (hash1 value % TABLE_LEN) = some j ∨ s.table (hash2 value % TABLE_LEN) = some j) :
    found hash1 hash2 s value = true := by
  rw [found, Bool.or_eq_true]
  rcases h with h | h
  · exact .inl (by simp [h, ptrCmp, hj])
  · exact .inr (by simp [h, ptrCmp, hj])

theorem LoopInv.keep (h : LoopInv hash1 hash2 s) (hi : s.i < s.data.length)
    (hmissed : found hash1 hash2 s s.data[s.i] = false) :
    LoopInv hash1 hash2 (DedupState.keep s (storeSlot hash1 hash2 s s.data[s.i])) := by
  have hself : s.data[s.i]? = some s.data[s.i] := List.getElem?_eq_getElem hi
  refine ⟨h.below.update _, hi, fun j value hj hvalue => ?_, fun j hj => ?_⟩
  · obtain rfl : j = s.i := (Nat.succ.inj hj).symm
    obtain rfl : s.data[s.i] = value := Option.some.inj (hself.symm.trans hvalue)
    show Function.update s.table _ (some s.i) _ = _ ∨ Function.update s.table _ (some s.i) _ = _
    rcases storeSlot_eq hash1 hash2 s s.data[s.i] with hslot | hslot
    · exact .inl (by rw [hslot, Function.update_self])
    · exact .inr (by rw [hslot, Function.update_self])
  · by_cases hlast : j + 1 < s.i
    · exact h.adjacent j hlast
    · have hj' : s.i = j + 1 := by
        have : j + 1 < s.i + 1 := hj
        omega
      intro heq
      have hvalue : s.data[j]? = some s.data[s.i] := by
        rw [← hself, hj']
        exact heq
      have hfound := found_of_table hvalue (h.last j _ hj' hvalue)
      rw [hmissed] at hfound
      cases hfound

theorem LoopInv.step {e : Unit} (h : LoopInv hash1 hash2 s) (hst : Step hash1 hash2 s e t) :
    LoopInv hash1 hash2 t := by
  obtain ⟨hi, ⟨-, rfl⟩ | ⟨hmissed, rfl⟩⟩ := step_cases hst
  · exact h.remove hi
  · exact h.keep hi hmissed

/-- A turn moves `i` up or shortens the vector. -/
theorem Step.measure {e : Unit} (h : Step hash1 hash2 s e t) :
    t.data.length - t.i + 1 = s.data.length - s.i := by
  obtain ⟨hi, ⟨-, rfl⟩ | ⟨-, rfl⟩⟩ := step_cases h
  · show (swapRemove s.data s.i).length - s.i + 1 = _
    rw [length_swapRemove hi]
    omega
  · show s.data.length - (s.i + 1) + 1 = _
    omega

/-- The loop is the run of its turns, to the end. -/
theorem exists_run (hash1 hash2 : T → ℕ) (fuel : ℕ) (s : DedupState T)
    (hfuel : s.data.length - s.i ≤ fuel) :
    ∃ l, Run (Step hash1 hash2) s l ∧ dedupStep hash1 hash2 (final s l) = none ∧
      (final s l).data = dedupLoop hash1 hash2 fuel s.data s.table s.i := by
  induction fuel generalizing s with
  | zero => exact ⟨[], .nil s, dedupStep_eq_none.2 (by simp; omega), rfl⟩
  | succ fuel ih =>
    rw [dedupLoop_eq]
    cases hstep : dedupStep hash1 hash2 s with
    | none => exact ⟨[], .nil s, hstep, rfl⟩
    | some t =>
      have hst : Step hash1 hash2 s () t := hstep
      have hless := hst.measure
      obtain ⟨l, hr, hend, hdata⟩ := ih t (by omega)
      exact ⟨((), t) :: l, .cons hst hr, hend, hdata⟩

/-! ## Nothing is lost or invented -/

theorem Step.count_le {e : Unit} (h : Step hash1 hash2 s e t) (v : T) :
    t.data.count v ≤ s.data.count v := by
  obtain ⟨hi, ⟨-, rfl⟩ | ⟨-, rfl⟩⟩ := step_cases h
  · rw [(perm_swapRemove hi).count_eq v]
    exact List.count_le_count_cons
  · exact le_rfl

theorem run_count_le {l : List (Unit × DedupState T)} (hr : Run (Step hash1 hash2) s l) (v : T) :
    (final s l).data.count v ≤ s.data.count v := by
  induction hr with
  | nil s => exact le_rfl
  | cons hst _ ih => exact ih.trans (hst.count_le v)

theorem run_loopInv {data : List T} {l : List (Unit × DedupState T)}
    (hr : Run (Step hash1 hash2) (start data) l) :
    LoopInv hash1 hash2 (final (start data) l) :=
  hr.invariant (C := fun _ _ => True) (fun _ _ _ h _ hst => h.step hst) (loopInv_start data)
    (fun _ _ => trivial) _ (final_mem_states ..)

theorem run_length {l : List (Unit × DedupState T)} (hr : Run (Step hash1 hash2) s l) :
    l.length + ((final s l).data.length - (final s l).i) = s.data.length - s.i := by
  induction hr with
  | nil s => exact Nat.zero_add _
  | cons hst _ ih =>
    have hless := hst.measure
    rw [List.length_cons, final_cons]
    omega

/-- A pointer was stored when the loop came to its element, which has not changed since. -/
theorem run_stored {data : List T} {l : List (Unit × DedupState T)}
    (hr : Run (Step hash1 hash2) (start data) l) {slot j : ℕ}
    (h : (final (start data) l).table slot = some j) :
    ∃ l₁ u l₂, l = l₁ ++ ((), u) :: l₂ ∧ (final (start data) l₁).i = j ∧
      u.table slot = some j ∧
      (final (start data) l).data[j]? = (final (start data) l₁).data[j]? := by
  induction l using List.reverseRecOn with
  | nil => exact absurd h.symm (Option.some_ne_none j)
  | append_singleton l p ih =>
    obtain ⟨e, t⟩ := p
    obtain ⟨hr, hlast⟩ := Run.append_iff.1 hr
    have hst := (Run.cons_iff.1 hlast).1
    have hfinal : final (start data) (l ++ [(e, t)]) = t := by
      rw [final_append, final_cons, final_nil]
    rw [hfinal] at h ⊢
    -- a pointer that was there before this turn: its element is not touched
    have hbefore (hsame : (final (start data) l).table slot = some j) :
        ∃ l₁ u l₂, l ++ [(e, t)] = l₁ ++ ((), u) :: l₂ ∧ (final (start data) l₁).i = j ∧
          u.table slot = some j ∧ t.data[j]? = (final (start data) l₁).data[j]? := by
      have hj := (run_loopInv hr).below slot j hsame
      obtain ⟨l₁, u, l₂, rfl, hi, hstored, hdata⟩ := ih hr hsame
      refine ⟨l₁, u, l₂ ++ [(e, t)], by simp, hi, hstored, ?_⟩
      rw [hst.getElem?_eq.2 j hj, hdata]
    rcases hst.table_eq with htable | ⟨-, hdata, slot', htable⟩
    · rw [htable] at h
      exact hbefore h
    · by_cases hslot : slot = slot'
      · have hj := h
        rw [htable, hslot, Function.update_self, Option.some.injEq] at hj
        exact ⟨l, t, [], rfl, hj, h, by rw [hdata]⟩
      · rw [htable, Function.update_of_ne hslot] at h
        exact hbefore h

/-! ## What is promised of `dedup_partial` -/

/-- `dedup_partial` on a vector. -/
structure Deduplicates (hash1 hash2 : T → ℕ) (data : List T) : Prop where
  /-- the loop cannot go on for ever -/
  bounded : ∀ l, Run (Step hash1 hash2) (start data) l → l.length ≤ data.length
  /-- and when it is over it leaves what `dedup_partial` does -/
  ends : ∃ l, Run (Step hash1 hash2) (start data) l ∧
    dedupStep hash1 hash2 (final (start data) l) = none ∧
    (final (start data) l).data = dedupPartial hash1 hash2 data
  /-- a pointer is to an index below `i`; it was stored in the turn when `i` was this index, and
  the element there has not changed since -/
  pointers : ∀ l, Run (Step hash1 hash2) (start data) l → ∀ slot j,
    (final (start data) l).table slot = some j → j < (final (start data) l).i ∧
      ∃ l₁ u l₂, l = l₁ ++ ((), u) :: l₂ ∧ (final (start data) l₁).i = j ∧
        u.table slot = some j ∧
        (final (start data) l).data[j]? = (final (start data) l₁).data[j]?
  mem : ∀ v, v ∈ dedupPartial hash1 hash2 data ↔ v ∈ data
  count : ∀ v, (dedupPartial hash1 hash2 data).count v ≤ data.count v
  adjacent : (dedupPartial hash1 hash2 data).IsChain (· ≠ ·)

/-- **`dedup_partial` ends, never loses or invents a value, and leaves no two adjacent equal
elements**, whatever the hash functions are. -/
theorem dedupPartial_deduplicates (hash1 hash2 : T → ℕ) (data : List T) :
    Deduplicates hash1 hash2 data := by
  obtain ⟨l, hr, hend, hdata⟩ := exists_run hash1 hash2 data.length (start data)
    (Nat.sub_le ..)
  refine ⟨fun l hr => ?_, ⟨l, hr, hend, hdata⟩, fun l hr slot j h => ?_, fun v => ?_, fun v => ?_,
    ?_⟩
  · have hlen := run_length hr
    simp only [start, Nat.sub_zero] at hlen
    omega
  · exact ⟨(run_loopInv hr).below slot j h, run_stored hr h⟩
  · exact mem_dedupPartial
  · have hcount := run_count_le hr v
    rw [hdata] at hcount
    exact hcount
  · have hinv := run_loopInv hr
    have hlen := dedupStep_eq_none.1 hend
    rw [dedupPartial, show dedupLoop hash1 hash2 data.length data (fun _ => none) 0 = _ from
      hdata.symm, List.isChain_iff_getElem]
    intro j hj heq
    refine hinv.adjacent j (by omega) ?_
    rw [List.getElem?_eq_getElem (by omega), List.getElem?_eq_getElem hj, heq]

end Dedup

end Hamerkop
