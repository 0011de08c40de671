import Mathlib

/-!
# `dedup_partial`

The best-effort deduplication of `hamerkop/src/util/dedup.rs`.  It keeps a small
table of pointers to values it has passed, two candidate slots a value, and
removes a value that either of its slots points to an equal of.

The hash functions come from outside the repository and are arbitrary functions
of the value here.  Whatever they are, no value is lost and none is invented
(`mem_dedupPartial`).
-/

namespace Hamerkop

/-- `Vec::swap_remove`: the last element takes the place of the removed one. -/
def swapRemove {T : Type} (data : List T) (i : ℕ) : List T :=
  match data.getLast? with
  | some last => (data.set i last).dropLast
  | none => data

namespace Dedup

variable {T : Type} [DecidableEq T]

/-- `table.len()` -/
def TABLE_LEN : ℕ := 128

/-- `ptr_cmp`; a pointer into the vector is the index of the element it points at. -/
def ptrCmp (data : List T) (ptr : Option ℕ) (value : T) : Bool :=
  match ptr with
  | none => false
  | some j => data[j]? == some value

/-- The loop.  Every turn moves `i` up or shortens the vector, so the length of the vector bounds
the turns that are left. -/
def dedupLoop (hash1 hash2 : T → ℕ) : ℕ → List T → (ℕ → Option ℕ) → ℕ → List T
  | 0, data, _, _ => data
  | fuel + 1, data, table, i =>
    match data[i]? with
    | none => data
    | some value =>
      let slot1 := hash1 value % TABLE_LEN
      let slot2 := hash2 value % TABLE_LEN
      if ptrCmp data (table slot1) value || ptrCmp data (table slot2) value then
        dedupLoop hash1 hash2 fuel (swapRemove data i) table i
      else
        let slot :=
          if (table slot1).isNone then slot1
          else if (table slot2).isNone then slot2
          else if i % 2 = 0 then slot1
          else slot2
        dedupLoop hash1 hash2 fuel data (Function.update table slot (some i)) (i + 1)

end Dedup

/-- `dedup_partial(data)`, with its two hashes. -/
def dedupPartial {T : Type} [DecidableEq T] (hash1 hash2 : T → ℕ) (data : List T) : List T :=
  Dedup.dedupLoop hash1 hash2 data.length data (fun _ => none) 0

namespace Dedup

/-! ## `swap_remove` -/

section SwapRemove

variable {T : Type} {data : List T} {i : ℕ}

theorem exists_concat (h : i < data.length) : ∃ l last, data = l ++ [last] :=
  data.eq_nil_or_concat'.resolve_left fun hnil => by simp [hnil] at h

/-- The two cases of `swap_remove`: the last element itself, or another one. -/
theorem swapRemove_concat (l : List T) (last : T) (h : i < l.length + 1) :
    swapRemove (l ++ [last]) i = if i < l.length then l.set i last else l := by
  split
  · next hi => simp [swapRemove, List.set_append_left _ _ hi]
  · have hlast : i = l.length := by omega
    subst hlast
    simp [swapRemove]

theorem length_swapRemove (h : i < data.length) : (swapRemove data i).length = data.length - 1 := by
  obtain ⟨l, last, rfl⟩ := exists_concat h
  rw [swapRemove_concat _ _ (by simpa using h)]
  split <;> simp

theorem mem_of_mem_swapRemove (h : i < data.length) {x : T} (hx : x ∈ swapRemove data i) :
    x ∈ data := by
  obtain ⟨l, last, rfl⟩ := exists_concat h
  rw [swapRemove_concat _ _ (by simpa using h)] at hx
  split at hx
  · rcases List.mem_or_eq_of_mem_set hx with hx | rfl
    · exact List.mem_append_left _ hx
    · simp
  · exact List.mem_append_left _ hx

theorem mem_swapRemove_of_mem (h : i < data.length) {x : T} (hx : x ∈ data) (hne : x ≠ data[i]) :
    x ∈ swapRemove data i := by
  obtain ⟨l, last, rfl⟩ := exists_concat h
  rw [swapRemove_concat _ _ (by simpa using h)]
  obtain ⟨j, hj, rfl⟩ := List.getElem_of_mem hx
  have hji : j ≠ i := fun e => hne (by subst e; rfl)
  split
  · next hi =>
    by_cases hjl : j < l.length
    · refine List.mem_iff_getElem.2 ⟨j, by simpa using hjl, ?_⟩
      rw [List.getElem_set_ne (Ne.symm hji), List.getElem_append_left hjl]
    · have hjlast : j = l.length := by
        simp at hj
        omega
      subst hjlast
      simpa using List.mem_set hi last
  · have hjl : j < l.length := by
      simp at hj h
      omega
    rw [List.getElem_append_left hjl]
    exact List.getElem_mem hjl

/-- What lies before the removed element stays where it is. -/
theorem getElem?_swapRemove_of_lt (h : i < data.length) {j : ℕ} (hj : j < i) :
    (swapRemove data i)[j]? = data[j]? := by
  obtain ⟨l, last, rfl⟩ := exists_concat h
  have hjl : j < l.length := by
    simp at h
    omega
  rw [swapRemove_concat _ _ (by simpa using h), List.getElem?_append_left hjl]
  split
  · exact List.getElem?_set_ne (by omega)
  · rfl

theorem perm_swapRemove (h : i < data.length) :
    data.Perm (data[i] :: swapRemove data i) := by
  obtain ⟨l, last, rfl⟩ := exists_concat h
  rw [swapRemove_concat _ _ (by simpa using h)]
  split
  · rename_i hi
    rw [List.getElem_append_left hi]
    refine (List.perm_append_singleton last l).trans ?_
    have hset := List.set_perm_cons_eraseIdx hi last
    have hget := List.getElem_cons_eraseIdx_perm hi
    exact ((hget.symm.cons last).trans (.swap ..)).trans (hset.symm.cons _)
  · rename_i hi
    have hlast : i = l.length := by
      simp at h
      omega
    subst hlast
    rw [List.getElem_append_right le_rfl]
    simp

end SwapRemove

/-! ## Nothing is lost, nothing is invented -/

variable {T : Type} [DecidableEq T] {hash1 hash2 : T → ℕ}

/-- The table points to elements already passed. -/
def PointsBelow (table : ℕ → Option ℕ) (i : ℕ) : Prop := ∀ slot j, table slot = some j → j < i

theorem PointsBelow.update {table : ℕ → Option ℕ} {i : ℕ} (h : PointsBelow table i) (slot : ℕ) :
    PointsBelow (Function.update table slot (some i)) (i + 1) := by
  intro slot' j hj
  by_cases hs : slot' = slot
  · rw [hs, Function.update_self, Option.some.injEq] at hj
    omega
  · rw [Function.update_of_ne hs] at hj
    exact (h slot' j hj).trans (Nat.lt_succ_self i)

/-- A pointer that compares equal points to an equal element before `i`. -/
theorem PointsBelow.of_ptrCmp {table : ℕ → Option ℕ} {i slot : ℕ} {data : List T} {value : T}
    (h : PointsBelow table i) (hcmp : ptrCmp data (table slot) value = true) :
    ∃ j < i, data[j]? = some value := by
  cases hp : table slot with
  | none => simp [hp, ptrCmp] at hcmp
  | some j => exact ⟨j, h slot j hp, by simpa [hp, ptrCmp] using hcmp⟩

theorem mem_dedupLoop {fuel : ℕ} {data : List T} {table : ℕ → Option ℕ} {i : ℕ}
    (ht : PointsBelow table i) (x : T) :
    x ∈ dedupLoop hash1 hash2 fuel data table i ↔ x ∈ data := by
  induction fuel generalizing data table i with
  | zero => rfl
  | succ fuel ih =>
    rw [dedupLoop]
    split
    · rfl
    · rename_i value hvalue
      obtain ⟨hi, rfl⟩ := List.getElem?_eq_some_iff.1 hvalue
      simp only
      split
      · rename_i hcmp
        -- the removed value has an equal before it, which stays
        obtain ⟨j, hj, hdup⟩ : ∃ j < i, data[j]? = some data[i] := by
          rcases Bool.or_eq_true_iff.1 hcmp with hcmp | hcmp
          · exact ht.of_ptrCmp hcmp
          · exact ht.of_ptrCmp hcmp
        rw [ih ht]
        refine ⟨mem_of_mem_swapRemove hi, fun hx => ?_⟩
        by_cases hne : x = data[i]
        · exact List.mem_of_getElem? (by rw [getElem?_swapRemove_of_lt hi hj, hdup, hne])
        · exact mem_swapRemove_of_mem hi hx hne
      · exact ih (ht.update _)

/-- **A value occurs in the output iff it occurs in the input.** -/
theorem mem_dedupPartial {data : List T} {x : T} :
    x ∈ dedupPartial hash1 hash2 data ↔ x ∈ data :=
  mem_dedupLoop (fun _ _ h => by cases h) x

/-- The turns allowed are enough: one more changes nothing. -/
theorem dedupLoop_succ {fuel : ℕ} {data : List T} {table : ℕ → Option ℕ} {i : ℕ}
    (h : data.length ≤ fuel + i) :
    dedupLoop hash1 hash2 (fuel + 1) data table i = dedupLoop hash1 hash2 fuel data table i := by
  induction fuel generalizing data table i with
  | zero =>
    have hend : data[i]? = none := List.getElem?_eq_none (by omega)
    simp only [dedupLoop, hend]
  | succ fuel ih =>
    conv_lhs => rw [dedupLoop]
    conv_rhs => rw [dedupLoop]
    cases hvalue : data[i]? with
    | none => rfl
    | some value =>
      obtain ⟨hi, -⟩ := List.getElem?_eq_some_iff.1 hvalue
      simp only
      split
      · exact ih (by rw [length_swapRemove hi]; omega)
      · exact ih (by omega)

end Dedup

end Hamerkop
