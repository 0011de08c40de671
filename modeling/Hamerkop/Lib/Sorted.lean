import Mathlib

/-!
# Order statistics by counting

Whether the element of rank `r` of a sorted list lies below a bound is decided by counting
(`lt_countP_iff`).  With the elements sorted into numbered classes by a monotone function,
the class of that element is the first one at which the running total of the counts
exceeds the rank (`findIdx?_totals`).  Such a class exists for every rank below the sum of
the counts, and a greater rank does not have an earlier one.
-/

namespace Sorted

variable {α : Type*}

/-- The running totals of these counts. -/
def totals : ℕ → List ℕ → List ℕ
  | _, [] => []
  | total, count :: counts => (total + count) :: totals (total + count) counts

@[simp] theorem length_totals (total : ℕ) (counts : List ℕ) :
    (totals total counts).length = counts.length := by
  induction counts generalizing total with
  | nil => rfl
  | cons count counts ih => rw [totals, List.length_cons, ih, List.length_cons]

theorem getElem?_totals (total : ℕ) (counts : List ℕ) {i : ℕ} (hi : i < counts.length) :
    (totals total counts)[i]? = some (total + (counts.take (i + 1)).sum) := by
  induction counts generalizing total i with
  | nil => exact absurd hi (Nat.not_lt_zero _)
  | cons count counts ih =>
    cases i with
    | zero => simp [totals]
    | succ i =>
      rw [totals, List.getElem?_cons_succ, ih _ (by simpa using hi), List.take_succ_cons,
        List.sum_cons, Nat.add_assoc]

/-- Where a property holds of a beginning of the list only, it is decided by counting. -/
theorem lt_countP_iff {P : α → Prop} [DecidablePred P] {l : List α} {r : ℕ} {x : α}
    (hl : l.Pairwise fun a b => P b → P a) (hx : l[r]? = some x) : r < l.countP (P ·) ↔ P x := by
  induction l generalizing r with
  | nil => simp at hx
  | cons a l ih =>
    obtain ⟨ha, hl⟩ := List.pairwise_cons.mp hl
    by_cases hPa : P a
    · rw [List.countP_cons_of_pos (by simpa using hPa)]
      cases r with
      | zero =>
        obtain rfl := Option.some.inj hx
        simpa using hPa
      | succ r => simpa using ih hl hx
    · have hnone : ∀ y ∈ a :: l, ¬ P y := by
        intro y hy hPy
        obtain rfl | hy := List.mem_cons.mp hy
        · exact hPa hPy
        · exact hPa (ha y hy hPy)
      have hzero : (a :: l).countP (P ·) = 0 :=
        List.countP_eq_zero.mpr fun y hy => by simpa using hnone y hy
      rw [hzero]
      exact iff_of_false (Nat.not_lt_zero _) (hnone x (List.mem_of_getElem? hx))

theorem countP_lt_succ (f : α → ℕ) (l : List α) (n : ℕ) :
    l.countP (f · < n + 1) = l.countP (f · < n) + l.countP (f · = n) := by
  induction l with
  | nil => rfl
  | cons a l ih =>
    simp only [List.countP_cons, ih]
    obtain hlt | heq | hgt := lt_trichotomy (f a) n
    · simp [hlt, hlt.ne, Nat.lt_succ_of_lt hlt]
      omega
    · simp [heq]
      omega
    · simp [not_lt.mpr hgt.le, hgt.ne', not_lt.mpr (Nat.succ_le_of_lt hgt)]

/-- The elements of the first classes. -/
theorem sum_countP_eq (f : α → ℕ) (l : List α) (n : ℕ) :
    ((List.range n).map fun i => l.countP (f · = i)).sum = l.countP (f · < n) := by
  induction n with
  | zero => simp
  | succ n ih =>
    rw [List.range_succ, List.map_append, List.sum_append, ih, countP_lt_succ]
    simp

/-- The class of the element of rank `r`, found by counting. -/
theorem findIdx?_totals [LinearOrder α] {f : α → ℕ} {l : List α} {n r : ℕ} {x : α}
    (hf : ∀ a ∈ l, ∀ b ∈ l, a ≤ b → f a ≤ f b) (hx : (l.insertionSort (· ≤ ·))[r]? = some x)
    (hn : f x < n) :
    (totals 0 ((List.range n).map fun i => l.countP (f · = i))).findIdx? (r < ·) = some (f x) := by
  have htotal : ∀ i (hi : i < n), (totals 0 ((List.range n).map fun i => l.countP (f · = i)))[i]? =
      some (l.countP (f · < i + 1)) := by
    intro i hi
    rw [getElem?_totals _ _ (by simpa using hi), ← List.map_take, List.take_range,
      min_eq_left (by omega), sum_countP_eq, Nat.zero_add]
  have hcount : ∀ i, r < l.countP (f · < i + 1) ↔ f x ≤ i := by
    intro i
    have hsorted : (l.insertionSort (· ≤ ·)).Pairwise fun a b => f b < i + 1 → f a < i + 1 := by
      refine (List.pairwise_insertionSort (· ≤ ·) l).imp_of_mem fun ha hb hab hlt => ?_
      have hab' := hf _ ((List.mem_insertionSort _).mp ha) _ ((List.mem_insertionSort _).mp hb) hab
      exact hab'.trans_lt hlt
    rw [← (List.perm_insertionSort (· ≤ ·) l).countP_eq, lt_countP_iff hsorted hx]
    exact Nat.lt_succ_iff
  have hlen : (totals 0 ((List.range n).map fun i => l.countP (f · = i))).length = n := by
    rw [length_totals, List.length_map, List.length_range]
  rw [List.findIdx?_eq_some_iff_getElem]
  refine ⟨by omega, ?_, ?_⟩
  · have := htotal (f x) hn
    rw [List.getElem?_eq_getElem (by omega), Option.some.injEq] at this
    rw [this, decide_eq_true_iff, hcount]
  · intro j hj
    have := htotal j (by omega)
    rw [List.getElem?_eq_getElem (by omega), Option.some.injEq] at this
    rw [this, decide_eq_true_iff, hcount]
    omega

/-- A rank below the sum is exceeded by a total. -/
theorem exists_findIdx?_totals {counts : List ℕ} {r : ℕ} (h : r < counts.sum) :
    ∃ i, i < counts.length ∧ (totals 0 counts).findIdx? (r < ·) = some i := by
  cases hfind : (totals 0 counts).findIdx? (r < ·) with
  | some i =>
    have hi := (List.findIdx?_eq_some_iff_getElem.mp hfind).1
    exact ⟨i, by rwa [length_totals] at hi, rfl⟩
  | none =>
    exfalso
    have hlength : 0 < counts.length := by
      cases counts with
      | nil => simp at h
      | cons count counts => simp
    have hlast := getElem?_totals 0 counts (Nat.sub_one_lt_of_lt hlength)
    rw [Nat.sub_add_cancel hlength, List.take_length, Nat.zero_add] at hlast
    have hle := List.findIdx?_eq_none_iff.mp hfind _ (List.mem_of_getElem? hlast)
    rw [decide_eq_false_iff_not] at hle
    exact hle h

theorem findIdx?_mono {l : List ℕ} {r r' i j : ℕ} (hr : r ≤ r')
    (hi : l.findIdx? (r < ·) = some i) (hj : l.findIdx? (r' < ·) = some j) : i ≤ j := by
  obtain ⟨_, -, hmin⟩ := List.findIdx?_eq_some_iff_getElem.mp hi
  obtain ⟨_, hexceeds, -⟩ := List.findIdx?_eq_some_iff_getElem.mp hj
  by_contra hlt
  have hnot := hmin j (not_le.mp hlt)
  simp only [decide_eq_true_eq] at hnot hexceeds
  omega

end Sorted
