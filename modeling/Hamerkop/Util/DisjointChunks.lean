import Mathlib

/-!
# `DisjointChunksExact`

The iterator of `hamerkop/src/util/disjoint_chunks.rs` over the chunks of two slices, as if they
were one.  `next` fills an array that is not initialised at first, from one slice after the
other; the slices wait on a stack.  A chunk may end anywhere in a slice, and a slice anywhere
in a chunk (`nextLoop_eq`).
-/

namespace Hamerkop

/-- The slices that have not been used up, the one on top of the stack first. -/
structure DisjointChunksExact (T : Type) where
  slices : List (List T)

namespace DisjointChunksExact

variable {T : Type}

/-- `new`, which pushes `b` and then `a` -/
def new (a b : List T) : DisjointChunksExact T := ⟨[a, b]⟩

/-- Elements are copied to the array from this index on. -/
def copyTo (tmp : List (Option T)) (i : ℕ) (elements : List T) : List (Option T) :=
  tmp.take i ++ elements.map some ++ tmp.drop (i + elements.length)

/-- The loop of `next`, and the slices that it leaves.  There is no array when the slices run
out. -/
def nextLoop (n : ℕ) (slices : List (List T)) (remaining : ℕ) (tmp : List (Option T)) :
    Option (List (Option T)) × List (List T) :=
  if remaining > 0 then
    match slices with
    | [] => (none, [])
    | first :: slices =>
      let count := min first.length remaining
      let tmp := copyTo tmp (n - remaining) (first.take count)
      if first.drop count = [] then
        nextLoop n slices (remaining - count) tmp
      else
        nextLoop n (first.drop count :: slices) (remaining - count) tmp
  else
    (some tmp, slices)
termination_by remaining + slices.length
decreasing_by
  · rw [List.length_cons]
    omega
  · -- a slice that is not used up has filled the array
    rename_i hleft
    have hlt : min first.length remaining < first.length := by
      by_contra hge
      exact hleft (List.drop_of_length_le (not_lt.mp hge))
    simp only [List.length_cons]
    omega

/-- `next`: the cells of the array that is assumed to be initialised -/
def next (n : ℕ) (self : DisjointChunksExact T) :
    Option (List (Option T)) × DisjointChunksExact T :=
  let (item, slices) := nextLoop n self.slices n (List.replicate n none)
  (item, ⟨slices⟩)

/-- The iterator after so many calls of `next`. -/
def after (n : ℕ) (self : DisjointChunksExact T) : ℕ → DisjointChunksExact T
  | 0 => self
  | k + 1 => ((self.after n k).next n).2

/-! ## What the loop does -/

theorem copyTo_copyTo (tmp : List (Option T)) (i : ℕ) (xs ys : List T)
    (h : i + xs.length ≤ tmp.length) :
    copyTo (copyTo tmp i xs) (i + xs.length) ys = copyTo tmp i (xs ++ ys) := by
  have hlength : (tmp.take i ++ xs.map some).length = i + xs.length := by
    rw [List.length_append, List.length_take, List.length_map]
    omega
  unfold copyTo
  rw [List.take_left' hlength, List.drop_append, hlength, List.drop_of_length_le (by omega),
    List.nil_append, List.drop_drop, List.map_append, List.length_append]
  simp only [List.append_assoc]
  congr 4
  omega

theorem length_copyTo (tmp : List (Option T)) (i : ℕ) (xs : List T)
    (h : i + xs.length ≤ tmp.length) : (copyTo tmp i xs).length = tmp.length := by
  unfold copyTo
  simp only [List.length_append, List.length_take, List.length_map, List.length_drop]
  omega

/-- **The loop takes its elements from the concatenation of the slices**, or uses them all up. -/
theorem nextLoop_eq {n : ℕ} (slices : List (List T)) (remaining : ℕ) (tmp : List (Option T))
    (hn : remaining ≤ n) (htmp : tmp.length = n) :
    if remaining ≤ slices.flatten.length then
      (nextLoop n slices remaining tmp).1 =
          some (copyTo tmp (n - remaining) (slices.flatten.take remaining)) ∧
        (nextLoop n slices remaining tmp).2.flatten = slices.flatten.drop remaining
    else
      nextLoop n slices remaining tmp = (none, []) := by
  fun_induction nextLoop n slices remaining tmp with
  | case1 remaining tmp hpos =>
    rw [if_neg (by simp only [List.flatten_nil, List.length_nil]; omega)]
  | case2 remaining tmp hpos first slices count copied hempty ih =>
    -- the slice is used up
    have hcount : count = first.length := by
      have := List.drop_eq_nil_iff.mp hempty
      omega
    have hle : first.length ≤ remaining := by omega
    have htake : first.take count = first := List.take_of_length_le hcount.ge
    have hfits : n - remaining + first.length ≤ tmp.length := by omega
    have hcopied : copied.length = n := by
      rw [← htmp, ← length_copyTo tmp (n - remaining) first hfits, ← htake]
    specialize ih (by omega) hcopied
    rw [List.flatten_cons, List.length_append]
    by_cases henough : remaining ≤ first.length + slices.flatten.length
    · rw [if_pos (by omega)] at ih
      rw [if_pos henough, ih.1, ih.2, hcount]
      constructor
      · have hstart : n - (remaining - first.length) = n - remaining + first.length := by omega
        have hcopy : copied = copyTo tmp (n - remaining) first := by rw [← htake]
        rw [hcopy, hstart, copyTo_copyTo tmp _ _ _ hfits, List.take_append,
          List.take_of_length_le hle]
      · rw [List.drop_append, List.drop_of_length_le hle, List.nil_append]
    · rw [if_neg (by omega)] at ih
      rw [if_neg henough, ih]
  | case3 remaining tmp hpos first slices count copied hleft ih =>
    -- the array is full, and the loop ends
    have hcount : count = remaining := by
      have hlt : count < first.length := by
        by_contra hge
        exact hleft (List.drop_of_length_le (not_lt.mp hge))
      omega
    have hle : remaining ≤ first.length := by omega
    have hcopied : copied.length = n := by
      rw [← htmp]
      refine length_copyTo tmp (n - remaining) (first.take count) ?_
      rw [List.length_take]
      omega
    specialize ih (by omega) hcopied
    rw [hcount, Nat.sub_self, if_pos (Nat.zero_le _)] at ih
    rw [List.flatten_cons, if_pos (by rw [List.length_append]; omega), hcount, Nat.sub_self,
      List.take_append_of_le_length hle, List.drop_append_of_le_length hle]
    refine ⟨?_, ih.2⟩
    rw [ih.1, List.take_zero, Nat.sub_zero]
    have hnothing : copyTo copied n [] = copied := by
      simp [copyTo, ← hcopied]
    rw [hnothing]
    show some (copyTo tmp (n - remaining) (first.take count)) = _
    rw [hcount]
  | case4 slices remaining tmp hpos =>
    obtain rfl : remaining = 0 := by omega
    simp [copyTo]

/-! ## The chunks -/

theorem next_eq (n : ℕ) (self : DisjointChunksExact T) :
    if n ≤ self.slices.flatten.length then
      (self.next n).1 = some ((self.slices.flatten.take n).map some) ∧
        (self.next n).2.slices.flatten = self.slices.flatten.drop n
    else
      (self.next n).1 = none ∧ (self.next n).2.slices.flatten = [] := by
  have hloop := nextLoop_eq self.slices n (List.replicate n none) le_rfl List.length_replicate
  unfold next
  by_cases h : n ≤ self.slices.flatten.length
  · rw [if_pos h] at hloop ⊢
    refine ⟨?_, hloop.2⟩
    have htaken : (self.slices.flatten.take n).length = n := by
      rw [List.length_take]
      omega
    simp only [hloop.1, Nat.sub_self, copyTo, List.take_zero, List.nil_append, Nat.zero_add, htaken]
    rw [List.drop_of_length_le (List.length_replicate.le), List.append_nil]
  · rw [if_neg h] at hloop ⊢
    rw [hloop]
    exact ⟨rfl, rfl⟩

/-- What is left after so many calls. -/
theorem flatten_after {n : ℕ} (hn : 0 < n) (self : DisjointChunksExact T) (k : ℕ) :
    (self.after n k).slices.flatten =
      if k ≤ self.slices.flatten.length / n then self.slices.flatten.drop (k * n) else [] := by
  induction k with
  | zero => simp [after]
  | succ k ih =>
    have hnext := next_eq n (self.after n k)
    unfold after
    by_cases hk : k ≤ self.slices.flatten.length / n
    · rw [ih, if_pos hk, List.length_drop] at hnext
      have hroom : k * n ≤ self.slices.flatten.length := (Nat.le_div_iff_mul_le hn).mp hk
      by_cases hnextk : k + 1 ≤ self.slices.flatten.length / n
      · have hmore : (k + 1) * n ≤ self.slices.flatten.length :=
          (Nat.le_div_iff_mul_le hn).mp hnextk
        rw [Nat.succ_mul] at hmore
        have henough : n ≤ self.slices.flatten.length - k * n := by omega
        rw [if_pos henough] at hnext
        rw [if_pos hnextk, hnext.2, List.drop_drop, Nat.succ_mul]
      · have hless : self.slices.flatten.length < (k + 1) * n :=
          (Nat.div_lt_iff_lt_mul hn).mp (by omega)
        rw [Nat.succ_mul] at hless
        have hshort : ¬ n ≤ self.slices.flatten.length - k * n := by omega
        rw [if_neg hshort] at hnext
        rw [if_neg hnextk]
        exact hnext.2
    · have hshort : ¬ n ≤ ([] : List T).length := not_le.mpr hn
      have hnextk : ¬ k + 1 ≤ self.slices.flatten.length / n := by omega
      rw [ih, if_neg hk, if_neg hshort] at hnext
      rw [if_neg hnextk]
      exact hnext.2

/-- **The iterator yields the exact chunks of the concatenation**, whose elements have all been
written, and then nothing any more. -/
theorem next_after_new {n : ℕ} (hn : 0 < n) (a b : List T) (k : ℕ) :
    (((new a b).after n k).next n).1 =
      if k < (a.length + b.length) / n then
        some ((((a ++ b).drop (k * n)).take n).map some)
      else
        none := by
  have hnew : (new a b).slices.flatten = a ++ b := by simp [new]
  have hafter := flatten_after hn (new a b) k
  have hnext := next_eq n ((new a b).after n k)
  rw [hnew, List.length_append] at hafter
  by_cases hk : k < (a.length + b.length) / n
  · have hroom : (k + 1) * n ≤ a.length + b.length := (Nat.le_div_iff_mul_le hn).mp hk
    rw [Nat.succ_mul] at hroom
    have henough : n ≤ a.length + b.length - k * n := by omega
    rw [hafter, if_pos hk.le, List.length_drop, List.length_append, if_pos henough] at hnext
    rw [if_pos hk]
    exact hnext.1
  · rw [if_neg hk]
    by_cases hlast : k ≤ (a.length + b.length) / n
    · have hless : a.length + b.length < (k + 1) * n := (Nat.div_lt_iff_lt_mul hn).mp (by omega)
      rw [Nat.succ_mul] at hless
      have hshort : ¬ n ≤ a.length + b.length - k * n := by omega
      rw [hafter, if_pos hlast, List.length_drop, List.length_append, if_neg hshort] at hnext
      exact hnext.1
    · have hshort : ¬ n ≤ ([] : List T).length := not_le.mpr hn
      rw [hafter, if_neg hlast, if_neg hshort] at hnext
      exact hnext.1

/-- The second chunk straddles the slices; the third call finds a remainder. -/
theorem next_after_new_straddling :
    (((new [1, 2, 3] [4, 5]).after 2 1).next 2).1 = some [some 3, some 4] ∧
      (((new [1, 2, 3] [4, 5]).after 2 2).next 2).1 = none :=
  ⟨next_after_new (by decide) [1, 2, 3] [4, 5] 1, next_after_new (by decide) [1, 2, 3] [4, 5] 2⟩

end DisjointChunksExact

end Hamerkop
