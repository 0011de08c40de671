import Hamerkop.Metrics.Quantile

/-!
# The ranks of a `DDSketch`

`rank` and `clear` of `metrics/src/ddsketch.rs`.  A sketch that samples are inserted into and
that is cleared now and then counts the samples since it was cleared last (`Records.sampleAll`),
and `rank` counts those of them whose bucket comes before that of the value
(`Records.rank_eq`).

The documentation says that this may be arbitrarily far from the rank.  What is certain is
`rank_brackets`: it never counts a sample that is not less than the value, and it counts every
one that is less by the factor `γ` that the precision stands for.  So the rank is right, of a
value that differs by no more than the precision allows, whatever the samples are.
-/

namespace Hamerkop

namespace DDSketch

variable {limit : ℕ} {alpha : ℝ} {s t : DDSketch} {samples : List ℕ}

/-- `clear`, when nobody else uses the sketch. -/
def clear (s : DDSketch) : DDSketch :=
  { s with
    min := u64Max
    max := 0
    count := 0
    buckets := s.buckets.map fun _ => 0 }

/-- What is done to a sketch that is sampled over and over. -/
inductive SampleCall where
  | insert (value : ℕ)
  | clear

/-- The calls come one after the other. -/
noncomputable def sampleAll (s : DDSketch) : List SampleCall → Option DDSketch
  | [] => some s
  | .insert value :: calls => (s.insert value).bind fun s => s.sampleAll calls
  | .clear :: calls => s.clear.sampleAll calls

/-- The samples since the sketch was cleared last, the last one first. -/
def sinceClear : List ℕ → List SampleCall → List ℕ
  | samples, [] => samples
  | samples, .insert value :: calls => sinceClear (value :: samples) calls
  | _, .clear :: calls => sinceClear [] calls

/-! ## What a sketch counts -/

/-- A sketch that is cleared is as good as new. -/
theorem Records.clear (h : Records s t samples) : Records s t.clear [] where
  gamma_eq := h.gamma_eq
  cutoff_eq := h.cutoff_eq
  limit_eq := h.limit_eq
  buckets_eq := by
    show t.buckets.map _ = _
    rw [h.buckets_eq, List.map_map]
    exact List.map_congr_left fun i _ => rfl
  count_eq := rfl
  min_eq := rfl
  max_eq := rfl

/-- A sketch counts the samples since it was cleared last. -/
theorem Records.sampleAll {calls : List SampleCall} (h : Records s t samples)
    (hbucket : ∀ value, .insert value ∈ calls → s.indexOf value < s.numBuckets)
    (hcount : samples.length + calls.length ≤ u64Max) :
    ∃ t', t.sampleAll calls = some t' ∧ Records s t' (sinceClear samples calls) := by
  induction calls generalizing t samples with
  | nil => exact ⟨t, rfl, h⟩
  | cons call calls ih =>
    have hrest : ∀ value, .insert value ∈ calls → s.indexOf value < s.numBuckets :=
      fun value hvalue => hbucket value (List.mem_cons_of_mem _ hvalue)
    rw [List.length_cons] at hcount
    cases call with
    | insert value =>
      have hi : t.indexOf value < t.numBuckets := by
        rw [h.indexOf_eq, h.numBuckets_eq]
        exact hbucket value List.mem_cons_self
      obtain ⟨t₁, hins⟩ := Option.isSome_iff_exists.mp (insertN_isSome_iff (n := 1).mpr hi)
      have hrec := h.insert hins (by omega)
      obtain ⟨t', ht', hrec'⟩ := ih hrec hrest (by rw [List.length_cons]; omega)
      refine ⟨t', ?_, hrec'⟩
      unfold DDSketch.sampleAll DDSketch.insert
      rw [hins]
      exact ht'
    | clear => exact ih h.clear hrest (by rw [List.length_nil]; omega)

/-- `rank` counts the samples whose bucket comes before that of the value. -/
theorem Records.rank_eq {value : ℕ} (h : Records s t samples)
    (hbucket : s.indexOf value ≤ s.numBuckets) :
    t.rank value = some (samples.countP (s.indexOf · < s.indexOf value)) := by
  unfold rank
  rw [h.indexOf_eq, h.numBuckets_eq, if_pos hbucket, h.buckets_eq, ← List.map_take,
    List.take_range, min_eq_left hbucket, Sorted.sum_countP_eq]

/-! ## How far the bucket of a value is -/

variable {value x : ℕ}

/-- A bucket that comes before holds less. -/
theorem HasLayout.lt_of_indexOf_lt (h : s.HasLayout limit alpha)
    (hbucket : s.indexOf value < s.numBuckets) (hlt : s.indexOf x < s.indexOf value) :
    x < value := by
  by_contra hle
  rw [not_lt] at hle
  by_cases hx : x ≤ limit
  · exact absurd (h.indexOf_mono hle hx) (by omega)
  · rw [h.indexOf_of_gt (by omega)] at hlt
    omega

/-- What is less by the factor `γ` is in a bucket that comes before. -/
theorem HasLayout.indexOf_lt_of_gamma_mul_le (h : s.HasLayout limit alpha) (hv : value ≤ limit)
    (hlt : x < value) (hfar : s.gamma * x ≤ value) : s.indexOf x < s.indexOf value := by
  refine lt_of_le_of_ne (h.indexOf_mono hlt.le hv) ?_
  intro heq
  rcases h.precise hlt.le hv heq with hsame | hnear
  · exact absurd hsame hlt.ne
  · exact absurd hfar (not_le.mpr hnear)

/-- **`rank` is between the ranks of the value and of the value divided by `γ`**, and grows with the
value: after any number of insertions and clearings it counts only samples since the last clearing
that are less than the value, and all of them that are less by the factor `γ`. -/
theorem rank_brackets {calls : List SampleCall} (hs : withLimit limit alpha = some s)
    (hlimit : limit ≤ u64Max) (hlayout : limit = 0 ∨ 2 ≤ limit ∧ alpha < 1 / 3)
    (hsamples : ∀ value, .insert value ∈ calls → value ≤ u64Max)
    (hcount : calls.length ≤ u64Max) :
    ∃ t, s.sampleAll calls = some t ∧ ∀ value ≤ limit, ∃ r, t.rank value = some r ∧
      (sinceClear [] calls).countP
        (fun x => x < value ∧ (1 + alpha) / (1 - alpha) * x ≤ value) ≤ r ∧
      r ≤ (sinceClear [] calls).countP (· < value) ∧
      ∀ value' ≤ value, ∃ r' ≤ r, t.rank value' = some r' := by
  have hl := withLimit_hasLayout hs
  have hlt : ∀ value ≤ u64Max, s.indexOf value < s.numBuckets := fun value hvalue =>
    ((hl.everyValueHasBucket hlayout).1 value hvalue).1
  obtain ⟨t, ht, hrec⟩ := (withLimit_records hs).sampleAll
    (fun value hvalue => hlt value (hsamples value hvalue)) (by rw [List.length_nil]; omega)
  refine ⟨t, ht, ?_⟩
  intro value hvalue
  have hbucket := hlt value (hvalue.trans hlimit)
  refine ⟨_, hrec.rank_eq hbucket.le, ?_, ?_, ?_⟩
  · refine List.countP_mono_left fun x _ hx => ?_
    obtain ⟨hx, hfar⟩ := of_decide_eq_true hx
    rw [← hl.gamma_eq] at hfar
    exact decide_eq_true (hl.indexOf_lt_of_gamma_mul_le hvalue hx hfar)
  · refine List.countP_mono_left fun x _ hx => ?_
    exact decide_eq_true (hl.lt_of_indexOf_lt hbucket (of_decide_eq_true hx))
  · intro value' hle
    have hmono := hl.indexOf_mono hle hvalue
    refine ⟨_, ?_, hrec.rank_eq (hmono.trans hbucket.le)⟩
    refine List.countP_mono_left fun x _ hx => ?_
    exact decide_eq_true ((of_decide_eq_true hx).trans_le hmono)

/-- Two samples after a clearing. -/
theorem rank_brackets_cleared : ∃ s t, withLimit 100 (1 / 4) = some s ∧
    s.sampleAll [.insert 90, .clear, .insert 10, .insert 20] = some t ∧ ∃ r,
      t.rank 15 = some r ∧ r ≤ [20, 10].countP (· < 15) := by
  obtain ⟨s, hs⟩ := exists_withLimit 100 (show (0 : ℝ) < 1 / 4 by norm_num) (by norm_num)
  have hsamples : ∀ value, .insert value ∈
      [SampleCall.insert 90, .clear, .insert 10, .insert 20] → value ≤ u64Max := by
    simp [u64Max]
  obtain ⟨t, ht, hrank⟩ := rank_brackets hs (by decide) (.inr ⟨by decide, by norm_num⟩) hsamples
    (by decide)
  obtain ⟨r, hr, -, hle, -⟩ := hrank 15 (by decide)
  exact ⟨s, t, hs, ht, r, hr, hle⟩

end DDSketch

end Hamerkop
