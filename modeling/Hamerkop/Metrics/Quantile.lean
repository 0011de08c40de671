import Hamerkop.Metrics.LinearPart

/-!
# The quantiles of a `DDSketch`

`quantile` finds the bucket of the sample of the right rank (`quantile_eq`).  For a bucket of
the logarithmic part its estimate is as close as the documentation says, but for the last one,
where it is the greatest sample.  A bucket in front of the cutoff stands for a single value, but
the estimate is computed with the formula for the logarithmic part all the same.  The result is
close then for zero to five, at some precisions (`FitsBelow`), and when the least or the greatest
sample, which the estimate is clamped to, is not too far away (`quantileIsNear_iff`).
-/

namespace Hamerkop

namespace DDSketch

variable {limit : ℕ} {alpha : ℝ} {s t : DDSketch} {samples : List ℕ} {x : ℕ}

/-! ## What has been inserted -/

/-- The counters of a sketch with the layout of `s` into which these samples went. -/
structure Records (s t : DDSketch) (samples : List ℕ) : Prop where
  gamma_eq : t.gamma = s.gamma
  cutoff_eq : t.cutoff = s.cutoff
  limit_eq : t.limit = s.limit
  buckets_eq : t.buckets =
    (List.range s.numBuckets).map fun i => samples.countP (s.indexOf · = i)
  count_eq : t.count = samples.length
  min_eq : t.min = samples.foldr Min.min u64Max
  max_eq : t.max = samples.foldr Max.max 0

theorem Records.numBuckets_eq (h : Records s t samples) : t.numBuckets = s.numBuckets := by
  rw [numBuckets, h.buckets_eq, List.length_map, List.length_range]

theorem Records.indexOf_eq (h : Records s t samples) : t.indexOf = s.indexOf := by
  funext value
  rw [indexOf, indexOf, h.limit_eq, h.cutoff_eq, h.gamma_eq, h.numBuckets_eq]

theorem withLimit_records (h : withLimit limit alpha = some s) : Records s s [] := by
  rw [withLimit] at h
  by_cases halpha : 0 < alpha ∧ alpha < 1
  · rw [if_pos halpha] at h
    obtain rfl := Option.some.inj h
    refine ⟨rfl, rfl, rfl, ?_, rfl, rfl, rfl⟩
    simp [numBuckets, List.map_const']
  · rw [if_neg halpha] at h
    cases h

theorem insert_cases {t' : DDSketch} {value : ℕ} (h : t.insert value = some t') :
    t.indexOf value < t.numBuckets ∧ t' =
      { t with
        max := Max.max t.max value
        min := Min.min t.min value
        count := saturatingAdd t.count 1
        buckets := t.buckets.modify (t.indexOf value) (saturatingAdd · 1) } := by
  rw [insert, insertN] at h
  by_cases hi : t.indexOf value < t.numBuckets
  · rw [if_pos hi] at h
    exact ⟨hi, (Option.some.inj h).symm⟩
  · rw [if_neg hi] at h
    cases h

theorem saturatingAdd_one {n : ℕ} (h : n < u64Max) : saturatingAdd n 1 = n + 1 :=
  min_eq_left h

/-- One sample. -/
theorem Records.insert {t' : DDSketch} {value : ℕ} (h : Records s t samples)
    (ht : t.insert value = some t') (hcount : samples.length < u64Max) :
    Records s t' (value :: samples) := by
  obtain ⟨hi, rfl⟩ := insert_cases ht
  refine ⟨h.gamma_eq, h.cutoff_eq, h.limit_eq, ?_, ?_, ?_, ?_⟩
  · rw [h.numBuckets_eq, h.indexOf_eq] at hi
    refine List.ext_getElem? fun i => ?_
    simp only [h.buckets_eq, h.indexOf_eq, List.getElem?_modify, List.getElem?_map]
    by_cases hin : i < s.numBuckets
    · rw [List.getElem?_range hin]
      by_cases heq : s.indexOf value = i
      · have hle := List.countP_le_length (p := (s.indexOf · = i)) (l := samples)
        simp [heq, saturatingAdd_one (hle.trans_lt hcount)]
      · simp [heq]
    · simp [not_lt.mp hin]
  · simp only [h.count_eq, List.length_cons]
    exact saturatingAdd_one hcount
  · simp only [h.min_eq, List.foldr_cons]
    exact min_comm _ _
  · simp only [h.max_eq, List.foldr_cons]
    exact max_comm _ _

/-- Any number of samples; each of them has a bucket. -/
theorem Records.insertAll {done : List ℕ} {t' : DDSketch} (h : Records s t done)
    (ht : t.insertAll samples = some t') (hcount : done.length + samples.length ≤ u64Max) :
    Records s t' (samples.reverse ++ done) ∧ ∀ v ∈ samples, s.indexOf v < s.numBuckets := by
  induction samples generalizing t done with
  | nil =>
    obtain rfl := Option.some.inj ht
    exact ⟨h, fun v hv => absurd hv List.not_mem_nil⟩
  | cons value samples ih =>
    rw [List.length_cons] at hcount
    rw [DDSketch.insertAll] at ht
    cases hins : t.insert value with
    | none => simp [hins] at ht
    | some t₁ =>
      simp only [hins] at ht
      obtain ⟨hrec, hlt⟩ := ih (h.insert hins (by omega)) ht (by rw [List.length_cons]; omega)
      refine ⟨by simpa using hrec, fun v hv => ?_⟩
      obtain rfl | hv := List.mem_cons.mp hv
      · have := (insert_cases hins).1
        rwa [h.indexOf_eq, h.numBuckets_eq] at this
      · exact hlt v hv

/-- The insertions succeed when every sample has a bucket. -/
theorem Records.exists_insertAll {done : List ℕ} (h : Records s t done)
    (hlt : ∀ v ∈ samples, s.indexOf v < s.numBuckets)
    (hcount : done.length + samples.length ≤ u64Max) : ∃ t', t.insertAll samples = some t' := by
  induction samples generalizing t done with
  | nil => exact ⟨t, rfl⟩
  | cons value samples ih =>
    rw [List.length_cons] at hcount
    have hi : t.indexOf value < t.numBuckets := by
      rw [h.indexOf_eq, h.numBuckets_eq]
      exact hlt value List.mem_cons_self
    obtain ⟨t₁, hins⟩ := Option.isSome_iff_exists.mp (insertN_isSome_iff (n := 1).mpr hi)
    obtain ⟨t', ht'⟩ := ih (h.insert hins (by omega))
      (fun v hv => hlt v (List.mem_cons_of_mem _ hv)) (by rw [List.length_cons]; omega)
    refine ⟨t', ?_⟩
    rw [DDSketch.insertAll, DDSketch.insert, hins]
    exact ht'

theorem foldr_min_le {l : List ℕ} {a v : ℕ} (hv : v ∈ l) : l.foldr Min.min a ≤ v := by
  induction l with
  | nil => exact absurd hv List.not_mem_nil
  | cons b l ih =>
    obtain rfl | hv := List.mem_cons.mp hv
    · exact min_le_left _ _
    · exact (min_le_right _ _).trans (ih hv)

theorem foldr_min_mem {l : List ℕ} {a : ℕ} (hne : l ≠ []) (hle : ∀ v ∈ l, v ≤ a) :
    l.foldr Min.min a ∈ l := by
  induction l with
  | nil => exact absurd rfl hne
  | cons b l ih =>
    rw [List.foldr_cons]
    obtain rfl | hl := eq_or_ne l []
    · simp [hle b List.mem_cons_self]
    · obtain h | h := min_choice b (l.foldr Min.min a)
      · rw [h]
        exact List.mem_cons_self
      · rw [h]
        exact List.mem_cons_of_mem _ (ih hl fun v hv => hle v (List.mem_cons_of_mem _ hv))

theorem le_foldr_max {l : List ℕ} {a v : ℕ} (hv : v ∈ l) : v ≤ l.foldr Max.max a := by
  induction l with
  | nil => exact absurd hv List.not_mem_nil
  | cons b l ih =>
    obtain rfl | hv := List.mem_cons.mp hv
    · exact le_max_left _ _
    · exact (ih hv).trans (le_max_right _ _)

theorem foldr_max_mem {l : List ℕ} (hne : l ≠ []) : l.foldr Max.max 0 ∈ l := by
  induction l with
  | nil => exact absurd rfl hne
  | cons b l ih =>
    rw [List.foldr_cons]
    obtain rfl | hl := eq_or_ne l []
    · simp
    · obtain h | h := max_choice b (l.foldr Max.max 0)
      · rw [h]
        exact List.mem_cons_self
      · rw [h]
        exact List.mem_cons_of_mem _ (ih hl)

/-! ## The bucket that is found -/

/-- The sample of rank `floor(q * count)` in sorted order. -/
noncomputable def exactQuantile (samples : List ℕ) (q : ℝ) : ℕ :=
  ((samples.insertionSort (· ≤ ·))[⌊q * samples.length⌋₊]?).getD 0

theorem exactQuantile_eq {q : ℝ} (hne : samples ≠ []) (h0 : 0 ≤ q) (h1 : q < 1) :
    (samples.insertionSort (· ≤ ·))[⌊q * samples.length⌋₊]? = some (exactQuantile samples q) := by
  have hpos : (0 : ℝ) < samples.length := by exact_mod_cast List.length_pos_iff.mpr hne
  have hrank : ⌊q * samples.length⌋₊ < (samples.insertionSort (· ≤ ·)).length := by
    rw [List.length_insertionSort, Nat.floor_lt (by positivity)]
    exact mul_lt_of_lt_one_left hpos h1
  rw [exactQuantile, List.getElem?_eq_getElem hrank]
  rfl

theorem exactQuantile_mem {q : ℝ} (hne : samples ≠ []) (h0 : 0 ≤ q) (h1 : q < 1) :
    exactQuantile samples q ∈ samples :=
  (List.mem_insertionSort _).mp (List.mem_of_getElem? (exactQuantile_eq hne h0 h1))

/-- **The bucket that `quantile` finds is that of the exact quantile.** -/
theorem quantile_eq {q : ℝ} (hl : s.HasLayout limit alpha) (hrec : Records s t samples.reverse)
    (hlt : ∀ v ∈ samples, s.indexOf v < s.numBuckets) (hle : ∀ v ∈ samples, v ≤ limit)
    (hne : samples ≠ []) (h0 : 0 ≤ q) (h1 : q < 1) :
    t.quantile q =
      if exactQuantile samples q < s.cutoff then t.estimate (exactQuantile samples q)
      else if s.indexOf (exactQuantile samples q) = s.numBuckets - 1 then t.max
      else t.estimate ⌈Real.logb s.gamma (exactQuantile samples q)⌉.toNat := by
  have hmem := exactQuantile_mem hne h0 h1
  have hfind := Sorted.findIdx?_totals (f := s.indexOf)
    (fun a _ b hb hab => hl.indexOf_mono hab (hle b hb)) (exactQuantile_eq hne h0 h1)
    (hlt _ hmem)
  have hcounts : t.buckets = (List.range s.numBuckets).map fun i =>
      samples.countP (s.indexOf · = i) := by
    rw [hrec.buckets_eq]
    simp only [List.countP_reverse]
  have hcount : t.count = samples.length := by rw [hrec.count_eq, List.length_reverse]
  rw [quantile, if_neg (not_lt.mpr h0), if_neg (not_le.mpr h1), scan, hcount, hcounts]
  simp only [hfind, hrec.cutoff_eq, hrec.numBuckets_eq, hl.indexOf_lt_cutoff_iff (hle _ hmem)]
  by_cases hc : exactQuantile samples q < s.cutoff
  · rw [if_pos hc, if_pos hc, hl.indexOf_of_lt (hle _ hmem) hc]
  · rw [if_neg hc, if_neg hc, hl.indexOf_of_ge (hle _ hmem) (by omega), Nat.add_sub_cancel]

/-! ## How close the estimate is -/

theorem IsNear.of_between {y z : ℕ} (h : IsNear alpha x y) (hz : y ≤ z ∧ z ≤ x ∨ x ≤ z ∧ z ≤ y) :
    IsNear alpha x z := by
  rw [IsNear, abs_le] at h ⊢
  obtain ⟨hyz, hzx⟩ | ⟨hxz, hzy⟩ := hz
  · have h1 : (y : ℝ) ≤ z := by exact_mod_cast hyz
    have h2 : (z : ℝ) ≤ x := by exact_mod_cast hzx
    exact ⟨by linarith, by linarith⟩
  · have h1 : (x : ℝ) ≤ z := by exact_mod_cast hxz
    have h2 : (z : ℝ) ≤ y := by exact_mod_cast hzy
    exact ⟨by linarith, by linarith⟩

/-- What is clamped is near if it was, or if the bound it is clamped to is. -/
theorem isNear_clamp_iff {r lo hi : ℕ} (hlo : lo ≤ x) (hhi : x ≤ hi) :
    IsNear alpha x (Max.max (Min.min r hi) lo) ↔
      IsNear alpha x r ∨ r ≤ x ∧ IsNear alpha x lo ∨ x ≤ r ∧ IsNear alpha x hi := by
  obtain hr | hr := Nat.le_total r x
  · rw [min_eq_left (hr.trans hhi)]
    constructor
    · intro h
      obtain hmax | hmax := max_choice r lo
      · exact Or.inl (hmax ▸ h)
      · exact Or.inr (Or.inl ⟨hr, hmax ▸ h⟩)
    · rintro (h | ⟨-, h⟩ | ⟨hxr, h⟩)
      · exact h.of_between (Or.inl ⟨le_max_left _ _, max_le hr hlo⟩)
      · exact h.of_between (Or.inl ⟨le_max_right _ _, max_le hr hlo⟩)
      · obtain rfl := le_antisymm hr hxr
        rw [max_eq_left hlo]
        exact h.of_between (Or.inr ⟨le_rfl, hhi⟩)
  · rw [max_eq_left (hlo.trans (le_min hr hhi))]
    constructor
    · intro h
      obtain hmin | hmin := min_choice r hi
      · exact Or.inl (hmin ▸ h)
      · exact Or.inr (Or.inr ⟨hr, hmin ▸ h⟩)
    · rintro (h | ⟨hrx, h⟩ | ⟨-, h⟩)
      · exact h.of_between (Or.inr ⟨le_min hr hhi, min_le_left _ _⟩)
      · obtain rfl := le_antisymm hrx hr
        rw [min_eq_left hhi]
        exact h.of_between (Or.inl ⟨hlo, le_rfl⟩)
      · exact h.of_between (Or.inr ⟨le_min hr hhi, min_le_right _ _⟩)

theorem HasLayout.estimate_eq (hl : s.HasLayout limit alpha) (hγ : t.gamma = s.gamma) (index : ℕ) :
    t.estimate index = Max.max (Min.min (logEstimate alpha index) t.max) t.min := by
  have h1 := hl.lt_one
  have hdiv : ∀ y : ℝ, y / (0.5 * ((1 + alpha) / (1 - alpha) + 1)) = (1 - alpha) * y := by
    intro y
    have hne : (1 - alpha) ≠ 0 := by linarith
    field_simp
    ring
  rw [estimate, logEstimate, ipow_eq, hγ, hl.gamma_eq, hdiv]

/-- In the logarithmic part the formula is as close as it is meant to be. -/
theorem HasLayout.isNear_logEstimate (hl : s.HasLayout limit alpha) (hx : 1 ≤ x) :
    IsNear alpha x (logEstimate alpha ⌈Real.logb s.gamma x⌉.toNat) := by
  have hγ := hl.one_lt_gamma
  have h1 := hl.lt_one
  have hx0 : (0 : ℝ) < x := by exact_mod_cast hx
  obtain ⟨k, hk⟩ := Int.eq_ofNat_of_zero_le (ceil_logb_nonneg hγ x)
  have hlower : (x : ℝ) ≤ s.gamma ^ k := by
    have hceil := Int.le_ceil (Real.logb s.gamma x)
    rw [hk, Real.logb_le_iff_le_rpow hγ hx0] at hceil
    simpa using hceil
  have hupper : s.gamma ^ k < x * s.gamma := by
    have hceil := Int.ceil_lt_add_one (Real.logb s.gamma x)
    rw [hk, ← Real.logb_self_eq_one hγ, ← Real.logb_mul (by linarith) (by linarith),
      Real.lt_logb_iff_rpow_lt hγ (by positivity)] at hceil
    simpa using hceil
  have hgamma : (1 - alpha) * s.gamma = 1 + alpha := by
    rw [hl.gamma_eq, mul_div_cancel₀ _ (by linarith)]
  obtain ⟨y, hy⟩ : ∃ y, y = (1 - alpha) * s.gamma ^ k := ⟨_, rfl⟩
  have hy1 : (1 - alpha) * x ≤ y := by
    rw [hy]
    exact mul_le_mul_of_nonneg_left hlower (by linarith)
  have hy2 : y ≤ (1 + alpha) * x := by
    rw [hy, ← hgamma, mul_assoc, mul_comm s.gamma]
    exact mul_le_mul_of_nonneg_left hupper.le (by linarith)
  have hy0 : 0 ≤ y := le_trans (by nlinarith) hy1
  rw [hk, Int.toNat_natCast, IsNear, logEstimate, ← hl.gamma_eq, ← hy, abs_le]
  have hfloor := Nat.floor_le (by linarith : 0 ≤ y + 1 / 2)
  have hlt := Nat.lt_floor_add_one (y + 1 / 2)
  exact ⟨by linarith, by linarith⟩

/-! ## When the quantile is close -/

theorem Records.min_le (hrec : Records s t samples.reverse) {v : ℕ} (hv : v ∈ samples) :
    t.min ≤ v := by
  rw [hrec.min_eq]
  exact foldr_min_le (List.mem_reverse.mpr hv)

theorem Records.min_mem (hrec : Records s t samples.reverse) (hne : samples ≠ [])
    (hle : ∀ v ∈ samples, v ≤ u64Max) : t.min ∈ samples := by
  rw [hrec.min_eq, ← List.mem_reverse]
  refine foldr_min_mem (fun h => hne (List.reverse_eq_nil_iff.mp h)) fun v hv => ?_
  exact hle v (List.mem_reverse.mp hv)

theorem Records.le_max (hrec : Records s t samples.reverse) {v : ℕ} (hv : v ∈ samples) :
    v ≤ t.max := by
  rw [hrec.max_eq]
  exact le_foldr_max (List.mem_reverse.mpr hv)

theorem Records.max_mem (hrec : Records s t samples.reverse) (hne : samples ≠ []) :
    t.max ∈ samples := by
  rw [hrec.max_eq, ← List.mem_reverse]
  exact foldr_max_mem fun h => hne (List.reverse_eq_nil_iff.mp h)

/-- The least sample is near if and only if none is too low. -/
theorem Records.isNear_min_iff (hrec : Records s t samples.reverse) (hx : x ∈ samples)
    (hle : ∀ v ∈ samples, v ≤ u64Max) :
    IsNear alpha x t.min ↔ ∀ v ∈ samples, (1 - alpha) * x ≤ v + 1 / 2 := by
  rw [isNear_iff_of_le (hrec.min_le hx)]
  refine ⟨fun h v hv => ?_, fun h => h _ (hrec.min_mem (List.ne_nil_of_mem hx) hle)⟩
  have : (t.min : ℝ) ≤ v := by exact_mod_cast hrec.min_le hv
  linarith

/-- The greatest sample is near if and only if none is too high. -/
theorem Records.isNear_max_iff (hrec : Records s t samples.reverse) (hx : x ∈ samples) :
    IsNear alpha x t.max ↔ ∀ v ∈ samples, (v : ℝ) ≤ (1 + alpha) * x + 1 / 2 := by
  rw [isNear_iff_of_ge (hrec.le_max hx)]
  refine ⟨fun h v hv => ?_, fun h => h _ (hrec.max_mem (List.ne_nil_of_mem hx))⟩
  have : (v : ℝ) ≤ t.max := by exact_mod_cast hrec.le_max hv
  linarith

/-- Zero is estimated as zero or one. -/
theorem isNear_clamp_zero_iff {lo hi : ℕ} (hlo : lo ≤ 0) :
    IsNear alpha 0 (Max.max (Min.min (logEstimate alpha 0) hi) lo) ↔
      1 / 2 < alpha ∨ hi = 0 := by
  obtain rfl := Nat.le_zero.mp hlo
  have hzero : ∀ r : ℕ, IsNear alpha 0 r ↔ r = 0 := by
    intro r
    rw [isNear_iff_of_ge (Nat.zero_le r)]
    constructor
    · intro h
      have hlt : (r : ℝ) < 1 := by
        push_cast at h
        linarith
      exact Nat.lt_one_iff.mp (by exact_mod_cast hlt)
    · rintro rfl
      norm_num
  rw [hzero, ← logEstimate_zero_eq_zero]
  omega

/-- The value is in front of the cutoff. -/
theorem HasLayout.isNear_estimate_iff (hl : s.HasLayout limit alpha)
    (hrec : Records s t samples.reverse) (hx : x ∈ samples) (hle : ∀ v ∈ samples, v ≤ u64Max)
    (hc : x < s.cutoff) : IsNear alpha x (t.estimate x) ↔ LogFormulaFits s alpha samples x := by
  have hmin := hrec.min_le hx
  have hmax := hrec.le_max hx
  rw [hl.estimate_eq hrec.gamma_eq, LogFormulaFits, if_pos hc]
  obtain rfl | hpos := Nat.eq_zero_or_pos x
  · have hall : t.max = 0 ↔ ∀ v ∈ samples, v = 0 := by
      refine ⟨fun h v hv => ?_, fun h => h _ (hrec.max_mem (List.ne_nil_of_mem hx))⟩
      exact Nat.le_zero.mp (h ▸ hrec.le_max hv)
    rw [isNear_clamp_zero_iff hmin, if_pos rfl, hall, FitsBelow]
  · obtain ⟨hfits, hlow⟩ := hl.logEstimate_fits_iff hc hpos
    rw [isNear_clamp_iff hmin hmax, if_neg (by omega), hrec.isNear_min_iff hx hle, ← hfits]
    constructor
    · rintro (h | ⟨-, h⟩ | ⟨hge, -⟩)
      · exact Or.inl h
      · exact Or.inr h
      · obtain rfl | htwo := Nat.eq_or_lt_of_le hpos
        · exact Or.inl (hfits.mpr trivial)
        · -- an estimate that is not too low is the value itself
          left
          rw [le_antisymm (hlow htwo) hge, isNear_iff_of_le le_rfl]
          have hx0 : (0 : ℝ) ≤ x := Nat.cast_nonneg x
          nlinarith [hl.pos]
    · rintro (h | h)
      · exact Or.inl h
      · obtain rfl | htwo := Nat.eq_or_lt_of_le hpos
        · exact Or.inl (hfits.mpr trivial)
        · exact Or.inr (Or.inl ⟨hlow htwo, h⟩)

/-- **The quantile is within the documented error of the exact one if and only if the formula for
the logarithmic part fits.** -/
theorem quantileIsNear_iff {q : ℝ} (hs : withLimit limit alpha = some s) (hlimit : limit ≤ u64Max)
    (ht : s.insertAll samples = some t) (hle : ∀ v ∈ samples, v ≤ limit)
    (hcount : samples.length ≤ u64Max) (hne : samples ≠ []) (h0 : 0 ≤ q) (h1 : q < 1) :
    IsNear alpha (exactQuantile samples q) (t.quantile q) ↔
      LogFormulaFits s alpha samples (exactQuantile samples q) := by
  have hl := withLimit_hasLayout hs
  obtain ⟨hrec, hlt⟩ := (withLimit_records hs).insertAll ht (by simpa using hcount)
  rw [List.append_nil] at hrec
  have hmem := exactQuantile_mem hne h0 h1
  have hsmall : ∀ v ∈ samples, v ≤ u64Max := fun v hv => (hle v hv).trans hlimit
  rw [quantile_eq hl hrec hlt hle hne h0 h1]
  by_cases hc : exactQuantile samples q < s.cutoff
  · rw [if_pos hc, hl.isNear_estimate_iff hrec hmem hsmall hc]
  · rw [if_neg hc, LogFormulaFits, if_neg hc]
    by_cases hlast : s.indexOf (exactQuantile samples q) = s.numBuckets - 1
    · rw [if_pos hlast, hrec.isNear_max_iff hmem]
      exact ⟨fun h _ => h, fun h => h hlast⟩
    · rw [if_neg hlast, hl.estimate_eq hrec.gamma_eq]
      refine iff_of_true ?_ fun h => absurd h hlast
      refine (isNear_clamp_iff (hrec.min_le hmem) (hrec.le_max hmem)).mpr (Or.inl ?_)
      have hcutoff := hl.cutoff_eq
      exact hl.isNear_logEstimate (by omega)

/-- A sketch with a precision of a tenth counts five exactly. -/
theorem HasLayout.five_lt_cutoff (hl : s.HasLayout limit (1 / 10)) : 5 < s.cutoff := by
  rw [hl.lt_cutoff_iff]
  have hγ : s.gamma = 11 / 9 := by
    rw [hl.gamma_eq]
    norm_num
  have hwide : ((4 : ℤ) : ℝ) < wideFrom s.gamma := by
    have hlog : Real.logb (11 / 9) (11 / 9 - 1) < -4 := by
      rw [Real.logb_lt_iff_lt_rpow (by norm_num) (by norm_num)]
      norm_num
    rw [hγ, wideFrom]
    push_cast
    linarith
  have := Int.lt_ceil.mpr hwide
  omega

/-- A sketch with a precision of a tenth takes these samples. -/
theorem exists_insertAll_tenth (samples : List ℕ) (hsmall : ∀ v ∈ samples, v ≤ 100)
    (hcount : samples.length ≤ u64Max) :
    ∃ s t, withLimit 100 (1 / 10) = some s ∧ s.insertAll samples = some t := by
  obtain ⟨s, hs⟩ := exists_withLimit 100 (by norm_num : (0 : ℝ) < 1 / 10) (by norm_num)
  have hevery := (withLimit_hasLayout hs).everyValueHasBucket (Or.inr ⟨by decide, by norm_num⟩)
  obtain ⟨t, ht⟩ := @Records.exists_insertAll s s samples [] (withLimit_records hs)
    (fun v hv => (hevery.1 v ((hsmall v hv).trans (by decide))).1)
    (by rw [List.length_nil, Nat.zero_add]; exact hcount)
  exact ⟨s, t, hs, ht⟩

/-- A value that has a bucket of its own, and one of the logarithmic part. -/
theorem quantileIsNear_five_thirty :
    ∃ s t, withLimit 100 (1 / 10) = some s ∧ s.insertAll [5, 30] = some t ∧ 5 < s.cutoff ∧
      exactQuantile [5, 30] 0 = 5 ∧ exactQuantile [5, 30] (1 / 2) = 30 ∧
      (IsNear (1 / 10) (exactQuantile [5, 30] 0) (t.quantile 0) ↔
        LogFormulaFits s (1 / 10) [5, 30] (exactQuantile [5, 30] 0)) ∧
      (IsNear (1 / 10) (exactQuantile [5, 30] (1 / 2)) (t.quantile (1 / 2)) ↔
        LogFormulaFits s (1 / 10) [5, 30] (exactQuantile [5, 30] (1 / 2))) := by
  have hsmall : ∀ v ∈ [5, 30], v ≤ 100 := by decide
  obtain ⟨s, t, hs, ht⟩ := exists_insertAll_tenth [5, 30] hsmall (by decide)
  have hfive : exactQuantile [5, 30] 0 = 5 := by
    have hrank : ⌊(0 : ℝ) * ([5, 30] : List ℕ).length⌋₊ = 0 := by norm_num
    rw [exactQuantile, hrank]
    rfl
  have hthirty : exactQuantile [5, 30] (1 / 2) = 30 := by
    have hrank : ⌊(1 / 2 : ℝ) * ([5, 30] : List ℕ).length⌋₊ = 1 := by norm_num
    rw [exactQuantile, hrank]
    rfl
  exact ⟨s, t, hs, ht, (withLimit_hasLayout hs).five_lt_cutoff, hfive, hthirty,
    quantileIsNear_iff hs (by decide) ht hsmall (by decide) (by decide) (by norm_num)
      (by norm_num),
    quantileIsNear_iff hs (by decide) ht hsmall (by decide) (by decide) (by norm_num)
      (by norm_num)⟩

/-- With a precision of a tenth, the greater of the samples one and five is estimated as two. -/
theorem quantile_one_five :
    ∃ s t, withLimit 100 (1 / 10) = some s ∧ s.insertAll [1, 5] = some t ∧
      exactQuantile [1, 5] (1 / 2) = 5 ∧ t.quantile (1 / 2) = 2 ∧
      ¬ IsNear (1 / 10) (exactQuantile [1, 5] (1 / 2)) (t.quantile (1 / 2)) := by
  have hsmall : ∀ v ∈ [1, 5], v ≤ 100 := by decide
  obtain ⟨s, t, hs, ht⟩ := exists_insertAll_tenth [1, 5] hsmall (by decide)
  have hl := withLimit_hasLayout hs
  obtain ⟨hrec, hlt⟩ := (withLimit_records hs).insertAll ht (by decide)
  have hexact : exactQuantile [1, 5] (1 / 2) = 5 := by
    have hrank : ⌊(1 / 2 : ℝ) * ([1, 5] : List ℕ).length⌋₊ = 1 := by norm_num
    rw [exactQuantile, hrank]
    rfl
  have hestimate : logEstimate (1 / 10) 5 = 2 := by
    rw [logEstimate, Nat.floor_eq_iff (by positivity)]
    norm_num
  have hquantile : t.quantile (1 / 2) = 2 := by
    rw [quantile_eq hl hrec hlt hsmall (by decide) (by norm_num) (by norm_num), hexact,
      if_pos hl.five_lt_cutoff, hl.estimate_eq hrec.gamma_eq, hestimate, hrec.min_eq, hrec.max_eq]
    decide
  refine ⟨s, t, hs, ht, hexact, hquantile, ?_⟩
  rw [hexact, hquantile, IsNear]
  norm_num [abs_le]

end DDSketch

end Hamerkop
