import Hamerkop.Metrics.DDSketch

/-!
# The buckets of a `DDSketch`

`with_limit` computes the number of buckets with one formula and `index_of` the bucket of a
value with another.  They agree when the buckets of the logarithmic part start narrower than
two, `α < 1/3`.  Otherwise the cutoff is zero and the greatest value gets an index that is
one too high: it counts as too high, or is out of bounds.  A limit of one always makes the
value one count as too high (`everyValueHasBucket_iff`).

Up to the limit the index grows with the value, over the cutoff as well, and two values of one
bucket are less than the factor `γ` apart (`indexOf_monotone_precise`).
-/

namespace Hamerkop

namespace DDSketch

variable {limit : ℕ} {alpha : ℝ} {s t : DDSketch} {value : ℕ}

/-- The greatest index that is meant for values up to the limit. -/
noncomputable def lastIndex (gamma : ℝ) (limit : ℕ) : ℕ :=
  if ⌈Real.logb gamma limit⌉ ≤ ⌈wideFrom gamma⌉ then ⌈Real.logb gamma limit⌉.toNat
  else ⌈wideFrom gamma⌉.toNat + ⌈Real.logb gamma limit + wideFrom gamma⌉.toNat

/-- What `with_limit` lays out and no insertion changes. -/
structure HasLayout (s : DDSketch) (limit : ℕ) (alpha : ℝ) : Prop where
  pos : 0 < alpha
  lt_one : alpha < 1
  gamma_eq : s.gamma = (1 + alpha) / (1 - alpha)
  limit_eq : s.limit = limit
  cutoff_eq : s.cutoff = ⌈wideFrom s.gamma⌉.toNat + 1
  numBuckets_eq : s.numBuckets = lastIndex s.gamma limit + if limit = u64Max then 1 else 2

theorem withLimit_hasLayout (h : withLimit limit alpha = some s) : s.HasLayout limit alpha := by
  rw [withLimit] at h
  by_cases halpha : 0 < alpha ∧ alpha < 1
  · rw [if_pos halpha] at h
    obtain rfl := Option.some.inj h
    refine ⟨halpha.1, halpha.2, rfl, rfl, rfl, ?_⟩
    simp only [numBuckets, List.length_replicate, lastIndex, wideFrom, sub_eq_add_neg]
    split_ifs <;> omega
  · rw [if_neg halpha] at h
    cases h

theorem exists_withLimit (limit : ℕ) (h0 : 0 < alpha) (h1 : alpha < 1) :
    ∃ s, withLimit limit alpha = some s :=
  ⟨_, if_pos ⟨h0, h1⟩⟩

namespace HasLayout

variable (h : s.HasLayout limit alpha)
include h

theorem one_lt_gamma : 1 < s.gamma := by
  have h0 := h.pos
  have h1 := h.lt_one
  rw [h.gamma_eq, one_lt_div (by linarith)]
  linarith

theorem gamma_lt_two_iff : s.gamma < 2 ↔ alpha < 1 / 3 := by
  have h1 := h.lt_one
  rw [h.gamma_eq, div_lt_iff₀ (by linarith)]
  constructor <;> intro hlt <;> linarith

theorem lt_cutoff_iff : value < s.cutoff ↔ (value : ℤ) ≤ ⌈wideFrom s.gamma⌉ := by
  have hnonneg := ceil_wideFrom_nonneg h.one_lt_gamma
  rw [h.cutoff_eq]
  omega

theorem indexOf_of_gt (hv : limit < value) : s.indexOf value = s.numBuckets - 1 := by
  rw [indexOf, if_pos (by rw [h.limit_eq]; exact hv)]

theorem indexOf_of_lt (hv : value ≤ limit) (hc : value < s.cutoff) : s.indexOf value = value := by
  rw [indexOf, if_neg (by rw [h.limit_eq]; omega), if_pos hc]

theorem indexOf_of_ge (hv : value ≤ limit) (hc : s.cutoff ≤ value) :
    s.indexOf value = ⌈Real.logb s.gamma value⌉.toNat + 1 := by
  rw [indexOf, if_neg (by rw [h.limit_eq]; omega), if_neg (by omega)]

end HasLayout

/-! ## When the two formulas agree -/

theorem ceil_logb_nonneg {γ : ℝ} (hγ : 1 < γ) (n : ℕ) : 0 ≤ ⌈Real.logb γ n⌉ := by
  refine Int.ceil_nonneg ?_
  obtain rfl | hpos := Nat.eq_zero_or_pos n
  · simp
  · exact Real.logb_nonneg hγ (by exact_mod_cast hpos)

theorem ceil_logb_mono {γ : ℝ} (hγ : 1 < γ) {m n : ℕ} (h : m ≤ n) :
    ⌈Real.logb γ m⌉ ≤ ⌈Real.logb γ n⌉ := by
  obtain rfl | hpos := Nat.eq_zero_or_pos m
  · simpa using ceil_logb_nonneg hγ n
  · exact Int.ceil_mono (Real.logb_le_logb_of_le hγ (by exact_mod_cast hpos) (by exact_mod_cast h))

/-- The bucket of every value up to the limit is one of those meant for them. -/
theorem HasLayout.indexOf_le (h : s.HasLayout limit alpha) (hgood : limit = 0 ∨ 2 ≤ limit ∧
    alpha < 1 / 3) (hv : value ≤ limit) : s.indexOf value ≤ lastIndex s.gamma limit := by
  have hγ := h.one_lt_gamma
  obtain rfl | ⟨hlimit, halpha⟩ := hgood
  · obtain rfl := Nat.le_zero.mp hv
    rw [h.indexOf_of_lt hv (by rw [h.cutoff_eq]; omega)]
    exact Nat.zero_le _
  · have hwide := Int.ceil_pos.mpr (wideFrom_pos hγ (h.gamma_lt_two_iff.mpr halpha))
    have hmono := ceil_logb_mono hγ hv
    rw [lastIndex]
    split_ifs with hsmall
    · have hle := le_ceil_logb hγ hlimit hsmall
      rw [h.indexOf_of_lt hv (h.lt_cutoff_iff.mpr (by omega))]
      omega
    · by_cases hc : value < s.cutoff
      · rw [h.indexOf_of_lt hv hc]
        have := h.lt_cutoff_iff.mp hc
        omega
      · rw [h.indexOf_of_ge hv (by omega)]
        have hadd : ⌈Real.logb s.gamma limit⌉ ≤ ⌈Real.logb s.gamma limit + wideFrom s.gamma⌉ :=
          Int.ceil_mono (by linarith [wideFrom_pos hγ (h.gamma_lt_two_iff.mpr halpha)])
        have := ceil_logb_nonneg hγ value
        omega

/-- The bucket of the limit is past all those meant for values up to it. -/
theorem HasLayout.lt_indexOf (h : s.HasLayout limit alpha)
    (hbad : limit = 1 ∨ 2 ≤ limit ∧ 1 / 3 ≤ alpha) : lastIndex s.gamma limit < s.indexOf limit := by
  have hγ := h.one_lt_gamma
  obtain rfl | ⟨hlimit, halpha⟩ := hbad
  · have hlast : lastIndex s.gamma 1 = 0 := by
      have := ceil_wideFrom_nonneg hγ
      rw [lastIndex, if_pos (by simpa using this)]
      simp
    rw [hlast]
    by_cases hc : 1 < s.cutoff
    · rw [h.indexOf_of_lt le_rfl hc]
      exact Nat.one_pos
    · rw [h.indexOf_of_ge le_rfl (by omega)]
      exact Nat.succ_pos _
  · have hwide : s.gamma ≥ 2 := by
      by_contra hlt
      exact absurd (h.gamma_lt_two_iff.mp (not_le.mp hlt)) (by linarith)
    have hzero : ⌈wideFrom s.gamma⌉ = 0 :=
      le_antisymm (Int.ceil_le.mpr (by simpa using wideFrom_nonpos hwide))
        (ceil_wideFrom_nonneg hγ)
    have hpos : 0 < ⌈Real.logb s.gamma limit⌉ :=
      Int.ceil_pos.mpr (Real.logb_pos hγ (by exact_mod_cast (by omega : 1 < limit)))
    have hadd : ⌈Real.logb s.gamma limit + wideFrom s.gamma⌉ ≤ ⌈Real.logb s.gamma limit⌉ :=
      Int.ceil_mono (by linarith [wideFrom_nonpos hwide])
    have hc : s.cutoff ≤ limit := by
      rw [h.cutoff_eq]
      omega
    rw [lastIndex, if_neg (by omega), h.indexOf_of_ge le_rfl hc]
    omega

/-! ## Every value has a bucket -/

/-- No index is out of bounds, and the overflow bucket, if there is one, is for the values above the
limit only. -/
def EveryValueHasBucket (s : DDSketch) : Prop :=
  (∀ value ≤ u64Max, s.indexOf value < s.numBuckets ∧
    (s.insert value).isSome ∧ (∀ n, (s.insertN value n).isSome) ∧ (s.rank value).isSome) ∧
  (s.limit < u64Max → ∀ value ≤ s.limit, s.indexOf value ≠ s.numBuckets - 1)

theorem insertN_isSome_iff {n : ℕ} :
    (s.insertN value n).isSome ↔ s.indexOf value < s.numBuckets := by
  rw [insertN]
  split_ifs with hi <;> simp [hi]

theorem rank_isSome_iff : (s.rank value).isSome ↔ s.indexOf value ≤ s.numBuckets := by
  rw [rank]
  split_ifs with hi <;> simp [hi]

theorem HasLayout.everyValueHasBucket (h : s.HasLayout limit alpha)
    (hgood : limit = 0 ∨ 2 ≤ limit ∧ alpha < 1 / 3) : s.EveryValueHasBucket := by
  have hnum := h.numBuckets_eq
  have hlt : ∀ value ≤ u64Max, s.indexOf value < s.numBuckets := by
    intro value hvalue
    by_cases hv : value ≤ limit
    · have := h.indexOf_le hgood hv
      split_ifs at hnum <;> omega
    · rw [h.indexOf_of_gt (by omega)]
      rw [if_neg (by omega)] at hnum
      omega
  refine ⟨fun value hvalue => ⟨hlt value hvalue, insertN_isSome_iff.mpr (hlt value hvalue),
    fun n => insertN_isSome_iff.mpr (hlt value hvalue),
    rank_isSome_iff.mpr (hlt value hvalue).le⟩, ?_⟩
  intro hmax value hv
  rw [h.limit_eq] at hmax hv
  have := h.indexOf_le hgood hv
  rw [if_neg (by omega)] at hnum
  omega

theorem HasLayout.not_everyValueHasBucket (h : s.HasLayout limit alpha)
    (hbad : limit = 1 ∨ 2 ≤ limit ∧ 1 / 3 ≤ alpha) (hlimit : limit ≤ u64Max) :
    ¬ s.EveryValueHasBucket := by
  rintro ⟨hlt, hlast⟩
  have hnum := h.numBuckets_eq
  have hindex := h.lt_indexOf hbad
  have hbound := (hlt limit hlimit).1
  by_cases hmax : limit = u64Max
  · rw [if_pos hmax] at hnum
    omega
  · rw [if_neg hmax] at hnum
    have hne := hlast (by rw [h.limit_eq]; omega) limit h.limit_eq.ge
    omega

/-- **Every value has a bucket if and only if the limit is zero, or it is greater than one and the
precision less than a third.** -/
theorem everyValueHasBucket_iff (h : withLimit limit alpha = some s) (hlimit : limit ≤ u64Max) :
    s.EveryValueHasBucket ↔ limit = 0 ∨ 2 ≤ limit ∧ alpha < 1 / 3 := by
  have hl := withLimit_hasLayout h
  constructor
  · intro hevery
    by_contra hbad
    rw [not_or, not_and, not_lt] at hbad
    refine hl.not_everyValueHasBucket ?_ hlimit hevery
    obtain h1 | h2 := Nat.lt_or_ge limit 2
    · exact Or.inl (by omega)
    · exact Or.inr ⟨h2, hbad.2 h2⟩
  · exact fun hgood => hl.everyValueHasBucket hgood

theorem everyValueHasBucket_quarter :
    ∃ s, withLimit 100 (1 / 4) = some s ∧
      (s.EveryValueHasBucket ↔ (100 = 0 ∨ 2 ≤ 100 ∧ (1 / 4 : ℝ) < 1 / 3)) := by
  obtain ⟨s, hs⟩ := exists_withLimit 100 (by norm_num : (0 : ℝ) < 1 / 4) (by norm_num)
  exact ⟨s, hs, everyValueHasBucket_iff hs (by decide)⟩

/-- With a precision of one half, a sketch up to ten has four buckets, and the bucket of ten would
be the fifth. -/
theorem indexOf_ten_outOfBounds :
    ∃ s, withLimit 10 (1 / 2) = some s ∧ s.numBuckets = 4 ∧ s.indexOf 10 = 4 ∧
      s.insert 10 = none ∧ ¬ s.EveryValueHasBucket := by
  obtain ⟨s, hs⟩ := exists_withLimit 10 (by norm_num : (0 : ℝ) < 1 / 2) (by norm_num)
  have h := withLimit_hasLayout hs
  have hγ : s.gamma = 3 := by
    rw [h.gamma_eq]
    norm_num
  have hlog : ⌈Real.logb 3 (10 : ℕ)⌉ = 3 := by
    rw [Int.ceil_eq_iff]
    constructor
    · rw [Real.lt_logb_iff_rpow_lt (by norm_num) (by norm_num)]
      norm_num
    · rw [Real.logb_le_iff_le_rpow (by norm_num) (by norm_num)]
      norm_num
  have hwide : ⌈wideFrom 3⌉ = 0 :=
    le_antisymm (Int.ceil_le.mpr (by simpa using wideFrom_nonpos (by norm_num : (2 : ℝ) ≤ 3)))
      (ceil_wideFrom_nonneg (by norm_num))
  have hrest : ⌈Real.logb 3 (10 : ℕ) + wideFrom 3⌉ = 2 := by
    have hfive : Real.logb 3 (10 : ℕ) + wideFrom 3 = Real.logb 3 5 := by
      rw [wideFrom, ← sub_eq_add_neg, ← Real.logb_div (by norm_num) (by norm_num)]
      norm_num
    rw [hfive, Int.ceil_eq_iff]
    constructor
    · rw [Real.lt_logb_iff_rpow_lt (by norm_num) (by norm_num)]
      norm_num
    · rw [Real.logb_le_iff_le_rpow (by norm_num) (by norm_num)]
      norm_num
  have hnum : s.numBuckets = 4 := by
    rw [h.numBuckets_eq, hγ, lastIndex, if_neg (by rw [hlog, hwide]; decide), hwide, hrest,
      if_neg (by decide)]
    rfl
  have hindex : s.indexOf 10 = 4 := by
    rw [h.indexOf_of_ge le_rfl (by rw [h.cutoff_eq, hγ, hwide]; decide), hγ, hlog]
    rfl
  refine ⟨s, hs, hnum, hindex, ?_, h.not_everyValueHasBucket (Or.inr ⟨by decide, by norm_num⟩)
    (by decide)⟩
  rw [insert, insertN, if_neg (by omega)]

/-! ## The order of the buckets -/

/-- Behind the cutoff the indices go on. -/
theorem HasLayout.indexOf_lt_cutoff_iff (h : s.HasLayout limit alpha) {x : ℕ} (hx : x ≤ limit) :
    s.indexOf x < s.cutoff ↔ x < s.cutoff := by
  by_cases hc : x < s.cutoff
  · rw [h.indexOf_of_lt hx hc]
  · have hlt : ⌈wideFrom s.gamma⌉ < x := by
      rw [h.lt_cutoff_iff] at hc
      omega
    have hle := ceil_wideFrom_le h.one_lt_gamma hlt
    rw [h.indexOf_of_ge hx (by omega), h.cutoff_eq] at *
    omega

theorem HasLayout.indexOf_mono (h : s.HasLayout limit alpha) {x y : ℕ} (hxy : x ≤ y)
    (hy : y ≤ limit) : s.indexOf x ≤ s.indexOf y := by
  by_cases hcy : y < s.cutoff
  · rw [h.indexOf_of_lt hy hcy, h.indexOf_of_lt (hxy.trans hy) (hxy.trans_lt hcy)]
    exact hxy
  · by_cases hcx : x < s.cutoff
    · have hlty := (h.indexOf_lt_cutoff_iff hy).not.mpr hcy
      have hltx := (h.indexOf_lt_cutoff_iff (hxy.trans hy)).mpr hcx
      omega
    · rw [h.indexOf_of_ge hy (by omega), h.indexOf_of_ge (hxy.trans hy) (by omega)]
      have := ceil_logb_mono h.one_lt_gamma hxy
      omega

/-- The values of a bucket of the logarithmic part are less than the factor `γ` apart. -/
theorem lt_gamma_mul_of_ceil_logb_eq {γ : ℝ} (hγ : 1 < γ) {x y : ℕ} (hx : 1 ≤ x) (hxy : x ≤ y)
    (heq : ⌈Real.logb γ x⌉ = ⌈Real.logb γ y⌉) : (y : ℝ) < γ * x := by
  have hx0 : (0 : ℝ) < x := by exact_mod_cast hx
  have hy0 : (0 : ℝ) < y := by exact_mod_cast hx.trans hxy
  have hlt : Real.logb γ y < Real.logb γ (γ * x) :=
    calc Real.logb γ y ≤ ⌈Real.logb γ y⌉ := Int.le_ceil _
      _ = ⌈Real.logb γ x⌉ := by rw [heq]
      _ < Real.logb γ x + 1 := Int.ceil_lt_add_one _
      _ = Real.logb γ (γ * x) := by
        rw [Real.logb_mul (by linarith) hx0.ne', Real.logb_self_eq_one hγ, add_comm]
  exact (Real.logb_lt_logb_iff hγ hy0 (by positivity)).mp hlt

theorem HasLayout.precise (h : s.HasLayout limit alpha) {x y : ℕ} (hxy : x ≤ y) (hy : y ≤ limit)
    (heq : s.indexOf x = s.indexOf y) : x = y ∨ (y : ℝ) < s.gamma * x := by
  have hx := hxy.trans hy
  by_cases hcy : y < s.cutoff
  · left
    rwa [h.indexOf_of_lt hx (by omega), h.indexOf_of_lt hy hcy] at heq
  · right
    -- equal indices are on the same side of the cutoff
    have hcx : ¬ x < s.cutoff := by
      intro hcx
      have hlt := (h.indexOf_lt_cutoff_iff hx).mpr hcx
      rw [heq, h.indexOf_lt_cutoff_iff hy] at hlt
      exact hcy hlt
    rw [h.indexOf_of_ge hx (by omega), h.indexOf_of_ge hy (by omega)] at heq
    have hcutoff := h.cutoff_eq
    have hγ := h.one_lt_gamma
    have := ceil_logb_nonneg hγ x
    have := ceil_logb_nonneg hγ y
    exact lt_gamma_mul_of_ceil_logb_eq hγ (by omega) hxy (by omega)

/-- **The index grows with the value, and values of one bucket are within the precision.** -/
theorem indexOf_monotone_precise (limit : ℕ) (h0 : 0 < alpha) (h1 : alpha < 1) :
    ∃ s, withLimit limit alpha = some s ∧ ∀ x y, x ≤ y → y ≤ limit →
      s.indexOf x ≤ s.indexOf y ∧
        (s.indexOf x = s.indexOf y → x = y ∨ (y : ℝ) < (1 + alpha) / (1 - alpha) * x) := by
  obtain ⟨s, hs⟩ := exists_withLimit limit h0 h1
  have hl := withLimit_hasLayout hs
  refine ⟨s, hs, ?_⟩
  intro x y hxy hy
  refine ⟨hl.indexOf_mono hxy hy, ?_⟩
  intro heq
  rw [← hl.gamma_eq]
  exact hl.precise hxy hy heq

/-- A precision of one half has the switch to the logarithmic buckets between zero and one. -/
theorem indexOf_monotone_precise_half :
    ∃ s, withLimit 1000 (1 / 2) = some s ∧ ∀ x y, x ≤ y → y ≤ 1000 →
      s.indexOf x ≤ s.indexOf y ∧
        (s.indexOf x = s.indexOf y → x = y ∨ (y : ℝ) < (1 + 1 / 2) / (1 - 1 / 2) * x) :=
  indexOf_monotone_precise 1000 (by norm_num) (by norm_num)

end DDSketch

end Hamerkop
