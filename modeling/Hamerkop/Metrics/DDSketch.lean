import Hamerkop.Lib.Sorted

/-!
# `DDSketch`

The quantile sketch of `metrics/src/ddsketch.rs`: counters for buckets that are one value
wide up to a cutoff and grow by the factor `γ` behind it.  Its `f64` arithmetic is read as
arithmetic of real numbers; a cast to an unsigned integer rounds down and takes negative
numbers to zero.  No sketch has so many buckets that a cast saturates.

* `wideFrom` — the exponent at which the buckets of the logarithmic part get wider than one;
* `pow_lt_succ` — below it a power of `γ` is less than the next integer;
* `le_ceil_logb`, `ceil_wideFrom_le` — how the two parts lie with respect to the cutoff.
-/

namespace Hamerkop

/-- `std::u64::MAX` -/
def u64Max : ℕ := 2 ^ 64 - 1

/-- Powers by squaring. -/
noncomputable def ipow (x : ℝ) (e : ℕ) : ℝ :=
  match e with
  | 0 => 1
  | 1 => x
  | e + 2 => if (e + 2) % 2 = 0 then ipow (x * x) ((e + 2) / 2) else x * ipow (x * x) ((e + 2) / 2)
termination_by e

theorem ipow_eq (x : ℝ) (e : ℕ) : ipow x e = x ^ e := by
  induction x, e using ipow.induct with
  | case1 x => rw [ipow, pow_zero]
  | case2 x => rw [ipow, pow_one]
  | case3 x e heven ih =>
    rw [ipow, if_pos heven, ih, ← pow_two, ← pow_mul,
      Nat.mul_div_cancel' (Nat.dvd_of_mod_eq_zero heven)]
  | case4 x e hodd ih =>
    rw [ipow, if_neg hodd, ih, ← pow_two, ← pow_mul, ← pow_succ']
    congr 1
    omega

/-- A sketch; the counters are atomic. -/
structure DDSketch where
  buckets : List ℕ
  gamma : ℝ
  cutoff : ℕ
  count : ℕ
  limit : ℕ
  min : ℕ
  max : ℕ

namespace DDSketch

/-- `saturating_add` -/
def saturatingAdd (ctr val : ℕ) : ℕ := Min.min (ctr + val) u64Max

/-- The logarithm of zero, which a float has at minus infinity, is zero here; both lead to two
buckets. -/
noncomputable def withLimit (limit : ℕ) (alpha : ℝ) : Option DDSketch :=
  if 0 < alpha ∧ alpha < 1 then
    let gamma := (1 + alpha) / (1 - alpha)
    let logGammaM1 := Real.logb gamma (gamma - 1)
    let logLimit := ⌈Real.logb gamma limit⌉
    let cutoff := ⌈-logGammaM1⌉
    let rest := ⌈Real.logb gamma limit - logGammaM1⌉
    let numBuckets :=
      if logLimit ≤ cutoff then logLimit.toNat + 2 else cutoff.toNat + rest.toNat + 2
    let numBuckets := if limit = u64Max then numBuckets - 1 else numBuckets
    some
      { buckets := List.replicate numBuckets 0
        gamma
        cutoff := cutoff.toNat + 1
        count := 0
        limit
        min := u64Max
        max := 0 }
  else
    none

/-- The number of buckets. -/
def numBuckets (s : DDSketch) : ℕ := s.buckets.length

/-- `index_of(value)`: the bucket of a value. -/
noncomputable def indexOf (s : DDSketch) (value : ℕ) : ℕ :=
  if value > s.limit then s.numBuckets - 1
  else if value < s.cutoff then value
  else ⌈Real.logb s.gamma value⌉.toNat + 1

/-- There is no result when the index is out of bounds, which panics. -/
noncomputable def insertN (s : DDSketch) (value count : ℕ) : Option DDSketch :=
  let index := s.indexOf value
  if index < s.numBuckets then
    some
      { s with
        max := Max.max s.max value
        min := Min.min s.min value
        count := saturatingAdd s.count count
        buckets := s.buckets.modify index (saturatingAdd · count) }
  else
    none

/-- `insert(value)` -/
noncomputable def insert (s : DDSketch) (value : ℕ) : Option DDSketch := s.insertN value 1

/-- The samples are inserted one after the other. -/
noncomputable def insertAll (s : DDSketch) : List ℕ → Option DDSketch
  | [] => some s
  | value :: samples =>
    match s.insert value with
    | none => none
    | some s => s.insertAll samples

/-- There is no result when the sketches have different numbers of buckets, which panics. -/
def merge (s other : DDSketch) : Option DDSketch :=
  if s.numBuckets = other.numBuckets then
    some
      { s with
        buckets := List.zipWith saturatingAdd s.buckets other.buckets
        count := saturatingAdd s.count other.count
        min := Min.min s.min other.min
        max := Max.max s.max other.max }
  else
    none

/-- There is no result when the index is out of bounds, which panics. -/
noncomputable def rank (s : DDSketch) (value : ℕ) : Option ℕ :=
  let index := s.indexOf value
  if index ≤ s.numBuckets then some (s.buckets.take index).sum else none

/-- What `quantile` returns for this index. -/
noncomputable def estimate (s : DDSketch) (index : ℕ) : ℕ :=
  Max.max (Min.min ⌊ipow s.gamma index / (0.5 * (s.gamma + 1)) + 1 / 2⌋₊ s.max) s.min

/-- The bucket that the scan of `quantile` finds: the first that takes the total over the rank. -/
noncomputable def scan (s : DDSketch) (q : ℝ) : Option ℕ :=
  (Sorted.totals 0 s.buckets).findIdx? fun total => ⌊q * s.count⌋₊ < total

/-- `quantile(q)` of a number. -/
noncomputable def quantile (s : DDSketch) (q : ℝ) : ℕ :=
  if q < 0 then s.min
  else if q ≥ 1 then s.max
  else
    match s.scan q with
    | some index =>
      if index < s.cutoff then s.estimate index
      else if index = s.numBuckets - 1 then s.max
      else s.estimate (index - 1)
    | none => s.max

/-! ## How close an estimate is -/

/-- The estimate differs from the sample by no more than the precision and the rounding allow. -/
def IsNear (alpha : ℝ) (x estimate : ℕ) : Prop := |(estimate : ℝ) - x| ≤ alpha * x + 1 / 2

/-- The formula for the logarithmic part, before it is clamped. -/
noncomputable def logEstimate (alpha : ℝ) (index : ℕ) : ℕ :=
  ⌊(1 - alpha) * ((1 + alpha) / (1 - alpha)) ^ index + 1 / 2⌋₊

/-- The precisions at which the formula is right for a value in front of the cutoff. -/
def FitsBelow (alpha : ℝ) : ℕ → Prop
  | 0 => 1 / 2 < alpha
  | 1 => True
  | 2 => 3 * (1 - alpha) ≤ 2 * (1 + alpha) ^ 2
  | 3 => 1 / 6 ≤ alpha
  | 4 => 5 * (1 - alpha) ^ 3 ≤ 2 * (1 + alpha) ^ 4
  | 5 => 7 * (1 - alpha) ^ 4 ≤ 2 * (1 + alpha) ^ 5
  | _ + 6 => False

/-- In front of the cutoff the formula is right for the value, or the samples are too close for it
to go wrong: it errs to the lower side, but for zero, and the estimate is clamped to the least and
the greatest of them.  In the logarithmic part the value does not share the last bucket with a
sample that is too high. -/
def LogFormulaFits (s : DDSketch) (alpha : ℝ) (samples : List ℕ) (x : ℕ) : Prop :=
  if x < s.cutoff then
    FitsBelow alpha x ∨
      if x = 0 then ∀ v ∈ samples, v = 0
      else ∀ v ∈ samples, (1 - alpha) * x ≤ v + 1 / 2
  else
    s.indexOf x = s.numBuckets - 1 → ∀ v ∈ samples, (v : ℝ) ≤ (1 + alpha) * x + 1 / 2

/-! ## The powers of `γ` -/

section Gamma

variable {γ : ℝ} {m n : ℕ}

/-- Where a bucket of the logarithmic part gets wider than one. -/
noncomputable def wideFrom (γ : ℝ) : ℝ := -Real.logb γ (γ - 1)

theorem pow_lt_succ (hγ : 1 < γ) (hm : 1 ≤ m) (h : m * (γ - 1) < 1) : γ ^ m < m + 1 := by
  obtain rfl | hm2 := Nat.eq_or_lt_of_le hm
  · norm_num at h ⊢
    linarith
  · have hexp : γ ^ m ≤ Real.exp (m * (γ - 1)) := by
      rw [Real.exp_nat_mul]
      refine pow_le_pow_left₀ (by linarith) ?_ m
      linarith [Real.add_one_le_exp (γ - 1)]
    have hlt : Real.exp (m * (γ - 1)) < Real.exp 1 := Real.exp_lt_exp.mpr h
    have hthree : (3 : ℝ) ≤ m + 1 := by
      have : (2 : ℝ) ≤ m := by exact_mod_cast hm2
      linarith
    linarith [Real.exp_one_lt_d9]

theorem neg_one_lt_wideFrom (hγ : 1 < γ) : -1 < wideFrom γ := by
  have hlog : Real.logb γ (γ - 1) < 1 := by
    rw [Real.logb_lt_iff_lt_rpow hγ (by linarith), Real.rpow_one]
    linarith
  rw [wideFrom]
  linarith

theorem ceil_wideFrom_nonneg (hγ : 1 < γ) : 0 ≤ ⌈wideFrom γ⌉ := by
  have := Int.lt_ceil.mpr (show ((-1 : ℤ) : ℝ) < wideFrom γ by
    push_cast
    exact neg_one_lt_wideFrom hγ)
  omega

theorem wideFrom_pos (hγ : 1 < γ) (h2 : γ < 2) : 0 < wideFrom γ := by
  rw [wideFrom, Left.neg_pos_iff]
  exact Real.logb_neg hγ (by linarith) (by linarith)

theorem wideFrom_nonpos (h2 : 2 ≤ γ) : wideFrom γ ≤ 0 := by
  rw [wideFrom, Left.neg_nonpos_iff]
  exact Real.logb_nonneg (by linarith) (by linarith)

/-- The power of `γ` at which the buckets get wider than one. -/
theorem rpow_wideFrom (hγ : 1 < γ) : γ ^ wideFrom γ = (γ - 1)⁻¹ := by
  rw [wideFrom, Real.rpow_neg (by linarith), Real.rpow_logb (by linarith) (by linarith)
    (by linarith)]

/-- As long as the logarithm does not reach the cutoff, it is at least the number. -/
theorem le_ceil_logb (hγ : 1 < γ) (hn : 2 ≤ n) (h : ⌈Real.logb γ n⌉ ≤ ⌈wideFrom γ⌉) :
    (n : ℤ) ≤ ⌈Real.logb γ n⌉ := by
  obtain ⟨m, rfl⟩ : ∃ m, n = m + 1 := ⟨n - 1, by omega⟩
  have hlt : Real.logb γ (m + 1 : ℕ) < wideFrom γ + 1 :=
    (Int.le_ceil _).trans_lt ((Int.cast_le.mpr h).trans_lt (Int.ceil_lt_add_one _))
  rw [Real.logb_lt_iff_lt_rpow hγ (by positivity), Real.rpow_add (by linarith), rpow_wideFrom hγ,
    Real.rpow_one, inv_mul_eq_div, lt_div_iff₀ (by linarith)] at hlt
  push_cast at hlt
  have hpow := pow_lt_succ hγ (by omega : 1 ≤ m) (by linarith)
  have hlog : ((m : ℤ) : ℝ) < Real.logb γ (m + 1 : ℕ) := by
    rw [Real.lt_logb_iff_rpow_lt hγ (by positivity)]
    push_cast
    rwa [Real.rpow_natCast]
  have := Int.lt_ceil.mpr hlog
  push_cast at this ⊢
  omega

/-- Behind the cutoff the logarithm has reached it. -/
theorem ceil_wideFrom_le (hγ : 1 < γ) (hn : ⌈wideFrom γ⌉ < n) :
    ⌈wideFrom γ⌉ ≤ ⌈Real.logb γ n⌉ := by
  obtain ⟨c, hc⟩ := Int.eq_ofNat_of_zero_le (ceil_wideFrom_nonneg hγ)
  rw [hc] at hn ⊢
  have hn1 : (1 : ℝ) ≤ n := by
    exact_mod_cast (show 1 ≤ n by omega)
  cases c with
  | zero => exact_mod_cast Int.ceil_nonneg (Real.logb_nonneg hγ hn1)
  | succ m =>
    have hm : (m : ℝ) < wideFrom γ := by
      have := Int.lt_ceil.mp (show (m : ℤ) < ⌈wideFrom γ⌉ by rw [hc]; push_cast; omega)
      exact_mod_cast this
    have hpow : γ ^ m < (γ - 1)⁻¹ := by
      rw [← rpow_wideFrom hγ, ← Real.rpow_natCast]
      exact Real.rpow_lt_rpow_of_exponent_lt hγ hm
    have hlt : γ ^ m < m + 2 := by
      by_contra hge
      rw [not_lt] at hge
      have hsmall : (m + 2) * (γ - 1) < 1 := by
        have := hge.trans_lt hpow
        rwa [lt_inv_comm₀ (by positivity) (by linarith), lt_inv_comm₀ (by linarith) (by positivity),
          ← one_div, lt_div_iff₀ (by linarith)] at this
      obtain hzero | hpos := Nat.eq_zero_or_pos m
      · rw [hzero] at hge
        norm_num at hge
      · have := pow_lt_succ hγ hpos (by nlinarith)
        linarith
    have hlog : ((m : ℤ) : ℝ) < Real.logb γ n := by
      rw [Real.lt_logb_iff_rpow_lt hγ (by linarith)]
      push_cast
      rw [Real.rpow_natCast]
      have : ((m + 2 : ℕ) : ℝ) ≤ n := by
        exact_mod_cast (show m + 2 ≤ n by omega)
      push_cast at this
      linarith
    have := Int.lt_ceil.mpr hlog
    push_cast
    omega

end Gamma

end DDSketch

end Hamerkop
