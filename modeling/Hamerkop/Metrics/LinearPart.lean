import Hamerkop.Metrics.Buckets

/-!
# The formula for the logarithmic part, in front of the cutoff

A bucket in front of the cutoff stands for a single value, but `quantile` uses the formula
for the logarithmic part there all the same.  `logEstimate_fits_iff`: what it says of a value
is as close as it should be for zero and one, for the values from two to five when the
precision is coarse enough (`FitsBelow`), and for no other value.  From two on it errs to the
lower side.
-/

namespace Hamerkop

namespace DDSketch

variable {limit : ℕ} {alpha γ : ℝ} {s : DDSketch} {x k n : ℕ}

/-! ## The powers of `γ` in front of the cutoff -/

/-- A bucket in front of the cutoff would be narrower than one. -/
theorem HasLayout.pow_mul_lt_one (h : s.HasLayout limit alpha) (hn : n + 1 < s.cutoff) :
    s.gamma ^ n * (s.gamma - 1) < 1 := by
  have hγ := h.one_lt_gamma
  have hle := h.lt_cutoff_iff.mp hn
  have hwide : (n : ℝ) < wideFrom s.gamma := by
    have := Int.lt_ceil.mp (show (n : ℤ) < ⌈wideFrom s.gamma⌉ by push_cast at hle; omega)
    exact_mod_cast this
  have hpow : s.gamma ^ n < (s.gamma - 1)⁻¹ := by
    rw [← rpow_wideFrom hγ, ← Real.rpow_natCast]
    exact Real.rpow_lt_rpow_of_exponent_lt hγ hwide
  rwa [← one_div, lt_div_iff₀ (by linarith)] at hpow

theorem lt_of_pow_mul_lt_one {b : ℝ} (hγ : 1 < γ) (h : γ ^ n * (γ - 1) < 1) (hb : 1 ≤ b)
    (hbn : 1 ≤ b ^ n * (b - 1)) : γ < b := by
  by_contra hge
  rw [not_lt] at hge
  have hle : b ^ n * (b - 1) ≤ γ ^ n * (γ - 1) :=
    mul_le_mul (pow_le_pow_left₀ (by linarith) hge n) (by linarith) (by linarith) (by positivity)
  linarith

/-- From six on the formula falls short by more than the precision and the rounding allow. -/
theorem pow_succ_add_lt (hγ : 1 < γ) (hn : 5 ≤ n) (h : γ ^ n * (γ - 1) < 1) :
    γ ^ (n + 1) + (γ + 1) / 2 < n + 1 := by
  induction n, hn using Nat.le_induction with
  | base =>
    have hlt := lt_of_pow_mul_lt_one (b := 1.286) hγ h (by norm_num) (by norm_num)
    have hpow : γ ^ 5 ≤ 1.286 ^ 5 := pow_le_pow_left₀ (by linarith) hlt.le 5
    have hsucc : γ ^ (5 + 1) = γ ^ 5 + γ ^ 5 * (γ - 1) := by ring
    rw [hsucc]
    norm_num at hpow ⊢
    linarith
  | succ n hn ih =>
    have hle : γ ^ n * (γ - 1) ≤ γ ^ (n + 1) * (γ - 1) :=
      mul_le_mul_of_nonneg_right (pow_le_pow_right₀ hγ.le n.le_succ) (by linarith)
    have hsucc : γ ^ (n + 1 + 1) = γ ^ (n + 1) + γ ^ (n + 1) * (γ - 1) := by ring
    have := ih (hle.trans_lt h)
    rw [hsucc]
    push_cast
    linarith

/-- How coarse the precision can be for a value that is in front of the cutoff. -/
theorem HasLayout.alpha_lt (h : s.HasLayout limit alpha) (hn : n + 1 < s.cutoff) {a : ℝ}
    (h0 : 0 ≤ a) (h1 : a < 1)
    (ha : 1 ≤ ((1 + a) / (1 - a)) ^ n * ((1 + a) / (1 - a) - 1)) : alpha < a := by
  have hlt := lt_of_pow_mul_lt_one h.one_lt_gamma (h.pow_mul_lt_one hn)
    ((one_le_div (by linarith)).mpr (by linarith)) ha
  have hα := h.lt_one
  rw [h.gamma_eq, div_lt_div_iff₀ (by linarith) (by linarith)] at hlt
  linarith

/-! ## The estimate -/

theorem le_logEstimate_iff (h0 : 0 ≤ alpha) (h1 : alpha < 1) :
    k ≤ logEstimate alpha (n + 1) ↔
      (2 * (k : ℝ) - 1) * (1 - alpha) ^ n ≤ 2 * (1 + alpha) ^ (n + 1) := by
  have hne : 1 - alpha ≠ 0 := by linarith
  have hpow : (1 - alpha) * ((1 + alpha) / (1 - alpha)) ^ (n + 1) =
      (1 + alpha) ^ (n + 1) / (1 - alpha) ^ n := by
    rw [div_pow, pow_succ (1 - alpha)]
    field_simp
  have hpos : 0 < (1 - alpha) ^ n := pow_pos (by linarith) n
  have hnum : 0 < (1 + alpha) ^ (n + 1) := pow_pos (by linarith) _
  rw [logEstimate, hpow, Nat.le_floor_iff (by positivity), ← sub_le_iff_le_add,
    le_div_iff₀ hpos]
  constructor <;> intro h <;> linarith

/-- The estimate grows with `alpha`. -/
theorem le_logEstimate_of_le {a : ℝ} (hk : 1 ≤ k) (h0 : 0 ≤ a) (ha : a ≤ alpha) (h1 : alpha < 1)
    (h : (2 * (k : ℝ) - 1) * (1 - a) ^ n ≤ 2 * (1 + a) ^ (n + 1)) :
    k ≤ logEstimate alpha (n + 1) := by
  rw [le_logEstimate_iff (h0.trans ha) h1]
  have hcast : (1 : ℝ) ≤ k := by exact_mod_cast hk
  calc (2 * (k : ℝ) - 1) * (1 - alpha) ^ n
      ≤ (2 * (k : ℝ) - 1) * (1 - a) ^ n := by
        refine mul_le_mul_of_nonneg_left (pow_le_pow_left₀ (by linarith) ?_ n) (by linarith)
        linarith
    _ ≤ 2 * (1 + a) ^ (n + 1) := h
    _ ≤ 2 * (1 + alpha) ^ (n + 1) := by
        refine mul_le_mul_of_nonneg_left (pow_le_pow_left₀ (by linarith) ?_ _) (by norm_num)
        linarith

theorem logEstimate_lt_of_le {a : ℝ} (hk : 1 ≤ k) (h0 : 0 ≤ alpha) (ha : alpha ≤ a) (h1 : a < 1)
    (h : 2 * (1 + a) ^ (n + 1) < (2 * (k : ℝ) - 1) * (1 - a) ^ n) :
    logEstimate alpha (n + 1) < k := by
  by_contra hge
  have hle := le_logEstimate_of_le hk h0 ha h1
    ((le_logEstimate_iff h0 (ha.trans_lt h1)).mp (not_lt.mp hge))
  rw [le_logEstimate_iff (h0.trans ha) h1] at hle
  linarith

/-! ## When it is close -/

/-- An estimate that is too low. -/
theorem isNear_iff_of_le {r : ℕ} (hr : r ≤ x) :
    IsNear alpha x r ↔ (1 - alpha) * x ≤ r + 1 / 2 := by
  have hle : (r : ℝ) ≤ x := by exact_mod_cast hr
  rw [IsNear, abs_sub_comm, abs_of_nonneg (by linarith)]
  constructor <;> intro h <;> linarith

/-- An estimate that is too high. -/
theorem isNear_iff_of_ge {r : ℕ} (hr : x ≤ r) :
    IsNear alpha x r ↔ (r : ℝ) ≤ (1 + alpha) * x + 1 / 2 := by
  have hle : (x : ℝ) ≤ r := by exact_mod_cast hr
  rw [IsNear, abs_of_nonneg (by linarith)]
  constructor <;> intro h <;> linarith

/-- `k` is the least estimate that is close. -/
theorem isNear_iff_le_logEstimate (hr : logEstimate alpha x ≤ x)
    (hless : (k : ℝ) - 1 / 2 < (1 - alpha) * x)
    (hnear : k ≤ logEstimate alpha x → (1 - alpha) * x ≤ k + 1 / 2) :
    IsNear alpha x (logEstimate alpha x) ↔ k ≤ logEstimate alpha x := by
  rw [isNear_iff_of_le hr]
  constructor
  · intro h
    by_contra hlt
    have : (logEstimate alpha x : ℝ) + 1 ≤ k := by exact_mod_cast not_le.mp hlt
    linarith
  · intro h
    have hcast : (k : ℝ) ≤ logEstimate alpha x := by exact_mod_cast h
    linarith [hnear h]

theorem logEstimate_zero_eq_zero : logEstimate alpha 0 = 0 ↔ 1 / 2 < alpha := by
  rw [logEstimate, pow_zero, mul_one, Nat.floor_eq_zero]
  constructor <;> intro h <;> linarith

namespace HasLayout

variable (h : s.HasLayout limit alpha)
include h

theorem fits_one (hx : 1 < s.cutoff) : IsNear alpha 1 (logEstimate alpha 1) := by
  have halpha : alpha < 2 / 5 := h.alpha_lt (n := 0) hx (by norm_num) (by norm_num) (by norm_num)
  have hlow : 1 ≤ logEstimate alpha 1 :=
    le_logEstimate_of_le (n := 0) le_rfl le_rfl h.pos.le h.lt_one (by norm_num)
  have hhigh : logEstimate alpha 1 < 2 :=
    logEstimate_lt_of_le (n := 0) (by norm_num) h.pos.le halpha.le (by norm_num) (by norm_num)
  have hone : logEstimate alpha 1 = 1 := by omega
  have := h.pos
  rw [hone, IsNear]
  norm_num
  linarith

/-- The estimate is close from a precision on that it reaches `k` with: as long as the value is in
front of the cutoff the precision is less than `a`, and one less than `b` does not reach `k`. -/
theorem fits_iff (hx : n + 1 < s.cutoff) (hk : 1 ≤ k) {a b : ℝ} (ha0 : 0 ≤ a) (ha1 : a < 1)
    (ha : 1 ≤ ((1 + a) / (1 - a)) ^ n * ((1 + a) / (1 - a) - 1))
    (hhigh : 2 * (1 + a) ^ (n + 1) < (2 * ((n + 2 : ℕ) : ℝ) - 1) * (1 - a) ^ n)
    (hless : (k : ℝ) - 1 / 2 ≤ (1 - a) * (n + 1 : ℕ)) (hb1 : b < 1)
    (hb : 2 * (1 + b) ^ (n + 1) < (2 * (k : ℝ) - 1) * (1 - b) ^ n)
    (hnear : (1 - b) * (n + 1 : ℕ) ≤ k + 1 / 2) :
    logEstimate alpha (n + 1) ≤ n + 1 ∧ (IsNear alpha (n + 1) (logEstimate alpha (n + 1)) ↔
      (2 * (k : ℝ) - 1) * (1 - alpha) ^ n ≤ 2 * (1 + alpha) ^ (n + 1)) := by
  have h0 := h.pos.le
  have halpha := h.alpha_lt hx ha0 ha1 ha
  have hle : logEstimate alpha (n + 1) ≤ n + 1 :=
    Nat.lt_succ_iff.mp (logEstimate_lt_of_le (by omega) h0 halpha.le ha1 hhigh)
  have hpos : (0 : ℝ) < (n + 1 : ℕ) := by positivity
  have hk' : (k : ℝ) - 1 / 2 < (1 - alpha) * (n + 1 : ℕ) :=
    hless.trans_lt (mul_lt_mul_of_pos_right (by linarith) hpos)
  refine ⟨hle, ?_⟩
  rw [isNear_iff_le_logEstimate hle hk' fun hreach => ?_, le_logEstimate_iff h0 h.lt_one]
  have hba : b ≤ alpha := by
    by_contra hlt
    have := logEstimate_lt_of_le hk h0 (not_le.mp hlt).le hb1 hb
    omega
  exact (mul_le_mul_of_nonneg_right (by linarith) hpos.le).trans hnear

theorem fits_two (hx : 2 < s.cutoff) : logEstimate alpha 2 ≤ 2 ∧
    (IsNear alpha 2 (logEstimate alpha 2) ↔ FitsBelow alpha 2) := by
  have hfits := h.fits_iff (n := 1) (k := 2) (a := 0.237) (b := 0) hx (by norm_num) (by norm_num)
    (by norm_num) (by norm_num) (by norm_num) (by norm_num) (by norm_num) (by norm_num)
    (by norm_num)
  norm_num at hfits
  exact hfits

theorem fits_four (hx : 4 < s.cutoff) : logEstimate alpha 4 ≤ 4 ∧
    (IsNear alpha 4 (logEstimate alpha 4) ↔ FitsBelow alpha 4) := by
  have hfits := h.fits_iff (n := 3) (k := 3) (a := 0.161) (b := 1 / 8) hx (by norm_num)
    (by norm_num) (by norm_num) (by norm_num) (by norm_num) (by norm_num) (by norm_num)
    (by norm_num) (by norm_num)
  norm_num at hfits
  exact hfits

theorem fits_five (hx : 5 < s.cutoff) : logEstimate alpha 5 ≤ 5 ∧
    (IsNear alpha 5 (logEstimate alpha 5) ↔ FitsBelow alpha 5) := by
  have hfits := h.fits_iff (n := 4) (k := 4) (a := 0.14) (b := 1 / 10) hx (by norm_num)
    (by norm_num) (by norm_num) (by norm_num) (by norm_num) (by norm_num) (by norm_num)
    (by norm_num) (by norm_num)
  norm_num at hfits
  exact hfits

/-- Of three the estimate is two where it is close. -/
theorem fits_three (hx : 3 < s.cutoff) : logEstimate alpha 3 ≤ 3 ∧
    (IsNear alpha 3 (logEstimate alpha 3) ↔ FitsBelow alpha 3) := by
  have h0 := h.pos.le
  have h1 := h.lt_one
  have halpha : alpha < 0.189 := h.alpha_lt (n := 2) hx (by norm_num) (by norm_num) (by norm_num)
  have hle : logEstimate alpha 3 < 4 :=
    logEstimate_lt_of_le (n := 2) (by norm_num) h0 halpha.le (by norm_num) (by norm_num)
  refine ⟨by omega, ?_⟩
  rw [FitsBelow]
  obtain hsmall | hlarge := lt_or_ge alpha (1 / 6)
  · have htwo : logEstimate alpha 3 < 3 :=
      logEstimate_lt_of_le (n := 2) (by norm_num) h0 hsmall.le (by norm_num) (by norm_num)
    rw [isNear_iff_le_logEstimate (k := 3) (by omega) (by norm_num; linarith)
      (fun _ => by norm_num; linarith)]
    exact iff_of_false (by omega) (by linarith)
  · have htwo : 2 ≤ logEstimate alpha 3 :=
      le_logEstimate_of_le (n := 2) (by norm_num) (by norm_num) hlarge h1 (by norm_num)
    rw [isNear_iff_le_logEstimate (k := 2) (by omega) (by norm_num; linarith)
      (fun _ => by norm_num; linarith)]
    exact iff_of_true htwo hlarge

/-- From six on. -/
theorem not_fits (hn : 5 ≤ n) (hx : n + 1 < s.cutoff) : logEstimate alpha (n + 1) ≤ n + 1 ∧
    ¬ IsNear alpha (n + 1) (logEstimate alpha (n + 1)) := by
  have h1 := h.lt_one
  have hγ := h.one_lt_gamma
  have hlt := pow_succ_add_lt hγ hn (h.pow_mul_lt_one hx)
  have hgamma : (1 - alpha) * ((s.gamma + 1) / 2) = 1 := by
    rw [h.gamma_eq]
    have hne : 1 - alpha ≠ 0 := by linarith
    field_simp
    ring
  have hshort : (1 - alpha) * s.gamma ^ (n + 1) + 1 < (1 - alpha) * (n + 1) := by
    have := mul_lt_mul_of_pos_left hlt (by linarith : 0 < 1 - alpha)
    linarith
  have hpos : 0 < (1 - alpha) * s.gamma ^ (n + 1) := mul_pos (by linarith) (by positivity)
  have hfloor : (logEstimate alpha (n + 1) : ℝ) ≤ (1 - alpha) * s.gamma ^ (n + 1) + 1 / 2 := by
    rw [logEstimate, ← h.gamma_eq]
    exact Nat.floor_le (by linarith)
  have hscale : (1 - alpha) * ((n : ℝ) + 1) ≤ n + 1 :=
    mul_le_of_le_one_left (by positivity) (by linarith [h.pos])
  have hle : logEstimate alpha (n + 1) ≤ n + 1 := by
    have : (logEstimate alpha (n + 1) : ℝ) ≤ (n : ℝ) + 1 := by linarith
    exact_mod_cast this
  refine ⟨hle, ?_⟩
  rw [isNear_iff_of_le hle]
  push_cast
  linarith

/-- **Where the formula for the logarithmic part is right in front of the cutoff.** -/
theorem logEstimate_fits_iff (hx : x < s.cutoff) (hx1 : 1 ≤ x) :
    (IsNear alpha x (logEstimate alpha x) ↔ FitsBelow alpha x) ∧
      (2 ≤ x → logEstimate alpha x ≤ x) := by
  match x, hx1 with
  | 1, _ => exact ⟨iff_of_true (h.fits_one hx) trivial, by omega⟩
  | 2, _ => exact ⟨(h.fits_two hx).2, fun _ => (h.fits_two hx).1⟩
  | 3, _ => exact ⟨(h.fits_three hx).2, fun _ => (h.fits_three hx).1⟩
  | 4, _ => exact ⟨(h.fits_four hx).2, fun _ => (h.fits_four hx).1⟩
  | 5, _ => exact ⟨(h.fits_five hx).2, fun _ => (h.fits_five hx).1⟩
  | n + 6, _ =>
    obtain ⟨hle, hnot⟩ := h.not_fits (n := n + 5) (by omega) hx
    exact ⟨iff_of_false hnot id, fun _ => hle⟩

end HasLayout

end DDSketch

end Hamerkop
