import Hamerkop.Metrics.Merge

/-!
# The quantiles of a `DDSketch` are ordered

As long as no counter saturates, the buckets of a sketch sum up to its count, and the scan in
`quantile` finds a bucket.  Which of its branches then answers depends on where this bucket
lies: in front of the cutoff, behind it, or last.  In this order the answers grow, and all lie
between the least and the greatest value (`quantile_ordered`).
-/

namespace Hamerkop

namespace DDSketch

open Saturating

variable {limit : ℕ} {alpha : ℝ} {s t a : DDSketch}

/-- Sketches that insertions and merges lead to, none of which saturates a counter.  The total
count is the greatest of them. -/
inductive Filled : DDSketch → Prop
  | withLimit {limit : ℕ} {alpha : ℝ} {s : DDSketch} : withLimit limit alpha = some s → Filled s
  | insertN {s t : DDSketch} {value count : ℕ} :
      Filled s → s.insertN value count = some t → s.count + count ≤ u64Max → Filled t
  | merge {s t other : DDSketch} :
      Filled s → Filled other → s.merge other = some t → s.count + other.count ≤ u64Max → Filled t

/-- What `quantile` relies on. -/
structure Sound (s : DDSketch) : Prop where
  gamma : 1 < s.gamma
  cutoff : 1 ≤ s.cutoff
  sum : s.buckets.sum = s.count
  min_le_max : 0 < s.count → s.min ≤ s.max

theorem sum_modify (l : List ℕ) {i : ℕ} (hi : i < l.length) (count : ℕ)
    (hsum : l.sum + count ≤ u64Max) : (l.modify i (saturatingAdd · count)).sum = l.sum + count := by
  induction l generalizing i with
  | nil => exact absurd hi (Nat.not_lt_zero i)
  | cons x l ih =>
    rw [List.sum_cons] at hsum
    cases i with
    | zero =>
      have hx : saturatingAdd x count = x + count := min_eq_left (by omega)
      rw [List.modify_zero_cons, List.sum_cons, hx, List.sum_cons]
      omega
    | succ i =>
      rw [List.modify_succ_cons, List.sum_cons, ih (by simpa using hi) (by omega), List.sum_cons,
        Nat.add_assoc]

theorem sum_zipWith (l l' : List ℕ) (hlength : l.length = l'.length)
    (hsum : l.sum + l'.sum ≤ u64Max) :
    (List.zipWith (satAdd u64Max) l l').sum = l.sum + l'.sum := by
  induction l generalizing l' with
  | nil =>
    rw [List.eq_nil_of_length_eq_zero hlength.symm]
    rfl
  | cons x l ih =>
    cases l' with
    | nil => simp at hlength
    | cons y l' =>
      simp only [List.sum_cons] at hsum ⊢
      rw [List.zipWith_cons_cons, List.sum_cons, satAdd_eq_add (by omega),
        ih l' (by simpa using hlength) (by omega)]
      omega

theorem sound_withLimit (h : withLimit limit alpha = some s) : s.Sound where
  gamma := (withLimit_hasLayout h).one_lt_gamma
  cutoff := by
    rw [(withLimit_hasLayout h).cutoff_eq]
    exact Nat.succ_pos _
  sum := by
    rw [(withLimit_empty h).buckets, (withLimit_empty h).count]
    simp
  min_le_max := by
    rw [(withLimit_empty h).count]
    exact fun h => absurd h (Nat.lt_irrefl 0)

theorem Sound.insertN {value count : ℕ} (h : s.Sound) (ht : s.insertN value count = some t)
    (hcount : s.count + count ≤ u64Max) : t.Sound := by
  unfold DDSketch.insertN at ht
  by_cases hi : s.indexOf value < s.numBuckets
  · rw [if_pos hi] at ht
    obtain rfl := Option.some.inj ht
    refine ⟨h.gamma, h.cutoff, ?_, ?_⟩
    · have hsum : s.buckets.sum + count ≤ u64Max := by rwa [h.sum]
      have hadd : saturatingAdd s.count count = s.count + count := min_eq_left hcount
      simp only [sum_modify s.buckets hi count hsum, hadd, h.sum]
    · intro _
      exact (min_le_right s.min value).trans (le_max_right s.max value)
  · rw [if_neg hi] at ht
    cases ht

theorem Sound.merge (h : s.Sound) (ha : a.Sound) (hn : s.numBuckets = a.numBuckets)
    (hcount : s.count + a.count ≤ u64Max) : (s.merged a).Sound := by
  refine ⟨h.gamma, h.cutoff, ?_, ?_⟩
  · unfold merged
    simp only
    rw [sum_zipWith _ _ hn (by rwa [h.sum, ha.sum]), satAdd_eq_add hcount, h.sum, ha.sum]
  · intro hpos
    have hsum : 0 < s.count + a.count := by
      rwa [merged, satAdd_eq_add hcount] at hpos
    rcases Nat.eq_zero_or_pos s.count with hzero | hs
    · calc Min.min s.min a.min ≤ a.min := min_le_right _ _
        _ ≤ a.max := ha.min_le_max (by omega)
        _ ≤ Max.max s.max a.max := le_max_right _ _
    · calc Min.min s.min a.min ≤ s.min := min_le_left _ _
        _ ≤ s.max := h.min_le_max hs
        _ ≤ Max.max s.max a.max := le_max_left _ _

theorem Filled.sound (h : s.Filled) : s.Sound := by
  induction h with
  | withLimit h => exact sound_withLimit h
  | insertN _ ht hcount ih => exact ih.insertN ht hcount
  | @merge s t other _ _ ht hcount ihs iho =>
    have hn : s.numBuckets = other.numBuckets := by
      by_contra hne
      unfold DDSketch.merge at ht
      rw [if_neg hne] at ht
      cases ht
    obtain rfl := merge_eq_some ht
    exact ihs.merge iho hn hcount

/-! ## The answers -/

/-- The answer of `quantile` when the scan ends at this bucket. -/
noncomputable def answer (s : DDSketch) (index : ℕ) : ℕ :=
  if index < s.cutoff then s.estimate index
  else if index = s.numBuckets - 1 then s.max
  else s.estimate (index - 1)

theorem estimate_mono (hγ : 1 < s.gamma) {i j : ℕ} (h : i ≤ j) : s.estimate i ≤ s.estimate j := by
  have hpow : ipow s.gamma i ≤ ipow s.gamma j := by
    rw [ipow_eq, ipow_eq]
    exact pow_le_pow_right₀ hγ.le h
  unfold estimate
  gcongr

theorem estimate_mem (h : s.min ≤ s.max) (i : ℕ) :
    s.min ≤ s.estimate i ∧ s.estimate i ≤ s.max :=
  ⟨le_max_right _ _, max_le (min_le_right _ _) h⟩

theorem answer_mem (h : s.min ≤ s.max) (i : ℕ) : s.min ≤ s.answer i ∧ s.answer i ≤ s.max := by
  unfold answer
  split_ifs
  · exact estimate_mem h i
  · exact ⟨h, le_rfl⟩
  · exact estimate_mem h (i - 1)

/-- The branches are ordered like the buckets they are for. -/
theorem answer_mono (hs : s.Sound) (h : s.min ≤ s.max) {i j : ℕ} (hij : i ≤ j)
    (hj : j < s.numBuckets) : s.answer i ≤ s.answer j := by
  have hcutoff := hs.cutoff
  by_cases hjc : j < s.cutoff
  · have hic : i < s.cutoff := hij.trans_lt hjc
    unfold answer
    rw [if_pos hic, if_pos hjc]
    exact estimate_mono hs.gamma hij
  · by_cases hlast : j = s.numBuckets - 1
    · have hmax : s.answer j = s.max := by
        unfold answer
        rw [if_neg hjc, if_pos hlast]
      rw [hmax]
      exact (answer_mem h i).2
    · -- neither of them is the last bucket, and the cutoff is not before both
      have hilast : i ≠ s.numBuckets - 1 := by omega
      unfold answer
      rw [if_neg hjc, if_neg hlast, if_neg hilast]
      split_ifs with hic
      · exact estimate_mono hs.gamma (by omega)
      · exact estimate_mono hs.gamma (by omega)

/-- Below one, the scan finds a bucket. -/
theorem Sound.exists_index (hs : s.Sound) (hcount : 0 < s.count) {q : ℝ} (h0 : 0 ≤ q) (h1 : q < 1) :
    ∃ index, index < s.numBuckets ∧ s.scan q = some index := by
  have hpos : (0 : ℝ) < s.count := by exact_mod_cast hcount
  have hrank : ⌊q * s.count⌋₊ < s.buckets.sum := by
    rw [hs.sum, Nat.floor_lt (by positivity)]
    exact mul_lt_of_lt_one_left hpos h1
  exact Sorted.exists_findIdx?_totals hrank

theorem quantile_eq_answer {q : ℝ} {index : ℕ} (h0 : 0 ≤ q) (h1 : q < 1)
    (hindex : s.scan q = some index) : s.quantile q = s.answer index := by
  unfold quantile
  rw [if_neg (not_lt.mpr h0), if_neg (not_le.mpr h1)]
  simp only [hindex, answer]

theorem Sound.quantile_mem (hs : s.Sound) (hcount : 0 < s.count) (q : ℝ) :
    s.min ≤ s.quantile q ∧ s.quantile q ≤ s.max := by
  have hle := hs.min_le_max hcount
  by_cases h0 : q < 0
  · have hq : s.quantile q = s.min := if_pos h0
    rw [hq]
    exact ⟨le_rfl, hle⟩
  · by_cases h1 : q < 1
    · obtain ⟨index, -, hindex⟩ := hs.exists_index hcount (not_lt.mp h0) h1
      rw [quantile_eq_answer (not_lt.mp h0) h1 hindex]
      exact answer_mem hle index
    · have hq : s.quantile q = s.max := by
        unfold quantile
        rw [if_neg h0, if_pos (not_lt.mp h1)]
      rw [hq]
      exact ⟨hle, le_rfl⟩

theorem Sound.quantile_mono (hs : s.Sound) (hcount : 0 < s.count) {p q : ℝ} (hpq : p ≤ q) :
    s.quantile p ≤ s.quantile q := by
  by_cases h0 : p < 0
  · have hp : s.quantile p = s.min := if_pos h0
    rw [hp]
    exact (hs.quantile_mem hcount q).1
  · by_cases h1 : q < 1
    · have hp0 := not_lt.mp h0
      obtain ⟨i, -, hi⟩ := hs.exists_index hcount hp0 (hpq.trans_lt h1)
      obtain ⟨j, hj, hj'⟩ := hs.exists_index hcount (hp0.trans hpq) h1
      rw [quantile_eq_answer hp0 (hpq.trans_lt h1) hi, quantile_eq_answer (hp0.trans hpq) h1 hj']
      refine answer_mono hs (hs.min_le_max hcount) (Sorted.findIdx?_mono ?_ hi hj') hj
      exact Nat.floor_le_floor (by gcongr)
    · have hq : s.quantile q = s.max := by
        unfold quantile
        rw [if_neg (by linarith), if_pos (not_lt.mp h1)]
      rw [hq]
      exact (hs.quantile_mem hcount p).2

/-- **Quantiles are ordered and bounded.** -/
theorem quantile_ordered (h : s.Filled) (hcount : 0 < s.count) :
    (∀ p q, p ≤ q → s.quantile p ≤ s.quantile q) ∧
      (∀ q, s.min ≤ s.quantile q ∧ s.quantile q ≤ s.max) ∧
      ∀ q : ℝ, 0 ≤ q → q < 1 → ∃ index, index < s.numBuckets ∧ s.scan q = some index :=
  ⟨fun _ _ hpq => h.sound.quantile_mono hcount hpq, h.sound.quantile_mem hcount,
    fun _ h0 h1 => h.sound.exists_index hcount h0 h1⟩

/-- A sketch for the values up to one hundred with two insertions. -/
theorem quantile_ordered_ten : ∃ s, withLimit 100 (1 / 4) = some s ∧
    ∃ t u, s.insertN 10 3 = some t ∧ t.insertN 30 1 = some u ∧
      u.quantile (1 / 3) ≤ u.quantile (3 / 4) := by
  obtain ⟨s, hs⟩ := exists_withLimit 100 (by norm_num : (0 : ℝ) < 1 / 4) (by norm_num)
  have h := withLimit_empty hs
  have hevery := (withLimit_hasLayout hs).everyValueHasBucket (Or.inr ⟨by decide, by norm_num⟩)
  obtain ⟨t, ht⟩ := @exists_insertN s s h.like 10 3 (hevery.1 10 (by decide)).1
  have hlike : Like s t := (ReachedBy.fresh.insertN ht).like h
  obtain ⟨u, hu⟩ := @exists_insertN s t hlike 30 1 (hevery.1 30 (by decide)).1
  have htcount : t.count = 3 := by
    obtain ⟨-, rfl⟩ := insertN_eq_merged h h.like ht
    simp only [merged, alone, h.count]
    decide
  have hucount : u.count = 4 := by
    obtain ⟨-, rfl⟩ := insertN_eq_merged h hlike hu
    simp only [merged, alone, htcount]
    decide
  have hfilled : u.Filled := by
    refine .insertN (.insertN (.withLimit hs) ht ?_) hu ?_
    · rw [h.count]
      decide
    · rw [htcount]
      decide
  refine ⟨s, hs, t, u, ht, hu, (quantile_ordered hfilled ?_).1 _ _ (by norm_num)⟩
  rw [hucount]
  decide

end DDSketch

end Hamerkop
