import Hamerkop.Lib.Saturating
import Hamerkop.Metrics.Buckets

/-!
# Merging sketches

Sketches for the same limit and precision form a commutative monoid: what `merge` does to
two of them is associative and commutative, and an empty sketch is neutral.  To insert a
value a number of times is to merge the sketch that has nothing else in it.  So a sketch is
the product of its operations (`reachedBy_iff`), whatever their order, and merging two
sketches is the same as applying the operations of both (`merge_homomorphism`).  That the
counters saturate makes no difference, as saturating addition is associative itself.
-/

namespace Hamerkop

namespace DDSketch

open Saturating

variable {limit : ℕ} {alpha : ℝ} {fresh s t a b : DDSketch}

/-- What is done to a sketch. -/
inductive SketchOp where
  | insertN (value count : ℕ)
  | merge (other : DDSketch)

/-- The operations lead from the fresh sketch to this one.  The sketches that are merged into it
have been reached in the same way. -/
inductive ReachedBy (fresh : DDSketch) : List SketchOp → DDSketch → Prop
  | fresh : ReachedBy fresh [] fresh
  | insertN {ops : List SketchOp} {s t : DDSketch} {value count : ℕ} :
      ReachedBy fresh ops s → s.insertN value count = some t →
      ReachedBy fresh (ops ++ [.insertN value count]) t
  | merge {ops ops' : List SketchOp} {s t other : DDSketch} :
      ReachedBy fresh ops s → ReachedBy fresh ops' other → s.merge other = some t →
      ReachedBy fresh (ops ++ [.merge other]) t

/-! ## The monoid -/

/-- The result of `merge`. -/
def merged (s other : DDSketch) : DDSketch :=
  { s with
    buckets := List.zipWith (satAdd u64Max) s.buckets other.buckets
    count := satAdd u64Max s.count other.count
    min := Min.min s.min other.min
    max := Max.max s.max other.max }

theorem merge_eq (h : s.numBuckets = t.numBuckets) : s.merge t = some (s.merged t) := by
  unfold merge
  rw [if_pos h]
  rfl

theorem merge_eq_some (h : s.merge a = some t) : t = s.merged a := by
  unfold merge at h
  by_cases hn : s.numBuckets = a.numBuckets
  · rw [if_pos hn] at h
    exact (Option.some.inj h).symm
  · rw [if_neg hn] at h
    cases h

theorem zipWith_assoc {α : Type*} {f : α → α → α} (hf : ∀ x y z, f (f x y) z = f x (f y z))
    (l l₁ l₂ : List α) :
    List.zipWith f (List.zipWith f l l₁) l₂ = List.zipWith f l (List.zipWith f l₁ l₂) := by
  induction l generalizing l₁ l₂ with
  | nil => simp
  | cons x l ih =>
    cases l₁ with
    | nil => simp
    | cons y l₁ =>
      cases l₂ with
      | nil => simp
      | cons z l₂ => simp [hf, ih]

theorem zipWith_right_comm {α : Type*} {f : α → α → α} (hf : ∀ x y z, f (f x y) z = f (f x z) y)
    (l l₁ l₂ : List α) :
    List.zipWith f (List.zipWith f l l₁) l₂ = List.zipWith f (List.zipWith f l l₂) l₁ := by
  induction l generalizing l₁ l₂ with
  | nil => simp
  | cons x l ih =>
    cases l₁ with
    | nil => simp
    | cons y l₁ =>
      cases l₂ with
      | nil => simp
      | cons z l₂ => simp [hf x y z, ih]

theorem merged_assoc (s a b : DDSketch) : (s.merged a).merged b = s.merged (a.merged b) := by
  simp only [merged, zipWith_assoc (satAdd_assoc u64Max), satAdd_assoc, min_assoc, max_assoc]

theorem merged_right_comm (s a b : DDSketch) :
    (s.merged a).merged b = (s.merged b).merged a := by
  simp only [merged, zipWith_right_comm (satAdd_right_comm u64Max),
    satAdd_right_comm u64Max s.count a.count, min_right_comm s.min a.min,
    max_right_comm s.max a.max]

/-- A sketch with the layout of the fresh one; the counters are `u64`. -/
structure Like (fresh s : DDSketch) : Prop where
  gamma : s.gamma = fresh.gamma
  cutoff : s.cutoff = fresh.cutoff
  limit : s.limit = fresh.limit
  numBuckets : s.numBuckets = fresh.numBuckets
  buckets : ∀ n ∈ s.buckets, n ≤ u64Max
  count : s.count ≤ u64Max
  min : s.min ≤ u64Max

theorem Like.indexOf (h : Like fresh s) : s.indexOf = fresh.indexOf := by
  funext value
  unfold DDSketch.indexOf
  rw [h.gamma, h.cutoff, h.limit, h.numBuckets]

theorem Like.merged (hs : Like fresh s) (ha : a.numBuckets = fresh.numBuckets) :
    Like fresh (s.merged a) where
  gamma := hs.gamma
  cutoff := hs.cutoff
  limit := hs.limit
  numBuckets := by
    have hn : s.buckets.length = a.buckets.length := hs.numBuckets.trans ha.symm
    unfold DDSketch.numBuckets DDSketch.merged
    rw [List.length_zipWith, ← hn, Nat.min_self]
    exact hs.numBuckets
  buckets := by
    intro n hn
    obtain ⟨i, hi, rfl⟩ := List.mem_iff_getElem.mp hn
    simp only [DDSketch.merged, List.getElem_zipWith]
    exact satAdd_le _ _ _
  count := satAdd_le _ _ _
  min := (min_le_left _ _).trans hs.min

/-- Nothing has been inserted. -/
structure Empty (fresh : DDSketch) : Prop where
  buckets : fresh.buckets = List.replicate fresh.numBuckets 0
  count : fresh.count = 0
  min : fresh.min = u64Max
  max : fresh.max = 0

theorem withLimit_empty (h : withLimit limit alpha = some fresh) : fresh.Empty := by
  unfold withLimit at h
  by_cases halpha : 0 < alpha ∧ alpha < 1
  · rw [if_pos halpha] at h
    obtain rfl := Option.some.inj h
    exact ⟨by simp [numBuckets], rfl, rfl, rfl⟩
  · rw [if_neg halpha] at h
    cases h

theorem Empty.like (h : fresh.Empty) : Like fresh fresh where
  gamma := rfl
  cutoff := rfl
  limit := rfl
  numBuckets := rfl
  buckets := by
    intro n hn
    rw [h.buckets] at hn
    rw [List.eq_of_mem_replicate hn]
    exact Nat.zero_le _
  count := by
    rw [h.count]
    exact Nat.zero_le _
  min := h.min.le

/-- An empty sketch is neutral. -/
theorem Empty.merged (h : fresh.Empty) (hs : Like fresh s) : s.merged fresh = s := by
  have hbuckets : List.zipWith (satAdd u64Max) s.buckets fresh.buckets = s.buckets := by
    rw [h.buckets, ← hs.numBuckets]
    refine List.ext_getElem (by simp [numBuckets]) ?_
    intro i h₁ h₂
    rw [List.getElem_zipWith, List.getElem_replicate]
    exact satAdd_zero (hs.buckets _ (List.getElem_mem h₂))
  unfold DDSketch.merged
  rw [hbuckets, h.count, h.min, h.max, satAdd_zero hs.count, min_eq_left hs.min, Nat.max_zero]

/-! ## Operations -/

/-- The sketch in which only this has happened. -/
noncomputable def alone (fresh : DDSketch) : SketchOp → DDSketch
  | .insertN value count =>
    { fresh with
      buckets := fresh.buckets.modify (fresh.indexOf value) (satAdd u64Max · count)
      count := satAdd u64Max 0 count
      min := value
      max := value }
  | .merge other => other

/-- An insertion merges the sketch with that insertion alone. -/
theorem insertN_eq_merged (h : fresh.Empty) (hs : Like fresh s) {value count : ℕ}
    (ht : s.insertN value count = some t) :
    fresh.indexOf value < fresh.numBuckets ∧ t = s.merged (fresh.alone (.insertN value count)) := by
  unfold insertN at ht
  rw [hs.indexOf, hs.numBuckets] at ht
  by_cases hi : fresh.indexOf value < fresh.numBuckets
  · rw [if_pos hi] at ht
    obtain rfl := Option.some.inj ht
    refine ⟨hi, ?_⟩
    have hcount : saturatingAdd s.count count = satAdd u64Max s.count (satAdd u64Max 0 count) := by
      rw [← satAdd_assoc, satAdd_zero hs.count]
      rfl
    have hbuckets : s.buckets.modify (fresh.indexOf value) (saturatingAdd · count) =
        List.zipWith (satAdd u64Max) s.buckets
          (fresh.buckets.modify (fresh.indexOf value) (satAdd u64Max · count)) := by
      have hlength : s.buckets.length = fresh.numBuckets := hs.numBuckets
      rw [h.buckets]
      refine List.ext_getElem (by simp [hlength]) ?_
      intro i h₁ h₂
      have hlt : i < s.buckets.length := by simpa using h₁
      have hle : s.buckets[i] ≤ u64Max := hs.buckets _ (List.getElem_mem hlt)
      simp only [List.getElem_modify, List.getElem_zipWith, List.getElem_replicate]
      by_cases heq : fresh.indexOf value = i
      · simp only [heq, ↓reduceIte]
        rw [← satAdd_assoc, satAdd_zero hle]
        rfl
      · simp only [heq, ↓reduceIte]
        rw [satAdd_zero hle]
    simp only [merged, alone, hcount, hbuckets]
  · rw [if_neg hi] at ht
    cases ht

theorem exists_insertN (hs : Like fresh s) {value count : ℕ}
    (hi : fresh.indexOf value < fresh.numBuckets) : ∃ t, s.insertN value count = some t := by
  unfold insertN
  rw [hs.indexOf, hs.numBuckets, if_pos hi]
  exact ⟨_, rfl⟩

theorem numBuckets_alone (fresh : DDSketch) (value count : ℕ) :
    (fresh.alone (.insertN value count)).numBuckets = fresh.numBuckets := by
  simp [alone, numBuckets]

theorem ReachedBy.like {ops : List SketchOp} (h : fresh.Empty) (hs : ReachedBy fresh ops s) :
    Like fresh s := by
  induction hs with
  | fresh => exact h.like
  | @insertN ops s t value count _ ht ih =>
    obtain ⟨-, rfl⟩ := insertN_eq_merged h ih ht
    exact ih.merged (numBuckets_alone fresh value count)
  | merge _ _ ht ihs iho =>
    obtain rfl := merge_eq_some ht
    exact ihs.merged iho.numBuckets

/-- Operations that can be applied: the value has a bucket, the other sketch has been reached. -/
def Applies (fresh : DDSketch) : SketchOp → Prop
  | .insertN value _ => fresh.indexOf value < fresh.numBuckets
  | .merge other => ∃ ops, ReachedBy fresh ops other

/-- **A sketch is what its operations come to in the monoid.** -/
theorem reachedBy_iff (h : fresh.Empty) {ops : List SketchOp} :
    ReachedBy fresh ops s ↔
      (∀ op ∈ ops, fresh.Applies op) ∧ s = (ops.map fresh.alone).foldl merged fresh := by
  constructor
  · intro hs
    induction hs with
    | fresh => exact ⟨by simp, rfl⟩
    | @insertN ops s t value count hs ht ih =>
      obtain ⟨hall, hfold⟩ := ih
      obtain ⟨hi, rfl⟩ := insertN_eq_merged h (hs.like h) ht
      refine ⟨?_, by simp [hfold]⟩
      intro op hop
      rcases List.mem_append.mp hop with hop | hop
      · exact hall op hop
      · rw [List.mem_singleton.mp hop]
        exact hi
    | @merge ops ops' s t other hs ho ht ihs iho =>
      obtain ⟨hall, hfold⟩ := ihs
      obtain rfl := merge_eq_some ht
      refine ⟨?_, by simp [hfold, alone]⟩
      intro op hop
      rcases List.mem_append.mp hop with hop | hop
      · exact hall op hop
      · rw [List.mem_singleton.mp hop]
        exact ⟨ops', ho⟩
  · rintro ⟨hall, rfl⟩
    induction ops using List.reverseRecOn with
    | nil => exact .fresh
    | append_singleton ops op ih =>
      have hs := ih fun o ho => hall o (List.mem_append_left _ ho)
      have hop := hall op (List.mem_append_right _ (List.mem_singleton_self op))
      have hlike := hs.like h
      rw [List.map_append, List.foldl_append]
      cases op with
      | insertN value count =>
        obtain ⟨t, ht⟩ := exists_insertN hlike hop
        obtain ⟨-, rfl⟩ := insertN_eq_merged h hlike ht
        exact hs.insertN ht
      | merge other =>
        obtain ⟨ops', ho⟩ := hop
        exact hs.merge ho (merge_eq (hlike.numBuckets.trans (ho.like h).numBuckets.symm))

theorem foldl_merged_perm {l l' : List DDSketch} (h : l.Perm l') (s : DDSketch) :
    l.foldl merged s = l'.foldl merged s :=
  h.foldl_eq' (fun a _ b _ s => merged_right_comm s a b) s

/-- To go on from a sketch is to go on from the empty one and merge the result. -/
theorem foldl_merged (h : fresh.Empty) (hs : Like fresh s) (l : List DDSketch) :
    l.foldl merged s = s.merged (l.foldl merged fresh) := by
  induction l using List.reverseRecOn with
  | nil => exact (h.merged hs).symm
  | append_singleton l a ih =>
    rw [List.foldl_append, List.foldl_append, ih]
    exact merged_assoc _ _ _

/-! ## Merging -/

/-- **Merging is applying the operations of both, in any order.** -/
theorem merge_homomorphism {ops₁ ops₂ : List SketchOp} (hfresh : withLimit limit alpha = some fresh)
    (ha : ReachedBy fresh ops₁ a) (hb : ReachedBy fresh ops₂ b) :
    ∃ c, a.merge b = some c ∧
      ∀ ops, ops.Perm (ops₁ ++ ops₂) → ∀ s, ReachedBy fresh ops s ↔ s = c := by
  have h := withLimit_empty hfresh
  have hla := ha.like h
  have hlb := hb.like h
  refine ⟨a.merged b, merge_eq (hla.numBuckets.trans hlb.numBuckets.symm), ?_⟩
  intro ops hperm s
  obtain ⟨hall₁, hfold₁⟩ := (reachedBy_iff h).mp ha
  obtain ⟨hall₂, hfold₂⟩ := (reachedBy_iff h).mp hb
  have hfold : (ops.map fresh.alone).foldl merged fresh = a.merged b :=
    calc (ops.map fresh.alone).foldl merged fresh
        = ((ops₁ ++ ops₂).map fresh.alone).foldl merged fresh :=
          foldl_merged_perm (hperm.map _) fresh
      _ = (ops₂.map fresh.alone).foldl merged a := by
          rw [List.map_append, List.foldl_append, ← hfold₁]
      _ = a.merged b := by rw [foldl_merged h hla, ← hfold₂]
  rw [reachedBy_iff h, hfold]
  refine and_iff_right ?_
  intro op hop
  rcases List.mem_append.mp (hperm.mem_iff.mp hop) with hop | hop
  · exact hall₁ op hop
  · exact hall₂ op hop

/-- The counter of three saturates when the second sketch is merged. -/
theorem merge_homomorphism_saturated : ∃ fresh a b c, withLimit 100 (1 / 4) = some fresh ∧
    ReachedBy fresh [.insertN 3 u64Max] a ∧ ReachedBy fresh [.insertN 7 2, .insertN 3 1] b ∧
      a.merge b = some c ∧
        ReachedBy fresh [.insertN 3 1, .insertN 3 u64Max, .insertN 7 2] c := by
  obtain ⟨fresh, hfresh⟩ := exists_withLimit 100 (by norm_num : (0 : ℝ) < 1 / 4) (by norm_num)
  have h := withLimit_empty hfresh
  have hevery := (withLimit_hasLayout hfresh).everyValueHasBucket (Or.inr ⟨by decide, by norm_num⟩)
  have h3 := (hevery.1 3 (by decide)).1
  have h7 := (hevery.1 7 (by decide)).1
  have hreached : ∀ ops : List SketchOp, (∀ op ∈ ops, fresh.Applies op) →
      ∃ s, ReachedBy fresh ops s := fun ops hall => ⟨_, (reachedBy_iff h).mpr ⟨hall, rfl⟩⟩
  obtain ⟨a, ha⟩ := hreached [.insertN 3 u64Max] (by simpa [Applies] using h3)
  obtain ⟨b, hb⟩ := hreached [.insertN 7 2, .insertN 3 1] (by simpa [Applies] using ⟨h7, h3⟩)
  obtain ⟨c, hc, hall⟩ := merge_homomorphism hfresh ha hb
  refine ⟨fresh, a, b, c, hfresh, ha, hb, hc, (hall _ ?_ c).mpr rfl⟩
  exact @List.perm_append_comm SketchOp [.insertN 3 1] [.insertN 3 u64Max, .insertN 7 2]

end DDSketch

end Hamerkop
