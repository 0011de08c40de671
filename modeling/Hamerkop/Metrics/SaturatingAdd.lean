import Hamerkop.Lib.Runs
import Hamerkop.Lib.Saturating
import Hamerkop.Metrics.DDSketch

/-!
# `saturating_add`

The retry loop with which all counters of a `DDSketch` are incremented.  Calls work on one
counter at the same time: the load and each `compare_exchange_weak` are steps, and those of
different calls come in any order.  A `compare_exchange_weak` may fail although the counter
is the expected one.

A call takes effect when its exchange succeeds, and the successful exchanges are one after
the other.  So the calls are as good as made in this order (`Reachable.sequential`), and when
all have returned nothing is lost (`Reachable.losesNothing`).
-/

namespace Hamerkop

open Saturating

/-- Where a call is. -/
inductive AddPc where
  /-- before the load -/
  | loading
  /-- before a `compare_exchange_weak` with these arguments -/
  | exchanging (expected target : ℕ)
  /-- with this result -/
  | returned (expected : ℕ)
deriving DecidableEq, Repr

/-- A counter and the calls that add to it. -/
structure Adding (ι : Type) where
  ctr : ℕ
  pcs : ι → AddPc

/-- The next atomic operation of a call. -/
inductive AddEvent (ι : Type) where
  | load (i : ι)
  /-- if `spurious`, the exchange fails in any case -/
  | exchange (i : ι) (spurious : Bool)

namespace Adding

variable {ι : Type}

/-- No call has begun. -/
def start (initial : ℕ) : Adding ι where
  ctr := initial
  pcs := fun _ => .loading

variable [DecidableEq ι]

/-- The next step of a call, where `val` has the arguments of the calls. -/
def apply (val : ι → ℕ) (s : Adding ι) : AddEvent ι → Option (Adding ι)
  | .load i =>
    match s.pcs i with
    | .loading =>
      let expected := s.ctr
      let target := DDSketch.saturatingAdd expected (val i)
      some { s with pcs := Function.update s.pcs i (.exchanging expected target) }
    | _ => none
  | .exchange i spurious =>
    match s.pcs i with
    | .exchanging expected target =>
      if s.ctr = expected ∧ ¬ spurious then
        some { ctr := target, pcs := Function.update s.pcs i (.returned expected) }
      else
        let expected := s.ctr
        let target := DDSketch.saturatingAdd expected (val i)
        some { s with pcs := Function.update s.pcs i (.exchanging expected target) }
    | _ => none

/-- A step of one of the calls. -/
def Step (val : ι → ℕ) (s : Adding ι) (e : AddEvent ι) (t : Adding ι) : Prop :=
  s.apply val e = some t

/-- The states that some order of the steps leads to. -/
def Reachable (val : ι → ℕ) (initial : ℕ) (s : Adding ι) : Prop :=
  Runs.Reachable (· = start initial) (Step val) s

/-! ## The order in which the calls take effect -/

/-- The calls of `order` have returned, one after the other, and nobody else. -/
structure Sequential (val : ι → ℕ) (initial : ℕ) (s : Adding ι) (order : List ι) : Prop where
  nodup : order.Nodup
  returned : ∀ i, i ∈ order ↔ ∃ expected, s.pcs i = .returned expected
  result : ∀ k i, order[k]? = some i →
    s.pcs i = .returned (((order.take k).map val).foldl (satAdd u64Max) initial)
  ctr : s.ctr = (order.map val).foldl (satAdd u64Max) initial
  /-- A call adds its value to what it has seen last. -/
  target : ∀ i expected target, s.pcs i = .exchanging expected target →
    target = satAdd u64Max expected (val i)

variable {val : ι → ℕ} {initial : ℕ} {s t : Adding ι} {order : List ι}

omit [DecidableEq ι] in
theorem sequential_start (val : ι → ℕ) (initial : ℕ) :
    Sequential val initial (start initial) [] where
  nodup := List.nodup_nil
  returned := by simp [start]
  result := by simp
  ctr := rfl
  target := by simp [start]

/-- A call that looks at the counter, or fails to change it, does not take effect. -/
theorem Sequential.look (h : Sequential val initial s order) {i : ι}
    (hi : ∀ expected, s.pcs i ≠ .returned expected) (expected : ℕ) :
    Sequential val initial
      ⟨s.ctr, Function.update s.pcs i (.exchanging expected (satAdd u64Max expected (val i)))⟩
      order where
  nodup := h.nodup
  returned := by
    intro j
    rw [h.returned]
    by_cases hj : j = i
    · subst hj
      simp [hi]
    · simp [hj]
  result := by
    intro k j hk
    have hj : j ≠ i := by
      rintro rfl
      exact hi _ (h.result k j hk)
    simpa [hj] using h.result k j hk
  ctr := h.ctr
  target := by
    intro j e t hj
    by_cases hji : j = i
    · subst hji
      simp only [Function.update_self, AddPc.exchanging.injEq] at hj
      rw [← hj.1, ← hj.2]
    · exact h.target j e t (by simpa [hji] using hj)

/-- A call whose exchange succeeds is the next in the order. -/
theorem Sequential.succeed (h : Sequential val initial s order) {i : ι} {target : ℕ}
    (hi : s.pcs i = .exchanging s.ctr target) :
    Sequential val initial ⟨target, Function.update s.pcs i (.returned s.ctr)⟩ (order ++ [i]) := by
  have hnew : i ∉ order := by
    intro hm
    obtain ⟨e, he⟩ := (h.returned i).mp hm
    rw [hi] at he
    cases he
  refine ⟨?_, ?_, ?_, ?_, ?_⟩
  · rw [List.nodup_append]
    refine ⟨h.nodup, List.nodup_singleton i, ?_⟩
    intro j hj k hk hjk
    rw [List.mem_singleton.mp hk] at hjk
    exact hnew (hjk ▸ hj)
  · intro j
    by_cases hj : j = i
    · simp [hj]
    · simp [hj, h.returned]
  · intro k j hk
    rcases Nat.lt_trichotomy k order.length with hlt | rfl | hgt
    · rw [List.getElem?_append_left hlt] at hk
      have hj : j ≠ i := by
        rintro rfl
        exact hnew (List.mem_of_getElem? hk)
      rw [List.take_append_of_le_length hlt.le]
      simpa [hj] using h.result k j hk
    · obtain rfl : i = j := by simpa using hk
      simp [h.ctr]
    · rw [List.getElem?_eq_none (by simpa using hgt)] at hk
      cases hk
  · rw [List.map_append, List.foldl_append, ← h.ctr]
    exact h.target i _ _ hi
  · intro j e t hj
    by_cases hji : j = i
    · simp [hji] at hj
    · exact h.target j e t (by simpa [hji] using hj)

theorem Sequential.step {e : AddEvent ι} (h : Sequential val initial s order)
    (hst : Step val s e t) : ∃ order', Sequential val initial t order' := by
  unfold Step apply at hst
  cases e with
  | load i =>
    cases hi : s.pcs i with
    | loading =>
      simp only [hi, Option.some.injEq] at hst
      subst hst
      exact ⟨order, h.look (by simp [hi]) _⟩
    | exchanging e t => simp [hi] at hst
    | returned e => simp [hi] at hst
  | exchange i spurious =>
    cases hi : s.pcs i with
    | loading => simp [hi] at hst
    | exchanging e target =>
      simp only [hi] at hst
      by_cases hsucceeds : s.ctr = e ∧ ¬ spurious
      · rw [if_pos hsucceeds, Option.some.injEq] at hst
        obtain ⟨rfl, -⟩ := hsucceeds
        subst hst
        exact ⟨order ++ [i], h.succeed hi⟩
      · rw [if_neg hsucceeds, Option.some.injEq] at hst
        subst hst
        exact ⟨order, h.look (by simp [hi]) _⟩
    | returned e => simp [hi] at hst

theorem Reachable.sequential (h : Reachable val initial s) :
    ∃ order, Sequential val initial s order := by
  refine Runs.Reachable.invariant (I := fun s => ∃ order, Sequential val initial s order) ?_ ?_ h
  · rintro s rfl
    exact ⟨[], sequential_start val initial⟩
  · rintro s e t ⟨order, hs⟩ hst
    exact hs.step hst

theorem Reachable.step (h : Reachable val initial s) (e : AddEvent ι)
    (hst : s.apply val e = some t) : Reachable val initial t := h.tail hst

/-! ## Nothing is lost -/

/-- **When all calls have returned nothing is lost.**  The counter is the sum of what was added,
as far as it does not saturate, and the results are those of the calls made one after the
other in some order. -/
theorem Reachable.losesNothing [Fintype ι] (h : Reachable val initial s)
    (hinitial : initial ≤ u64Max) (hall : ∀ i, ∃ expected, s.pcs i = .returned expected) :
    s.ctr = min u64Max (initial + ∑ i, val i) ∧
      ∃ order : List ι, order.Nodup ∧ (∀ i, i ∈ order) ∧ ∀ k i, order[k]? = some i →
        s.pcs i = .returned (min u64Max (initial + ((order.take k).map val).sum)) := by
  obtain ⟨order, hseq⟩ := h.sequential
  have hmem : ∀ i, i ∈ order := fun i => (hseq.returned i).mpr (hall i)
  have hsum : (order.map val).sum = ∑ i, val i := by
    rw [← List.sum_toFinset val hseq.nodup]
    congr 1
    ext i
    simp [hmem]
  refine ⟨?_, order, hseq.nodup, hmem, ?_⟩
  · rw [hseq.ctr, foldl_satAdd u64Max _ hinitial, hsum, min_comm]
  · intro k i hk
    rw [hseq.result k i hk, foldl_satAdd u64Max _ hinitial, min_comm]

/-- Two calls see the counter at the same time, one of them has to try again, and the counter
saturates. -/
theorem losesNothing_race : ∃ s : Adding Bool,
    (s.pcs false, s.pcs true) = (.returned (u64Max - 5), .returned (u64Max - 2)) ∧
      s.ctr = min u64Max (u64Max - 5 + ∑ i : Bool, (if i then 4 else 3)) := by
  have h : Reachable (fun i => if i then 4 else 3) (u64Max - 5)
      (start (u64Max - 5) : Adding Bool) := .init rfl
  have h := h.step (.load true) rfl
  have h := h.step (.load false) rfl
  have h := h.step (.exchange false true) rfl
  have h := h.step (.exchange false false) rfl
  have h := h.step (.exchange true false) rfl
  have h := h.step (.exchange true false) rfl
  have hall := Reachable.losesNothing h (by decide) (Bool.forall_bool.mpr ⟨⟨_, rfl⟩, ⟨_, rfl⟩⟩)
  exact ⟨_, rfl, hall.1⟩

end Adding

end Hamerkop
