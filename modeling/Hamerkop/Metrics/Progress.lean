import Hamerkop.Metrics.LazyInit
import Hamerkop.Metrics.SaturatingAdd

/-!
# Every call returns

The two loops of `metrics/src` that other calls may keep from ending: the retries of
`saturating_add`, and the wait for another call in `LazyCell::init`.

* `Adding.allReturn` — however the calls of `saturating_add` get into each other's way, all
  but the spurious failures of `compare_exchange_weak` are a bounded number of steps, and no
  call that has not returned is ever stuck;
* `LazyCell.Reachable.forcesReturn` — the loop in `init` waits in vain only while another call
  runs the function or is about to store how that ended, and that call can always go on.

Both count what is left to do: a retry is paid for by the call that has made it necessary.
-/

namespace Hamerkop

open Runs

/-! ## Measures that are sums over the calls -/

section Sums

variable {ι : Type} [Fintype ι] {f g : ι → ℕ} {i : ι}

/-- One call comes nearer to its end, and the others stay where they are. -/
theorem sum_succ_le_of_lt (hi : g i < f i) (hother : ∀ j, j ≠ i → g j = f j) :
    ∑ j, g j + 1 ≤ ∑ j, f j := by
  refine Finset.sum_lt_sum (fun j _ => ?_) ⟨i, Finset.mem_univ i, hi⟩
  by_cases hj : j = i
  · subst hj
    exact hi.le
  · exact (hother j hj).le

variable [DecidableEq ι]

/-- One call ends and takes as much with it as there are calls, of which each other one may have
one step more to do. -/
theorem sum_succ_le_of_card (hi : g i + Fintype.card ι ≤ f i)
    (hother : ∀ j, j ≠ i → g j ≤ f j + 1) : ∑ j, g j + 1 ≤ ∑ j, f j := by
  have hcard : (Finset.univ.erase i).card + 1 = Fintype.card ι :=
    Finset.card_erase_add_one (Finset.mem_univ i)
  have hrest : ∑ j ∈ Finset.univ.erase i, g j ≤
      ∑ j ∈ Finset.univ.erase i, f j + (Finset.univ.erase i).card := by
    rw [Finset.card_eq_sum_ones, ← Finset.sum_add_distrib]
    exact Finset.sum_le_sum fun j hj => hother j (Finset.ne_of_mem_erase hj)
  rw [← Finset.add_sum_erase _ g (Finset.mem_univ i),
    ← Finset.add_sum_erase _ f (Finset.mem_univ i)]
  omega

end Sums

/-! ## `saturating_add` -/

namespace Adding

variable {ι : Type} [DecidableEq ι] {val : ι → ℕ} {initial : ℕ} {s t : Adding ι} {e : AddEvent ι}

/-- The step is not a spurious failure of `compare_exchange_weak`. -/
def moves (_ : Adding ι) : AddEvent ι → Bool
  | .load _ => true
  | .exchange _ spurious => !spurious

/-- The steps a call still has to do when nobody changes the counter. -/
def stepsLeft (calls ctr : ℕ) : AddPc → ℕ
  | .loading => calls + 1
  | .exchanging expected _ => calls + if ctr = expected then 0 else 1
  | .returned _ => 0

theorem stepsLeft_le (calls ctr ctr' : ℕ) (pc : AddPc) :
    stepsLeft calls ctr pc ≤ stepsLeft calls ctr' pc + 1 := by
  unfold stepsLeft
  split
  · omega
  · split <;> omega
  · omega

variable [Fintype ι]

/-- The steps that all the calls together have still to take. -/
def allStepsLeft (s : Adding ι) : ℕ := ∑ i, stepsLeft (Fintype.card ι) s.ctr (s.pcs i)

/-- A call that has seen another counter looks at it again. -/
theorem look_stepsLeft {i : ι} {pc : AddPc} (expected target : ℕ) (hi : s.pcs i = pc)
    (hlt : Fintype.card ι < stepsLeft (Fintype.card ι) s.ctr pc) (hctr : s.ctr = expected) :
    allStepsLeft ⟨s.ctr, Function.update s.pcs i (.exchanging expected target)⟩ + 1 ≤
      s.allStepsLeft := by
  refine sum_succ_le_of_lt (i := i) ?_ fun j hj => ?_
  · simp only [Function.update_self, stepsLeft, hctr, if_true, hi]
    exact hctr ▸ hlt
  · simp only [Function.update_of_ne hj]

/-- **A step of `saturating_add` that is not a spurious failure brings the calls nearer to their
end**: a retry was made necessary by a call that has returned. -/
theorem step_stepsLeft (hst : Step val s e t) :
    t.allStepsLeft + (s.moves e).toNat ≤ s.allStepsLeft := by
  unfold Step apply at hst
  cases e with
  | load i =>
    cases hi : s.pcs i with
    | loading =>
      simp only [hi, Option.some.injEq] at hst
      subst hst
      exact look_stepsLeft _ _ hi (Nat.lt_succ_self _) rfl
    | exchanging expected target => simp [hi] at hst
    | returned expected => simp [hi] at hst
  | exchange i spurious =>
    cases hi : s.pcs i with
    | loading => simp [hi] at hst
    | returned expected => simp [hi] at hst
    | exchanging expected target =>
      simp only [hi] at hst
      by_cases hctr : s.ctr = expected
      · cases spurious with
        | false =>
          rw [if_pos ⟨hctr, by simp⟩, Option.some.injEq] at hst
          subst hst
          refine sum_succ_le_of_card (i := i) ?_ fun j hj => ?_
          · simp [stepsLeft, hi]
          · simp only [Function.update_of_ne hj]
            exact stepsLeft_le ..
        | true =>
          rw [if_neg (by simp), Option.some.injEq] at hst
          subst hst
          refine Finset.sum_le_sum fun j _ => ?_
          by_cases hj : j = i
          · subst hj
            simp [stepsLeft, hi, hctr]
          · simp only [Function.update_of_ne hj, le_refl]
      · rw [if_neg fun h => hctr h.1, Option.some.injEq] at hst
        subst hst
        have hlook := look_stepsLeft s.ctr (DDSketch.saturatingAdd s.ctr (val i)) hi
          (by simp [stepsLeft, hctr]) rfl
        have hone := (moves s (.exchange i spurious)).toNat_le
        exact (Nat.add_le_add_left hone _).trans hlook

omit [Fintype ι] in
/-- A call that has not returned can go on. -/
theorem exists_step (s : Adding ι) (i : ι) (hi : ∀ expected, s.pcs i ≠ .returned expected) :
    ∃ e t, (e = .load i ∨ e = .exchange i false) ∧ Step val s e t := by
  unfold Step apply
  cases hpc : s.pcs i with
  | loading =>
    refine ⟨.load i, ?_⟩
    simp only [hpc]
    exact ⟨_, .inl trivial, rfl⟩
  | exchanging expected target =>
    refine ⟨.exchange i false, ?_⟩
    simp only [hpc]
    split
    · exact ⟨_, .inr trivial, rfl⟩
    · exact ⟨_, .inr trivial, rfl⟩
  | returned expected => exact absurd hpc (hi expected)

/-- **Every call of `saturating_add` returns.**  However `n` calls get into each other's way, all
but the spurious failures are at most `n * (n + 1)` steps, and a call that has not returned can
take such a step. -/
theorem allReturn {l : List (AddEvent ι × Adding ι)} (hr : Run (Step val) (start initial) l) :
    (steps (start initial) l).countP (fun x => x.1.moves x.2.1) ≤
      Fintype.card ι * (Fintype.card ι + 1) ∧
    ∀ i, (∀ expected, (final (start initial) l).pcs i ≠ .returned expected) →
      ∃ e t, (e = .load i ∨ e = .exchange i false) ∧
        Step val (final (start initial) l) e t := by
  have hm : ∀ (s : Adding ι) e t, True → True → Step val s e t →
      t.allStepsLeft + (s.moves e).toNat ≤ s.allStepsLeft :=
    fun _ _ _ _ _ hst => step_stepsLeft hst
  have hcount := hr.countP_add_le (fun _ _ _ _ _ _ => trivial) hm trivial fun _ _ => trivial
  have hstart : (start initial : Adding ι).allStepsLeft =
      Fintype.card ι * (Fintype.card ι + 1) := by
    simp [allStepsLeft, start, stepsLeft]
  rw [hstart] at hcount
  exact ⟨by omega, fun i hi => exists_step _ i hi⟩

/-- A call that has been overtaken, and has failed for no reason before that. -/
theorem allReturn_overtaken : ∃ l : List (AddEvent Bool × Adding Bool),
    l.map Prod.fst = [.load true, .load false, .exchange false true, .exchange true false,
      .exchange false false] ∧
    (steps (start 0) l).countP (fun x => x.1.moves x.2.1) ≤ 6 ∧
    ∃ e t, (e = .load false ∨ e = .exchange false false) ∧
      Step (fun i : Bool => if i then 5 else 2) (final (start 0) l) e t := by
  obtain ⟨l, hr, hl, hfalse⟩ : ∃ l : List (AddEvent Bool × Adding Bool),
      Run (Step fun i : Bool => if i then 5 else 2) (start 0) l ∧
      l.map Prod.fst = [.load true, .load false, .exchange false true, .exchange true false,
        .exchange false false] ∧ (final (start 0) l).pcs false = .exchanging 5 7 :=
    ⟨[(.load true, _), (.load false, _), (.exchange false true, _), (.exchange true false, _),
      (.exchange false false, _)],
      .cons rfl (.cons rfl (.cons rfl (.cons rfl (.cons rfl (.nil _))))), rfl, rfl⟩
  refine ⟨l, hl, (allReturn hr).1, (allReturn hr).2 false fun expected h => ?_⟩
  rw [hfalse] at h
  cases h

end Adding

/-! ## `LazyCell` -/

namespace LazyCell

variable {ι T : Type} [DecidableEq ι] {s t : LazyCell ι T} {e : CellEvent ι T}

/-- A new call, or the end of the cell. -/
def Begins : CellEvent ι T → Prop
  | .force _ | .get _ | .getMut | .forceMut | .intoInner | .drop => True
  | _ => False

/-- The step is not one of the loop in `init` that finds the function still running. -/
def moves (s : LazyCell ι T) : CellEvent ι T → Bool
  | .spin _ => s.state != .initInProgress
  | _ => true

/-- The function returns or panics, which is up to it. -/
def RunEnds : CellEvent ι T → Prop
  | .runReturns _ _ | .runPanics _ | .forceMutReturns _ | .forceMutPanics => True
  | _ => False

/-- How many steps a call has to do, waiting apart. -/
def stepsLeft : Pc T → ℕ
  | .idle => 0
  | .reading _ => 1
  | .poisoning => 1
  | .storing => 2
  | .spinning => 2
  | .writing _ => 3
  | .running => 4
  | .taking => 5
  | .exchanging => 6

variable [Fintype ι]

/-- The steps that all the threads together have still to take. -/
def allStepsLeft (s : LazyCell ι T) : ℕ :=
  ∑ i, stepsLeft (s.pcs i) + if s.access = .exclusive then 1 else 0

theorem goTo_stepsLeft {u : LazyCell ι T} {i : ι} {pc pc' : Pc T} (hi : s.pcs i = pc)
    (hpcs : u.pcs = Function.update s.pcs i pc') (haccess : u.access = s.access)
    (hlt : stepsLeft pc' < stepsLeft pc) : u.allStepsLeft + 1 ≤ s.allStepsLeft := by
  have hsum : ∑ j, stepsLeft (u.pcs j) + 1 ≤ ∑ j, stepsLeft (s.pcs j) := by
    refine sum_succ_le_of_lt (i := i) ?_ fun j hj => ?_
    · rw [hpcs, Function.update_self, hi]
      exact hlt
    · rw [hpcs, Function.update_of_ne hj]
  unfold allStepsLeft
  rw [haccess]
  omega

omit [DecidableEq ι] in
theorem allStepsLeft_le (s : LazyCell ι T) : s.allStepsLeft ≤ 6 * Fintype.card ι + 1 := by
  have hpc : ∀ pc : Pc T, stepsLeft pc ≤ 6 := by
    intro pc
    cases pc <;> simp [stepsLeft]
  have hsum : ∑ i, stepsLeft (s.pcs i) ≤ Fintype.card ι * 6 := by
    rw [← Finset.card_univ, ← smul_eq_mul]
    exact Finset.sum_le_card_nsmul _ _ _ fun i _ => hpc _
  unfold allStepsLeft
  split <;> omega

omit [DecidableEq ι] in
/-- `init_mut` is done. -/
theorem exclusive_stepsLeft {u : LazyCell ι T} (hpcs : u.pcs = s.pcs)
    (haccess : s.access = .exclusive) (hshared : u.access = .shared) :
    u.allStepsLeft + 1 ≤ s.allStepsLeft := by
  unfold allStepsLeft
  rw [hpcs, haccess, hshared]
  simp

/-- **A step of a call that does not wait in vain brings it nearer to its end.** -/
theorem step_stepsLeft (hbegins : ¬ Begins e) (hst : Step s e t) :
    t.allStepsLeft + (s.moves e).toNat ≤ s.allStepsLeft := by
  obtain ⟨he, rfl⟩ := hst
  cases e with
  | force i | get i | getMut | forceMut | intoInner | drop => exact absurd trivial hbegins
  | exchange i =>
    have hi : s.pcs i = .exchanging := he
    cases hs : s.state <;> simp only [apply, hs] <;>
      exact goTo_stepsLeft hi rfl rfl (by simp [stepsLeft])
  | take i => exact goTo_stepsLeft he rfl rfl (by simp [stepsLeft])
  | runReturns i value => exact goTo_stepsLeft he rfl rfl (by simp [stepsLeft])
  | runPanics i => exact goTo_stepsLeft he rfl rfl (by simp [stepsLeft])
  | write i =>
    obtain ⟨value, hi⟩ := he
    simp only [apply, hi]
    exact goTo_stepsLeft hi rfl rfl (by simp [stepsLeft])
  | store i => exact goTo_stepsLeft he rfl rfl (by simp [stepsLeft])
  | poison i => exact goTo_stepsLeft he rfl rfl (by simp [stepsLeft])
  | spin i =>
    have hi : s.pcs i = .spinning := he
    cases hs : s.state with
    | initInProgress => simp [apply, moves, hs]
    | uninit | init | poisoned =>
      simp only [apply, hs]
      refine (Nat.add_le_add_left (Bool.toNat_le _) _).trans ?_
      exact goTo_stepsLeft hi rfl rfl (by simp [stepsLeft])
  | inner i =>
    obtain ⟨force, hi⟩ := he
    cases force <;> simp only [apply, hi] <;>
      exact goTo_stepsLeft hi rfl rfl (by simp [stepsLeft])
  | forceMutReturns value => exact exclusive_stepsLeft rfl he rfl
  | forceMutPanics => exact exclusive_stepsLeft rfl he rfl

/-! ### No call is stuck -/

/-- A step of a call that is under way, other than waiting and what is up to the function. -/
def GoesOn (s : LazyCell ι T) (e : CellEvent ι T) : Prop :=
  ¬ Begins e ∧ ¬ RunEnds e ∧ s.moves e = true ∧ s.Enabled e

omit [Fintype ι] [DecidableEq ι] in
/-- The call that others wait for can go on, if the function is not running. -/
theorem Owned.exists_goesOn {i : ι} (h : s.Owned (s.pcs i)) (hrun : s.pcs i ≠ .running) :
    ∃ e, s.GoesOn e := by
  cases hi : s.pcs i with
  | taking => exact ⟨.take i, id, id, rfl, hi⟩
  | writing value => exact ⟨.write i, id, id, rfl, value, hi⟩
  | storing => exact ⟨.store i, id, id, rfl, hi⟩
  | poisoning => exact ⟨.poison i, id, id, rfl, hi⟩
  | running => exact absurd hi hrun
  | idle | exchanging | spinning | reading _ =>
    rw [hi] at h
    exact h.elim

omit [Fintype ι] in
theorem Reachable.exists_goesOn (h : s.Reachable) (hrun : ∀ i, s.pcs i ≠ .running) {i : ι}
    (hi : s.pcs i ≠ .idle) : ∃ e, s.GoesOn e := by
  cases hpc : s.pcs i with
  | idle => exact absurd hpc hi
  | running => exact absurd hpc (hrun i)
  | exchanging => exact ⟨.exchange i, id, id, rfl, hpc⟩
  | taking => exact ⟨.take i, id, id, rfl, hpc⟩
  | writing value => exact ⟨.write i, id, id, rfl, value, hpc⟩
  | storing => exact ⟨.store i, id, id, rfl, hpc⟩
  | poisoning => exact ⟨.poison i, id, id, rfl, hpc⟩
  | reading force => exact ⟨.inner i, id, id, rfl, force, hpc⟩
  | spinning =>
    by_cases hs : s.state = .initInProgress
    · have hshared := h.invariant.shared hi
      obtain ⟨j, hj⟩ := (h.invariant.live (by simp [hshared])).1.at_initInProgress hs
      exact Owned.exists_goesOn hj (hrun j)
    · exact ⟨.spin i, id, id, by simpa [moves] using hs, hpc⟩

/-- **Every call of `force` and `get` returns when the function does.**  In any run in which no new
call begins, all but the steps in which a call waits in vain are a bounded number; and as long as a
call is under way and the function is not running, such a step can be taken. -/
theorem Reachable.forcesReturn {l : List (CellEvent ι T × LazyCell ι T)} (h : s.Reachable)
    (hr : Run Step s l) (hbegins : ∀ p ∈ l, ¬ Begins p.1) :
    (steps s l).countP (fun x => x.1.moves x.2.1) ≤ 6 * Fintype.card ι + 1 ∧
    ((∀ i, (final s l).pcs i ≠ .running) → ∀ i, (final s l).pcs i ≠ .idle →
      ∃ e, (final s l).GoesOn e) := by
  have hm : ∀ (s : LazyCell ι T) e t, True → ¬ Begins e → Step s e t →
      t.allStepsLeft + (s.moves e).toNat ≤ s.allStepsLeft :=
    fun _ _ _ _ hno hst => step_stepsLeft hno hst
  have hcount := hr.countP_add_le (fun _ _ _ _ _ _ => trivial) hm trivial
    fun _ hx => hbegins _ (snd_mem_of_mem_steps hx)
  have hle := s.allStepsLeft_le
  refine ⟨by omega, fun hrun i hi => ?_⟩
  have hfinal : (final s l).Reachable := Runs.Reachable.run h hr _ (final_mem_states s l)
  exact Reachable.exists_goesOn hfinal hrun hi

/-- One call waits in vain until the function has returned in the other. -/
theorem forcesReturn_race : ∃ l : List (CellEvent Bool ℕ × LazyCell Bool ℕ),
    l.map Prod.fst = [.exchange true, .exchange false, .spin false, .take true, .spin false,
      .runReturns true 7] ∧
    (steps ((LazyCell.new.apply (.force true)).apply (.force false)) l).countP
      (fun x => x.1.moves x.2.1) ≤ 13 ∧
    ∃ e, (final ((LazyCell.new.apply (.force true)).apply (.force false)) l).GoesOn e := by
  have h : (LazyCell.new : LazyCell Bool ℕ).Reachable := .init rfl
  have h := h.step (.force true) ⟨rfl, rfl⟩
  have h := h.step (.force false) ⟨rfl, rfl⟩
  obtain ⟨l, hr, hl, hend⟩ : ∃ l : List (CellEvent Bool ℕ × LazyCell Bool ℕ),
      Run Step ((LazyCell.new.apply (.force true)).apply (.force false)) l ∧
      l.map Prod.fst = [.exchange true, .exchange false, .spin false, .take true, .spin false,
        .runReturns true 7] ∧
      (final ((LazyCell.new.apply (.force true)).apply (.force false)) l).pcs =
        fun i => if i then .writing 7 else .spinning := by
    refine ⟨[(.exchange true, _), (.exchange false, _), (.spin false, _), (.take true, _),
        (.spin false, _), (.runReturns true 7, _)],
      .cons ⟨rfl, rfl⟩ (.cons ⟨rfl, rfl⟩ (.cons ⟨rfl, rfl⟩ (.cons ⟨rfl, rfl⟩
        (.cons ⟨rfl, rfl⟩ (.cons ⟨rfl, rfl⟩ (.nil _)))))), rfl, ?_⟩
    funext i
    cases i <;> rfl
  have hbegins : ∀ p ∈ l, ¬ Begins p.1 := by
    intro p hp
    have hmem := List.mem_map_of_mem (f := Prod.fst) hp
    rw [hl] at hmem
    simp only [List.mem_cons, List.not_mem_nil, or_false] at hmem
    rcases hmem with he | he | he | he | he | he <;> rw [he] <;> exact id
  refine ⟨l, hl, (h.forcesReturn hr hbegins).1, (h.forcesReturn hr hbegins).2 ?_ false ?_⟩
  · intro i
    rw [hend]
    cases i <;> simp
  · rw [hend]
    simp

end LazyCell

end Hamerkop
