import Hamerkop.Executor.Scheduling

/-!
# Waiting while tasks are queued

`turn` asks `io_uring_enter` to wait for an event only when no task is queued.  It
decides so once; `submit` may then go round its loop several times, and each time
processes the events that have arrived.

`World.waitsIdle_iff` says when no call waits while a task is queued: in a run this
is so in every state, exactly if no retry of a call that waits finds an event whose
entry names a task.  A retry that does queues the task and waits all the same
(`busyTurn_not_waitsIdle`).
-/

namespace Hamerkop

open Runs

namespace IOContext

/-- The event wakes a task: its entry names one. -/
def Rouses (ctx : IOContext) (cqe : Cqe) : Prop :=
  ∃ ce, ctx.completions.get cqe.userData.toNat = some ce ∧ ce.task ≠ NO_TASK_SENTINEL ∧
    ce.task ≠ DEAD_TASK_SENTINEL

variable {ctx : IOContext} {cqe : Cqe}

theorem woken_of_rouses (h : ctx.Rouses cqe) :
    ∃ task, (takeCqe pushWoken ((), ctx) cqe).2.woken = ctx.woken ++ [task] := by
  obtain ⟨ce, hce, hno, hdead⟩ := h
  refine ⟨ce.task, ?_⟩
  simp only [takeCqe, processCqe_eq pushWoken () hce, if_neg hno, if_neg hdead]
  rfl

/-- An event that wakes no task leaves it to the others whether they do. -/
theorem takeCqe_of_not_rouses (h : ¬ ctx.Rouses cqe) :
    (takeCqe pushWoken ((), ctx) cqe).2.woken = ctx.woken ∧
      ∀ cqe', (takeCqe pushWoken ((), ctx) cqe).2.Rouses cqe' ↔ ctx.Rouses cqe' := by
  cases hce : ctx.completions.get cqe.userData.toNat with
  | none =>
    simp only [takeCqe, processCqe, hce]
    exact ⟨trivial, fun _ => Iff.rfl⟩
  | some ce =>
    -- the entry keeps its task, or is removed, and names none in either case
    have hquiet : ce.task = NO_TASK_SENTINEL ∨ ce.task = DEAD_TASK_SENTINEL := by
      by_contra hnot
      rw [not_or] at hnot
      exact h ⟨ce, hce, hnot⟩
    have hother : ∀ {ctx' : IOContext} {x : Option CompletionEvent},
        (∀ ce', x = some ce' → ce'.task = ce.task) →
        ctx'.completions.get = Function.update ctx.completions.get cqe.userData.toNat x →
        ∀ cqe', ctx'.Rouses cqe' ↔ ctx.Rouses cqe' := by
      intro ctx' x hx hget cqe'
      rw [Rouses, Rouses, hget]
      by_cases hid : cqe'.userData.toNat = cqe.userData.toNat
      · rw [hid, Function.update_self, hce]
        constructor
        · rintro ⟨ce', hce', hno, hdead⟩
          rw [hx ce' hce'] at hno hdead
          exact (hquiet.elim hno hdead).elim
        · rintro ⟨ce', hce', hno, hdead⟩
          obtain rfl := Option.some.inj hce'
          exact (hquiet.elim hno hdead).elim
      · rw [Function.update_of_ne hid]
    have hkept :
        (ctx.completions.modify cqe.userData.toNat fun _ => { ce with cqe := some cqe }).get =
          Function.update ctx.completions.get cqe.userData.toNat
            (some { ce with cqe := some cqe }) := by
      rw [Slots.get_modify, hce, Option.map_some]
    by_cases hno : ce.task = NO_TASK_SENTINEL
    · simp only [takeCqe, processCqe_eq pushWoken () hce, if_pos hno]
      refine ⟨trivial, hother (x := some { ce with cqe := some cqe }) (fun ce' hce' => ?_) hkept⟩
      exact Option.some.inj hce' ▸ rfl
    · have hdead := hquiet.resolve_left hno
      simp only [takeCqe, processCqe_eq pushWoken () hce, if_neg hno, if_pos hdead]
      refine ⟨trivial, hother (x := none) (by simp) ?_⟩
      rw [Slots.get_remove, hkept, Function.update_idem]

/-- **Processing events queues no task exactly if none of them wakes one.** -/
theorem woken_eq_nil_iff (cqes : List Cqe) (ctx : IOContext) :
    (cqes.foldl (takeCqe pushWoken) ((), ctx)).2.woken = [] ↔
      ctx.woken = [] ∧ ∀ cqe ∈ cqes, ¬ ctx.Rouses cqe := by
  induction cqes generalizing ctx with
  | nil => simp
  | cons cqe cqes ih =>
    rw [List.foldl_cons, show takeCqe pushWoken ((), ctx) cqe =
      ((), (takeCqe pushWoken ((), ctx) cqe).2) from rfl, ih, List.forall_mem_cons]
    by_cases hrouses : ctx.Rouses cqe
    · obtain ⟨task, htask⟩ := woken_of_rouses hrouses
      simp [htask, hrouses]
    · obtain ⟨hwoken, hothers⟩ := takeCqe_of_not_rouses hrouses
      simp only [hwoken, hothers, hrouses, not_false_eq_true, true_and]

end IOContext

namespace World

variable {hs : Hashes} {w w' : World} {e : Event} {out : Out}

/-- When `turn` calls `io_uring_enter` to wait for an event, no task is queued. -/
def WaitsIdle (w : World) : Prop :=
  w.call = .none → ∀ waitFor args, w.phase = .submitting waitFor →
    w.ctx.sq.enterCall waitFor = some args → 1 ≤ args.minComplete →
      w.rt.runqueue = [] ∧ w.ctx.woken = []

/-- A call that was to wait and returns busy finds no event that wakes a task. -/
def RetriesIdle (w : World) : Event → Prop
  | .enter (.error errno) => w.call = .none → ∀ waitFor, w.phase = .submitting waitFor →
      waitFor ≠ 0 → IOContext.isBusy errno = true → ∀ p ∈ w.ledger.pending, ¬ w.ctx.Rouses p.2
  | _ => True

/-- `turn` is in `submit`, or about to call it. -/
def InSubmit (w : World) : Prop := w.phase = .choosing ∨ ∃ waitFor, w.phase = .submitting waitFor

/-- In `submit` no task is in `woken`, and none in the runqueue if it is to wait. -/
structure SubmitsIdle (w : World) : Prop where
  call : w.InSubmit → w.call = .none
  choosing : w.phase = .choosing → w.ctx.woken = []
  submitting : ∀ waitFor, w.phase = .submitting waitFor → waitFor ≠ 0 →
    w.rt.runqueue = [] ∧ w.ctx.woken = []

theorem minComplete_of_enterCall {q : SubmissionQueue} {waitFor : UInt32} {args : EnterArgs}
    (h : q.enterCall waitFor = some args) : args.minComplete = waitFor := by
  simp only [SubmissionQueue.enterCall, Option.ite_none_right_eq_some, Option.some.injEq] at h
  rw [← h.2]

theorem SubmitsIdle.waitsIdle (h : w.SubmitsIdle) : w.WaitsIdle := by
  intro _ waitFor args hphase hcall hmin
  rw [minComplete_of_enterCall hcall] at hmin
  refine h.submitting waitFor hphase ?_
  rintro rfl
  exact absurd hmin (by decide)

/-- Nothing but `submit` goes on. -/
theorem SubmitsIdle.of_phase (h : ¬ w.InSubmit) : w.SubmitsIdle :=
  ⟨fun hin => absurd hin h, fun hphase => absurd (.inl hphase) h,
    fun waitFor hphase => absurd (.inr ⟨waitFor, hphase⟩) h⟩

theorem SubmitsIdle.congr (h : w.SubmitsIdle) (hcall : w'.call = w.call)
    (hphase : w'.phase = w.phase)
    (hrunqueue : w'.rt.runqueue = w.rt.runqueue) (hwoken : w'.ctx.woken = w.ctx.woken) :
    w'.SubmitsIdle := by
  refine ⟨fun hin => ?_, fun hp => ?_, fun waitFor hp => ?_⟩
  · rw [InSubmit, hphase] at hin
    exact hcall.trans (h.call hin)
  · rw [hwoken]
    exact h.choosing (hphase.symm.trans hp)
  · rw [hrunqueue, hwoken]
    exact h.submitting waitFor (hphase.symm.trans hp)

theorem SubmitsIdle.runtimeStep (h : w.SubmitsIdle) (hst : RuntimeStep hs w e w') :
    w'.SubmitsIdle := by
  cases hst with
  | handleSpawn => exact h.congr rfl rfl rfl rfl
  | spawn hphase _ _ | blockOn hphase _ _ =>
    exact .of_phase (by simp [InSubmit, hphase])
  | turnSubmits hnone hphase hwants hrt hsub =>
    refine ⟨fun _ => hnone, fun _ => ?_, nofun⟩
    exact congrArg IOContext.woken (Runtime.collect_ctx hrt)
  | chooseWait hphase =>
    refine ⟨fun _ => h.call (.inl hphase), nofun, fun waitFor hwait hne => ⟨?_, h.choosing hphase⟩⟩
    obtain rfl := Phase.submitting.inj hwait
    simp only [Runtime.waitFor] at hne
    split at hne
    · exact absurd rfl hne
    · rename_i hidle
      have hempty : w.rt.ctx.cq.hasNext = false ∧ w.rt.runqueue = [] := by simpa using hidle
      exact hempty.2
  | _ => exact .of_phase (by simp [InSubmit, drained])

/-- Another round of the loop in `submit`. -/
theorem Consistent.retry_woken (h : w.Consistent) {waitFor : UInt32} {errno : Errno}
    {ctx : IOContext} (hsub : w.ctx.submitOnce waitFor (.error errno) = .ok (.retry, ctx)) :
    ctx.woken = [] ↔ w.ctx.woken = [] ∧ ∀ p ∈ w.ledger.pending, ¬ w.ctx.Rouses p.2 := by
  obtain ⟨k, hk⟩ := h.tables.posts.ring
  rcases IOContext.submitOnce_cases hk waitFor (.error errno) with
    ⟨sq, res, hdone, -⟩ | ⟨-, hretry⟩
  · cases hsub.symm.trans hdone
  · obtain ⟨-, rfl⟩ := Prod.mk.inj (Except.ok.inj (hsub.symm.trans hretry))
    rw [IOContext.woken_eq_nil_iff, List.forall_mem_map]

/-- In `submit` no other code runs. -/
theorem step_of_inSubmit (hin : w.InSubmit) (hw : w.step hs e = some (out, w')) :
    (w'.call = w.call ∧ w'.phase = w.phase ∧ w'.rt.runqueue = w.rt.runqueue ∧
      w'.ctx.woken = w.ctx.woken) ∨ e = .chooseWait ∨ ∃ ret, e = .enter ret := by
  have huser : w.userCode = false := by
    rw [userCode, Bool.and_eq_false_iff]
    rcases hin with hphase | ⟨waitFor, hphase⟩ <;> simp [hphase]
  have hidle : w.isIdle = false := by
    rw [isIdle, Bool.and_eq_false_iff]
    rcases hin with hphase | ⟨waitFor, hphase⟩ <;> simp [hphase]
  cases e with
  | chooseWait => exact .inr (.inl rfl)
  | enter ret => exact .inr (.inr ⟨ret, rfl⟩)
  | consume count =>
    simp only [World.step, World.consume, Option.ite_none_right_eq_some, Option.some.injEq,
      Prod.mk.injEq] at hw
    obtain ⟨-, -, rfl⟩ := hw
    exact .inl ⟨rfl, rfl, rfl, rfl⟩
  | complete g res flags =>
    obtain ⟨ledger, -, hw⟩ := Option.map_eq_some_iff.1 hw
    obtain ⟨-, rfl⟩ := Prod.mk.inj hw
    exact .inl ⟨rfl, rfl, rfl, rfl⟩
  | post g =>
    simp only [World.step, World.post] at hw
    split at hw
    · simp only [Option.ite_none_right_eq_some, Option.some.injEq, Prod.mk.injEq] at hw
      obtain ⟨-, -, rfl⟩ := hw
      exact .inl ⟨rfl, rfl, rfl, rfl⟩
    · cases hw
  | next | polled | turnOk | unwound =>
    have hw := (Option.ite_none_right_eq_some.1 hw).2
    rcases hin with hphase | ⟨waitFor, hphase⟩ <;>
      simp [World.next, World.polled, World.turnOk, World.unwound, hphase] at hw
  | _ =>
    simp [World.step, huser, hidle] at hw

theorem enter_cases {ret : Except Errno UInt32} (hc : w.Consistent) (hcall : w.call = .none)
    (hw : w.step hs (.enter ret) = some (out, w')) :
    ∃ waitFor, w.phase = .submitting waitFor ∧ ((∃ errno ctx, ret = .error errno ∧
      IOContext.isBusy errno = true ∧ w.ctx.submitOnce waitFor ret = .ok (.retry, ctx) ∧
        w' = w.retry ctx) ∨ RuntimeStep hs w (.enter ret) w') := by
  simp only [World.step, enter, hcall] at hw
  split at hw
  · rename_i waitFor hphase
    exact ⟨waitFor, hphase, enterTurn_cases hc hcall hphase (Option.some.inj hw)⟩
  · cases hw

/-- **A step whose retries are idle keeps `submit` idle.** -/
theorem SubmitsIdle.step (h : w.SubmitsIdle) (hc : w.Consistent) (he : w.RetriesIdle e)
    (hw : w.step hs e = some (out, w')) : w'.SubmitsIdle := by
  by_cases hin : w.InSubmit
  · rcases step_of_inSubmit hin hw with ⟨hcall, hphase, hrunqueue, hwoken⟩ | rfl | ⟨ret, rfl⟩
    · exact h.congr hcall hphase hrunqueue hwoken
    · simp only [World.step] at hw
      split at hw
      · rename_i hphase
        obtain ⟨-, rfl⟩ := Prod.mk.inj (Option.some.inj hw)
        exact h.runtimeStep (RuntimeStep.chooseWait hphase : RuntimeStep hs w _ _)
      · cases hw
    · have hcall := h.call hin
      obtain ⟨waitFor, hphase, ⟨errno, ctx, rfl, hbusy, hsub, rfl⟩ | hrun⟩ :=
        enter_cases hc hcall hw
      · refine ⟨fun _ => hcall, fun hp => ?_, fun waitFor' hp hne => ?_⟩
        · cases hphase.symm.trans hp
        · obtain rfl := Phase.submitting.inj (hphase.symm.trans hp)
          obtain ⟨hrunqueue, hwoken⟩ := h.submitting waitFor hphase hne
          exact ⟨hrunqueue,
            (hc.retry_woken hsub).2 ⟨hwoken, he hcall waitFor hphase hne hbusy⟩⟩
      · exact h.runtimeStep hrun
  · rcases hc.step_cases hw with hdoes | hrun
    · refine .of_phase ?_
      rwa [InSubmit, (hdoes.quiet id).phase]
    · exact h.runtimeStep hrun

/-- A retry that wakes a task waits all the same. -/
theorem Consistent.not_waitsIdle (hc : w.Consistent) (he : ¬ w.RetriesIdle e)
    (hw : w.step hs e = some (out, w')) : ¬ w'.WaitsIdle := by
  intro hidle
  cases e with
  | enter ret =>
    cases ret with
    | ok count => exact he trivial
    | error errno =>
      simp only [RetriesIdle, not_forall, not_not] at he
      obtain ⟨hcall, waitFor, hphase, hne, hbusy, p, hp, hrouses⟩ := he
      rcases hc.submitOnce (P := Act.Quiet) (fun _ => rfl) waitFor (.error errno) with
        ⟨_, _, -, -, -, hfatal⟩ | ⟨ctx, hsub, -⟩
      · exact absurd hbusy (by simp [hfatal errno rfl hne])
      · simp only [World.step, enter, hcall, hphase, enterTurn, hsub] at hw
        obtain ⟨-, rfl⟩ := Prod.mk.inj (Option.some.inj hw)
        obtain ⟨args, hargs⟩ := ctx.sq.enterCall_of_ne_zero hne
        have hmin : 1 ≤ args.minComplete := by
          rw [minComplete_of_enterCall hargs]
          exact Nat.one_le_iff_ne_zero.2 fun h0 => hne (UInt32.toNat_inj.1 h0)
        have hwoken := (hidle hcall waitFor args hphase hargs hmin).2
        exact ((hc.retry_woken hsub).1 hwoken).2 p hp hrouses
  | _ => exact he trivial

theorem Init.submitsIdle (h : w.Init) : w.SubmitsIdle := .of_phase (by simp [InSubmit, h.phase])

/-- **`turn` waits only while no task is queued, exactly if its retries wake none**: in a run from
`Runtime::new`, every `io_uring_enter` that `turn` makes to wait for an event is made with the
runqueue and `woken` empty, iff no call of it that was to wait has returned busy with an event
there that wakes a task. -/
theorem waitsIdle_iff {l : List (Event × World)} (h0 : w.Init) (hr : Run (Step hs) w l) :
    (∀ u ∈ states w l, u.WaitsIdle) ↔ ∀ x ∈ steps w l, x.1.RetriesIdle x.2.1 := by
  refine hr.forall_states_iff (I := fun u => Reachable hs u ∧ u.SubmitsIdle) ?_
    (fun u hu => hu.2.waitsIdle) ?_ ⟨.init h0, h0.submitsIdle⟩
  · rintro u e v ⟨hu, hidle⟩ he ⟨out, hw⟩
    exact ⟨hu.tail ⟨out, hw⟩, hidle.step (Reachable.consistent hu) he hw⟩
  · rintro u e v ⟨hu, -⟩ he ⟨out, hw⟩
    exact (Reachable.consistent hu).not_waitsIdle he hw

/-! ## A call that waits, returns busy, and waits again -/

/-- A task waits for its event, which has not arrived when `turn` decides to wait. -/
def waitingTurn : List Event :=
  [.openSession, .request (.submitSqe id), .submit, .spawn, .turn, .chooseWait, .enter (.ok 1),
    .next, .poll 0, .polled .pending, .turnOk, .turn, .chooseWait]

theorem waitingTurn_waitsIdle :
    Always WaitsIdle emptyWorld (play (next? ⟨id, id⟩) emptyWorld waitingTurn) := by
  refine (waitsIdle_iff emptyWorld_init (run_play _ _ _)).2 fun x hx => ?_
  have hmem := fst_mem_of_mem_play (snd_mem_of_mem_steps hx)
  obtain ⟨u, e, v⟩ := x
  cases e with
  | enter ret =>
    cases ret with
    | ok count => trivial
    | error errno => simp [waitingTurn] at hmem
  | _ => trivial

/-- The event arrives, and `io_uring_enter` returns `EBUSY`. -/
def busyTurn : List Event :=
  waitingTurn ++ [.complete 0 0 0, .post 0, .enter (.error EBUSY)]

/-- **`turn` may wait while a task is queued.** -/
theorem busyTurn_not_waitsIdle :
    ¬ ∀ (hs : Hashes) (w : World), Reachable hs w → w.WaitsIdle := by
  intro h
  have hr : emptyWorld.runs ⟨id, id⟩ busyTurn = some _ := rfl
  have hwoken : (emptyWorld.runs ⟨id, id⟩ busyTurn).map (fun u => u.ctx.woken) = some [0] := by
    decide +kernel
  rw [hr] at hwoken
  have hidle := h ⟨id, id⟩ _ (.runs (.init emptyWorld_init) hr) rfl 1
  obtain ⟨args, hargs⟩ := SubmissionQueue.enterCall_of_ne_zero _ (by decide : (1 : UInt32) ≠ 0)
  have hmin : 1 ≤ args.minComplete := by
    rw [minComplete_of_enterCall hargs]
    decide
  exact List.cons_ne_nil 0 [] ((Option.some.inj hwoken).symm.trans (hidle args rfl hargs hmin).2)

end World

end Hamerkop
