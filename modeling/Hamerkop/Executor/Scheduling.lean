import Hamerkop.Executor.Steps

/-!
# What the runtime schedules

The steps of the machine as far as the table of tasks, the runqueue and the lists
of woken and created tasks go.  Everything that is not done by the runtime itself
is `Quiet`: it may queue tasks, in `woken`, and leaves the rest alone.  What the
runtime does is a `RuntimeStep`, one for each of its branches.

`World.Consistent.step_cases`: a step is one or the other.  With it
`World.Reachable.tasksOk` says that no task is ever in two places.
-/

namespace Hamerkop

open LinkedSubmitter

/-- A move that the runtime does not make. -/
def Act.Quiet : Act → Prop
  | .runtime => False
  | .process intoRunqueue _ => intoRunqueue = false
  | _ => True

namespace World

variable {hs : Hashes} {w w' : World} {e : Event} {out : Out} {P Q : Act → Prop}

/-! ## What is not done by the runtime -/

/-- The runtime is where it was, and tasks were at most queued. -/
structure Quiet (w w' : World) : Prop where
  futures : w'.rt.futures = w.rt.futures
  created : w'.ctx.created = w.ctx.created
  runqueue : w.rt.runqueue <+: w'.rt.runqueue
  woken : w.ctx.woken <+: w'.ctx.woken
  phase : w'.phase = w.phase
  frame : w'.frame = w.frame
  nextTask : w'.nextTask = w.nextTask
  clock : w'.ledger.clock = w.ledger.clock
  lastPoll : w'.ledger.lastPoll = w.ledger.lastPoll

theorem Quiet.refl (w : World) : Quiet w w :=
  ⟨rfl, rfl, List.prefix_rfl, List.prefix_rfl, rfl, rfl, rfl, rfl, rfl⟩

theorem Quiet.trans {w₁ : World} (h : Quiet w w₁) (h' : Quiet w₁ w') : Quiet w w' where
  futures := h'.futures.trans h.futures
  created := h'.created.trans h.created
  runqueue := h.runqueue.trans h'.runqueue
  woken := h.woken.trans h'.woken
  phase := h'.phase.trans h.phase
  frame := h'.frame.trans h.frame
  nextTask := h'.nextTask.trans h.nextTask
  clock := h'.clock.trans h.clock
  lastPoll := h'.lastPoll.trans h.lastPoll

/-- A change of the context that has nothing to do with tasks, and one of the ledger. -/
theorem Quiet.of_eq (hrt : w'.rt.futures = w.rt.futures ∧ w'.rt.runqueue = w.rt.runqueue)
    (hctx : w'.ctx.created = w.ctx.created ∧ w'.ctx.woken = w.ctx.woken)
    (hw : w'.phase = w.phase ∧ w'.frame = w.frame ∧ w'.nextTask = w.nextTask)
    (hl : w'.ledger.clock = w.ledger.clock ∧ w'.ledger.lastPoll = w.ledger.lastPoll) :
    Quiet w w' where
  futures := hrt.1
  created := hctx.1
  runqueue := hrt.2 ▸ List.prefix_rfl
  woken := hctx.2 ▸ List.prefix_rfl
  phase := hw.1
  frame := hw.2.1
  nextTask := hw.2.2
  clock := hl.1
  lastPoll := hl.2

theorem Quiet.of_move {a : Act} (ha : a ≠ .runtime) (hm : Move w a w') : Quiet w w' := by
  cases hm with
  | runtime _ => exact absurd rfl ha
  | complete hg hl =>
    obtain ⟨f, held, bufs, -, -, -, rfl⟩ := Ledger.complete_eq_some hl
    exact .of_eq ⟨rfl, rfl⟩ ⟨rfl, rfl⟩ ⟨rfl, rfl, rfl⟩ ⟨rfl, rfl⟩
  | newFuture hcall hnew =>
    obtain ⟨⟨i, completions⟩, -, hpair⟩ := Option.map_eq_some_iff.1 hnew
    obtain ⟨rfl, rfl⟩ := Prod.mk.inj hpair
    exact .of_eq ⟨rfl, rfl⟩ ⟨rfl, rfl⟩ ⟨rfl, rfl, rfl⟩ ⟨rfl, rfl⟩
  | request hcall hs hreq hnew =>
    obtain ⟨⟨i, completions⟩, -, hpair⟩ := Option.map_eq_some_iff.1 hnew
    obtain ⟨rfl, rfl⟩ := Prod.mk.inj hpair
    rcases beginRequest_started hreq with ⟨-, rfl⟩ | ⟨_, _, _, buffers, -, -, -, rfl, -⟩
    · exact .of_eq ⟨rfl, rfl⟩ ⟨rfl, rfl⟩ ⟨rfl, rfl, rfl⟩ ⟨rfl, rfl⟩
    · exact .of_eq ⟨rfl, rfl⟩ ⟨rfl, rfl⟩ ⟨rfl, rfl, rfl⟩ ⟨rfl, rfl⟩
  | fill hcall hs hg hfill =>
    obtain ⟨sq, completions, -, rfl, -⟩ := fillSlot_eq_some hfill
    exact .of_eq ⟨rfl, rfl⟩ ⟨rfl, rfl⟩ ⟨rfl, rfl, rfl⟩ ⟨rfl, rfl⟩
  | publish hs hpub queued =>
    have hl := Ledger.publish_eq w.ledger
    exact .of_eq ⟨rfl, rfl⟩ ⟨rfl, rfl⟩ ⟨rfl, rfl, rfl⟩
      ⟨(congrArg Ledger.clock (hl _) :), (congrArg Ledger.lastPoll (hl _) :)⟩
  | abandon hs =>
    have hl := Ledger.abandon_eq w.ledger
    exact .of_eq ⟨rfl, rfl⟩ ⟨rfl, rfl⟩ ⟨rfl, rfl, rfl⟩
      ⟨(congrArg Ledger.clock (hl _) :), (congrArg Ledger.lastPoll (hl _) :)⟩
  | resolve hcall hg hlive hkind hce hcqe hget =>
    have hl := Ledger.resolve_eq hg
    exact .of_eq ⟨rfl, rfl⟩ ⟨rfl, rfl⟩ ⟨rfl, rfl, rfl⟩
      ⟨(congrArg Ledger.clock (hl _ _) :), (congrArg Ledger.lastPoll (hl _ _) :)⟩
  | @process g f cqe ce rest intoRunqueue hp hg hst hud hce hok =>
    obtain ⟨completions, heq, -⟩ := takeCqe_eq intoRunqueue hst hud hce hok
    have hl : w.ledger.process (g, cqe) = _ := Ledger.process_eq hg
    rw [heq, hl]
    exact ⟨rfl, rfl, List.prefix_append .., List.prefix_append .., rfl, rfl, rfl, rfl, rfl⟩
  | _ => exact .of_eq ⟨rfl, rfl⟩ ⟨rfl, rfl⟩ ⟨rfl, rfl, rfl⟩ ⟨rfl, rfl⟩

theorem Does.quiet (hP : ¬ P .runtime) (h : Does P w w') : Quiet w w' := by
  induction h with
  | refl => exact .refl w
  | tail _ hm ih =>
    obtain ⟨a, ha, hm⟩ := hm
    exact ih.trans (.of_move (fun h => hP (h ▸ ha)) hm)

/-- Without the runtime no task gets into the runqueue. -/
theorem Does.runqueue (h : Does Act.Quiet w w') : w'.rt.runqueue = w.rt.runqueue := by
  induction h with
  | refl => rfl
  | tail _ hm ih =>
    obtain ⟨a, ha, hm⟩ := hm
    refine Eq.trans ?_ ih
    cases hm with
    | runtime _ => exact ha.elim
    | process intoRunqueue hp hg hst hud hce hok =>
      obtain rfl : intoRunqueue = false := ha
      obtain ⟨completions, heq, -⟩ := takeCqe_eq false hst hud hce hok
      rw [heq]
      exact List.append_nil _
    | _ => rfl

theorem Does.mono (hPQ : ∀ a, P a → Q a) (h : Does P w w') : Does Q w w' :=
  Relation.ReflTransGen.mono (fun _ _ ⟨a, ha, hm⟩ => ⟨a, hPQ a ha, hm⟩) _ _ h

/-! ## What the runtime does -/

/-- The runqueue is drained, and its tasks are about to be polled. -/
def drained (hs : Hashes) (w : World) : World :=
  { w with
    rt := { w.rt with runqueue := [] }
    phase := .polling (dedupPartial hs.hash1 hs.hash2 w.rt.runqueue) none }

/-- Events have been processed, their tasks put into the runqueue. -/
def Processed : World → World → Prop := Does fun a => ∃ g, a = .process true g

theorem Processed.quiet (h : Processed w w') : Quiet w w' := Does.quiet (fun ⟨_, h⟩ => nomatch h) h

theorem Processed.woken (h : Processed w w') : w'.ctx.woken = w.ctx.woken := by
  induction h with
  | refl => rfl
  | tail _ hm ih =>
    obtain ⟨a, ⟨g, rfl⟩, hm⟩ := hm
    cases hm with
    | process intoRunqueue hp hg hst hud hce hok =>
      obtain ⟨completions, heq, -⟩ := takeCqe_eq true hst hud hce hok
      rw [heq]
      exact (List.append_nil _).trans ih

/-- What the runtime does in a step. -/
inductive RuntimeStep (hs : Hashes) (w : World) : Event → World → Prop
  | handleSpawn : RuntimeStep hs w .handleSpawn
      { w.withCtx { w.ctx with created := w.ctx.created ++ [w.nextTask] } with
        nextTask := w.nextTask + 1 }
  | spawn {id : ℕ} {futures : Slots FutureObj} (hphase : w.phase = .idle) (hframe : w.frame = none)
      (hins : w.rt.futures.insert w.nextTask = some (id, futures)) : RuntimeStep hs w .spawn
      { w with
        rt := { w.rt with futures, runqueue := w.rt.runqueue ++ [id] }
        nextTask := w.nextTask + 1 }
  | blockOn {id : ℕ} {futures : Slots FutureObj} (hphase : w.phase = .idle)
      (hframe : w.frame = none)
      (hins : w.rt.futures.insert w.nextTask = some (id, futures)) :
      RuntimeStep hs w .blockOn
      { w with
        rt := { w.rt with futures, runqueue := w.rt.runqueue ++ [id] }
        nextTask := w.nextTask + 1
        frame := some { id, task := w.nextTask, done := false } }
  | turnPanics (hphase : w.phase = .idle) (hsession : w.session.isSome) :
      RuntimeStep hs w .turn { w with phase := .unwinding }
  | turnSubmits {rt : Runtime} (hnone : w.call = .none) (hphase : w.phase = .idle)
      (hwants : w.wantsTurn = true) (hrt : w.rt.collect = some rt) (hsub : rt.needsSubmit = true) :
      RuntimeStep hs w .turn { w with rt, phase := .choosing }
  | turnPolls {rt : Runtime} {w₁ : World} (hphase : w.phase = .idle) (hwants : w.wantsTurn = true)
      (hrt : w.rt.collect = some rt) (hsub : rt.needsSubmit = false)
      (h : Processed { w with rt := { rt with ctx := { rt.ctx with queued := 0 } } } w₁) :
      RuntimeStep hs w .turn (w₁.drained hs)
  | chooseWait (hphase : w.phase = .choosing) :
      RuntimeStep hs w .chooseWait { w with phase := .submitting w.rt.waitFor }
  | submitted {waitFor : UInt32} {ret : Except Errno UInt32} {sq : SubmissionQueue} {w₁ : World}
      (hnone : w.call = .none) (hphase : w.phase = .submitting waitFor)
      (hring : Move w (.ring false) (w.withCtx { w.ctx with sq }))
      (h : Processed (w.withCtx { w.ctx with sq, queued := 0 }) w₁) :
      RuntimeStep hs w (.enter ret) (w₁.drained hs)
  | failed {waitFor : UInt32} {errno : Errno} {args : EnterArgs} (hnone : w.call = .none)
      (hphase : w.phase = .submitting waitFor) (hcall : w.ctx.sq.enterCall waitFor = some args)
      (hfatal : IOContext.isBusy errno = false) :
      RuntimeStep hs w (.enter (.error errno)) { w with phase := .idle, frame := none }
  | skip {id : ℕ} {rest : List ℕ} (hphase : w.phase = .polling (id :: rest) none)
      (hget : w.rt.futures.get id = none) :
      RuntimeStep hs w .next { w with phase := .polling rest none }
  | next {id : ℕ} {rest : List ℕ} {task : FutureObj}
      (hphase : w.phase = .polling (id :: rest) none) (hget : w.rt.futures.get id = some task) :
      RuntimeStep hs w .next
        { w with phase := .polling rest (some (id, task)), ledger := w.ledger.pollTask task }
  | ready {id : ℕ} {rest : List ℕ} {task : FutureObj}
      (hphase : w.phase = .polling rest (some (id, task))) :
      RuntimeStep hs w (.polled .ready)
        { w.removeTask id with
          frame := w.frame.map fun frame =>
            if frame.task = task then { frame with done := true } else frame
          phase := .polling rest none }
  | pending {id : ℕ} {rest : List ℕ} {task : FutureObj}
      (hphase : w.phase = .polling rest (some (id, task))) :
      RuntimeStep hs w (.polled .pending) { w with phase := .polling rest none }
  | panicked {id : ℕ} {rest : List ℕ} {task : FutureObj}
      (hphase : w.phase = .polling rest (some (id, task))) :
      RuntimeStep hs w (.polled .panicked) { w.removeTask id with phase := .unwinding }
  | turnOk (hphase : w.phase = .polling [] none) :
      RuntimeStep hs w .turnOk { w with phase := .idle }
  | cleanUp {frame : Frame} (hphase : w.phase = .unwinding) (hframe : w.frame = some frame) :
      RuntimeStep hs w .unwound { w.removeTask frame.id with frame := none, phase := .idle }
  | unwound (hphase : w.phase = .unwinding) (hframe : w.frame = none) :
      RuntimeStep hs w .unwound { w with phase := .idle }

/-- `turn` from the end of `submit` to the first poll. -/
theorem Consistent.startPolling_eq (h : w.Consistent) (hs : Hashes) :
    ∃ w₁, Processed (w.withCtx { w.ctx with queued := 0 }) w₁ ∧
      w.startPolling hs = (.silent, w₁.drained hs) := by
  have hsame : w.SameTables (w.withCtx { w.ctx with queued := 0 }) :=
    ⟨rfl, rfl, rfl, rfl, rfl, rfl, .inl rfl, h.current⟩
  have h₁ := h.move (.runtime hsame)
  obtain ⟨k, hk⟩ := h₁.tables.posts.ring
  have hcqes := IOContext.processCqes_eq IOContext.pushRunqueue hk w.rt.runqueue
  have hdoes := h₁.processAll (P := fun a => ∃ g, a = .process true g) true fun g => ⟨g, rfl⟩
  rw [foldl_takeCqe_runqueue] at hdoes
  have hctx : (w.withCtx { w.ctx with queued := 0 }).ctx = { w.rt.ctx with queued := 0 } := rfl
  rw [hctx] at hcqes
  refine ⟨_, hdoes, ?_⟩
  simp only [World.startPolling, Runtime.drainRunqueue, hcqes]
  rfl

theorem idle_of_isIdle (h : w.isIdle = true) : w.phase = .idle := by
  rw [isIdle, Bool.and_eq_true] at h
  cases hp : w.phase with
  | idle => rfl
  | _ => simp [hp] at h

theorem call_of_isIdle (h : w.isIdle = true) : w.call = .none := by
  rw [isIdle, Bool.and_eq_true] at h
  cases hc : w.call with
  | none => rfl
  | _ => simp [hc, Call.isNone] at h

theorem turn_cases (h : w.Consistent) (hidle : w.isIdle = true) (hwants : w.wantsTurn = true)
    (hw : w.turn hs = some (out, w')) : RuntimeStep hs w .turn w' := by
  have hphase := idle_of_isIdle hidle
  simp only [turn] at hw
  split at hw
  · rename_i hsome
    obtain ⟨-, rfl⟩ := Prod.mk.inj (Option.some.inj hw)
    exact .turnPanics hphase hsome
  · obtain ⟨rt, hrt, hw⟩ := Option.map_eq_some_iff.1 hw
    split at hw
    · rename_i hsub
      obtain ⟨-, rfl⟩ := Prod.mk.inj hw
      exact .turnSubmits (call_of_isIdle hidle) hphase hwants hrt hsub
    · rename_i hsub
      obtain ⟨w₁, hproc, hstart⟩ := (h.collected hrt).startPolling_eq hs
      obtain rfl : w₁.drained hs = w' := (Prod.mk.inj (hstart.symm.trans hw)).2
      exact .turnPolls hphase hwants hrt (by simpa using hsub) hproc

theorem enterTurn_cases (h : w.Consistent) {waitFor : UInt32} {ret : Except Errno UInt32}
    (hcall : w.call = .none) (hphase : w.phase = .submitting waitFor)
    (hw : w.enterTurn hs waitFor ret = (out, w')) :
    (∃ errno ctx, ret = .error errno ∧ IOContext.isBusy errno = true ∧
      w.ctx.submitOnce waitFor ret = .ok (.retry, ctx) ∧ w' = w.retry ctx) ∨
        RuntimeStep hs w (.enter ret) w' := by
  obtain ⟨k, hk⟩ := h.tables.posts.ring
  rcases IOContext.submitOnce_cases hk waitFor ret with
    ⟨sq, res, hsub, hsq, herr, -⟩ | ⟨⟨errno, rfl, hbusy⟩, hsub⟩
  · simp only [enterTurn, hsub] at hw
    cases res with
    | ok u =>
      have hsame : w.SameTables (w.withCtx { w.ctx with queued := 0 }) :=
        ⟨rfl, rfl, rfl, rfl, rfl, rfl, .inl rfl, h.current⟩
      have hring : Move w (.ring false) (w.withCtx { w.ctx with sq }) := by
        rcases hsq with rfl | rfl
        · exact .ring .failed
        · exact .ring .settle
      obtain ⟨w₁, hproc, hstart⟩ := (h.move hring).startPolling_eq hs
      obtain rfl : w₁.drained hs = w' := (Prod.mk.inj (hstart.symm.trans hw)).2
      exact .inr (.submitted hcall hphase hring hproc)
    | error err =>
      obtain ⟨-, rfl⟩ := Prod.mk.inj hw
      obtain ⟨rfl, errno, args, rfl, hargs, hfatal⟩ := herr err rfl
      exact .inr (.failed hcall hphase hargs hfatal)
  · simp only [enterTurn, hsub] at hw
    obtain ⟨-, rfl⟩ := Prod.mk.inj hw
    exact .inl ⟨errno, _, rfl, hbusy, hsub, rfl⟩

/-- A step in which the runtime takes no part. -/
theorem Consistent.step_quiet (h : w.Consistent) (he : ¬ w.RuntimeEvent e)
    (hw : w.step hs e = some (out, w')) : Does (fun a => w.Cause e a ∧ a.Quiet) w w' := by
  refine (h.step_does hw).mono fun a ha => ⟨ha, ?_⟩
  cases a with
  | runtime => exact he ha
  | process intoRunqueue g =>
    cases intoRunqueue with
    | false => rfl
    | true => exact (he (ha rfl)).elim
  | _ => trivial

/-- **A step is quiet, or the runtime does something.** -/
theorem Consistent.step_cases (h : w.Consistent) (hw : w.step hs e = some (out, w')) :
    Does Act.Quiet w w' ∨ RuntimeStep hs w e w' := by
  by_cases he : w.RuntimeEvent e
  · cases e with
    | handleSpawn =>
      have hw := (Option.ite_none_right_eq_some.1 hw).2
      simp only [World.handleSpawn] at hw
      split at hw <;> obtain ⟨-, rfl⟩ := Prod.mk.inj (Option.some.inj hw)
      · exact .inl .refl
      · exact .inr .handleSpawn
    | spawn =>
      obtain ⟨hidle, hw⟩ := Option.ite_none_right_eq_some.1 hw
      rw [Bool.and_eq_true] at hidle
      obtain ⟨⟨id, rt⟩, hrt, hw⟩ := Option.map_eq_some_iff.1 hw
      obtain ⟨⟨i, futures⟩, hins, hrt⟩ := Option.map_eq_some_iff.1 hrt
      obtain ⟨-, rfl⟩ := Prod.mk.inj hrt
      obtain ⟨-, rfl⟩ := Prod.mk.inj hw
      exact .inr (.spawn (idle_of_isIdle hidle.1) (by simpa using hidle.2) hins)
    | blockOn =>
      obtain ⟨hidle, hw⟩ := Option.ite_none_right_eq_some.1 hw
      rw [Bool.and_eq_true] at hidle
      obtain ⟨⟨id, rt⟩, hrt, hw⟩ := Option.map_eq_some_iff.1 hw
      obtain ⟨⟨i, futures⟩, hins, hrt⟩ := Option.map_eq_some_iff.1 hrt
      obtain ⟨rfl, rfl⟩ := Prod.mk.inj hrt
      obtain ⟨-, rfl⟩ := Prod.mk.inj hw
      exact .inr (.blockOn (idle_of_isIdle hidle.1) (by simpa using hidle.2) hins)
    | turn =>
      obtain ⟨hidle, hw⟩ := Option.ite_none_right_eq_some.1 hw
      rw [Bool.and_eq_true] at hidle
      exact .inr (turn_cases h hidle.1 hidle.2 hw)
    | chooseWait =>
      simp only [World.step] at hw
      split at hw
      · rename_i hphase
        obtain ⟨-, rfl⟩ := Prod.mk.inj (Option.some.inj hw)
        exact .inr (.chooseWait hphase)
      · cases hw
    | enter ret =>
      have hcall : w.call = .none := he
      simp only [World.step, enter, hcall] at hw
      split at hw
      · rename_i waitFor hphase
        rcases enterTurn_cases h hcall hphase (Option.some.inj hw) with
          ⟨errno, ctx, rfl, -, hsub, rfl⟩ | hrun
        · rcases h.submitOnce (P := Act.Quiet) (fun _ => rfl) waitFor (.error errno) with
            ⟨_, _, hdone, -⟩ | ⟨ctx', hsub', hdoes⟩
          · cases hsub.symm.trans hdone
          · obtain ⟨-, rfl⟩ := Prod.mk.inj (Except.ok.inj (hsub.symm.trans hsub'))
            exact .inl hdoes
        · exact .inr hrun
      · cases hw
    | next =>
      have hw := (Option.ite_none_right_eq_some.1 hw).2
      simp only [World.next] at hw
      split at hw
      · rename_i id rest hphase
        split at hw
        · rename_i hget
          obtain ⟨-, rfl⟩ := Prod.mk.inj (Option.some.inj hw)
          exact .inr (.skip hphase hget)
        · rename_i task hget
          obtain ⟨-, rfl⟩ := Prod.mk.inj (Option.some.inj hw)
          exact .inr (.next hphase hget)
      · cases hw
    | polled res =>
      have hw := (Option.ite_none_right_eq_some.1 hw).2
      simp only [World.polled] at hw
      split at hw
      · rename_i rest id task hphase
        cases res <;> obtain ⟨-, rfl⟩ := Prod.mk.inj (Option.some.inj hw)
        · exact .inr (.ready hphase)
        · exact .inr (.pending hphase)
        · exact .inr (.panicked hphase)
      · cases hw
    | turnOk =>
      have hw := (Option.ite_none_right_eq_some.1 hw).2
      simp only [World.turnOk] at hw
      split at hw
      · rename_i hphase
        obtain ⟨-, rfl⟩ := Prod.mk.inj (Option.some.inj hw)
        exact .inr (.turnOk hphase)
      · cases hw
    | unwound =>
      have hw := (Option.ite_none_right_eq_some.1 hw).2
      simp only [World.unwound] at hw
      split at hw
      · rename_i frame hphase hframe
        obtain ⟨-, rfl⟩ := Prod.mk.inj (Option.some.inj hw)
        exact .inr (.cleanUp hphase hframe)
      · rename_i hphase hframe
        obtain ⟨-, rfl⟩ := Prod.mk.inj (Option.some.inj hw)
        exact .inr (.unwound hphase hframe)
      · cases hw
    | _ => exact he.elim
  · exact .inl ((h.step_quiet he hw).mono fun _ ha => ha.2)

/-! ## No task is in two places -/

end World

/-- A task is in one slot, or waits to be set up, and none of them is one that is yet to come. -/
structure TasksOk (futures : Slots FutureObj) (created : List FutureObj) (nextTask : FutureObj) :
    Prop where
  slot : ∀ i task, futures.get i = some task → task < nextTask ∧ task ∉ created
  waiting : ∀ task ∈ created, task < nextTask
  inj : ∀ i j task, futures.get i = some task → futures.get j = some task → i = j
  nodup : created.Nodup

namespace TasksOk

variable {futures futures' : Slots FutureObj} {created created' : List FutureObj}
  {task nextTask : FutureObj} {id : ℕ}

theorem perm (h : TasksOk futures created nextTask) (hp : created.Perm created') :
    TasksOk futures created' nextTask where
  slot i task hi := ⟨(h.slot i task hi).1, fun hm => (h.slot i task hi).2 (hp.mem_iff.2 hm)⟩
  waiting task hm := h.waiting task (hp.mem_iff.2 hm)
  inj := h.inj
  nodup := hp.nodup_iff.1 h.nodup

/-- A new task is there. -/
theorem new (h : TasksOk futures created nextTask) :
    TasksOk futures (nextTask :: created) (nextTask + 1) := by
  refine ⟨fun i task hi => ?_, fun task hm => ?_, h.inj, List.nodup_cons.2 ⟨fun hm => ?_, h.nodup⟩⟩
  · obtain ⟨hlt, hnot⟩ := h.slot i task hi
    refine ⟨hlt.trans (Nat.lt_succ_self _), fun hm => ?_⟩
    rcases List.mem_cons.1 hm with rfl | hm
    · exact lt_irrefl _ hlt
    · exact hnot hm
  · rcases List.mem_cons.1 hm with rfl | hm
    · exact Nat.lt_succ_self _
    · exact (h.waiting task hm).trans (Nat.lt_succ_self _)
  · exact lt_irrefl _ (h.waiting _ hm)

/-- A task that waits to be set up is put into a slot. -/
theorem insert (h : TasksOk futures (task :: created) nextTask)
    (hins : futures.insert task = some (id, futures')) : TasksOk futures' created nextTask := by
  have hget := Slots.get_insert hins
  obtain ⟨hnot, hnodup⟩ := List.nodup_cons.1 h.nodup
  have hold : ∀ i t, futures'.get i = some t → i = id ∧ t = task ∨
      i ≠ id ∧ futures.get i = some t := by
    intro i t hi
    rw [hget] at hi
    by_cases hii : i = id
    · rw [hii, Function.update_self, Option.some.injEq] at hi
      exact .inl ⟨hii, hi.symm⟩
    · rw [Function.update_of_ne hii] at hi
      exact .inr ⟨hii, hi⟩
  have hne : ∀ i, futures.get i ≠ some task := fun i hi =>
    (h.slot i task hi).2 (List.mem_cons_self ..)
  refine ⟨fun i t hi => ?_, fun t hm => h.waiting t (List.mem_cons_of_mem _ hm),
    fun i j t hi hj => ?_, hnodup⟩
  · rcases hold i t hi with ⟨-, rfl⟩ | ⟨-, hi⟩
    · exact ⟨h.waiting t (List.mem_cons_self ..), hnot⟩
    · obtain ⟨hlt, hmem⟩ := h.slot i t hi
      exact ⟨hlt, fun hm => hmem (List.mem_cons_of_mem _ hm)⟩
  · rcases hold i t hi with ⟨rfl, rfl⟩ | ⟨-, hi⟩ <;> rcases hold j t hj with ⟨rfl, ht⟩ | ⟨-, hj⟩
    · rfl
    · exact absurd hj (hne j)
    · exact absurd (ht ▸ hi) (hne i)
    · exact h.inj i j t hi hj

theorem remove (h : TasksOk futures created nextTask) (id : ℕ) :
    TasksOk (futures.remove id).2 created nextTask := by
  have hold : ∀ i t, (futures.remove id).2.get i = some t → futures.get i = some t :=
    fun _ _ => Slots.get_of_remove
  exact ⟨fun i t hi => h.slot i t (hold i t hi), h.waiting,
    fun i j t hi hj => h.inj i j t (hold i t hi) (hold j t hj), h.nodup⟩

theorem setupCreated {created : List FutureObj} {rt rt' : Runtime}
    (h : TasksOk rt.futures created nextTask) (hset : Runtime.setupCreated created rt = some rt') :
    TasksOk rt'.futures [] nextTask := by
  induction created generalizing rt with
  | nil => exact Option.some.inj hset ▸ h
  | cons task created ih =>
    simp only [Runtime.setupCreated] at hset
    split at hset
    · cases hset
    · rename_i id futures hins
      exact ih (h.insert hins) hset

theorem collect {rt rt' : Runtime} (h : TasksOk rt.futures rt.ctx.created nextTask)
    (hrt : rt.collect = some rt') : TasksOk rt'.futures rt'.ctx.created nextTask := by
  rw [Runtime.collect_ctx hrt]
  obtain ⟨rt₁, hset, rfl⟩ := Option.map_eq_some_iff.1 hrt
  have hnew : TasksOk rt₁.futures [] nextTask := setupCreated (by exact h) hset
  exact hnew

end TasksOk

namespace World

variable {hs : Hashes} {w w' : World} {e : Event}

/-- The tasks are in order, and the one that is polled is in its slot. -/
structure TasksOk (w : World) : Prop where
  tasks : Hamerkop.TasksOk w.rt.futures w.ctx.created w.nextTask
  current : ∀ id task, w.currentTask = some (id, task) → w.rt.futures.get id = some task

theorem Quiet.tasksOk (hq : Quiet w w') (h : w.TasksOk) : w'.TasksOk := by
  refine ⟨?_, fun id task hc => ?_⟩
  · rw [hq.futures, hq.created, hq.nextTask]
    exact h.tasks
  · rw [hq.futures]
    refine h.current id task ?_
    rw [currentTask, hq.phase] at hc
    exact hc

theorem TasksOk.of_nobody (h : Hamerkop.TasksOk w.rt.futures w.ctx.created w.nextTask)
    (hnobody : w.currentTask = none) : w.TasksOk :=
  ⟨h, fun _ _ hc => absurd (hnobody.symm.trans hc) (Option.some_ne_none _).symm⟩

/-- The runqueue is drained, and nobody is polled. -/
theorem TasksOk.drained (h : w.TasksOk) (hs : Hashes) : (w.drained hs).TasksOk :=
  .of_nobody h.tasks rfl

theorem TasksOk.runtimeStep (h : w.TasksOk) (hst : RuntimeStep hs w e w') : w'.TasksOk := by
  cases hst with
  | handleSpawn =>
    refine ⟨h.tasks.new.perm ?_, h.current⟩
    exact (List.perm_append_singleton ..).symm
  | spawn hphase hframe hins =>
    refine ⟨h.tasks.new.insert hins, fun id task hc => ?_⟩
    rw [currentTask, show _ = Phase.idle from hphase] at hc
    cases hc
  | blockOn hphase hframe hins =>
    refine ⟨h.tasks.new.insert hins, fun id task hc => ?_⟩
    rw [currentTask, show _ = Phase.idle from hphase] at hc
    cases hc
  | turnPanics hphase hsession => exact .of_nobody h.tasks rfl
  | turnSubmits hnone hphase hwants hrt hsub => exact .of_nobody (h.tasks.collect hrt) rfl
  | turnPolls hphase hwants hrt hsub hproc =>
    have hcollected := h.tasks.collect hrt
    refine (hproc.quiet.tasksOk ⟨hcollected, fun id task hc => ?_⟩).drained hs
    rw [currentTask, show _ = Phase.idle from hphase] at hc
    cases hc
  | chooseWait hphase => exact .of_nobody h.tasks rfl
  | submitted hnone hphase hring hproc =>
    exact (hproc.quiet.tasksOk ⟨h.tasks, h.current⟩).drained hs
  | failed hnone hphase hcall hfatal => exact .of_nobody h.tasks rfl
  | skip hphase hget => exact .of_nobody h.tasks rfl
  | next hphase hget =>
    refine ⟨h.tasks, fun id task hc => ?_⟩
    obtain ⟨rfl, rfl⟩ := Prod.mk.inj (Option.some.inj hc)
    exact hget
  | ready hphase => exact .of_nobody (h.tasks.remove _) rfl
  | pending hphase => exact .of_nobody h.tasks rfl
  | panicked hphase => exact .of_nobody (h.tasks.remove _) rfl
  | turnOk hphase => exact .of_nobody h.tasks rfl
  | cleanUp hphase hframe => exact .of_nobody (h.tasks.remove _) rfl
  | unwound hphase hframe => exact .of_nobody h.tasks rfl

theorem Init.tasksOk (h : w.Init) : w.TasksOk := by
  refine ⟨⟨fun i task hi => ?_, fun task hm => ?_, fun i j task hi => ?_, ?_⟩, fun id task hc => ?_⟩
  · rw [h.futures] at hi
    cases hi
  · rw [h.created] at hm
    cases hm
  · rw [h.futures] at hi
    cases hi
  · rw [h.created]
    exact List.nodup_nil
  · rw [currentTask, h.phase] at hc
    cases hc

/-- **No task is ever in two places.** -/
theorem Reachable.tasksOk (h : Reachable hs w) : w.TasksOk := by
  induction h with
  | init hi => exact hi.tasksOk
  | tail hr hst ih =>
    obtain ⟨out, hw⟩ := hst
    rcases (Reachable.consistent hr).step_cases hw with hdoes | hrun
    · exact (hdoes.quiet id).tasksOk ih
    · exact ih.runtimeStep hrun

end World

end Hamerkop
