import Hamerkop.Executor.Scheduling

/-!
# No wakeup is lost

A task that waits for an event is queued when the event is processed, and what is
queued is polled.

`World.noLostWakeup` says both of every run in which no task panics: in every
state, a live future that has been told to wait and whose event has been processed
has its task queued, unless that task has been polled again since; and a task that
is queued has been polled when a turn has begun and returned `Ok`.

That the task may have been polled again since is needed: it may well do something
else when it is woken (`polledAgain_not_scheduled`).
-/

namespace Hamerkop

open Runs LinkedSubmitter

theorem Ledger.lt_lastPoll_pollTask (l : Ledger) (task : FutureObj) :
    l.clock < (l.pollTask task).lastPoll task := by
  have hself : (l.pollTask task).lastPoll task = l.clock + 1 := Function.update_self ..
  omega

namespace World

variable {hs : Hashes} {w w' : World} {e : Event} {out : Out} {task c : ℕ}

/-- The tasks still to be polled in the current turn. -/
def toPoll (w : World) : List ℕ :=
  match w.phase with
  | .polling rest _ => rest
  | _ => []

/-- The task in this slot is in the runqueue, in `woken`, or still to be polled in the turn. -/
def Scheduled (w : World) (t : ℕ) : Prop :=
  t ∈ w.rt.runqueue ∨ t ∈ w.ctx.woken ∨ t ∈ w.toPoll

/-- Its task has not been polled since the event was processed, and is scheduled. -/
def Wakes (w : World) : Prop :=
  ∀ g f cqe time t task, w.ledger.futs g = some f → f.life = .live →
    f.polledBy = some (t, task) → f.stage = .processed cqe time →
    w.rt.futures.get t = some task → w.ledger.lastPoll task ≤ time → w.Scheduled t

/-- The task is in the runtime, or is to be set up in it. -/
def Live (w : World) (task : FutureObj) : Prop :=
  task ∈ w.ctx.created ∨ ∃ t, w.rt.futures.get t = some task

/-- The task is yet to be set up, or scheduled. -/
def Due (w : World) (task : FutureObj) : Prop :=
  task ∈ w.ctx.created ∨ ∃ t, w.rt.futures.get t = some task ∧ w.Scheduled t

/-! ## Scheduled tasks stay scheduled until they are polled -/

theorem Quiet.toPoll (h : Quiet w w') : w'.toPoll = w.toPoll := by
  rw [World.toPoll, World.toPoll, h.phase]

theorem Quiet.scheduled (h : Quiet w w') {t : ℕ} (hw : w.Scheduled t) : w'.Scheduled t := by
  rcases hw with hw | hw | hw
  · exact .inl (h.runqueue.subset hw)
  · exact .inr (.inl (h.woken.subset hw))
  · exact .inr (.inr (h.toPoll ▸ hw))

theorem Quiet.live (h : Quiet w w') (hw : w'.Live task) : w.Live task := by
  rwa [Live, h.created, h.futures] at hw

theorem Quiet.due (h : Quiet w w') (hw : w.Due task) : w'.Due task := by
  rcases hw with hw | ⟨t, ht, hw⟩
  · exact .inl (h.created ▸ hw)
  · exact .inr ⟨t, h.futures ▸ ht, h.scheduled hw⟩

theorem drained_scheduled {t : ℕ} (hw : w.Scheduled t) (hphase : w.toPoll = []) :
    (w.drained hs).Scheduled t := by
  rcases hw with hw | hw | hw
  · exact .inr (.inr (Dedup.mem_dedupPartial.2 hw))
  · exact .inr (.inl hw)
  · rw [hphase] at hw
    cases hw

/-- `turn` has taken over what was scheduled, and queued the new tasks. -/
theorem collected_queued {rt : Runtime} (hrt : w.rt.collect = some rt) (hphase : w.toPoll = [])
    (hw : w.Due task) : ∃ t, rt.futures.get t = some task ∧ t ∈ rt.runqueue := by
  obtain ⟨ids, hrun, hset⟩ := Runtime.collect_spec hrt
  rcases hw with hw | ⟨t, ht, hw⟩
  · obtain ⟨t, hmem, ht⟩ := hset.queued task hw
    exact ⟨t, ht, by simp [hrun, hmem]⟩
  · refine ⟨t, hset.kept t task ht, ?_⟩
    rw [hrun]
    rcases hw with hw | hw | hw
    · simp [hw]
    · exact List.mem_append_right _ hw
    · rw [hphase] at hw
      cases hw

theorem toPoll_of_phase {rest : List ℕ} {current : Option (ℕ × FutureObj)}
    (h : w.phase = .polling rest current) : w.toPoll = rest := by
  rw [toPoll, h]

theorem toPoll_eq_nil (h : ∀ rest current, w.phase ≠ .polling rest current) : w.toPoll = [] := by
  rw [toPoll]
  split
  · exact absurd ‹_› (h _ _)
  · rfl

theorem toPoll_subset_of_phase (h : ∀ rest current, w.phase ≠ .polling rest current) :
    w.toPoll ⊆ w'.toPoll := by
  rw [toPoll_eq_nil h]
  exact List.nil_subset _

theorem Due.of_same (hw : w.Due task) (hfutures : w'.rt.futures = w.rt.futures)
    (hcreated : w'.ctx.created = w.ctx.created) (hrunqueue : w'.rt.runqueue = w.rt.runqueue)
    (hwoken : w'.ctx.woken = w.ctx.woken) (htoPoll : w.toPoll ⊆ w'.toPoll) : w'.Due task := by
  rcases hw with hmem | ⟨t, hget, hsched⟩
  · exact .inl (hcreated ▸ hmem)
  · refine .inr ⟨t, hfutures ▸ hget, ?_⟩
    rw [Scheduled, hrunqueue, hwoken]
    exact hsched.imp_right (Or.imp_right fun hmem => htoPoll hmem)

theorem collected_get {rt : Runtime} (hrt : w.rt.collect = some rt) :
    (task ∈ rt.ctx.created → task ∈ w.ctx.created) ∧ ∀ t, rt.futures.get t = some task →
      w.rt.futures.get t = some task ∨ task ∈ w.ctx.created := by
  obtain ⟨ids, -, hset⟩ := Runtime.collect_spec hrt
  refine ⟨fun hmem => ?_, fun t => hset.only t task⟩
  rw [Runtime.collect_ctx hrt] at hmem
  cases hmem

/-- A task that is in a slot after the runtime has done something was there before, or waited to be
set up, unless it is new. -/
theorem RuntimeStep.get (hst : RuntimeStep hs w e w') (hlt : task < w.nextTask) :
    (task ∈ w'.ctx.created → task ∈ w.ctx.created) ∧ ∀ t, w'.rt.futures.get t = some task →
      w.rt.futures.get t = some task ∨ task ∈ w.ctx.created := by
  have hinsert : ∀ {id futures}, w.rt.futures.insert w.nextTask = some (id, futures) →
      ∀ t, futures.get t = some task → w.rt.futures.get t = some task ∨ task ∈ w.ctx.created := by
    intro id futures hins t ht
    rw [Slots.get_insert hins] at ht
    by_cases hti : t = id
    · rw [hti, Function.update_self, Option.some.injEq] at ht
      exact absurd hlt (ht ▸ lt_irrefl _)
    · rw [Function.update_of_ne hti] at ht
      exact .inl ht
  have hprocessed : ∀ {u v : World}, Processed u v →
      ((task ∈ u.ctx.created → task ∈ w.ctx.created) ∧
      ∀ t, u.rt.futures.get t = some task → w.rt.futures.get t = some task ∨ task ∈ w.ctx.created) →
      (task ∈ (v.drained hs).ctx.created → task ∈ w.ctx.created) ∧
        ∀ t, (v.drained hs).rt.futures.get t = some task →
          w.rt.futures.get t = some task ∨ task ∈ w.ctx.created := by
    intro u v hproc h
    rwa [← hproc.quiet.created, ← hproc.quiet.futures] at h
  cases hst with
  | handleSpawn =>
    refine ⟨fun hmem => ?_, fun _ => .inl⟩
    rcases List.mem_append.1 hmem with hmem | hmem
    · exact hmem
    · exact absurd hlt (List.mem_singleton.1 hmem ▸ lt_irrefl _)
  | spawn hphase hframe hins => exact ⟨id, hinsert hins⟩
  | blockOn hphase hframe hins => exact ⟨id, hinsert hins⟩
  | turnSubmits hnone hphase hwants hrt hsub => exact collected_get hrt
  | @turnPolls rt w₁ hphase hwants hrt hsub hproc =>
    have hcollected : (task ∈ rt.ctx.created → _) ∧ _ := collected_get hrt
    refine hprocessed hproc ?_
    exact hcollected
  | submitted hnone hphase hring hproc =>
    refine hprocessed hproc ?_
    exact ⟨id, fun _ => .inl⟩
  | ready hphase => exact ⟨id, fun _ ht => .inl (Slots.get_of_remove ht)⟩
  | panicked hphase => exact ⟨id, fun _ ht => .inl (Slots.get_of_remove ht)⟩
  | cleanUp hphase hframe => exact ⟨id, fun _ ht => .inl (Slots.get_of_remove ht)⟩
  | _ => exact ⟨id, fun _ => .inl⟩

theorem RuntimeStep.live (hst : RuntimeStep hs w e w') (hlt : task < w.nextTask)
    (hw : w'.Live task) : w.Live task := by
  obtain ⟨hcreated, hget⟩ := hst.get hlt
  rcases hw with hmem | ⟨t, ht⟩
  · exact .inl (hcreated hmem)
  · exact (hget t ht).elim (fun ht => .inr ⟨t, ht⟩) .inl

theorem RuntimeStep.nextTask (hst : RuntimeStep hs w e w') : w.nextTask ≤ w'.nextTask := by
  cases hst with
  | handleSpawn => exact Nat.le_succ _
  | spawn hphase hframe hins => exact Nat.le_succ _
  | blockOn hphase hframe hins => exact Nat.le_succ _
  | turnPolls hphase hwants hrt hsub hproc => exact hproc.quiet.nextTask.ge
  | submitted hnone hphase hring hproc => exact hproc.quiet.nextTask.ge
  | _ => exact le_rfl

/-- When a task is polled the clock goes on, and says so. -/
theorem RuntimeStep.lastPoll (hst : RuntimeStep hs w e w') (task : FutureObj) :
    w.ledger.clock ≤ w'.ledger.clock ∧ (w'.ledger.lastPoll task = w.ledger.lastPoll task ∨
      w.ledger.clock < w'.ledger.lastPoll task) := by
  cases hst with
  | turnPolls hphase hwants hrt hsub hproc =>
    exact ⟨hproc.quiet.clock.ge, .inl (congrFun hproc.quiet.lastPoll task)⟩
  | submitted hnone hphase hring hproc =>
    exact ⟨hproc.quiet.clock.ge, .inl (congrFun hproc.quiet.lastPoll task)⟩
  | @next id rest task' hphase hget =>
    refine ⟨Nat.le_succ _, ?_⟩
    by_cases htt : task = task'
    · subst htt
      exact .inr (w.ledger.lt_lastPoll_pollTask _)
    · exact .inl (Function.update_of_ne htt ..)
  | _ => exact ⟨le_rfl, .inl rfl⟩

/-- A slot still has its task, or the task is gone. -/
theorem removed_get {id t : ℕ} (ht : w.TasksOk) (hget : w.rt.futures.get t = some task)
    (hlive : task ∈ w.ctx.created ∨ ∃ t, (w.rt.futures.remove id).2.get t = some task) :
    (w.rt.futures.remove id).2.get t = some task := by
  rcases hlive with hmem | ⟨i, hi⟩
  · exact absurd hmem (ht.tasks.slot t task hget).2
  · obtain rfl := ht.tasks.inj i t task (Slots.get_of_remove hi) hget
    exact hi

/-- **What is due is polled, or stays due.** -/
theorem RuntimeStep.due (hst : RuntimeStep hs w e w') (ht : w.TasksOk)
    (hno : e ≠ .polled .panicked) (hlive : w'.Live task) (hw : w.Due task) :
    w'.Due task ∨ w.ledger.clock < w'.ledger.lastPoll task := by
  have hinsert : ∀ {id futures t}, w.rt.futures.insert w.nextTask = some (id, futures) →
      w.rt.futures.get t = some task → futures.get t = some task := by
    intro id futures t hins hget
    rw [Slots.get_insert hins, Function.update_of_ne, hget]
    rintro rfl
    rw [Slots.get_before_insert hins] at hget
    cases hget
  cases hst with
  | handleSpawn =>
    exact .inl (hw.imp_left fun hmem => List.mem_append_left _ hmem)
  | spawn hphase hframe hins =>
    refine .inl (hw.imp_right ?_)
    rintro ⟨t, hget, hsched⟩
    exact ⟨t, hinsert hins hget, hsched.imp_left fun hmem => List.mem_append_left _ hmem⟩
  | blockOn hphase hframe hins =>
    refine .inl (hw.imp_right ?_)
    rintro ⟨t, hget, hsched⟩
    exact ⟨t, hinsert hins hget, hsched.imp_left fun hmem => List.mem_append_left _ hmem⟩
  | turnPanics hphase hsession =>
    have hnil : w.toPoll = [] := toPoll_eq_nil (by simp [hphase])
    refine .inl (hw.imp_right ?_)
    rintro ⟨t, hget, hsched | hsched | hsched⟩
    · exact ⟨t, hget, .inl hsched⟩
    · exact ⟨t, hget, .inr (.inl hsched)⟩
    · rw [hnil] at hsched
      cases hsched
  | turnSubmits hnone hphase hwants hrt hsub =>
    obtain ⟨t, hget, hmem⟩ := collected_queued hrt (toPoll_eq_nil (by simp [hphase])) hw
    exact .inl (.inr ⟨t, hget, .inl hmem⟩)
  | turnPolls hphase hwants hrt hsub hproc =>
    obtain ⟨t, hget, hmem⟩ := collected_queued hrt (toPoll_eq_nil (by simp [hphase])) hw
    refine .inl (.inr ⟨t, ?_, .inr (.inr ?_)⟩)
    · exact (congrArg (Slots.get · t) hproc.quiet.futures).trans hget
    · exact Dedup.mem_dedupPartial.2 (hproc.quiet.runqueue.subset hmem)
  | chooseWait hphase =>
    exact .inl (hw.of_same rfl rfl rfl rfl (toPoll_subset_of_phase (by simp [hphase])))
  | submitted hnone hphase hring hproc =>
    have hdue := hproc.quiet.due hw
    refine .inl (hdue.imp_right ?_)
    rintro ⟨t, hget, hsched⟩
    refine ⟨t, hget, drained_scheduled hsched (toPoll_eq_nil ?_)⟩
    simp [hproc.quiet.phase, withCtx, hphase]
  | failed hnone hphase hcall hfatal =>
    exact .inl (hw.of_same rfl rfl rfl rfl (toPoll_subset_of_phase (by simp [hphase])))
  | @skip id rest hphase hgone =>
    refine .inl (hw.imp_right ?_)
    rintro ⟨t, hget, hsched | hsched | hsched⟩
    · exact ⟨t, hget, .inl hsched⟩
    · exact ⟨t, hget, .inr (.inl hsched)⟩
    · rw [toPoll_of_phase hphase] at hsched
      rcases List.mem_cons.1 hsched with rfl | hsched
      · rw [hgone] at hget
        cases hget
      · exact ⟨t, hget, .inr (.inr hsched)⟩
  | @next id rest task' hphase hcurrent =>
    rcases hw with hmem | ⟨t, hget, hsched | hsched | hsched⟩
    · exact .inl (.inl hmem)
    · exact .inl (.inr ⟨t, hget, .inl hsched⟩)
    · exact .inl (.inr ⟨t, hget, .inr (.inl hsched)⟩)
    · rw [toPoll_of_phase hphase] at hsched
      rcases List.mem_cons.1 hsched with rfl | hsched
      · obtain rfl := Option.some.inj (hget.symm.trans hcurrent)
        exact .inr (w.ledger.lt_lastPoll_pollTask _)
      · exact .inl (.inr ⟨t, hget, .inr (.inr hsched)⟩)
  | ready hphase =>
    refine .inl (hw.imp_right ?_)
    rintro ⟨t, hget, hsched⟩
    refine ⟨t, removed_get ht hget hlive, hsched.imp_right (Or.imp_right fun hmem => ?_)⟩
    rwa [toPoll_of_phase hphase] at hmem
  | pending hphase =>
    exact .inl (hw.of_same rfl rfl rfl rfl (by rw [toPoll_of_phase hphase]; exact fun _ => id))
  | panicked hphase => exact absurd rfl hno
  | turnOk hphase =>
    exact .inl (hw.of_same rfl rfl rfl rfl (by rw [toPoll_of_phase hphase]; exact fun _ => id))
  | cleanUp hphase hframe =>
    refine .inl (hw.imp_right ?_)
    rintro ⟨t, hget, hsched⟩
    refine ⟨t, removed_get ht hget hlive, hsched.imp_right (Or.imp_right fun hmem => ?_)⟩
    rw [toPoll_eq_nil (by simp [hphase])] at hmem
    cases hmem
  | unwound hphase hframe =>
    exact .inl (hw.of_same rfl rfl rfl rfl (toPoll_subset_of_phase (by simp [hphase])))

/-! ## A turn polls what was scheduled when it began -/

/-- In a turn: the task is one that the turn goes on to poll. -/
def Awaits (w : World) (task : FutureObj) : Prop :=
  match w.phase with
  | .idle | .unwinding => True
  | .choosing | .submitting _ => ∃ t, w.rt.futures.get t = some task ∧ t ∈ w.rt.runqueue
  | .polling rest _ => ∃ t, w.rt.futures.get t = some task ∧ t ∈ rest

theorem Awaits.mono (hw : w.Awaits task) (hphase : w'.phase = w.phase)
    (hget : ∀ t, w.rt.futures.get t = some task → w'.rt.futures.get t = some task)
    (hrunqueue : w.rt.runqueue ⊆ w'.rt.runqueue) : w'.Awaits task := by
  cases hp : w.phase with
  | polling rest current =>
    simp only [Awaits, hphase, hp] at hw ⊢
    obtain ⟨t, ht, hmem⟩ := hw
    exact ⟨t, hget t ht, hmem⟩
  | choosing =>
    simp only [Awaits, hphase, hp] at hw ⊢
    obtain ⟨t, ht, hmem⟩ := hw
    exact ⟨t, hget t ht, hrunqueue hmem⟩
  | submitting waitFor =>
    simp only [Awaits, hphase, hp] at hw ⊢
    obtain ⟨t, ht, hmem⟩ := hw
    exact ⟨t, hget t ht, hrunqueue hmem⟩
  | _ => simp only [Awaits, hphase, hp]

/-- No turn is going on. -/
theorem awaits_of_phase (h : w.phase = .idle ∨ w.phase = .unwinding) : w.Awaits task := by
  rcases h with h | h <;> simp only [Awaits, h]

/-- The runqueue is drained, after events have been processed. -/
theorem Processed.awaits (h : Processed w w') (hw : ∃ t, w.rt.futures.get t = some task ∧
    t ∈ w.rt.runqueue) : (w'.drained hs).Awaits task := by
  obtain ⟨t, hget, hmem⟩ := hw
  exact ⟨t, (congrArg (Slots.get · t) h.quiet.futures).trans hget,
    Dedup.mem_dedupPartial.2 (h.quiet.runqueue.subset hmem)⟩

/-- In a turn that began when the clock was at `c` at the earliest, the task is still to be polled
or has been since, as has the task that is being polled. -/
structure Turning (w : World) (task : FutureObj) (c : ℕ) : Prop where
  clock : c ≤ w.ledger.clock
  current : ∀ t₀ task₀, w.currentTask = some (t₀, task₀) → c < w.ledger.lastPoll task₀
  awaits : w.Awaits task ∨ c < w.ledger.lastPoll task

theorem Turning.quiet (h : w.Turning task c) (hq : Quiet w w') : w'.Turning task c := by
  refine ⟨h.clock.trans hq.clock.ge, fun t₀ task₀ hcurrent => ?_, ?_⟩
  · rw [currentTask, hq.phase] at hcurrent
    exact hq.lastPoll ▸ h.current t₀ task₀ hcurrent
  · refine h.awaits.imp (fun hw => ?_) fun hpolled => hq.lastPoll ▸ hpolled
    exact hw.mono hq.phase (fun _ ht => hq.futures ▸ ht) hq.runqueue.subset

theorem currentTask_eq_none (h : ∀ rest current, w.phase ≠ .polling rest (some current)) :
    w.currentTask = none := by
  rw [currentTask]
  split
  · rename_i rest current hphase
    cases current with
    | none => rfl
    | some current => exact absurd hphase (h rest current)
  · rfl

/-- A turn begins. -/
theorem RuntimeStep.turn_turning (hst : RuntimeStep hs w .turn w') (hclock : c ≤ w.ledger.clock)
    (hw : w.Due task ∨ c < w.ledger.lastPoll task) : w'.Turning task c := by
  have hnone : w'.currentTask = none := by
    refine currentTask_eq_none fun rest current => ?_
    cases hst <;> simp [drained]
  refine ⟨hclock.trans (hst.lastPoll task).1, fun t₀ task₀ hcurrent => ?_, ?_⟩
  · rw [hnone] at hcurrent
    cases hcurrent
  · rcases hw with hdue | hpolled
    · left
      cases hst with
      | turnPanics hphase hsession => exact awaits_of_phase (.inr rfl)
      | turnSubmits hnone hphase hwants hrt hsub =>
        exact collected_queued hrt (toPoll_eq_nil (by simp [hphase])) hdue
      | turnPolls hphase hwants hrt hsub hproc =>
        have hqueued := collected_queued hrt (toPoll_eq_nil (by simp [hphase])) hdue
        exact hproc.awaits hqueued
    · right
      rcases (hst.lastPoll task).2 with heq | hlt
      · exact heq ▸ hpolled
      · exact hclock.trans_lt hlt

/-- **A turn goes on, and what it is to poll stays to be polled.** -/
theorem RuntimeStep.turning (hst : RuntimeStep hs w e w') (ht : w.TasksOk) (he : e ≠ .turn)
    (hno : e ≠ .polled .panicked) (h : w.Turning task c) : w'.Turning task c := by
  have hclock := h.clock
  have hpolled (hlt : c < w.ledger.lastPoll task) : c < w'.ledger.lastPoll task := by
    rcases (hst.lastPoll task).2 with heq | hlt'
    · exact heq ▸ hlt
    · exact hclock.trans_lt hlt'
  have hcurrent : ∀ t₀ task₀, w'.currentTask = some (t₀, task₀) →
      c < w'.ledger.lastPoll task₀ := by
    intro t₀ task₀ hcurrent
    cases hst with
    | handleSpawn => exact h.current t₀ task₀ hcurrent
    | next hphase hget =>
      obtain ⟨-, rfl⟩ := Prod.mk.inj (Option.some.inj hcurrent)
      exact hclock.trans_lt (w.ledger.lt_lastPoll_pollTask _)
    | spawn hphase _ _ | blockOn hphase _ _ =>
      simp [currentTask, hphase] at hcurrent
    | _ => cases hcurrent
  refine ⟨hclock.trans (hst.lastPoll task).1, hcurrent, ?_⟩
  rcases h.awaits with hw | hlt
  swap
  · exact .inr (hpolled hlt)
  cases hst with
  | handleSpawn => exact .inl (hw.mono rfl (fun _ => id) (fun _ => id))
  | spawn hphase hframe hins => exact .inl (awaits_of_phase (.inl hphase))
  | blockOn hphase hframe hins => exact .inl (awaits_of_phase (.inl hphase))
  | turnPanics | turnSubmits | turnPolls => exact absurd rfl he
  | chooseWait hphase => exact .inl (by simpa only [Awaits, hphase] using hw)
  | submitted hnone hphase hring hproc =>
    simp only [Awaits, hphase] at hw
    exact .inl (hproc.awaits hw)
  | failed hnone hphase hcall hfatal => exact .inl (awaits_of_phase (.inl rfl))
  | skip hphase hgone =>
    simp only [Awaits, hphase] at hw
    obtain ⟨t, hget, hmem⟩ := hw
    rcases List.mem_cons.1 hmem with rfl | hmem
    · rw [hgone] at hget
      cases hget
    · exact .inl ⟨t, hget, hmem⟩
  | next hphase hfirst =>
    simp only [Awaits, hphase] at hw
    obtain ⟨t, hget, hmem⟩ := hw
    rcases List.mem_cons.1 hmem with rfl | hmem
    · obtain rfl := Option.some.inj (hget.symm.trans hfirst)
      exact .inr (hclock.trans_lt (w.ledger.lt_lastPoll_pollTask _))
    · exact .inl ⟨t, hget, hmem⟩
  | @ready id rest task₀ hphase =>
    have hself := h.current id task₀ (by rw [currentTask, hphase])
    simp only [Awaits, hphase] at hw
    obtain ⟨t, hget, hmem⟩ := hw
    by_cases hti : t = id
    · -- the task has been polled, and is done
      subst hti
      have hget' := ht.current t task₀ (by rw [currentTask, hphase])
      obtain rfl := Option.some.inj (hget.symm.trans hget')
      exact .inr hself
    · refine .inl ⟨t, ?_, hmem⟩
      show (w.rt.futures.remove id).2.get t = some task
      rw [Slots.get_remove, Function.update_of_ne hti, hget]
  | pending hphase =>
    simp only [Awaits, hphase] at hw
    exact .inl hw
  | panicked hphase => exact absurd rfl hno
  | turnOk hphase => exact .inl (awaits_of_phase (.inl rfl))
  | cleanUp hphase hframe => exact .inl (awaits_of_phase (.inl rfl))
  | unwound hphase hframe => exact .inl (awaits_of_phase (.inl rfl))

/-! ## The task that waits for an event -/

/-- What a move may do to the task that waits for the event of a future. -/
structure Waits (w w' : World) (f f' : Fut) : Prop where
  polledBy : ∀ t task, f'.polledBy = some (t, task) → f.polledBy = some (t, task) ∨
    w.currentTask = some (t, task) ∧ ∀ cqe time, f'.stage ≠ .processed cqe time
  life : f'.life = .live → f.life = .live
  stage : ∀ cqe time, f'.stage = .processed cqe time → f.stage = .processed cqe time ∨
    ∀ t task, f'.life = .live → f'.polledBy = some (t, task) → w'.Scheduled t

theorem Waits.refl (f : Fut) : Waits w w' f f := ⟨fun _ _ => .inl, id, fun _ _ => .inl⟩

/-- The task stays the same, and the event is not processed. -/
theorem Waits.of_not_processed {f f' : Fut} (hpolled : f'.polledBy = f.polledBy)
    (hlife : f'.life = f.life) (hst : ∀ cqe time, f'.stage ≠ .processed cqe time) :
    Waits w w' f f' :=
  ⟨fun _ _ hby => .inl (hpolled ▸ hby), fun hl => hlife ▸ hl,
    fun cqe time hs => absurd hs (hst cqe time)⟩

/-- The stage stays the same, and no task is new. -/
theorem Waits.of_stage {f f' : Fut} (hpolled : f'.polledBy = f.polledBy ∨ f'.polledBy = none)
    (hlife : f'.life = .live → f.life = .live) (hst : f'.stage = f.stage) : Waits w w' f f' := by
  refine ⟨fun t task hby => .inl ?_, hlife, fun cqe time hs => .inl (hst ▸ hs)⟩
  rcases hpolled with heq | heq
  · exact heq ▸ hby
  · rw [heq] at hby
    cases hby

theorem waits_update {g : ℕ} {f f' : Fut} (hg : w.ledger.futs g = some f)
    (hfuts : w'.ledger.futs = Function.update w.ledger.futs g (some f')) (hf : Waits w w' f f') :
    ∀ g f', w'.ledger.futs g = some f' → f'.polledBy = none ∨
      ∃ f, w.ledger.futs g = some f ∧ Waits w w' f f' := by
  intro g₂ f₂ hg₂
  rw [hfuts] at hg₂
  by_cases hgg : g₂ = g
  · subst hgg
    rw [Function.update_self, Option.some.injEq] at hg₂
    exact .inr ⟨f, hg, hg₂ ▸ hf⟩
  · rw [Function.update_of_ne hgg] at hg₂
    exact .inr ⟨f₂, hg₂, .refl f₂⟩

theorem waits_create {cqid : ℕ} {kind : FutureKind} {buffer : Option (FixedVec UInt8)}
    (hfuts : w'.ledger.futs = (w.ledger.create cqid kind buffer).futs) :
    ∀ g f', w'.ledger.futs g = some f' → f'.polledBy = none ∨
      ∃ f, w.ledger.futs g = some f ∧ Waits w w' f f' := by
  intro g f' hg
  rw [hfuts] at hg
  by_cases hgg : g = w.ledger.nextFut
  · subst hgg
    simp only [Ledger.create, Function.update_self, Option.some.injEq] at hg
    exact .inl (hg ▸ rfl)
  · simp only [Ledger.create, Function.update_of_ne hgg] at hg
    exact .inr ⟨f', hg, .refl f'⟩

theorem Move.waits (hc : w.Consistent) {a : Act} (ha : a ≠ .runtime) (hm : Move w a w') :
    ∀ g f', w'.ledger.futs g = some f' → f'.polledBy = none ∨
      ∃ f, w.ledger.futs g = some f ∧ Waits w w' f f' := by
  cases hm with
  | runtime _ => exact absurd rfl ha
  | ring _ => exact fun g f hg => .inr ⟨f, hg, .refl f⟩
  | complete hg hl =>
    obtain ⟨f, held, bufs, hg', -, -, rfl⟩ := Ledger.complete_eq_some hl
    exact waits_update hg' rfl (.of_not_processed rfl rfl nofun)
  | post hg hst hroom =>
    exact waits_update hg (Ledger.futs_modifyFut hg _) (.of_not_processed rfl rfl nofun)
  | newFuture hcall hnew => exact waits_create rfl
  | request hcall hs hreq hnew => exact waits_create rfl
  | openSession _ _ => exact fun g f hg => .inr ⟨f, hg, .refl f⟩
  | fill hcall hs hg hfill =>
    exact waits_update hg (Ledger.futs_modifyFut hg _) (.of_not_processed rfl rfl nofun)
  | @publish s sq hs hpub queued =>
    intro g f' hg
    rcases Ledger.publish_futs w.ledger (s.linked.zip _) g with heq | ⟨-, sqe, heq⟩
    · exact .inr ⟨f', heq.symm.trans hg, .refl f'⟩
    · obtain ⟨f, hf, rfl⟩ := Option.map_eq_some_iff.1 (heq.symm.trans hg)
      exact .inr ⟨f, hf, .of_not_processed rfl rfl nofun⟩
  | @abandon s hs =>
    intro g f' hg
    rcases Ledger.abandon_futs w.ledger s.linked g with heq | ⟨-, heq⟩
    · exact .inr ⟨f', heq.symm.trans hg, .refl f'⟩
    · obtain ⟨f, hf, rfl⟩ := Option.map_eq_some_iff.1 (heq.symm.trans hg)
      exact .inr ⟨f, hf, .of_not_processed rfl rfl nofun⟩
  | setMustWait hg hlive mustWait =>
    exact waits_update hg (Ledger.futs_modifyFut hg _) (.of_stage (.inl rfl) id rfl)
  | @pending g f ce t task hcall hg hlive hce hcqe hcurrent =>
    have hnot : ∀ cqe time, f.stage ≠ .processed cqe time := by
      intro cqe time hs
      have hok := (hc.entryOk hg hlive hce).cqe
      rw [hcqe, hs] at hok
      cases hok
    refine waits_update hg (Ledger.futs_modifyFut hg _) ⟨fun t task hby => .inr ⟨hby, hnot⟩, id, ?_⟩
    exact fun cqe time hs => .inl hs
  | ready hcall hg hlive hce hcqe hcurrent =>
    exact waits_update hg (Ledger.futs_modifyFut hg _) (.of_stage (.inr rfl) id rfl)
  | resolve hcall hg hlive hkind hce hcqe hget =>
    exact waits_update hg (congrArg Ledger.futs (Ledger.resolve_eq hg _ _))
      ⟨fun _ _ => .inl, nofun, nofun⟩
  | dropReady hcall hg hlive hce hcqe =>
    exact waits_update hg (Ledger.futs_modifyFut hg _) (.of_stage (.inl rfl) nofun rfl)
  | die hcall hg hlive hce hcqe hmustWait =>
    exact waits_update hg (Ledger.futs_modifyFut hg _) (.of_stage (.inl rfl) nofun rfl)
  | beginWait hcall hs hg hlive hce hcqe hmustWait =>
    exact waits_update hg (Ledger.futs_modifyFut hg _) (.of_stage (.inr rfl) id rfl)
  | cancel _ => exact fun g f hg => .inr ⟨f, hg, .refl f⟩
  | endWait hcall hg hce hcqe =>
    exact waits_update hg (Ledger.futs_modifyFut hg _) (.of_stage (.inl rfl) nofun rfl)
  | lose hg hlive hcall =>
    exact waits_update hg (Ledger.futs_modifyFut hg _) (.of_stage (.inl rfl) nofun rfl)
  | @process g f cqe ce rest intoRunqueue hp hg hst hud hce hok =>
    obtain ⟨completions, heq, -⟩ := takeCqe_eq intoRunqueue hst hud hce hok
    rw [heq]
    refine waits_update hg (congrArg Ledger.futs (Ledger.process_eq hg))
      ⟨fun _ _ => .inl, id, fun cqe' time hs => .inr fun t task hlive hby => ?_⟩
    -- the event wakes the task that polled its future last
    obtain ⟨rfl, hlt⟩ := hok.polled t task hby hlive
    have hqueued : queuedTask f ce = [ce.task] := by
      have hno : ce.task ≠ NO_TASK_SENTINEL := by
        simp only [NO_TASK_SENTINEL]
        omega
      have hlive : f.life = .live := hlive
      simp [queuedTask, hno, hlive]
    cases intoRunqueue with
    | true => exact .inl (by simp [hqueued])
    | false => exact .inr (.inl (by simp [hqueued, World.ctx]))

/-- The tasks that wait are known, and those whose event is processed are scheduled. -/
structure WakesInv (w : World) : Prop where
  tasks : w.TasksOk
  polledBy : ∀ g f t task, w.ledger.futs g = some f → f.polledBy = some (t, task) →
    task < w.nextTask ∧ task ∉ w.ctx.created
  wakes : w.Wakes

theorem WakesInv.move (h : w.WakesInv) (hc : w.Consistent) {a : Act} (ha : a ≠ .runtime)
    (hm : Move w a w') : w'.WakesInv := by
  have hq := Quiet.of_move ha hm
  have hwaits := Move.waits hc ha hm
  refine ⟨hq.tasksOk h.tasks, fun g f' t task hg hby => ?_,
    fun g f' cqe time t task hg hlive hby hst hget hlast => ?_⟩
  · rw [hq.nextTask, hq.created]
    rcases hwaits g f' hg with hnone | ⟨f, hf, hw⟩
    · rw [hnone] at hby
      cases hby
    · rcases hw.polledBy t task hby with hby | ⟨hcurrent, -⟩
      · exact h.polledBy g f t task hf hby
      · exact h.tasks.tasks.slot t task (h.tasks.current t task hcurrent)
  · rw [hq.futures] at hget
    rw [hq.lastPoll] at hlast
    rcases hwaits g f' hg with hnone | ⟨f, hf, hw⟩
    · rw [hnone] at hby
      cases hby
    · rcases hw.stage cqe time hst with hst' | hsched
      · rcases hw.polledBy t task hby with hby | ⟨-, hnot⟩
        · exact hq.scheduled (h.wakes g f cqe time t task hf (hw.life hlive) hby hst' hget hlast)
        · exact absurd hst (hnot cqe time)
      · exact hsched t task hlive hby

/-- Futures stay as they are, and what is due stays due or is polled. -/
theorem WakesInv.of_due (h : w.WakesInv) (hc : w.Consistent)
    (hfuts : w'.ledger.futs = w.ledger.futs) (htasks : w'.TasksOk)
    (hnext : w.nextTask ≤ w'.nextTask)
    (hget : ∀ task < w.nextTask, (task ∈ w'.ctx.created → task ∈ w.ctx.created) ∧
      ∀ t, w'.rt.futures.get t = some task → w.rt.futures.get t = some task ∨ task ∈ w.ctx.created)
    (hlast : ∀ task, w'.ledger.lastPoll task = w.ledger.lastPoll task ∨
      w.ledger.clock < w'.ledger.lastPoll task)
    (hdue : ∀ task, w'.Live task → w.Due task →
      w'.Due task ∨ w.ledger.clock < w'.ledger.lastPoll task) : w'.WakesInv := by
  refine ⟨htasks, fun g f t task hg hby => ?_,
    fun g f cqe time t task hg hlive hby hst hget' hlast' => ?_⟩
  · rw [hfuts] at hg
    obtain ⟨hlt, hnot⟩ := h.polledBy g f t task hg hby
    exact ⟨hlt.trans_le hnext, fun hmem => hnot ((hget task hlt).1 hmem)⟩
  · rw [hfuts] at hg
    obtain ⟨hlt, hnot⟩ := h.polledBy g f t task hg hby
    have htime := (hc.tables.posts.processed g f cqe time hg hst).2
    have hold := ((hget task hlt).2 t hget').resolve_right hnot
    have hlast₀ := (hlast task).resolve_right (by omega)
    have hsched := h.wakes g f cqe time t task hg hlive hby hst hold (hlast₀ ▸ hlast')
    rcases hdue task (.inr ⟨t, hget'⟩) (.inr ⟨t, hold, hsched⟩) with hdue | hpolled
    · rcases hdue with hmem | ⟨t', ht', hsched'⟩
      · exact absurd hmem (htasks.tasks.slot t task hget').2
      · exact htasks.tasks.inj t t' task hget' ht' ▸ hsched'
    · omega

/-- The runqueue is drained, after events have been processed. -/
theorem WakesInv.processed (h : w.WakesInv) (hc : w.Consistent) (hproc : Processed w w')
    (hphase : w.toPoll = []) : (w'.drained hs).WakesInv := by
  obtain ⟨hc', h'⟩ := hproc.keeps (I := WakesInv)
    (fun w₁ a w₂ hc₁ ha hi hm => by
      obtain ⟨g, rfl⟩ := ha
      exact WakesInv.move hi hc₁ (a := .process true g) nofun hm) hc h
  refine h'.of_due hc' rfl (h'.tasks.drained hs) le_rfl (fun _ _ => ⟨id, fun _ => .inl⟩)
    (fun _ => .inl rfl) fun task _ hdue => .inl (hdue.imp_right ?_)
  rintro ⟨t, hget, hsched⟩
  exact ⟨t, hget, drained_scheduled hsched (hproc.quiet.toPoll.trans hphase)⟩

/-- The new tasks are set up and the woken ones queued. -/
theorem WakesInv.collected (h : w.WakesInv) (hc : w.Consistent) (hphase : w.phase = .idle)
    {rt : Runtime} (hrt : w.rt.collect = some rt) :
    ({ w with rt := { rt with ctx := { rt.ctx with queued := 0 } } } : World).WakesInv := by
  have hcollected := h.tasks.tasks.collect hrt
  refine h.of_due hc rfl ⟨hcollected, fun id task hcur => ?_⟩ le_rfl (fun task _ => ?_)
    (fun _ => .inl rfl) fun task _ hdue => .inl (.inr ?_)
  · simp only [currentTask, hphase] at hcur
    cases hcur
  · have hget : (task ∈ rt.ctx.created → _) ∧ _ := collected_get hrt
    exact hget
  · obtain ⟨t, hget, hmem⟩ := collected_queued hrt (toPoll_eq_nil (by simp [hphase])) hdue
    exact ⟨t, hget, .inl hmem⟩

theorem WakesInv.runtimeStep (h : w.WakesInv) (hc : w.Consistent) (hst : RuntimeStep hs w e w')
    (hno : e ≠ .polled .panicked) : w'.WakesInv := by
  have htasks := h.tasks.runtimeStep hst
  have hsame (hfuts : w'.ledger.futs = w.ledger.futs) : w'.WakesInv :=
    h.of_due hc hfuts htasks hst.nextTask (fun task hlt => hst.get hlt)
      (fun task => (hst.lastPoll task).2) fun task hlive hdue => hst.due h.tasks hno hlive hdue
  cases hst with
  | @turnPolls rt w₁ hphase hwants hrt hsub hproc =>
    have hnil : w.toPoll = [] := toPoll_eq_nil (by simp [hphase])
    have hcollected := hc.collected hrt
    have hc' : Consistent { w with rt := { rt with ctx := { rt.ctx with queued := 0 } } } :=
      hcollected.move (.runtime ⟨rfl, rfl, rfl, rfl, rfl, rfl, .inl rfl, hcollected.current⟩)
    exact (h.collected hc hphase hrt).processed hc' hproc hnil
  | @submitted waitFor ret sq w₁ hnone hphase hring hproc =>
    have hnil : w.toPoll = [] := toPoll_eq_nil (by simp [hphase])
    have hsettled := hc.move hring
    have hc' : (w.withCtx { w.ctx with sq, queued := 0 }).Consistent :=
      hsettled.move (.runtime ⟨rfl, rfl, rfl, rfl, rfl, rfl, .inl rfl, hsettled.current⟩)
    have h' : (w.withCtx { w.ctx with sq, queued := 0 }).WakesInv :=
      h.of_due hc rfl ⟨h.tasks.tasks, h.tasks.current⟩ le_rfl
        (fun _ _ => ⟨id, fun _ => .inl⟩) (fun _ => .inl rfl)
        fun _ _ hdue => .inl (hdue.of_same rfl rfl rfl rfl fun _ => id)
    exact h'.processed hc' hproc hnil
  | _ => exact hsame rfl

/-! ## Whole runs -/

theorem Init.wakesInv (h : w.Init) : w.WakesInv := by
  refine ⟨h.tasksOk, fun g f t task hg => ?_, fun g f cqe time t task hg => ?_⟩
  · rw [h.ledger] at hg
    cases hg
  · rw [h.ledger] at hg
    cases hg

theorem WakesInv.step (h : w.WakesInv) (hc : w.Consistent) (hno : e ≠ .polled .panicked)
    (hw : w.step hs e = some (out, w')) : w'.WakesInv := by
  rcases hc.step_cases hw with hdoes | hrun
  · refine (hdoes.keeps (I := WakesInv) (fun w₁ a w₂ hc₁ ha hi hm => ?_) hc h).2
    exact hi.move hc₁ (by rintro rfl; exact ha) hm
  · exact h.runtimeStep hc hrun hno

/-- Since the clock was at `c`, the task has been polled or is due, if there still is one. -/
structure Waiting (w : World) (task : FutureObj) (c : ℕ) : Prop where
  lt : task < w.nextTask
  clock : c ≤ w.ledger.clock
  due : w.Live task → w.Due task ∨ c < w.ledger.lastPoll task

theorem Waiting.step (h : w.Waiting task c) (ht : w.TasksOk) (hc : w.Consistent)
    (hno : e ≠ .polled .panicked) (hw : w.step hs e = some (out, w')) : w'.Waiting task c := by
  rcases hc.step_cases hw with hdoes | hst
  · have hq := hdoes.quiet id
    refine ⟨hq.nextTask ▸ h.lt, h.clock.trans hq.clock.ge, fun hlive => ?_⟩
    exact (h.due (hq.live hlive)).imp hq.due fun hlt => hq.lastPoll ▸ hlt
  · obtain ⟨hclock, hlast⟩ := hst.lastPoll task
    refine ⟨h.lt.trans_le hst.nextTask, h.clock.trans hclock, fun hlive => ?_⟩
    rcases h.due (hst.live h.lt hlive) with hdue | hpolled
    · exact (hst.due ht hno hlive hdue).imp_right h.clock.trans_lt
    · rcases hlast with heq | hlt
      · exact .inr (heq ▸ hpolled)
      · exact .inr (h.clock.trans_lt hlt)

theorem Consistent.step_turn (h : w.Consistent) (hw : w.step hs .turn = some (out, w')) :
    RuntimeStep hs w .turn w' := by
  obtain ⟨hidle, hw⟩ := Option.ite_none_right_eq_some.1 hw
  rw [Bool.and_eq_true] at hidle
  exact turn_cases h hidle.1 hidle.2 hw

theorem Turning.step (h : w.Turning task c) (ht : w.TasksOk) (hc : w.Consistent)
    (he : e ≠ .turn) (hno : e ≠ .polled .panicked) (hw : w.step hs e = some (out, w')) :
    w'.Turning task c := by
  rcases hc.step_cases hw with hdoes | hst
  · exact h.quiet (hdoes.quiet id)
  · exact hst.turning ht he hno h

/-- When a turn returns `Ok`, what it was to poll has been polled. -/
theorem Turning.polled (h : w.Turning task c) (hw : w.step hs .turnOk = some (out, w')) :
    c < w'.ledger.lastPoll task := by
  have hw := (Option.ite_none_right_eq_some.1 hw).2
  simp only [World.turnOk] at hw
  split at hw
  · rename_i hphase
    obtain ⟨-, rfl⟩ := Prod.mk.inj (Option.some.inj hw)
    refine h.awaits.resolve_left fun hawaits => ?_
    simp only [Awaits, hphase] at hawaits
    obtain ⟨t, -, hmem⟩ := hawaits
    cases hmem
  · cases hw

/-- What is due is due, or has been polled, at the end of every run. -/
theorem Reachable.waiting {l : List (Event × World)} (h : Reachable hs w) (hdue : w.Due task)
    (hr : Run (Step hs) w l) (hno : ∀ p ∈ l, p.1 ≠ .polled .panicked) :
    Reachable hs (final w l) ∧ (final w l).Waiting task w.ledger.clock := by
  have htasks := (Reachable.tasksOk h).tasks
  have hlt : task < w.nextTask := by
    rcases hdue with hmem | ⟨t, hget, -⟩
    · exact htasks.waiting task hmem
    · exact (htasks.slot t task hget).1
  have hstep : ∀ u e v, Reachable hs u ∧ u.Waiting task w.ledger.clock → e ≠ .polled .panicked →
      Step hs u e v → Reachable hs v ∧ v.Waiting task w.ledger.clock := by
    rintro u e v ⟨hu, hwait⟩ hne ⟨out, hw⟩
    exact ⟨hu.tail ⟨out, hw⟩,
      hwait.step (Reachable.tasksOk hu) (Reachable.consistent hu) hne hw⟩
  exact hr.invariant_of_events hstep ⟨h, hlt, le_rfl, fun _ => .inl hdue⟩ hno _
    (final_mem_states ..)

/-- What a turn was to poll is polled when it returns. -/
theorem Turning.run {l : List (Event × World)} (h : w.Turning task c) (hreach : Reachable hs w)
    (hr : Run (Step hs) w l) (hturn : ∀ p ∈ l, p.1 ≠ .turn)
    (hno : ∀ p ∈ l, p.1 ≠ .polled .panicked) : (final w l).Turning task c := by
  have hstep : ∀ u e v, Reachable hs u ∧ u.Turning task c → e ≠ .turn ∧ e ≠ .polled .panicked →
      Step hs u e v → Reachable hs v ∧ v.Turning task c := by
    rintro u e v ⟨hu, hturning⟩ ⟨he, hne⟩ ⟨out, hw⟩
    exact ⟨hu.tail ⟨out, hw⟩,
      hturning.step (Reachable.tasksOk hu) (Reachable.consistent hu) he hne hw⟩
  exact (hr.invariant_of_events (C := fun e : Event => e ≠ .turn ∧ e ≠ .polled .panicked) hstep
    ⟨hreach, h⟩ (fun p hp => ⟨hturn p hp, hno p hp⟩) _ (final_mem_states ..)).2

/-- **No wakeup is lost.**  In a run in which no task panics, a task that last polled a live future
whose event has been processed is scheduled, in every state, unless it has been polled again
since; and a task that is scheduled is polled by the end of the next turn that returns `Ok`, if
it still is there when that turn begins. -/
theorem noLostWakeup {l : List (Event × World)} (h0 : w.Init)
    (hr : Run (Step hs) w l) (hno : ∀ p ∈ l, p.1 ≠ .polled .panicked) :
    (∀ u ∈ states w l, u.Wakes) ∧
      ∀ l₁ l₂ l₃ l₄ u v task, l = l₁ ++ l₂ ++ (.turn, u) :: l₃ ++ (.turnOk, v) :: l₄ →
        (∀ p ∈ l₃, p.1 ≠ .turn) → (final w l₁).Due task → (final w (l₁ ++ l₂)).Live task →
          (final w l₁).ledger.clock < v.ledger.lastPoll task := by
  constructor
  · have hinv : ∀ u ∈ states w l, Reachable hs u ∧ u.WakesInv := by
      refine hr.invariant_of_events (C := (· ≠ .polled .panicked)) ?_ ⟨.init h0, h0.wakesInv⟩ hno
      rintro u e v ⟨hu, hi⟩ hne ⟨out, hw⟩
      exact ⟨hu.tail ⟨out, hw⟩, hi.step (Reachable.consistent hu) hne hw⟩
    exact fun u hu => (hinv u hu).2.wakes
  · rintro l₁ l₂ l₃ l₄ u v task rfl hturn hdue hlive
    obtain ⟨hr, hok⟩ := Run.append_iff.1 hr
    obtain ⟨hr, hrest⟩ := Run.append_iff.1 hr
    obtain ⟨hr₁, hr₂⟩ := Run.append_iff.1 hr
    rw [final_append] at hlive hrest hok
    rw [final_append] at hok
    obtain ⟨⟨out, hbegins⟩, hr₃⟩ := Run.cons_iff.1 hrest
    obtain ⟨⟨out', hok⟩, -⟩ := Run.cons_iff.1 hok
    have hreach : Reachable hs (final w l₁) :=
      Runs.Reachable.run (.init h0) hr₁ _ (final_mem_states ..)
    obtain ⟨hreach₂, hwaiting⟩ :=
      Reachable.waiting hreach hdue hr₂ fun p hp => hno p (by simp [hp])
    have hturning := ((Reachable.consistent hreach₂).step_turn hbegins).turn_turning
      hwaiting.clock (hwaiting.due hlive)
    exact (hturning.run (hreach₂.tail ⟨out, hbegins⟩) hr₃ hturn
      fun p hp => hno p (by simp [hp])).polled hok

/-! ## A task that waits, and does something else when it is woken -/

/-- A task waits for an event, which is posted and processed. -/
def wokenTask : List Event :=
  [.openSession, .request (.submitSqe id), .submit, .spawn, .turn, .chooseWait, .enter (.ok 1),
    .next, .poll 0, .complete 0 0 0, .post 0, .polled .pending, .turnOk, .turn]

theorem wokenTask_wakes : Always Wakes emptyWorld (play (next? ⟨id, id⟩) emptyWorld wokenTask) := by
  refine (noLostWakeup emptyWorld_init (run_play _ _ _) fun p hp => ?_).1
  have hmem := fst_mem_of_mem_play hp
  rintro heq
  simp [wokenTask, heq] at hmem

/-- The task is polled, and does not poll the future. -/
def polledAgain : List Event := wokenTask ++ [.next, .polled .pending, .turnOk]

/-- **A task that has been polled since its event was processed need not be scheduled**, though
no task panics. -/
theorem polledAgain_not_scheduled :
    ¬ ∀ (hs : Hashes) (w u : World) (l : List (Event × World)), w.Init → Run (Step hs) w l →
      (∀ p ∈ l, p.1 ≠ .polled .panicked) → u ∈ states w l → u.currentTask = none →
        ∀ g f cqe time t task, u.ledger.futs g = some f → f.life = .live →
          f.polledBy = some (t, task) → f.stage = .processed cqe time →
          u.rt.futures.get t = some task → u.Scheduled t := by
  intro h
  have hr : emptyWorld.runs ⟨id, id⟩ polledAgain = some _ := rfl
  have hevents : ∀ p ∈ play (next? ⟨id, id⟩) emptyWorld polledAgain,
      p.1 ≠ .polled .panicked := by
    intro p hp heq
    have hmem := fst_mem_of_mem_play hp
    simp [polledAgain, wokenTask, heq] at hmem
  have hsched := h ⟨id, id⟩ emptyWorld _ _ emptyWorld_init (run_play _ _ polledAgain) hevents
    (final_play hr ▸ final_mem_states ..) rfl 0 _ _ _ 0 0 rfl rfl rfl rfl rfl
  rcases hsched with hmem | hmem | hmem <;> exact List.not_mem_nil hmem

end World

end Hamerkop
