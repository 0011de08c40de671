import Hamerkop.Executor.Wakeups

/-!
# A task panics

`turn` drains the runqueue while it polls.  When a task panics, what has not been
polled yet goes with the drain.

`World.keepsQueued_iff` says for which panics every other task is scheduled when
the runtime is turned again: those behind which no live task stood, but for tasks
that are in `woken` too or leave with the panic themselves.
-/

namespace Hamerkop

open Runs

namespace World

variable {hs : Hashes} {w w' : World} {e : Event} {out : Out} {task : FutureObj} {t : ℕ}

/-- Every live task that was still to be polled is scheduled when `turn` is next called. -/
def KeepsQueued (hs : Hashes) (w w' : World) : Prop :=
  ∀ rest current, w.phase = .polling rest current →
    ∀ l, Run (Step hs) w' l → (∀ p ∈ l, p.1 ≠ .turn) →
      (final w' l).isIdle = true → (final w' l).wantsTurn = true →
        ∀ t ∈ rest, ∀ task, w.rt.futures.get t = some task →
          (final w' l).rt.futures.get t = some task →
            t ∈ (final w' l).rt.runqueue ∨ t ∈ (final w' l).ctx.woken

/-- Every live task that is still to be polled is woken already, unless it is polled right now or
is the one of a `block_on`. -/
def QueuedElsewhere (w : World) : Prop :=
  ∀ rest id task₀, w.phase = .polling rest (some (id, task₀)) →
    ∀ t ∈ rest, (w.rt.futures.get t).isSome →
      t = id ∨ t ∈ w.ctx.woken ∨ ∃ frame, w.frame = some frame ∧ frame.id = t

/-! ## The runqueue while it is drained -/

/-- While tasks are polled the runqueue is empty. -/
def Drained (w : World) : Prop :=
  ∀ rest current, w.phase = .polling rest current → w.rt.runqueue = []

theorem Drained.of_phase (h : ∀ rest current, w.phase ≠ .polling rest current) : w.Drained :=
  fun rest current hphase => absurd hphase (h rest current)

theorem Drained.runtimeStep (h : w.Drained) (hst : RuntimeStep hs w e w') : w'.Drained := by
  cases hst with
  | handleSpawn => exact h
  | spawn hphase _ _ | blockOn hphase _ _ =>
    exact .of_phase (by simp [hphase])
  | turnPolls _ _ _ _ _ => exact fun _ _ _ => rfl
  | submitted _ _ _ _ => exact fun _ _ _ => rfl
  | skip hphase _ | next hphase _ | ready hphase | pending hphase =>
    have hnil := h _ _ hphase
    exact fun _ _ _ => hnil
  | _ => exact .of_phase nofun

theorem Reachable.drained (h : Reachable hs w) : w.Drained := by
  induction h with
  | init hi => exact .of_phase (by simp [hi.phase])
  | tail hr hst ih =>
    obtain ⟨out, hw⟩ := hst
    rcases (Reachable.consistent hr).step_cases hw with hdoes | hrun
    · intro rest current hphase
      rw [hdoes.runqueue]
      exact ih rest current ((hdoes.quiet id).phase.symm.trans hphase)
    · exact ih.runtimeStep hrun

/-! ## Until the next turn -/

/-- Only `turn` takes tasks out of `woken`. -/
theorem RuntimeStep.woken (hst : RuntimeStep hs w e w') (he : e ≠ .turn) :
    w'.ctx.woken = w.ctx.woken := by
  cases hst with
  | turnPanics | turnSubmits | turnPolls => exact absurd rfl he
  | submitted hnone hphase hring hproc => exact hproc.woken
  | _ => rfl

theorem step_woken (hc : w.Consistent) (he : e ≠ .turn) (hw : w.step hs e = some (out, w')) :
    w.ctx.woken ⊆ w'.ctx.woken := by
  rcases hc.step_cases hw with hdoes | hrun
  · exact (hdoes.quiet id).woken.subset
  · rw [hrun.woken he]
    exact fun _ => id

/-- The task is one of the past. -/
structure Over (w : World) (task : FutureObj) : Prop where
  lt : task < w.nextTask
  dead : ¬ w.Live task

theorem Over.step (h : w.Over task) (hc : w.Consistent) (hw : w.step hs e = some (out, w')) :
    w'.Over task := by
  rcases hc.step_cases hw with hdoes | hrun
  · have hq := hdoes.quiet id
    exact ⟨hq.nextTask ▸ h.lt, fun hlive => h.dead (hq.live hlive)⟩
  · exact ⟨h.lt.trans_le hrun.nextTask, fun hlive => h.dead (hrun.live h.lt hlive)⟩

/-- A task that has left its slot is over. -/
theorem TasksOk.over (h : w.TasksOk) {id : ℕ} (hget : w.rt.futures.get id = some task)
    (hremoved : w'.rt.futures = (w.rt.futures.remove id).2)
    (hcreated : w'.ctx.created = w.ctx.created) (hnext : w'.nextTask = w.nextTask) :
    w'.Over task := by
  obtain ⟨hlt, hnot⟩ := h.tasks.slot id task hget
  refine ⟨hnext ▸ hlt, ?_⟩
  rintro (hmem | ⟨t, ht⟩)
  · exact hnot (hcreated ▸ hmem)
  · rw [hremoved] at ht
    obtain rfl := h.tasks.inj t id task (Slots.get_of_remove ht) hget
    rw [Slots.get_remove, Function.update_self] at ht
    cases ht

/-- The task leaves with the panic: it is that of the `block_on`, or has left. -/
def Leaves (w : World) (task : FutureObj) : Prop :=
  (w.phase = .unwinding ∧ ∃ frame, w.frame = some frame ∧ w.rt.futures.get frame.id = some task) ∨
    w.Over task

theorem Leaves.step (h : w.Leaves task) (hc : w.Consistent) (ht : w.TasksOk)
    (hw : w.step hs e = some (out, w')) : w'.Leaves task := by
  rcases h with ⟨hphase, frame, hframe, hget⟩ | hover
  · rcases hc.step_cases hw with hdoes | hrun
    · have hq := hdoes.quiet id
      exact .inl ⟨hq.phase.trans hphase, frame, hq.frame.trans hframe, hq.futures ▸ hget⟩
    · cases hrun with
      | handleSpawn => exact .inl ⟨hphase, frame, hframe, hget⟩
      | cleanUp _ hframe' =>
        obtain rfl := Option.some.inj (hframe.symm.trans hframe')
        exact .inr (ht.over hget rfl rfl rfl)
      | unwound _ hnone =>
        rw [hframe] at hnone
        cases hnone
      | spawn hp | blockOn hp | turnPanics hp | turnSubmits _ hp | turnPolls hp | chooseWait hp
      | submitted _ hp | failed _ hp | skip hp | next hp | ready hp | pending hp | panicked hp
      | turnOk hp => cases hphase.symm.trans hp
  · exact .inr (hover.step hc hw)

theorem Leaves.get_eq_none (h : w.Leaves task) (hphase : w.phase ≠ .unwinding) :
    w.rt.futures.get t ≠ some task := by
  rcases h with ⟨hp, -⟩ | hover
  · exact absurd hp hphase
  · exact fun ht => hover.dead (.inr ⟨t, ht⟩)

/-! ## What is left of the runqueue -/

theorem polled_panicked (hw : w.step hs (.polled .panicked) = some (out, w')) :
    w.call = .none ∧ ∃ rest id task, w.phase = .polling rest (some (id, task)) ∧
      w' = { w.removeTask id with phase := .unwinding } := by
  obtain ⟨hcall, hw⟩ := Option.ite_none_right_eq_some.1 hw
  refine ⟨?_, ?_⟩
  · cases hn : w.call with
    | none => rfl
    | _ => simp [hn, Call.isNone] at hcall
  · simp only [World.polled] at hw
    split at hw
    · rename_i rest id task hphase
      obtain ⟨-, rfl⟩ := Prod.mk.inj (Option.some.inj hw)
      exact ⟨rest, id, task, hphase, rfl⟩
    · cases hw

/-- The panic leaves `turn`, and `block_on` if there is one. -/
theorem exists_unwound (hcall : w.call = .none) (hphase : w.phase = .unwinding) :
    ∃ v, Step hs w .unwound v ∧ v.call = .none ∧ v.phase = .idle ∧ v.frame = none ∧
      v.rt.runqueue = w.rt.runqueue ∧ v.ctx.woken = w.ctx.woken ∧
      ∀ t task, w.rt.futures.get t = some task → (∀ frame, w.frame = some frame → frame.id ≠ t) →
        v.rt.futures.get t = some task := by
  cases hframe : w.frame with
  | none =>
    refine ⟨{ w with phase := .idle }, ⟨.silent, ?_⟩, hcall, rfl, hframe, rfl, rfl,
      fun t task hget _ => hget⟩
    simp [World.step, World.unwound, hcall, hphase, hframe, Call.isNone]
  | some frame =>
    refine ⟨{ w.removeTask frame.id with frame := none, phase := .idle }, ⟨.silent, ?_⟩, hcall, rfl,
      rfl, rfl, rfl, fun t task hget hne => ?_⟩
    · simp [World.step, World.unwound, hcall, hphase, hframe, Call.isNone]
    · show (w.rt.futures.remove frame.id).2.get t = some task
      rw [Slots.get_remove, Function.update_of_ne (hne frame rfl).symm, hget]

theorem wantsTurn_of_get (hframe : w.frame = none) (hget : w.rt.futures.get t = some task) :
    w.wantsTurn = true := by
  have hlen : w.rt.futures.len ≠ 0 := by
    rw [Slots.len_eq]
    exact Finset.card_ne_zero_of_mem (Slots.mem_live.2 (by rw [hget]; rfl))
  simp [wantsTurn, hframe, Runtime.isEmpty, hlen]

/-- What is still scheduled was queued elsewhere: nothing but the drain is at hand when the
runtime is turned at once. -/
theorem Reachable.queuedElsewhere (h : Reachable hs w)
    (hw : w.step hs (.polled .panicked) = some (out, w')) (hkeeps : KeepsQueued hs w w') :
    w.QueuedElsewhere := by
  obtain ⟨hcall, rest, id, task, hphase, rfl⟩ := polled_panicked hw
  have hdrained := Reachable.drained h rest _ hphase
  intro rest' id' task' hphase' t hmem hsome
  obtain ⟨rfl, heq⟩ := Phase.polling.inj (hphase.symm.trans hphase')
  obtain ⟨rfl, rfl⟩ := Prod.mk.inj (Option.some.inj heq)
  by_cases hti : t = id
  · exact .inl hti
  by_cases hframe : ∃ frame, w.frame = some frame ∧ frame.id = t
  · exact .inr (.inr hframe)
  obtain ⟨task', hget⟩ := Option.isSome_iff_exists.1 hsome
  have hremoved : (w.removeTask id).rt.futures.get t = some task' := by
    show (w.rt.futures.remove id).2.get t = some task'
    rw [Slots.get_remove, Function.update_of_ne hti, hget]
  obtain ⟨v, hstep, hvcall, hvphase, hvframe, hvrun, hvwoken, hvget⟩ :=
    @exists_unwound hs { w.removeTask id with phase := .unwinding } hcall rfl
  have hvget := hvget t task' hremoved fun frame hf hid => hframe ⟨frame, hf, hid⟩
  have hidle : v.isIdle = true := by simp [isIdle, hvcall, hvphase, Call.isNone]
  have hqueued := hkeeps rest _ hphase [(.unwound, v)] (.cons hstep (.nil v)) (by simp) hidle
    (wantsTurn_of_get hvframe hvget) t hmem task' hget hvget
  have hnil : v.rt.runqueue = [] := hvrun.trans hdrained
  rw [final_cons, final_nil, hnil, hvwoken] at hqueued
  exact .inr (.inl (hqueued.resolve_left List.not_mem_nil))

/-- What is queued elsewhere stays queued, whatever happens until the next turn. -/
theorem Reachable.keepsQueued (h : Reachable hs w)
    (hw : w.step hs (.polled .panicked) = some (out, w')) (helse : w.QueuedElsewhere) :
    KeepsQueued hs w w' := by
  have ht := Reachable.tasksOk h
  have hw' : Reachable hs w' := h.tail ⟨out, hw⟩
  obtain ⟨-, rest, id, task, hphase, rfl⟩ := polled_panicked hw
  have hcurrent := ht.current id task (by rw [currentTask, hphase])
  have hover : Over { w.removeTask id with phase := .unwinding } task :=
    ht.over hcurrent rfl rfl rfl
  intro rest' current hphase' l hr hturn hidle _ t hmem task' hget hgetv
  obtain ⟨rfl, rfl⟩ := Phase.polling.inj (hphase.symm.trans hphase')
  have hleave : ¬ Leaves { w.removeTask id with phase := .unwinding } task' := by
    intro hleaves
    have hinv := hr.invariant_of_events (C := fun _ => True)
      (I := fun u => Reachable hs u ∧ u.Leaves task') (fun u e v hu _ hst => by
        obtain ⟨out, hw⟩ := hst
        exact ⟨hu.1.tail ⟨out, hw⟩,
          hu.2.step (Reachable.consistent hu.1) (Reachable.tasksOk hu.1) hw⟩)
      ⟨hw', hleaves⟩ (fun _ _ => trivial) _ (final_mem_states ..)
    exact hinv.2.get_eq_none (by simp [idle_of_isIdle hidle]) hgetv
  by_cases hti : t = id
  · rw [hti] at hget
    obtain rfl := Option.some.inj (hcurrent.symm.trans hget)
    exact absurd (.inr hover) hleave
  rcases helse rest id task hphase t hmem (by rw [hget]; rfl) with heq | hwoken |
    ⟨frame, hframe, rfl⟩
  · exact absurd heq hti
  · have hinv := hr.invariant_of_events (C := (· ≠ .turn))
      (I := fun u => Reachable hs u ∧ t ∈ u.ctx.woken) (fun u e v hu he hst => by
        obtain ⟨out, hw⟩ := hst
        exact ⟨hu.1.tail ⟨out, hw⟩, step_woken (Reachable.consistent hu.1) he hw hu.2⟩)
      ⟨hw', hwoken⟩ hturn _ (final_mem_states ..)
    exact .inr hinv.2
  · refine absurd (.inl ⟨rfl, frame, hframe, ?_⟩) hleave
    show (w.rt.futures.remove id).2.get frame.id = some task'
    rw [Slots.get_remove, Function.update_of_ne hti, hget]

/-- **A panic loses no wakeup exactly if those it leaves behind are queued elsewhere**: every live
task that stood behind the panicking one is scheduled when the runtime is next turned, whatever
happens until then, iff each of them was in `woken` at the time of the panic or leaves its slot
with it. -/
theorem keepsQueued_iff (h : Reachable hs w) (hw : w.step hs (.polled .panicked) = some (out, w')) :
    KeepsQueued hs w w' ↔ w.QueuedElsewhere :=
  ⟨Reachable.queuedElsewhere h hw, Reachable.keepsQueued h hw⟩

/-! ## Two tasks, the first of which panics -/

/-- The only task behind the one that panics is the one of `block_on`, which goes with it. -/
def beforeBlockOn : List Event := [.spawn, .blockOn, .turn, .next]

theorem beforeBlockOn_keepsQueued : ∃ w out w', emptyWorld.runs ⟨id, id⟩ beforeBlockOn = some w ∧
    (w.rt.futures.get 1).isSome ∧ w.step ⟨id, id⟩ (.polled .panicked) = some (out, w') ∧
      KeepsQueued ⟨id, id⟩ w w' := by
  have hstep : ((emptyWorld.runs ⟨id, id⟩ beforeBlockOn).bind fun w =>
      w.step ⟨id, id⟩ (.polled .panicked)).isSome := rfl
  have hbehind : (emptyWorld.runs ⟨id, id⟩ beforeBlockOn).map (fun w =>
      ((w.rt.futures.get 1).isSome, w.frame.map Frame.id, w.toPoll)) =
        some (true, some 1, [1]) := rfl
  obtain ⟨⟨out, w'⟩, hstep⟩ := Option.isSome_iff_exists.1 hstep
  obtain ⟨w, hr, hw⟩ := Option.bind_eq_some_iff.1 hstep
  rw [hr, Option.map_some, Option.some.injEq, Prod.mk.injEq, Prod.mk.injEq] at hbehind
  obtain ⟨hlive, hframe, hrest⟩ := hbehind
  obtain ⟨frame, hframe, hid⟩ := Option.map_eq_some_iff.1 hframe
  refine ⟨w, out, w', hr, hlive, hw, ?_⟩
  refine (keepsQueued_iff (.runs (.init emptyWorld_init) hr) hw).2 ?_
  intro rest id task hphase t hmem _
  rw [toPoll, hphase] at hrest
  obtain rfl := hrest
  obtain rfl := List.mem_singleton.1 hmem
  exact .inr (.inr ⟨frame, hframe, hid⟩)

/-- There is a task behind it that nobody has woken. -/
def twoTasks : List Event := [.spawn, .spawn, .turn, .next]

/-- **A panic loses the wakeups of the tasks behind it.** -/
theorem twoTasks_not_keepsQueued :
    ¬ ∀ (hs : Hashes) (w w' : World), Reachable hs w → Step hs w (.polled .panicked) w' →
      KeepsQueued hs w w' := by
  intro h
  have hr : emptyWorld.runs ⟨id, id⟩ twoTasks = some _ := rfl
  have hreach := Reachable.runs (.init emptyWorld_init) hr
  have helse := Reachable.queuedElsewhere hreach rfl (h _ _ _ hreach ⟨.silent, rfl⟩) [1] 0 0 rfl 1
    (List.mem_singleton_self _) rfl
  rcases helse with heq | hmem | ⟨frame, hframe, -⟩
  · cases heq
  · exact List.not_mem_nil hmem
  · cases hframe

end World

end Hamerkop
