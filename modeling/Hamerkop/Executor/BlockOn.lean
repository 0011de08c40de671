import Hamerkop.Executor.Scheduling

/-!
# `block_on` and the future it borrows from

`block_on` puts a future into the table of tasks that points at its own stack frame,
and must not return, nor let a panic pass, while it is still there.  It does not
return what the future puts out (see `Frame`): it ends when a turn fails, or panics,
which may be long after the future was done.

`World.leavesNothing_iff` follows both ways out of it: in a run the future is gone,
and every other one where it was, whenever `block_on` ends, exactly if
* no turn of a `block_on` fails before its future is done: the error leaves through
  the `?` behind `turn`, which the cleanup does not see (`failedTurn_not_leavesNothing`);
* no panic leaves a turn of a `block_on` whose future is done and whose slot is taken
  again: the cleanup would remove the task that has it now.
-/

namespace Hamerkop

open Runs

namespace World

variable {hs : Hashes} {w w' : World} {e : Event} {out : Out} {frame : Frame}

/-- The task of the `block_on` is in no slot. -/
def Absent (w : World) (frame : Frame) : Prop := ∀ t, w.rt.futures.get t ≠ some frame.task

/-- The task of a `block_on` is in its slot until it is done or panics; after a panic of its own
its slot is free as long as the panic has not reached the `block_on`. -/
structure FrameOk (w : World) (frame : Frame) : Prop where
  lt : frame.task < w.nextTask
  setUp : frame.task ∉ w.ctx.created
  task : w.rt.futures.get frame.id = some frame.task ∧ frame.done = false ∨
    w.Absent frame ∧ (frame.done = true ∨ w.phase = .unwinding ∧ w.rt.futures.get frame.id = none)

/-- The `block_on` that is under way, if one is, keeps to that. -/
def FramesOk (w : World) : Prop := ∀ frame, w.frame = some frame → w.FrameOk frame

/-- `block_on` has ended: its future is gone, and the other tasks are where they were. -/
def LeavesNothing (w w' : World) : Prop :=
  ∀ frame, w.frame = some frame → w'.frame = none →
    (frame.task ∉ w'.ctx.created ∧ ∀ t, w'.rt.futures.get t ≠ some frame.task) ∧
      ∀ t task, w.rt.futures.get t = some task → task ≠ frame.task →
        w'.rt.futures.get t = some task

/-- A `block_on` does not end with an error before its future is done, and not with a panic when it
is done and another task has its slot. -/
def BlockOnEndsWell (w : World) : Event → Prop
  | .enter (.error errno) => ∀ frame, w.frame = some frame → frame.done = false → w.call = .none →
      ∀ waitFor args, w.phase = .submitting waitFor → w.ctx.sq.enterCall waitFor = some args →
        IOContext.isBusy errno = true
  | .unwound => ∀ frame, w.frame = some frame → frame.done = true →
      w.rt.futures.get frame.id = none
  | _ => True

/-! ## The future stays where it is -/

theorem Absent.remove (h : w.Absent frame) (id : ℕ) : (w.removeTask id).Absent frame :=
  fun t ht => h t (Slots.get_of_remove ht)

theorem FrameOk.congr (h : w.FrameOk frame) (hnext : w.nextTask ≤ w'.nextTask)
    (hcreated : frame.task ∈ w'.ctx.created → frame.task ∈ w.ctx.created)
    (hfutures : w'.rt.futures = w.rt.futures)
    (hunwind : w.phase = .unwinding → w'.phase = .unwinding) : w'.FrameOk frame := by
  refine ⟨h.lt.trans_le hnext, fun hmem => h.setUp (hcreated hmem), ?_⟩
  unfold Absent
  rw [hfutures]
  exact h.task.imp_right (And.imp_right (Or.imp_right (And.imp_left hunwind)))

theorem Quiet.framesOk (hq : Quiet w w') (h : w.FramesOk) : w'.FramesOk := by
  intro frame hframe
  have hok := h frame (hq.frame ▸ hframe)
  exact hok.congr hq.nextTask.ge (fun hmem => hq.created ▸ hmem) hq.futures
    fun hphase => hq.phase.trans hphase

/-- While it is not done and no panic has left `turn`, the task is there. -/
theorem FrameOk.get (h : w.FrameOk frame) (hdone : frame.done = false)
    (hphase : w.phase ≠ .unwinding) : w.rt.futures.get frame.id = some frame.task := by
  rcases h.task with ⟨hget, -⟩ | ⟨-, hd | ⟨hp, -⟩⟩
  · exact hget
  · rw [hdone] at hd
    cases hd
  · exact absurd hp hphase

/-- When it is done the task is gone. -/
theorem FrameOk.absent (h : w.FrameOk frame) (hdone : frame.done = true) : w.Absent frame := by
  rcases h.task with ⟨-, hd⟩ | ⟨habsent, -⟩
  · rw [hdone] at hd
    cases hd
  · exact habsent

/-- Removing the task of the `block_on` from its slot leaves it in none. -/
theorem TasksOk.absent (h : w.TasksOk) (hget : w.rt.futures.get frame.id = some frame.task) :
    (w.removeTask frame.id).Absent frame := by
  intro t hi
  obtain rfl := h.tasks.inj t frame.id _ (Slots.get_of_remove hi) hget
  rw [show (w.removeTask frame.id).rt.futures.get = _ from Slots.get_remove ..,
    Function.update_self] at hi
  cases hi

theorem get_removeTask_self (w : World) (id : ℕ) :
    (w.removeTask id).rt.futures.get id = none := by
  show (w.rt.futures.remove id).2.get id = none
  rw [Slots.get_remove, Function.update_self]

theorem get_removeTask_of_ne {t id : ℕ} (hne : t ≠ id) :
    (w.removeTask id).rt.futures.get t = w.rt.futures.get t := by
  show (w.rt.futures.remove id).2.get t = _
  rw [Slots.get_remove, Function.update_of_ne hne]

/-- The task of the `block_on` is polled and leaves its slot. -/
theorem FrameOk.removeTask {id : ℕ} (h : w.FrameOk frame) (ht : w.TasksOk)
    (hget : w.rt.futures.get id = some frame.task) :
    (w.removeTask id).Absent frame ∧ (w.removeTask id).rt.futures.get frame.id = none := by
  rcases h.task with ⟨hget', -⟩ | ⟨habsent, -⟩
  · obtain rfl := ht.tasks.inj frame.id id _ hget' hget
    exact ⟨ht.absent hget', get_removeTask_self w frame.id⟩
  · exact absurd hget (habsent id)

/-- Another task is polled and leaves its slot. -/
theorem FrameOk.removeOther {id : ℕ} {task : FutureObj} (h : w.FrameOk frame)
    (hphase : w.phase ≠ .unwinding) (hget : w.rt.futures.get id = some task)
    (hne : frame.task ≠ task) :
    (w.removeTask id).rt.futures.get frame.id = some frame.task ∧ frame.done = false ∨
      (w.removeTask id).Absent frame ∧ frame.done = true := by
  rcases h.task with ⟨hget', hdone⟩ | ⟨habsent, hdone | ⟨hp, -⟩⟩
  · have hid : frame.id ≠ id := by
      rintro heq
      exact hne (Option.some.inj ((heq ▸ hget').symm.trans hget))
    exact .inl ⟨(get_removeTask_of_ne hid).trans hget', hdone⟩
  · exact .inr ⟨habsent.remove id, hdone⟩
  · exact absurd hp hphase

/-- The new tasks are set up; that of the `block_on` stays where it is, and away when it is done. -/
theorem FrameOk.collect {rt : Runtime} (h : w.FrameOk frame) (hphase : w.phase = .idle)
    (hrt : w.rt.collect = some rt) :
    frame.task ∉ rt.ctx.created ∧
      (rt.futures.get frame.id = some frame.task ∧ frame.done = false ∨
        (∀ t, rt.futures.get t ≠ some frame.task) ∧ frame.done = true) := by
  obtain ⟨ids, -, hset⟩ := Runtime.collect_spec hrt
  refine ⟨by rw [Runtime.collect_ctx hrt]; exact List.not_mem_nil, ?_⟩
  rcases h.task with ⟨hget, hdone⟩ | ⟨habsent, hdone | ⟨hp, -⟩⟩
  · exact .inl ⟨hset.kept _ _ hget, hdone⟩
  · refine .inr ⟨fun t ht => ?_, hdone⟩
    rcases hset.only t _ ht with hold | hnew
    · exact habsent t hold
    · exact h.setUp hnew
  · rw [hphase] at hp
    cases hp

theorem FramesOk.runtimeStep (h : w.FramesOk) (ht : w.TasksOk) (hst : RuntimeStep hs w e w') :
    w'.FramesOk := by
  intro frame hframe
  cases hst with
  | handleSpawn =>
    have hok := h frame hframe
    refine hok.congr (Nat.le_succ _) (fun hmem => ?_) rfl id
    rcases List.mem_append.1 hmem with hmem | hmem
    · exact hmem
    · exact absurd hok.lt (List.mem_singleton.1 hmem ▸ lt_irrefl _)
  | spawn hphase hnone hins =>
    rw [show w.frame = some frame from hframe] at hnone
    cases hnone
  | blockOn hphase hnone hins =>
    obtain rfl := Option.some.inj hframe
    refine ⟨Nat.lt_succ_self _, fun hmem => lt_irrefl _ (ht.tasks.waiting _ hmem), .inl ⟨?_, rfl⟩⟩
    show Slots.get _ _ = _
    rw [Slots.get_insert hins, Function.update_self]
  | turnPanics hphase hsession => exact (h frame hframe).congr le_rfl id rfl fun _ => rfl
  | turnSubmits hnone hphase hwants hrt hsub =>
    have hok := h frame hframe
    obtain ⟨hmem, htask⟩ := hok.collect hphase hrt
    exact ⟨hok.lt, hmem, htask.imp_right (And.imp_right .inl)⟩
  | @turnPolls rt w₁ hphase hwants hrt hsub hproc =>
    have hq := hproc.quiet
    have hok := h frame (hq.frame.symm.trans hframe)
    have hfutures : w₁.rt.futures = rt.futures := hq.futures
    obtain ⟨hmem, htask⟩ := hok.collect hphase hrt
    rw [← hfutures] at htask
    exact ⟨hok.lt.trans_le hq.nextTask.ge, fun hm => hmem (hq.created ▸ hm :),
      htask.imp_right (And.imp_right .inl)⟩
  | chooseWait hphase =>
    refine (h frame hframe).congr le_rfl id rfl fun hp => ?_
    rw [hphase] at hp
    cases hp
  | submitted hnone hphase hring hproc =>
    have hq := hproc.quiet
    have hok' : FrameOk _ frame := hq.framesOk
      (fun f hf => (h f hf).congr le_rfl id rfl id) frame hframe
    refine hok'.congr le_rfl id rfl fun hp => ?_
    have hp' : w.phase = .unwinding := hq.phase.symm.trans hp
    rw [hphase] at hp'
    cases hp'
  | failed hnone hphase hcall hfatal => cases hframe
  | skip hphase hget | next hphase hget | pending hphase | turnOk hphase =>
    refine (h frame hframe).congr le_rfl id rfl fun hp => ?_
    rw [hphase] at hp
    cases hp
  | @ready id rest task hphase =>
    obtain ⟨frame₀, hframe₀, rfl⟩ := Option.map_eq_some_iff.1 hframe
    have hok := h frame₀ hframe₀
    have hget := ht.current id task (by rw [currentTask, hphase])
    by_cases htask : frame₀.task = task
    · rw [if_pos htask]
      exact ⟨hok.lt, hok.setUp, .inr ⟨(hok.removeTask ht (htask ▸ hget)).1, .inl rfl⟩⟩
    · rw [if_neg htask]
      exact ⟨hok.lt, hok.setUp, (hok.removeOther (by simp [hphase]) hget htask).imp_right
        (And.imp_right .inl)⟩
  | @panicked id rest task hphase =>
    have hok := h frame hframe
    have hget := ht.current id task (by rw [currentTask, hphase])
    refine ⟨hok.lt, hok.setUp, ?_⟩
    by_cases htask : frame.task = task
    · obtain ⟨habsent, hslot⟩ := hok.removeTask ht (htask ▸ hget)
      exact .inr ⟨habsent, .inr ⟨rfl, hslot⟩⟩
    · exact (hok.removeOther (by simp [hphase]) hget htask).imp_right
        (And.imp_right .inl)
  | cleanUp hphase hframe' => cases hframe
  | unwound hphase hnone =>
    rw [show w.frame = some frame from hframe] at hnone
    cases hnone

theorem Init.framesOk (h : w.Init) : w.FramesOk := by
  intro frame hframe
  rw [h.frame] at hframe
  cases hframe

/-- **The future of a `block_on` is in its slot until it is done or panics.** -/
theorem Reachable.framesOk (h : Reachable hs w) : w.FramesOk := by
  induction h with
  | init hi => exact hi.framesOk
  | tail hr hst ih =>
    obtain ⟨out, hw⟩ := hst
    rcases (Reachable.consistent hr).step_cases hw with hdoes | hrun
    · exact (hdoes.quiet id).framesOk ih
    · exact ih.runtimeStep (Reachable.tasksOk hr) hrun

/-! ## The ways out of `block_on` -/

/-- The cleanup removes the task of the `block_on` and no other, unless it is done and its slot is
taken again. -/
theorem FrameOk.leaves_cleanUp (h : w.FrameOk frame) (ht : w.TasksOk)
    (hdone : frame.done = true → w.rt.futures.get frame.id = none) :
    (w.removeTask frame.id).Absent frame ∧
      ∀ t task, w.rt.futures.get t = some task → task ≠ frame.task →
        (w.removeTask frame.id).rt.futures.get t = some task := by
  have hkeeps : ∀ t task, w.rt.futures.get t = some task → t ≠ frame.id →
      (w.removeTask frame.id).rt.futures.get t = some task :=
    fun t task hget hne => (get_removeTask_of_ne hne).trans hget
  rcases h.task with ⟨hget, -⟩ | ⟨habsent, hwhy⟩
  · refine ⟨ht.absent hget, fun t task hi hne => hkeeps t task hi ?_⟩
    rintro rfl
    exact hne (Option.some.inj (hi.symm.trans hget))
  · have hslot : w.rt.futures.get frame.id = none := hwhy.elim hdone And.right
    refine ⟨habsent.remove _, fun t task hi _ => hkeeps t task hi ?_⟩
    rintro rfl
    rw [hslot] at hi
    cases hi

/-- **`block_on` leaves nothing behind** when it ends well. -/
theorem RuntimeStep.leavesNothing (hst : RuntimeStep hs w e w') (hf : w.FramesOk) (ht : w.TasksOk)
    (he : w.BlockOnEndsWell e) : w.LeavesNothing w' := by
  intro frame hframe hnone'
  have hok := hf frame hframe
  cases hst with
  | failed hnone hphase hcall hfatal =>
    cases hdone : frame.done with
    | false =>
      rw [he frame hframe hdone hnone _ _ hphase hcall] at hfatal
      cases hfatal
    | true => exact ⟨⟨hok.setUp, hok.absent hdone⟩, fun t task hi _ => hi⟩
  | @cleanUp frame' hphase hframe' =>
    obtain rfl := Option.some.inj (hframe.symm.trans hframe')
    obtain ⟨habsent, hothers⟩ := hok.leaves_cleanUp ht (he frame hframe)
    exact ⟨⟨hok.setUp, habsent⟩, hothers⟩
  | unwound hphase hnone =>
    rw [hframe] at hnone
    cases hnone
  | ready hphase =>
    have hmap := Option.map_eq_none_iff.1 hnone'
    rw [hframe] at hmap
    cases hmap
  | turnPolls hphase hwants hrt hsub hproc =>
    have hgone : w.frame = none := hproc.quiet.frame.symm.trans hnone'
    rw [hframe] at hgone
    cases hgone
  | submitted hnone hphase hring hproc =>
    have hgone : w.frame = none := hproc.quiet.frame.symm.trans hnone'
    rw [hframe] at hgone
    cases hgone
  | blockOn => cases hnone'
  | _ =>
    have hgone : w.frame = none := hnone'
    rw [hframe] at hgone
    cases hgone

/-- The error of an `io_uring_enter` ends a `block_on` whose future is not done, and it stays. -/
theorem FrameOk.not_leavesNothing_failed (h : w.FrameOk frame) (hframe : w.frame = some frame)
    (hdone : frame.done = false) (hphase : w.phase ≠ .unwinding)
    (hfutures : w'.rt.futures = w.rt.futures) (hnone : w'.frame = none) :
    ¬ w.LeavesNothing w' := by
  intro hleaves
  refine (hleaves frame hframe hnone).1.2 frame.id ?_
  rw [hfutures]
  exact h.get hdone hphase

/-- A panic reaches a `block_on` whose future is done, and the cleanup removes the task that has its
slot now. -/
theorem FrameOk.not_leavesNothing_unwound (h : w.FrameOk frame) (hframe : w.frame = some frame)
    (hdone : frame.done = true) (hslot : w.rt.futures.get frame.id ≠ none)
    (hfutures : w'.rt.futures = (w.removeTask frame.id).rt.futures) (hnone : w'.frame = none) :
    ¬ w.LeavesNothing w' := by
  intro hleaves
  obtain ⟨task, hget⟩ := Option.ne_none_iff_exists'.1 hslot
  have hne : task ≠ frame.task := by
    rintro rfl
    exact h.absent hdone frame.id hget
  have hkept := (hleaves frame hframe hnone).2 frame.id task hget hne
  rw [hfutures, get_removeTask_self] at hkept
  cases hkept

theorem Reachable.not_leavesNothing (h : Reachable hs w) (he : ¬ w.BlockOnEndsWell e)
    (hw : w.step hs e = some (out, w')) : ¬ w.LeavesNothing w' := by
  cases e with
  | enter ret =>
    cases ret with
    | ok count => exact absurd trivial he
    | error errno =>
      simp only [BlockOnEndsWell, not_forall] at he
      obtain ⟨frame, hframe, hdone, hnone, waitFor, args, hphase, hcall, hfatal⟩ := he
      have hfatal : IOContext.isBusy errno = false := by simpa using hfatal
      have hsub := IOContext.submitOnce_failed hcall hfatal
      simp only [World.step, enter, hnone, hphase, enterTurn, hsub] at hw
      obtain ⟨-, rfl⟩ := Prod.mk.inj (Option.some.inj hw)
      exact (Reachable.framesOk h frame hframe).not_leavesNothing_failed hframe hdone
        (by simp [hphase]) rfl rfl
  | unwound =>
    simp only [BlockOnEndsWell, not_forall] at he
    obtain ⟨frame, hframe, hdone, hslot⟩ := he
    have hw := (Option.ite_none_right_eq_some.1 hw).2
    simp only [World.unwound, hframe] at hw
    split at hw
    · rename_i frame' hphase heq
      obtain rfl := Option.some.inj heq
      obtain ⟨-, rfl⟩ := Prod.mk.inj (Option.some.inj hw)
      exact (Reachable.framesOk h _ hframe).not_leavesNothing_unwound hframe hdone hslot rfl rfl
    · rename_i heq
      cases heq
    · cases hw
  | _ => exact absurd trivial he

/-- **`block_on` never leaves its future behind, exactly if it ends well**: in a run from
`Runtime::new` each `block_on` that ends leaves neither its future in the table nor a gap where
another task was, iff no turn of one fails before its future is done, and no panic leaves one whose
future is done while another task has its slot. -/
theorem leavesNothing_iff {l : List (Event × World)} (h0 : w.Init) (hr : Run (Step hs) w l) :
    (∀ x ∈ steps w l, x.1.LeavesNothing x.2.2) ↔ ∀ x ∈ steps w l, x.1.BlockOnEndsWell x.2.1 := by
  refine hr.forall_steps_iff (I := Reachable hs) (C := BlockOnEndsWell)
    (Q := fun u _ v => u.LeavesNothing v) ?_ ?_ (.init h0)
  · rintro u e v hu he ⟨out, hw⟩
    refine ⟨hu.tail ⟨out, hw⟩, ?_⟩
    rcases (Reachable.consistent hu).step_cases hw with hdoes | hrun
    · intro frame hframe hnone
      rw [(hdoes.quiet id).frame, hframe] at hnone
      cases hnone
    · exact hrun.leavesNothing (Reachable.framesOk hu) (Reachable.tasksOk hu) he
  · rintro u e v hu he ⟨out, hw⟩
    exact Reachable.not_leavesNothing hu he hw

theorem blockOnEndsWell_unwound
    (h : (w.frame.all fun frame => !frame.done || (w.rt.futures.get frame.id).isNone) = true) :
    w.BlockOnEndsWell .unwound := by
  intro frame hframe hdone
  rw [hframe, Option.all_some, hdone] at h
  exact Option.isNone_iff_eq_none.1 h

/-- The future of a `block_on` spawns a task and is done; the task takes its slot and panics there,
which frees it before the cleanup. -/
def panickedLater : List Event :=
  [.blockOn, .turn, .next, .handleSpawn, .polled .ready, .turnOk,
    .turn, .next, .polled .panicked, .unwound]

theorem panickedLater_leavesNothing : EachStep (fun x => x.1.LeavesNothing x.2.2) emptyWorld
    (play (next? ⟨id, id⟩) emptyWorld panickedLater) := by
  have hwell : PlaysWith (next? ⟨id, id⟩) BlockOnEndsWell emptyWorld panickedLater := by
    refine ⟨trivial, trivial, trivial, trivial, trivial, trivial, trivial, trivial, trivial, ?_,
      trivial⟩
    exact blockOnEndsWell_unwound rfl
  exact (leavesNothing_iff emptyWorld_init (run_play _ _ _)).2 hwell.forall_steps

/-- The future of a `block_on` spawns two tasks and is done; the one that takes its slot waits when
the other panics. -/
def recycledSlot : List Event :=
  [.blockOn, .turn, .next, .handleSpawn, .handleSpawn, .polled .ready, .turnOk,
    .turn, .next, .polled .pending, .next, .polled .panicked, .unwound]

example :
    let before := final emptyWorld (play (next? ⟨id, id⟩) emptyWorld (recycledSlot.take 12))
    let after := final emptyWorld (play (next? ⟨id, id⟩) emptyWorld recycledSlot)
    before.rt.futures.get 0 = some 1 ∧ after.rt.futures.get 0 = none := ⟨rfl, rfl⟩

/-! ## A turn that fails -/

/-- A future waits for an event, and the next `io_uring_enter` fails with `EINVAL`. -/
def failedTurn : List Event :=
  [.blockOn, .turn, .next, .polled .pending, .turnOk, .turn, .chooseWait, .enter (.error 22)]

/-- **The future of a `block_on` that returns an error stays in the table.** -/
theorem failedTurn_not_leavesNothing :
    ¬ ∀ (hs : Hashes) (u v : World) (e : Event), Reachable hs u → Step hs u e v →
      u.LeavesNothing v := by
  intro h
  have hr : emptyWorld.runs ⟨id, id⟩ (failedTurn.take 7) = some _ := rfl
  have hleaves := h ⟨id, id⟩ _ _ (.enter (.error 22)) (.runs (.init emptyWorld_init) hr) ⟨_, rfl⟩
  exact (hleaves _ rfl rfl).1.2 0 rfl

end World

end Hamerkop
