import Hamerkop.Executor.BlockOn
import Hamerkop.Executor.Wakeups

/-!
# The life of a task

What `hamerkop/src/executor/runtime.rs` promises to each future it is given, as a
machine of its own: a `TaskStage`, and what can happen to a task in it.  A task is
spawned once, then polled any number of times while it is pending, and it is
dropped once: when it is ready, when it panics, or by the cleanup of a `block_on`,
which removes what is in the slot of its future, be that its future or, when that is
done, a task that has taken the slot since.  Nothing happens to it afterwards.

* `World.followsLife` — the runtime simulates this machine for every task: what a run
  does to a task, whatever else happens in between, is a life of it, and the runtime
  holds the task as long as it is alive;
* `World.emptied_lives` — whenever `Runtime::is_empty` says so, and with it when `run`
  returns `Ok`, every task that was ever spawned has been dropped, exactly once and not
  before it was ready, panicked, or was in the slot that an unwound `block_on` cleaned up.
-/

namespace Hamerkop

open Runs

/-- What happens to a task. -/
inductive TaskEvent where
  | spawned
  | polled (res : TaskPoll)
  /-- a panic leaves its `block_on`, which removes it -/
  | cleanedUp
  /-- a panic leaves a `block_on` whose future is done, and removes it from the slot of that -/
  | swept
deriving DecidableEq

/-- Where a task is in its life. -/
inductive TaskStage where
  | unborn
  | alive
  | ended
deriving DecidableEq

/-- What can happen to a task, and where it is afterwards. -/
def TaskStage.next : TaskStage → TaskEvent → Option TaskStage
  | .unborn, .spawned => some .alive
  | .alive, .polled .pending => some .alive
  | .alive, .polled .ready => some .ended
  | .alive, .polled .panicked => some .ended
  | .alive, .cleanedUp => some .ended
  | .alive, .swept => some .ended
  | _, _ => none

/-- The task is dropped. -/
def TaskEvent.Ends (x : TaskEvent) : Prop :=
  x = .polled .ready ∨ x = .polled .panicked ∨ x = .cleanedUp ∨ x = .swept

theorem TaskStage.next_unborn {x : TaskEvent} {s : TaskStage}
    (h : TaskStage.unborn.next x = some s) : x = .spawned ∧ s = .alive := by
  cases x with
  | spawned => exact ⟨rfl, (Option.some.inj h).symm⟩
  | polled res => cases h
  | cleanedUp => cases h
  | swept => cases h

/-- A task that is alive is pending when it is polled, or dropped. -/
theorem TaskStage.next_alive {x : TaskEvent} {s : TaskStage} (h : TaskStage.alive.next x = some s) :
    x = .polled .pending ∧ s = .alive ∨ x.Ends ∧ s = .ended := by
  cases x with
  | spawned => cases h
  | polled res =>
    cases res with
    | ready => exact .inr ⟨.inl rfl, (Option.some.inj h).symm⟩
    | pending => exact .inl ⟨rfl, (Option.some.inj h).symm⟩
    | panicked => exact .inr ⟨.inr (.inl rfl), (Option.some.inj h).symm⟩
  | cleanedUp => exact .inr ⟨.inr (.inr (.inl rfl)), (Option.some.inj h).symm⟩
  | swept => exact .inr ⟨.inr (.inr (.inr rfl)), (Option.some.inj h).symm⟩

/-- The rest of a life that has ended. -/
theorem TaskStage.foldlM_alive {xs : List TaskEvent}
    (h : xs.foldlM TaskStage.next .alive = some .ended) :
    ∃ n x, xs = List.replicate n (.polled .pending) ++ [x] ∧ x.Ends := by
  induction xs with
  | nil => cases h
  | cons x xs ih =>
    obtain ⟨s, hs, h⟩ := Option.bind_eq_some_iff.1 h
    rcases TaskStage.next_alive hs with ⟨rfl, rfl⟩ | ⟨hends, rfl⟩
    · obtain ⟨n, y, rfl, hy⟩ := ih h
      exact ⟨n + 1, y, rfl, hy⟩
    · cases xs with
      | nil => exact ⟨0, x, rfl, hends⟩
      | cons y ys => cases h

/-- A life that has ended, from its beginning. -/
theorem TaskStage.foldlM_unborn {xs : List TaskEvent}
    (h : xs.foldlM TaskStage.next .unborn = some .ended) :
    ∃ n x, xs = .spawned :: (List.replicate n (.polled .pending) ++ [x]) ∧ x.Ends := by
  cases xs with
  | nil => cases h
  | cons x xs =>
    obtain ⟨s, hs, h⟩ := Option.bind_eq_some_iff.1 h
    obtain ⟨rfl, rfl⟩ := TaskStage.next_unborn hs
    obtain ⟨n, y, rfl, hy⟩ := TaskStage.foldlM_alive h
    exact ⟨n, y, rfl, hy⟩

namespace World

variable {hs : Hashes} {w w' : World} {e : Event} {out : Out} {task : FutureObj}

/-- What the cleanup of a `block_on` does to the task: it removes its own, and another one only when
its own is done. -/
def sweeps (task : FutureObj) (w : World) : Option TaskEvent :=
  w.frame.bind fun frame =>
    if w.rt.futures.get frame.id = some task then
      if frame.task = task then some .cleanedUp else if frame.done then some .swept else none
    else none

/-- What a step does to the task. -/
def happens (task : FutureObj) (w : World) : Event → Option TaskEvent
  | .spawn => if task = w.nextTask then some .spawned else none
  | .blockOn => if task = w.nextTask then some .spawned else none
  -- `ctx.borrow_mut` panics, and the future it was given is dropped
  | .handleSpawn => if w.session.isNone ∧ task = w.nextTask then some .spawned else none
  | .polled res => if w.currentTask.map Prod.snd = some task then some (.polled res) else none
  | .unwound => w.sweeps task
  | _ => none

/-- What a run does to the task. -/
def life (task : FutureObj) : World → List (Event × World) → List TaskEvent :=
  observed (happens task)

/-- The task is there while it is alive, and only then. -/
def Stands (w : World) (task : FutureObj) : TaskStage → Prop
  | .unborn => w.nextTask ≤ task
  | .alive => w.Live task
  | .ended => task < w.nextTask ∧ ¬ w.Live task

/-! ## Which tasks are there -/

theorem TasksOk.lt_of_live (h : w.TasksOk) (hlive : w.Live task) : task < w.nextTask := by
  rcases hlive with hmem | ⟨t, ht⟩
  · exact h.tasks.waiting task hmem
  · exact (h.tasks.slot t task ht).1

/-- No task is spawned, and none is dropped. -/
def SameTasks (w w' : World) : Prop :=
  w'.nextTask = w.nextTask ∧ ∀ task, w'.Live task ↔ w.Live task

theorem SameTasks.trans {w₁ : World} (h : w.SameTasks w₁) (h' : w₁.SameTasks w') :
    w.SameTasks w' :=
  ⟨h'.1.trans h.1, fun task => (h'.2 task).trans (h.2 task)⟩

theorem SameTasks.of_eq (hnext : w'.nextTask = w.nextTask)
    (hcreated : w'.ctx.created = w.ctx.created) (hfutures : w'.rt.futures = w.rt.futures) :
    w.SameTasks w' := by
  refine ⟨hnext, fun task => ?_⟩
  unfold Live
  rw [hcreated, hfutures]

theorem Quiet.sameTasks (h : Quiet w w') : w.SameTasks w' :=
  .of_eq h.nextTask h.created h.futures

/-- Setting up the new tasks neither loses nor repeats one. -/
theorem collect_sameTasks {rt : Runtime} (hrt : w.rt.collect = some rt) (phase : Phase) :
    w.SameTasks { w with rt, phase } := by
  obtain ⟨ids, -, hset⟩ := Runtime.collect_spec hrt
  refine ⟨rfl, fun task => ⟨fun hlive => ?_, fun hlive => ?_⟩⟩
  · rcases hlive with hmem | ⟨t, ht⟩
    · exact .inl ((collected_get hrt).1 hmem)
    · rcases hset.only t task ht with ht | hmem
      · exact .inr ⟨t, ht⟩
      · exact .inl hmem
  · rcases hlive with hmem | ⟨t, ht⟩
    · obtain ⟨id, -, hid⟩ := hset.queued task hmem
      exact .inr ⟨id, hid⟩
    · exact .inr ⟨t, hset.kept t task ht⟩

/-- A slot is emptied: its task is gone, and every other one is where it was. -/
theorem TasksOk.live_removeTask (h : w.TasksOk) (id : ℕ) (task : FutureObj) :
    (w.removeTask id).Live task ↔ w.Live task ∧ w.rt.futures.get id ≠ some task := by
  have hget : ∀ t, (w.removeTask id).rt.futures.get t =
      Function.update w.rt.futures.get id none t := fun t => congrFun (Slots.get_remove ..) t
  constructor
  · intro hlive
    rcases hlive with hmem | ⟨t, ht⟩
    · have hmem : task ∈ w.ctx.created := hmem
      exact ⟨.inl hmem, fun hid => (h.tasks.slot id task hid).2 hmem⟩
    · rw [hget] at ht
      have hne : t ≠ id := by
        rintro rfl
        rw [Function.update_self] at ht
        cases ht
      rw [Function.update_of_ne hne] at ht
      exact ⟨.inr ⟨t, ht⟩, fun hid => hne (h.tasks.inj t id task ht hid)⟩
  · intro hlive
    rcases hlive with ⟨hmem | ⟨t, ht⟩, hne⟩
    · exact .inl hmem
    · refine .inr ⟨t, ?_⟩
      have hti : t ≠ id := by
        rintro rfl
        exact hne ht
      rw [hget, Function.update_of_ne hti, ht]

/-- A future is stored under a new name. -/
theorem live_insert {id : ℕ} {futures : Slots FutureObj}
    (hins : w.rt.futures.insert w.nextTask = some (id, futures)) (runqueue : List ℕ)
    (nextTask : FutureObj) (frame : Option Frame) :
    ({ w with rt := { w.rt with futures, runqueue }, nextTask, frame } : World).Live task ↔
      w.Live task ∨ task = w.nextTask := by
  have hget := Slots.get_insert hins
  have hfree := Slots.get_before_insert hins
  unfold Live
  rw [or_assoc]
  refine or_congr Iff.rfl ?_
  show (∃ t, futures.get t = some task) ↔ _
  constructor
  · rintro ⟨t, ht⟩
    rw [hget] at ht
    by_cases hti : t = id
    · rw [hti, Function.update_self, Option.some.injEq] at ht
      exact .inr ht.symm
    · rw [Function.update_of_ne hti] at ht
      exact .inl ⟨t, ht⟩
  · rintro (⟨t, ht⟩ | rfl)
    · refine ⟨t, ?_⟩
      rw [hget, Function.update_of_ne, ht]
      rintro rfl
      rw [hfree] at ht
      cases ht
    · exact ⟨id, by rw [hget, Function.update_self]⟩

/-! ## What the steps do to them -/

/-- What the runtime does otherwise leaves every task where it is in its life. -/
theorem RuntimeStep.sameTasks (hst : RuntimeStep hs w e w') (hhandle : e ≠ .handleSpawn)
    (hspawn : e ≠ .spawn) (hblock : e ≠ .blockOn) (hpolled : ∀ res, e ≠ .polled res)
    (hunwound : e ≠ .unwound) : w.SameTasks w' := by
  cases hst with
  | handleSpawn => exact absurd rfl hhandle
  | spawn => exact absurd rfl hspawn
  | blockOn => exact absurd rfl hblock
  | ready => exact absurd rfl (hpolled _)
  | pending => exact absurd rfl (hpolled _)
  | panicked => exact absurd rfl (hpolled _)
  | cleanUp => exact absurd rfl hunwound
  | unwound => exact absurd rfl hunwound
  | turnSubmits hnone hphase hwants hrt hsub => exact collect_sameTasks hrt .choosing
  | turnPolls hphase hwants hrt hsub hproc =>
    have hcollect := collect_sameTasks hrt w.phase
    refine hcollect.trans ?_
    exact .of_eq hproc.quiet.nextTask hproc.quiet.created hproc.quiet.futures
  | submitted hnone hphase hring hproc =>
    exact .of_eq hproc.quiet.nextTask hproc.quiet.created hproc.quiet.futures
  | _ => exact .of_eq rfl rfl rfl

/-- A task is spawned. -/
structure Spawns (w w' : World) : Prop where
  next : w'.nextTask = w.nextTask + 1
  live : ∀ task, w'.Live task ↔ w.Live task ∨ task = w.nextTask

theorem spawn_spawns (hw : w.step hs .spawn = some (out, w')) : w.Spawns w' := by
  obtain ⟨⟨id, rt⟩, hrt, hw⟩ := Option.map_eq_some_iff.1 (Option.ite_none_right_eq_some.1 hw).2
  obtain ⟨-, rfl⟩ := Prod.mk.inj hw
  obtain ⟨⟨i, futures⟩, hins, hrt⟩ := Option.map_eq_some_iff.1 hrt
  obtain ⟨-, rfl⟩ := Prod.mk.inj hrt
  exact ⟨rfl, fun task => live_insert hins _ _ w.frame⟩

theorem blockOn_spawns (hw : w.step hs .blockOn = some (out, w')) : w.Spawns w' := by
  obtain ⟨⟨id, rt⟩, hrt, hw⟩ := Option.map_eq_some_iff.1 (Option.ite_none_right_eq_some.1 hw).2
  obtain ⟨-, rfl⟩ := Prod.mk.inj hw
  obtain ⟨⟨i, futures⟩, hins, hrt⟩ := Option.map_eq_some_iff.1 hrt
  obtain ⟨-, rfl⟩ := Prod.mk.inj hrt
  exact ⟨rfl, fun task => live_insert hins _ _ _⟩

theorem handleSpawn_spawns (hsession : w.session = none)
    (hw : w.step hs .handleSpawn = some (out, w')) : w.Spawns w' := by
  have hw := (Option.ite_none_right_eq_some.1 hw).2
  unfold handleSpawn at hw
  rw [hsession] at hw
  obtain ⟨-, rfl⟩ := Prod.mk.inj (Option.some.inj hw)
  refine ⟨rfl, fun task => ?_⟩
  show (task ∈ w.ctx.created ++ [w.nextTask] ∨ _) ↔ _
  rw [List.mem_append, List.mem_singleton, or_right_comm]
  rfl

/-- The task is dropped, and no other one. -/
structure Drops (w w' : World) (id : ℕ) : Prop where
  next : w'.nextTask = w.nextTask
  live : ∀ task, w'.Live task ↔ w.Live task ∧ w.rt.futures.get id ≠ some task

theorem polled_drops {res : TaskPoll} (ht : w.TasksOk)
    (hw : w.step hs (.polled res) = some (out, w')) :
    ∃ id task, w.currentTask = some (id, task) ∧ w.rt.futures.get id = some task ∧
      (res = .pending → w.SameTasks w') ∧ (res ≠ .pending → w.Drops w' id) := by
  have hw := (Option.ite_none_right_eq_some.1 hw).2
  unfold World.polled at hw
  split at hw
  · rename_i rest id task hphase
    have hcurrent : w.currentTask = some (id, task) := by rw [currentTask, hphase]
    refine ⟨id, task, hcurrent, ht.current id task hcurrent, fun hres => ?_, fun hres => ?_⟩
    · subst hres
      obtain ⟨-, rfl⟩ := Prod.mk.inj (Option.some.inj hw)
      exact .of_eq rfl rfl rfl
    · cases res with
      | pending => exact absurd rfl hres
      | ready =>
        obtain ⟨-, rfl⟩ := Prod.mk.inj (Option.some.inj hw)
        exact ⟨rfl, ht.live_removeTask id⟩
      | panicked =>
        obtain ⟨-, rfl⟩ := Prod.mk.inj (Option.some.inj hw)
        exact ⟨rfl, ht.live_removeTask id⟩
  · cases hw

theorem unwound_drops (ht : w.TasksOk) (hw : w.step hs .unwound = some (out, w')) :
    w'.nextTask = w.nextTask ∧ ∀ task, w'.Live task ↔
      w.Live task ∧ (w.frame.bind fun frame => w.rt.futures.get frame.id) ≠ some task := by
  have hw := (Option.ite_none_right_eq_some.1 hw).2
  unfold World.unwound at hw
  split at hw
  · rename_i frame hphase hframe
    obtain ⟨-, rfl⟩ := Prod.mk.inj (Option.some.inj hw)
    refine ⟨rfl, fun task => ?_⟩
    rw [hframe]
    exact ht.live_removeTask frame.id task
  · rename_i hphase hframe
    obtain ⟨-, rfl⟩ := Prod.mk.inj (Option.some.inj hw)
    refine ⟨rfl, fun task => ?_⟩
    rw [hframe]
    exact (and_iff_left (Option.some_ne_none task).symm).symm
  · cases hw

/-! ## The simulation -/

variable {s : TaskStage}

theorem Stands.same (h : w.Stands task s) (hsame : w.SameTasks w') : w'.Stands task s := by
  obtain ⟨hnext, hlive⟩ := hsame
  cases s with
  | unborn => exact hnext.trans_le h
  | alive => exact (hlive task).2 h
  | ended => exact ⟨h.1.trans_eq hnext.symm, fun h' => h.2 ((hlive task).1 h')⟩

/-- A task is spawned: it begins its life, and the others go on with theirs. -/
theorem Stands.spawns (h : w.Stands task s) (ht : w.TasksOk) (hspawns : w.Spawns w') :
    (task = w.nextTask → ∃ s', s.next .spawned = some s' ∧ w'.Stands task s') ∧
      (task ≠ w.nextTask → w'.Stands task s) := by
  obtain ⟨hnext, hlive⟩ := hspawns
  constructor
  · rintro rfl
    cases s with
    | unborn => exact ⟨.alive, rfl, (hlive _).2 (.inr rfl)⟩
    | alive => exact absurd (ht.lt_of_live h) (lt_irrefl _)
    | ended => exact absurd h.1 (lt_irrefl _)
  · intro hne
    cases s with
    | unborn =>
      have hlt : w.nextTask < task := lt_of_le_of_ne h hne.symm
      exact hnext.trans_le hlt
    | alive => exact (hlive task).2 (.inl h)
    | ended =>
      obtain ⟨hlt, hdead⟩ := h
      have hlt' : task < w'.nextTask := (hlt.trans (Nat.lt_succ_self _)).trans_eq hnext.symm
      exact ⟨hlt', fun h' => ((hlive task).1 h').elim hdead hne⟩

/-- A task is dropped: its life is over, and the others go on with theirs. -/
theorem Stands.dropped {gone : Prop} (h : w.Stands task s) (ht : w.TasksOk)
    (hnext : w'.nextTask = w.nextTask) (hlive : w'.Live task ↔ w.Live task ∧ ¬ gone)
    (hgone : gone → w.Live task) :
    (gone → s = .alive ∧ w'.Stands task .ended) ∧ (¬ gone → w'.Stands task s) := by
  constructor
  · intro hg
    have hlt := ht.lt_of_live (hgone hg)
    cases s with
    | unborn => exact absurd hlt (Nat.not_lt.2 h)
    | alive => exact ⟨rfl, hlt.trans_eq hnext.symm, fun h' => (hlive.1 h').2 hg⟩
    | ended => exact absurd (hgone hg) h.2
  · intro hg
    cases s with
    | unborn => exact hnext.trans_le h
    | alive => exact hlive.2 ⟨h, hg⟩
    | ended => exact ⟨h.1.trans_eq hnext.symm, fun h' => h.2 (hlive.1 h').1⟩

/-- What a step does to the task can happen to it. -/
def Follows (s : TaskStage) (w' : World) (task : FutureObj) : Option TaskEvent → Prop
  | none => w'.Stands task s
  | some x => ∃ s', s.next x = some s' ∧ w'.Stands task s'

theorem Stands.spawn_follows (h : w.Stands task s) (ht : w.TasksOk) (hspawns : w.Spawns w') :
    Follows s w' task (if task = w.nextTask then some .spawned else none) := by
  obtain ⟨hnew, hold⟩ := h.spawns ht hspawns
  split
  · rename_i htask
    exact hnew htask
  · rename_i htask
    exact hold htask

theorem Stands.polled_follows {res : TaskPoll} (h : w.Stands task s) (ht : w.TasksOk)
    (hw : w.step hs (.polled res) = some (out, w')) :
    Follows s w' task (w.happens task (.polled res)) := by
  obtain ⟨id, task', hcurrent, hget, hpending, hdrops⟩ := polled_drops ht hw
  have hhappens : w.happens task (.polled res) =
      if task' = task then some (.polled res) else none := by
    simp only [happens, hcurrent, Option.map_some, Option.some.injEq]
  rw [hhappens]
  have hlive : task' = task → w.Live task := fun heq => .inr ⟨id, heq ▸ hget⟩
  have hgone : w.rt.futures.get id = some task ↔ task' = task := by
    rw [hget, Option.some.injEq]
  by_cases hres : res = .pending
  · have hstands := h.same (hpending hres)
    subst hres
    split
    · rename_i heq
      cases s with
      | unborn => exact absurd (ht.lt_of_live (hlive heq)) (Nat.not_lt.2 h)
      | alive => exact ⟨.alive, rfl, hstands⟩
      | ended => exact absurd (hlive heq) h.2
    · exact hstands
  · obtain ⟨hnext, hkept⟩ := hdrops hres
    obtain ⟨hover, hother⟩ := h.dropped ht hnext
      ((hkept task).trans (and_congr_right fun _ => not_congr hgone)) hlive
    split
    · rename_i heq
      obtain ⟨rfl, hstands⟩ := hover heq
      refine ⟨.ended, ?_, hstands⟩
      cases res with
      | pending => exact absurd rfl hres
      | ready => rfl
      | panicked => rfl
    · rename_i hne
      exact hother hne

/-- The task in the slot of a `block_on` is its own, or the `block_on` is done. -/
theorem FramesOk.sweeps (h : w.FramesOk)
    (hget : (w.frame.bind fun frame => w.rt.futures.get frame.id) = some task) :
    w.sweeps task = some .cleanedUp ∨ w.sweeps task = some .swept := by
  obtain ⟨frame, hframe, hget⟩ := Option.bind_eq_some_iff.1 hget
  unfold World.sweeps
  rw [hframe, Option.bind_some, if_pos hget]
  by_cases hown : frame.task = task
  · exact .inl (if_pos hown)
  · refine .inr ?_
    rw [if_neg hown]
    rcases (h frame hframe).task with ⟨hget', -⟩ | ⟨-, hdone | ⟨-, hfree⟩⟩
    · exact absurd (Option.some.inj (hget'.symm.trans hget)) hown
    · exact if_pos hdone
    · rw [hfree] at hget
      cases hget

theorem sweeps_eq_none (h : (w.frame.bind fun frame => w.rt.futures.get frame.id) ≠ some task) :
    w.sweeps task = none := by
  unfold World.sweeps
  cases hframe : w.frame with
  | none => rfl
  | some frame =>
    rw [hframe] at h
    exact if_neg h

theorem Stands.unwound_follows (h : w.Stands task s) (ht : w.TasksOk) (hf : w.FramesOk)
    (hw : w.step hs .unwound = some (out, w')) : Follows s w' task (w.happens task .unwound) := by
  obtain ⟨hnext, hkept⟩ := unwound_drops ht hw
  have hlive : (w.frame.bind fun frame => w.rt.futures.get frame.id) = some task →
      w.Live task := by
    intro hget
    obtain ⟨frame, -, hget⟩ := Option.bind_eq_some_iff.1 hget
    exact .inr ⟨frame.id, hget⟩
  obtain ⟨hover, hother⟩ := h.dropped ht hnext (hkept task) hlive
  by_cases hget : (w.frame.bind fun frame => w.rt.futures.get frame.id) = some task
  · obtain ⟨rfl, hstands⟩ := hover hget
    rcases hf.sweeps hget with hsweeps | hsweeps
    · rw [happens, hsweeps]
      exact ⟨.ended, rfl, hstands⟩
    · rw [happens, hsweeps]
      exact ⟨.ended, rfl, hstands⟩
  · rw [happens, sweeps_eq_none hget]
    exact hother hget

/-- **A step does nothing to a task that cannot happen to it.** -/
theorem Reachable.follows (hr : Reachable hs w) (h : w.Stands task s)
    (hw : w.step hs e = some (out, w')) : Follows s w' task (w.happens task e) := by
  have ht := Reachable.tasksOk hr
  have hother : w.happens task e = none → e ≠ .handleSpawn → e ≠ .spawn → e ≠ .blockOn →
      (∀ res, e ≠ .polled res) → e ≠ .unwound → Follows s w' task (w.happens task e) := by
    intro hnone hhandle hspawn hblock hpolled hunwound
    rw [hnone]
    rcases (Reachable.consistent hr).step_cases hw with hdoes | hst
    · exact h.same (hdoes.quiet id).sameTasks
    · exact h.same (hst.sameTasks hhandle hspawn hblock hpolled hunwound)
  cases e with
  | spawn => exact h.spawn_follows ht (spawn_spawns hw)
  | blockOn => exact h.spawn_follows ht (blockOn_spawns hw)
  | handleSpawn =>
    cases hsession : w.session with
    | none =>
      have hfollows := h.spawn_follows ht (handleSpawn_spawns hsession hw)
      simpa [happens, hsession] using hfollows
    | some session =>
      have hpanics := (Option.ite_none_right_eq_some.1 hw).2
      unfold World.handleSpawn at hpanics
      rw [hsession] at hpanics
      obtain ⟨-, rfl⟩ := Prod.mk.inj (Option.some.inj hpanics)
      have hhappens : w.happens task .handleSpawn = none := by simp [happens, hsession]
      rw [hhappens]
      exact h
  | polled res => exact h.polled_follows ht hw
  | unwound => exact h.unwound_follows ht (Reachable.framesOk hr) hw
  | _ => exact hother rfl (by simp) (by simp) (by simp) (by simp) (by simp)

/-- What a run from a reachable state does to a task. -/
theorem Reachable.life {l : List (Event × World)} (hr : Reachable hs w) (hrun : Run (Step hs) w l)
    (h : w.Stands task s) :
    ∃ s', (life task w l).foldlM TaskStage.next s = some s' ∧ (final w l).Stands task s' := by
  refine hrun.simulates (I := Reachable hs) (R := fun w s => w.Stands task s)
    (fun _ _ _ hr hst => hr.tail hst) ?_ ?_ hr h
  · rintro u e v s hu hs ⟨out, hw⟩ hsee
    have hfollows := Reachable.follows hu hs hw
    rw [hsee] at hfollows
    exact hfollows
  · rintro u e v s x hu hs ⟨out, hw⟩ hsee
    have hfollows := Reachable.follows hu hs hw
    rw [hsee] at hfollows
    exact hfollows

/-- **Every task lives once**: what a run of the runtime does to a task, between everything else, is
that it is spawned, polled while it is pending, and dropped when it is ready, when it panics, or by
the cleanup of a `block_on`, its own or one that is done and had its slot before.  The runtime holds
it exactly as long as it is alive. -/
theorem followsLife {l : List (Event × World)} (h0 : w.Init) (hr : Run (Step hs) w l)
    (hnew : w.nextTask ≤ task) :
    ∃ s, (World.life task w l).foldlM TaskStage.next .unborn = some s ∧ (final w l).Stands task s :=
  Reachable.life (.init h0) hr hnew

theorem not_live_of_isEmpty (hempty : w.rt.isEmpty = true) : ¬ w.Live task := by
  obtain ⟨hlen, hcreated⟩ := Bool.and_eq_true_iff.1 hempty
  rintro (hmem | ⟨t, ht⟩)
  · have hmem : task ∈ w.rt.ctx.created := hmem
    rw [List.isEmpty_iff.1 hcreated] at hmem
    cases hmem
  · have hcard := Slots.len_eq w.rt.futures
    rw [Slots.isEmpty_eq, beq_iff_eq] at hlen
    rw [hlen] at hcard
    have hlive : t ∈ w.rt.futures.live := Slots.mem_live.2 (by rw [ht]; rfl)
    rw [Finset.card_eq_zero.1 hcard.symm] at hlive
    cases hlive

/-- `block_on` is given a task that is pending when it is polled, and another one panics. -/
def unwoundBlockOn : List Event :=
  [.handleSpawn, .blockOn, .turn, .next, .polled .pending, .next, .polled .panicked, .unwound]

example :
    World.life 1 emptyWorld (play (next? ⟨id, id⟩) emptyWorld unwoundBlockOn) =
      [.spawned, .polled .pending, .cleanedUp] := rfl

example :
    World.life 1 emptyWorld (play (next? ⟨id, id⟩) emptyWorld recycledSlot) =
      [.spawned, .polled .pending, .swept] := rfl

theorem unwoundBlockOn_followsLife : ∃ s,
    (World.life 1 emptyWorld (play (next? ⟨id, id⟩) emptyWorld unwoundBlockOn)).foldlM
      TaskStage.next .unborn = some s ∧
    (final emptyWorld (play (next? ⟨id, id⟩) emptyWorld unwoundBlockOn)).Stands 1 s :=
  followsLife emptyWorld_init (run_play _ _ _) (Nat.zero_le _)

/-- **`run` leaves no task behind**: when the runtime says that it is empty, every task that was
ever spawned has been dropped exactly once, after any number of polls in which it was pending. -/
theorem emptied_lives {l : List (Event × World)} (h0 : w.Init) (hr : Run (Step hs) w l)
    (hempty : (final w l).rt.isEmpty = true) (hnew : w.nextTask ≤ task)
    (hlt : task < (final w l).nextTask) :
    ∃ n x, World.life task w l = .spawned :: (List.replicate n (.polled .pending) ++ [x]) ∧
      x.Ends := by
  obtain ⟨s, hlife, hstands⟩ := Reachable.life (.init h0) hr (s := .unborn) hnew
  cases s with
  | unborn => exact absurd hlt (Nat.not_lt.2 hstands)
  | alive => exact absurd hstands (not_live_of_isEmpty hempty)
  | ended => exact TaskStage.foldlM_unborn hlife

theorem unwoundBlockOn_emptied : ∃ n x,
    World.life 0 emptyWorld (play (next? ⟨id, id⟩) emptyWorld unwoundBlockOn) =
      .spawned :: (List.replicate n (.polled .pending) ++ [x]) ∧ x.Ends :=
  emptied_lives emptyWorld_init (run_play _ _ _) rfl (Nat.zero_le _) (by decide)

end World

end Hamerkop
