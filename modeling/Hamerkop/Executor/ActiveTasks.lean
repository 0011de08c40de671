import Hamerkop.Executor.Scheduling

/-!
# The gauge of active tasks

`ACTIVE_TASKS` of `hamerkop/src/executor/runtime.rs`, one gauge for all the
runtimes of a process, which is to show how many futures they store.  A `Fleet`
is any number of runtimes together with the gauge; `World.count` is what each
branch of the runtime does to it.

A future that `turn` sets up is counted, and one that leaves the table is counted
off.  `spawn_dyn` and with it `block_on` store a future without counting it, and
a `remove` that panics in the `drop` of the future is not followed by its
`decrement`.  `Fleet.countsTasks_iff`: the gauge is right in every state of a run
exactly if neither happens in it.
-/

namespace Hamerkop

open Runs

/-! ## `Gauge` -/

/-- An `AtomicI64`, each of whose operations is one step. -/
structure Gauge where
  value : Int64

namespace Gauge

/-- `Gauge::new()` -/
def new : Gauge := ⟨0⟩

/-- `add(value)`, which wraps around. -/
def add (g : Gauge) (value : Int64) : Gauge := ⟨g.value + value⟩

/-- `sub(value)`, which wraps around. -/
def sub (g : Gauge) (value : Int64) : Gauge := ⟨g.value - value⟩

/-- `increment()` -/
def increment (g : Gauge) : Gauge := g.add 1

/-- `decrement()` -/
def decrement (g : Gauge) : Gauge := g.sub 1

theorem foldl_increment {α : Type} (l : List α) (g : Gauge) :
    (l.foldl (fun g _ => g.increment) g).value = g.value + Int64.ofNat l.length := by
  induction l generalizing g with
  | nil => exact (Int64.add_zero _).symm
  | cons a l ih =>
    rw [List.foldl_cons, ih, List.length_cons, Int64.ofNat_add]
    show g.value + 1 + _ = g.value + (_ + 1)
    rw [Int64.add_assoc, Int64.add_comm 1]

end Gauge

namespace World

/-- What the runtime does to `ACTIVE_TASKS` in a step. -/
def count (w : World) (g : Gauge) : Event → Gauge
  -- `ctx.borrow_mut` panics, or each future that is set up is counted
  | .turn => if w.session.isSome then g else w.ctx.created.foldl (fun g _ => g.increment) g
  | .polled .ready => g.decrement
  | .polled .panicked => g.decrement
  -- the clean-up of `block_on`, whether or not its future was still there
  | .unwound => if w.frame.isSome then g.decrement else g
  | _ => g

/-- `futures.remove` drops the future it removes, and that panics: after a poll, or in the clean-up
of `block_on`. -/
def removePanics (w : World) : Option World :=
  match w.phase, w.frame with
  | .polling _ (some (id, _)), _ => some { w.removeTask id with phase := .unwinding }
  | .unwinding, some frame => some { w.removeTask frame.id with frame := none, phase := .idle }
  | _, _ => none

end World

/-! ## Any number of runtimes -/

/-- The runtimes that are alive, and `ACTIVE_TASKS`. -/
structure Fleet where
  runtimes : List World
  activeTasks : Gauge

namespace Fleet

/-- A runtime is created or dropped, or one of them takes a step. -/
inductive Event where
  /-- `Runtime::new` -/
  | new (w : World)
  | on (i : ℕ) (e : Hamerkop.Event)
  | removePanics (i : ℕ)
  /-- `Runtime::drop` -/
  | drop (i : ℕ)

/-- No runtime, and a gauge at zero. -/
def empty : Fleet := ⟨[], .new⟩

/-- A step of the runtime `i`. -/
def set (s : Fleet) (i : ℕ) (w : World) (g : Gauge) : Fleet :=
  { runtimes := s.runtimes.set i w, activeTasks := g }

/-- The fleet after the event, if it can happen. -/
def next? (hs : Hashes) (s : Fleet) : Event → Option Fleet
  | .new w => some { s with runtimes := s.runtimes ++ [w] }
  | .on i e => s.runtimes[i]?.bind fun w => (w.step hs e).map fun (_, w') =>
    s.set i w' (w.count s.activeTasks e)
  | .removePanics i => s.runtimes[i]?.bind fun w =>
    if w.call.isNone then w.removePanics.map fun w' => s.set i w' s.activeTasks else none
  | .drop i => s.runtimes[i]?.bind fun w =>
    if w.isIdle && w.frame.isNone then
      some
        { runtimes := s.runtimes.eraseIdx i
          activeTasks := s.activeTasks.sub (.ofNat w.rt.futures.len) }
    else
      none

/-- A runtime that is made is a new one. -/
def Event.Fresh : Event → Prop
  | .new w => w.Init
  | _ => True

/-- A step of the fleet: a new runtime is a fresh one. -/
def Step (hs : Hashes) (s : Fleet) (e : Event) (t : Fleet) : Prop :=
  e.Fresh ∧ s.next? hs e = some t

/-- How many futures the `futures` maps of all runtimes store. -/
def stored (s : Fleet) : ℕ := (s.runtimes.map fun w => w.rt.futures.len).sum

/-- `ACTIVE_TASKS` is the number of futures stored. -/
def CountsTasks (s : Fleet) : Prop := s.activeTasks.value = Int64.ofNat s.stored

/-- No future is spawned on a runtime itself, and none panics while a runtime drops it. -/
def LeavesCount (_ : Fleet) : Event → Prop
  | .on _ .spawn => False
  | .on _ .blockOn => False
  | .removePanics _ => False
  | _ => True

end Fleet

/-! ## What one runtime stores -/

theorem Runtime.setupCreated_len {created : List FutureObj} {rt rt' : Runtime}
    (h : setupCreated created rt = some rt') :
    rt'.futures.len = rt.futures.len + created.length := by
  induction created generalizing rt with
  | nil =>
    obtain rfl := Option.some.inj h
    rfl
  | cons future created ih =>
    unfold setupCreated at h
    split at h
    · cases h
    · rename_i id futures hins
      have hlen : rt'.futures.len = futures.len + created.length := ih h
      have hone := Slots.len_insert hins
      rw [List.length_cons]
      omega

theorem Runtime.collect_len {rt rt' : Runtime} (h : rt.collect = some rt') :
    rt'.futures.len = rt.futures.len + rt.ctx.created.length := by
  unfold collect at h
  obtain ⟨rt₁, hset, rfl⟩ := Option.map_eq_some_iff.1 h
  have hlen := setupCreated_len hset
  exact hlen

namespace World

variable {hs : Hashes} {w w' : World} {e : Event} {out : Out}

/-- Up to its first poll, `turn` only takes tasks from the runqueue. -/
theorem startPolling_futures (hs : Hashes) (w : World) :
    (w.startPolling hs).2.rt.futures = w.rt.futures := by
  unfold startPolling Runtime.drainRunqueue
  split
  · rfl
  · rename_i rest rt heq
    split at heq
    · cases heq
    · obtain ⟨-, rfl⟩ := Prod.mk.inj (Except.ok.inj heq)
      rfl

theorem removeTask_len {id : ℕ} {task : FutureObj} (h : w.rt.futures.get id = some task) :
    (w.removeTask id).rt.futures.len + 1 = w.rt.futures.len := (Slots.remove_snd h).len

/-- The gauge has changed by as much as the table. -/
def Counted (w w' : World) (g g' : Gauge) : Prop :=
  g'.value + Int64.ofNat w.rt.futures.len = g.value + Int64.ofNat w'.rt.futures.len

theorem Counted.same {g : Gauge} (h : w'.rt.futures = w.rt.futures) : Counted w w' g g := by
  unfold Counted
  rw [h]

theorem Counted.removed {g : Gauge} (h : w'.rt.futures.len + 1 = w.rt.futures.len) :
    Counted w w' g g.decrement := by
  unfold Counted
  show g.value - 1 + _ = _
  rw [← h, Int64.ofNat_add, Int64.add_comm (Int64.ofNat _), ← Int64.add_assoc]
  show g.value - 1 + 1 + _ = _
  rw [Int64.sub_add_cancel]

theorem turn_counted (hw : w.turn hs = some (out, w')) (g : Gauge) :
    Counted w w' g (w.count g .turn) := by
  unfold turn at hw
  split at hw
  · rename_i hsome
    obtain ⟨-, rfl⟩ := Prod.mk.inj (Option.some.inj hw)
    rw [count, if_pos hsome]
    exact .same rfl
  · rename_i hsome
    obtain ⟨rt, hrt, hw⟩ := Option.map_eq_some_iff.1 hw
    have hfutures : w'.rt.futures = rt.futures := by
      split at hw
      · obtain ⟨-, rfl⟩ := Prod.mk.inj hw
        rfl
      · have hstart := startPolling_futures hs { w with rt }
        rw [hw] at hstart
        exact hstart
    rw [count, if_neg hsome]
    unfold Counted
    rw [Gauge.foldl_increment, hfutures, Runtime.collect_len hrt, Int64.ofNat_add, Int64.add_assoc,
      Int64.add_comm (Int64.ofNat _)]
    rfl

theorem polled_counted {res : TaskPoll} (ht : w.TasksOk) (hw : w.polled res = some (out, w'))
    (g : Gauge) : Counted w w' g (w.count g (.polled res)) := by
  unfold polled at hw
  split at hw
  · rename_i rest id task hphase
    have hget := ht.current id task (by rw [currentTask, hphase])
    cases res with
    | ready =>
      obtain ⟨-, rfl⟩ := Prod.mk.inj (Option.some.inj hw)
      exact .removed (removeTask_len hget)
    | pending =>
      obtain ⟨-, rfl⟩ := Prod.mk.inj (Option.some.inj hw)
      exact .same rfl
    | panicked =>
      obtain ⟨-, rfl⟩ := Prod.mk.inj (Option.some.inj hw)
      exact .removed (removeTask_len hget)
  · cases hw

theorem unwound_counted (hframe : w.frame = none) (hw : w.unwound = some (out, w')) (g : Gauge) :
    Counted w w' g (w.count g .unwound) := by
  unfold unwound at hw
  rw [hframe] at hw
  rw [count, hframe]
  split at hw
  · rename_i hnone
    cases hnone
  · obtain ⟨-, rfl⟩ := Prod.mk.inj (Option.some.inj hw)
    exact .same rfl
  · cases hw

/-- What the runtime does apart from this leaves the table alone. -/
theorem RuntimeStep.futures (hst : RuntimeStep hs w e w') (hspawn : e ≠ .spawn)
    (hblock : e ≠ .blockOn) (hturn : e ≠ .turn) (hpolled : ∀ res, e ≠ .polled res)
    (hunwound : e ≠ .unwound) : w'.rt.futures = w.rt.futures := by
  cases hst with
  | spawn => exact absurd rfl hspawn
  | blockOn => exact absurd rfl hblock
  | turnPanics => exact absurd rfl hturn
  | turnSubmits => exact absurd rfl hturn
  | turnPolls => exact absurd rfl hturn
  | ready => exact absurd rfl (hpolled _)
  | pending => exact absurd rfl (hpolled _)
  | panicked => exact absurd rfl (hpolled _)
  | cleanUp => exact absurd rfl hunwound
  | unwound => exact absurd rfl hunwound
  | submitted hnone hphase hring hproc => exact hproc.quiet.futures
  | _ => rfl

/-- No `block_on` is running, and none begins but by a call of it. -/
theorem RuntimeStep.frame (hst : RuntimeStep hs w e w') (hblock : e ≠ .blockOn)
    (hframe : w.frame = none) : w'.frame = none := by
  cases hst with
  | blockOn => exact absurd rfl hblock
  | turnPolls hphase hwants hrt hsub hproc => exact hproc.quiet.frame.trans hframe
  | submitted hnone hphase hring hproc => exact hproc.quiet.frame.trans hframe
  | ready =>
    refine Option.map_eq_none_iff.2 ?_
    exact hframe
  | failed => rfl
  | cleanUp => rfl
  | _ => exact hframe

/-- **A step counts what it stores**, unless it spawns a future on the runtime itself. -/
theorem Reachable.counted (h : Reachable hs w) (hframe : w.frame = none) (hspawn : e ≠ .spawn)
    (hblock : e ≠ .blockOn) (hw : w.step hs e = some (out, w')) (g : Gauge) :
    Counted w w' g (w.count g e) := by
  have hsame : (∀ g, w.count g e = g) → e ≠ .turn → (∀ res, e ≠ .polled res) → e ≠ .unwound →
      Counted w w' g (w.count g e) := by
    intro hcount hturn hpolled hunwound
    rw [hcount]
    rcases (Reachable.consistent h).step_cases hw with hdoes | hst
    · exact .same (hdoes.quiet id).futures
    · exact .same (hst.futures hspawn hblock hturn hpolled hunwound)
  cases e with
  | turn => exact turn_counted (Option.ite_none_right_eq_some.1 hw).2 g
  | polled res =>
    exact polled_counted (Reachable.tasksOk h) (Option.ite_none_right_eq_some.1 hw).2 g
  | unwound => exact unwound_counted hframe (Option.ite_none_right_eq_some.1 hw).2 g
  | _ => exact hsame (fun _ => rfl) (by simp) (by simp) (by simp)

theorem Reachable.step_frame (h : Reachable hs w) (hframe : w.frame = none) (hblock : e ≠ .blockOn)
    (hw : w.step hs e = some (out, w')) : w'.frame = none := by
  rcases (Reachable.consistent h).step_cases hw with hdoes | hst
  · exact (hdoes.quiet id).frame.trans hframe
  · exact hst.frame hblock hframe

/-- `spawn_dyn` stores a future. -/
theorem spawn_len (hw : w.step hs .spawn = some (out, w')) :
    w'.rt.futures.len = w.rt.futures.len + 1 := by
  obtain ⟨⟨id, rt⟩, hrt, hw⟩ := Option.map_eq_some_iff.1 (Option.ite_none_right_eq_some.1 hw).2
  obtain ⟨-, rfl⟩ := Prod.mk.inj hw
  obtain ⟨⟨i, futures⟩, hins, hrt⟩ := Option.map_eq_some_iff.1 hrt
  obtain ⟨-, rfl⟩ := Prod.mk.inj hrt
  exact Slots.len_insert hins

theorem blockOn_len (hw : w.step hs .blockOn = some (out, w')) :
    w'.rt.futures.len = w.rt.futures.len + 1 := by
  obtain ⟨⟨id, rt⟩, hrt, hw⟩ := Option.map_eq_some_iff.1 (Option.ite_none_right_eq_some.1 hw).2
  obtain ⟨-, rfl⟩ := Prod.mk.inj hw
  obtain ⟨⟨i, futures⟩, hins, hrt⟩ := Option.map_eq_some_iff.1 hrt
  obtain ⟨-, rfl⟩ := Prod.mk.inj hrt
  exact Slots.len_insert hins

/-- The future whose `drop` panics was in the table. -/
theorem removePanics_len (ht : w.TasksOk) (hframe : w.frame = none)
    (hw : w.removePanics = some w') : w'.rt.futures.len + 1 = w.rt.futures.len := by
  unfold removePanics at hw
  split at hw
  · rename_i rest id task hphase
    obtain rfl := Option.some.inj hw
    exact removeTask_len (ht.current id task (by rw [currentTask, hphase]))
  · rename_i hsome
    rw [hframe] at hsome
    cases hsome
  · cases hw

end World

/-! ## What all of them store -/

namespace Fleet

variable {hs : Hashes} {s t : Fleet} {e : Event} {w v : World} {i : ℕ} {g : Gauge}

theorem stored_set (h : s.runtimes[i]? = some w) :
    (s.set i v g).stored + w.rt.futures.len = s.stored + v.rt.futures.len := by
  obtain ⟨hi, rfl⟩ := List.getElem?_eq_some_iff.1 h
  have hset := (List.set_perm_cons_eraseIdx hi v).map fun w => w.rt.futures.len
  have hget := (List.getElem_cons_eraseIdx_perm hi).map fun w => w.rt.futures.len
  unfold stored set
  rw [hset.sum_eq, ← hget.sum_eq, List.map_cons, List.map_cons, List.sum_cons, List.sum_cons]
  omega

theorem stored_eraseIdx (h : s.runtimes[i]? = some w) :
    stored { s with runtimes := s.runtimes.eraseIdx i } + w.rt.futures.len = s.stored := by
  obtain ⟨hi, rfl⟩ := List.getElem?_eq_some_iff.1 h
  have hget := (List.getElem_cons_eraseIdx_perm hi).map fun w => w.rt.futures.len
  unfold stored
  rw [← hget.sum_eq, List.map_cons, List.sum_cons, Nat.add_comm]

/-- The gauge stays right when it changes by as much as the table of one runtime. -/
theorem CountsTasks.set (h : s.CountsTasks) (hi : s.runtimes[i]? = some w)
    (hcount : w.Counted v s.activeTasks g) : (s.set i v g).CountsTasks := by
  have hstored := congrArg Int64.ofNat (stored_set (v := v) (g := g) hi)
  rw [Int64.ofNat_add, Int64.ofNat_add, ← h, ← hcount, Int64.add_left_inj] at hstored
  exact hstored.symm

/-- A gauge that has stayed the same while the table of one runtime has grown is wrong. -/
theorem CountsTasks.not_set (h : s.CountsTasks) (hi : s.runtimes[i]? = some w)
    (hlen : v.rt.futures.len = w.rt.futures.len + 1 ∨ v.rt.futures.len + 1 = w.rt.futures.len) :
    ¬ (s.set i v s.activeTasks).CountsTasks := by
  intro hset
  have heq : Int64.ofNat s.stored = Int64.ofNat (s.set i v s.activeTasks).stored :=
    h.symm.trans hset
  have hstored := stored_set (v := v) (g := s.activeTasks) hi
  rcases hlen with hlen | hlen
  · rw [show (s.set i v s.activeTasks).stored = s.stored + 1 by omega, Int64.ofNat_add] at heq
    exact absurd (Int64.add_eq_left.1 heq.symm) (by decide)
  · rw [show s.stored = (s.set i v s.activeTasks).stored + 1 by omega, Int64.ofNat_add] at heq
    exact absurd (Int64.add_eq_left.1 heq) (by decide)

/-- No `block_on` has begun on any of the runtimes. -/
def NoFrames (hs : Hashes) (s : Fleet) : Prop :=
  ∀ w ∈ s.runtimes, World.Reachable hs w ∧ w.frame = none

/-- A step that leaves the count right, and every runtime outside `block_on`. -/
theorem CountsTasks.step (h : s.CountsTasks) (hf : s.NoFrames hs) (he : s.LeavesCount e)
    (hst : Step hs s e t) : t.CountsTasks ∧ t.NoFrames hs := by
  obtain ⟨hfresh, hnext⟩ := hst
  cases e with
  | new w =>
    obtain rfl := Option.some.inj hnext
    have hinit : w.Init := hfresh
    refine ⟨?_, fun w' hw' => ?_⟩
    · unfold CountsTasks stored
      rw [List.map_append, List.sum_append, List.map_singleton, List.sum_singleton, hinit.futures]
      exact h
    · rcases List.mem_append.1 hw' with hw' | hw'
      · exact hf w' hw'
      · obtain rfl := List.mem_singleton.1 hw'
        exact ⟨.init hinit, hinit.frame⟩
  | on i e =>
    obtain ⟨w, hi, hnext⟩ := Option.bind_eq_some_iff.1 hnext
    obtain ⟨⟨out, w'⟩, hw, rfl⟩ := Option.map_eq_some_iff.1 hnext
    obtain ⟨hr, hframe⟩ := hf w (List.mem_of_getElem? hi)
    have hspawn : e ≠ .spawn := by
      rintro rfl
      exact he
    have hblock : e ≠ .blockOn := by
      rintro rfl
      exact he
    refine ⟨h.set hi (World.Reachable.counted hr hframe hspawn hblock hw _), fun v hv => ?_⟩
    rcases List.mem_or_eq_of_mem_set hv with hv | rfl
    · exact hf v hv
    · exact ⟨hr.tail ⟨out, hw⟩, World.Reachable.step_frame hr hframe hblock hw⟩
  | removePanics i => exact he.elim
  | drop i =>
    obtain ⟨w, hi, hnext⟩ := Option.bind_eq_some_iff.1 hnext
    obtain ⟨-, hnext⟩ := Option.ite_none_right_eq_some.1 hnext
    obtain rfl := Option.some.inj hnext
    refine ⟨?_, fun v hv => hf v (List.mem_of_mem_eraseIdx hv)⟩
    have hstored := congrArg Int64.ofNat (stored_eraseIdx hi)
    rw [Int64.ofNat_add, ← h] at hstored
    show s.activeTasks.value - _ = _
    rw [← hstored, Int64.add_sub_cancel]
    rfl

/-- A step that does not leave the count right is wrong at once. -/
theorem CountsTasks.not_step (h : s.CountsTasks) (hf : s.NoFrames hs) (he : ¬ s.LeavesCount e)
    (hst : Step hs s e t) : ¬ t.CountsTasks := by
  obtain ⟨-, hnext⟩ := hst
  cases e with
  | new w => exact absurd trivial he
  | drop i => exact absurd trivial he
  | on i e =>
    obtain ⟨w, hi, hnext⟩ := Option.bind_eq_some_iff.1 hnext
    obtain ⟨⟨out, w'⟩, hw, rfl⟩ := Option.map_eq_some_iff.1 hnext
    cases e with
    | spawn => exact h.not_set hi (.inl (World.spawn_len hw))
    | blockOn => exact h.not_set hi (.inl (World.blockOn_len hw))
    | _ => exact absurd trivial he
  | removePanics i =>
    obtain ⟨w, hi, hnext⟩ := Option.bind_eq_some_iff.1 hnext
    obtain ⟨-, hnext⟩ := Option.ite_none_right_eq_some.1 hnext
    obtain ⟨w', hw, rfl⟩ := Option.map_eq_some_iff.1 hnext
    obtain ⟨hr, hframe⟩ := hf w (List.mem_of_getElem? hi)
    exact h.not_set hi (.inr (World.removePanics_len (World.Reachable.tasksOk hr) hframe hw))

/-- **`ACTIVE_TASKS` counts the futures stored, exactly if none is spawned on a runtime itself and
none panics while it is dropped**: in a run that begins without runtimes the gauge is right in every
state, iff every future comes through `IOHandle::spawn` and leaves its table quietly. -/
theorem countsTasks_iff {l : List (Event × Fleet)} (hr : Run (Step hs) empty l) :
    (∀ s ∈ states empty l, s.CountsTasks) ↔ ∀ x ∈ steps empty l, x.1.LeavesCount x.2.1 := by
  refine hr.forall_states_iff (I := fun s => s.CountsTasks ∧ s.NoFrames hs) (C := LeavesCount)
    ?_ ?_ ?_ ⟨rfl, ?_⟩
  · intro s e t hs' he hst
    exact hs'.1.step hs'.2 he hst
  · intro s hs'
    exact hs'.1
  · intro s e t hs' he hst
    exact hs'.1.not_step hs'.2 he hst
  · intro w hw
    cases hw

theorem run_play {es : List Event} (hfresh : ∀ e ∈ es, e.Fresh) (s : Fleet) :
    Run (Step hs) s (play (next? hs) s es) := by
  induction es generalizing s with
  | nil => exact .nil s
  | cons e es ih =>
    unfold play
    split
    · rename_i t ht
      exact .cons ⟨hfresh e (List.mem_cons_self ..), ht⟩
        (ih (fun e he => hfresh e (List.mem_cons_of_mem _ he)) t)
    · exact .nil s

/-- A runtime is handed a task, which is set up, completes, and leaves an empty runtime to be
dropped. -/
def handedTask : List Event :=
  [.new World.emptyWorld, .on 0 .handleSpawn, .on 0 .turn, .on 0 .next, .on 0 (.polled .ready),
    .on 0 .turnOk, .drop 0]

theorem handedTask_countsTasks :
    Always CountsTasks empty (play (next? ⟨id, id⟩) empty handedTask) := by
  have hfresh : ∀ e ∈ handedTask, e.Fresh := by
    simp [handedTask, Event.Fresh, World.emptyWorld_init]
  have hplays : PlaysWith (next? ⟨id, id⟩) LeavesCount empty handedTask :=
    ⟨trivial, trivial, trivial, trivial, trivial, trivial, trivial, trivial⟩
  exact (countsTasks_iff (run_play hfresh _)).2 hplays.forall_steps

/-- **A future spawned on a runtime is stored and not counted.** -/
theorem spawned_not_countsTasks :
    ¬ ∀ (hs : Hashes) (l : List (Event × Fleet)), Run (Step hs) empty l →
      ∀ s ∈ states empty l, s.CountsTasks := by
  intro h
  have hnew : Step ⟨id, id⟩ empty (.new World.emptyWorld) ⟨[World.emptyWorld], .new⟩ :=
    ⟨World.emptyWorld_init, rfl⟩
  have hspawn : Step ⟨id, id⟩ ⟨[World.emptyWorld], .new⟩ (.on 0 .spawn) _ := ⟨trivial, rfl⟩
  have hcounts := h ⟨id, id⟩ _ (.cons hnew (.cons hspawn (.nil _))) _
    (List.mem_cons_of_mem _ (List.mem_cons_of_mem _ (List.mem_cons_self ..)))
  -- the gauge shows 0, and one future is stored
  have hone : (0 : Int64) = Int64.ofNat 1 := hcounts
  exact absurd hone (by decide)

end Fleet

end Hamerkop
