import Hamerkop.Executor.Submitter
import Hamerkop.Util.Dedup

/-!
# `Runtime`

The parts of `hamerkop/src/executor/runtime.rs` that lie between two points at
which other code runs: a turn of the event loop up to its call of `submit`, the
rest of it up to the first poll of a task, and what the polls and the loops of
`block_on` and `run` do to the table of tasks.
-/

namespace Hamerkop

/-- `Runtime`: the tasks, the context and the runqueue. -/
structure Runtime where
  futures : Slots FutureObj
  ctx : IOContext
  /-- list of tasks to be run -/
  runqueue : List ℕ

namespace Runtime

/-- `spawn_dyn`; `none` when the table finds no memory and the process aborts. -/
def spawnDyn (rt : Runtime) (future : FutureObj) : Option (ℕ × Runtime) :=
  (rt.futures.insert future).map fun (id, futures) =>
    (id, { rt with futures, runqueue := rt.runqueue ++ [id] })

/-- `for future in ctx.created.drain(..)` -/
def setupCreated : List FutureObj → Runtime → Option Runtime
  | [], rt => some rt
  | future :: created, rt => match rt.futures.insert future with
    | none => none
    | some (id, futures) =>
      setupCreated created { rt with futures, runqueue := rt.runqueue ++ [id] }

/-- The beginning of `turn`: the new tasks are set up and the woken ones queued. -/
def collect (rt : Runtime) : Option Runtime :=
  (setupCreated rt.ctx.created { rt with ctx := { rt.ctx with created := [] } }).map fun rt =>
    { rt with runqueue := rt.runqueue ++ rt.ctx.woken, ctx := { rt.ctx with woken := [] } }

/-- Whether `turn` calls `submit`. -/
def needsSubmit (rt : Runtime) : Bool :=
  rt.ctx.hasQueued || (rt.runqueue.isEmpty && !rt.ctx.cq.hasNext)

/-- The `wait_for` it calls it with. -/
def waitFor (rt : Runtime) : UInt32 :=
  if rt.ctx.cq.hasNext || !rt.runqueue.isEmpty then 0 else 1

/-- `turn` from there to its first poll: the tasks to be polled are returned, drained from the
runqueue. -/
def drainRunqueue (hash1 hash2 : ℕ → ℕ) (rt : Runtime) : Except Panic (List ℕ × Runtime) :=
  match { rt.ctx with queued := 0 }.processCqes IOContext.pushRunqueue rt.runqueue with
  | .error p => .error p
  | .ok (runqueue, ctx) =>
    .ok (dedupPartial hash1 hash2 runqueue, { rt with ctx, runqueue := [] })

/-- `is_empty()`: there is no task, nor one to be set up. -/
def isEmpty (rt : Runtime) : Bool := rt.futures.isEmpty && rt.ctx.created.isEmpty

theorem setupCreated_ctx {created : List FutureObj} {rt rt' : Runtime}
    (h : setupCreated created rt = some rt') : rt'.ctx = rt.ctx := by
  induction created generalizing rt with
  | nil => exact congrArg ctx (Option.some.inj h).symm
  | cons future created ih =>
    simp only [setupCreated] at h
    split at h
    · cases h
    · have hctx := ih h
      exact hctx

theorem collect_ctx {rt rt' : Runtime} (h : rt.collect = some rt') :
    rt'.ctx = { rt.ctx with created := [], woken := [] } := by
  obtain ⟨rt₁, hset, rfl⟩ := Option.map_eq_some_iff.1 h
  simp only [setupCreated_ctx hset]

/-- The new tasks are set up and queued, and the others stay where they are. -/
structure SetUp (created : List FutureObj) (rt rt' : Runtime) (ids : List ℕ) : Prop where
  kept : ∀ i task, rt.futures.get i = some task → rt'.futures.get i = some task
  only : ∀ i task, rt'.futures.get i = some task → rt.futures.get i = some task ∨ task ∈ created
  queued : ∀ task ∈ created, ∃ id ∈ ids, rt'.futures.get id = some task

theorem setupCreated_spec {created : List FutureObj} {rt rt' : Runtime}
    (h : setupCreated created rt = some rt') :
    ∃ ids, rt'.runqueue = rt.runqueue ++ ids ∧ SetUp created rt rt' ids := by
  induction created generalizing rt with
  | nil =>
    obtain rfl := Option.some.inj h
    exact ⟨[], (List.append_nil _).symm, fun _ _ => id, fun _ _ => .inl, nofun⟩
  | cons future created ih =>
    simp only [setupCreated] at h
    split at h
    · cases h
    · rename_i id futures hins
      obtain ⟨ids, hrun, hset⟩ := ih h
      have hget := Slots.get_insert hins
      have hfree := Slots.get_before_insert hins
      refine ⟨id :: ids, by rw [hrun, List.append_assoc, List.singleton_append],
        fun i task hi => hset.kept i task ?_, fun i task hi => ?_, fun task htask => ?_⟩
      · rw [hget, Function.update_of_ne, hi]
        rintro rfl
        rw [hfree] at hi
        cases hi
      · rcases hset.only i task hi with hi | hmem
        · rw [hget] at hi
          by_cases hii : i = id
          · rw [hii, Function.update_self, Option.some.injEq] at hi
            exact .inr (hi ▸ List.mem_cons_self ..)
          · rw [Function.update_of_ne hii] at hi
            exact .inl hi
        · exact .inr (List.mem_cons_of_mem _ hmem)
      · rcases List.mem_cons.1 htask with rfl | hmem
        · refine ⟨id, List.mem_cons_self .., hset.kept id _ ?_⟩
          rw [hget, Function.update_self]
        · obtain ⟨i, hi, hgeti⟩ := hset.queued task hmem
          exact ⟨i, List.mem_cons_of_mem _ hi, hgeti⟩

/-- What `turn` has set up and queued when it calls `submit`. -/
theorem collect_spec {rt rt' : Runtime} (h : rt.collect = some rt') :
    ∃ ids, rt'.runqueue = rt.runqueue ++ ids ++ rt.ctx.woken ∧
      SetUp rt.ctx.created rt rt' ids := by
  obtain ⟨rt₁, hset, rfl⟩ := Option.map_eq_some_iff.1 h
  obtain ⟨ids, hrun, hspec⟩ := setupCreated_spec hset
  have hctx := setupCreated_ctx hset
  refine ⟨ids, ?_, hspec.kept, hspec.only, hspec.queued⟩
  show rt₁.runqueue ++ rt₁.ctx.woken = _
  rw [hrun, hctx]

end Runtime

end Hamerkop
