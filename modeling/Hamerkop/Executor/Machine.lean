import Hamerkop.Lib.Runs
import Hamerkop.Executor.Ledger
import Hamerkop.Executor.Runtime

/-!
# The executor as a machine

A runtime together with the code that uses it and the kernel, taking one step
after another.  An `Event` is a call of an operation by a task (or by the code
around the runtime), a step of the runtime between two of them, the return of
an `io_uring_enter`, or a step of the kernel.  Tasks are arbitrary: whatever they
could do next is a step.

What an operation does is computed by the functions of the modules before; the
machine says when it may happen and keeps the ledger.  `step` has no result when
an event cannot happen, and when the process is aborted: no memory is left, or
a panic unwinds into a `drop` that panics again.
-/

namespace Hamerkop

open Runs

/-- A `LinkedSubmitter`: its `count`, and the futures it has linked. -/
structure Session where
  count : ℕ
  linked : List ℕ

/-- A call that waits for `io_uring_enter` inside other code. -/
inductive Call where
  | none
  /-- `submit_sqe` waits for a slot -/
  | slotWait (g : ℕ) (r : LinkedSubmitter.Started)
  /-- `drop` waits for a slot for its cancellation -/
  | dropSlot (g : ℕ)
  /-- `drop` waits for its event -/
  | dropWait (g : ℕ)

/-- Whether no call is waiting. -/
def Call.isNone : Call → Bool
  | .none => true
  | _ => false

/-- Where the runtime is. -/
inductive Phase where
  /-- between two turns -/
  | idle
  /-- in `turn`, about to choose `wait_for` -/
  | choosing
  /-- in `turn`, in `submit` -/
  | submitting (waitFor : UInt32)
  /-- in `turn`, polling the tasks of the runqueue -/
  | polling (rest : List ℕ) (current : Option (ℕ × FutureObj))
  /-- a panic is leaving `turn` -/
  | unwinding

/-- A `block_on` that has not ended: the task it has spawned, and whether that has set `output`.

The closure that is given to `catch_unwind` ends with `output.unwrap()`, so it has moved `output`
in, and the loop looks at a copy of its own that nobody sets: when the task is done `block_on` goes
on taking turns, and it ends when one of them fails or panics. -/
structure Frame where
  id : ℕ
  task : FutureObj
  done : Bool

/-- The executor, what code of its user has under way, and the ledger. -/
structure World where
  rt : Runtime
  session : Option Session
  call : Call
  phase : Phase
  frame : Option Frame
  nextTask : FutureObj
  ledger : Ledger

/-- How the poll of a task ends. -/
inductive TaskPoll where
  | ready
  | pending
  | panicked
deriving DecidableEq

/-- What can happen next: the kernel, the code of tasks and the runtime take turns in any order.
-/
inductive Event where
  -- the kernel
  | consume (count : UInt32)
  | complete (g : ℕ) (res : Int32) (flags : UInt32)
  | post (g : ℕ)
  -- the code of the tasks, and around the runtime
  | newFuture
  | openSession
  | request (r : Request)
  | submit
  | abandon
  | setMustWait (g : ℕ) (mustWait : Bool)
  | poll (g : ℕ)
  | drop (g : ℕ)
  | handleSpawn
  -- a return of `io_uring_enter`
  | enter (ret : Except Errno UInt32)
  -- the runtime
  | spawn
  | turn
  | chooseWait
  | next
  | polled (res : TaskPoll)
  | turnOk
  | unwound
  | blockOn

/-- What a step puts out. -/
inductive Out where
  | silent
  | panicked (p : Panic)
  | pending
  | ready (res : LinkedSubmitter.Resolved)
  /-- a request that is not made: its future resolves to this error, with the buffer it was given -/
  | rejected (e : IoError) (buffer : Option (FixedVec UInt8))
  /-- `turn`, and with it `block_on` or `run`, returns this error -/
  | failed (e : IoError)

/-- The hashes of `dedup_partial`. -/
structure Hashes where
  hash1 : ℕ → ℕ
  hash2 : ℕ → ℕ

namespace World

/-- The context of the runtime. -/
def ctx (w : World) : IOContext := w.rt.ctx

/-- The world with another context. -/
def withCtx (w : World) (ctx : IOContext) : World := { w with rt := { w.rt with ctx } }

/-- Whether code of a task, or code around the runtime, is running. -/
def userCode (w : World) : Bool :=
  w.call.isNone && match w.phase with
    | .idle | .polling _ _ | .unwinding => true
    | _ => false

/-- `CURRENT_TASK` -/
def currentTask (w : World) : Option (ℕ × FutureObj) :=
  match w.phase with
  | .polling _ current => current
  | _ => none

/-! ## The kernel -/

/-- The kernel consumes entries of the submission ring. -/
def consume (w : World) (count : UInt32) : Option (Out × World) :=
  if count.toNat ≤ w.ctx.sq.unconsumed then
    some (.silent, w.withCtx { w.ctx with sq := w.ctx.sq.consume count })
  else
    none

/-- The kernel carries out the request of `g`. -/
def complete (w : World) (g : ℕ) (res : Int32) (flags : UInt32) : Option (Out × World) :=
  (w.ledger.complete g res flags).map fun ledger => (.silent, { w with ledger })

/-- The kernel posts the event of `g`, if the completion ring has room. -/
def post (w : World) (g : ℕ) : Option (Out × World) :=
  match (w.ledger.futs g).map Fut.stage with
  | some (.completed cqe) =>
    if w.ledger.pending.length < w.ctx.cq.cq.kringMask.toNat + 1 then
      some (.silent,
        { w.withCtx { w.ctx with cq := w.ctx.cq.post cqe } with ledger := w.ledger.post g cqe })
    else
      none
  | _ => none

/-! ## Sessions -/

/-- `CompletionFuture::new`, outside a session. -/
def newFuture (w : World) : Option (Out × World) :=
  if w.session.isSome then some (.panicked .alreadyBorrowed, w)
  else
    (CompletionFuture.fromCtx w.ctx).map fun (cqid, ctx) =>
      (.silent, { w.withCtx ctx with ledger := w.ledger.create cqid .completion none })

/-- `IOHandle::submit_linked`, which borrows the context. -/
def openSession (w : World) : Option (Out × World) :=
  if w.session.isSome then some (.panicked .alreadyBorrowed, w)
  else some (.silent, { w with session := some { count := 0, linked := [] } })

/-- `submit_sqe` of the request of `g`, as far as it comes without waiting. -/
def tryFill (w : World) (s : Session) (g cqid : ℕ) (r : LinkedSubmitter.Started) : World :=
  match LinkedSubmitter.fillSlot w.ctx s.count cqid r with
  | some ctx =>
    { w.withCtx ctx with
      call := .none
      session := some { count := s.count + 1, linked := s.linked ++ [g] }
      ledger := w.ledger.modifyFut g fun f =>
        { f with stage := .prepared, mustWait := r.mustWait } }
  | none => { w with call := .slotWait g r }

/-- A request of the open session, up to where it may have to wait for a slot. -/
def request (w : World) (r : Request) : Option (Out × World) :=
  w.session.bind fun s => (LinkedSubmitter.beginRequest w.ctx r).bind fun
    | .panicked p => some (.panicked p, w)
    | .rejected e buffer => some (.rejected e (some buffer), w)
    | .started r ctx => (CompletionFuture.fromCtx ctx).bind fun (cqid, ctx) =>
      -- the assertion panics with `fut` in scope, and dropping `fut` panics again
      if s.count = ctx.sq.queueSize then none
      else
        let ledger := w.ledger.create cqid r.kind (r.kind.bufid?.bind ctx.buffers.get)
        some (.silent, { w.withCtx ctx with ledger }.tryFill s w.ledger.nextFut cqid r)

/-- `LinkedSubmitter::submit`: the entries are published. -/
def submit (w : World) : Option (Out × World) :=
  w.session.map fun s => match w.ctx.sq.publish s.count with
    | some sq =>
      let published := s.linked.zip (sq.published w.ctx.sq.sq.ktail s.count)
      (.silent,
        { w.withCtx { w.ctx with sq, queued := w.ctx.queued + s.count } with
          session := none
          ledger := w.ledger.publish published })
    | none =>
      (.panicked .unwrapNone, { w with session := none, ledger := w.ledger.abandon s.linked })

/-- The submitter is dropped without being submitted. -/
def abandon (w : World) : Option (Out × World) :=
  w.session.map fun s =>
    (.silent, { w with session := none, ledger := w.ledger.abandon s.linked })

/-! ## Futures -/

/-- The future `g`, if there still is one. -/
def liveFut (w : World) (g : ℕ) : Option Fut :=
  (w.ledger.futs g).filter fun f => f.life == .live

/-- `set_must_wait(must_wait)` -/
def setMustWait (w : World) (g : ℕ) (mustWait : Bool) : Option (Out × World) :=
  (w.liveFut g).map fun _ =>
    (.silent, { w with ledger := w.ledger.modifyFut g fun f => { f with mustWait } })

/-- A `CompletionFuture` is polled, or the future of a request whose `async` block awaits one; the
block drops it as soon as it is ready. -/
def poll (w : World) (g : ℕ) : Option (Out × World) :=
  (w.liveFut g).map fun f =>
    if w.session.isSome then (.panicked .alreadyBorrowed, w)
    else
      match CompletionFuture.poll w.ctx f.cqid (w.currentTask.map Prod.fst) with
      | .error p => (.panicked p, w)
      | .ok (none, ctx) =>
        (.pending,
          { w.withCtx ctx with
            ledger := w.ledger.modifyFut g fun f => { f with polledBy := w.currentTask } })
      | .ok (some cqe, ctx) =>
        if f.kind = .completion then
          (.ready (.completion cqe),
            { w.withCtx ctx with
              ledger := w.ledger.modifyFut g fun f => { f with polledBy := none } })
        else
          match CompletionFuture.drop ctx f.cqid f.mustWait with
          | .error p => (.panicked p, w.withCtx ctx)
          | .ok (_, ctx) =>
            let ledger := w.ledger.resolve g f.kind cqe
            match LinkedSubmitter.resolve ctx f.kind cqe with
            | .error p => (.panicked p, { w.withCtx ctx with ledger })
            | .ok (res, ctx) => (.ready res, { w.withCtx ctx with ledger })

/-- A future is dropped, which may have to wait for its event. -/
def drop (w : World) (g : ℕ) : Option (Out × World) :=
  (w.liveFut g).map fun f =>
    let lost := { w with ledger := w.ledger.modifyFut g fun f => { f with life := .lost } }
    if w.session.isSome then (.panicked .alreadyBorrowed, lost)
    else
      match CompletionFuture.drop w.ctx f.cqid f.mustWait with
      | .error p => (.panicked p, lost)
      | .ok (.done, ctx) =>
        (.silent,
          { w.withCtx ctx with ledger := w.ledger.modifyFut g fun f => { f with life := .dead } })
      | .ok (.needsSlot, ctx) =>
        (.silent,
          { w.withCtx ctx with
            call := .dropSlot g
            ledger := w.ledger.modifyFut g fun f => { f with polledBy := none } })
      | .ok (.waits, ctx) =>
        (.silent,
          { w.withCtx ctx with
            call := .dropWait g
            ledger := w.ledger.modifyFut g fun f => { f with polledBy := none } })

/-! ## The runtime -/

/-- `IOHandle::spawn_dyn`: the task is set up in the next turn. -/
def handleSpawn (w : World) : Option (Out × World) :=
  if w.session.isSome then some (.panicked .alreadyBorrowed, w)
  else
    some (.silent,
      { w.withCtx { w.ctx with created := w.ctx.created ++ [w.nextTask] } with
        nextTask := w.nextTask + 1 })

/-- `Runtime::spawn_dyn` -/
def spawn (w : World) : Option (Out × World) :=
  (w.rt.spawnDyn w.nextTask).map fun (_, rt) =>
    (.silent, { w with rt, nextTask := w.nextTask + 1 })

/-- `Runtime::block_on`, up to its first turn. -/
def blockOn (w : World) : Option (Out × World) :=
  (w.rt.spawnDyn w.nextTask).map fun (id, rt) =>
    (.silent,
      { w with
        rt
        nextTask := w.nextTask + 1
        frame := some { id, task := w.nextTask, done := false } })

/-- `turn` from the end of `submit` to the first poll. -/
def startPolling (hs : Hashes) (w : World) : Out × World :=
  match w.rt.drainRunqueue hs.hash1 hs.hash2 with
  | .error p => (.panicked p, { w with phase := .unwinding })
  | .ok (rest, rt) =>
    (.silent, { w with rt, phase := .polling rest none, ledger := w.ledger.processAll })

/-- `turn` up to the call of `submit`, or past it when there is none. -/
def turn (hs : Hashes) (w : World) : Option (Out × World) :=
  if w.session.isSome then some (.panicked .alreadyBorrowed, { w with phase := .unwinding })
  else
    w.rt.collect.map fun rt =>
      let w := { w with rt }
      if rt.needsSubmit then (.silent, { w with phase := .choosing })
      else w.startPolling hs

/-- Whether `block_on` or `run` goes on with another turn: `block_on` always does, since the
`output` that its loop looks at is never set. -/
def wantsTurn (w : World) : Bool :=
  match w.frame with
  | some _ => true
  | none => !w.rt.isEmpty

/-- The next task of the runqueue is taken, if it is still there. -/
def next (w : World) : Option (Out × World) :=
  match w.phase with
  | .polling (id :: rest) none =>
    match w.rt.futures.get id with
    | none => some (.silent, { w with phase := .polling rest none })
    | some task =>
      some (.silent,
        { w with phase := .polling rest (some (id, task)), ledger := w.ledger.pollTask task })
  | _ => none

/-- `self.futures.remove(id)` -/
def removeTask (w : World) (id : ℕ) : World :=
  { w with rt := { w.rt with futures := (w.rt.futures.remove id).2 } }

/-- A poll ends; the task of a `block_on` sets `output` before it is ready. -/
def polled (w : World) (res : TaskPoll) : Option (Out × World) :=
  match w.phase with
  | .polling rest (some (id, task)) =>
    match res with
    | .ready =>
      let frame := w.frame.map fun frame =>
        if frame.task = task then { frame with done := true } else frame
      some (.silent, { w.removeTask id with frame, phase := .polling rest none })
    | .pending => some (.silent, { w with phase := .polling rest none })
    | .panicked => some (.silent, { w.removeTask id with phase := .unwinding })
  | _ => none

/-- A turn returns `Ok`. -/
def turnOk (w : World) : Option (Out × World) :=
  match w.phase with
  | .polling [] none => some (.silent, { w with phase := .idle })
  | _ => none

/-- A panic has left `turn`, and `block_on` cleans up if it is what called it. -/
def unwound (w : World) : Option (Out × World) :=
  match w.phase, w.frame with
  | .unwinding, some frame =>
    some (.silent, { w.removeTask frame.id with frame := none, phase := .idle })
  | .unwinding, none => some (.silent, { w with phase := .idle })
  | _, _ => none

/-! ## Returns of `io_uring_enter` -/

/-- The loop in `submit` goes round again. -/
def retry (w : World) (ctx : IOContext) : World :=
  { w.withCtx ctx with ledger := w.ledger.processAll }

/-- `drop` of the future `g` has panicked. -/
def loseFut (w : World) (g : ℕ) : World :=
  { w with call := .none, ledger := w.ledger.modifyFut g fun f => { f with life := .lost } }

/-- `submit` returns to a request that waits for a slot. -/
def enterSlotWait (w : World) (g : ℕ) (r : LinkedSubmitter.Started) (ret : Except Errno UInt32) :
    Option (Out × World) :=
  w.session.bind fun s => (w.ledger.futs g).bind fun f => match w.ctx.submitOnce 0 ret with
    -- the panic drops `fut`, which panics again
    | .error _ => none
    | .ok (.retry, ctx) => some (.silent, w.retry ctx)
    | .ok (.done (.ok ()), ctx) => some (.silent, (w.withCtx ctx).tryFill s g f.cqid r)
    -- returning the error drops `fut`, which panics
    | .ok (.done (.error _), ctx) =>
      some (.panicked .alreadyBorrowed, (w.withCtx ctx).loseFut g)

/-- `submit` returns to the drop of a future that waits for a slot for its cancellation. -/
def enterDropSlot (w : World) (g : ℕ) (ret : Except Errno UInt32) : Option (Out × World) :=
  (w.ledger.futs g).map fun f => match w.ctx.submitOnce 0 ret with
    | .error p => (.panicked p, w.loseFut g)
    | .ok (.retry, ctx) => (.silent, w.retry ctx)
    | .ok (.done _, ctx) => match CompletionFuture.dropCancel ctx f.cqid with
      | (.waits, ctx) => (.silent, { w.withCtx ctx with call := .dropWait g })
      | (_, ctx) => (.silent, w.withCtx ctx)

/-- `submit` returns to the drop of a future that waits for its event. -/
def enterDropWait (w : World) (g : ℕ) (ret : Except Errno UInt32) : Option (Out × World) :=
  (w.ledger.futs g).map fun f => match w.ctx.submitOnce 1 ret with
    | .error p => (.panicked p, w.loseFut g)
    | .ok (.retry, ctx) => (.silent, w.retry ctx)
    | .ok (.done _, ctx) => match CompletionFuture.dropWaited ctx f.cqid with
      | .error p => (.panicked p, (w.withCtx ctx).loseFut g)
      | .ok false => (.silent, w.withCtx ctx)
      | .ok true =>
        (.silent,
          { w.withCtx ctx with
            call := .none
            ledger := w.ledger.modifyFut g fun f => { f with life := .dead } })

/-- `submit` returns to a turn. -/
def enterTurn (hs : Hashes) (w : World) (waitFor : UInt32) (ret : Except Errno UInt32) :
    Out × World :=
  match w.ctx.submitOnce waitFor ret with
  | .error p => (.panicked p, { w with phase := .unwinding })
  | .ok (.retry, ctx) => (.silent, w.retry ctx)
  | .ok (.done (.ok ()), ctx) => (w.withCtx ctx).startPolling hs
  -- `turn` returns the error, and so does what called it
  | .ok (.done (.error e), ctx) => (.failed e, { w.withCtx ctx with phase := .idle, frame := none })

/-- `io_uring_enter` returns, to whoever has called it. -/
def enter (hs : Hashes) (w : World) (ret : Except Errno UInt32) : Option (Out × World) :=
  match w.call with
  | .slotWait g r => w.enterSlotWait g r ret
  | .dropSlot g => w.enterDropSlot g ret
  | .dropWait g => w.enterDropWait g ret
  | .none => match w.phase with
    | .submitting waitFor => some (w.enterTurn hs waitFor ret)
    | _ => none

/-! ## Steps -/

/-- Whether the runtime is between two turns, or in `block_on`. -/
def isIdle (w : World) : Bool :=
  w.call.isNone && match w.phase with
    | .idle => true
    | _ => false

/-- What an event does; `none` if it cannot happen. -/
def step (hs : Hashes) (w : World) : Event → Option (Out × World)
  | .consume count => w.consume count
  | .complete g res flags => w.complete g res flags
  | .post g => w.post g
  | .newFuture => if w.userCode then w.newFuture else none
  | .openSession => if w.userCode then w.openSession else none
  | .request r => if w.userCode then w.request r else none
  | .submit => if w.userCode then w.submit else none
  | .abandon => if w.userCode then w.abandon else none
  | .setMustWait g mustWait => if w.userCode then w.setMustWait g mustWait else none
  | .poll g => if w.userCode then w.poll g else none
  | .drop g => if w.userCode then w.drop g else none
  | .handleSpawn => if w.userCode then w.handleSpawn else none
  | .enter ret => w.enter hs ret
  | .spawn => if w.isIdle && w.frame.isNone then w.spawn else none
  | .turn => if w.isIdle && w.wantsTurn then w.turn hs else none
  | .chooseWait => match w.phase with
    | .choosing => some (.silent, { w with phase := .submitting w.rt.waitFor })
    | _ => none
  | .next => if w.call.isNone then w.next else none
  | .polled res => if w.call.isNone then w.polled res else none
  | .turnOk => if w.call.isNone then w.turnOk else none
  | .unwound => if w.call.isNone then w.unwound else none
  | .blockOn => if w.isIdle && w.frame.isNone then w.blockOn else none

/-- A step of the machine. -/
def Step (hs : Hashes) (w : World) (e : Event) (w' : World) : Prop :=
  ∃ out, w.step hs e = some (out, w')

/-- `Runtime::new` on empty rings. -/
structure Init (w : World) : Prop where
  sq : ∃ k, w.ctx.sq.Sized k
  cq : ∃ k, w.ctx.cq.Holds k []
  created : w.ctx.created = []
  completions : w.ctx.completions = .new
  woken : w.ctx.woken = []
  buffers : w.ctx.buffers = .new
  futures : w.rt.futures = .new
  runqueue : w.rt.runqueue = []
  session : w.session = none
  call : w.call = .none
  phase : w.phase = .idle
  frame : w.frame = none
  ledger : w.ledger = .new

/-- The states of the runs from `Runtime::new`. -/
def Reachable (hs : Hashes) : World → Prop := Runs.Reachable Init (Step hs)

/-- The state after these events, if they can happen one after the other. -/
def runs (hs : Hashes) : World → List Event → Option World
  | w, [] => some w
  | w, e :: es => (w.step hs e).bind fun (_, w') => w'.runs hs es

theorem Reachable.runs {hs : Hashes} {w w' : World} (h : Reachable hs w) {es : List Event}
    (hr : w.runs hs es = some w') : Reachable hs w' := by
  induction es generalizing w with
  | nil => exact Option.some.inj hr ▸ h
  | cons e es ih =>
    obtain ⟨⟨out, w₁⟩, hstep, hrest⟩ := Option.bind_eq_some_iff.1 hr
    exact ih (h.tail ⟨out, hstep⟩) hrest

/-- A step without what it puts out. -/
def next? (hs : Hashes) (w : World) (e : Event) : Option World := (w.step hs e).map Prod.snd

theorem run_play (hs : Hashes) (w : World) (es : List Event) :
    Run (Step hs) w (play (next? hs) w es) := by
  induction es generalizing w with
  | nil => exact .nil w
  | cons e es ih =>
    simp only [play]
    split
    · rename_i w' hw
      obtain ⟨⟨out, w₁⟩, hstep, rfl⟩ := Option.map_eq_some_iff.1 hw
      exact .cons ⟨out, hstep⟩ (ih w₁)
    · exact .nil w

theorem final_play {hs : Hashes} {w w' : World} {es : List Event} (h : w.runs hs es = some w') :
    final w (play (next? hs) w es) = w' := by
  induction es generalizing w with
  | nil => exact Option.some.inj h
  | cons e es ih =>
    obtain ⟨⟨out, w₁⟩, hstep, hrest⟩ := Option.bind_eq_some_iff.1 h
    have hnext : next? hs w e = some w₁ := by rw [next?, hstep, Option.map_some]
    simp only [play, hnext]
    exact ih hrest

/-- A runtime on rings of four entries, with buffers of 16 bytes. -/
def emptyWorld : World where
  rt :=
    { futures := .new
      ctx :=
        { sq :=
            { sq :=
                { khead := 0, ktail := 0, kringMask := 3, kringEntries := 4, kflags := 0
                  sqes := fun _ => {}, sqeTail := 0 }
              flags := 0 }
          cq := { cq := { khead := 0, ktail := 0, kringMask := 3, cqes := fun _ => ⟨0, 0, 0⟩ } }
          created := []
          completions := .new
          woken := []
          buffers := .new
          bufsize := 16
          queued := 0 }
      runqueue := [] }
  session := none
  call := .none
  phase := .idle
  frame := none
  nextTask := 0
  ledger := .new

theorem emptyWorld_init : emptyWorld.Init where
  sq := ⟨2, by decide, rfl, rfl⟩
  cq := ⟨2, .nil (by decide) rfl rfl⟩
  created := rfl
  completions := rfl
  woken := rfl
  buffers := rfl
  futures := rfl
  runqueue := rfl
  session := rfl
  call := rfl
  phase := rfl
  frame := rfl
  ledger := rfl

end World

end Hamerkop
