import Hamerkop.FixedVec
import Hamerkop.StableSlotmap.Slots
import Hamerkop.Uring.CompletionQueue
import Hamerkop.Executor.LinkedSlots

/-!
# `IOContext`

The state that the runtime, its handles and its futures share
(`hamerkop/src/executor/mod.rs` and `handle.rs`): both queues, the table of
completion entries, the buffer pool and the lists of woken and created tasks.

`process_cqes` is `processCqes`, a fold of `processCqe` over the events
available.  One turn of the loop in `submit` is `submitOnce`, which is given
what `io_uring_enter` returned; how often it goes round depends on the kernel.
-/

namespace Hamerkop

/-- The task of an entry whose future has not been polled. -/
def NO_TASK_SENTINEL : ℕ := 2 ^ 64 - 1
/-- The task of an entry whose future has been dropped. -/
def DEAD_TASK_SENTINEL : ℕ := 2 ^ 64 - 2

/-- The ways in which the executor's code panics. -/
inductive Panic where
  /-- `borrow` or `borrow_mut` of a context that a `LinkedSubmitter` has borrowed -/
  | alreadyBorrowed
  /-- "Corrupt CompletionFuture: CQID was invalid." -/
  | cqidWasInvalid
  /-- "Polled CompletionFuture outside of a uring context" -/
  | outsideUringContext
  /-- "Invalid CQE for read" -/
  | invalidCqeForRead
  /-- "Buffer ID doesn't exist" -/
  | bufferIdDoesntExist
  /-- "Provided buffer had an incorrect capacity" -/
  | incorrectCapacity
  /-- the length of a buffer of the caller does not fit `u32` -/
  | lengthTooLong
  /-- an `unwrap` of `None` -/
  | unwrapNone
  /-- an assertion or a slice of the ring windows -/
  | ringWindow
deriving DecidableEq, Repr

/-- What is to be done when the event of a dropped future comes. -/
inductive CleanupAction where
  | none
  | deleteBufferOnError (bufid : ℕ)
deriving DecidableEq, Repr

/-- An entry of the table of completions: the event once it is processed, the task to wake. -/
structure CompletionEvent where
  cqe : Option Cqe
  task : ℕ
  /-- performed when the executor cleans this event up and the task is `DEAD_TASK_SENTINEL` -/
  action : CleanupAction
deriving DecidableEq, Repr

/-- `CompletionEvent::new(task)` -/
def CompletionEvent.new (task : ℕ) : CompletionEvent := { cqe := none, task, action := .none }

/-- `FutureObj` stands for a boxed task; the model only needs to tell tasks apart. -/
abbrev FutureObj := ℕ

/-- `IOContext`: the two ends of the ring, and the tables of the executor. -/
structure IOContext where
  sq : SubmissionQueue
  cq : CompletionQueue
  created : List FutureObj
  completions : Slots CompletionEvent
  woken : List ℕ
  buffers : Slots (FixedVec UInt8)
  bufsize : ℕ
  /-- the number of SQEs which are queued but have not been submitted -/
  queued : ℕ

namespace IOContext

/-- Whether there are entries the kernel has not been told of. -/
def hasQueued (ctx : IOContext) : Bool := ctx.queued != 0

/-- The `queue_func` of `process_cqes`: what it captures, the woken list and the entry. -/
abbrev QueueFunc (ρ : Type) := ρ → List ℕ → CompletionEvent → ρ × List ℕ

variable {ρ : Type}

/-- The body of the loop in `process_cqes`. -/
def processCqe (queueFunc : QueueFunc ρ) (s : ρ × IOContext) (cqe : Cqe) : ρ × IOContext :=
  let (captured, ctx) := s
  let cqid := cqe.userData.toNat
  match ctx.completions.get cqid with
  | none => s
  | some ce =>
    let ce := { ce with cqe := some cqe }
    let ctx := { ctx with completions := ctx.completions.modify cqid fun _ => ce }
    if ce.task = NO_TASK_SENTINEL then
      -- the correct task should already be on the runqueue
      (captured, ctx)
    else if ce.task = DEAD_TASK_SENTINEL then
      -- `remove(cqid).unwrap()` returns `ce`
      let ctx := { ctx with completions := (ctx.completions.remove cqid).2 }
      match ce.action with
      | .none => (captured, ctx)
      | .deleteBufferOnError bufid =>
        if cqe.isErr then (captured, { ctx with buffers := (ctx.buffers.remove bufid).2 })
        else (captured, ctx)
    else
      let (captured, woken) := queueFunc captured ctx.woken ce
      (captured, { ctx with woken })

/-- `process_cqes`: the events there are when it starts, one after the other. -/
def processCqes (queueFunc : QueueFunc ρ) (captured : ρ) (ctx : IOContext) :
    Except Panic (ρ × IOContext) :=
  match ctx.cq.available with
  | none => .error .ringWindow
  | some available =>
    let count := available.len
    match available.intoIter with
    | none => .error .ringWindow
    | some cqes =>
      let (captured, ctx) := cqes.foldl (processCqe queueFunc) (captured, ctx)
      .ok (captured, { ctx with cq := ctx.cq.advance count })

/-- `|woken, ce| woken.push(ce.task)` -/
def pushWoken : QueueFunc Unit := fun captured woken ce => (captured, woken ++ [ce.task])

/-- `|_, ce| runqueue.push(ce.task)` -/
def pushRunqueue : QueueFunc (List ℕ) := fun runqueue woken ce => (runqueue ++ [ce.task], woken)

/-- How one turn of the loop in `submit` ends. -/
inductive SubmitTurn where
  | retry
  | done (res : Except IoError Unit)

/-- The errors on which `submit` processes the completions and tries again. -/
def isBusy (errno : Errno) : Bool := errno == EBUSY || errno == EAGAIN

/-- One turn of the loop in `submit`, where `ret` is what `io_uring_enter` returns if
`submit_and_wait` calls it. -/
def submitOnce (ctx : IOContext) (waitFor : UInt32) (ret : Except Errno UInt32) :
    Except Panic (SubmitTurn × IOContext) :=
  let (res, sq) := ctx.sq.submitAndWait waitFor ret
  let ctx := { ctx with sq }
  match res with
  | .error (.os errno) =>
    if isBusy errno then
      match processCqes pushWoken () ctx with
      | .ok ((), ctx) => .ok (.retry, ctx)
      | .error p => .error p
    else
      .ok (.done (.error (.os errno)), ctx)
  | .error e => .ok (.done (.error e), ctx)
  | .ok _ => .ok (.done (.ok ()), ctx)

end IOContext

end Hamerkop
