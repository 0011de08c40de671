import Hamerkop.Executor.Context

/-!
# `CompletionFuture`

The operations of `hamerkop/src/executor/future.rs` on the context a future
refers to.  A future is its `cqid` and its `must_wait` flag.

`drop` of a future that must wait is a loop of calls of `IOContext::submit`:
`drop` itself goes up to the first of them, and `dropCancel` and `dropWaited`
are what happens after each.
-/

namespace Hamerkop

namespace CompletionFuture

/-- `from_ctx`: the new `cqid`; `none` when the table finds no memory and the process aborts. -/
def fromCtx (ctx : IOContext) : Option (ℕ × IOContext) :=
  (ctx.completions.insert (CompletionEvent.new NO_TASK_SENTINEL)).map fun (cqid, completions) =>
    (cqid, { ctx with completions })

/-- `poll`: `Ready` of an event, or `Pending`. -/
def poll (ctx : IOContext) (cqid : ℕ) (currentTask : Option ℕ) :
    Except Panic (Option Cqe × IOContext) :=
  match ctx.completions.get cqid with
  | none => .error .cqidWasInvalid
  | some cq => match currentTask with
    | none => .error .outsideUringContext
    | some task =>
      .ok (cq.cqe,
        { ctx with completions := ctx.completions.modify cqid fun cq => { cq with task } })

/-- How far a `drop` has come. -/
inductive DropTurn where
  | done
  /-- no slot for the cancellation yet: `submit(0)` is called -/
  | needsSlot
  /-- the cancellation is prepared: `submit(1)` is called -/
  | waits
deriving DecidableEq, Repr

/-- The search of a slot for the cancellation, and its preparation once there is one. -/
def dropCancel (ctx : IOContext) (cqid : ℕ) : DropTurn × IOContext :=
  match ctx.sq.slotAt 0 with
  | none => (.needsSlot, ctx)
  | some slot =>
    let sqe := (ctx.sq.sq.sqes slot).prepare (AsyncCancel.mk (UInt64.ofNat cqid) 0)
    (.waits, { ctx with sq := ctx.sq.writeSqe slot (sqe.setUserData (UInt64.ofNat (2 ^ 64 - 1))) })

/-- `drop`, up to its first call of `submit`. -/
def drop (ctx : IOContext) (cqid : ℕ) (mustWait : Bool) : Except Panic (DropTurn × IOContext) :=
  match ctx.completions.get cqid with
  | none => .error .cqidWasInvalid
  | some ce =>
    if ce.cqe.isSome then
      .ok (.done, { ctx with completions := (ctx.completions.remove cqid).2 })
    else if !mustWait then
      .ok (.done,
        { ctx with
          completions := ctx.completions.modify cqid fun ce =>
            { ce with task := DEAD_TASK_SENTINEL } })
    else
      .ok (dropCancel
        { ctx with
          completions := ctx.completions.modify cqid fun ce =>
            { ce with task := NO_TASK_SENTINEL } } cqid)

/-- The check after a call of `submit(1)`: whether the waiting loop ends. -/
def dropWaited (ctx : IOContext) (cqid : ℕ) : Except Panic Bool :=
  match ctx.completions.get cqid with
  | none => .error .unwrapNone
  | some ce => .ok ce.cqe.isSome

end CompletionFuture

end Hamerkop
