import Hamerkop.Executor.Future

/-!
# Dropping a future that must wait

`drop` of a `CompletionFuture` with `must_wait` set prepares an `AsyncCancel`
entry for its request and then calls `submit(1)` until its own event has been
processed.  The loop is run here against a kernel that posts any events and
answers every `io_uring_enter` as it likes.

Neither half of this works, in any state.  The prepared entry is never advanced
over, so the cancellation is not published (`drop_keeps_tail`).  And a call of
`submit` that succeeds processes no completions, so the loop does not notice the
event it waits for (`waitLoop_of_not_busy`); only `EBUSY` or `EAGAIN` end it.
-/

namespace Hamerkop.MustWait

open CompletionFuture IOContext

/-- One call of `io_uring_enter`: what the kernel has posted by the time it returns, and what it
returns. -/
structure Call where
  posted : List Cqe
  ret : Except Errno UInt32

/-- The call fails with one of the errors on which `submit` processes the completions. -/
def Call.Busy (call : Call) : Prop := ∃ errno, call.ret = .error errno ∧ isBusy errno = true

/-- The context after the kernel has posted events. -/
def withPosted (ctx : IOContext) (posted : List Cqe) : IOContext :=
  { ctx with cq := posted.foldl CompletionQueue.post ctx.cq }

/-- The loop of the drop that waits, and its end. -/
inductive Waiting where
  | looping (ctx : IOContext)
  | ended (ctx : IOContext)

/-- The waiting loop of `drop` over the calls of `io_uring_enter` it makes. -/
def waitLoop (cqid : ℕ) : IOContext → List Call → Except Panic Waiting
  | ctx, [] => .ok (.looping ctx)
  | ctx, call :: calls => match (withPosted ctx call.posted).submitOnce 1 call.ret with
    | .error p => .error p
    | .ok (.retry, ctx) => waitLoop cqid ctx calls
    | .ok (.done _, ctx) => match dropWaited ctx cqid with
      | .error p => .error p
      | .ok true => .ok (.ended ctx)
      | .ok false => waitLoop cqid ctx calls

/-- The calls end with one that succeeds when the event of `cqid` has been placed in the ring, in
which there was room for every event posted. -/
structure Due (ctx : IOContext) (cqid : ℕ) (calls : List Call) : Prop where
  succeeds : ∃ call, calls.getLast? = some call ∧ ∃ count, call.ret = .ok count
  placed : ∃ call ∈ calls, ∃ cqe ∈ call.posted, cqe.userData.toNat = cqid
  room : (ctx.cq.cq.ktail - ctx.cq.cq.khead).toNat +
    (calls.map fun call => call.posted.length).sum ≤ ctx.cq.cq.kringMask.toNat + 1

/-- What dropping a future that must wait is meant to do: the tail has moved past the cancellation
before it first waits, and it leaves the loop once its event is in the ring. -/
structure CancelsAndEnds (ctx : IOContext) (cqid : ℕ) : Prop where
  cancels : ∀ ctx', drop ctx cqid true = .ok (.waits, ctx') →
    ctx'.sq.sq.ktail = ctx.sq.sq.ktail + 1
  ends : ∀ ctx', drop ctx cqid true = .ok (.waits, ctx') → ∀ calls, Due ctx' cqid calls →
    ∃ ctx'', waitLoop cqid ctx' calls = .ok (.ended ctx'')

variable {ctx : IOContext} {cqid k : ℕ} {ce : CompletionEvent}

/-- **The cancellation is prepared but not published**: `drop` comes to wait with the tail where
it was, and with its event still missing. -/
theorem drop_keeps_tail (hsq : ctx.sq.Sized k) (hce : ctx.completions.get cqid = some ce)
    (hcqe : ce.cqe = none) :
    ∃ ctx', drop ctx cqid true = .ok (.waits, ctx') ∧ ctx'.sq.sq.ktail = ctx.sq.sq.ktail ∧
      ctx'.completions.get cqid = some { ce with task := NO_TASK_SENTINEL } := by
  have hfree : ¬ ctx.sq.freeSqes ≤ 0 := by
    have hmod := Nat.mod_lt ctx.sq.unconsumed (show 0 < 2 ^ k by positivity)
    rw [hsq.freeSqes]
    omega
  have hslot : ctx.sq.slotAt 0 = some ((ctx.sq.sq.ktail.toNat + 0) % 2 ^ k) := by
    rw [SubmissionQueue.slotAt, hsq.getMut, if_neg hfree]
  have hdrop : drop ctx cqid true = .ok (dropCancel
      { ctx with
        completions := ctx.completions.modify cqid fun ce =>
          { ce with task := NO_TASK_SENTINEL } } cqid) := by
    simp only [drop, hce, hcqe]
    rfl
  rw [hdrop, dropCancel]
  simp only [hslot]
  refine ⟨_, rfl, rfl, ?_⟩
  show (ctx.completions.modify cqid _).get cqid = _
  rw [Slots.get_modify, Function.update_self, hce, Option.map_some]

/-- A call that does not fail with `EBUSY` or `EAGAIN` leaves the completion table alone. -/
theorem submitOnce_of_not_busy (ctx : IOContext) {waitFor : UInt32} {call : Call}
    (hw : waitFor ≠ 0) (h : ¬ call.Busy) :
    ∃ res ctx', ctx.submitOnce waitFor call.ret = .ok (.done res, ctx') ∧
      ctx'.completions = ctx.completions := by
  obtain ⟨args, hargs⟩ := ctx.sq.enterCall_of_ne_zero hw
  cases hret : call.ret with
  | error errno =>
    have hbusy : isBusy errno = false := by
      by_contra hb
      exact h ⟨errno, hret, by simpa using hb⟩
    simp only [submitOnce, SubmissionQueue.submitAndWait_error hargs, hbusy]
    exact ⟨_, _, rfl, rfl⟩
  | ok count =>
    simp only [submitOnce, SubmissionQueue.submitAndWait_ok]
    exact ⟨_, _, rfl, rfl⟩

/-- **Only `EBUSY` and `EAGAIN` can end the loop**: as long as no call fails with them, it goes
on, whatever the kernel has posted. -/
theorem waitLoop_of_not_busy (hce : ctx.completions.get cqid = some ce) (hcqe : ce.cqe = none)
    (calls : List Call) (h : ∀ call ∈ calls, ¬ call.Busy) :
    ∃ ctx', waitLoop cqid ctx calls = .ok (.looping ctx') := by
  induction calls generalizing ctx with
  | nil => exact ⟨ctx, rfl⟩
  | cons call calls ih =>
    obtain ⟨res, ctx₁, hsub, hcomp⟩ := submitOnce_of_not_busy (withPosted ctx call.posted)
      (show (1 : UInt32) ≠ 0 by decide) (h call (List.mem_cons_self ..))
    have hce₁ : ctx₁.completions.get cqid = some ce := by
      rw [hcomp]
      exact hce
    have hwaited : dropWaited ctx₁ cqid = .ok false := by
      simp only [dropWaited, hce₁, hcqe]
      rfl
    simp only [waitLoop, hsub, hwaited]
    exact ih hce₁ fun c hc => h c (List.mem_cons_of_mem _ hc)

/-- **Dropping a future that must wait never cancels and ends**: in every state the tail stays
where it was, and the loop goes on for as long as no call fails with `EBUSY` or `EAGAIN`. -/
theorem not_cancelsAndEnds (hsq : ctx.sq.Sized k) (hce : ctx.completions.get cqid = some ce)
    (hcqe : ce.cqe = none) :
    ¬ CancelsAndEnds ctx cqid ∧
      ∃ ctx', drop ctx cqid true = .ok (.waits, ctx') ∧
        ∀ calls : List Call, (∀ call ∈ calls, ¬ call.Busy) →
          ∃ ctx'', waitLoop cqid ctx' calls = .ok (.looping ctx'') := by
  obtain ⟨ctx', hdrop, htail, hce'⟩ := drop_keeps_tail hsq hce hcqe
  refine ⟨fun hok => ?_, ctx', hdrop, waitLoop_of_not_busy hce' hcqe⟩
  have hmoved := hok.cancels ctx' hdrop
  rw [htail, eq_comm] at hmoved
  exact absurd (UInt32.add_eq_left.1 hmoved) (by decide)

/-! ## One request under way -/

/-- A context with rings of four entries and one request, which is under way. -/
def oneRequest : IOContext where
  sq :=
    { sq :=
        { khead := 1, ktail := 1, kringMask := 3, kringEntries := 4, kflags := 0
          sqes := fun _ => {}, sqeTail := 1 }
      flags := 0 }
  cq := { cq := { khead := 0, ktail := 0, kringMask := 3, cqes := fun _ => ⟨0, 0, 0⟩ } }
  created := []
  completions :=
    match (Slots.new : Slots CompletionEvent).insert (.new NO_TASK_SENTINEL) with
    | some (_, completions) => completions
    | none => .new
  woken := []
  buffers := .new
  bufsize := 16
  queued := 0

theorem oneRequest_get :
    oneRequest.completions.get 0 = some (CompletionEvent.new NO_TASK_SENTINEL) := rfl

theorem oneRequest_not_cancelsAndEnds :
    ¬ CancelsAndEnds oneRequest 0 ∧
      ∃ ctx', drop oneRequest 0 true = .ok (.waits, ctx') ∧
        ∀ calls : List Call, (∀ call ∈ calls, ¬ call.Busy) →
          ∃ ctx'', waitLoop 0 ctx' calls = .ok (.looping ctx'') :=
  not_cancelsAndEnds (k := 2) ⟨by decide, rfl, rfl⟩ oneRequest_get rfl

/-- The event of the request is posted and `io_uring_enter` returns without an error. -/
def completed : List Call := [{ posted := [⟨0, 0, 0⟩], ret := .ok 0 }]

/-- **The event arrives and the loop goes on**, so dropping does not cancel and end in every
state. -/
theorem oneRequest_not_ended :
    ¬ ∀ (ctx : IOContext) (cqid k : ℕ) (ce : CompletionEvent), ctx.sq.Sized k →
      ctx.completions.get cqid = some ce → ce.cqe = none → CancelsAndEnds ctx cqid := by
  intro h
  have hok := h oneRequest 0 2 _ ⟨by decide, rfl, rfl⟩ oneRequest_get rfl
  obtain ⟨ctx'', hended⟩ := hok.ends _ rfl completed
    ⟨⟨_, rfl, 0, rfl⟩, ⟨_, List.mem_singleton_self _, _, List.mem_singleton_self _, rfl⟩, by decide⟩
  cases hended

end Hamerkop.MustWait
