import Hamerkop.Lib.Runs
import Hamerkop.Uring.SubmissionQueue

/-!
# What `submit_and_wait` reports and what the kernel consumed

Runs of `advance` and `submit_and_wait` on a ring without a polling thread.  The
kernel's `io_uring_enter(to_submit)` fails without consuming anything, or
consumes any number of the oldest published entries up to `to_submit` and
returns it.  `backlog` counts the published entries it has not consumed.

`submit_and_wait` moves `sqe_tail` to the tail whenever the call succeeds, so
its accounts stay exact as long as every successful call takes the whole
backlog (`exact_iff_takesAll`), and only as long as that.
-/

namespace Hamerkop.Accounting

open Runs

/-- The queue, and the entries published and not accepted by the kernel. -/
structure State where
  q : SubmissionQueue
  backlog : ℕ

/-- Entries are published, or the kernel is told of them. -/
inductive Event where
  | advance (count : UInt32)
  | submitAndWait (waitFor : UInt32) (ret : Except Errno UInt32)

/-- The number of entries the kernel consumes during a call of `submit_and_wait`. -/
def consumed (q : SubmissionQueue) (waitFor : UInt32) (ret : Except Errno UInt32) : UInt32 :=
  match q.enterCall waitFor, ret with
  | some _, .ok count => count
  | _, _ => 0

/-- The next state, if the event can happen. -/
def step (s : State) : Event → Option State
  | .advance count => some { q := s.q.advance count, backlog := s.backlog + count.toNat }
  | .submitAndWait waitFor ret =>
    let count := consumed s.q waitFor ret
    if count ≤ s.q.submitted ∧ count.toNat ≤ s.backlog then
      some
        { q := ((s.q.consume count).submitAndWait waitFor ret).2
          backlog := s.backlog - count.toNat }
    else
      none

/-- A step of the queue. -/
def Step (s : State) (e : Event) (t : State) : Prop := step s e = some t

/-- An empty ring without a polling thread, nothing submitted yet. -/
structure Init (s : State) : Prop where
  no_sqpoll : s.q.flags &&& SetupFlags.SQPOLL = 0
  head : s.q.sq.khead = s.q.sq.ktail
  sqe_tail : s.q.sq.sqeTail = s.q.sq.ktail
  backlog : s.backlog = 0

/-- The accounts of one step are exact: `to_submit` is the backlog, and `Ok(n)` says what the
kernel consumed. -/
def Exact (s : State) : Event → Prop
  | .advance _ => True
  | .submitAndWait waitFor ret =>
    (∀ args, s.q.enterCall waitFor = some args → args.toSubmit.toNat = s.backlog) ∧
      ∀ n, (s.q.submitAndWait waitFor ret).1 = .ok n → n = (consumed s.q waitFor ret).toNat

/-- A call of `io_uring_enter` that succeeds consumes the whole backlog, which a `u32` can
count. -/
def TakesAll (s : State) : Event → Prop
  | .advance _ => True
  | .submitAndWait waitFor ret => s.q.enterCall waitFor ≠ none →
    s.backlog < 2 ^ 32 ∧ ∀ count, ret = .ok count → count.toNat = s.backlog

/-! ## The invariant -/

/-- Both ways of counting the backlog agree with it: from the kernel's head, and from
`sqe_tail`. -/
structure Inv (s : State) : Prop where
  no_sqpoll : s.q.flags &&& SetupFlags.SQPOLL = 0
  unconsumed : s.q.sq.ktail - s.q.sq.khead = UInt32.ofNat s.backlog
  submitted : s.q.submitted = UInt32.ofNat s.backlog

theorem Init.inv {s : State} (h : Init s) : Inv s := by
  refine ⟨h.no_sqpoll, ?_, ?_⟩
  · rw [h.head, h.backlog, UInt32.sub_self]
    rfl
  · rw [SubmissionQueue.submitted, h.sqe_tail, h.backlog, UInt32.sub_self]
    rfl

theorem Inv.submitted_toNat {s : State} (h : Inv s) (hlt : s.backlog < 2 ^ 32) :
    s.q.submitted.toNat = s.backlog := by
  rw [h.submitted, UInt32.toNat_ofNat', Nat.mod_eq_of_lt hlt]

theorem Inv.advance {s : State} (h : Inv s) (count : UInt32) :
    Inv { q := s.q.advance count, backlog := s.backlog + count.toNat } := by
  have hback : UInt32.ofNat (s.backlog + count.toNat) = UInt32.ofNat s.backlog + count := by
    rw [UInt32.ofNat_add, UInt32.ofNat_toNat]
  have hmove : ∀ a : UInt32, s.q.sq.ktail + count - a = s.q.sq.ktail - a + count := fun a => by
    rw [UInt32.sub_eq_add_neg, UInt32.add_assoc, UInt32.add_comm count, ← UInt32.add_assoc,
      ← UInt32.sub_eq_add_neg]
  refine ⟨h.no_sqpoll, ?_, ?_⟩
  · show s.q.sq.ktail + count - s.q.sq.khead = _
    rw [hmove, h.unconsumed, hback]
  · show s.q.sq.ktail + count - s.q.sq.sqeTail = _
    rw [hmove, hback, ← h.submitted, SubmissionQueue.submitted]

/-- A call that takes the whole backlog settles the accounts. -/
theorem Inv.settle {s : State} (h : Inv s) {count : UInt32}
    (hcount : count = UInt32.ofNat s.backlog) :
    Inv { q := (s.q.consume count).settle, backlog := 0 } := by
  have htail : s.q.sq.khead + count = s.q.sq.ktail := by
    rw [hcount, ← h.unconsumed, UInt32.add_comm, UInt32.sub_add_cancel]
  refine ⟨h.no_sqpoll, ?_, ?_⟩
  · show s.q.sq.ktail - (s.q.sq.khead + count) = 0
    rw [htail, UInt32.sub_self]
  · show s.q.sq.ktail - s.q.sq.ktail = 0
    exact UInt32.sub_self ..

/-- So does a `submit_and_wait` that makes no call because nothing is waiting to be submitted. -/
theorem Inv.settle_idle {s : State} (h : Inv s) (hidle : s.q.submitted = 0) :
    Inv { q := (s.q.consume 0).settle, backlog := s.backlog } := by
  have hzero : UInt32.ofNat s.backlog = 0 := h.submitted.symm.trans hidle
  refine ⟨h.no_sqpoll, ?_, ?_⟩
  · show s.q.sq.ktail - (s.q.sq.khead + 0) = _
    rw [UInt32.add_zero, h.unconsumed]
  · show s.q.sq.ktail - s.q.sq.ktail = _
    rw [hzero, UInt32.sub_self]

/-! ## Exactness -/

theorem good_step (s : State) (e : Event) (t : State) (hi : Inv s) (hc : TakesAll s e)
    (hst : Step s e t) : Inv t ∧ Exact s e := by
  cases e with
  | advance count =>
    obtain rfl := Option.some.inj hst
    exact ⟨hi.advance count, trivial⟩
  | submitAndWait waitFor ret =>
    obtain ⟨-, hst⟩ := Option.ite_none_right_eq_some.1 hst
    obtain rfl := Option.some.inj hst
    have hframe : ∀ count, (s.q.consume count).enterCall waitFor = s.q.enterCall waitFor :=
      fun _ => rfl
    cases hcall : s.q.enterCall waitFor with
    | none =>
      have hidle := ((SubmissionQueue.enterCall_eq_none hi.no_sqpoll).1 hcall).2
      have hcons : consumed s.q waitFor ret = 0 := by simp only [consumed, hcall]
      constructor
      · rw [hcons, SubmissionQueue.submitAndWait_of_not_called ((hframe 0).trans hcall)]
        exact hi.settle_idle hidle
      · refine ⟨by simp [hcall], fun n hn => ?_⟩
        rw [SubmissionQueue.submitAndWait_of_not_called hcall, Except.ok.injEq] at hn
        rw [← hn, hcons, hidle]
    | some args =>
      obtain ⟨hlt, hall⟩ := hc (by simp [hcall])
      have hargs : ∀ args', s.q.enterCall waitFor = some args' →
          args'.toSubmit.toNat = s.backlog := fun args' hargs' => by
        rw [SubmissionQueue.toSubmit_of_enterCall hargs', hi.submitted_toNat hlt]
      cases ret with
      | error errno =>
        have hcons : consumed s.q waitFor (.error errno) = 0 := by simp only [consumed, hcall]
        constructor
        · rw [hcons, SubmissionQueue.submitAndWait_error ((hframe 0).trans hcall)]
          exact ⟨hi.no_sqpoll, by simpa [SubmissionQueue.consume] using hi.unconsumed, hi.submitted⟩
        · refine ⟨hargs, fun n hn => ?_⟩
          rw [SubmissionQueue.submitAndWait_error hcall] at hn
          cases hn
      | ok count =>
        have hcount := hall count rfl
        have hcons : consumed s.q waitFor (.ok count) = count := by simp only [consumed, hcall]
        constructor
        · rw [hcons, SubmissionQueue.submitAndWait_ok, hcount, Nat.sub_self]
          exact hi.settle (by rw [← hcount, UInt32.ofNat_toNat])
        · refine ⟨hargs, fun n hn => ?_⟩
          rw [SubmissionQueue.submitAndWait_ok, Except.ok.injEq] at hn
          rw [hcons, ← hn, hi.submitted_toNat hlt, hcount]

/-- A call that leaves something behind is reported as if it had not. -/
theorem bad_step (s : State) (e : Event) (t : State) (_ : Inv s) (hc : ¬ TakesAll s e)
    (_ : Step s e t) : ¬ Exact s e := by
  rintro hex
  cases e with
  | advance count => exact hc trivial
  | submitAndWait waitFor ret =>
    refine hc fun hcall => ?_
    obtain ⟨args, hargs⟩ := Option.ne_none_iff_exists'.1 hcall
    have hback : s.q.submitted.toNat = s.backlog := by
      rw [← hex.1 args hargs, SubmissionQueue.toSubmit_of_enterCall hargs]
    refine ⟨hback ▸ s.q.submitted.toNat_lt, fun count hret => ?_⟩
    subst hret
    have hok := hex.2 s.q.submitted.toNat (by rw [SubmissionQueue.submitAndWait_ok])
    rw [← hback, hok]
    simp only [consumed, hargs]

/-- **When submission accounting is exact.**  In a run from an empty ring, `to_submit` is the
number of published entries the kernel has not consumed on every call, and every `Ok(n)` is the
number it consumed in that call, iff every `io_uring_enter` that succeeds consumes all of them. -/
theorem exact_iff_takesAll {s : State} {l : List (Event × State)} (h0 : Init s)
    (hr : Run Step s l) :
    (∀ x ∈ steps s l, Exact x.1 x.2.1) ↔ ∀ x ∈ steps s l, TakesAll x.1 x.2.1 :=
  hr.forall_steps_iff (Q := fun s e _ => Exact s e) good_step bad_step h0.inv

/-! ## Short and full submissions -/

/-- An empty ring of four entries. -/
def emptyRing : SubmissionQueue where
  sq :=
    { khead := 0, ktail := 0, kringMask := 3, kringEntries := 4, kflags := 0, sqes := fun _ => {}
      sqeTail := 0 }
  flags := 0

/-- Nothing is published yet. -/
def emptyState : State := { q := emptyRing, backlog := 0 }

theorem emptyState_init : Init emptyState := ⟨rfl, rfl, rfl, rfl⟩

/-- Two entries are published and the kernel takes both. -/
def fullSubmit : List Event := [.advance 2, .submitAndWait 0 (.ok 2)]

theorem fullSubmit_exact :
    EachStep (fun x => Exact x.1 x.2.1) emptyState (play step emptyState fullSubmit) := by
  refine (exact_iff_takesAll emptyState_init (run_play ..)).2 fun x hx => ?_
  rcases List.mem_cons.1 hx with rfl | hx
  · trivial
  · obtain rfl := List.mem_singleton.1 hx
    refine fun _ => ⟨by decide, fun count hcount => ?_⟩
    obtain rfl := Except.ok.inj hcount
    rfl

/-- Two entries are published and the kernel takes one of them. -/
def shortSubmit : List Event := [.advance 2, .submitAndWait 0 (.ok 1)]

/-- **A short submission is reported as a full one**, so accounting is not exact in every run. -/
theorem shortSubmit_not_exact :
    ¬ ∀ (s : State) (l : List (Event × State)), Init s → Run Step s l →
      ∀ x ∈ steps s l, Exact x.1 x.2.1 := by
  intro h
  have hsteps := h emptyState (play step emptyState shortSubmit) emptyState_init (run_play ..)
  have hmem : ∃ x ∈ steps emptyState (play step emptyState shortSubmit),
      x.2.1 = .submitAndWait 0 (.ok 1) ∧ x.1.q = emptyRing.advance 2 :=
    ⟨_, List.mem_cons_of_mem _ (List.mem_cons_self ..), rfl, rfl⟩
  obtain ⟨x, hx, he, hq⟩ := hmem
  have hex := hsteps x hx
  rw [he] at hex
  have htwo := hex.2 2 (by rw [hq]; rfl)
  rw [hq] at htwo
  exact absurd htwo (by decide)

end Hamerkop.Accounting
