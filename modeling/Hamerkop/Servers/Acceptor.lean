import Hamerkop.Lib.Runs

/-!
# How a server gets its connections

`acceptor_thread` and `main_task`, which both servers under `hamerkop/examples` have.  The acceptor
adds one to an eventfd and then sends the connection through a channel; the main task provides
its buffers and then reads the eventfd and empties the channel.  The threads take their steps in
any order.

Both servers create the eventfd with `FD_CLOEXEC`.  As a flag of `eventfd` this is
`EFD_SEMAPHORE`, with which a read takes one from the counter, and not all of it.

* `always_delivered` — no connection is lost or served twice, they are served in order, and when
  the main task waits although the counter is zero, at most the last connection is left behind:
  the one whose notification was read before it was sent.
-/

namespace Hamerkop

open Runs

/-- Where `acceptor_thread` is. -/
inductive AcceptorPc (C : Type) where
  | accepting
  /-- before the `write` to the eventfd -/
  | notifying (conn : C)
  | sending (conn : C)
  | returned
deriving DecidableEq, Repr

/-- Where `main_task` is. -/
inductive MainPc where
  /-- it still has to provide so many buffers -/
  | providing (left : ℕ)
  /-- in the `read` of the eventfd -/
  | reading
  /-- in the loop over `try_iter` -/
  | receiving
  | returned
deriving DecidableEq, Repr

/-- The two sides, what is between them, and what has become of each connection. -/
structure Acceptance (C : Type) where
  acceptor : AcceptorPc C
  main : MainPc
  /-- the counter of the eventfd -/
  counter : ℕ
  channel : List C
  /-- the connections that have been accepted -/
  accepted : List C
  /-- the connections for which a task has been spawned -/
  spawned : List C
  /-- the connection whose notification failed -/
  dropped : List C
deriving DecidableEq, Repr

/-- A call of either side returns. -/
inductive AcceptanceEvent (C : Type) where
  | accept (conn : C)
  | acceptFailed
  | notify
  | notifyFailed
  | send
  | sendFailed
  | provided
  | provideFailed
  | read
  | readFailed
  | tryRecv
deriving DecidableEq, Repr

/-- `STARTING_BUFFERS` -/
def STARTING_BUFFERS : ℕ := 256

namespace Acceptance

variable {C : Type}

/-- Both sides at their beginning. -/
def start : Acceptance C where
  acceptor := .accepting
  main := .providing STARTING_BUFFERS
  counter := 0
  channel := []
  accepted := []
  spawned := []
  dropped := []

/-- A `send` fails when the main task has dropped the receiver. -/
def apply (s : Acceptance C) (e : AcceptanceEvent C) : Option (Acceptance C) :=
  match e with
  | .accept conn =>
    match s.acceptor with
    | .accepting => some { s with acceptor := .notifying conn, accepted := s.accepted ++ [conn] }
    | _ => none
  | .acceptFailed =>
    match s.acceptor with
    | .accepting => some { s with acceptor := .returned }
    | _ => none
  | .notify =>
    match s.acceptor with
    | .notifying conn => some { s with acceptor := .sending conn, counter := s.counter + 1 }
    | _ => none
  | .notifyFailed =>
    match s.acceptor with
    | .notifying conn => some { s with acceptor := .returned, dropped := [conn] }
    | _ => none
  | .send =>
    match s.acceptor, s.main with
    | .sending _, .returned => none
    | .sending conn, _ => some { s with acceptor := .accepting, channel := s.channel ++ [conn] }
    | _, _ => none
  | .sendFailed =>
    match s.acceptor, s.main with
    | .sending _, .returned => some { s with acceptor := .returned }
    | _, _ => none
  | .provided =>
    match s.main with
    | .providing 1 => some { s with main := .reading }
    | .providing (left + 2) => some { s with main := .providing (left + 1) }
    | _ => none
  | .provideFailed =>
    match s.main with
    | .providing (_ + 1) => some { s with main := .returned, channel := [] }
    | _ => none
  | .read =>
    match s.main with
    -- `EFD_SEMAPHORE`
    | .reading =>
      if 0 < s.counter then some { s with main := .receiving, counter := s.counter - 1 } else none
    | _ => none
  | .readFailed =>
    match s.main with
    | .reading => some { s with main := .returned, channel := [] }
    | _ => none
  | .tryRecv =>
    match s.main, s.channel with
    | .receiving, conn :: channel => some { s with channel, spawned := s.spawned ++ [conn] }
    | .receiving, [] => some { s with main := .reading }
    | _, _ => none

/-- A step of either side. -/
def Step (s : Acceptance C) (e : AcceptanceEvent C) (t : Acceptance C) : Prop := s.apply e = some t

/-- The connection that the acceptor has in its hands. -/
def inHand (s : Acceptance C) : List C :=
  match s.acceptor with
  | .notifying conn | .sending conn => [conn]
  | _ => []

/-- The connection of which the main task has been told before it was sent. -/
def announced (s : Acceptance C) : ℕ :=
  match s.acceptor with
  | .sending _ => 1
  | _ => 0

/-- How many connections the main task may have in its channel without being told again. -/
def slack (s : Acceptance C) : ℕ :=
  match s.main with
  | .providing _ => 0
  | _ => 1

/-- What every step keeps. -/
structure Invariant (s : Acceptance C) : Prop where
  inOrder : s.main ≠ .returned → s.accepted = s.spawned ++ s.channel ++ s.inHand ++ s.dropped
  dropped : s.acceptor ≠ .returned → s.dropped = []
  told : s.main ≠ .returned → s.main ≠ .receiving →
    s.channel.length + s.announced ≤ s.counter + s.slack

variable {s t : Acceptance C}

theorem start_invariant : (start : Acceptance C).Invariant :=
  ⟨fun _ => rfl, fun _ => rfl, fun _ _ => le_rfl⟩

theorem announced_le (s : Acceptance C) : s.announced ≤ 1 := by
  unfold announced
  split <;> decide

/-! ## The steps of the acceptor -/

theorem Invariant.accept {conn : C} (h : s.Invariant) (hst : s.Step (.accept conn) t) :
    t.Invariant := by
  unfold Step apply at hst
  cases hpc : s.acceptor with
  | accepting =>
    simp only [hpc, Option.some.injEq] at hst
    subst hst
    have hdropped := h.dropped (by simp [hpc])
    refine ⟨fun hmain => ?_, fun _ => hdropped, fun hmain hreceiving => ?_⟩
    · have hall := h.inOrder hmain
      simp only [inHand, hpc, hdropped, List.append_nil] at hall ⊢
      rw [hall]
    · have htold := h.told hmain hreceiving
      simpa only [announced, slack, hpc] using htold
  | _ => simp [hpc] at hst

theorem Invariant.acceptFailed (h : s.Invariant) (hst : s.Step .acceptFailed t) :
    t.Invariant := by
  unfold Step apply at hst
  cases hpc : s.acceptor with
  | accepting =>
    simp only [hpc, Option.some.injEq] at hst
    subst hst
    refine ⟨fun hmain => ?_, fun hne => absurd rfl hne, fun hmain hreceiving => ?_⟩
    · have hall := h.inOrder hmain
      simpa only [inHand, hpc] using hall
    · have htold := h.told hmain hreceiving
      simpa only [announced, slack, hpc] using htold
  | _ => simp [hpc] at hst

/-- The main task is told of a connection that is not in the channel yet. -/
theorem Invariant.notify (h : s.Invariant) (hst : s.Step .notify t) : t.Invariant := by
  unfold Step apply at hst
  cases hpc : s.acceptor with
  | notifying conn =>
    simp only [hpc, Option.some.injEq] at hst
    subst hst
    refine ⟨fun hmain => ?_, fun _ => h.dropped (by simp [hpc]), fun hmain hreceiving => ?_⟩
    · have hall := h.inOrder hmain
      simpa only [inHand, hpc] using hall
    · have htold := h.told hmain hreceiving
      simp only [announced, hpc, slack] at htold ⊢
      omega
  | _ => simp [hpc] at hst

theorem Invariant.notifyFailed (h : s.Invariant) (hst : s.Step .notifyFailed t) :
    t.Invariant := by
  unfold Step apply at hst
  cases hpc : s.acceptor with
  | notifying conn =>
    simp only [hpc, Option.some.injEq] at hst
    subst hst
    have hdropped := h.dropped (by simp [hpc])
    refine ⟨fun hmain => ?_, fun hne => absurd rfl hne, fun hmain hreceiving => ?_⟩
    · have hall := h.inOrder hmain
      simpa only [inHand, hpc, hdropped, List.append_nil] using hall
    · have htold := h.told hmain hreceiving
      simpa only [announced, slack, hpc] using htold
  | _ => simp [hpc] at hst

theorem Invariant.send (h : s.Invariant) (hst : s.Step .send t) : t.Invariant := by
  unfold Step apply at hst
  cases hpc : s.acceptor with
  | sending conn =>
    have hrunning : s.main ≠ .returned := by
      intro hmain
      simp [hpc, hmain] at hst
    simp only [hpc, Option.some.injEq] at hst
    subst hst
    refine ⟨fun _ => ?_, fun _ => h.dropped (by simp [hpc]), fun hmain hreceiving => ?_⟩
    · have hall := h.inOrder hrunning
      simpa [inHand, hpc] using hall
    · have htold := h.told hmain hreceiving
      simpa [announced, hpc, slack] using htold
  | _ => simp [hpc] at hst

/-- The main task has dropped the receiver, and nothing is promised any more. -/
theorem invariant_of_sendFailed (hst : s.Step .sendFailed t) : t.Invariant := by
  unfold Step at hst
  simp only [apply] at hst
  split at hst
  · rename_i hmain
    cases hst
    exact ⟨fun hne => absurd hmain hne, fun hne => absurd rfl hne, fun hne => absurd hmain hne⟩
  · cases hst

/-! ## The steps of the main task -/

theorem Invariant.provided (h : s.Invariant) (hst : s.Step .provided t) : t.Invariant := by
  unfold Step apply at hst
  cases hpc : s.main with
  | providing left =>
    have hall := h.inOrder (by simp [hpc])
    have htold := h.told (by simp [hpc]) (by simp [hpc])
    simp only [slack, hpc] at htold
    match left with
    | 0 => simp [hpc] at hst
    | 1 =>
      simp only [hpc, Option.some.injEq] at hst
      subst hst
      exact ⟨fun _ => hall, h.dropped, fun _ _ => htold.trans (Nat.le_succ _)⟩
    | left + 2 =>
      simp only [hpc, Option.some.injEq] at hst
      subst hst
      exact ⟨fun _ => hall, h.dropped, fun _ _ => htold⟩
  | _ => simp [hpc] at hst

/-- When the main task is over, the receiver is dropped with what is in the channel. -/
theorem Invariant.over (h : s.Invariant) : { s with main := .returned, channel := [] }.Invariant :=
  ⟨fun hne => absurd rfl hne, h.dropped, fun hne => absurd rfl hne⟩

theorem Invariant.provideFailed (h : s.Invariant) (hst : s.Step .provideFailed t) :
    t.Invariant := by
  unfold Step at hst
  simp only [apply] at hst
  split at hst
  · cases hst
    exact h.over
  · cases hst

theorem Invariant.readFailed (h : s.Invariant) (hst : s.Step .readFailed t) : t.Invariant := by
  unfold Step at hst
  simp only [apply] at hst
  split at hst
  · cases hst
    exact h.over
  · cases hst

theorem Invariant.read (h : s.Invariant) (hst : s.Step .read t) : t.Invariant := by
  unfold Step apply at hst
  cases hpc : s.main with
  | reading =>
    simp only [hpc] at hst
    split at hst
    · cases hst
      exact ⟨fun _ => h.inOrder (by simp [hpc]), h.dropped,
        fun _ hreceiving => absurd rfl hreceiving⟩
    · cases hst
  | _ => simp [hpc] at hst

/-- With the channel empty, the main task goes back to the eventfd.  Whatever comes now is sent by
the acceptor, which may have told it already. -/
theorem Invariant.tryRecv (h : s.Invariant) (hst : s.Step .tryRecv t) : t.Invariant := by
  unfold Step apply at hst
  cases hpc : s.main with
  | receiving =>
    have hall := h.inOrder (by simp [hpc])
    cases hchannel : s.channel with
    | nil =>
      simp only [hpc, hchannel, Option.some.injEq] at hst
      subst hst
      rw [hchannel] at hall
      have hone := s.announced_le
      refine ⟨fun _ => hall, h.dropped, fun _ _ => ?_⟩
      show 0 + s.announced ≤ s.counter + 1
      omega
    | cons conn channel =>
      simp only [hpc, hchannel, Option.some.injEq] at hst
      subst hst
      refine ⟨fun _ => ?_, h.dropped, fun _ hreceiving => absurd rfl hreceiving⟩
      rw [hchannel] at hall
      simpa [inHand] using hall
  | _ => simp [hpc] at hst

theorem Invariant.step {e : AcceptanceEvent C} (h : s.Invariant) (hst : s.Step e t) :
    t.Invariant := by
  cases e with
  | accept conn => exact h.accept hst
  | acceptFailed => exact h.acceptFailed hst
  | notify => exact h.notify hst
  | notifyFailed => exact h.notifyFailed hst
  | send => exact h.send hst
  | sendFailed => exact invariant_of_sendFailed hst
  | provided => exact h.provided hst
  | provideFailed => exact h.provideFailed hst
  | read => exact h.read hst
  | readFailed => exact h.readFailed hst
  | tryRecv => exact h.tryRecv hst

/-! ## What is delivered -/

/-- **No connection is lost, and none is served twice or out of turn**, as long as the main task
runs.  When it waits and nobody has told it of anything, at most one connection is left
behind. -/
theorem always_delivered {l : List (AcceptanceEvent C × Acceptance C)} (hr : Run Step start l) :
    Always (fun s => s.main ≠ .returned →
      s.accepted = s.spawned ++ s.channel ++ s.inHand ++ s.dropped ∧
        (s.main = .reading → s.counter = 0 → s.channel.length + s.announced ≤ 1)) start l := by
  intro s hs hmain
  have hinv : s.Invariant := hr.invariant (I := Invariant) (C := fun _ _ => True)
    (fun _ _ _ hs _ hst => hs.step hst) start_invariant (fun _ _ => trivial) s hs
  refine ⟨hinv.inOrder hmain, fun hreading hcounter => ?_⟩
  have := hinv.told hmain (by simp [hreading])
  rw [hcounter, slack, hreading] at this
  simpa using this

/-- The main task looks for a connection before it has been sent. -/
def leftBehind : List (AcceptanceEvent ℕ) :=
  List.replicate STARTING_BUFFERS .provided ++
    [.accept 7, .notify, .read, .tryRecv, .send]

theorem always_delivered_leftBehind :
    Always (fun s => s.main ≠ .returned →
      s.accepted = s.spawned ++ s.channel ++ s.inHand ++ s.dropped ∧
        (s.main = .reading → s.counter = 0 → s.channel.length + s.announced ≤ 1))
      start (play apply start leftBehind) :=
  always_delivered (run_play apply start leftBehind)

/-- It waits for the next notification with a connection in its channel. -/
example :
    let s := final start (play apply start leftBehind)
    s.main = .reading ∧ s.counter = 0 ∧ s.channel = [7] := by
  decide +kernel

end Acceptance

end Hamerkop
