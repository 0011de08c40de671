import Hamerkop.Lib.Runs
import Hamerkop.Servers.Ping

/-!
# A connection of the echo server

`conn_task_` of `hamerkop/examples/echoserver.rs`, from one `await` to the next.  What has been
read is written from the buffer it was read into, and the buffer goes back to the kernel
afterwards: the `write_buf`, the `provide_buffer` and the next `read` are linked.  When the write
is short the other two are cancelled, the task gets its buffer back, and `write_all` writes the
rest.

* `always_echoes` — in every state of every run what has been written is a beginning of what has
  been read, and nothing but what is being written is missing;
* the same theorem says that the task holds one buffer of the pool at most, and none when the
  client has closed the connection.
-/

namespace Hamerkop

open Runs

/-- What the task waits for. -/
inductive EchoPc where
  /-- a `read` of its own: the first, or the one after `write_all` -/
  | reading
  /-- the linked `write_buf`, `provide_buffer` and `read` -/
  | linked (rbuf : List UInt8)
  /-- a `write_buf` of `write_all` -/
  | writing (slice : List UInt8)
  /-- the `provide_buffer` after `write_all` -/
  | providing
  /-- the last `provide_buffer` -/
  | closing
  | eof
  | failed
deriving DecidableEq, Repr

/-- The buffers of the pool that the task has at this place. -/
def EchoPc.buffers : EchoPc → ℕ
  | .linked _ | .writing _ | .providing | .closing => 1
  | _ => 0

/-- A connection: where its task stands, and what it has received and sent. -/
structure EchoConn where
  pc : EchoPc
  /-- everything that has been read -/
  received : List UInt8
  /-- everything that has been written -/
  sent : List UInt8
  /-- the buffers of the pool that have been read into and not been given back -/
  held : ℕ
deriving DecidableEq, Repr

/-- What an operation that was awaited puts out. -/
inductive EchoEvent where
  /-- a `read` of its own -/
  | read (bytes : List UInt8)
  /-- the linked requests all succeed, and this has been read -/
  | linked (bytes : List UInt8)
  /-- the linked write is short, and the other two requests are cancelled -/
  | short (amount : ℕ)
  /-- the linked write is complete, but the buffer is not provided, so the read is cancelled -/
  | provideFailed
  /-- the linked write is complete and the buffer provided, but the read fails -/
  | readFailed
  /-- a write of `write_all` -/
  | wrote (count : ℕ)
  | provided
  /-- what the task waits for first fails -/
  | failed
deriving DecidableEq, Repr

namespace EchoConn

/-- A connection that is accepted. -/
def start : EchoConn := { pc := .reading, received := [], sent := [], held := 0 }

/-- The body of the loop, up to the next `await`. -/
def round (s : EchoConn) (bytes : List UInt8) : EchoConn :=
  let s := { s with received := s.received ++ bytes, held := s.held + 1 }
  if bytes.length = 0 then { s with pc := .closing } else { s with pc := .linked bytes }

/-- What has been written is in the hands of the kernel. -/
def write (s : EchoConn) (bytes : List UInt8) : EchoConn := { s with sent := s.sent ++ bytes }

/-- The buffer goes back to the pool. -/
def provide (s : EchoConn) : EchoConn := { s with held := s.held - 1 }

/-- The task goes on to its next `await`. -/
def apply (s : EchoConn) (e : EchoEvent) : Option EchoConn :=
  match s.pc, e with
  | .reading, .read bytes => if bytes.length ≤ BUFFER_SIZE then some (s.round bytes) else none
  | .linked rbuf, .linked bytes =>
    if bytes.length ≤ BUFFER_SIZE then some ((s.write rbuf).provide.round bytes) else none
  | .linked rbuf, .short amount =>
    if amount < rbuf.length then
      some { s.write (rbuf.take amount) with pc := .writing (rbuf.drop amount) }
    else
      none
  | .linked rbuf, .provideFailed => some { s.write rbuf with pc := .failed }
  | .linked rbuf, .readFailed => some { (s.write rbuf).provide with pc := .failed }
  | .writing slice, .wrote count =>
    if count ≤ slice.length then
      let s := s.write (slice.take count)
      let slice := slice.drop count
      if count = 0 then
        some { s with pc := .failed }
      else if slice = [] then
        some { s with pc := .providing }
      else
        some { s with pc := .writing slice }
    else
      none
  | .providing, .provided => some { s.provide with pc := .reading }
  | .closing, .provided => some { s.provide with pc := .eof }
  | .eof, _ => none
  | .failed, _ => none
  | _, .failed => some { s with pc := .failed }
  | _, _ => none

/-- A step of the task. -/
def Step (s : EchoConn) (e : EchoEvent) (t : EchoConn) : Prop := s.apply e = some t

/-! ## What every step keeps -/

/-- What a write that is under way has still to write. -/
def pending (s : EchoConn) : List UInt8 :=
  match s.pc with
  | .linked rbuf => rbuf
  | .writing slice => slice
  | _ => []

/-- What every step keeps. -/
structure Invariant (s : EchoConn) : Prop where
  echoes : s.pc ≠ .failed → s.received = s.sent ++ s.pending
  missing : s.sent <+: s.received
  buffers : s.pc ≠ .failed → s.held = s.pc.buffers
  held : s.held ≤ 1

variable {s t : EchoConn}

theorem start_invariant : start.Invariant :=
  ⟨fun _ => rfl, List.prefix_refl _, fun _ => rfl, by decide⟩

/-- A round starts when everything has been written and no buffer is held. -/
theorem round_invariant (hechoes : s.received = s.sent) (hheld : s.held = 0)
    (bytes : List UInt8) : (s.round bytes).Invariant := by
  unfold round
  by_cases hempty : bytes.length = 0
  · obtain rfl := List.length_eq_zero_iff.mp hempty
    refine ⟨fun _ => ?_, ?_, ?_, ?_⟩ <;> simp [pending, hechoes, EchoPc.buffers, hheld]
  · rw [if_neg hempty]
    refine ⟨fun _ => ?_, ?_, ?_, ?_⟩ <;> simp [pending, hechoes, EchoPc.buffers, hheld]

/-- A connection that fails after it has written a part of what is left. -/
theorem Invariant.fail (h : s.Invariant) (hpc : s.pc ≠ .failed) {part : List UInt8}
    (hpart : part <+: s.pending) (hreceived : t.received = s.received)
    (hsent : t.sent = s.sent ++ part) (hheld : t.held ≤ s.held) (ht : t.pc = .failed) :
    t.Invariant where
  echoes := fun hne => absurd ht hne
  missing := by
    rw [hreceived, hsent, h.echoes hpc]
    exact (List.prefix_append_right_inj s.sent).mpr hpart
  buffers := fun hne => absurd ht hne
  held := hheld.trans h.held

/-- A connection that goes on without reading. -/
theorem Invariant.proceed (h : s.Invariant) (hpc : s.pc ≠ .failed)
    (hreceived : t.received = s.received) (hsent : t.sent ++ t.pending = s.sent ++ s.pending)
    (hheld : t.held = t.pc.buffers) : t.Invariant where
  echoes := by
    intro _
    rw [hreceived, hsent]
    exact h.echoes hpc
  missing := by
    rw [hreceived, h.echoes hpc, ← hsent]
    exact List.prefix_append _ _
  buffers := fun _ => hheld
  held := by
    rw [hheld]
    cases t.pc <;> simp [EchoPc.buffers]

/-- As long as a buffer is written, or about to be provided, the task has it. -/
theorem Invariant.held_eq (h : s.Invariant) (hpc : s.pc ≠ .failed) (hbuffers : s.pc.buffers = 1) :
    s.held = 1 := (h.buffers hpc).trans hbuffers

theorem Invariant.read {bytes : List UInt8} (h : s.Invariant) (hst : s.Step (.read bytes) t) :
    t.Invariant := by
  unfold Step apply at hst
  cases hpc : s.pc with
  | reading =>
    have hopen : s.pc ≠ .failed := by simp [hpc]
    have hheld := h.buffers hopen
    have hechoes := h.echoes hopen
    rw [hpc] at hheld
    rw [pending, hpc, List.append_nil] at hechoes
    by_cases hbytes : bytes.length ≤ BUFFER_SIZE
    · simp only [hpc, if_pos hbytes, Option.some.injEq] at hst
      exact hst ▸ round_invariant hechoes hheld bytes
    · simp [hpc, hbytes] at hst
  | _ => simp [hpc] at hst

theorem Invariant.linked {bytes : List UInt8} (h : s.Invariant)
    (hst : s.Step (.linked bytes) t) : t.Invariant := by
  unfold Step apply at hst
  cases hpc : s.pc with
  | linked rbuf =>
    have hopen : s.pc ≠ .failed := by simp [hpc]
    have hheld := h.held_eq hopen (by rw [hpc]; rfl)
    have hpending : s.pending = rbuf := by rw [pending, hpc]
    by_cases hbytes : bytes.length ≤ BUFFER_SIZE
    · simp only [hpc, if_pos hbytes, Option.some.injEq] at hst
      subst hst
      refine round_invariant ?_ (by simp [provide, write, hheld]) bytes
      simpa [hpending, write, provide] using h.echoes hopen
    · simp [hpc, hbytes] at hst
  | _ => simp [hpc] at hst

theorem Invariant.short {amount : ℕ} (h : s.Invariant) (hst : s.Step (.short amount) t) :
    t.Invariant := by
  unfold Step apply at hst
  cases hpc : s.pc with
  | linked rbuf =>
    have hopen : s.pc ≠ .failed := by simp [hpc]
    have hheld := h.held_eq hopen (by rw [hpc]; rfl)
    have hpending : s.pending = rbuf := by rw [pending, hpc]
    by_cases hamount : amount < rbuf.length
    · simp only [hpc, if_pos hamount, Option.some.injEq] at hst
      subst hst
      refine h.proceed hopen rfl ?_ hheld
      rw [hpending]
      simp [pending, write]
    · simp [hpc, hamount] at hst
  | _ => simp [hpc] at hst

theorem Invariant.provideFailed (h : s.Invariant) (hst : s.Step .provideFailed t) :
    t.Invariant := by
  unfold Step apply at hst
  cases hpc : s.pc with
  | linked rbuf =>
    simp only [hpc, Option.some.injEq] at hst
    subst hst
    have hpending : s.pending = rbuf := by rw [pending, hpc]
    exact h.fail (by simp [hpc]) (List.prefix_refl _) rfl (by rw [hpending]; rfl) le_rfl rfl
  | _ => simp [hpc] at hst

theorem Invariant.readFailed (h : s.Invariant) (hst : s.Step .readFailed t) : t.Invariant := by
  unfold Step apply at hst
  cases hpc : s.pc with
  | linked rbuf =>
    simp only [hpc, Option.some.injEq] at hst
    subst hst
    have hpending : s.pending = rbuf := by rw [pending, hpc]
    exact h.fail (by simp [hpc]) (List.prefix_refl _) rfl (by rw [hpending]; rfl)
      (Nat.sub_le _ _) rfl
  | _ => simp [hpc] at hst

/-- A write of `write_all` writes nothing, the rest, or a part of it. -/
theorem Invariant.wrote {count : ℕ} (h : s.Invariant) (hst : s.Step (.wrote count) t) :
    t.Invariant := by
  unfold Step apply at hst
  cases hpc : s.pc with
  | writing slice =>
    have hopen : s.pc ≠ .failed := by simp [hpc]
    have hheld := h.held_eq hopen (by rw [hpc]; rfl)
    have hpending : s.pending = slice := by rw [pending, hpc]
    have hsplit := List.take_append_drop count slice
    simp only [hpc] at hst
    split_ifs at hst with hcount hzero hdone
    · cases hst
      refine h.fail hopen ?_ rfl (rfl : _ = s.sent ++ slice.take count) le_rfl rfl
      rw [hpending]
      exact List.take_prefix _ _
    · cases hst
      refine h.proceed hopen rfl ?_ hheld
      rw [hdone, List.append_nil] at hsplit
      rw [hpending]
      simp [pending, write, hsplit]
    · cases hst
      refine h.proceed hopen rfl ?_ hheld
      rw [hpending]
      simp [pending, write]
  | _ => simp [hpc] at hst

theorem Invariant.provided (h : s.Invariant) (hst : s.Step .provided t) : t.Invariant := by
  unfold Step apply at hst
  cases hpc : s.pc with
  | providing =>
    have hheld := h.held_eq (by simp [hpc]) (by rw [hpc]; rfl)
    simp only [hpc, Option.some.injEq] at hst
    subst hst
    refine h.proceed (by simp [hpc]) rfl ?_ ?_
    · simp [pending, provide, hpc]
    · simp [provide, hheld, EchoPc.buffers]
  | closing =>
    have hheld := h.held_eq (by simp [hpc]) (by rw [hpc]; rfl)
    simp only [hpc, Option.some.injEq] at hst
    subst hst
    refine h.proceed (by simp [hpc]) rfl ?_ ?_
    · simp [pending, provide, hpc]
    · simp [provide, hheld, EchoPc.buffers]
  | _ => simp [hpc] at hst

/-- What the task waits for fails. -/
theorem Invariant.failed (h : s.Invariant) (hst : s.Step .failed t) : t.Invariant := by
  unfold Step apply at hst
  cases hpc : s.pc with
  | eof => simp [hpc] at hst
  | failed => simp [hpc] at hst
  | _ =>
    simp only [hpc, Option.some.injEq] at hst
    subst hst
    exact h.fail (by simp [hpc]) List.nil_prefix rfl (List.append_nil _).symm le_rfl rfl

theorem Invariant.step {e : EchoEvent} (h : s.Invariant) (hst : s.Step e t) : t.Invariant := by
  cases e with
  | read bytes => exact h.read hst
  | linked bytes => exact h.linked hst
  | short amount => exact h.short hst
  | provideFailed => exact h.provideFailed hst
  | readFailed => exact h.readFailed hst
  | wrote count => exact h.wrote hst
  | provided => exact h.provided hst
  | failed => exact h.failed hst

/-- **The client gets back what it has sent**, in order, and as far as it has been written; when
it closes the connection that is everything.  The task never holds more than one buffer of the
pool, and then holds none. -/
theorem always_echoes {l : List (EchoEvent × EchoConn)} (hr : Run Step start l) :
    Always (fun s => s.sent <+: s.received ∧ s.held ≤ 1 ∧
      (s.pc ≠ .failed → s.received = s.sent ++ s.pending) ∧
      (s.pc = .eof → s.sent = s.received ∧ s.held = 0)) start l := by
  intro s hs
  have hinv : s.Invariant := hr.invariant (I := Invariant) (C := fun _ _ => True)
    (fun _ _ _ hs _ hst => hs.step hst) start_invariant (fun _ _ => trivial) s hs
  refine ⟨hinv.missing, hinv.held, hinv.echoes, ?_⟩
  intro hpc
  have hopen : s.pc ≠ .failed := by simp [hpc]
  have hechoes := hinv.echoes hopen
  have hbuffers := hinv.buffers hopen
  rw [pending, hpc, List.append_nil] at hechoes
  rw [hpc] at hbuffers
  exact ⟨hechoes.symm, hbuffers⟩

/-- Five bytes of which the linked write takes two; then the client closes the connection. -/
def shortWrite : List EchoEvent :=
  [.read [1, 2, 3, 4, 5], .short 2, .wrote 1, .wrote 2, .provided, .read [6], .linked [],
    .provided]

theorem always_echoes_shortWrite :
    Always (fun s => s.sent <+: s.received ∧ s.held ≤ 1 ∧
      (s.pc ≠ .failed → s.received = s.sent ++ s.pending) ∧
      (s.pc = .eof → s.sent = s.received ∧ s.held = 0)) start (play apply start shortWrite) :=
  always_echoes (run_play apply start shortWrite)

example : (final start (play apply start shortWrite)).sent = [1, 2, 3, 4, 5, 6] := by decide

end EchoConn

end Hamerkop
