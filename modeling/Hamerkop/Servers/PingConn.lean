import Hamerkop.Lib.Runs
import Hamerkop.Servers.Ping

/-!
# A connection of the ping server

`conn_task_` of `hamerkop/examples/pingserver.rs`, from one `await` to the next.  The results of
the requests are events; of linked requests those behind one that fails or is short are
cancelled.  The messages may come in pieces of any size, and the answers may be written in
pieces of any size.

* `always_safe` — nothing that a client sends makes the task panic or read memory that is not
  initialised, and a complete message waits only if there was no room for its answer;
* `always_answers_iff` — as long as no request fails and no bad chunk comes, every message taken
  out gets its answer and the rest of what has been read is in `tbuf`, exactly if no round leaves
  more than `tbuf` can hold: what it cannot hold goes back to the kernel with the buffer that has
  been read;
* `always_answers_of_reads` — that takes more than 16383 reads.

At end of file nothing is answered any more: complete messages that are still in `tbuf`, because
there was no room for their answers in the last round, are dropped with it.
-/

namespace Hamerkop

open Runs RawVec VecM

/-! ## The connection -/

/-- Why a connection has ended. -/
inductive PingEnd where
  /-- the client has closed it -/
  | eof
  | badChunk
  /-- a request has failed, or a write has written nothing -/
  | failed
  | panicked
  | undefined (fault : Fault)
deriving DecidableEq, Repr

/-- What the task waits for. -/
inductive PingPc where
  /-- the first `read` -/
  | first
  /-- the linked `provide_buffer`, `write_buf` and `read` -/
  | linked
  /-- a `write_buf` of `write_all` -/
  | writing (slice : List UInt8)
  /-- the `read` after `write_all` -/
  | rereading
  /-- the last `provide_buffer` -/
  | closing
  | ended (how : PingEnd)
deriving DecidableEq, Repr

/-- A connection: its buffers, where its task stands, and what it has read and sent. -/
structure PingConn where
  tbuf : Mem UInt8
  wbuf : Mem UInt8
  pc : PingPc
  /-- everything that has been read -/
  received : List UInt8
  /-- everything that has been written -/
  sent : List UInt8

/-- What an operation that was awaited puts out. -/
inductive PingEvent where
  /-- a `read` of its own -/
  | read (bytes : List UInt8)
  /-- the linked requests all succeed, and this has been read -/
  | linked (bytes : List UInt8)
  /-- the linked write is short, and the read is cancelled -/
  | short (amount : ℕ)
  /-- the linked write is complete, but the read fails -/
  | readFailed
  /-- a write of `write_all` -/
  | wrote (count : ℕ)
  | provided
  /-- what the task waits for first fails -/
  | failed
deriving DecidableEq, Repr

/-- What has been read at this event. -/
def PingEvent.bytes? : PingEvent → Option (List UInt8)
  | .read bytes | .linked bytes => some bytes
  | _ => none

/-- The bytes in a buffer. -/
def bytesOf (m : Mem UInt8) : List UInt8 := m.vec.contents.reduceOption

/-- A buffer of the pool into which these bytes have been read. -/
def readBuffer (bytes : List UInt8) : Mem UInt8 :=
  RawVec.mem
    { cells := bytes.map .init ++ List.replicate (BUFFER_SIZE - bytes.length) .uninit
      size := bytes.length }

namespace PingConn

/-- A connection that is accepted. -/
def start : PingConn where
  tbuf := (withCapacity BUFFER_SIZE).mem
  wbuf := (withCapacity BUFFER_SIZE).mem
  pc := .first
  received := []
  sent := []

/-- The body of the loop, up to the next `await`. -/
def round (s : PingConn) (bytes : List UInt8) : PingConn :=
  let s := { s with received := s.received ++ bytes }
  if bytes.length = 0 then
    { s with pc := .closing }
  else
    match pingRound s.tbuf s.wbuf (readBuffer bytes) with
    | .ok (.ok (tbuf, wbuf)) _ => { s with tbuf, wbuf, pc := .linked }
    | .ok (.error (.badChunk _)) _ => { s with pc := .ended .badChunk }
    | .ok (.error (.write _)) _ => { s with pc := .ended .failed }
    | .panic _ => { s with pc := .ended .panicked }
    | .undefined fault => { s with pc := .ended (.undefined fault) }

/-- The end of the loop's body, and the next round. -/
def nextRound (s : PingConn) (bytes : List UInt8) : PingConn :=
  match RawVec.clear s.wbuf with
  | .ok () wbuf => { s with wbuf }.round bytes
  | .panic _ => { s with pc := .ended .panicked }
  | .undefined fault => { s with pc := .ended (.undefined fault) }

/-- What has been written is in the hands of the kernel. -/
def write (s : PingConn) (bytes : List UInt8) : PingConn := { s with sent := s.sent ++ bytes }

/-- The task goes on to its next `await`. -/
def apply (s : PingConn) : PingEvent → Option PingConn
  | .read bytes =>
    if bytes.length ≤ BUFFER_SIZE then
      match s.pc with
      | .first => some (s.round bytes)
      | .rereading => some (s.nextRound bytes)
      | _ => none
    else
      none
  | .linked bytes =>
    if s.pc = .linked ∧ bytes.length ≤ BUFFER_SIZE then
      some ((s.write (bytesOf s.wbuf)).nextRound bytes)
    else
      none
  | .short amount =>
    if s.pc = .linked ∧ amount < s.wbuf.vec.len then
      some
        { s.write ((bytesOf s.wbuf).take amount) with
          pc := .writing ((bytesOf s.wbuf).drop amount) }
    else
      none
  | .readFailed =>
    if s.pc = .linked then
      some { s.write (bytesOf s.wbuf) with pc := .ended .failed }
    else
      none
  | .wrote count =>
    match s.pc with
    | .writing slice =>
      if count ≤ slice.length then
        let s := s.write (slice.take count)
        let slice := slice.drop count
        if count = 0 then
          some { s with pc := .ended .failed }
        else if slice = [] then
          some { s with pc := .rereading }
        else
          some { s with pc := .writing slice }
      else
        none
    | _ => none
  | .provided => if s.pc = .closing then some { s with pc := .ended .eof } else none
  | .failed =>
    match s.pc with
    | .ended _ => none
    | _ => some { s with pc := .ended .failed }

/-- A step of the task. -/
def Step (s : PingConn) (e : PingEvent) (t : PingConn) : Prop := s.apply e = some t

/-! ## What a round does -/

variable {s s' : PingConn} {t bytes : List UInt8} {n : ℕ}

theorem bytesOf_eq {m : Mem UInt8} {l : List UInt8} (h : m.vec.Holds l) : bytesOf m = l := by
  unfold bytesOf
  rw [h.contents_eq]
  simp [List.reduceOption]

theorem readBuffer_holds (h : bytes.length ≤ BUFFER_SIZE) :
    (readBuffer bytes).vec.Holds bytes ∧ (readBuffer bytes).vec.capacity = BUFFER_SIZE := by
  refine ⟨⟨_, rfl, rfl, fun c hc => by rw [List.eq_of_mem_replicate hc]; rfl⟩, ?_⟩
  simp only [readBuffer, RawVec.mem, capacity, List.length_append, List.length_map,
    List.length_replicate]
  omega

/-- `t` is left of what has been read, and there are `k` answers. -/
structure Holding (s : PingConn) (t : List UInt8) (k : ℕ) : Prop where
  tbuf : s.tbuf.vec.Holds t
  tcapacity : s.tbuf.vec.capacity = BUFFER_SIZE
  wbuf : s.wbuf.vec.Holds (times k PONG)
  wcapacity : s.wbuf.vec.capacity = BUFFER_SIZE

/-- **What a round does** when `wbuf` is empty. -/
theorem Holding.round {k : ℕ} (h : s.Holding t 0) (hbytes : bytes.length ≤ BUFFER_SIZE)
    (hk : k = answerable (t ++ bytes).length 0) :
    (s.round bytes).received = s.received ++ bytes ∧ (s.round bytes).sent = s.sent ∧
      ((bytes = [] ∧ (s.round bytes).pc = .closing ∧ (s.round bytes).Holding t 0) ∨
        (bytes ≠ [] ∧ (t ++ bytes).take (k * 6) = times k PING ∧ (s.round bytes).pc = .linked ∧
          (s.round bytes).Holding (((t ++ bytes).drop (k * 6)).take BUFFER_SIZE) k) ∨
        (bytes ≠ [] ∧ (t ++ bytes).take (k * 6) ≠ times k PING ∧
          (s.round bytes).pc = .ended .badChunk)) := by
  obtain ⟨hgood, hbad⟩ := pingRound_eq h.tbuf h.tcapacity h.wbuf h.wcapacity
    (readBuffer_holds hbytes).1 hk
  unfold PingConn.round
  by_cases hempty : bytes = []
  · subst hempty
    exact ⟨rfl, rfl, .inl ⟨rfl, rfl, h.tbuf, h.tcapacity, h.wbuf, h.wcapacity⟩⟩
  · simp only [List.length_eq_zero_iff, if_neg hempty]
    by_cases hmessages : (t ++ bytes).take (k * 6) = times k PING
    · obtain ⟨tbuf', wbuf', rbuf', hround, ht, htcap, hw, hwcap⟩ := hgood hmessages
      rw [hround]
      exact ⟨rfl, rfl, .inr (.inl ⟨hempty, hmessages, rfl, ht, htcap, hw, hwcap⟩)⟩
    · obtain ⟨chunk, rbuf', hround⟩ := hbad hmessages
      rw [hround]
      exact ⟨rfl, rfl, .inr (.inr ⟨hempty, hmessages, rfl⟩)⟩

/-- Clearing `wbuf` makes the connection ready for a round. -/
theorem Holding.nextRound {k : ℕ} (h : s.Holding t k) (bytes : List UInt8) :
    ∃ s₀ : PingConn, s.nextRound bytes = s₀.round bytes ∧ s₀.Holding t 0 ∧
      s₀.received = s.received ∧ s₀.sent = s.sent := by
  obtain ⟨wbuf, hclear, hafter⟩ := clear_eq h.wbuf
  refine ⟨{ s with wbuf }, ?_, ⟨h.tbuf, h.tcapacity, hafter.holds,
    hafter.capacity.trans h.wcapacity⟩, rfl, rfl⟩
  unfold PingConn.nextRound
  rw [hclear]

theorem Holding.write {k : ℕ} (h : s.Holding t k) (bytes : List UInt8) :
    (s.write bytes).Holding t k :=
  ⟨h.tbuf, h.tcapacity, h.wbuf, h.wcapacity⟩

/-! ## What a step does -/

/-- What a write that is under way has still to write. -/
def pending (s : PingConn) : List UInt8 :=
  match s.pc with
  | .linked => bytesOf s.wbuf
  | .writing slice => slice
  | _ => []

/-- The connection is open, or the client has closed it. -/
def Intact (s : PingConn) : Prop := ∀ how, s.pc = .ended how → how = .eof

/-- An answer is being written, or has just been. -/
def Answering (s : PingConn) : Prop :=
  s.pc = .linked ∨ s.pc = .rereading ∨ ∃ slice, s.pc = .writing slice

/-- What an intact connection is like. -/
structure Works (s : PingConn) (t : List UInt8) (k n : ℕ) : Prop extends s.Holding t k where
  sent : s.sent ++ s.pending = times n PONG
  first : s.pc = .first → k = 0
  /-- A complete message is left only if there was no room for its answer. -/
  prompt : s.Answering → t.length < 6 ∨ k = 10922

/-- What every step keeps. -/
structure Invariant (s : PingConn) : Prop where
  safe : ∀ how, s.pc = .ended how → how = .eof ∨ how = .badChunk ∨ how = .failed
  works : s.Intact → ∃ t k n, s.Works t k n

theorem start_works : start.Works [] 0 0 where
  tbuf := withCapacity_holds _
  tcapacity := capacity_withCapacity _
  wbuf := withCapacity_holds _
  wcapacity := capacity_withCapacity _
  sent := rfl
  first := fun _ => rfl
  prompt := fun _ => .inl (by decide)

theorem start_invariant : start.Invariant where
  safe := nofun
  works := fun _ => ⟨[], 0, 0, start_works⟩

/-- A step that reads makes a round, with the messages answered so far, and with the old `tbuf`. -/
def ReadsTo (s : PingConn) (e : PingEvent) (s' : PingConn) : Prop :=
  ∃ (bytes : List UInt8) (s₀ : PingConn) (t : List UInt8) (k n : ℕ), e.bytes? = some bytes ∧
    bytes.length ≤ BUFFER_SIZE ∧ s.Intact ∧ s.Works t k n ∧ s' = s₀.round bytes ∧
      s₀.Holding t 0 ∧ s₀.received = s.received ∧ s₀.sent = times n PONG

/-- Another step leaves the buffers alone. -/
structure WritesTo (s : PingConn) (e : PingEvent) (s' : PingConn) : Prop where
  bytes : e.bytes? = none
  tbuf : s'.tbuf = s.tbuf
  wbuf : s'.wbuf = s.wbuf
  received : s'.received = s.received
  step : s'.pc = .ended .failed ∨
    s.Intact ∧ s'.Intact ∧ s'.sent ++ s'.pending = s.sent ++ s.pending ∧ s'.pc ≠ .first ∧
      (s'.Answering → s.Answering)

theorem intact_of_ne (h : ∀ how, s.pc ≠ .ended how) : s.Intact :=
  fun how hhow => absurd hhow (h how)

theorem Invariant.step_read (hs : s.Invariant) (hst : s.Step (.read bytes) s') :
    s.ReadsTo (.read bytes) s' := by
  unfold Step apply at hst
  by_cases hbytes : bytes.length ≤ BUFFER_SIZE
  · simp only [if_pos hbytes] at hst
    cases hpc : s.pc with
    | first =>
      simp only [hpc, Option.some.injEq] at hst
      have hintact : s.Intact := intact_of_ne (by simp [hpc])
      obtain ⟨t, k, n, hworks⟩ := hs.works hintact
      obtain rfl := hworks.first hpc
      refine ⟨bytes, s, t, 0, n, rfl, hbytes, hintact, hworks, hst.symm, hworks.toHolding, rfl, ?_⟩
      rw [← hworks.sent, pending, hpc]
      simp
    | rereading =>
      simp only [hpc, Option.some.injEq] at hst
      have hintact : s.Intact := intact_of_ne (by simp [hpc])
      obtain ⟨t, k, n, hworks⟩ := hs.works hintact
      obtain ⟨s₀, hround, hholding, hreceived, hsent⟩ := hworks.nextRound bytes
      refine ⟨bytes, s₀, t, k, n, rfl, hbytes, hintact, hworks, hst.symm.trans hround, hholding,
        hreceived, ?_⟩
      rw [hsent, ← hworks.sent, pending, hpc]
      simp
    | _ => simp [hpc] at hst
  · simp only [if_neg hbytes] at hst
    cases hst

theorem Invariant.step_linked (hs : s.Invariant) (hst : s.Step (.linked bytes) s') :
    s.ReadsTo (.linked bytes) s' := by
  unfold Step apply at hst
  by_cases hpc : s.pc = .linked ∧ bytes.length ≤ BUFFER_SIZE
  · simp only [if_pos hpc, Option.some.injEq] at hst
    obtain ⟨hpc, hbytes⟩ := hpc
    have hintact : s.Intact := intact_of_ne (by simp [hpc])
    obtain ⟨t, k, n, hworks⟩ := hs.works hintact
    obtain ⟨s₀, hround, hholding, hreceived, hsent⟩ :=
      (hworks.toHolding.write (bytesOf s.wbuf)).nextRound bytes
    refine ⟨bytes, s₀, t, k, n, rfl, hbytes, hintact, hworks, hst.symm.trans hround, hholding,
      hreceived, ?_⟩
    rw [hsent, ← hworks.sent, pending, hpc]
    rfl
  · simp only [if_neg hpc] at hst
    cases hst

theorem step_short {amount : ℕ} (hst : s.Step (.short amount) s') :
    s.WritesTo (.short amount) s' := by
  unfold Step apply at hst
  by_cases hpc : s.pc = .linked ∧ amount < s.wbuf.vec.len
  · simp only [if_pos hpc, Option.some.injEq] at hst
    subst hst
    refine ⟨rfl, rfl, rfl, rfl, .inr ⟨intact_of_ne (by simp [hpc.1]), intact_of_ne (by simp), ?_,
      by simp, fun _ => .inl hpc.1⟩⟩
    simp [pending, hpc.1, write]
  · simp only [if_neg hpc] at hst
    cases hst

/-- A write of `write_all` fails, is the last one, or is not. -/
theorem step_wrote {count : ℕ} (hst : s.Step (.wrote count) s') :
    s.WritesTo (.wrote count) s' := by
  unfold Step apply at hst
  cases hpc : s.pc with
  | writing slice =>
    have hintact : s.Intact := intact_of_ne (by simp [hpc])
    have hanswering : s.Answering := .inr (.inr ⟨slice, hpc⟩)
    have hpending : s.pending = slice := by rw [pending, hpc]
    have hsplit := List.take_append_drop count slice
    simp only [hpc] at hst
    split_ifs at hst with hcount hzero hdone
    · cases hst
      exact ⟨rfl, rfl, rfl, rfl, .inl rfl⟩
    · cases hst
      refine ⟨rfl, rfl, rfl, rfl, .inr ⟨hintact, intact_of_ne (by simp), ?_, by simp,
        fun _ => hanswering⟩⟩
      rw [hdone, List.append_nil] at hsplit
      rw [hpending]
      simp [pending, write, hsplit]
    · cases hst
      refine ⟨rfl, rfl, rfl, rfl, .inr ⟨hintact, intact_of_ne (by simp), ?_, by simp,
        fun _ => hanswering⟩⟩
      rw [hpending]
      simp [pending, write]
  | _ => simp [hpc] at hst

theorem step_provided (hst : s.Step .provided s') : s.WritesTo .provided s' := by
  unfold Step apply at hst
  by_cases hpc : s.pc = .closing
  · simp only [if_pos hpc, Option.some.injEq] at hst
    subst hst
    refine ⟨rfl, rfl, rfl, rfl, .inr ⟨intact_of_ne (by simp [hpc]), ?_, ?_, by simp, ?_⟩⟩
    · intro how hhow
      exact (PingPc.ended.inj hhow).symm
    · simp [pending, hpc]
    · rintro (h | h | ⟨slice, h⟩) <;> cases h
  · simp only [if_neg hpc] at hst
    cases hst

theorem step_readFailed (hst : s.Step .readFailed s') : s.WritesTo .readFailed s' := by
  unfold Step apply at hst
  by_cases hpc : s.pc = .linked
  · simp only [if_pos hpc, Option.some.injEq] at hst
    subst hst
    exact ⟨rfl, rfl, rfl, rfl, .inl rfl⟩
  · simp only [if_neg hpc] at hst
    cases hst

theorem step_failed (hst : s.Step .failed s') : s.WritesTo .failed s' := by
  unfold Step apply at hst
  cases hpc : s.pc with
  | ended how => simp [hpc] at hst
  | _ =>
    simp only [hpc, Option.some.injEq] at hst
    subst hst
    exact ⟨rfl, rfl, rfl, rfl, .inl rfl⟩

theorem Invariant.step_cases {e : PingEvent} (hs : s.Invariant) (hst : s.Step e s') :
    s.ReadsTo e s' ∨ s.WritesTo e s' := by
  cases e with
  | read bytes => exact .inl (hs.step_read hst)
  | linked bytes => exact .inl (hs.step_linked hst)
  | short amount => exact .inr (step_short hst)
  | readFailed => exact .inr (step_readFailed hst)
  | wrote count => exact .inr (step_wrote hst)
  | provided => exact .inr (step_provided hst)
  | failed => exact .inr (step_failed hst)

/-- What a round leaves. -/
theorem length_left {k : ℕ} (hk : k = answerable (t ++ bytes).length 0)
    (hbytes : bytes.length ≤ BUFFER_SIZE) :
    ((t ++ bytes).drop (k * 6)).length < 6 ∨
      k = 10922 ∧ ((t ++ bytes).drop (k * 6)).length ≤ t.length + 4 := by
  have hsize : BUFFER_SIZE = 65536 := rfl
  unfold answerable at hk
  rw [List.length_drop, List.length_append] at *
  omega

theorem Invariant.step {e : PingEvent} (hs : s.Invariant) (hst : s.Step e s') : s'.Invariant := by
  rcases hs.step_cases hst with
    ⟨bytes, s₀, t, k, n, hbytes?, hbytes, hintact, hworks, rfl, hholding, hreceived, hsent⟩ | h
  · obtain ⟨j, hj⟩ : ∃ j, j = answerable (t ++ bytes).length 0 := ⟨_, rfl⟩
    obtain ⟨-, hsent', hround⟩ := hholding.round hbytes hj
    rcases hround with ⟨-, hpc, hholding'⟩ | ⟨-, -, hpc, hholding'⟩ | ⟨-, -, hpc⟩
    · refine ⟨by simp [hpc], fun _ => ⟨t, 0, n, hholding', ?_, fun _ => rfl, ?_⟩⟩
      · rw [hsent', hsent, pending, hpc]
        simp
      · rintro (h | h | ⟨slice, h⟩) <;> simp [hpc] at h
    · refine ⟨by simp [hpc], fun _ => ⟨_, j, n + j, hholding', ?_, by simp [hpc], fun _ => ?_⟩⟩
      · rw [hsent', hsent, pending, hpc, times_add]
        simp only
        rw [bytesOf_eq hholding'.wbuf]
      · have := length_left hj hbytes
        rw [List.length_take]
        omega
    · refine ⟨?_, fun hintact' => ?_⟩
      · intro how hhow
        rw [hpc] at hhow
        exact .inr (.inl (PingPc.ended.inj hhow).symm)
      · cases hintact' _ hpc
  · rcases h.step with hpc | ⟨hintact, hintact', hsent, hfirst, hanswering⟩
    · refine ⟨?_, fun hintact' => ?_⟩
      · intro how hhow
        rw [hpc] at hhow
        exact .inr (.inr (PingPc.ended.inj hhow).symm)
      · cases hintact' _ hpc
    · obtain ⟨t, k, n, hworks⟩ := hs.works hintact
      refine ⟨fun how hhow => .inl (hintact' how hhow), fun _ => ⟨t, k, n, ⟨?_, ?_, ?_, ?_⟩, ?_,
        fun hpc => absurd hpc hfirst, fun ha => hworks.prompt (hanswering ha)⟩⟩
      · rw [h.tbuf]
        exact hworks.tbuf
      · rw [h.tbuf]
        exact hworks.tcapacity
      · rw [h.wbuf]
        exact hworks.wbuf
      · rw [h.wbuf]
        exact hworks.wcapacity
      · rw [hsent]
        exact hworks.sent

/-! ## What a client sees -/

/-- When the connection is intact, so many messages and what is in `tbuf` have been read, and there
has been, or is being written, an answer to each of the messages. -/
def Answers (s : PingConn) : Prop :=
  s.Intact → ∃ n, s.received = times n PING ++ bytesOf s.tbuf ∧ s.sent ++ s.pending = times n PONG

/-- The client has sent so much that one round leaves more than `tbuf` can hold. -/
def Overflows (s : PingConn) (bytes : List UInt8) : Prop :=
  let stream := bytesOf s.tbuf ++ bytes
  stream.take (10922 * 6) = times 10922 PING ∧ 10922 * 6 + BUFFER_SIZE < stream.length

/-- The event does not make `tbuf` overflow. -/
def Fits (s : PingConn) (e : PingEvent) : Prop :=
  ∀ bytes, e.bytes? = some bytes → ¬ s.Overflows bytes

theorem times_inj {m n : ℕ} {message : List UInt8} (hmessage : message ≠ [])
    (h : times m message = times n message) : m = n := by
  have hlength := congrArg List.length h
  rw [length_times, length_times] at hlength
  exact Nat.eq_of_mul_eq_mul_right (List.length_pos_iff.mpr hmessage) hlength

/-- A read that fits keeps the promise. -/
theorem answers_of_fits {e : PingEvent} (hs : s.Invariant) (ha : s.Answers) (hfits : s.Fits e)
    (hst : s.Step e s') : s'.Answers := by
  intro hintact'
  rcases hs.step_cases hst with
    ⟨bytes, s₀, t, k, n, hbytes?, hbytes, hintact, hworks, rfl, hholding, hreceived, hsent⟩ | h
  · have hsize : BUFFER_SIZE = 65536 := rfl
    obtain ⟨j, hj⟩ : ∃ j, j = answerable (t ++ bytes).length 0 := ⟨_, rfl⟩
    obtain ⟨hreceived', hsent', hround⟩ := hholding.round hbytes hj
    have ht := bytesOf_eq hworks.tbuf
    obtain ⟨m, hm, hm'⟩ := ha hintact
    obtain rfl : m = n := times_inj (by decide) (hm'.symm.trans hworks.sent)
    rcases hround with ⟨rfl, hpc, hholding'⟩ | ⟨hne, hmessages, hpc, hholding'⟩ | ⟨-, -, hpc⟩
    · refine ⟨m, ?_, ?_⟩
      · rw [hreceived', hreceived, hm, ht, bytesOf_eq hholding'.tbuf, List.append_nil]
      · rw [hsent', hsent, pending, hpc]
        simp
    · have hleft : ((t ++ bytes).drop (j * 6)).length ≤ BUFFER_SIZE := by
        rcases length_left hj hbytes with h | ⟨rfl, -⟩
        · omega
        · have := hfits bytes hbytes?
          unfold Overflows at this
          rw [ht] at this
          rw [List.length_drop]
          by_contra hgt
          exact this ⟨hmessages, by omega⟩
      refine ⟨m + j, ?_, ?_⟩
      · rw [hreceived', hreceived, hm, ht, bytesOf_eq hholding'.tbuf, List.take_of_length_le hleft,
          times_add, List.append_assoc, List.append_assoc, ← hmessages, List.take_append_drop]
      · rw [hsent', hsent, pending, hpc, times_add]
        simp only
        rw [bytesOf_eq hholding'.wbuf]
    · cases hintact' _ hpc
  · rcases h.step with hpc | ⟨hintact, -, hsent, -, -⟩
    · cases hintact' _ hpc
    · rw [h.received, h.tbuf, hsent]
      exact ha hintact

/-- A read that does not fit breaks it. -/
theorem not_answers_of_overflow {e : PingEvent} (hs : s.Invariant) (ha : s.Answers)
    (hfits : ¬ s.Fits e) (hst : s.Step e s') : ¬ s'.Answers := by
  have hsize : BUFFER_SIZE = 65536 := rfl
  obtain ⟨bytes, hbytes?, hoverflows⟩ : ∃ bytes, e.bytes? = some bytes ∧ s.Overflows bytes := by
    unfold Fits at hfits
    push Not at hfits
    exact hfits
  rcases hs.step_cases hst with
    ⟨bytes', s₀, t, k, n, hbytes?', hbytes, hintact, hworks, rfl, hholding, hreceived, hsent⟩ | h
  · rw [hbytes?, Option.some.injEq] at hbytes?'
    subst hbytes?'
    have ht := bytesOf_eq hworks.tbuf
    unfold Overflows at hoverflows
    rw [ht] at hoverflows
    obtain ⟨hmessages, hlength⟩ := hoverflows
    have hj : 10922 = answerable (t ++ bytes).length 0 := by
      unfold answerable
      omega
    obtain ⟨hreceived', hsent', hround⟩ := hholding.round hbytes hj
    obtain ⟨m, hm, hm'⟩ := ha hintact
    obtain rfl : m = n := times_inj (by decide) (hm'.symm.trans hworks.sent)
    rcases hround with ⟨rfl, -, -⟩ | ⟨-, -, hpc, hholding'⟩ | ⟨-, hne, -⟩
    · have := hworks.tbuf.length_le
      rw [hworks.tcapacity] at this
      rw [List.append_nil] at hlength
      omega
    · intro hanswers
      obtain ⟨m', hm₁, hm₂⟩ := hanswers (intact_of_ne (by simp [hpc]))
      have hcount : times m' PONG = times (m + 10922) PONG := by
        rw [← hm₂, hsent', hsent, pending, hpc, times_add]
        simp only
        rw [bytesOf_eq hholding'.wbuf]
      obtain rfl := times_inj (by decide) hcount
      rw [hreceived', hreceived, hm, ht, bytesOf_eq hholding'.tbuf] at hm₁
      have hlengths := congrArg List.length hm₁
      have hping : PING.length = 6 := rfl
      simp only [List.length_append, length_times, List.length_take, List.length_drop, hping]
        at hlengths hlength
      omega
    · exact absurd hmessages hne
  · rw [h.bytes] at hbytes?
    cases hbytes?

theorem start_answers : start.Answers := fun _ => ⟨0, rfl, rfl⟩

/-- **The client gets one answer for each message that is taken out, and the rest is in `tbuf`**, in
every state of a run in which the connection is intact, exactly if no round leaves more than
`tbuf` can hold. -/
theorem always_answers_iff {l : List (PingEvent × PingConn)} (hr : Run Step start l) :
    Always Answers start l ↔ EachStep (fun x => x.1.Fits x.2.1) start l :=
  hr.forall_states_iff (I := fun s => s.Invariant ∧ s.Answers) (P := Answers) (C := Fits)
    (fun _ _ _ hs hfits hst => ⟨hs.1.step hst, answers_of_fits hs.1 hs.2 hfits hst⟩)
    (fun _ hs => hs.2) (fun _ _ _ hs hfits hst => not_answers_of_overflow hs.1 hs.2 hfits hst)
    ⟨start_invariant, start_answers⟩

/-- A message comes in two parts, its answer is written in two parts, and the client closes the
connection. -/
def cutUp : List PingEvent :=
  [.read (PING.take 4), .linked (PING.drop 4), .short 2, .wrote 4, .read [], .provided]

/-- A round that has nothing but messages to answer. -/
theorem Holding.round_linked {k : ℕ} (h : s.Holding t 0) (hbytes : bytes.length ≤ BUFFER_SIZE)
    (hne : bytes ≠ []) (hk : k = answerable (t ++ bytes).length 0)
    (hmessages : (t ++ bytes).take (k * 6) = times k PING) :
    (s.round bytes).pc = .linked ∧ (s.round bytes).sent = s.sent ∧
      (s.round bytes).Holding (((t ++ bytes).drop (k * 6)).take BUFFER_SIZE) k := by
  obtain ⟨-, hsent, hround⟩ := h.round hbytes hk
  rcases hround with ⟨hempty, -⟩ | ⟨-, -, hpc, hholding⟩ | ⟨-, hbad, -⟩
  · exact absurd hempty hne
  · exact ⟨hpc, hsent, hholding⟩
  · exact absurd hmessages hbad

theorem Holding.step_linked {k j : ℕ} (h : s.Holding t k) (hpc : s.pc = .linked)
    (hbytes : bytes.length ≤ BUFFER_SIZE) (hne : bytes ≠ [])
    (hj : j = answerable (t ++ bytes).length 0)
    (hmessages : (t ++ bytes).take (j * 6) = times j PING) :
    ∃ s', s.Step (.linked bytes) s' ∧ s'.pc = .linked ∧ s'.sent = s.sent ++ times k PONG ∧
      s'.Holding (((t ++ bytes).drop (j * 6)).take BUFFER_SIZE) j := by
  obtain ⟨s₀, hnext, hholding, -, hsent₀⟩ := (h.write (bytesOf s.wbuf)).nextRound bytes
  obtain ⟨hpc', hsent, hholding'⟩ := hholding.round_linked hbytes hne hj hmessages
  refine ⟨s₀.round bytes, ?_, hpc', ?_, hholding'⟩
  · rw [← hnext]
    exact if_pos ⟨hpc, hbytes⟩
  · rw [hsent, hsent₀, ← bytesOf_eq h.wbuf]
    rfl

/-- The task takes all of these steps, and the answer is sent. -/
theorem exists_cutUp : ∃ l, Run Step start l ∧ l.map Prod.fst = cutUp ∧
    (final start l).sent = PONG := by
  -- there is no complete message after the first read, and one after the second
  obtain ⟨hpc₁, hsent₁, h₁⟩ := start_works.toHolding.round_linked
    (show (PING.take 4).length ≤ BUFFER_SIZE by decide) (by decide) (k := 0) (by decide) rfl
  have hst₁ : start.Step (.read (PING.take 4)) (start.round (PING.take 4)) := rfl
  obtain ⟨s₂, hst₂, hpc₂, hsent₂, h₂⟩ := h₁.step_linked hpc₁
    (show (PING.drop 4).length ≤ BUFFER_SIZE by decide) (by decide) (j := 1) (by decide) rfl
  have hwbuf : bytesOf s₂.wbuf = PONG := bytesOf_eq h₂.wbuf
  have hlen : 2 < s₂.wbuf.vec.len := by
    rw [h₂.wbuf.len_eq]
    decide
  have hst₃ : s₂.Step (.short 2)
      { s₂.write (PONG.take 2) with pc := .writing (PONG.drop 2) } := by
    rw [← hwbuf]
    exact if_pos ⟨hpc₂, hlen⟩
  have hst₄ : Step { s₂.write (PONG.take 2) with pc := .writing (PONG.drop 2) } (.wrote 4)
      { (s₂.write (PONG.take 2)).write (PONG.drop 2) with pc := .rereading } := rfl
  have h₄ : Holding { (s₂.write (PONG.take 2)).write (PONG.drop 2) with pc := .rereading } _ 1 :=
    ⟨h₂.tbuf, h₂.tcapacity, h₂.wbuf, h₂.wcapacity⟩
  obtain ⟨s₀, hnext, -, -, hsent₀⟩ := h₄.nextRound []
  have hst₅ : Step { (s₂.write (PONG.take 2)).write (PONG.drop 2) with pc := .rereading } (.read [])
      (s₀.round []) := by
    rw [← hnext]
    rfl
  have hst₆ : (s₀.round []).Step .provided { s₀.round [] with pc := .ended .eof } := rfl
  refine ⟨_, .cons hst₁ (.cons hst₂ (.cons hst₃ (.cons hst₄ (.cons hst₅ (.cons hst₆ (.nil _)))))),
    rfl, ?_⟩
  show s₀.sent = PONG
  rw [hsent₀]
  show s₂.sent ++ PONG.take 2 ++ PONG.drop 2 = PONG
  rw [hsent₂, hsent₁]
  rfl

theorem always_answers_iff_cutUp : ∃ l, l.map Prod.fst = cutUp ∧ (final start l).sent = PONG ∧
    (Always Answers start l ↔ EachStep (fun x => x.1.Fits x.2.1) start l) := by
  obtain ⟨l, hr, hevents, hsent⟩ := exists_cutUp
  exact ⟨l, hevents, hsent, always_answers_iff hr⟩

/-- **Whatever is sent, the task does not panic and no memory is read that is not initialised**, and
it leaves a complete message only if there was no room for its answer. -/
theorem always_safe {l : List (PingEvent × PingConn)} (hr : Run Step start l) :
    Always (fun s => (∀ how, s.pc = .ended how → how = .eof ∨ how = .badChunk ∨ how = .failed) ∧
      (s.Answering → (bytesOf s.tbuf).length < 6 ∨ (bytesOf s.wbuf).length = 10922 * 6))
      start l := by
  intro s hs
  have hinv : s.Invariant := hr.invariant (I := Invariant) (C := fun _ _ => True)
    (fun _ _ _ hs _ hst => hs.step hst) start_invariant (fun _ _ => trivial) s hs
  refine ⟨hinv.safe, fun hanswering => ?_⟩
  have hintact : s.Intact := by
    rcases hanswering with h | h | ⟨slice, h⟩ <;> exact intact_of_ne (by simp [h])
  obtain ⟨t, k, n, hworks⟩ := hinv.works hintact
  rw [bytesOf_eq hworks.tbuf, bytesOf_eq hworks.wbuf, length_times]
  refine (hworks.prompt hanswering).imp_right ?_
  rintro rfl
  rfl

theorem always_safe_cutUp : ∃ l, l.map Prod.fst = cutUp ∧ (final start l).sent = PONG ∧
    Always (fun s => (∀ how, s.pc = .ended how → how = .eof ∨ how = .badChunk ∨ how = .failed) ∧
      (s.Answering → (bytesOf s.tbuf).length < 6 ∨ (bytesOf s.wbuf).length = 10922 * 6))
      start l := by
  obtain ⟨l, hr, hevents, hsent⟩ := exists_cutUp
  exact ⟨l, hevents, hsent, always_safe hr⟩

/-! ## How long it takes until something is lost -/

/-- How often something has been read. -/
def reads (l : List (PingEvent × PingConn)) : ℕ := l.countP fun p => p.1.bytes?.isSome

/-- What is left grows by four bytes in a round at most. -/
theorem always_answers_from {l : List (PingEvent × PingConn)} (hs : s.Invariant) (ha : s.Answers)
    (hleft : s.Intact → max 1 (bytesOf s.tbuf).length + 4 * reads l ≤ BUFFER_SIZE)
    (hr : Run Step s l) : ∀ s' ∈ states s l, s'.Answers := by
  have hsize : BUFFER_SIZE = 65536 := rfl
  induction hr with
  | nil s =>
    intro s' hs'
    rw [states_nil, List.mem_singleton] at hs'
    exact hs' ▸ ha
  | @cons s u e l hst _ ih =>
    have hcases := hs.step_cases hst
    have hbudget : s.Fits e ∧
        (u.Intact → max 1 (bytesOf u.tbuf).length + 4 * reads l ≤ BUFFER_SIZE) := by
      rcases hcases with
        ⟨bytes, s₀, t, k, n, hbytes?, hbytes, hintact, hworks, rfl, hholding, -, -⟩ | h
      · have hreads : reads ((e, s₀.round bytes) :: l) = reads l + 1 := by
          simp [reads, hbytes?]
        have ht := bytesOf_eq hworks.tbuf
        have hleft := hleft hintact
        rw [hreads, ht] at hleft
        refine ⟨?_, fun hintact' => ?_⟩
        · intro bytes' hbytes?' hoverflows
          rw [hbytes?, Option.some.injEq] at hbytes?'
          subst hbytes?'
          have hlength := hoverflows.2
          rw [List.length_append, ht] at hlength
          omega
        · obtain ⟨j, hj⟩ : ∃ j, j = answerable (t ++ bytes).length 0 := ⟨_, rfl⟩
          obtain ⟨-, -, hround⟩ := hholding.round hbytes hj
          rcases hround with ⟨-, -, hholding'⟩ | ⟨-, -, -, hholding'⟩ | ⟨-, -, hpc⟩
          · rw [bytesOf_eq hholding'.tbuf]
            omega
          · have := length_left hj hbytes
            rw [bytesOf_eq hholding'.tbuf, List.length_take]
            omega
          · cases hintact' _ hpc
      · have hfits : s.Fits e := by
          intro bytes hbytes
          rw [h.bytes] at hbytes
          cases hbytes
        refine ⟨hfits, fun hintact' => ?_⟩
        have hreads : reads ((e, u) :: l) = reads l := by
          simp [reads, h.bytes]
        rcases h.step with hpc | ⟨hintact, -⟩
        · cases hintact' _ hpc
        · rw [h.tbuf, ← hreads]
          exact hleft hintact
    intro s' hs'
    rcases List.mem_cons.mp hs' with rfl | hs'
    · exact ha
    · exact ih (hs.step hst) (answers_of_fits hs ha hbudget.1 hst) hbudget.2 s' hs'

/-- **No round loses anything in the first 16383 reads**, whatever the client sends, as long as the
connection is intact. -/
theorem always_answers_of_reads {l : List (PingEvent × PingConn)} (hr : Run Step start l)
    (h : reads l ≤ 16383) : Always Answers start l := by
  refine always_answers_from start_invariant start_answers (fun _ => ?_) hr
  have hsize : BUFFER_SIZE = 65536 := rfl
  rw [bytesOf_eq (withCapacity_holds BUFFER_SIZE : start.tbuf.vec.Holds [])]
  simp only [List.length_nil]
  omega

theorem always_answers_of_reads_cutUp : ∃ l, l.map Prod.fst = cutUp ∧
    (final start l).sent = PONG ∧ Always Answers start l := by
  obtain ⟨l, hr, hevents, hsent⟩ := exists_cutUp
  have hreads : reads l = (cutUp.filterMap PingEvent.bytes?).length := by
    rw [← hevents, List.length_filterMap_eq_countP, List.countP_map]
    rfl
  exact ⟨l, hevents, hsent, always_answers_of_reads hr (by rw [hreads]; decide)⟩

end PingConn

end Hamerkop
