import Hamerkop.Servers.Buffers
import Hamerkop.Util.DisjointChunks

/-!
# A round of the ping server

What `conn_task_` of `hamerkop/examples/pingserver.rs` does between two `await`s, on the memory of
its buffers.  A round answers the complete messages in `tbuf` and in the buffer that has been
read, one after the other, as far as there is room for answers.  What is left moves to `tbuf`.

* `pingLoop_eq` — the loop over the messages;
* `pingRound_eq` — the round, in terms of the stream that the two buffers make up.
-/

namespace Hamerkop

open RawVec VecM

/-- `BUFFER_SIZE` -/
def BUFFER_SIZE : ℕ := 1 <<< 16

/-- `b"PING\r\n"` -/
def PING : List UInt8 := [80, 73, 78, 71, 13, 10]

/-- `b"PONG\r\n"` -/
def PONG : List UInt8 := [80, 79, 78, 71, 13, 10]

/-- What ends a round early. -/
inductive PingError where
  | badChunk (chunk : List (Option UInt8))
  | write (e : WriteError)
deriving DecidableEq, Repr

theorem length_flatten_next {n : ℕ} {iter iter' : DisjointChunksExact UInt8}
    {chunk : List (Option UInt8)} (h : iter.next n = (some chunk, iter')) :
    n ≤ iter.slices.flatten.length ∧ chunk = (iter.slices.flatten.take n).map some ∧
      iter'.slices.flatten = iter.slices.flatten.drop n := by
  have hnext := DisjointChunksExact.next_eq n iter
  rw [h] at hnext
  by_cases hn : n ≤ iter.slices.flatten.length
  · rw [if_pos hn] at hnext
    exact ⟨hn, Option.some.inj hnext.1, hnext.2⟩
  · rw [if_neg hn] at hnext
    cases hnext.1

/-- The loop over the messages, as it works on the memory of `wbuf`; the result is `count`. -/
def pingLoop (iter : DisjointChunksExact UInt8) (count : ℕ) :
    VecM UInt8 (Except PingError ℕ) := fun wbuf =>
  if wbuf.vec.available > 6 then
    match _h : iter.next 6 with
    | (none, _) => .ok (.ok count) wbuf
    | (some chunk, iter') =>
      if chunk ≠ PING.map some then
        .ok (.error (.badChunk chunk)) wbuf
      else
        match writeAll PONG wbuf with
        | .ok (.ok ()) wbuf => pingLoop iter' (count + chunk.length) wbuf
        | .ok (.error e) wbuf => .ok (.error (.write e)) wbuf
        | .panic wbuf => .panic wbuf
        | .undefined fault => .undefined fault
  else
    .ok (.ok count) wbuf
termination_by iter.slices.flatten.length
decreasing_by
  obtain ⟨hn, -, hrest⟩ := length_flatten_next _h
  rw [hrest, List.length_drop]
  omega

/-- A round, as it works on the memory of the buffer that has been read, up to the linked requests;
the results are `tbuf` and `wbuf`. -/
def pingRound (tbuf wbuf : Mem UInt8) : VecM UInt8 (Except PingError (Mem UInt8 × Mem UInt8)) := do
  let slice ← asSlice
  let (tslice, _) ← other (asSlice tbuf)
  let (result, wbuf) ← other (pingLoop (.new tslice slice) 0 wbuf)
  match result with
  | .error e => return .error e
  | .ok count =>
    let tbuf ← transferRemainder tbuf count
    return .ok (tbuf, wbuf)

/-! ## Messages -/

/-- A message so many times. -/
def times (n : ℕ) (message : List UInt8) : List UInt8 := (List.replicate n message).flatten

@[simp] theorem times_zero (message : List UInt8) : times 0 message = [] := rfl

theorem times_succ (n : ℕ) (message : List UInt8) :
    times (n + 1) message = message ++ times n message := by
  unfold times
  rw [List.replicate_succ, List.flatten_cons]

theorem times_add (m n : ℕ) (message : List UInt8) :
    times (m + n) message = times m message ++ times n message := by
  unfold times
  rw [List.replicate_add, List.flatten_append]

@[simp] theorem length_times (n : ℕ) (message : List UInt8) :
    (times n message).length = n * message.length := by
  simp [times]

/-- The number of messages that the loop answers, of a stream of this length and when there is this
much in `wbuf`. -/
def answerable (stream wbuf : ℕ) : ℕ := min (stream / 6) ((BUFFER_SIZE - wbuf - 1) / 6)

theorem pingLoop_some {iter iter' : DisjointChunksExact UInt8} {wbuf : Mem UInt8}
    {chunk : List (Option UInt8)} (count : ℕ) (hroom : wbuf.vec.available > 6)
    (hnext : iter.next 6 = (some chunk, iter')) :
    pingLoop iter count wbuf =
      if chunk ≠ PING.map some then
        .ok (.error (.badChunk chunk)) wbuf
      else
        match writeAll PONG wbuf with
        | .ok (.ok ()) wbuf => pingLoop iter' (count + chunk.length) wbuf
        | .ok (.error e) wbuf => .ok (.error (.write e)) wbuf
        | .panic wbuf => .panic wbuf
        | .undefined fault => .undefined fault := by
  rw [pingLoop, if_pos hroom]
  split
  · rename_i hnone
    rw [hnext] at hnone
    cases hnone
  · rename_i chunk' iter'' hsome
    rw [hnext, Prod.mk.injEq, Option.some.injEq] at hsome
    obtain ⟨rfl, rfl⟩ := hsome
    rfl

/-- The loop ends when there is no room for an answer, or no complete message. -/
theorem pingLoop_done {iter : DisjointChunksExact UInt8} {wbuf : Mem UInt8} (count : ℕ)
    (h : wbuf.vec.available > 6 → (iter.next 6).1 = none) :
    pingLoop iter count wbuf = .ok (.ok count) wbuf := by
  rw [pingLoop]
  by_cases hroom : wbuf.vec.available > 6
  · rw [if_pos hroom]
    split
    · rfl
    · rename_i chunk iter' hsome
      have hnone := h hroom
      rw [hsome] at hnone
      cases hnone
  · rw [if_neg hroom]

/-- The messages are answered as long as they are ones; the first that is none ends the loop. -/
theorem pingLoop_eq {iter : DisjointChunksExact UInt8} {wbuf : Mem UInt8} {w stream : List UInt8}
    {k : ℕ} (count : ℕ) (hw : wbuf.vec.Holds w) (hcap : wbuf.vec.capacity = BUFFER_SIZE)
    (hstream : stream = iter.slices.flatten) (hk : k = answerable stream.length w.length) :
    (stream.take (k * 6) = times k PING →
      ∃ wbuf', pingLoop iter count wbuf = .ok (.ok (count + k * 6)) wbuf' ∧
        After wbuf wbuf' (w ++ times k PONG) []) ∧
    (stream.take (k * 6) ≠ times k PING →
      ∃ chunk wbuf', pingLoop iter count wbuf = .ok (.error (.badChunk chunk)) wbuf') := by
  have hsize : BUFFER_SIZE = 65536 := rfl
  have hpingLength : PING.length = 6 := rfl
  have hpongLength : PONG.length = 6 := rfl
  induction hlen : stream.length using Nat.strong_induction_on
    generalizing iter wbuf w count stream k with
  | _ n ih =>
    have hwle := hw.length_le
    have havail := hw.available_eq
    unfold answerable at hk
    have hnext := DisjointChunksExact.next_eq 6 iter
    rw [← hstream] at hnext
    have hdone : k = 0 → (wbuf.vec.available > 6 → (iter.next 6).1 = none) →
        (stream.take (k * 6) = times k PING →
          ∃ wbuf', pingLoop iter count wbuf = .ok (.ok (count + k * 6)) wbuf' ∧
            After wbuf wbuf' (w ++ times k PONG) []) ∧
        (stream.take (k * 6) ≠ times k PING →
          ∃ chunk wbuf', pingLoop iter count wbuf = .ok (.error (.badChunk chunk)) wbuf') := by
      intro hzero hnone
      subst hzero
      refine ⟨fun _ => ⟨wbuf, by rw [pingLoop_done count hnone, Nat.zero_mul, Nat.add_zero], ?_⟩,
        fun hne => absurd (by simp) hne⟩
      rw [times_zero, List.append_nil]
      exact After.refl hw
    by_cases hroom : wbuf.vec.available > 6
    · by_cases hshort : stream.length < 6
      · rw [if_neg (by omega)] at hnext
        exact hdone (by omega) fun _ => hnext.1
      · rw [if_pos (by omega)] at hnext
        obtain ⟨iter', hiter⟩ : ∃ iter', iter.next 6 = (some ((stream.take 6).map some), iter') :=
          ⟨_, Prod.ext hnext.1 rfl⟩
        have hrest := hnext.2
        rw [hiter] at hrest
        rw [pingLoop_some count hroom hiter]
        obtain ⟨j, rfl⟩ : ∃ j, k = j + 1 := ⟨k - 1, by omega⟩
        have htake : stream.take ((j + 1) * 6) = stream.take 6 ++ (stream.drop 6).take (j * 6) := by
          rw [← List.take_add]
          congr 1
          omega
        have hping : (stream.take 6).map some = PING.map some ↔ stream.take 6 = PING :=
          (List.map_injective_iff.mpr (Option.some_injective _)).eq_iff
        by_cases hmessage : stream.take 6 = PING
        · rw [if_neg (not_not.mpr (hping.mpr hmessage)), htake, hmessage, times_succ, times_succ,
            ← List.append_assoc]
          simp only [ne_eq, List.append_right_inj]
          obtain ⟨wbuf₁, hwrite, hafter⟩ := writeAll_eq PONG hw
          have hfits : PONG.length ≤ wbuf.vec.capacity - w.length := by omega
          rw [if_pos hfits] at hwrite
          rw [List.take_of_length_le hfits] at hafter
          obtain ⟨hall, hbad⟩ := ih (stream.drop 6).length (by rw [List.length_drop]; omega)
            (count + (PING.map some).length) hafter.holds (hafter.capacity.trans hcap)
            hrest.symm (k := j) (by
              unfold answerable
              rw [List.length_drop, List.length_append]
              omega) rfl
          rw [hwrite]
          constructor
          · intro heq
            obtain ⟨wbuf', hloop, hafter'⟩ := hall heq
            have hcount : count + (PING.map some).length + j * 6 = count + (j + 1) * 6 := by
              rw [List.length_map]
              omega
            rw [hcount] at hloop
            exact ⟨wbuf', hloop, hafter.trans hafter'⟩
          · exact hbad
        · rw [if_pos (hping.not.mpr hmessage)]
          refine ⟨fun heq => absurd ?_ hmessage, fun _ => ⟨_, wbuf, rfl⟩⟩
          rw [htake, times_succ] at heq
          refine List.append_inj_left heq ?_
          rw [List.length_take]
          omega
    · exact hdone (by omega) fun h => absurd h hroom

variable {tbuf wbuf rbuf : Mem UInt8} {t r : List UInt8}

/-- A round of which this much is answered. -/
theorem pingRound_eq {k : ℕ} (ht : tbuf.vec.Holds t) (htcap : tbuf.vec.capacity = BUFFER_SIZE)
    (hw : wbuf.vec.Holds []) (hwcap : wbuf.vec.capacity = BUFFER_SIZE) (hr : rbuf.vec.Holds r)
    (hk : k = answerable (t ++ r).length 0) :
    ((t ++ r).take (k * 6) = times k PING →
      ∃ tbuf' wbuf' rbuf', pingRound tbuf wbuf rbuf = .ok (.ok (tbuf', wbuf')) rbuf' ∧
        tbuf'.vec.Holds (((t ++ r).drop (k * 6)).take BUFFER_SIZE) ∧
        tbuf'.vec.capacity = BUFFER_SIZE ∧ wbuf'.vec.Holds (times k PONG) ∧
        wbuf'.vec.capacity = BUFFER_SIZE) ∧
    ((t ++ r).take (k * 6) ≠ times k PING →
      ∃ chunk rbuf', pingRound tbuf wbuf rbuf = .ok (.error (.badChunk chunk)) rbuf') := by
  have hslices : t ++ r = (DisjointChunksExact.new t r).slices.flatten := by
    simp [DisjointChunksExact.new]
  obtain ⟨hgood, hbad⟩ := pingLoop_eq 0 hw hwcap hslices hk
  constructor
  · intro hmessages
    obtain ⟨wbuf', hloop, hafter⟩ := hgood hmessages
    have hcount : k * 6 ≤ t.length + r.length := by
      rw [← List.length_append]
      unfold answerable at hk
      omega
    have htransfer := transferRemainder_eq ht hr (k * 6)
    rw [if_pos hcount] at htransfer
    obtain ⟨tbuf', rbuf', htransfer, htbuf, -⟩ := htransfer
    rw [htcap] at htbuf
    refine ⟨tbuf', wbuf', rbuf', ?_, htbuf.holds, htbuf.capacity.trans htcap, hafter.holds,
      hafter.capacity.trans hwcap⟩
    unfold pingRound
    rw [bind_ok (asSlice_eq hr), asSlice_eq ht, other_bind]
    simp only
    rw [hloop, Nat.zero_add, other_bind]
    exact bind_ok htransfer
  · intro hmessages
    obtain ⟨chunk, wbuf', hloop⟩ := hbad hmessages
    refine ⟨chunk, rbuf, ?_⟩
    unfold pingRound
    rw [bind_ok (asSlice_eq hr), asSlice_eq ht, other_bind]
    simp only
    rw [hloop, other_bind]
    rfl

end Hamerkop
