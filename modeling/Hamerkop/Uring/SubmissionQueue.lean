import Hamerkop.Uring.RingBuf
import Hamerkop.Uring.Sqe

/-!
# `SubmissionQueue`

The submission side of `uring/src/sqe.rs`.  The queue shares its counters with
the kernel: `khead` is moved by the kernel when it consumes entries, `ktail` by
`advance`, and `sqe_tail` remembers the tail of the last successful submit.
Counters are `u32` and wrap.

`submit_and_wait` is given what `io_uring_enter` returned, and `enterCall` says
whether it is called at all and with which arguments.
-/

namespace Hamerkop

/-- `detail::io_uring_sq`, less what only the set-up uses. -/
structure IoUringSq where
  khead : UInt32
  ktail : UInt32
  kringMask : UInt32
  kringEntries : UInt32
  kflags : UInt32
  sqes : ℕ → Sqe
  sqeTail : UInt32

namespace SetupFlags

/-- A thread of the kernel polls the submission queue. -/
def SQPOLL : UInt32 := 2

end SetupFlags

namespace EnterFlags

/-- The call waits for events. -/
def GETEVENTS : UInt32 := 1
/-- The call wakes the polling thread. -/
def SQ_WAKEUP : UInt32 := 2

end EnterFlags

/-- The polling thread sleeps. -/
def IORING_SQ_NEED_WAKEUP : UInt32 := 1

/-- The submission queue of a ring. -/
structure SubmissionQueue where
  sq : IoUringSq
  flags : UInt32

/-- The arguments of an `io_uring_enter` call. -/
structure EnterArgs where
  toSubmit : UInt32
  minComplete : UInt32
  flags : UInt32
deriving DecidableEq, Repr

/-- `wrapping_dist(a, b, mask)` -/
def wrappingDist (a b mask : UInt32) : UInt32 :=
  let size := mask + 1
  let a := a &&& mask
  let b := b &&& mask
  if a = b then size else (a - b) &&& mask

namespace SubmissionQueue

/-- The flags of `io_uring_enter`; `none` if it need not be called. -/
def enterFlags (q : SubmissionQueue) (submitted : UInt32) : Option UInt32 :=
  if q.flags &&& SetupFlags.SQPOLL = 0 then
    if submitted > 0 then some 0 else none
  else if q.sq.kflags &&& IORING_SQ_NEED_WAKEUP = 0 then
    none
  else
    some EnterFlags.SQ_WAKEUP

/-- `free_sqes()` -/
def freeSqes (q : SubmissionQueue) : ℕ := (wrappingDist q.sq.khead q.sq.ktail q.sq.kringMask).toNat

/-- `queue_size()` -/
def queueSize (q : SubmissionQueue) : ℕ := q.sq.kringEntries.toNat

/-- The free entries; `none` is a failed assertion of `RingBufMut::new`. -/
def sqes (q : SubmissionQueue) : Option (RingBuf Sqe) :=
  RingBuf.new q.sq.sqes q.sq.ktail.toNat
    (wrappingDist q.sq.khead q.sq.ktail q.sq.kringMask).toNat q.sq.kringMask.toNat

/-- `advance(count)`: the entries are published. -/
def advance (q : SubmissionQueue) (count : UInt32) : SubmissionQueue :=
  { q with sq := { q.sq with ktail := q.sq.ktail + count } }

/-- The number of entries `submit_and_wait` is about to submit. -/
def submitted (q : SubmissionQueue) : UInt32 := q.sq.ktail - q.sq.sqeTail

/-- The `io_uring_enter` call that `submit_and_wait` makes, if it makes one. -/
def enterCall (q : SubmissionQueue) (waitFor : UInt32) : Option EnterArgs :=
  let (flags, shouldEnter) :=
    if waitFor = 0 then ((0 : UInt32), false) else (EnterFlags.GETEVENTS, true)
  let (flags, shouldEnter) := match q.enterFlags q.submitted with
    | some newflags => (flags ||| newflags, true)
    | none => (flags, shouldEnter)
  if shouldEnter then some { toSubmit := q.submitted, minComplete := waitFor, flags } else none

/-- `self.sq.sqe_tail = tail`. -/
def settle (q : SubmissionQueue) : SubmissionQueue :=
  { q with sq := { q.sq with sqeTail := q.sq.ktail } }

/-- `submit_and_wait`, where `ret` is what `io_uring_enter` returns if it is called. -/
def submitAndWait (q : SubmissionQueue) (waitFor : UInt32) (ret : Except Errno UInt32) :
    Except IoError ℕ × SubmissionQueue :=
  match q.enterCall waitFor, ret with
  | some _, .error errno => (.error (.os errno), q)
  | _, _ => (.ok q.submitted.toNat, q.settle)

/-- The write through a reference that `sqes().get_mut(i)` returned. -/
def writeSqe (q : SubmissionQueue) (slot : ℕ) (sqe : Sqe) : SubmissionQueue :=
  { q with sq := { q.sq with sqes := Function.update q.sq.sqes slot sqe } }

/-! ## The kernel's side -/

/-- The number of published entries the kernel has not consumed, modulo `2 ^ 32`. -/
def unconsumed (q : SubmissionQueue) : ℕ := (q.sq.ktail - q.sq.khead).toNat

/-- The kernel consumes the `count` oldest published entries. -/
def consume (q : SubmissionQueue) (count : UInt32) : SubmissionQueue :=
  { q with sq := { q.sq with khead := q.sq.khead + count } }

/-! ## When `io_uring_enter` is called -/

theorem toSubmit_of_enterCall {q : SubmissionQueue} {waitFor : UInt32} {args : EnterArgs}
    (h : q.enterCall waitFor = some args) : args.toSubmit = q.submitted := by
  simp only [enterCall, Option.ite_none_right_eq_some, Option.some.injEq] at h
  rw [← h.2]

/-- Without a polling thread, no call is made only when there is nothing to submit and nothing
to wait for. -/
theorem enterCall_eq_none {q : SubmissionQueue} {waitFor : UInt32}
    (hpoll : q.flags &&& SetupFlags.SQPOLL = 0) :
    q.enterCall waitFor = none ↔ waitFor = 0 ∧ q.submitted = 0 := by
  by_cases hw : waitFor = 0 <;> by_cases hs : q.submitted = 0
  · simp [enterCall, enterFlags, hpoll, hw, hs]
  · simp [enterCall, enterFlags, hpoll, hw, hs, UInt32.pos_iff_ne_zero]
  · simp [enterCall, enterFlags, hpoll, hw, hs]
  · simp [enterCall, enterFlags, hpoll, hw, hs, UInt32.pos_iff_ne_zero]

/-- A call is always made to wait. -/
theorem enterCall_of_ne_zero (q : SubmissionQueue) {waitFor : UInt32} (hw : waitFor ≠ 0) :
    ∃ args, q.enterCall waitFor = some args := by
  simp only [enterCall, hw, if_false]
  cases q.enterFlags q.submitted <;> exact ⟨_, rfl⟩

theorem submitAndWait_of_not_called {q : SubmissionQueue} {waitFor : UInt32}
    (h : q.enterCall waitFor = none) (ret : Except Errno UInt32) :
    q.submitAndWait waitFor ret = (.ok q.submitted.toNat, q.settle) := by
  simp only [submitAndWait, h]

theorem submitAndWait_error {q : SubmissionQueue} {waitFor : UInt32} {args : EnterArgs}
    (h : q.enterCall waitFor = some args) (errno : Errno) :
    q.submitAndWait waitFor (.error errno) = (.error (.os errno), q) := by
  simp only [submitAndWait, h]

theorem submitAndWait_ok (q : SubmissionQueue) (waitFor : UInt32) (count : UInt32) :
    q.submitAndWait waitFor (.ok count) = (.ok q.submitted.toNat, q.settle) := by
  unfold submitAndWait
  split
  · contradiction
  · rfl

/-! ## Rings of `2 ^ k` entries -/

/-- The queue is a ring of `2 ^ k` entries whose mask is its size less one. -/
structure Sized (q : SubmissionQueue) (k : ℕ) : Prop where
  lt : k < 32
  mask : q.sq.kringMask.toNat = 2 ^ k - 1
  entries : q.sq.kringEntries.toNat = 2 ^ k

variable {q : SubmissionQueue} {k : ℕ}

theorem Sized.advance (h : q.Sized k) (count : UInt32) : (q.advance count).Sized k :=
  ⟨h.lt, h.mask, h.entries⟩

theorem Sized.writeSqe (h : q.Sized k) (slot : ℕ) (sqe : Sqe) : (q.writeSqe slot sqe).Sized k :=
  ⟨h.lt, h.mask, h.entries⟩

theorem Sized.consume (h : q.Sized k) (count : UInt32) : (q.consume count).Sized k :=
  ⟨h.lt, h.mask, h.entries⟩

theorem Sized.two_pow_lt (h : q.Sized k) : 2 ^ k < 2 ^ 32 := Nat.pow_lt_pow_right (by omega) h.lt

theorem toNat_and_mask {mask : UInt32} (hm : mask.toNat = 2 ^ k - 1) (a : UInt32) :
    (a &&& mask).toNat = a.toNat % 2 ^ k := by
  rw [UInt32.toNat_and, Ring.and_mask_eq_mod hm]

/-- `wrapping_dist` sees the counters modulo the ring size only: it answers as if less than one
lap lay between them. -/
theorem wrappingDist_toNat (hk : k < 32) {mask : UInt32} (hm : mask.toNat = 2 ^ k - 1)
    (head tail : UInt32) :
    (wrappingDist head tail mask).toNat = 2 ^ k - (tail - head).toNat % 2 ^ k := by
  have hpos : 0 < 2 ^ k := by positivity
  have hlt : 2 ^ k < 2 ^ 32 := Nat.pow_lt_pow_right (by omega) hk
  have hdvd : 2 ^ k ∣ 2 ^ 32 := Ring.two_pow_dvd hk.le
  have hhead := Nat.mod_lt head.toNat hpos
  have htail := Nat.mod_lt tail.toNat hpos
  have hsize : (mask + 1).toNat = 2 ^ k := by
    rw [UInt32.toNat_add, hm, UInt32.toNat_one, Nat.sub_add_cancel hpos, Nat.mod_eq_of_lt hlt]
  rw [wrappingDist, UInt32.toNat_sub tail, Nat.mod_mod_of_dvd _ hdvd,
    Ring.dist_mod hdvd head.toNat_lt]
  split_ifs with heq
  · have hslot : head.toNat % 2 ^ k = tail.toNat % 2 ^ k := by
      rw [← toNat_and_mask hm, ← toNat_and_mask hm, heq]
    rw [hsize, hslot, Nat.sub_add_cancel htail.le, Nat.mod_self, Nat.sub_zero]
  · have hslot : head.toNat % 2 ^ k ≠ tail.toNat % 2 ^ k := fun h => heq <| by
      rw [← UInt32.toNat_inj, toNat_and_mask hm, toNat_and_mask hm, h]
    rw [toNat_and_mask hm, UInt32.toNat_sub, toNat_and_mask hm, toNat_and_mask hm,
      Nat.mod_mod_of_dvd _ hdvd, Ring.dist_mod hdvd (by omega), Nat.mod_mod, Nat.mod_mod,
      Ring.dist_comm hhead htail hslot]

theorem Sized.freeSqes (h : q.Sized k) : q.freeSqes = 2 ^ k - q.unconsumed % 2 ^ k :=
  wrappingDist_toNat h.lt h.mask ..

/-- The window that `sqes` hands out. -/
theorem Sized.sqes (h : q.Sized k) : q.sqes = some
    { data := q.sq.sqes, offset := q.sq.ktail.toNat, size := q.freeSqes
      mask := q.sq.kringMask.toNat } :=
  RingBuf.new_eq_some _ _ h.mask (by rw [wrappingDist_toNat h.lt h.mask]; omega)

/-- `sqes().get_mut(i)` is the slot of position `tail + i`, if `i` is less than `free_sqes`. -/
theorem Sized.getMut (h : q.Sized k) (i : ℕ) :
    (q.sqes.bind fun ring => ring.getMut i) =
      if q.freeSqes ≤ i then none else some ((q.sq.ktail.toNat + i) % 2 ^ k) := by
  rw [h.sqes, Option.bind_some]
  simp only [RingBuf.getMut, RingBuf.len, RingBuf.slotOf, Ring.and_mask_eq_mod h.mask, ge_iff_le]

end SubmissionQueue

end Hamerkop
