import Hamerkop.Uring.Prepare

/-!
# What an entry shows of its operation

Whether an operation can be read back from the entry it is prepared in.
`decode` reads one operation of each type, and `Op.decode_prepare` says that it
finds what was prepared, but for the options that no entry has a place for in
the code: the `rw_flags` of the vectored and the fixed reads and writes and the
`ioprio` of `SendMsg` and `RecvMsg`.  Of the slot nothing is left, except that
`PollAdd` does not initialise all of its flags.

`Op.keepsOptions_iff`: these are the only operations that lose an option or leak
something from the slot.
-/

namespace Hamerkop

/-! ## Reading an entry -/

/-- The target with this number, in an entry with these flags. -/
def Target.ofRaw (flags : UInt8) (raw : Int32) : Target :=
  if flags &&& SubmissionFlags.FIXED_FILE = 0 then .Fd raw else .Fixed raw.toUInt32

/-- The input of a splice with this number, in an entry with these flags. -/
def Target.ofSplice (flags : UInt32) (raw : Int32) : Target :=
  if flags &&& SPLICE_F_FD_IN_FIXED = 0 then .Fd raw else .Fixed raw.toUInt32

/-- What the entry is about. -/
@[simp] def Sqe.target (sqe : Sqe) : Target := .ofRaw sqe.flags sqe.fd

/-- The `off_t` or `loff_t` in the union `off_addr2`. -/
@[simp] def Sqe.off (sqe : Sqe) : Int64 := sqe.offAddr2.toInt64

/-- The input of the splice. -/
@[simp] def Sqe.spliceTarget (sqe : Sqe) : Target := .ofSplice sqe.opFlags sqe.spliceFdIn

/-- The flags of a splice without the one that the input decides. -/
def spliceFlags (flags : UInt32) : UInt32 := flags &&& ~~~SPLICE_F_FD_IN_FIXED

/-- The input of a splice with these flags. -/
def Target.withFlags (fdIn : Target) (flags : UInt32) : Target :=
  if flags &&& SPLICE_F_FD_IN_FIXED = 0 then fdIn else .Fixed fdIn.intoRaw.toUInt32

/-- The length that is nearest among those of a `u32`. -/
def nearestLen (len : Int64) : Int64 := .ofInt (max 0 (min len.toInt 4294967295))

namespace Op

/-- The operation up to the length that is saturated and the flag that a splice sets by itself. -/
def effective : Op → Op
  | .fadvise op => .fadvise { op with len := nearestLen op.len }
  | .madvise op => .madvise { op with len := nearestLen op.len }
  | .splice op =>
    .splice { op with fdIn := op.fdIn.withFlags op.flags, flags := spliceFlags op.flags }
  | .tee op => .tee { op with fdIn := op.fdIn.withFlags op.flags, flags := spliceFlags op.flags }
  | op => op

/-- The operation without the options that are not put into an entry. -/
def written : Op → Op
  | .readVectored op => .readVectored { op with rwFlags := 0 }
  | .writeVectored op => .writeVectored { op with rwFlags := 0 }
  | .readFixed op => .readFixed { op with rwFlags := 0 }
  | .writeFixed op => .writeFixed { op with rwFlags := 0 }
  | .sendMsg op => .sendMsg { op with ioprio := 0 }
  | .recvMsg op => .recvMsg { op with ioprio := 0 }
  | op => op

/-- The operation that an entry was filled for. -/
def decode (sqe : Sqe) : Option Op :=
  match sqe.opcode.toNat with
  | 0 => some (.nop {})
  | 1 => some (.readVectored
      { fd := sqe.target, iovec := sqe.addrSplice, len := sqe.len, ioprio := sqe.ioprio
        offset := sqe.off })
  | 2 => some (.writeVectored
      { fd := sqe.target, iovec := sqe.addrSplice, len := sqe.len, ioprio := sqe.ioprio
        offset := sqe.off })
  | 4 => some (.readFixed
      { fd := sqe.target, buf := sqe.addrSplice, len := sqe.len, bufIndex := sqe.bufInfo
        offset := sqe.off, ioprio := sqe.ioprio })
  | 5 => some (.writeFixed
      { fd := sqe.target, buf := sqe.addrSplice, len := sqe.len, bufIndex := sqe.bufInfo
        offset := sqe.off, ioprio := sqe.ioprio })
  | 6 => some (.pollAdd { fd := sqe.target, pollEvents := sqe.opFlags.toUInt16 })
  | 7 => some (.pollRemove { userData := sqe.addrSplice })
  | 8 => some (.syncFileRange
      { fd := sqe.target, len := sqe.len, offset := sqe.off, flags := sqe.opFlags })
  | 9 => some (.sendMsg { fd := sqe.target, msg := sqe.addrSplice, flags := sqe.opFlags })
  | 10 => some (.recvMsg { fd := sqe.target, msg := sqe.addrSplice, flags := sqe.opFlags })
  | 11 => some (.timeout
      { timespec := sqe.addrSplice, count := sqe.offAddr2.toUInt32, flags := sqe.opFlags })
  | 12 => some (.timeoutRemove { userData := sqe.addrSplice, flags := sqe.opFlags })
  | 13 => some (.accept
      { fd := sqe.target, addr := sqe.addrSplice, addrlen := sqe.offAddr2, flags := sqe.opFlags })
  | 14 => some (.asyncCancel { userData := sqe.addrSplice, flags := sqe.opFlags })
  | 15 => some (.linkTimeout { timespec := sqe.addrSplice, flags := sqe.opFlags })
  | 16 => some (.connect { fd := sqe.target, addr := sqe.addrSplice, addrlen := sqe.offAddr2 })
  | 17 => some (.fallocate
      { fd := sqe.target, len := sqe.addrSplice.toUInt32, offset := sqe.off
        mode := sqe.len.toInt32 })
  | 18 => some (.openAt
      { dirfd := sqe.fd, pathname := sqe.addrSplice, flags := sqe.opFlags.toInt32
        mode := sqe.len })
  | 19 => some (.close { fd := sqe.fd })
  | 20 => some (.filesUpdate
      { fds := sqe.addrSplice, len := sqe.len, offset := sqe.offAddr2.toUInt32 })
  | 21 => some (.statx
      { dirfd := sqe.fd, pathname := sqe.addrSplice, statxbuf := sqe.offAddr2
        flags := sqe.opFlags.toInt32, mask := sqe.len })
  | 22 => some (.read
      { fd := sqe.target, buf := sqe.addrSplice, len := sqe.len, offset := sqe.off
        ioprio := sqe.ioprio, rwFlags := sqe.opFlags.toInt32 })
  | 23 => some (.write
      { fd := sqe.target, buf := sqe.addrSplice, len := sqe.len, offset := sqe.off
        ioprio := sqe.ioprio, rwFlags := sqe.opFlags.toInt32 })
  | 24 => some (.fadvise
      { fd := sqe.target, len := sqe.len.toUInt64.toInt64, advice := sqe.opFlags.toInt32
        offset := sqe.off })
  | 25 => some (.madvise
      { addr := sqe.addrSplice, len := sqe.len.toUInt64.toInt64, advice := sqe.opFlags.toInt32 })
  | 26 => some (.send
      { fd := sqe.target, buf := sqe.addrSplice, len := sqe.len, flags := sqe.opFlags.toInt32 })
  | 27 => some (.recv
      { fd := sqe.target, buf := sqe.addrSplice, len := sqe.len, flags := sqe.opFlags.toInt32 })
  | 28 => some (.openAt2
      { dirfd := sqe.fd, pathname := sqe.addrSplice, how := sqe.offAddr2, len := sqe.len })
  | 29 => some (.epollCtl
      { epfd := sqe.target, fd := sqe.offAddr2.toInt64.toInt32, op := sqe.len.toInt32
        ev := sqe.addrSplice })
  | 30 => some (.splice
      { fdIn := sqe.spliceTarget, offIn := sqe.addrSplice.toInt64, fdOut := sqe.target
        offOut := sqe.off, len := sqe.len, flags := spliceFlags sqe.opFlags })
  | 31 => some (.provideBuffers
      { addr := sqe.addrSplice, len := sqe.len, nbufs := sqe.fd.toUInt32.toUInt16
        bufGroup := sqe.bufInfo, bufId := sqe.offAddr2.toUInt16 })
  | 32 => some (.removeBuffers
      { nbufs := sqe.fd.toUInt32.toUInt16, bufGroup := sqe.bufInfo })
  | 33 => some (.tee
      { fdIn := sqe.spliceTarget, fdOut := sqe.target, len := sqe.len
        flags := spliceFlags sqe.opFlags })
  | _ => none

end Op

/-! ## The parts of an entry -/

/-- The number of buffers, in the field of the file descriptor. -/
@[simp] theorem toUInt16_ofNat_toNat (n : UInt16) :
    (Int32.ofNat n.toNat).toUInt32.toUInt16 = n := by
  have hn := n.toNat_lt
  apply UInt16.toNat_inj.1
  simp

/-- The flags of a `PollAdd` are the lower half of what an entry has for them. -/
@[simp] theorem toUInt16_shift (n : UInt16) : (n.toUInt32 <<< 16).toUInt16 = 0 := by
  apply UInt16.toBitVec_inj.1
  ext i hi
  simp

/-- The upper half is not its own. -/
theorem toUInt16_upper (a b : UInt16) :
    ((a.toUInt32 <<< 16 ||| b.toUInt32) >>> 16).toUInt16 = a := by
  apply UInt16.toBitVec_inj.1
  ext i hi
  have hlt : i < 32 := by omega
  have hadd : 16 + i < 32 := by omega
  simp [hlt, hadd, BitVec.getLsbD_eq_getElem hi]

@[simp] theorem saturatingLen_eq (len : Int64) :
    (saturatingLen len).toUInt64.toInt64 = nearestLen len := by
  unfold saturatingLen nearestLen
  have hmin : IntType.u32.min = 0 := rfl
  have hmax : IntType.u32.max = 4294967295 := rfl
  have hval : (offValue len).1 = len.toInt := rfl
  rw [IntType.saturatingCast_val, hmin, hmax, hval]
  obtain ⟨n, hn⟩ := Int.eq_ofNat_of_zero_le (le_max_left 0 (min len.toInt 4294967295))
  have hwide : (UInt32.ofNat n).toUInt64 = UInt64.ofNat n := by
    apply UInt64.toNat_inj.1
    rw [UInt32.toNat_toUInt64, UInt32.toNat_ofNat', UInt64.toNat_ofNat']
    omega
  rw [hn, Int.toNat_natCast, hwide]
  rfl

/-- A length that fits is not changed. -/
theorem nearestLen_of_fits {len : Int64} (h : 0 ≤ len.toInt) (h' : len.toInt ≤ 4294967295) :
    nearestLen len = len := by
  unfold nearestLen
  rw [min_eq_left h', max_eq_right h, Int64.ofInt_toInt]

@[simp] theorem or_fixed (flags : UInt32) :
    (flags ||| SPLICE_F_FD_IN_FIXED) &&& SPLICE_F_FD_IN_FIXED = SPLICE_F_FD_IN_FIXED := by
  apply UInt32.toBitVec_inj.1
  ext i hi
  rw [UInt32.toBitVec_and, UInt32.toBitVec_or, BitVec.getElem_and, BitVec.getElem_or]
  cases flags.toBitVec[i] <;> simp

@[simp] theorem spliceFlags_or (flags : UInt32) :
    spliceFlags (flags ||| SPLICE_F_FD_IN_FIXED) = spliceFlags flags := by
  unfold spliceFlags
  apply UInt32.toBitVec_inj.1
  ext i hi
  simp only [UInt32.toBitVec_and, UInt32.toBitVec_or, UInt32.toBitVec_not, BitVec.getElem_and,
    BitVec.getElem_or, BitVec.getElem_not]
  cases flags.toBitVec[i] <;> simp

/-- The flag of a fixed file, however it is set. -/
@[simp] theorem ite_setFlags (fd : Target) (sqe : Sqe) :
    (if fd.isFixed then sqe.setFlags SubmissionFlags.FIXED_FILE else sqe) =
      { sqe with flags := if fd.isFixed then SubmissionFlags.FIXED_FILE else sqe.flags } := by
  cases fd <;> rfl

@[simp] theorem ite_addFlags (fd : Target) (sqe : Sqe) :
    (if fd.isFixed then sqe.addFlags SubmissionFlags.FIXED_FILE else sqe) =
      { sqe with
        flags := if fd.isFixed then sqe.flags ||| SubmissionFlags.FIXED_FILE else sqe.flags } := by
  cases fd <;> rfl

@[simp] theorem ofRaw_intoRaw (fd : Target) :
    Target.ofRaw (if fd.isFixed then SubmissionFlags.FIXED_FILE else 0) fd.intoRaw = fd := by
  unfold Target.ofRaw
  cases fd with
  | Fd fd =>
    have hzero : 0 &&& SubmissionFlags.FIXED_FILE = 0 := by decide
    exact if_pos hzero
  | Fixed index =>
    have hne : SubmissionFlags.FIXED_FILE &&& SubmissionFlags.FIXED_FILE ≠ 0 := by decide
    exact if_neg hne

@[simp] theorem ofSplice_intoRaw (fdIn : Target) (flags : UInt32) :
    Target.ofSplice (if fdIn.isFixed then flags ||| SPLICE_F_FD_IN_FIXED else flags) fdIn.intoRaw =
      fdIn.withFlags flags := by
  unfold Target.ofSplice Target.withFlags
  cases fdIn with
  | Fd fd => rfl
  | Fixed index =>
    have hne : SPLICE_F_FD_IN_FIXED ≠ 0 := by decide
    simp [Target.isFixed, Target.intoRaw, hne]

@[simp] theorem spliceFlags_ite (fdIn : Target) (flags : UInt32) :
    spliceFlags (if fdIn.isFixed then flags ||| SPLICE_F_FD_IN_FIXED else flags) =
      spliceFlags flags := by
  split
  · exact spliceFlags_or flags
  · rfl

theorem spliceFlags_of_clear {flags : UInt32} (h : flags &&& SPLICE_F_FD_IN_FIXED = 0) :
    spliceFlags flags = flags := by
  unfold spliceFlags
  apply UInt32.toBitVec_inj.1
  ext i hi
  have hbit := congrArg (fun n : UInt32 => n.toBitVec[i]) h
  simp only [UInt32.toBitVec_and, BitVec.getElem_and] at hbit
  simp only [UInt32.toBitVec_and, UInt32.toBitVec_not, BitVec.getElem_and, BitVec.getElem_not]
  cases hflag : flags.toBitVec[i] with
  | false => rfl
  | true =>
    rw [hflag, Bool.true_and] at hbit
    rw [hbit]
    simp

/-! ## What is read back -/

namespace Op

/-- No length is saturated, and no flag says that the input of a splice is fixed. -/
def Plain : Op → Prop
  | .fadvise op => 0 ≤ op.len.toInt ∧ op.len.toInt ≤ 4294967295
  | .madvise op => 0 ≤ op.len.toInt ∧ op.len.toInt ≤ 4294967295
  | .splice op => op.flags &&& SPLICE_F_FD_IN_FIXED = 0
  | .tee op => op.flags &&& SPLICE_F_FD_IN_FIXED = 0
  | _ => True

/-- Of any other operation `effective` is all. -/
theorem effective_of_plain {v : Op} (h : v.Plain) : v.effective = v := by
  unfold effective
  cases v with
  | fadvise op => simp only [nearestLen_of_fits h.1 h.2]
  | madvise op => simp only [nearestLen_of_fits h.1 h.2]
  | splice op =>
    have hclear : op.flags &&& SPLICE_F_FD_IN_FIXED = 0 := h
    simp only [Target.withFlags, if_pos hclear, spliceFlags_of_clear hclear]
  | tee op =>
    have hclear : op.flags &&& SPLICE_F_FD_IN_FIXED = 0 := h
    simp only [Target.withFlags, if_pos hclear, spliceFlags_of_clear hclear]
  | _ => rfl

/-- Whether an option of the operation is not put into its entry. -/
def loses : Op → Bool
  | .readVectored _ | .writeVectored _ | .readFixed _ | .writeFixed _ => true
  | .sendMsg _ | .recvMsg _ => true
  | _ => false

theorem loses_written (v : Op) : v.written.loses = v.loses := by
  cases v <;> rfl

theorem loses_effective (v : Op) : v.effective.loses = v.loses := by
  cases v <;> rfl

theorem written_of_not_loses {v : Op} (h : v.loses = false) : v.written = v := by
  cases v <;> first | rfl | cases h

/-- No length and no splice flag is among what such an operation has. -/
theorem effective_of_loses {v : Op} (h : v.loses = true) : v.effective = v := by
  cases v <;> first | rfl | cases h

variable [Uninit] (v v' : Op) (s s' : Sqe)

/-- **An operation is read back from its entry**, up to the options that are not put into it. -/
theorem decode_prepare : decode (s.prepare v) = some v.effective.written := by
  unfold Sqe.prepare
  cases v <;> simp [decode, Sqe.prepare, Prepare.prepSqe, Sqe.clear, effective, written]

/-- The options that are not put into the entry make no difference. -/
theorem prepare_written : s.prepare v.written = s.prepare v := by
  cases v <;> rfl

/-- What was in the slot is not what the entry depends on. -/
def Overwrites : Prop :=
  match v with
  | .pollAdd op => Uninit.opFlags op s = Uninit.opFlags op s'
  | _ => True

/-- **Of the slot nothing is left**, but for the flags that `PollAdd` does not initialise. -/
theorem prepare_eq_iff : s.prepare v = s'.prepare v ↔ v.Overwrites s s' := by
  cases v with
  | pollAdd op =>
    unfold Overwrites
    constructor
    · intro h
      simp only [Sqe.prepare, Prepare.prepSqe, ite_setFlags] at h
      have hflags := congrArg (fun n : UInt32 => (n >>> 16).toUInt16) (congrArg Sqe.opFlags h)
      simp only [toUInt16_upper] at hflags
      exact hflags
    · intro h
      simp only [Sqe.prepare, Prepare.prepSqe, h]
  | _ => exact ⟨fun _ => trivial, fun _ => rfl⟩

/-- The entry does not depend on the slot, and shows in what the operation differs from another. -/
def KeepsOptions : Prop :=
  s.prepare v = s'.prepare v ∧ (v.effective ≠ v'.effective → s.prepare v ≠ s'.prepare v')

/-- **`prepare` loses no option and leaks nothing from the slot**, exactly if what a `PollAdd`
leaves uninitialised does not come from the slot, and the operations do not differ only in an
option that is not put into the entry: the `rw_flags` of a vectored or fixed read or write, or the
`ioprio` of a `SendMsg` or `RecvMsg`. -/
theorem keepsOptions_iff :
    v.KeepsOptions v' s s' ↔ v.Overwrites s s' ∧ (v.written = v'.written → v = v') := by
  unfold KeepsOptions
  rw [prepare_eq_iff]
  constructor
  · rintro ⟨hslot, hdiffer⟩
    refine ⟨hslot, fun hwritten => ?_⟩
    have hloses : v.loses = v'.loses := by rw [← loses_written v, hwritten, loses_written]
    cases h : v.loses with
    | false =>
      rw [← written_of_not_loses h, hwritten, written_of_not_loses (hloses.symm.trans h)]
    | true =>
      rw [effective_of_loses h, effective_of_loses (hloses.symm.trans h)] at hdiffer
      by_contra hne
      refine hdiffer hne ?_
      rw [(prepare_eq_iff v s s').2 hslot, ← prepare_written v, hwritten, prepare_written]
  · rintro ⟨hslot, hwritten⟩
    refine ⟨hslot, fun hne heq => hne ?_⟩
    have hdecode : v.effective.written = v'.effective.written := by
      apply Option.some.inj
      rw [← decode_prepare v s, heq, decode_prepare]
    have hloses : v.loses = v'.loses := by
      rw [← loses_effective v, ← loses_written, hdecode, loses_written, loses_effective]
    cases h : v.loses with
    | false =>
      have h' := hloses.symm.trans h
      rw [← loses_effective] at h h'
      rw [← written_of_not_loses h, hdecode, written_of_not_loses h']
    | true =>
      rw [effective_of_loses h, effective_of_loses (hloses.symm.trans h)] at hdecode
      rw [hwritten hdecode]

end Op

/-- A message is sent with a priority, and without one. -/
theorem sendMsg_not_keepsOptions :
    ¬ ∀ (_ : Uninit) (v v' : Op) (s s' : Sqe), v.KeepsOptions v' s s' := by
  intro h
  have hkeeps := h ⟨fun _ _ => 0⟩ (.sendMsg { fd := .Fd 3, msg := 4096, ioprio := 1 })
    (.sendMsg { fd := .Fd 3, msg := 4096 }) {} {}
  refine hkeeps.2 ?_ rfl
  simp [Op.effective]

end Hamerkop
