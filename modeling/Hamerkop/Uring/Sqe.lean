import Mathlib

/-!
# Submission and completion queue entries

The raw entries of `uring/src/raw.rs`, the accessors that `SubmissionQueueEvent`
and `CompletionQueueEvent` put around them, and the preparation of the requests
that the executor makes itself (`uring/src/sqe_types.rs`).  The unions of an
entry are kept as the bits they overlay.
-/

namespace Hamerkop

/-- `raw::io_uring_sqe`; the default is `mem::zeroed()`. -/
structure Sqe where
  opcode : UInt8 := 0
  flags : UInt8 := 0
  ioprio : UInt16 := 0
  fd : Int32 := 0
  offAddr2 : UInt64 := 0
  addrSplice : UInt64 := 0
  len : UInt32 := 0
  opFlags : UInt32 := 0
  userData : UInt64 := 0
  bufInfo : UInt16 := 0
  personality : UInt16 := 0
  spliceFdIn : Int32 := 0
  pad : UInt64 × UInt64 := (0, 0)
deriving DecidableEq, Repr

/-- `raw::io_uring_cqe`. -/
structure Cqe where
  userData : UInt64
  res : Int32
  flags : UInt32
deriving DecidableEq, Repr

/-- An `io::Error`: a system error number, or an error of the library's own. -/
inductive IoError where
  | os (errno : Int32)
  | other (message : String)
deriving DecidableEq, Repr

/-- The number of a system error. -/
abbrev Errno := Int32

/-- The kernel has no memory for a request just now. -/
def EAGAIN : Errno := 11
/-- The completion ring has overflowed. -/
def EBUSY : Errno := 16

/-! ## Flags -/

namespace SubmissionFlags

/-- The descriptor is an index into the registered files. -/
def FIXED_FILE : UInt8 := 1
/-- The next entry starts when this one has completed. -/
def IO_LINK : UInt8 := 4
/-- The request is issued asynchronously from the start. -/
def ASYNC : UInt8 := 16
/-- The kernel chooses a buffer of the group. -/
def BUFFER_SELECT : UInt8 := 32

/-- All flags together; `!flags` is the complement inside them. -/
def all : UInt8 := 63

/-- `!flags`, which stays among the flags there are. -/
def compl (flags : UInt8) : UInt8 := ~~~flags &&& all

end SubmissionFlags

namespace CompletionFlags

/-- If set, the upper 16 bits are the buffer ID. -/
def BUFFER : UInt32 := 1

/-- The buffer that the kernel has chosen, if it has chosen one. -/
def bufId (flags : UInt32) : Option UInt16 :=
  if flags &&& BUFFER = BUFFER then some (flags >>> 16).toUInt16 else none

end CompletionFlags

namespace Cqe

/-- The buffer that came with the event. -/
def bufId (cqe : Cqe) : Option UInt16 := CompletionFlags.bufId cqe.flags

/-- `resultify!`: a negative result is the negated error number. -/
def result (cqe : Cqe) : Except IoError ℕ :=
  if cqe.res < 0 then .error (.os (-cqe.res)) else .ok cqe.res.toInt.toNat

/-- Whether `result` is an error. -/
def isErr (cqe : Cqe) : Bool := decide (cqe.res < 0)

theorem result_of_isErr {cqe : Cqe} (h : cqe.isErr = true) :
    cqe.result = .error (.os (-cqe.res)) := if_pos (by simpa [isErr] using h)

theorem result_of_not_isErr {cqe : Cqe} (h : cqe.isErr = false) :
    cqe.result = .ok cqe.res.toInt.toNat := if_neg (by simpa [isErr] using h)

end Cqe

namespace Sqe

/-- `set_user_data(user_data)` -/
def setUserData (sqe : Sqe) (userData : UInt64) : Sqe := { sqe with userData }

/-- `set_flags(flags)`: the flags are replaced. -/
def setFlags (sqe : Sqe) (flags : UInt8) : Sqe := { sqe with flags }

/-- `add_flags(flags)`: the flags are set beside the others. -/
def addFlags (sqe : Sqe) (flags : UInt8) : Sqe := { sqe with flags := sqe.flags ||| flags }

/-- `set_buf_group(buf_group)`, which overlays the index of a fixed buffer. -/
def setBufGroup (sqe : Sqe) (bufGroup : UInt16) : Sqe := { sqe with bufInfo := bufGroup }

@[simp] theorem setUserData_userData (sqe : Sqe) (u : UInt64) : (sqe.setUserData u).userData = u :=
  rfl
@[simp] theorem setFlags_userData (sqe : Sqe) (f : UInt8) :
    (sqe.setFlags f).userData = sqe.userData := rfl
@[simp] theorem addFlags_userData (sqe : Sqe) (f : UInt8) :
    (sqe.addFlags f).userData = sqe.userData := rfl

end Sqe

/-! ## Preparing an entry -/

/-- What a request is about: a descriptor, or an index into the registered files. -/
inductive Target where
  | Fd (fd : Int32)
  | Fixed (index : UInt32)
deriving DecidableEq, Repr

namespace Target

/-- Whether it is the index of a registered file. -/
def isFixed : Target → Bool
  | .Fixed _ => true
  | .Fd _ => false

/-- `into_raw()`: the descriptor or the index, as it goes into the entry. -/
def intoRaw : Target → Int32
  | .Fd fd => fd
  | .Fixed fixed => fixed.toInt32

end Target

/-- A request that can be written into a slot of the submission ring. -/
class Prepare (S : Type) where
  prepSqe : S → Sqe → Sqe

/-- The equivalent of a `read(2)`. -/
structure Read where
  fd : Target
  buf : UInt64
  len : UInt32
  offset : Int64 := 0
  ioprio : UInt16 := 0
  rwFlags : Int32 := 0

instance : Prepare Read where
  prepSqe op _ :=
    let sqe : Sqe :=
      { opcode := 22, fd := op.fd.intoRaw, ioprio := op.ioprio, addrSplice := op.buf, len := op.len
        offAddr2 := op.offset.toUInt64, opFlags := op.rwFlags.toUInt32 }
    if op.fd.isFixed then sqe.addFlags SubmissionFlags.FIXED_FILE else sqe

/-- The equivalent of a `write(2)`. -/
structure Write where
  fd : Target
  buf : UInt64
  len : UInt32
  offset : Int64 := 0
  ioprio : UInt16 := 0
  rwFlags : Int32 := 0

instance : Prepare Write where
  prepSqe op _ :=
    let sqe : Sqe := {}
    let sqe := if op.fd.isFixed then sqe.addFlags SubmissionFlags.FIXED_FILE else sqe
    { sqe with
      opcode := 23, fd := op.fd.intoRaw, ioprio := op.ioprio, addrSplice := op.buf, len := op.len
      offAddr2 := op.offset.toUInt64, opFlags := op.rwFlags.toUInt32 }

/-- `nbufs` buffers of `len` bytes each, from `addr` on, are given to a group, with ids from
`bufId` on. -/
structure ProvideBuffers where
  addr : UInt64
  len : UInt32
  nbufs : UInt16
  bufGroup : UInt16
  bufId : UInt16

instance : Prepare ProvideBuffers where
  prepSqe op _ :=
    { opcode := 31, fd := Int32.ofNat op.nbufs.toNat, addrSplice := op.addr, len := op.len
      offAddr2 := op.bufId.toUInt64, bufInfo := op.bufGroup }

/-- An attempt to cancel the request with this user data. -/
structure AsyncCancel where
  userData : UInt64
  flags : UInt32 := 0

instance : Prepare AsyncCancel where
  prepSqe op _ := { opcode := 14, fd := -1, addrSplice := op.userData, opFlags := op.flags }

namespace Sqe

/-- `prepare(op)`: the slot after the request is written into it. -/
def prepare {S : Type} [Prepare S] (sqe : Sqe) (op : S) : Sqe := Prepare.prepSqe op sqe

end Sqe

end Hamerkop
