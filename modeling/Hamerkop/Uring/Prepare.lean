import Hamerkop.Uring.SaturatingCast
import Hamerkop.Uring.Sqe

/-!
# The operations

The types of `uring/src/sqe_types.rs` that implement `Prepare`, each with its
parameters, its options and their defaults, and how it fills a slot of the
submission ring.  There are two ways: the slot is assigned a literal that is
zeroed where it names nothing, or it is cleared first and then filled field by
field.  `Read`, `Write`, `ProvideBuffers` and `AsyncCancel` are with the entries
themselves.

`Op` is a value of any of these types.
-/

namespace Hamerkop

namespace Sqe

/-- `clear`: the slot is zeroed. -/
def clear (_ : Sqe) : Sqe := {}

end Sqe

/-- The input of a splice is a fixed file. -/
def SPLICE_F_FD_IN_FIXED : UInt32 := 0x80000000

/-- An `off_t` -/
def offValue (off : Int64) : IntType.i64.Value :=
  ⟨off.toInt, Int64.le_toInt off, Int64.toInt_le off⟩

/-- `len.saturating_cast()` to a `u32` -/
def saturatingLen (len : Int64) : UInt32 :=
  .ofNat (IntType.saturatingCast .i64 .u32 (offValue len)).1.toNat

/-! ## Reading, writing and polling -/

/-- Do not perform any I/O. -/
structure Nop where

instance : Prepare Nop where
  prepSqe _ sqe := { sqe.clear with opcode := 0, fd := -1 }

/-- A vectored read, as of `preadv2(2)`. -/
structure ReadVectored where
  fd : Target
  iovec : UInt64
  len : UInt32
  ioprio : UInt16 := 0
  offset : Int64 := 0
  rwFlags : Int32 := 0

instance : Prepare ReadVectored where
  prepSqe op _ :=
    let sqe : Sqe :=
      { opcode := 1, fd := op.fd.intoRaw, len := op.len, ioprio := op.ioprio
        addrSplice := op.iovec, offAddr2 := op.offset.toUInt64 }
    if op.fd.isFixed then sqe.setFlags SubmissionFlags.FIXED_FILE else sqe

/-- A vectored write, as of `pwritev2(2)`. -/
structure WriteVectored where
  fd : Target
  iovec : UInt64
  len : UInt32
  ioprio : UInt16 := 0
  offset : Int64 := 0
  rwFlags : Int32 := 0

instance : Prepare WriteVectored where
  prepSqe op _ :=
    let sqe : Sqe :=
      { opcode := 2, fd := op.fd.intoRaw, len := op.len, ioprio := op.ioprio
        addrSplice := op.iovec, offAddr2 := op.offset.toUInt64 }
    if op.fd.isFixed then sqe.setFlags SubmissionFlags.FIXED_FILE else sqe

/-- A read to a buffer that is mapped beforehand. -/
structure ReadFixed where
  fd : Target
  buf : UInt64
  len : UInt32
  bufIndex : UInt16
  offset : Int64 := 0
  ioprio : UInt16 := 0
  rwFlags : Int32 := 0

instance : Prepare ReadFixed where
  prepSqe op _ :=
    let sqe : Sqe :=
      { opcode := 4, fd := op.fd.intoRaw, len := op.len, ioprio := op.ioprio
        addrSplice := op.buf, offAddr2 := op.offset.toUInt64, bufInfo := op.bufIndex }
    if op.fd.isFixed then sqe.setFlags SubmissionFlags.FIXED_FILE else sqe

/-- A write from a buffer that is mapped beforehand. -/
structure WriteFixed where
  fd : Target
  buf : UInt64
  len : UInt32
  bufIndex : UInt16
  ioprio : UInt16 := 0
  offset : Int64 := 0
  rwFlags : Int32 := 0

instance : Prepare WriteFixed where
  prepSqe op _ :=
    let sqe : Sqe :=
      { opcode := 5, fd := op.fd.intoRaw, len := op.len, ioprio := op.ioprio
        addrSplice := op.buf, offAddr2 := op.offset.toUInt64, bufInfo := op.bufIndex }
    if op.fd.isFixed then sqe.setFlags SubmissionFlags.FIXED_FILE else sqe

/-- Poll the descriptor, once. -/
structure PollAdd where
  fd : Target
  pollEvents : UInt16

/-- What is in the two bytes of `sqe_op_flags` after `poll_events` when a literal of the union names
only this field.  They are uninitialised, and may hold what was in the slot before. -/
class Uninit where
  opFlags : PollAdd → Sqe → UInt16

instance [Uninit] : Prepare PollAdd where
  prepSqe op sqe :=
    let sqe : Sqe :=
      { opcode := 6, fd := op.fd.intoRaw
        opFlags := (Uninit.opFlags op sqe).toUInt32 <<< 16 ||| op.pollEvents.toUInt32 }
    if op.fd.isFixed then sqe.setFlags SubmissionFlags.FIXED_FILE else sqe

/-- Remove the poll request with this user data. -/
structure PollRemove where
  userData : UInt64

instance : Prepare PollRemove where
  prepSqe op _ := { opcode := 7, fd := -1, addrSplice := op.userData }

/-- The equivalent of a `sync_file_range(2)`. -/
structure SyncFileRange where
  fd : Target
  len : UInt32
  offset : Int64 := 0
  flags : UInt32 := 0

instance : Prepare SyncFileRange where
  prepSqe op _ :=
    let sqe : Sqe :=
      { opcode := 8, fd := op.fd.intoRaw, len := op.len, opFlags := op.flags
        offAddr2 := op.offset.toUInt64 }
    if op.fd.isFixed then sqe.setFlags SubmissionFlags.FIXED_FILE else sqe

/-! ## Messages and timeouts -/

/-- The equivalent of a `sendmsg(2)`; its `ioprio` does not reach the entry. -/
structure SendMsg where
  fd : Target
  msg : UInt64
  ioprio : UInt16 := 0
  flags : UInt32 := 0

instance : Prepare SendMsg where
  prepSqe op _ :=
    let sqe : Sqe :=
      { opcode := 9, fd := op.fd.intoRaw, addrSplice := op.msg, opFlags := op.flags }
    if op.fd.isFixed then sqe.setFlags SubmissionFlags.FIXED_FILE else sqe

/-- The equivalent of a `recvmsg(2)`; its `ioprio` does not reach the entry either. -/
structure RecvMsg where
  fd : Target
  msg : UInt64
  ioprio : UInt16 := 0
  flags : UInt32 := 0

instance : Prepare RecvMsg where
  prepSqe op _ :=
    let sqe : Sqe :=
      { opcode := 10, fd := op.fd.intoRaw, addrSplice := op.msg, opFlags := op.flags }
    if op.fd.isFixed then sqe.setFlags SubmissionFlags.FIXED_FILE else sqe

/-- An event after a time, or after `count` events. -/
structure Timeout where
  timespec : UInt64
  count : UInt32 := 0
  flags : UInt32 := 0

instance : Prepare Timeout where
  prepSqe op _ :=
    { opcode := 11, fd := -1, addrSplice := op.timespec, len := 1
      offAddr2 := op.count.toUInt64, opFlags := op.flags }

/-- Remove the timeout with this user data. -/
structure TimeoutRemove where
  userData : UInt64
  flags : UInt32 := 0

instance : Prepare TimeoutRemove where
  prepSqe op _ := { opcode := 12, fd := -1, addrSplice := op.userData, opFlags := op.flags }

/-- The equivalent of an `accept4(2)`. -/
structure Accept where
  fd : Target
  addr : UInt64
  addrlen : UInt64
  flags : UInt32 := 0

instance : Prepare Accept where
  prepSqe op _ :=
    let sqe : Sqe :=
      { opcode := 13, fd := op.fd.intoRaw, addrSplice := op.addr, offAddr2 := op.addrlen
        opFlags := op.flags }
    if op.fd.isFixed then sqe.setFlags SubmissionFlags.FIXED_FILE else sqe

/-- Cancel the linked request after a time. -/
structure LinkTimeout where
  timespec : UInt64
  flags : UInt32 := 0

instance : Prepare LinkTimeout where
  prepSqe op _ := { opcode := 15, fd := -1, addrSplice := op.timespec, opFlags := op.flags }

/-- The equivalent of a `connect(2)`. -/
structure Connect where
  fd : Target
  addr : UInt64
  addrlen : UInt64

instance : Prepare Connect where
  prepSqe op _ :=
    let sqe : Sqe :=
      { opcode := 16, fd := op.fd.intoRaw, addrSplice := op.addr, offAddr2 := op.addrlen }
    if op.fd.isFixed then sqe.setFlags SubmissionFlags.FIXED_FILE else sqe

/-! ## Files -/

/-- The equivalent of a `fallocate(2)`. -/
structure Fallocate where
  fd : Target
  len : UInt32
  offset : Int64 := 0
  mode : Int32 := 0

instance : Prepare Fallocate where
  prepSqe op _ :=
    let sqe : Sqe :=
      { opcode := 17, fd := op.fd.intoRaw, offAddr2 := op.offset.toUInt64, len := op.mode.toUInt32
        addrSplice := op.len.toUInt64 }
    if op.fd.isFixed then sqe.addFlags SubmissionFlags.FIXED_FILE else sqe

/-- The equivalent of a `posix_fadvise(2)`. -/
structure Fadvise where
  fd : Target
  len : Int64
  advice : Int32
  offset : Int64 := 0

instance : Prepare Fadvise where
  prepSqe op _ :=
    let sqe : Sqe :=
      { opcode := 24, fd := op.fd.intoRaw, len := saturatingLen op.len
        offAddr2 := op.offset.toUInt64, opFlags := op.advice.toUInt32 }
    if op.fd.isFixed then sqe.addFlags SubmissionFlags.FIXED_FILE else sqe

/-- The equivalent of a `madvise(2)`. -/
structure Madvise where
  addr : UInt64
  len : Int64
  advice : Int32

instance : Prepare Madvise where
  prepSqe op _ :=
    { opcode := 25, fd := -1, addrSplice := op.addr, len := saturatingLen op.len
      opFlags := op.advice.toUInt32 }

/-- The equivalent of an `openat(2)`. -/
structure OpenAt where
  dirfd : Int32
  pathname : UInt64
  flags : Int32 := 0
  mode : UInt32 := 0

instance : Prepare OpenAt where
  prepSqe op sqe :=
    { sqe.clear with
      opcode := 18, fd := op.dirfd, addrSplice := op.pathname, len := op.mode
      opFlags := op.flags.toUInt32 }

/-- The equivalent of an `openat2(2)`. -/
structure OpenAt2 where
  dirfd : Int32
  pathname : UInt64
  how : UInt64
  /-- the size of `raw::open_how` -/
  len : UInt32 := 24

instance : Prepare OpenAt2 where
  prepSqe op sqe :=
    { sqe.clear with
      opcode := 28, fd := op.dirfd, addrSplice := op.pathname, len := op.len, offAddr2 := op.how }

/-- The equivalent of a `close(2)`. -/
structure Close where
  fd : Int32

instance : Prepare Close where
  prepSqe op sqe := { sqe.clear with opcode := 19, fd := op.fd }

/-- The equivalent of a `statx(2)`. -/
structure Statx where
  dirfd : Int32
  pathname : UInt64
  statxbuf : UInt64
  flags : Int32 := 0
  mask : UInt32 := 0

instance : Prepare Statx where
  prepSqe op sqe :=
    { sqe.clear with
      opcode := 21, fd := op.dirfd, addrSplice := op.pathname, len := op.mask
      offAddr2 := op.statxbuf, opFlags := op.flags.toUInt32 }

/-! ## Sockets, pipes and buffers -/

/-- The equivalent of a `send(2)`. -/
structure Send where
  fd : Target
  buf : UInt64
  len : UInt32
  flags : Int32 := 0

instance : Prepare Send where
  prepSqe op sqe :=
    let sqe := sqe.clear
    let sqe := if op.fd.isFixed then sqe.addFlags SubmissionFlags.FIXED_FILE else sqe
    { sqe with
      opcode := 26, fd := op.fd.intoRaw, addrSplice := op.buf, len := op.len
      opFlags := op.flags.toUInt32 }

/-- The equivalent of a `recv(2)`. -/
structure Recv where
  fd : Target
  buf : UInt64
  len : UInt32
  flags : Int32 := 0

instance : Prepare Recv where
  prepSqe op sqe :=
    let sqe := sqe.clear
    let sqe := if op.fd.isFixed then sqe.addFlags SubmissionFlags.FIXED_FILE else sqe
    { sqe with
      opcode := 27, fd := op.fd.intoRaw, addrSplice := op.buf, len := op.len
      opFlags := op.flags.toUInt32 }

/-- The equivalent of an `epoll_ctl(2)`. -/
structure EpollCtl where
  epfd : Target
  fd : Int32
  op : Int32
  ev : UInt64

instance : Prepare EpollCtl where
  prepSqe op sqe :=
    let sqe := sqe.clear
    let sqe := if op.epfd.isFixed then sqe.addFlags SubmissionFlags.FIXED_FILE else sqe
    { sqe with
      opcode := 29, fd := op.epfd.intoRaw, addrSplice := op.ev, len := op.op.toUInt32
      offAddr2 := op.fd.toInt64.toUInt64 }

/-- The equivalent of a `splice(2)`. -/
structure Splice where
  fdIn : Target
  offIn : Int64
  fdOut : Target
  offOut : Int64
  len : UInt32
  flags : UInt32 := 0

instance : Prepare Splice where
  prepSqe op sqe :=
    let sqe := sqe.clear
    let sqe := if op.fdOut.isFixed then sqe.addFlags SubmissionFlags.FIXED_FILE else sqe
    let flags := if op.fdIn.isFixed then op.flags ||| SPLICE_F_FD_IN_FIXED else op.flags
    { sqe with
      opcode := 30, fd := op.fdOut.intoRaw, len := op.len, offAddr2 := op.offOut.toUInt64
      spliceFdIn := op.fdIn.intoRaw, addrSplice := op.offIn.toUInt64, opFlags := flags }

/-- The equivalent of a `tee(2)`. -/
structure Tee where
  fdIn : Target
  fdOut : Target
  len : UInt32
  flags : UInt32 := 0

instance : Prepare Tee where
  prepSqe op sqe :=
    let sqe := sqe.clear
    let sqe := if op.fdOut.isFixed then sqe.addFlags SubmissionFlags.FIXED_FILE else sqe
    let flags := if op.fdIn.isFixed then op.flags ||| SPLICE_F_FD_IN_FIXED else op.flags
    { sqe with
      opcode := 33, fd := op.fdOut.intoRaw, len := op.len, spliceFdIn := op.fdIn.intoRaw
      opFlags := flags }

/-- The registered files from `offset` on are replaced. -/
structure FilesUpdate where
  fds : UInt64
  len : UInt32
  offset : UInt32 := 0

instance : Prepare FilesUpdate where
  prepSqe op sqe :=
    { sqe.clear with
      opcode := 20, fd := -1, addrSplice := op.fds, len := op.len
      offAddr2 := op.offset.toUInt64 }

/-- Buffers that were given to a group are taken back. -/
structure RemoveBuffers where
  nbufs : UInt16
  bufGroup : UInt16

instance : Prepare RemoveBuffers where
  prepSqe op sqe :=
    { sqe.clear with opcode := 32, fd := Int32.ofNat op.nbufs.toNat, bufInfo := op.bufGroup }

/-! ## Any of them -/

/-- A value of one of the types that implement `Prepare`. -/
inductive Op where
  | nop (op : Nop)
  | readVectored (op : ReadVectored)
  | writeVectored (op : WriteVectored)
  | readFixed (op : ReadFixed)
  | writeFixed (op : WriteFixed)
  | pollAdd (op : PollAdd)
  | pollRemove (op : PollRemove)
  | syncFileRange (op : SyncFileRange)
  | sendMsg (op : SendMsg)
  | recvMsg (op : RecvMsg)
  | timeout (op : Timeout)
  | timeoutRemove (op : TimeoutRemove)
  | accept (op : Accept)
  | asyncCancel (op : AsyncCancel)
  | linkTimeout (op : LinkTimeout)
  | connect (op : Connect)
  | fallocate (op : Fallocate)
  | fadvise (op : Fadvise)
  | madvise (op : Madvise)
  | openAt (op : OpenAt)
  | openAt2 (op : OpenAt2)
  | close (op : Close)
  | statx (op : Statx)
  | read (op : Read)
  | write (op : Write)
  | send (op : Send)
  | recv (op : Recv)
  | epollCtl (op : EpollCtl)
  | splice (op : Splice)
  | tee (op : Tee)
  | filesUpdate (op : FilesUpdate)
  | provideBuffers (op : ProvideBuffers)
  | removeBuffers (op : RemoveBuffers)

instance [Uninit] : Prepare Op where
  prepSqe op sqe := match op with
    | .nop op => sqe.prepare op
    | .readVectored op => sqe.prepare op
    | .writeVectored op => sqe.prepare op
    | .readFixed op => sqe.prepare op
    | .writeFixed op => sqe.prepare op
    | .pollAdd op => sqe.prepare op
    | .pollRemove op => sqe.prepare op
    | .syncFileRange op => sqe.prepare op
    | .sendMsg op => sqe.prepare op
    | .recvMsg op => sqe.prepare op
    | .timeout op => sqe.prepare op
    | .timeoutRemove op => sqe.prepare op
    | .accept op => sqe.prepare op
    | .asyncCancel op => sqe.prepare op
    | .linkTimeout op => sqe.prepare op
    | .connect op => sqe.prepare op
    | .fallocate op => sqe.prepare op
    | .fadvise op => sqe.prepare op
    | .madvise op => sqe.prepare op
    | .openAt op => sqe.prepare op
    | .openAt2 op => sqe.prepare op
    | .close op => sqe.prepare op
    | .statx op => sqe.prepare op
    | .read op => sqe.prepare op
    | .write op => sqe.prepare op
    | .send op => sqe.prepare op
    | .recv op => sqe.prepare op
    | .epollCtl op => sqe.prepare op
    | .splice op => sqe.prepare op
    | .tee op => sqe.prepare op
    | .filesUpdate op => sqe.prepare op
    | .provideBuffers op => sqe.prepare op
    | .removeBuffers op => sqe.prepare op

end Hamerkop
