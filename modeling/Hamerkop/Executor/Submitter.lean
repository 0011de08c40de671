import Hamerkop.Executor.Future

/-!
# `LinkedSubmitter`

The requests of `hamerkop/src/executor/handle.rs`: what each checks, what it
writes into its submission entry and what the future it returns resolves to.

A request is made in two parts, because `submit_sqe` may have to wait for a
slot in between: `beginRequest` up to the call of `submit_sqe`, and `fillSlot`
once there is a slot.  `resolve` is the part of the returned `async` block
behind its `await`.
-/

namespace Hamerkop

/-- What the future of a request does with its event: what its `async` block has captured. -/
inductive FutureKind where
  /-- hands the event on -/
  | completion
  | read
  | provide (bufid : ℕ) (len : ℕ)
deriving DecidableEq, Repr

/-- The buffer a request gives to the pool. -/
def FutureKind.bufid? : FutureKind → Option ℕ
  | .provide bufid _ => some bufid
  | _ => none

theorem FutureKind.eq_provide {kind : FutureKind} {bufid : ℕ} (h : kind.bufid? = some bufid) :
    ∃ len, kind = .provide bufid len := by
  cases kind with
  | provide bufid' len =>
    obtain rfl := Option.some.inj h
    exact ⟨len, rfl⟩
  | _ => cases h

/-- The requests a `LinkedSubmitter` can make; memory of the caller is its address and length. -/
inductive Request where
  | submitSqe (func : Sqe → Sqe)
  | read (fd : Int32) (size : ℕ)
  | readBuf (fd : Int32) (data : UInt64) (len : ℕ)
  | writeBuf (fd : Int32) (data : UInt64) (len : ℕ)
  | provideBuffer (buffer : FixedVec UInt8)

namespace LinkedSubmitter

/-- The entry of `read`, which has the kernel choose a buffer. -/
def readSqe (fd : Int32) (size : ℕ) (sqe : Sqe) : Sqe :=
  let sqe := sqe.prepare ({ fd := .Fd fd, buf := 0, len := UInt32.ofNat size } : Read)
  let sqe := sqe.setBufGroup 0
  sqe.setFlags (SubmissionFlags.BUFFER_SELECT ||| SubmissionFlags.ASYNC)

/-- The entry of `read_buf`. -/
def readBufSqe (fd : Int32) (data : UInt64) (len : ℕ) (sqe : Sqe) : Sqe :=
  sqe.prepare ({ fd := .Fd fd, buf := data, len := UInt32.ofNat len } : Read)

/-- The entry of `write_buf`. -/
def writeBufSqe (fd : Int32) (data : UInt64) (len : ℕ) (sqe : Sqe) : Sqe :=
  sqe.prepare ({ fd := .Fd fd, buf := data, len := UInt32.ofNat len } : Write)

/-- The entry of `provide_buffer`. -/
def provideSqe (bufptr : UInt64) (buflen bufid : ℕ) (sqe : Sqe) : Sqe :=
  sqe.prepare
    { addr := bufptr, len := UInt32.ofNat buflen, nbufs := 1, bufGroup := 0
      bufId := UInt16.ofNat bufid : ProvideBuffers }

/-- A request on its way into `submit_sqe`. -/
structure Started where
  kind : FutureKind
  func : Sqe → Sqe
  mustWait : Bool

/-- How far a request comes before `submit_sqe`. -/
inductive Begun where
  | panicked (p : Panic)
  /-- the future resolves to this error and its buffer without a request being made -/
  | rejected (e : IoError) (buffer : FixedVec UInt8)
  | started (r : Started) (ctx : IOContext)

/-- The number of buffers the pool takes: `u16::MAX`. -/
def MAX_BUFFERS : ℕ := 65535

/-- A request up to its call of `submit_sqe`; `none` when the pool finds no memory and the
process aborts. -/
def beginRequest (ctx : IOContext) : Request → Option Begun
  | .submitSqe func =>
    some (.started { kind := .completion, func, mustWait := false } ctx)
  | .read fd size =>
    some (.started { kind := .read, func := readSqe fd size, mustWait := false } ctx)
  | .readBuf fd data len =>
    if len ≤ 2 ^ 32 - 1 then
      some (.started { kind := .completion, func := readBufSqe fd data len, mustWait := true } ctx)
    else
      some (.panicked .lengthTooLong)
  | .writeBuf fd data len =>
    if len ≤ 2 ^ 32 - 1 then
      some (.started { kind := .completion, func := writeBufSqe fd data len, mustWait := true } ctx)
    else
      some (.panicked .lengthTooLong)
  | .provideBuffer buffer =>
    if ctx.bufsize = buffer.capacity then
      let len := buffer.len
      if ctx.buffers.len ≥ MAX_BUFFERS then
        some (.rejected (.other "No more room for buffers") buffer)
      else
        let buffer := buffer.clear
        let bufptr := buffer.asMutPtr
        let buflen := buffer.capacity
        (ctx.buffers.insert buffer).map fun (bufid, buffers) =>
          .started
            { kind := .provide bufid len
              func := provideSqe bufptr buflen bufid
              mustWait := false }
            { ctx with buffers }
    else
      some (.panicked .incorrectCapacity)

/-- A request that is to provide a buffer and is started has it in the pool. -/
theorem beginRequest_provide {ctx ctx' : IOContext} {buffer : FixedVec UInt8} {r : Started}
    (h : beginRequest ctx (.provideBuffer buffer) = some (.started r ctx')) :
    ∃ bufid, r.kind = .provide bufid buffer.len ∧
      ctx'.buffers.get bufid = some buffer.clear ∧
      r.func = provideSqe buffer.ptr buffer.capacity bufid := by
  simp only [beginRequest] at h
  split at h
  · split at h
    · cases h
    · obtain ⟨⟨bufid, buffers⟩, hins, hr⟩ := Option.map_eq_some_iff.1 h
      obtain ⟨rfl, rfl⟩ := Begun.started.inj hr
      exact ⟨bufid, rfl, by rw [Slots.get_insert hins, Function.update_self], rfl⟩
  · cases h

/-- A request that is started changes nothing but the pool, and only if it provides a buffer. -/
theorem beginRequest_started {ctx ctx' : IOContext} {req : Request} {r : Started}
    (h : beginRequest ctx req = some (.started r ctx')) :
    (r.kind.bufid? = none ∧ ctx' = ctx) ∨ ∃ buffer bufid len buffers,
      r.kind = .provide bufid len ∧ ctx.buffers.insert buffer = some (bufid, buffers) ∧
      ctx.buffers.len < MAX_BUFFERS ∧ ctx' = { ctx with buffers } ∧
      r.func = provideSqe buffer.ptr buffer.capacity bufid := by
  cases req with
  | submitSqe func =>
    simp only [beginRequest, Option.some.injEq, Begun.started.injEq] at h
    exact .inl ⟨h.1 ▸ rfl, h.2.symm⟩
  | read fd size =>
    simp only [beginRequest, Option.some.injEq, Begun.started.injEq] at h
    exact .inl ⟨h.1 ▸ rfl, h.2.symm⟩
  | readBuf fd data len =>
    simp only [beginRequest] at h
    split at h
    · simp only [Option.some.injEq, Begun.started.injEq] at h
      exact .inl ⟨h.1 ▸ rfl, h.2.symm⟩
    · cases h
  | writeBuf fd data len =>
    simp only [beginRequest] at h
    split at h
    · simp only [Option.some.injEq, Begun.started.injEq] at h
      exact .inl ⟨h.1 ▸ rfl, h.2.symm⟩
    · cases h
  | provideBuffer buffer =>
    simp only [beginRequest] at h
    split at h
    · split at h
      · cases h
      · rename_i hroom
        obtain ⟨⟨bufid, buffers⟩, hins, hr⟩ := Option.map_eq_some_iff.1 h
        obtain ⟨rfl, rfl⟩ := Begun.started.inj hr
        exact .inr ⟨buffer.clear, bufid, buffer.len, buffers, rfl, hins, not_le.1 hroom, rfl, rfl⟩
    · cases h

/-- The rest of a request once `submit_sqe` finds the slot it waits for. -/
def fillSlot (ctx : IOContext) (count cqid : ℕ) (r : Started) : Option IOContext :=
  (ctx.sq.linkSqe count r.func (UInt64.ofNat cqid)).map fun sq =>
    let ctx := { ctx with sq }
    match r.kind with
    | .provide bufid _ =>
      { ctx with
        completions := ctx.completions.modify cqid fun ce =>
          { ce with action := .deleteBufferOnError bufid } }
    | _ => ctx

/-- The cleanup action of an entry after `fillSlot`. -/
def actionAfter (kind : FutureKind) (action : CleanupAction) : CleanupAction :=
  match kind with
  | .provide bufid _ => .deleteBufferOnError bufid
  | _ => action

theorem fillSlot_eq_some {ctx ctx' : IOContext} {count cqid : ℕ} {r : Started}
    (h : fillSlot ctx count cqid r = some ctx') :
    ∃ sq completions, ctx.sq.linkSqe count r.func (UInt64.ofNat cqid) = some sq ∧
      ctx' = { ctx with sq, completions } ∧
      completions.get = Function.update ctx.completions.get cqid
        ((ctx.completions.get cqid).map fun ce =>
          { ce with action := actionAfter r.kind ce.action }) := by
  obtain ⟨sq, hsq, rfl⟩ := Option.map_eq_some_iff.1 h
  have hid : Function.update ctx.completions.get cqid
      ((ctx.completions.get cqid).map fun ce => { ce with action := ce.action }) =
      ctx.completions.get := by
    rw [Function.update_eq_self_iff]
    exact Option.map_id'
  cases hk : r.kind with
  | provide bufid len => exact ⟨sq, _, hsq, rfl, Slots.get_modify ..⟩
  | completion => exact ⟨sq, ctx.completions, hsq, rfl, hid.symm⟩
  | read => exact ⟨sq, ctx.completions, hsq, rfl, hid.symm⟩

/-- What the future of a request resolves to. -/
inductive Resolved where
  | completion (cqe : Cqe)
  | read (res : Except IoError (FixedVec UInt8))
  | provided (res : Except (IoError × FixedVec UInt8) Unit)

/-- What the future of a request does behind its `await`. -/
def resolve (ctx : IOContext) (kind : FutureKind) (cqe : Cqe) :
    Except Panic (Resolved × IOContext) :=
  match kind with
  | .completion => .ok (.completion cqe, ctx)
  | .read => match cqe.result with
    | .error e => .ok (.read (.error e), ctx)
    | .ok size => match cqe.bufId with
      | none => .error .invalidCqeForRead
      | some bufid => match ctx.buffers.remove bufid.toNat with
        | (none, _) => .error .bufferIdDoesntExist
        | (some buf, buffers) => .ok (.read (.ok (buf.setLen size)), { ctx with buffers })
  | .provide bufid len => match cqe.result with
    | .ok _ => .ok (.provided (.ok ()), ctx)
    | .error e => match ctx.buffers.remove bufid with
      | (none, _) => .error .unwrapNone
      | (some buffer, buffers) =>
        .ok (.provided (.error (e, buffer.setLen len)), { ctx with buffers })

end LinkedSubmitter

end Hamerkop
