import Hamerkop.Lib.Runs
import Hamerkop.Executor.Machine
import Hamerkop.Executor.Table

/-!
# The chain a `LinkedSubmitter` publishes

A session of a `LinkedSubmitter` (`hamerkop/src/executor/handle.rs`) with the
context it has borrowed: nobody else gets at the context while it is open.  Its
operations fill one slot behind the other.  When there is none, `submit_sqe`
calls `submit(0)` until there is, and then, without a polling thread, the kernel
consumes entries; it may post events at any time.

Whatever the ring looks like, `submit` finds the slot it looks for and publishes
what the operations have prepared, in the order of their calls
(`LinkedSession.publishesChain_iff`).  That the last entry leaves the chain
costs it the flags that `SubmissionFlags` does not name.
-/

namespace Hamerkop

open Runs SubmissionQueue LinkedSubmitter

/-- An operation of a session: its request, and the `cqid` of its future. -/
structure Operation where
  r : Started
  cqid : ℕ

/-- A `LinkedSubmitter` and its context. -/
structure LinkedSession where
  ctx : IOContext
  count : ℕ
  /-- the operation whose `submit_sqe` is in its call of `submit(0)` -/
  waits : Option Operation
  /-- the operations that have succeeded, in the order of their calls -/
  linked : List Operation

namespace LinkedSession

/-- A request of the session, or what the kernel does meanwhile. -/
inductive Event where
  | request (req : Request)
  /-- a turn of `submit(0)`: the entries that the kernel consumes, and what it returns -/
  | enter (consumed : UInt32) (ret : Except Errno UInt32)
  | post (cqe : Cqe)

/-- A session that is just opened. -/
def start (ctx : IOContext) : LinkedSession := { ctx, count := 0, waits := none, linked := [] }

/-- `submit_sqe` once `sqes` has been asked for the slot. -/
def tryFill (s : LinkedSession) (op : Operation) : LinkedSession :=
  match fillSlot s.ctx s.count op.cqid op.r with
  | some ctx => { ctx, count := s.count + 1, waits := none, linked := s.linked ++ [op] }
  | none => { s with waits := some op }

/-- How many entries the kernel may consume: those published, if it is called. -/
def consumable (s : LinkedSession) : ℕ :=
  if (s.ctx.sq.enterCall 0).isSome then s.ctx.sq.unconsumed else 0

/-- The steps of a session that does not panic.  A request that is rejected leaves no trace. -/
def next? (s : LinkedSession) : Event → Option LinkedSession
  | .request req =>
    if s.waits.isSome then none
    else (beginRequest s.ctx req).bind fun
      | .started r ctx => (CompletionFuture.fromCtx ctx).bind fun (cqid, ctx) =>
        if s.count = ctx.sq.queueSize then none else some ({ s with ctx }.tryFill ⟨r, cqid⟩)
      | .rejected _ _ => some s
      | .panicked _ => none
  | .enter consumed ret => s.waits.bind fun op =>
    if consumed.toNat ≤ s.consumable then
      match { s.ctx with sq := s.ctx.sq.consume consumed }.submitOnce 0 ret with
      | .ok (.retry, ctx) => some { s with ctx }
      | .ok (.done (.ok ()), ctx) => some ({ s with ctx }.tryFill op)
      | _ => none
    else
      none
  | .post cqe => some { s with ctx := { s.ctx with cq := s.ctx.cq.post cqe } }

/-- A step of the session. -/
def Step (s : LinkedSession) (e : Event) (t : LinkedSession) : Prop := s.next? e = some t

/-- `LinkedSubmitter::submit`; `none` is the `unwrap` that fails. -/
def submit (s : LinkedSession) : Option IOContext :=
  (s.ctx.sq.publish s.count).map fun sq =>
    { s.ctx with sq, queued := s.ctx.queued + s.count }

/-! ## The chain -/

/-- The tail of the ring, as the kernel sees it. -/
def tail (s : LinkedSession) : UInt32 := s.ctx.sq.sq.ktail

/-- The slot of the position `i` behind the tail. -/
def slot (s : LinkedSession) (i : ℕ) : ℕ := (s.tail.toNat + i) &&& s.ctx.sq.sq.kringMask.toNat

/-- What the operation prepares in the slot that is the `i`-th behind the tail. -/
def prepared (s : LinkedSession) (i : ℕ) (op : Operation) : Sqe :=
  op.r.func (s.ctx.sq.sq.sqes (s.slot i))

/-- The flags of the `i`-th of `n` linked entries. -/
def linkedFlags (n i : ℕ) (flags : UInt8) : UInt8 :=
  if i + 1 = n then flags &&& ~~~SubmissionFlags.IO_LINK else flags ||| SubmissionFlags.IO_LINK

/-- The session that was `s` when it was opened is `t`, and `submit` leaves `ctx` behind: the
operations are one chain behind the old tail. -/
structure Published (s t : LinkedSession) (ctx : IOContext) : Prop where
  tail : ctx.sq.sq.ktail = s.tail + UInt32.ofNat t.count
  queued : ctx.queued = t.ctx.queued + t.count
  length : t.linked.length = t.count
  entries : ∀ i op, t.linked[i]? = some op → ctx.sq.sq.sqes (s.slot i) =
    { s.prepared i op with
      userData := UInt64.ofNat op.cqid
      flags := linkedFlags t.count i (s.prepared i op).flags }
  others : ∀ p, (∀ i < t.count, p ≠ s.slot i) → ctx.sq.sq.sqes p = s.ctx.sq.sq.sqes p
  cqids : (t.linked.map fun op => UInt64.ofNat op.cqid).Nodup

/-- The tail stays where it is until `submit` publishes the session as one chain. -/
def PublishesChain (s : LinkedSession) (l : List (Event × LinkedSession)) : Prop :=
  Always (fun t => t.tail = s.tail) s l ∧
    ∃ ctx, (final s l).submit = some ctx ∧ s.Published (final s l) ctx

/-- The last operation sets no flag that `SubmissionFlags` does not name. -/
def NamesFlags (s : LinkedSession) (l : List (Event × LinkedSession)) : Prop :=
  ∀ op, (final s l).linked[(final s l).count - 1]? = some op →
    (s.prepared ((final s l).count - 1) op).flags &&& ~~~SubmissionFlags.all = 0

end LinkedSession

/-! ## What `submit(0)` keeps -/

namespace IOContext

/-- The submission ring is as it was behind its tail, and so are the entries of futures that have
not been polled. -/
structure Kept (ctx ctx' : IOContext) : Prop where
  sized : ∀ k, ctx.sq.Sized k → ctx'.sq.Sized k
  tail : ctx'.sq.sq.ktail = ctx.sq.sq.ktail
  sqes : ctx'.sq.sq.sqes = ctx.sq.sq.sqes
  unpolled : ∀ id ce, ctx.completions.get id = some ce → ce.task = NO_TASK_SENTINEL →
    ∃ ce', ctx'.completions.get id = some ce' ∧ ce'.task = NO_TASK_SENTINEL

variable {ctx ctx₁ ctx' : IOContext} {ρ : Type}

theorem Kept.refl (ctx : IOContext) : Kept ctx ctx :=
  ⟨fun _ hk => hk, rfl, rfl, fun _ ce hce hno => ⟨ce, hce, hno⟩⟩

theorem Kept.trans (h : Kept ctx ctx₁) (h' : Kept ctx₁ ctx') : Kept ctx ctx' where
  sized k hk := h'.sized k (h.sized k hk)
  tail := h'.tail.trans h.tail
  sqes := h'.sqes.trans h.sqes
  unpolled id ce hce hno := by
    obtain ⟨ce₁, hce₁, hno₁⟩ := h.unpolled id ce hce hno
    exact h'.unpolled id ce₁ hce₁ hno₁

/-- Only the completion ring, the tables and the lists change. -/
theorem Kept.of_sq (hsq : ctx'.sq = ctx.sq)
    (hget : ∀ id ce, ctx.completions.get id = some ce → ce.task = NO_TASK_SENTINEL →
      ∃ ce', ctx'.completions.get id = some ce' ∧ ce'.task = NO_TASK_SENTINEL) : Kept ctx ctx' :=
  ⟨fun _ hk => hsq ▸ hk, by rw [hsq], by rw [hsq], hget⟩

/-- An event is processed: no entry goes whose future has not been polled. -/
theorem processCqe_kept (queueFunc : QueueFunc ρ) (s : ρ × IOContext) (cqe : Cqe) :
    Kept s.2 (processCqe queueFunc s cqe).2 := by
  obtain ⟨captured, ctx⟩ := s
  cases hce : ctx.completions.get cqe.userData.toNat with
  | none =>
    unfold processCqe
    simp only [hce]
    exact .refl ctx
  | some ce =>
    rw [processCqe_eq queueFunc captured hce]
    by_cases hno : ce.task = NO_TASK_SENTINEL
    · simp only [if_pos hno]
      refine .of_sq rfl fun id ce' hid hno' => ?_
      rw [Slots.get_modify, hce]
      by_cases heq : id = cqe.userData.toNat
      · rw [heq, Function.update_self]
        exact ⟨_, rfl, hno⟩
      · rw [Function.update_of_ne heq]
        exact ⟨ce', hid, hno'⟩
    · have hne : ∀ id ce', ctx.completions.get id = some ce' → ce'.task = NO_TASK_SENTINEL →
          id ≠ cqe.userData.toNat := by
        rintro id ce' hid hno' rfl
        obtain rfl := Option.some.inj (hid.symm.trans hce)
        exact hno hno'
      simp only [if_neg hno]
      by_cases hdead : ce.task = DEAD_TASK_SENTINEL
      · simp only [if_pos hdead]
        refine .of_sq rfl fun id ce' hid hno' => ⟨ce', ?_, hno'⟩
        rw [Slots.get_remove, Function.update_of_ne (hne id ce' hid hno'), Slots.get_modify,
          Function.update_of_ne (hne id ce' hid hno'), hid]
      · simp only [if_neg hdead]
        refine .of_sq rfl fun id ce' hid hno' => ⟨ce', ?_, hno'⟩
        rw [Slots.get_modify, Function.update_of_ne (hne id ce' hid hno'), hid]

theorem foldl_processCqe_kept (queueFunc : QueueFunc ρ) (cqes : List Cqe) (s : ρ × IOContext) :
    Kept s.2 (cqes.foldl (processCqe queueFunc) s).2 := by
  induction cqes generalizing s with
  | nil => exact .refl s.2
  | cons cqe cqes ih => exact (processCqe_kept queueFunc s cqe).trans (ih _)

theorem processCqes_kept {queueFunc : QueueFunc ρ} {captured : ρ} {res : ρ × IOContext}
    (h : processCqes queueFunc captured ctx = .ok res) : Kept ctx res.2 := by
  unfold processCqes at h
  split at h
  · cases h
  · simp only at h
    split at h
    · cases h
    · rename_i cqes hcqes
      obtain rfl := Except.ok.inj h
      have hkept := foldl_processCqe_kept queueFunc cqes (captured, ctx)
      exact hkept.trans (.of_sq rfl fun id ce hid hno => ⟨ce, hid, hno⟩)

/-- **A turn of `submit` leaves the entries of a session alone**, in the ring and in the table. -/
theorem submitOnce_kept {waitFor : UInt32} {ret : Except Errno UInt32} {turn : SubmitTurn}
    (h : ctx.submitOnce waitFor ret = .ok (turn, ctx')) : Kept ctx ctx' := by
  have hsq : ∀ sq, sq = (ctx.sq.submitAndWait waitFor ret).2 → Kept ctx { ctx with sq } := by
    rintro sq rfl
    refine ⟨fun k hk => ?_, ?_, ?_, fun id ce hid hno => ⟨ce, hid, hno⟩⟩ <;>
      unfold submitAndWait <;> split
    · exact hk
    · exact ⟨hk.lt, hk.mask, hk.entries⟩
    all_goals rfl
  unfold submitOnce at h
  simp only at h
  split at h
  · split at h
    · split at h
      · rename_i ctx₁ hproc
        obtain ⟨-, rfl⟩ := Prod.mk.inj (Except.ok.inj h)
        exact (hsq _ rfl).trans (processCqes_kept hproc)
      · cases h
    · obtain ⟨-, rfl⟩ := Prod.mk.inj (Except.ok.inj h)
      exact hsq _ rfl
  · obtain ⟨-, rfl⟩ := Prod.mk.inj (Except.ok.inj h)
    exact hsq _ rfl
  · obtain ⟨-, rfl⟩ := Prod.mk.inj (Except.ok.inj h)
    exact hsq _ rfl

end IOContext

/-! ## The flags of the last entry -/

/-- Clearing one flag, in the bits of all flags and among those that have a name. -/
theorem clear_link : ∀ f : BitVec 8,
    (f ||| 4#8) &&& (~~~4#8 &&& 63#8) = f &&& ~~~4#8 ↔ f &&& ~~~63#8 = 0#8 := by
  decide +kernel

theorem unlink_flags (f : UInt8) :
    (f ||| SubmissionFlags.IO_LINK) &&& SubmissionFlags.compl SubmissionFlags.IO_LINK =
      f &&& ~~~SubmissionFlags.IO_LINK ↔ f &&& ~~~SubmissionFlags.all = 0 := by
  rw [← UInt8.toBitVec_inj, ← UInt8.toBitVec_inj]
  exact clear_link f.toBitVec

/-! ## What a step does -/

namespace LinkedSession

variable {k : ℕ} {s₀ s t : LinkedSession} {op : Operation} {e : Event}

/-- The steps, without what `submit(0)` does to the rest of the context. -/
inductive StepTo (s : LinkedSession) : Event → LinkedSession → Prop where
  | started {req : Request} {r : Started} {ctx ctx' : IOContext} {cqid : ℕ}
      (hwaits : s.waits = none)
      (hreq : beginRequest s.ctx req = some (.started r ctx))
      (hnew : CompletionFuture.fromCtx ctx = some (cqid, ctx')) :
      StepTo s (.request req) ({ s with ctx := ctx' }.tryFill ⟨r, cqid⟩)
  | rejected {req : Request} : StepTo s (.request req) s
  | retry {consumed : UInt32} {ret : Except Errno UInt32} {op : Operation} {ctx : IOContext}
      (hwaits : s.waits = some op) (hkept : s.ctx.Kept ctx) :
      StepTo s (.enter consumed ret) { s with ctx }
  | submitted {consumed : UInt32} {ret : Except Errno UInt32} {op : Operation} {ctx : IOContext}
      (hwaits : s.waits = some op) (hkept : s.ctx.Kept ctx) :
      StepTo s (.enter consumed ret) ({ s with ctx }.tryFill op)
  | post {cqe : Cqe} : StepTo s (.post cqe) { s with ctx := { s.ctx with cq := s.ctx.cq.post cqe } }

theorem Step.stepTo (hst : Step s e t) : s.StepTo e t := by
  cases e with
  | request req =>
    simp only [Step, next?] at hst
    split at hst
    · cases hst
    · rename_i hwaits
      have hwaits : s.waits = none := by simpa using hwaits
      obtain ⟨begun, hreq, hst⟩ := Option.bind_eq_some_iff.1 hst
      cases begun with
      | started r ctx =>
        obtain ⟨⟨cqid, ctx'⟩, hnew, hst⟩ := Option.bind_eq_some_iff.1 hst
        simp only at hst
        split at hst
        · cases hst
        · obtain rfl := Option.some.inj hst
          exact .started hwaits hreq hnew
      | rejected err buffer =>
        obtain rfl := Option.some.inj hst
        exact .rejected
      | panicked p => cases hst
  | enter consumed ret =>
    obtain ⟨op, hwaits, hst⟩ := Option.bind_eq_some_iff.1 hst
    split at hst
    · have hconsumed : s.ctx.Kept { s.ctx with sq := s.ctx.sq.consume consumed } :=
        ⟨fun k hk => hk.consume consumed, rfl, rfl, fun _ ce hce hno => ⟨ce, hce, hno⟩⟩
      split at hst
      · rename_i ctx hsubmit
        obtain rfl := Option.some.inj hst
        exact .retry hwaits (hconsumed.trans (IOContext.submitOnce_kept hsubmit))
      · rename_i ctx hsubmit
        obtain rfl := Option.some.inj hst
        exact .submitted hwaits (hconsumed.trans (IOContext.submitOnce_kept hsubmit))
      · cases hst
    · cases hst
  | post cqe =>
    obtain rfl := Option.some.inj hst
    exact .post

/-! ## What a session has made -/

theorem slot_eq (h : s.ctx.sq.Sized k) (i : ℕ) : s.slot i = (s.tail.toNat + i) % 2 ^ k :=
  Ring.and_mask_eq_mod h.mask _

/-- Positions less than the ring apart have slots of their own. -/
theorem slot_ne (h : s.ctx.sq.Sized k) {i j : ℕ} (hi : i < 2 ^ k) (hj : j < 2 ^ k) (hne : i ≠ j) :
    s.slot i ≠ s.slot j := by
  rw [slot_eq h, slot_eq h]
  intro heq
  exact hne (Ring.slot_inj hi hj heq)

/-- What has been made of the session that was `s₀` when it was opened. -/
structure Inv (k : ℕ) (s₀ s : LinkedSession) : Prop where
  sized : s.ctx.sq.Sized k
  tail : s.tail = s₀.tail
  length : s.linked.length = s.count
  le : s.count ≤ 2 ^ k
  entries : ∀ i op, s.linked[i]? = some op → s.ctx.sq.sq.sqes (s₀.slot i) =
    link op.r.func (UInt64.ofNat op.cqid) (s₀.ctx.sq.sq.sqes (s₀.slot i))
  others : ∀ p, (∀ i < s.count, p ≠ s₀.slot i) → s.ctx.sq.sq.sqes p = s₀.ctx.sq.sq.sqes p
  unpolled : ∀ op ∈ s.linked ++ s.waits.toList, ∃ ce,
    s.ctx.completions.get op.cqid = some ce ∧ ce.task = NO_TASK_SENTINEL
  cqids : ((s.linked ++ s.waits.toList).map Operation.cqid).Nodup
  room : s.waits = none → s.count ≤ s.ctx.sq.freeSqes

theorem inv_start {ctx : IOContext} (h : ctx.sq.Sized k) : Inv k (start ctx) (start ctx) where
  sized := h
  tail := rfl
  length := rfl
  le := Nat.zero_le _
  entries i op hop := by cases hop
  others p _ := rfl
  unpolled op hop := by cases hop
  cqids := List.nodup_nil
  room _ := Nat.zero_le _

/-- What `submit(0)` does. -/
theorem Inv.kept (h : Inv k s₀ s) (hwaits : s.waits = some op) {ctx : IOContext}
    (hk : s.ctx.Kept ctx) : Inv k s₀ { s with ctx } where
  sized := hk.sized k h.sized
  tail := hk.tail.trans h.tail
  length := h.length
  le := h.le
  entries i op hop := by
    rw [hk.sqes]
    exact h.entries i op hop
  others p hp := by
    rw [hk.sqes]
    exact h.others p hp
  unpolled op hop := by
    obtain ⟨ce, hce, hno⟩ := h.unpolled op hop
    exact hk.unpolled op.cqid ce hce hno
  cqids := h.cqids
  room hnone := by cases hwaits.symm.trans hnone

/-- A request is on its way into `submit_sqe`, with an entry that nobody else has. -/
theorem Inv.begin (h : Inv k s₀ s) (hwaits : s.waits = none) {req : Request} {r : Started}
    {ctx ctx' : IOContext} {cqid : ℕ} (hreq : beginRequest s.ctx req = some (.started r ctx))
    (hnew : CompletionFuture.fromCtx ctx = some (cqid, ctx')) :
    Inv k s₀ { s with ctx := ctx', waits := some ⟨r, cqid⟩ } := by
  obtain ⟨⟨id, completions⟩, hins, hpair⟩ := Option.map_eq_some_iff.1 hnew
  obtain ⟨rfl, rfl⟩ := Prod.mk.inj hpair
  have hctx : ctx.sq = s.ctx.sq ∧ ctx.completions = s.ctx.completions := by
    rcases beginRequest_started hreq with ⟨-, rfl⟩ | ⟨_, _, _, buffers, -, -, -, rfl, -⟩ <;>
      exact ⟨rfl, rfl⟩
  obtain ⟨hsq, hcompletions⟩ := hctx
  rw [hcompletions] at hins
  have hget := Slots.get_insert hins
  have hfree := Slots.get_before_insert hins
  have hold : ∀ op ∈ s.linked, ∃ ce,
      s.ctx.completions.get op.cqid = some ce ∧ ce.task = NO_TASK_SENTINEL := fun op hop =>
    h.unpolled op (List.mem_append_left _ hop)
  have hother : ∀ op ∈ s.linked, op.cqid ≠ id := by
    intro op hop heq
    obtain ⟨ce, hce, -⟩ := hold op hop
    rw [heq, hfree] at hce
    cases hce
  refine ⟨hsq ▸ h.sized, (congrArg (fun q => q.sq.ktail) hsq).trans h.tail, h.length, h.le, ?_, ?_,
    ?_, ?_, fun hnone => by cases hnone⟩
  · intro i op hop
    show ctx.sq.sq.sqes _ = _
    rw [hsq]
    exact h.entries i op hop
  · intro p hp
    show ctx.sq.sq.sqes p = _
    rw [hsq]
    exact h.others p hp
  · intro op hop
    show ∃ ce, completions.get op.cqid = some ce ∧ _
    rw [hget]
    rcases List.mem_append.1 hop with hop | hop
    · rw [Function.update_of_ne (hother op hop)]
      exact hold op hop
    · obtain rfl := List.mem_singleton.1 hop
      rw [Function.update_self]
      exact ⟨_, rfl, rfl⟩
  · have hcqids := h.cqids
    rw [hwaits, Option.toList_none, List.append_nil] at hcqids
    rw [List.map_append, List.nodup_append]
    refine ⟨hcqids, List.nodup_singleton _, ?_⟩
    intro a ha b hb
    obtain ⟨op, hop, rfl⟩ := List.mem_map.1 ha
    obtain rfl := List.mem_singleton.1 hb
    exact hother op hop

/-- An operation gets its slot, the next one behind those that are filled already. -/
theorem Inv.tryFill (h₀ : s₀.ctx.sq.Sized k) (h : Inv k s₀ { s with waits := some op }) :
    Inv k s₀ (s.tryFill op) := by
  unfold LinkedSession.tryFill
  split
  · rename_i ctx hfill
    obtain ⟨sq, completions, hlink, rfl, hget⟩ := fillSlot_eq_some hfill
    obtain ⟨slot, hslot, rfl⟩ := Option.map_eq_some_iff.1 hlink
    obtain ⟨hfree, hposition⟩ : s.count < s.ctx.sq.freeSqes ∧
        slot = (s.ctx.sq.sq.ktail.toNat + s.count) % 2 ^ k :=
      h.sized.slotAt_iff_freeSqes.1 hslot
    have hlt : s.count < 2 ^ k := hfree.trans_le h.sized.freeSqes_le
    have htail : s.ctx.sq.sq.ktail = s₀.tail := h.tail
    obtain rfl : slot = s₀.slot s.count := by rw [hposition, slot_eq h₀, htail]
    have hlength : s.linked.length = s.count := h.length
    have hfresh : s.ctx.sq.sq.sqes (s₀.slot s.count) = s₀.ctx.sq.sq.sqes (s₀.slot s.count) := by
      refine h.others _ fun i hi => ?_
      have hi : i < s.count := hi
      exact slot_ne h₀ hlt (hi.trans hlt) hi.ne'
    refine ⟨h.sized.writeSqe _ _, h.tail, ?_, hlt, ?_, ?_, ?_, ?_, fun _ => hfree⟩
    · rw [List.length_append, hlength]
      rfl
    · intro i op' hop'
      show Function.update s.ctx.sq.sq.sqes _ _ _ = _
      rcases Nat.lt_or_ge i s.count with hi | hi
      · rw [Function.update_of_ne (slot_ne h₀ (hi.trans hlt) hlt hi.ne)]
        rw [List.getElem?_append_left (hlength ▸ hi)] at hop'
        exact h.entries i op' hop'
      · rw [List.getElem?_append_right (hlength ▸ hi), hlength] at hop'
        obtain ⟨hzero, rfl⟩ : i = s.count ∧ op = op' := by
          obtain ⟨hi', hget⟩ := List.getElem?_eq_some_iff.1 hop'
          simp at hi' hget
          exact ⟨by omega, hget⟩
        rw [hzero, Function.update_self, hfresh]
    · intro p hp
      have hne : p ≠ s₀.slot s.count := hp s.count (Nat.lt_succ_self _)
      show Function.update s.ctx.sq.sq.sqes _ _ p = _
      rw [Function.update_of_ne hne]
      exact h.others p fun i hi => hp i (Nat.lt_succ_of_lt hi)
    · intro op' hop'
      show ∃ ce, completions.get op'.cqid = some ce ∧ _
      have hmem : op' ∈ s.linked ++ (some op).toList := by
        rw [Option.toList_none, List.append_nil] at hop'
        exact hop'
      obtain ⟨ce, hce, hno⟩ := h.unpolled op' hmem
      have hce : s.ctx.completions.get op'.cqid = some ce := hce
      rw [hget]
      by_cases hid : op'.cqid = op.cqid
      · rw [hid] at hce
        rw [hid, Function.update_self, hce, Option.map_some]
        exact ⟨_, rfl, hno⟩
      · rw [Function.update_of_ne hid]
        exact ⟨ce, hce, hno⟩
    · rw [Option.toList_none, List.append_nil]
      exact h.cqids
  · exact h

theorem Inv.step (h₀ : s₀.ctx.sq.Sized k) (h : Inv k s₀ s) (hst : Step s e t) : Inv k s₀ t := by
  cases hst.stepTo with
  | started hwaits hreq hnew => exact (h.begin hwaits hreq hnew).tryFill h₀
  | rejected => exact h
  | retry hwaits hkept => exact h.kept hwaits hkept
  | @submitted _ _ op ctx hwaits hkept =>
    have hkept := h.kept hwaits hkept
    rw [hwaits] at hkept
    exact Inv.tryFill (s := { s with ctx }) h₀ hkept
  | post =>
    exact ⟨h.sized, h.tail, h.length, h.le, h.entries, h.others, h.unpolled, h.cqids, h.room⟩

/-! ## What is published -/

/-- `submit` finds the slot of the last operation, and writes nothing else. -/
theorem Inv.submit (h₀ : s₀.ctx.sq.Sized k) (h : Inv k s₀ s) (hwaits : s.waits = none)
    (hn : 1 ≤ s.count) : ∃ ctx, s.submit = some ctx ∧
      ctx.sq.sq.ktail = s₀.tail + UInt32.ofNat s.count ∧ ctx.queued = s.ctx.queued + s.count ∧
      ctx.sq.sq.sqes = Function.update s.ctx.sq.sq.sqes (s₀.slot (s.count - 1))
        (unlink (s.ctx.sq.sq.sqes (s₀.slot (s.count - 1)))) := by
  have hlast : s.ctx.sq.slotAt (s.count - 1) = some (s₀.slot (s.count - 1)) := by
    have hroom := h.room hwaits
    have htail : s.ctx.sq.sq.ktail = s₀.tail := h.tail
    rw [h.sized.slotAt_iff_freeSqes, slot_eq h₀, htail]
    exact ⟨by omega, rfl⟩
  have hne : s.count ≠ 0 := by omega
  have htail : s.ctx.sq.sq.ktail + UInt32.ofNat s.count = s₀.tail + UInt32.ofNat s.count := by
    rw [← h.tail]
    rfl
  unfold LinkedSession.submit publish
  rw [if_pos hne, hlast]
  exact ⟨_, rfl, htail, rfl, rfl⟩

/-- The entry of the last operation is as it should be exactly if it has no nameless flag. -/
theorem unlink_link_iff (func : Sqe → Sqe) (cqid : UInt64) (sqe : Sqe) :
    unlink (link func cqid sqe) =
        { func sqe with
          userData := cqid, flags := (func sqe).flags &&& ~~~SubmissionFlags.IO_LINK } ↔
      (func sqe).flags &&& ~~~SubmissionFlags.all = 0 := by
  rw [← unlink_flags]
  constructor
  · intro h
    exact congrArg Sqe.flags h
  · intro h
    unfold unlink link
    simp only [Sqe.setFlags, Sqe.setUserData, Sqe.addFlags, h]

theorem Inv.always {ctx : IOContext} {l : List (Event × LinkedSession)} (h : ctx.sq.Sized k)
    (hr : Run Step (start ctx) l) : ∀ t ∈ states (start ctx) l, Inv k (start ctx) t :=
  hr.invariant (C := fun _ _ => True) (fun _ _ _ hinv _ hst => hinv.step h hst) (inv_start h)
    fun _ _ => trivial

/-- **A session publishes one chain**, exactly if its last operation sets no flag that
`SubmissionFlags` does not name: whatever is in the ring when the session is opened, and however
often its operations have to wait for the kernel, the tail stays where it is until `submit` moves it
over the operations, which are there in the order of their calls, each with the `cqid` of its own
future, all but the last linked to the next, and no other slot is written. -/
theorem publishesChain_iff {ctx : IOContext} {l : List (Event × LinkedSession)}
    (h : ctx.sq.Sized k) (hr : Run Step (start ctx) l)
    (hwaits : (final (start ctx) l).waits = none) (hn : 1 ≤ (final (start ctx) l).count) :
    (start ctx).PublishesChain l ↔ (start ctx).NamesFlags l := by
  have hall := Inv.always h hr
  have hinv := hall _ (final_mem_states _ _)
  obtain ⟨ctx', hsubmit, htail, hqueued, hsqes⟩ := hinv.submit h hwaits hn
  unfold PublishesChain NamesFlags
  generalize final (start ctx) l = t at *
  have hlast : ∀ op, t.linked[t.count - 1]? = some op →
      (ctx'.sq.sq.sqes ((start ctx).slot (t.count - 1)) =
          { (start ctx).prepared (t.count - 1) op with
            userData := UInt64.ofNat op.cqid
            flags := linkedFlags t.count (t.count - 1)
              ((start ctx).prepared (t.count - 1) op).flags } ↔
        ((start ctx).prepared (t.count - 1) op).flags &&& ~~~SubmissionFlags.all = 0) := by
    intro op hop
    have hend : t.count - 1 + 1 = t.count := by omega
    rw [hsqes, Function.update_self, hinv.entries _ op hop, linkedFlags, if_pos hend]
    exact unlink_link_iff ..
  constructor
  · rintro ⟨-, ctx₁, hsubmit₁, hpub⟩ op hop
    obtain rfl := Option.some.inj (hsubmit.symm.trans hsubmit₁)
    exact (hlast op hop).1 (hpub.entries _ op hop)
  · intro hnames
    refine ⟨fun u hu => (hall u hu).tail, ctx', hsubmit, htail, hqueued, hinv.length, ?_, ?_, ?_⟩
    · intro i op hop
      by_cases hi : i + 1 = t.count
      · obtain rfl : i = t.count - 1 := by omega
        exact (hlast op hop).2 (hnames op hop)
      · have hlt : i < t.count := by
          rw [← hinv.length]
          exact (List.getElem?_eq_some_iff.1 hop).1
        have hle := hinv.le
        have hne : (start ctx).slot i ≠ (start ctx).slot (t.count - 1) :=
          slot_ne (s := start ctx) h (by omega) (by omega) (by omega)
        rw [hsqes, Function.update_of_ne hne, hinv.entries i op hop, linkedFlags, if_neg hi]
        rfl
    · intro p hp
      rw [hsqes, Function.update_of_ne (hp (t.count - 1) (by omega))]
      exact hinv.others p hp
    · have hcqids := hinv.cqids
      have hunpolled := hinv.unpolled
      rw [hwaits, Option.toList_none, List.append_nil] at hcqids hunpolled
      have hbound : ∀ op ∈ t.linked, op.cqid < 2 ^ 64 := by
        intro op hop
        obtain ⟨ce, hce, -⟩ := hunpolled op hop
        have hlt := Slots.lt_of_get hce
        omega
      have hmap : t.linked.map (fun op => UInt64.ofNat op.cqid) =
          (t.linked.map Operation.cqid).map UInt64.ofNat := by
        rw [List.map_map]
        rfl
      rw [hmap]
      refine hcqids.map_on ?_
      intro a ha b hb heq
      obtain ⟨opa, hopa, rfl⟩ := List.mem_map.1 ha
      obtain ⟨opb, hopb, rfl⟩ := List.mem_map.1 hb
      have hnat := congrArg UInt64.toNat heq
      rwa [UInt64.toNat_ofNat_of_lt' (hbound opa hopa),
        UInt64.toNat_ofNat_of_lt' (hbound opb hopb)] at hnat

/-! ## The flags of the requests -/

/-- Only a caller's own `func` can set a flag that has no name. -/
def Event.NamesFlags : Event → Prop
  | .request (.submitSqe func) => ∀ sqe, (func sqe).flags &&& ~~~SubmissionFlags.all = 0
  | _ => True

/-- What the operations have prepared, or are going to. -/
def Named (s : LinkedSession) : Prop :=
  ∀ op ∈ s.linked ++ s.waits.toList, ∀ sqe, (op.r.func sqe).flags &&& ~~~SubmissionFlags.all = 0

theorem beginRequest_named {ctx ctx' : IOContext} {req : Request} {r : Started}
    (h : beginRequest ctx req = some (.started r ctx')) (hreq : (Event.request req).NamesFlags)
    (sqe : Sqe) : (r.func sqe).flags &&& ~~~SubmissionFlags.all = 0 := by
  cases req with
  | submitSqe func =>
    obtain ⟨rfl, -⟩ := Begun.started.inj (Option.some.inj h)
    exact hreq sqe
  | read fd size =>
    obtain ⟨rfl, -⟩ := Begun.started.inj (Option.some.inj h)
    show (SubmissionFlags.BUFFER_SELECT ||| SubmissionFlags.ASYNC) &&& ~~~SubmissionFlags.all = 0
    decide
  | readBuf fd data len =>
    simp only [beginRequest] at h
    split at h
    · obtain ⟨rfl, -⟩ := Begun.started.inj (Option.some.inj h)
      exact UInt8.zero_and
    · cases h
  | writeBuf fd data len =>
    simp only [beginRequest] at h
    split at h
    · obtain ⟨rfl, -⟩ := Begun.started.inj (Option.some.inj h)
      exact UInt8.zero_and
    · cases h
  | provideBuffer buffer =>
    obtain ⟨bufid, -, -, hfunc⟩ := beginRequest_provide h
    rw [hfunc]
    exact UInt8.zero_and

theorem tryFill_operations (s : LinkedSession) (op : Operation) :
    (s.tryFill op).linked ++ (s.tryFill op).waits.toList = s.linked ++ [op] := by
  unfold tryFill
  split
  · exact List.append_nil _
  · rfl

theorem Named.step (h : s.Named) (he : e.NamesFlags) (hst : Step s e t) : t.Named := by
  unfold Named at h ⊢
  cases hst.stepTo with
  | started hwaits hreq hnew =>
    rw [tryFill_operations]
    intro op hop
    rcases List.mem_append.1 hop with hop | hop
    · exact h op (List.mem_append_left _ hop)
    · obtain rfl := List.mem_singleton.1 hop
      exact beginRequest_named hreq he
  | submitted hwaits hkept =>
    rw [hwaits] at h
    rw [tryFill_operations]
    exact h
  | rejected => exact h
  | retry => exact h
  | post => exact h

/-- Sessions of the repository's own operations have no flags without a name. -/
theorem namesFlags_of_events {ctx : IOContext} {l : List (Event × LinkedSession)}
    (hr : Run Step (start ctx) l) (hevents : ∀ p ∈ l, p.1.NamesFlags) :
    (start ctx).NamesFlags l := by
  intro op hop
  have hnil : (start ctx).Named := by
    rintro op hop
    cases hop
  have hnamed := hr.invariant_of_events (fun _ _ _ h he hst => h.step he hst) hnil hevents
    (final (start ctx) l) (final_mem_states _ _)
  exact hnamed op (List.mem_append_left _ (List.mem_of_getElem? hop)) _

/-! ## Sessions on a ring of four entries -/

open World

/-- Three entries are published when the session is opened, so its second read has to wait. -/
def crowded : IOContext :=
  { emptyWorld.rt.ctx with
    sq := { emptyWorld.rt.ctx.sq with sq := { emptyWorld.rt.ctx.sq.sq with ktail := 3 } } }

/-- Two reads in one session, with an event and a call of the kernel between them. -/
def twoReads : List Event :=
  [.request (.read 3 16), .request (.read 4 16), .post ⟨9, 0, 0⟩, .enter 2 (.ok 2)]

theorem twoReads_publishesChain :
    (start crowded).PublishesChain (play next? (start crowded) twoReads) := by
  have hr := run_play next? (start crowded) twoReads
  refine (publishesChain_iff (k := 2) ⟨by decide, rfl, rfl⟩ hr rfl (by decide)).2 ?_
  have hevents : ∀ e ∈ twoReads, e.NamesFlags := by simp [twoReads, Event.NamesFlags]
  exact namesFlags_of_events hr fun p hp => hevents p.1 (fst_mem_of_mem_play hp)

/-- A flag that the kernel may know, but not `SubmissionFlags`. -/
def bareFlag (sqe : Sqe) : Sqe := { sqe with flags := 64 }

/-- **The last entry of a chain loses a flag that its operation has set.** -/
theorem bareFlag_not_publishesChain :
    ¬ ∀ (ctx : IOContext) (k : ℕ) (l : List (Event × LinkedSession)), ctx.sq.Sized k →
      Run Step (start ctx) l → (final (start ctx) l).waits = none →
        1 ≤ (final (start ctx) l).count → (start ctx).PublishesChain l := by
  intro h
  have hr := run_play next? (start emptyWorld.rt.ctx) [.request (.submitSqe bareFlag)]
  obtain ⟨-, ctx, hsubmit, hpub⟩ := h _ 2 _ ⟨by decide, rfl, rfl⟩ hr rfl (by decide)
  obtain rfl := Option.some.inj hsubmit
  have hflags := congrArg Sqe.flags (hpub.entries 0 _ rfl)
  revert hflags
  decide

end LinkedSession

end Hamerkop
