import Hamerkop.Executor.Process

/-!
# What a step does to the tables

A step of the machine is a short sequence of moves: an entry is made, filled,
published, marked or removed, an event is posted or processed, and so on.  `Move`
lists them, each with what is known when it is made, and `World.step_does` takes
every step apart.  An invariant of the tables is then proved once for each
move, without going through the code of the steps again.

The label of a move (`Act`) names the future it is about; `Cause` says which
event, in which state before the step, a move that ends the life of a future
comes from.
-/

namespace Hamerkop

open LinkedSubmitter

namespace IOContext

/-- The pool after the future of a request has resolved. -/
def buffersTaken (ctx : IOContext) (kind : FutureKind) (cqe : Cqe) : Slots (FixedVec UInt8) :=
  match kind with
  | .completion => ctx.buffers
  | .read => match cqe.bufId with
    | some bufid => if cqe.isErr then ctx.buffers else (ctx.buffers.remove bufid.toNat).2
    | none => ctx.buffers
  | .provide bufid _ => if cqe.isErr then (ctx.buffers.remove bufid).2 else ctx.buffers

end IOContext

/-- `resolve` changes nothing but the pool. -/
theorem resolve_ok {ctx ctx' : IOContext} {kind : FutureKind} {cqe : Cqe} {res : Resolved}
    (h : resolve ctx kind cqe = .ok (res, ctx')) :
    ctx' = { ctx with buffers := ctx.buffersTaken kind cqe } := by
  cases kind with
  | completion =>
    simp only [resolve, Except.ok.injEq, Prod.mk.injEq] at h
    exact h.2.symm
  | read =>
    cases herr : cqe.isErr with
    | true =>
      simp only [resolve, Cqe.result_of_isErr herr, Except.ok.injEq, Prod.mk.injEq] at h
      rw [← h.2, IOContext.buffersTaken, herr]
      cases cqe.bufId <;> rfl
    | false =>
      simp only [resolve, Cqe.result_of_not_isErr herr] at h
      cases hid : cqe.bufId with
      | none => simp only [hid, reduceCtorEq] at h
      | some bufid =>
        simp only [hid] at h
        split at h
        · cases h
        · rename_i buf buffers hrem
          simp only [Except.ok.injEq, Prod.mk.injEq] at h
          simp [← h.2, IOContext.buffersTaken, hid, herr, hrem]
  | provide bufid len =>
    cases herr : cqe.isErr with
    | true =>
      simp only [resolve, Cqe.result_of_isErr herr] at h
      split at h
      · cases h
      · rename_i buffer buffers hrem
        simp only [Except.ok.injEq, Prod.mk.injEq] at h
        simp [← h.2, IOContext.buffersTaken, herr, hrem]
    | false =>
      simp only [resolve, Cqe.result_of_not_isErr herr, Except.ok.injEq, Prod.mk.injEq] at h
      simp [← h.2, IOContext.buffersTaken, herr]

/-- When `resolve` panics there was nothing to take out of the pool. -/
theorem resolve_error {ctx : IOContext} {kind : FutureKind} {cqe : Cqe} {p : Panic}
    (h : resolve ctx kind cqe = .error p) : ctx.buffersTaken kind cqe = ctx.buffers := by
  have hremove : ∀ i r,
      ctx.buffers.remove i = (none, r) → (ctx.buffers.remove i).2 = ctx.buffers := by
    intro i r hr
    have hget : ctx.buffers.get i = none := by
      rw [← Slots.remove_fst, hr]
    rw [Slots.remove_of_get_none hget]
  cases kind with
  | completion => rfl
  | read =>
    cases herr : cqe.isErr with
    | true => simp only [resolve, Cqe.result_of_isErr herr, reduceCtorEq] at h
    | false =>
      simp only [resolve, Cqe.result_of_not_isErr herr] at h
      cases hid : cqe.bufId with
      | none => simp only [IOContext.buffersTaken, hid]
      | some bufid =>
        simp only [hid] at h
        split at h
        · rename_i r hr
          simp [IOContext.buffersTaken, hid, herr, hremove _ _ hr]
        · cases h
  | provide bufid len =>
    cases herr : cqe.isErr with
    | true =>
      simp only [resolve, Cqe.result_of_isErr herr] at h
      split at h
      · rename_i r hr
        simp [IOContext.buffersTaken, herr, hremove _ _ hr]
      · cases h
    | false => simp only [resolve, Cqe.result_of_not_isErr herr, reduceCtorEq] at h

namespace Ledger

/-- The buffers after the future of a request has resolved. -/
def bufsTaken (l : Ledger) (kind : FutureKind) (cqe : Cqe) : ℕ → Option BufUse :=
  match kind with
  | .completion => l.bufs
  | .read => match cqe.bufId with
    | some bufid => if cqe.isErr then l.bufs else (l.dropBuf bufid.toNat).bufs
    | none => l.bufs
  | .provide bufid _ => if cqe.isErr then (l.dropBuf bufid).bufs else l.bufs

theorem resolve_eq {l : Ledger} {g : ℕ} {f : Fut} (hg : l.futs g = some f) (kind : FutureKind)
    (cqe : Cqe) :
    l.resolve g kind cqe = { l with
      futs := Function.update l.futs g (some { f with life := .dead, stage := .resolved })
      bufs := l.bufsTaken kind cqe } := by
  simp only [resolve, modifyFut_eq hg, bufsTaken]
  cases kind with
  | completion => rfl
  | read =>
    cases cqe.bufId with
    | none => rfl
    | some bufid => cases cqe.isErr <;> rfl
  | provide bufid len => cases cqe.isErr <;> rfl

end Ledger

/-! ## Moves -/

/-- What is done to the tables, with the parts of it that conditions speak about. -/
inductive Act where
  /-- nothing that the tables depend on -/
  | runtime
  /-- the submission ring, but not what a session has filled -/
  | ring (byKernel : Bool)
  | complete (g : ℕ) (f : Fut) (cqe : Cqe)
  | post (g : ℕ)
  /-- a future, that of this request if it is not made for itself -/
  | create (req : Option Request)
  | openSession
  | fill (g : ℕ)
  | publish
  | abandon (linked : List ℕ) (futs : ℕ → Option Fut)
  | setMustWait (g : ℕ)
  | pending (g : ℕ)
  | ready (g : ℕ)
  | resolve (g : ℕ) (f : Fut) (cqe : Cqe)
  /-- a future is dropped, its event processed -/
  | dropReady (g : ℕ) (f : Fut) (cqe : Cqe)
  /-- a future is dropped, its event not processed -/
  | die (g : ℕ) (f : Fut)
  | beginWait (g : ℕ)
  | cancel (g : ℕ)
  /-- `drop` has waited for its event -/
  | endWait (g : ℕ) (f : Fut) (cqe : Cqe)
  | lose (g : ℕ) (f : Fut)
  | process (intoRunqueue : Bool) (g : ℕ)

namespace World

/-- What happens to the submission ring outside the sessions, by the kernel or not. -/
inductive RingMove (q : SubmissionQueue) (session : Option Session) :
    Bool → SubmissionQueue → Prop
  | consume {count : UInt32} (h : count.toNat ≤ q.unconsumed) :
      RingMove q session true (q.consume count)
  /-- `io_uring_enter` has failed -/
  | failed : RingMove q session false q
  | settle : RingMove q session false q.settle
  /-- `drop` writes its cancellation behind the tail -/
  | cancel (hs : session = none) {slot : ℕ} (hslot : q.slotAt 0 = some slot) (sqe : Sqe) :
      RingMove q session false (q.writeSqe slot sqe)

namespace RingMove

variable {q sq : SubmissionQueue} {session : Option Session} {byKernel : Bool} {k : ℕ}

theorem sized (h : RingMove q session byKernel sq) (hk : q.Sized k) : sq.Sized k := by
  cases h with
  | consume h => exact hk.consume _
  | failed => exact hk
  | settle => exact ⟨hk.lt, hk.mask, hk.entries⟩
  | cancel hs hslot sqe => exact hk.writeSqe _ _

theorem ktail (h : RingMove q session byKernel sq) : sq.sq.ktail = q.sq.ktail := by
  cases h with
  | consume h => rfl
  | failed => rfl
  | settle => rfl
  | cancel hs hslot sqe => rfl

theorem sqes (h : RingMove q session byKernel sq) : session = none ∨ sq.sq.sqes = q.sq.sqes := by
  cases h with
  | consume h => exact .inr rfl
  | failed => exact .inr rfl
  | settle => exact .inr rfl
  | cancel hs hslot sqe => exact .inl hs

end RingMove

/-- The parts of a world that the tables depend on are the same. -/
structure SameTables (w w' : World) : Prop where
  sq : w'.ctx.sq = w.ctx.sq
  cq : w'.ctx.cq = w.ctx.cq
  completions : w'.ctx.completions = w.ctx.completions
  buffers : w'.ctx.buffers = w.ctx.buffers
  session : w'.session = w.session
  call : w'.call = w.call
  ledger : w'.ledger = w.ledger ∨ ∃ task, w'.ledger = w.ledger.pollTask task
  current : ∀ id task, w'.currentTask = some (id, task) → id < 2 ^ 61

/-- An event is processed, its task put into the runqueue or into `woken`. -/
def takeCqe (intoRunqueue : Bool) (w : World) (p : ℕ × Cqe) : World :=
  if intoRunqueue then
    let (runqueue, ctx) := IOContext.takeCqe IOContext.pushRunqueue (w.rt.runqueue, w.ctx) p.2
    { w with rt := { w.rt with ctx, runqueue }, ledger := w.ledger.process p }
  else
    { w.withCtx (IOContext.takeCqe IOContext.pushWoken ((), w.ctx) p.2).2 with
      ledger := w.ledger.process p }

end World

open World

/-- One change of the tables. -/
inductive Move : World → Act → World → Prop
  | runtime {w w' : World} (h : w.SameTables w') : Move w .runtime w'
  | ring {w : World} {sq : SubmissionQueue} {byKernel : Bool}
      (h : RingMove w.ctx.sq w.session byKernel sq) :
      Move w (.ring byKernel) (w.withCtx { w.ctx with sq })
  | complete {w : World} {g : ℕ} {f : Fut} {res : Int32} {flags : UInt32} {ledger : Ledger}
      (hg : w.ledger.futs g = some f) (hl : w.ledger.complete g res flags = some ledger) :
      Move w (.complete g f ⟨f.sqe.userData, res, flags⟩) { w with ledger }
  | post {w : World} {g : ℕ} {f : Fut} {cqe : Cqe} (hg : w.ledger.futs g = some f)
      (hst : f.stage = .completed cqe)
      (hroom : w.ledger.pending.length < w.ctx.cq.cq.kringMask.toNat + 1) :
      Move w (.post g)
        { w.withCtx { w.ctx with cq := w.ctx.cq.post cqe } with ledger := w.ledger.post g cqe }
  | newFuture {w : World} {cqid : ℕ} {ctx : IOContext} (hcall : w.call = .none)
      (hnew : CompletionFuture.fromCtx w.ctx = some (cqid, ctx)) :
      Move w (.create none) { w.withCtx ctx with ledger := w.ledger.create cqid .completion none }
  | request {w : World} {s : Session} {req : Request} {r : Started} {ctx ctx' : IOContext}
      {cqid : ℕ} (hcall : w.call = .none) (hs : w.session = some s)
      (hreq : beginRequest w.ctx req = some (.started r ctx))
      (hnew : CompletionFuture.fromCtx ctx = some (cqid, ctx')) :
      Move w (.create (some req))
        { w.withCtx ctx' with
          call := .slotWait w.ledger.nextFut r
          ledger := w.ledger.create cqid r.kind (r.kind.bufid?.bind ctx'.buffers.get) }
  | openSession {w : World} (hcall : w.call = .none) (hs : w.session = none) :
      Move w .openSession { w with session := some { count := 0, linked := [] } }
  | fill {w : World} {g : ℕ} {f : Fut} {r : Started} {s : Session} {ctx : IOContext}
      (hcall : w.call = .slotWait g r) (hs : w.session = some s) (hg : w.ledger.futs g = some f)
      (hfill : fillSlot w.ctx s.count f.cqid r = some ctx) :
      Move w (.fill g)
        { w.withCtx ctx with
          call := .none
          session := some { count := s.count + 1, linked := s.linked ++ [g] }
          ledger := w.ledger.modifyFut g fun f =>
            { f with stage := .prepared, mustWait := r.mustWait } }
  | publish {w : World} {s : Session} {sq : SubmissionQueue} (hs : w.session = some s)
      (hpub : w.ctx.sq.publish s.count = some sq) (queued : ℕ) :
      Move w .publish
        { w.withCtx { w.ctx with sq, queued } with
          session := none
          ledger := w.ledger.publish
            (s.linked.zip (sq.published w.ctx.sq.sq.ktail s.count)) }
  | abandon {w : World} {s : Session} (hs : w.session = some s) :
      Move w (.abandon s.linked w.ledger.futs)
        { w with session := none, ledger := w.ledger.abandon s.linked }
  | setMustWait {w : World} {g : ℕ} {f : Fut} (hg : w.ledger.futs g = some f)
      (hlive : f.life = .live) (mustWait : Bool) :
      Move w (.setMustWait g)
        { w with ledger := w.ledger.modifyFut g fun f => { f with mustWait } }
  | pending {w : World} {g : ℕ} {f : Fut} {ce : CompletionEvent} {t : ℕ} {task : FutureObj}
      (hcall : w.call = .none) (hg : w.ledger.futs g = some f) (hlive : f.life = .live)
      (hce : w.ctx.completions.get f.cqid = some ce) (hcqe : ce.cqe = none)
      (hcurrent : w.currentTask = some (t, task)) :
      Move w (.pending g)
        { w.withCtx { w.ctx with
            completions := w.ctx.completions.modify f.cqid fun ce => { ce with task := t } } with
          ledger := w.ledger.modifyFut g fun f => { f with polledBy := w.currentTask } }
  | ready {w : World} {g : ℕ} {f : Fut} {ce : CompletionEvent} {cqe : Cqe} {t : ℕ}
      {task : FutureObj} (hcall : w.call = .none) (hg : w.ledger.futs g = some f)
      (hlive : f.life = .live) (hce : w.ctx.completions.get f.cqid = some ce)
      (hcqe : ce.cqe = some cqe) (hcurrent : w.currentTask = some (t, task)) :
      Move w (.ready g)
        { w.withCtx { w.ctx with
            completions := w.ctx.completions.modify f.cqid fun ce => { ce with task := t } } with
          ledger := w.ledger.modifyFut g fun f => { f with polledBy := none } }
  | resolve {w : World} {g : ℕ} {f : Fut} {ce : CompletionEvent} {cqe : Cqe}
      {completions : Slots CompletionEvent} (hcall : w.call = .none)
      (hg : w.ledger.futs g = some f) (hlive : f.life = .live)
      (hkind : f.kind ≠ .completion) (hce : w.ctx.completions.get f.cqid = some ce)
      (hcqe : ce.cqe = some cqe)
      (hget : completions.get = Function.update w.ctx.completions.get f.cqid none) :
      Move w (.resolve g f cqe)
        { w.withCtx { w.ctx with completions, buffers := w.ctx.buffersTaken f.kind cqe } with
          ledger := w.ledger.resolve g f.kind cqe }
  | dropReady {w : World} {g : ℕ} {f : Fut} {ce : CompletionEvent} {cqe : Cqe}
      (hcall : w.call = .none) (hg : w.ledger.futs g = some f) (hlive : f.life = .live)
      (hce : w.ctx.completions.get f.cqid = some ce) (hcqe : ce.cqe = some cqe) :
      Move w (.dropReady g f cqe)
        { w.withCtx { w.ctx with completions := (w.ctx.completions.remove f.cqid).2 } with
          ledger := w.ledger.modifyFut g fun f => { f with life := .dead } }
  | die {w : World} {g : ℕ} {f : Fut} {ce : CompletionEvent} (hcall : w.call = .none)
      (hg : w.ledger.futs g = some f) (hlive : f.life = .live)
      (hce : w.ctx.completions.get f.cqid = some ce) (hcqe : ce.cqe = none)
      (hmustWait : f.mustWait = false) :
      Move w (.die g f)
        { w.withCtx { w.ctx with
            completions := w.ctx.completions.modify f.cqid fun ce =>
              { ce with task := DEAD_TASK_SENTINEL } } with
          ledger := w.ledger.modifyFut g fun f => { f with life := .dead } }
  | beginWait {w : World} {g : ℕ} {f : Fut} {ce : CompletionEvent} (hcall : w.call = .none)
      (hs : w.session = none) (hg : w.ledger.futs g = some f) (hlive : f.life = .live)
      (hce : w.ctx.completions.get f.cqid = some ce) (hcqe : ce.cqe = none)
      (hmustWait : f.mustWait = true) :
      Move w (.beginWait g)
        { w.withCtx { w.ctx with
            completions := w.ctx.completions.modify f.cqid fun ce =>
              { ce with task := NO_TASK_SENTINEL } } with
          call := .dropSlot g
          ledger := w.ledger.modifyFut g fun f => { f with polledBy := none } }
  | cancel {w : World} {g : ℕ} (hcall : w.call = .dropSlot g) :
      Move w (.cancel g) { w with call := .dropWait g }
  | endWait {w : World} {g : ℕ} {f : Fut} {ce : CompletionEvent} {cqe : Cqe}
      (hcall : w.call = .dropWait g) (hg : w.ledger.futs g = some f)
      (hce : w.ctx.completions.get f.cqid = some ce) (hcqe : ce.cqe = some cqe) :
      Move w (.endWait g f cqe)
        { w with
          call := .none
          ledger := w.ledger.modifyFut g fun f => { f with life := .dead } }
  | lose {w : World} {g : ℕ} {f : Fut} (hg : w.ledger.futs g = some f) (hlive : f.life = .live)
      (hcall : w.call = .none ∨ ∃ r, w.call = .slotWait g r) : Move w (.lose g f) (w.loseFut g)
  | process {w : World} {g : ℕ} {f : Fut} {cqe : Cqe} {ce : CompletionEvent}
      {rest : List (ℕ × Cqe)} (intoRunqueue : Bool) (hp : w.ledger.pending = (g, cqe) :: rest)
      (hg : w.ledger.futs g = some f) (hst : f.stage = .posted cqe)
      (hud : cqe.userData.toNat = f.cqid) (hce : w.ctx.completions.get f.cqid = some ce)
      (hok : EntryOk f ce) :
      Move w (.process intoRunqueue g) (w.takeCqe intoRunqueue (g, cqe))

/-! ## Consistency is kept -/

namespace World

/-- Executor and ledger are consistent, and the task that is polled has a slot. -/
structure Consistent (w : World) : Prop where
  tables : Hamerkop.Consistent w.ctx w.ledger w.session w.call
  current : ∀ id task, w.currentTask = some (id, task) → id < 2 ^ 61

/-- A live future has an entry. -/
theorem Consistent.entry {w : World} (h : w.Consistent) {g : ℕ} {f : Fut}
    (hg : w.ledger.futs g = some f) (hlive : f.life = .live) :
    ∃ ce, w.ctx.completions.get f.cqid = some ce ∧ EntryOk f ce :=
  (h.tables.table g f hg (Fut.needsEntry_of_live hlive)).2

/-- Its event is the one in that entry. -/
theorem Consistent.entryOk {w : World} (h : w.Consistent) {g : ℕ} {f : Fut} {ce : CompletionEvent}
    (hg : w.ledger.futs g = some f) (hlive : f.life = .live)
    (hce : w.ctx.completions.get f.cqid = some ce) : EntryOk f ce := by
  obtain ⟨ce', hce', hok⟩ := h.entry hg hlive
  exact Option.some.inj (hce.symm.trans hce') ▸ hok

theorem takeCqe_parts (intoRunqueue : Bool) (w : World) (p : ℕ × Cqe) :
    ∃ (ρ : Type) (queueFunc : IOContext.QueueFunc ρ) (captured : ρ),
      (w.takeCqe intoRunqueue p).ctx = (IOContext.takeCqe queueFunc (captured, w.ctx) p.2).2 ∧
      (w.takeCqe intoRunqueue p).ledger = w.ledger.process p ∧
      (w.takeCqe intoRunqueue p).session = w.session ∧
      (w.takeCqe intoRunqueue p).call = w.call ∧
      (w.takeCqe intoRunqueue p).phase = w.phase := by
  cases intoRunqueue with
  | true => exact ⟨_, IOContext.pushRunqueue, w.rt.runqueue, rfl, rfl, rfl, rfl, rfl⟩
  | false => exact ⟨_, IOContext.pushWoken, (), rfl, rfl, rfl, rfl, rfl⟩

/-- The task that processing an event of a future queues, if any. -/
def queuedTask (f : Fut) (ce : CompletionEvent) : List ℕ :=
  if ce.task = NO_TASK_SENTINEL ∨ f.life = .dead then [] else [ce.task]

/-- What processing an event does for the future it belongs to. -/
theorem takeCqe_eq {w : World} {g : ℕ} {f : Fut} {cqe : Cqe} {ce : CompletionEvent}
    (intoRunqueue : Bool) (hst : f.stage = .posted cqe) (hud : cqe.userData.toNat = f.cqid)
    (hce : w.ctx.completions.get f.cqid = some ce) (hok : EntryOk f ce) :
    ∃ completions,
      w.takeCqe intoRunqueue (g, cqe) = { w with
        rt := { w.rt with
          ctx := { w.ctx with
            cq := w.ctx.cq.advance 1, completions, buffers := w.ctx.buffersAfter f cqe
            woken := w.ctx.woken ++ if intoRunqueue then [] else queuedTask f ce }
          runqueue := w.rt.runqueue ++ if intoRunqueue then queuedTask f ce else [] }
        ledger := w.ledger.process (g, cqe) } ∧
      completions.get = Function.update w.ctx.completions.get f.cqid
        (if f.life = .dead then none else some { ce with cqe := some cqe }) := by
  have hfresh : f.stage ≠ .fresh := by simp [hst]
  cases intoRunqueue with
  | true =>
    obtain ⟨completions, heq, hget⟩ := IOContext.takeCqe_spec
      IOContext.pushRunqueue w.rt.runqueue hce hud hok hfresh
    refine ⟨completions, ?_, hget⟩
    simp only [takeCqe, heq, queuedTask, if_true]
    split <;> simp [IOContext.pushRunqueue]
  | false =>
    obtain ⟨completions, heq, hget⟩ := IOContext.takeCqe_spec
      IOContext.pushWoken () hce hud hok hfresh
    refine ⟨completions, ?_, hget⟩
    simp only [takeCqe, heq, queuedTask, Bool.false_eq_true, if_false]
    split <;> simp [IOContext.pushWoken, withCtx]

/-- What a request will write says what its future needs it to say. -/
theorem funcOk_of_started {ctx ctx' : IOContext} {req : Request} {r : Started} {f : Fut}
    (h : beginRequest ctx req = some (.started r ctx')) (hk : f.kind = r.kind)
    (hb : f.buffer = r.kind.bufid?.bind ctx'.buffers.get) : FuncOk f r.func := by
  intro bufid len hkind
  rcases beginRequest_started h with
    ⟨hnone, -⟩ | ⟨buffer, i, n, buffers, hkind', hins, -, rfl, hfunc⟩
  · rw [hk] at hkind
    rw [hkind] at hnone
    cases hnone
  · rw [hk, hkind'] at hkind
    obtain ⟨rfl, rfl⟩ := FutureKind.provide.inj hkind
    refine ⟨buffer, ?_, fun sqe => ?_⟩
    · rw [hb, hkind']
      show buffers.get i = _
      rw [Slots.get_insert hins, Function.update_self]
    · rw [hfunc]
      exact ⟨UInt16.toUInt16_toUInt64 _, rfl⟩

theorem Consistent.request {w : World} (h : w.Consistent) {req : Request} {r : Started}
    {ctx ctx' : IOContext} {cqid : ℕ}
    (hreq : beginRequest w.ctx req = some (.started r ctx))
    (hnew : CompletionFuture.fromCtx ctx = some (cqid, ctx')) :
    Hamerkop.Consistent ctx' (w.ledger.create cqid r.kind (r.kind.bufid?.bind ctx'.buffers.get))
      w.session (.slotWait w.ledger.nextFut r) := by
  obtain ⟨⟨i, completions⟩, hins, hpair⟩ := Option.map_eq_some_iff.1 hnew
  obtain ⟨rfl, rfl⟩ := Prod.mk.inj hpair
  have hbase : Hamerkop.Consistent ctx w.ledger w.session w.call := by
    rcases beginRequest_started hreq with ⟨-, rfl⟩ | ⟨_, _, _, buffers, -, -, -, rfl, -⟩
    · exact h.tables
    · exact h.tables.withBuffers buffers
  refine hbase.create hins _ _ ⟨_, Function.update_self .., rfl, rfl, rfl, ?_⟩
  exact funcOk_of_started hreq rfl rfl

theorem callOk_none {w : World} (h : w.call = .none) (futs : ℕ → Option Fut) :
    CallOk futs w.session w.call := by
  rw [h]
  trivial

/-- No task has a sentinel for its slot. -/
theorem dead_iff_of_lt {t : ℕ} {life : Life} (ht : t < 2 ^ 61) (hlive : life = .live) :
    t = DEAD_TASK_SENTINEL ↔ life = .dead := by
  simp only [DEAD_TASK_SENTINEL, hlive, reduceCtorEq, iff_false]
  omega

section

variable {w w' : World} {g : ℕ} {f : Fut} {ce : CompletionEvent} {cqe : Cqe}

theorem Consistent.runtime (h : w.Consistent) (hsame : w.SameTables w') : w'.Consistent := by
  have ht := h.tables
  refine ⟨?_, hsame.current⟩
  have hbase : Hamerkop.Consistent w'.ctx w.ledger w.session w.call :=
    ⟨hsame.completions ▸ ht.table, ht.futs, hsame.cq ▸ ht.posts, hsame.sq ▸ ht.linked, ht.call⟩
  rw [hsame.session, hsame.call]
  rcases hsame.ledger with heq | ⟨task, heq⟩
  · exact heq ▸ hbase
  · exact heq ▸ hbase.pollTask task

theorem Consistent.newFuture {cqid : ℕ} {ctx : IOContext} (h : w.Consistent)
    (hcall : w.call = .none) (hnew : CompletionFuture.fromCtx w.ctx = some (cqid, ctx)) :
    ({ w.withCtx ctx with ledger := w.ledger.create cqid .completion none } :
      World).Consistent := by
  obtain ⟨⟨i, completions⟩, hins, hpair⟩ := Option.map_eq_some_iff.1 hnew
  obtain ⟨rfl, rfl⟩ := Prod.mk.inj hpair
  refine ⟨h.tables.create hins _ _ ?_, h.current⟩
  show CallOk _ _ w.call
  rw [hcall]
  trivial

theorem Consistent.fill {r : Started} {s : Session} {ctx : IOContext} (h : w.Consistent)
    (hcall : w.call = .slotWait g r) (hs : w.session = some s) (hg : w.ledger.futs g = some f)
    (hfill : fillSlot w.ctx s.count f.cqid r = some ctx) :
    ({ w.withCtx ctx with
        call := .none
        session := some { count := s.count + 1, linked := s.linked ++ [g] }
        ledger := w.ledger.modifyFut g fun f =>
          { f with stage := .prepared, mustWait := r.mustWait } } : World).Consistent := by
  have ht := h.tables
  rw [hs] at ht
  obtain ⟨f', hg', hlive, hfresh, hkind, hfunc⟩ : CallOk _ _ (.slotWait g r) := hcall ▸ ht.call
  obtain rfl := Option.some.inj (hg.symm.trans hg')
  exact ⟨ht.fill hg hlive hfresh hkind hfunc hfill, h.current⟩

theorem Consistent.setMustWait (h : w.Consistent) (hg : w.ledger.futs g = some f)
    (mustWait : Bool) :
    ({ w with ledger := w.ledger.modifyFut g fun f => { f with mustWait } } :
      World).Consistent := by
  refine ⟨?_, h.current⟩
  rw [Ledger.modifyFut_eq hg]
  refine h.tables.keep hg ?_
    (fun hn => ⟨hn, fun ce hce => hce.congr rfl rfl Iff.rfl rfl rfl⟩)
    (h.tables.call.move hg rfl rfl rfl id)
  exact ⟨rfl, rfl, rfl, rfl, rfl⟩

/-- A live future is polled by the task `t`, which waits for it or not. -/
theorem Consistent.polledBy {t : ℕ} {task : FutureObj} {polledBy : Option (ℕ × FutureObj)}
    (h : w.Consistent) (hcall : w.call = .none) (hg : w.ledger.futs g = some f)
    (hlive : f.life = .live) (hce : w.ctx.completions.get f.cqid = some ce)
    (hcurrent : w.currentTask = some (t, task))
    (hby : ∀ t' task', polledBy = some (t', task') → t' = t) :
    ({ w.withCtx { w.ctx with
        completions := w.ctx.completions.modify f.cqid fun ce => { ce with task := t } } with
      ledger := w.ledger.modifyFut g fun f => { f with polledBy } } :
        World).Consistent := by
  refine ⟨?_, h.current⟩
  rw [Ledger.modifyFut_eq hg]
  refine h.tables.touch hg (.inl hlive) ?_ (Slots.get_modify ..) (fun _ => ?_)
    (callOk_none hcall _)
  · exact ⟨rfl, rfl, rfl, rfl, rfl⟩
  · have hok := h.entryOk hg hlive hce
    have ht := h.current _ _ hcurrent
    rw [hce]
    refine ⟨_, rfl, hok.cqe, hok.action, dead_iff_of_lt ht hlive, fun t' task' hpolled _ => ?_⟩
    obtain rfl := hby t' task' hpolled
    exact ⟨rfl, ht⟩

theorem Consistent.resolve {completions : Slots CompletionEvent}
    {buffers : Slots (FixedVec UInt8)} (h : w.Consistent) (hcall : w.call = .none)
    (hg : w.ledger.futs g = some f) (hlive : f.life = .live)
    (hce : w.ctx.completions.get f.cqid = some ce) (hcqe : ce.cqe = some cqe)
    (hget : completions.get = Function.update w.ctx.completions.get f.cqid none) :
    ({ w.withCtx { w.ctx with completions, buffers } with
      ledger := w.ledger.resolve g f.kind cqe } : World).Consistent := by
  have ht := h.tables
  obtain ⟨time, hst⟩ := (h.entryOk hg hlive hce).processed hcqe
  refine ⟨?_, h.current⟩
  rw [hcall] at ht
  rw [Ledger.resolve_eq hg]
  show Hamerkop.Consistent _ _ w.session w.call
  rw [hcall]
  exact ((ht.resolve hg (.inl hlive) hst hget).withBufs ..).withBuffers _

theorem Consistent.dropReady (h : w.Consistent) (hcall : w.call = .none)
    (hg : w.ledger.futs g = some f) (hlive : f.life = .live)
    (hce : w.ctx.completions.get f.cqid = some ce) (hcqe : ce.cqe = some cqe) :
    ({ w.withCtx { w.ctx with completions := (w.ctx.completions.remove f.cqid).2 } with
      ledger := w.ledger.modifyFut g fun f => { f with life := .dead } } : World).Consistent := by
  obtain ⟨time, hst⟩ := (h.entryOk hg hlive hce).processed hcqe
  refine ⟨?_, h.current⟩
  rw [Ledger.modifyFut_eq hg]
  refine h.tables.touch hg (.inl hlive) ?_ (Slots.get_remove ..) (fun hn => ?_)
    (callOk_none hcall _)
  · exact ⟨rfl, rfl, rfl, rfl, rfl⟩
  · exact absurd hn (Fut.not_needsEntry hst (by simp))

theorem Consistent.die (h : w.Consistent) (hcall : w.call = .none)
    (hg : w.ledger.futs g = some f) (hlive : f.life = .live)
    (hce : w.ctx.completions.get f.cqid = some ce) :
    ({ w.withCtx { w.ctx with
        completions := w.ctx.completions.modify f.cqid fun ce =>
          { ce with task := DEAD_TASK_SENTINEL } } with
      ledger := w.ledger.modifyFut g fun f => { f with life := .dead } } : World).Consistent := by
  refine ⟨?_, h.current⟩
  rw [Ledger.modifyFut_eq hg]
  refine h.tables.touch hg (.inl hlive) ?_ (Slots.get_modify ..) (fun _ => ?_)
    (callOk_none hcall _)
  · exact ⟨rfl, rfl, rfl, rfl, rfl⟩
  · have hok := h.entryOk hg hlive hce
    rw [hce]
    exact ⟨_, rfl, hok.cqe, hok.action, by simp, fun _ _ _ hl => by cases hl⟩

theorem Consistent.beginWait (h : w.Consistent) (hs : w.session = none)
    (hg : w.ledger.futs g = some f) (hlive : f.life = .live)
    (hce : w.ctx.completions.get f.cqid = some ce) :
    ({ w.withCtx { w.ctx with
        completions := w.ctx.completions.modify f.cqid fun ce =>
          { ce with task := NO_TASK_SENTINEL } } with
      call := .dropSlot g
      ledger := w.ledger.modifyFut g fun f => { f with polledBy := none } } :
        World).Consistent := by
  refine ⟨?_, h.current⟩
  rw [Ledger.modifyFut_eq hg]
  refine h.tables.touch hg (.inl hlive) ?_ (Slots.get_modify ..) (fun _ => ?_)
    ⟨hs, _, Function.update_self .., hlive⟩
  · exact ⟨rfl, rfl, rfl, rfl, rfl⟩
  · have hok := h.entryOk hg hlive hce
    rw [hce]
    refine ⟨_, rfl, hok.cqe, hok.action, ?_, fun _ _ hby => by cases hby⟩
    simp [NO_TASK_SENTINEL, DEAD_TASK_SENTINEL, hlive]

theorem Consistent.cancel (h : w.Consistent) (hcall : w.call = .dropSlot g) :
    ({ w with call := .dropWait g } : World).Consistent := by
  have ht := h.tables
  have hc : CallOk _ _ (.dropSlot g) := hcall ▸ ht.call
  exact ⟨⟨ht.table, ht.futs, ht.posts, ht.linked, hc⟩, h.current⟩

theorem Consistent.endWait (h : w.Consistent) (hcall : w.call = .dropWait g)
    (hg : w.ledger.futs g = some f) (hce : w.ctx.completions.get f.cqid = some ce)
    (hcqe : ce.cqe = some cqe) :
    ({ w with
      call := .none
      ledger := w.ledger.modifyFut g fun f => { f with life := .dead } } : World).Consistent := by
  obtain ⟨-, f', hg', hlive⟩ : CallOk _ _ (.dropWait g) := hcall ▸ h.tables.call
  obtain rfl := Option.some.inj (hg.symm.trans hg')
  obtain ⟨time, hst⟩ := (h.entryOk hg hlive hce).processed hcqe
  refine ⟨?_, h.current⟩
  rw [Ledger.modifyFut_eq hg]
  refine h.tables.keep hg ?_ (fun hn => ?_) trivial
  · exact ⟨rfl, rfl, rfl, rfl, rfl⟩
  · exact absurd hn (Fut.not_needsEntry hst (by simp))

theorem Consistent.lose (h : w.Consistent) (hg : w.ledger.futs g = some f)
    (hlive : f.life = .live) : (w.loseFut g).Consistent := by
  refine ⟨?_, h.current⟩
  rw [loseFut, Ledger.modifyFut_eq hg]
  refine h.tables.keep hg ?_ (fun _ => ⟨.inl hlive, fun ce hok => ?_⟩) trivial
  · exact ⟨rfl, rfl, rfl, rfl, rfl⟩
  · exact ⟨hok.cqe, hok.action, by simp [hok.dead, hlive], fun _ _ _ hl => by cases hl⟩

theorem Consistent.process {rest : List (ℕ × Cqe)} (h : w.Consistent) (intoRunqueue : Bool)
    (hp : w.ledger.pending = (g, cqe) :: rest) :
    (w.takeCqe intoRunqueue (g, cqe)).Consistent := by
  obtain ⟨ρ, queueFunc, captured, hctx, hledger, hsession, hcall, hphase⟩ :=
    w.takeCqe_parts intoRunqueue (_, _)
  refine ⟨?_, fun id task hc => h.current id task ?_⟩
  · rw [hctx, hledger, hsession, hcall]
    exact h.tables.take queueFunc captured hp
  · rw [currentTask, hphase] at hc
    exact hc

/-- **Every move keeps executor and ledger consistent.** -/
theorem Consistent.move {a : Act} (h : w.Consistent) (hm : Move w a w') : w'.Consistent := by
  have ht := h.tables
  cases hm with
  | runtime hsame => exact h.runtime hsame
  | ring hring => exact ⟨ht.ofSq (fun _ => hring.sized) hring.ktail hring.sqes, h.current⟩
  | complete hg hl => exact ⟨ht.complete hl, h.current⟩
  | post hg hst hroom => exact ⟨ht.post hg hst hroom, h.current⟩
  | newFuture hcall hnew => exact h.newFuture hcall hnew
  | request hcall hs hreq hnew => exact ⟨h.request hreq hnew, h.current⟩
  | openSession hcall hs =>
    rw [hcall] at ht
    exact ⟨hcall ▸ ht.openSession, h.current⟩
  | fill hcall hs hg hfill => exact h.fill hcall hs hg hfill
  | publish hs hpub queued =>
    rw [hs] at ht
    exact ⟨ht.publish hpub queued, h.current⟩
  | abandon hs =>
    rw [hs] at ht
    exact ⟨ht.abandonSession, h.current⟩
  | setMustWait hg hlive mustWait => exact h.setMustWait hg mustWait
  | pending hcall hg hlive hce hcqe hcurrent =>
    refine h.polledBy hcall hg hlive hce hcurrent fun t' task' hby => ?_
    exact (Prod.mk.inj (Option.some.inj (hcurrent.symm.trans hby))).1.symm
  | ready hcall hg hlive hce hcqe hcurrent =>
    exact h.polledBy hcall hg hlive hce hcurrent fun _ _ hby => by cases hby
  | resolve hcall hg hlive hkind hce hcqe hget => exact h.resolve hcall hg hlive hce hcqe hget
  | dropReady hcall hg hlive hce hcqe => exact h.dropReady hcall hg hlive hce hcqe
  | die hcall hg hlive hce hcqe hmustWait => exact h.die hcall hg hlive hce
  | beginWait hcall hs hg hlive hce hcqe hmustWait => exact h.beginWait hs hg hlive hce
  | cancel hcall => exact h.cancel hcall
  | endWait hcall hg hce hcqe => exact h.endWait hcall hg hce hcqe
  | lose hg hlive hcall => exact h.lose hg hlive
  | process intoRunqueue hp hg hst hud hce hok => exact h.process intoRunqueue hp

end

end World

end Hamerkop
