import Hamerkop.Executor.RingKernel

/-!
# What the kernel finds in the ring

`RingOk` is the invariant of the ring and the two ends of it: the slots hold the
entries of the futures in `queue` as they were published, and what the kernel has read
and not carried out is what was published for futures whose requests are under way.
It fails only in a session that fills the ring to the last slot (`KeepsRing`).

Under it each step of the machine with the ring is a step of the machine of `World`
(`Mirrors.step`), so that `mirrors_of_keepsRing` carries what is proved of the
reachable states of that machine over to this one.
-/

namespace Hamerkop

open Runs LinkedSubmitter

/-! ## The slots of the ring -/

namespace LinkedSlots

variable {k : ℕ} {s : State}

/-- `settle` moves neither counter. -/
theorem Inv.settle (h : Inv k s) : Inv k { s with q := s.q.settle } :=
  ⟨⟨h.sized.lt, h.sized.mask, h.sized.entries⟩, h.room, h.published, h.session⟩

/-- What is published, and what the session has linked, is what the slots hold. -/
theorem Inv.entries (h : Inv k s) : Inv k
    { q := s.q
      session := s.session.map fun o =>
        { count := o.count, linked := s.q.entriesFrom k s.q.sq.ktail o.count }
      published := s.q.entriesFrom k s.q.sq.khead s.q.unconsumed } := by
  refine ⟨h.sized, h.room, rfl, fun o ho => ?_⟩
  obtain ⟨o', ho', rfl⟩ := Option.map_eq_some_iff.1 ho
  exact ⟨(h.session o' ho').1, rfl⟩

/-- What is written behind the tail while no session is open touches nothing. -/
theorem Inv.cancel (h : Inv k s) {slot : ℕ} (hslot : s.q.slotAt 0 = some slot) (sqe : Sqe) :
    Inv k { s with q := s.q.writeSqe slot sqe, session := none } := by
  obtain ⟨hfit, rfl⟩ := (h.sized.slotAt_eq_some h.room).1 hslot
  refine ⟨h.sized.writeSqe _ _, h.room, ?_, fun o ho => by cases ho⟩
  show s.published = Ring.window _ (Function.update _ _ _) _ _
  rw [h.published, h.sized.tail_slot]
  exact (Ring.window_update_of_ne fun j hj => (Ring.slot_ne_of_adjacent hj hfit).symm).symm

end LinkedSlots

namespace World

variable {w w' : World} {k : ℕ} {g : ℕ}

/-- The slots of the ring, as a session leaves them and the kernel finds them. -/
def linkedSlots (w : World) (k : ℕ) : LinkedSlots.State where
  q := w.ctx.sq
  session := w.session.map fun s =>
    { count := s.count, linked := w.ctx.sq.entriesFrom k w.ctx.sq.sq.ktail s.count }
  published := w.ctx.sq.entriesFrom k w.ctx.sq.sq.khead w.ctx.sq.unconsumed

/-- The entry asks for what the request of the future asks for. -/
def Plays (w : World) (g : ℕ) (sqe : Sqe) : Prop :=
  ∃ f, w.ledger.futs g = some f ∧ sqe.poolUse = f.kind.poolUse

/-- The entry is that of the future, and the kernel has not carried it out. -/
def Sends (w : World) (g : ℕ) (sqe : Sqe) : Prop :=
  ∃ f, w.ledger.futs g = some f ∧ f.stage = .published ∧ f.sqe = sqe ∧
    sqe.poolUse = f.kind.poolUse

/-- The requests that are with the kernel stay there, as they are. -/
def KeepsSent (w w' : World) : Prop :=
  ∀ g f, w.ledger.futs g = some f → ∃ f', w'.ledger.futs g = some f' ∧ f'.kind = f.kind ∧
    (f.stage = .published ∨ (∃ cqe, f.stage = .completed cqe) →
      f'.stage = f.stage ∧ f'.sqe = f.sqe)

theorem KeepsSent.plays (h : w.KeepsSent w') {sqe : Sqe} (hp : w.Plays g sqe) : w'.Plays g sqe := by
  obtain ⟨f, hg, huse⟩ := hp
  obtain ⟨f', hg', hk, -⟩ := h g f hg
  exact ⟨f', hg', by rw [hk, huse]⟩

theorem KeepsSent.sends (h : w.KeepsSent w') {sqe : Sqe} (hs : w.Sends g sqe) : w'.Sends g sqe := by
  obtain ⟨f, hg, hst, hsqe, huse⟩ := hs
  obtain ⟨f', hg', hk, hkeep⟩ := h g f hg
  obtain ⟨hst', hsqe'⟩ := hkeep (.inl hst)
  exact ⟨f', hg', hst'.trans hst, hsqe'.trans hsqe, by rw [hk, huse]⟩

theorem KeepsSent.of_futs (h : w'.ledger.futs = w.ledger.futs) : w.KeepsSent w' :=
  fun g f hg => ⟨f, by rw [h, hg], rfl, fun _ => ⟨rfl, rfl⟩⟩

theorem KeepsSent.of_update {f f' : Fut} (hg : w.ledger.futs g = some f)
    (hfuts : w'.ledger.futs = Function.update w.ledger.futs g (some f')) (hk : f'.kind = f.kind)
    (hkeep : f.stage = .published ∨ (∃ cqe, f.stage = .completed cqe) →
      f'.stage = f.stage ∧ f'.sqe = f.sqe) : w.KeepsSent w' := by
  intro g₂ f₂ hg₂
  rw [hfuts]
  by_cases hgg : g₂ = g
  · subst hgg
    obtain rfl := Option.some.inj (hg.symm.trans hg₂)
    exact ⟨f', Function.update_self .., hk, hkeep⟩
  · exact ⟨f₂, (Function.update_of_ne hgg ..).trans hg₂, rfl, fun _ => ⟨rfl, rfl⟩⟩

/-- A field of a future changes that the kernel does not care about. -/
theorem KeepsSent.modifyFut {f : Fut} (hg : w.ledger.futs g = some f) {upd : Fut → Fut}
    (hledger : w'.ledger = w.ledger.modifyFut g upd) (hk : (upd f).kind = f.kind)
    (hst : (upd f).stage = f.stage) (hsqe : (upd f).sqe = f.sqe) : w.KeepsSent w' := by
  refine .of_update hg ?_ hk fun _ => ⟨hst, hsqe⟩
  rw [hledger, Ledger.futs_modifyFut hg]

theorem KeepsSent.create (hc : w.Consistent) {cqid : ℕ} {kind : FutureKind}
    {buffer : Option (FixedVec UInt8)} (hledger : w'.ledger = w.ledger.create cqid kind buffer) :
    w.KeepsSent w' := by
  intro g f hg
  refine ⟨f, ?_, rfl, fun _ => ⟨rfl, rfl⟩⟩
  rw [hledger]
  refine (Function.update_of_ne ?_ ..).trans hg
  rintro rfl
  rw [hc.tables.futs_nextFut] at hg
  cases hg

/-- A move of the executor that publishes nothing. -/
def ByExecutor : Act → Prop
  | .complete _ _ _ | .post _ | .publish => False
  | .ring byKernel => byKernel = false
  | _ => True

/-- **The executor leaves the requests alone that are with the kernel.** -/
theorem Consistent.keepsSent {a : Act} (hc : w.Consistent) (ha : ByExecutor a)
    (hm : Move w a w') : w.KeepsSent w' := by
  cases hm with
  | runtime hsame =>
    refine .of_futs ?_
    rcases hsame.ledger with heq | ⟨task, heq⟩
    · rw [heq]
    · rw [heq]
      rfl
  | ring _ => exact .of_futs rfl
  | complete _ _ => exact ha.elim
  | post _ _ _ => exact ha.elim
  | publish _ _ _ => exact ha.elim
  | newFuture hcall hnew => exact .create hc rfl
  | request hcall hs hreq hnew => exact .create hc rfl
  | openSession _ _ => exact .of_futs rfl
  | fill hcall hs hg hfill =>
    obtain ⟨f', hg', -, hfresh, -⟩ : CallOk _ _ (.slotWait _ _) := hcall ▸ hc.tables.call
    obtain rfl := Option.some.inj (hg.symm.trans hg')
    refine .of_update hg (Ledger.futs_modifyFut hg _) rfl fun hst => ?_
    simp [hfresh] at hst
  | @abandon s hs =>
    have hlinked : Linked _ (some s) _ := hs ▸ hc.tables.linked
    intro g f hg
    rcases Ledger.abandon_futs w.ledger s.linked g with heq | ⟨hmem, heq⟩
    · exact ⟨f, heq.trans hg, rfl, fun _ => ⟨rfl, rfl⟩⟩
    · obtain ⟨f', hg', hprep⟩ := hlinked.prepared hmem
      obtain rfl := Option.some.inj (hg.symm.trans hg')
      rw [hg, Option.map_some] at heq
      refine ⟨_, heq, rfl, fun hst => ?_⟩
      simp [hprep] at hst
  | setMustWait hg hlive mustWait => exact .modifyFut hg rfl rfl rfl rfl
  | pending hcall hg hlive hce hcqe hcurrent => exact .modifyFut hg rfl rfl rfl rfl
  | ready hcall hg hlive hce hcqe hcurrent => exact .modifyFut hg rfl rfl rfl rfl
  | resolve hcall hg hlive hkind hce hcqe hget =>
    obtain ⟨time, hst⟩ := (hc.entryOk hg hlive hce).processed hcqe
    refine .of_update hg (congrArg Ledger.futs (Ledger.resolve_eq hg _ _)) rfl fun h => ?_
    simp [hst] at h
  | dropReady hcall hg hlive hce hcqe => exact .modifyFut hg rfl rfl rfl rfl
  | die hcall hg hlive hce hcqe hmustWait => exact .modifyFut hg rfl rfl rfl rfl
  | beginWait hcall hs hg hlive hce hcqe hmustWait => exact .modifyFut hg rfl rfl rfl rfl
  | cancel _ => exact .of_futs rfl
  | endWait hcall hg hce hcqe => exact .modifyFut hg rfl rfl rfl rfl
  | lose hg hlive hcall => exact .modifyFut hg rfl rfl rfl rfl
  | @process g f cqe ce rest intoRunqueue hp hg hst hud hce hok =>
    obtain ⟨-, -, -, -, hledger, -⟩ := w.takeCqe_parts intoRunqueue (g, cqe)
    have hprocess : w.ledger.process (g, cqe) = _ := Ledger.process_eq hg
    have hfuts := (congrArg Ledger.futs hledger).trans (congrArg Ledger.futs hprocess)
    refine .of_update hg hfuts rfl fun h => ?_
    simp [hst] at h

end World

namespace RingWorld

variable {hs : Hashes} {m m' : RingWorld} {w w' : World} {k : ℕ} {queue : List ℕ}
  {taken : List (Option ℕ × Sqe)} {ready : List (Option ℕ × Cqe)}

/-! ## What the kernel finds is what was published -/

/-- The ring has room for the open session, and its slots hold the entries of these futures as they
were published; the kernel has read the entries of others, and has the events of others. -/
structure RingOk (k : ℕ) (queue : List ℕ) (taken : List (Option ℕ × Sqe))
    (ready : List (Option ℕ × Cqe)) (w : World) : Prop where
  slots : LinkedSlots.Inv k (w.linkedSlots k)
  queued : List.Forall₂ w.Sends queue (w.linkedSlots k).published
  linked : ∀ s, w.session = some s →
    List.Forall₂ w.Plays s.linked (w.ctx.sq.entriesFrom k w.ctx.sq.sq.ktail s.count)
  waits : ∀ g r, w.call = .slotWait g r → ∀ sqe, (r.func sqe).poolUse = r.kind.poolUse
  unfinished : ∀ p ∈ taken, ∃ g, p.1 = some g ∧ w.Sends g p.2
  finished : ∀ p ∈ ready, ∃ g f, p.1 = some g ∧ w.ledger.futs g = some f ∧ f.stage = .completed p.2
  nodup : (queue.map some ++ taken.map Prod.fst).Nodup
  nodupReady : (ready.map Prod.fst).Nodup

/-- The ring stays as it is, and so does what is in it. -/
theorem RingOk.keep (h : RingOk k queue taken ready w) (hkeep : w.KeepsSent w')
    (hslots : LinkedSlots.Inv k (w'.linkedSlots k))
    (hpub : (w'.linkedSlots k).published = (w.linkedSlots k).published)
    (hsession : ∀ s, w'.session = some s →
      List.Forall₂ w'.Plays s.linked (w'.ctx.sq.entriesFrom k w'.ctx.sq.sq.ktail s.count))
    (hcall : ∀ g r, w'.call = .slotWait g r → ∀ sqe, (r.func sqe).poolUse = r.kind.poolUse) :
    RingOk k queue taken ready w' := by
  refine ⟨hslots, ?_, hsession, hcall, fun p hp => ?_, fun p hp => ?_, h.nodup, h.nodupReady⟩
  · rw [hpub]
    exact h.queued.imp fun _ _ => hkeep.sends
  · obtain ⟨g, hpg, hsends⟩ := h.unfinished p hp
    exact ⟨g, hpg, hkeep.sends hsends⟩
  · obtain ⟨g, f, hpg, hg, hst⟩ := h.finished p hp
    obtain ⟨f', hg', -, hkeep⟩ := hkeep g f hg
    exact ⟨g, f', hpg, hg', (hkeep (.inr ⟨_, hst⟩)).1.trans hst⟩

/-- Neither the ring nor the session changes. -/
theorem RingOk.same (h : RingOk k queue taken ready w) (hkeep : w.KeepsSent w')
    (hsq : w'.ctx.sq = w.ctx.sq) (hsession : w'.session = w.session)
    (hcall : ∀ g r, w'.call = .slotWait g r → w.call = .slotWait g r) :
    RingOk k queue taken ready w' := by
  have hslots : w'.linkedSlots k = w.linkedSlots k := by
    unfold World.linkedSlots
    rw [hsq, hsession]
  refine h.keep hkeep (hslots ▸ h.slots) (by rw [hslots]) (fun s hs => ?_)
    fun g r hc => h.waits g r (hcall g r hc)
  rw [hsq]
  exact (h.linked s (hsession ▸ hs)).imp fun _ _ => hkeep.plays

theorem RingOk.ring {sq : SubmissionQueue} (h : RingOk k queue taken ready w)
    (hring : World.RingMove w.ctx.sq w.session false sq) :
    RingOk k queue taken ready (w.withCtx { w.ctx with sq }) := by
  have hkeep : w.KeepsSent (w.withCtx { w.ctx with sq }) := .of_futs rfl
  cases hring with
  | failed => exact h.same hkeep rfl rfl fun _ _ => id
  | settle => exact h.keep hkeep h.slots.settle rfl h.linked h.waits
  | cancel hs hslot sqe =>
    have hslots := h.slots.cancel hslot sqe
    have hpub := hslots.published
    refine h.keep hkeep ?_ hpub.symm (fun s hs' => ?_) h.waits
    · show LinkedSlots.Inv k ⟨_, w.session.map _, _⟩
      rw [hs]
      exact hslots.entries
    · rw [show w.session = some s from hs'] at hs
      cases hs

/-- A session is opened, or dropped. -/
theorem RingOk.withSession {session : Option Session} (h : RingOk k queue taken ready w)
    (hkeep : w.KeepsSent w') (hsq : w'.ctx.sq = w.ctx.sq) (hsession : w'.session = session)
    (hnew : session = none ∨ session = some ⟨0, []⟩) (hcall : w'.call = w.call) :
    RingOk k queue taken ready w' := by
  have hcall' : ∀ g r, w'.call = .slotWait g r → ∀ sqe, (r.func sqe).poolUse = r.kind.poolUse :=
    fun g r hc => h.waits g r (hcall ▸ hc)
  have hpub : (w'.linkedSlots k).published = (w.linkedSlots k).published := by
    unfold World.linkedSlots
    rw [hsq]
  refine h.keep hkeep ?_ hpub (fun s hs => ?_) hcall'
  · unfold World.linkedSlots
    rw [hsq, hsession]
    rcases hnew with rfl | rfl
    · exact h.slots.abandon
    · exact h.slots.openSession
  · rw [hsession] at hs
    rcases hnew with rfl | rfl
    · cases hs
    · obtain rfl := Option.some.inj hs
      exact .nil

/-- A request finds its slot, and fills it behind what the session has filled before. -/
theorem RingOk.fill {g : ℕ} {f : Fut} {r : Started} {s : Session} {ctx : IOContext}
    (h : RingOk k queue taken ready w) (hc : w.Consistent) (hcall : w.call = .slotWait g r)
    (hs : w.session = some s) (hg : w.ledger.futs g = some f)
    (hfill : fillSlot w.ctx s.count f.cqid r = some ctx) (hkeep : w.KeepsSent w')
    (hctx : w'.ctx = ctx) (hcall' : w'.call = .none)
    (hsession : w'.session = some { count := s.count + 1, linked := s.linked ++ [g] }) :
    RingOk k queue taken ready w' := by
  obtain ⟨f', hg', -, -, hkind, -⟩ : CallOk _ _ (.slotWait g r) := hcall ▸ hc.tables.call
  obtain rfl := Option.some.inj (hg.symm.trans hg')
  obtain ⟨sq, completions, hlink, rfl, -⟩ := fillSlot_eq_some hfill
  obtain ⟨slot, hslot, rfl⟩ := Option.map_eq_some_iff.1 hlink
  have ho : (w.linkedSlots k).session =
      some ⟨s.count, w.ctx.sq.entriesFrom k w.ctx.sq.sq.ktail s.count⟩ := by
    unfold World.linkedSlots
    rw [hs, Option.map_some]
  have hslots := h.slots.fill ho hslot
    (SubmissionQueue.link r.func (UInt64.ofNat f.cqid) (w.ctx.sq.sq.sqes slot))
  have hpub := hslots.published
  obtain ⟨-, hlinked⟩ := hslots.session _ rfl
  have hsq : w'.ctx.sq = w.ctx.sq.writeSqe slot
      (SubmissionQueue.link r.func (UInt64.ofNat f.cqid) (w.ctx.sq.sq.sqes slot)) := by rw [hctx]
  refine h.keep hkeep ?_ ?_ (fun s' hs' => ?_) fun g' r' hc' => ?_
  · unfold World.linkedSlots
    rw [hsq, hsession]
    exact hslots.entries
  · unfold World.linkedSlots
    rw [hsq]
    exact hpub.symm
  · obtain rfl := Option.some.inj (hsession.symm.trans hs')
    rw [hsq]
    refine hlinked ▸ List.rel_append ((h.linked s hs).imp fun _ _ => hkeep.plays) (.cons ?_ .nil)
    refine hkeep.plays ⟨f, hg, ?_⟩
    rw [poolUse_link, h.waits g r hcall, hkind]
  · rw [hcall'] at hc'
    cases hc'

/-- A request begins that asks for what it says it asks for. -/
theorem RingOk.request {r : Started} (h : RingOk k queue taken ready w) (hkeep : w.KeepsSent w')
    (hsq : w'.ctx.sq = w.ctx.sq) (hsession : w'.session = w.session) {g : ℕ}
    (hcall : w'.call = .slotWait g r)
    (huse : ∀ sqe, (r.func sqe).poolUse = r.kind.poolUse) : RingOk k queue taken ready w' := by
  have hslots : w'.linkedSlots k = w.linkedSlots k := by
    unfold World.linkedSlots
    rw [hsq, hsession]
  refine h.keep hkeep (hslots ▸ h.slots) (by rw [hslots]) (fun s hs => ?_) fun g' r' hc => ?_
  · rw [hsq]
    exact (h.linked s (hsession ▸ hs)).imp fun _ _ => hkeep.plays
  · obtain ⟨-, rfl⟩ := Call.slotWait.inj (hcall.symm.trans hc)
    exact huse

/-- The requests for buffers, and those of memory of the caller, write what they ask for. -/
theorem poolUse_of_begun {ctx ctx' : IOContext} {req : Request} {r : Started}
    (hreq : beginRequest ctx req = some (.started r ctx'))
    (hfunc : ∀ func, req = .submitSqe func → ∀ sqe, (func sqe).poolUse = .none) (sqe : Sqe) :
    (r.func sqe).poolUse = r.kind.poolUse := by
  cases req with
  | submitSqe func =>
    obtain ⟨rfl, -⟩ := Begun.started.inj (Option.some.inj hreq)
    exact hfunc func rfl sqe
  | read fd size =>
    obtain ⟨rfl, -⟩ := Begun.started.inj (Option.some.inj hreq)
    exact poolUse_readSqe fd size sqe
  | readBuf fd data len =>
    simp only [beginRequest] at hreq
    split at hreq
    · obtain ⟨rfl, -⟩ := Begun.started.inj (Option.some.inj hreq)
      exact poolUse_eq_none (by intro h; cases h) rfl
    · cases hreq
  | writeBuf fd data len =>
    simp only [beginRequest] at hreq
    split at hreq
    · obtain ⟨rfl, -⟩ := Begun.started.inj (Option.some.inj hreq)
      exact poolUse_eq_none (by intro h; cases h) rfl
    · cases hreq
  | provideBuffer buffer =>
    obtain ⟨bufid, hkind, -, hfunc⟩ := beginRequest_provide hreq
    rw [hkind, hfunc]
    rfl

/-- A move of the executor that publishes nothing, in a step that keeps to the rules of the ring. -/
def KeepsEntries : Act → Prop
  | .create (some (.submitSqe func)) => ∀ sqe, (func sqe).poolUse = .none
  | a => World.ByExecutor a

theorem KeepsEntries.byExecutor {a : Act} (h : KeepsEntries a) : World.ByExecutor a := by
  cases a with
  | create req => trivial
  | _ => exact h

/-- **The executor writes to no slot that the kernel has yet to read.** -/
theorem RingOk.move {a : Act} (h : RingOk k queue taken ready w) (hc : w.Consistent)
    (ha : KeepsEntries a) (hm : Move w a w') : RingOk k queue taken ready w' := by
  have hkeep := hc.keepsSent ha.byExecutor hm
  cases hm with
  | runtime hsame => exact h.same hkeep hsame.sq hsame.session fun g r hcall => hsame.call ▸ hcall
  | @ring sq byKernel hring =>
    have hexec : byKernel = false := ha
    subst hexec
    exact h.ring hring
  | complete _ _ => exact ha.elim
  | post _ _ _ => exact ha.elim
  | publish _ _ _ => exact ha.elim
  | newFuture hcall hnew =>
    obtain ⟨⟨i, completions⟩, -, hpair⟩ := Option.map_eq_some_iff.1 hnew
    obtain ⟨-, rfl⟩ := Prod.mk.inj hpair
    exact h.same hkeep rfl rfl fun _ _ => id
  | @request s req r ctx ctx' cqid hcall hs hreq hnew =>
    have hsq : ctx'.sq = w.ctx.sq := by
      obtain ⟨⟨i, completions⟩, -, hpair⟩ := Option.map_eq_some_iff.1 hnew
      obtain ⟨-, rfl⟩ := Prod.mk.inj hpair
      rcases beginRequest_started hreq with ⟨-, rfl⟩ | ⟨_, _, _, buffers, -, -, -, rfl, -⟩
      · rfl
      · rfl
    refine h.request hkeep hsq rfl rfl (poolUse_of_begun hreq ?_)
    rintro func rfl
    exact ha
  | openSession _ _ => exact h.withSession hkeep rfl rfl (.inr rfl) rfl
  | fill hcall hs hg hfill => exact h.fill hc hcall hs hg hfill hkeep rfl rfl rfl
  | abandon _ => exact h.withSession hkeep rfl rfl (.inl rfl) rfl
  | setMustWait hg hlive mustWait => exact h.same hkeep rfl rfl fun _ _ => id
  | pending hcall hg hlive hce hcqe hcurrent => exact h.same hkeep rfl rfl fun _ _ => id
  | ready hcall hg hlive hce hcqe hcurrent => exact h.same hkeep rfl rfl fun _ _ => id
  | resolve hcall hg hlive hkind hce hcqe hget => exact h.same hkeep rfl rfl fun _ _ => id
  | dropReady hcall hg hlive hce hcqe => exact h.same hkeep rfl rfl fun _ _ => id
  | die hcall hg hlive hce hcqe hmustWait => exact h.same hkeep rfl rfl fun _ _ => id
  | beginWait hcall hs hg hlive hce hcqe hmustWait => exact h.same hkeep rfl rfl nofun
  | cancel _ => exact h.same hkeep rfl rfl nofun
  | endWait hcall hg hce hcqe => exact h.same hkeep rfl rfl nofun
  | lose hg hlive hcall => exact h.same hkeep rfl rfl nofun
  | @process g f cqe ce rest intoRunqueue hp hg hst hud hce hok =>
    obtain ⟨completions, heq, -⟩ := World.takeCqe_eq intoRunqueue hst hud hce hok
    obtain ⟨-, -, -, -, -, hsession, hcall, -⟩ := w.takeCqe_parts intoRunqueue (g, cqe)
    exact h.same hkeep (by rw [heq]; rfl) hsession fun _ _ hc => hcall ▸ hc

/-- What the ledger says the kernel holds is changed by the kernel alone. -/
theorem held_move {a : Act} (ha : World.ByExecutor a) (hm : Move w a w') :
    w'.ledger.held = w.ledger.held := by
  cases hm with
  | runtime hsame =>
    rcases hsame.ledger with heq | ⟨task, heq⟩
    · rw [heq]
    · rw [heq]
      rfl
  | complete _ _ => exact ha.elim
  | @abandon s hs =>
    rw [Ledger.abandon_eq]
  | resolve hcall hg hlive hkind hce hcqe hget =>
    show (w.ledger.resolve ..).held = _
    rw [Ledger.resolve_eq hg]
  | @process g f cqe ce rest intoRunqueue hp hg hst hud hce hok =>
    obtain ⟨-, -, -, -, hledger, -⟩ := w.takeCqe_parts intoRunqueue (g, cqe)
    rw [hledger, Ledger.process_eq hg]
  | publish _ _ _ => exact ha.elim
  | _ => rfl

/-- The machine is in a state that the machine of `World` can be in, the slots of the ring hold what
was published, and the kernel holds the buffers that the ledger says it holds. -/
structure Mirrors (hs : Hashes) (k : ℕ) (m : RingWorld) : Prop where
  reachable : World.Reachable hs m.world
  ring : RingOk k m.queue m.taken m.ready m.world
  held : m.held = m.world.ledger.held

/-- A step of the executor that publishes nothing only makes such moves. -/
theorem keepsEntries_of_cause {e : Event} {a : Act} (hkernel : e.isKernel = false)
    (hsubmit : e ≠ .submit) (he : m.KeepsRing (.run e)) (ha : m.world.Cause e a) :
    KeepsEntries a := by
  cases a with
  | ring byKernel =>
    cases byKernel with
    | false => rfl
    | true =>
      obtain ⟨count, rfl⟩ := ha rfl
      cases hkernel
  | complete g f cqe =>
    obtain ⟨rfl, -⟩ := ha
    cases hkernel
  | post g =>
    obtain rfl : e = .post g := ha
    cases hkernel
  | publish => exact absurd ha hsubmit
  | create req =>
    cases req with
    | none => trivial
    | some req =>
      obtain rfl : e = .request req := ha
      cases req with
      | submitSqe func => exact he
      | _ => trivial
  | _ => trivial

/-- The step is one of the machine of `World`, and the states that it leads to mirror each other. -/
def Follows (hs : Hashes) (k : ℕ) (m : RingWorld) (e : RingWorldEvent) (m' : RingWorld) : Prop :=
  ∃ e', m.seen e = some e' ∧ m.world.Step hs e' m'.world ∧ m'.Mirrors hs k

/-- The executor takes a step in which it publishes nothing. -/
theorem Mirrors.run {e : Event} {out : Out} (h : m.Mirrors hs k) (hkernel : e.isKernel = false)
    (hsubmit : e ≠ .submit) (he : m.KeepsRing (.run e))
    (hw : m.world.step hs e = some (out, w')) :
    m.Follows hs k (.run e) { m with world := w' } := by
  have hc := World.Reachable.consistent h.reachable
  obtain ⟨-, hring, hheld⟩ := (hc.step_does hw).keeps
    (I := fun w => RingOk k m.queue m.taken m.ready w ∧ w.ledger.held = m.world.ledger.held)
    (fun w₁ a w₂ hc₁ ha hi hm => by
      have hkeeps := keepsEntries_of_cause hkernel hsubmit he ha
      exact ⟨hi.1.move hc₁ hkeeps hm, (held_move hkeeps.byExecutor hm).trans hi.2⟩)
    hc ⟨h.ring, rfl⟩
  exact ⟨e, rfl, ⟨out, hw⟩, h.reachable.tail ⟨out, hw⟩, hring, h.held.trans hheld.symm⟩

/-- The entries of a session ask for the same when its chain is closed. -/
theorem closeChain_plays {linked : List ℕ} {sqes : List Sqe}
    (h : List.Forall₂ w.Plays linked sqes) :
    List.Forall₂ w.Plays linked (SubmissionQueue.closeChain sqes) := by
  induction h with
  | nil => exact .nil
  | cons hab hrest ih =>
    cases hrest with
    | nil =>
      obtain ⟨f, hg, huse⟩ := hab
      exact .cons ⟨f, hg, (poolUse_unlink _).trans huse⟩ .nil
    | cons _ _ => exact .cons hab ih

theorem sends_of_mem {sqes : List Sqe} (h : List.Forall₂ w.Sends queue sqes) {g : ℕ}
    (hg : g ∈ queue) : ∃ sqe, w.Sends g sqe := by
  induction h with
  | nil => cases hg
  | cons hab hrest ih =>
    rcases List.mem_cons.1 hg with rfl | hg
    · exact ⟨_, hab⟩
    · exact ih hg

/-- No future has two entries with the kernel when a session is published. -/
theorem RingOk.nodup_publish {s : Session} (h : RingOk k queue taken ready w) (hc : w.Consistent)
    (hs : w.session = some s) (hnd : s.linked.Nodup) :
    ((queue ++ s.linked).map some ++ taken.map Prod.fst).Nodup := by
  have hlinked : Linked _ (some s) _ := hs ▸ hc.tables.linked
  have hnot : ∀ g sqe, w.Sends g sqe → g ∉ s.linked := by
    rintro g sqe ⟨f, hg, hst, -⟩ hmem
    obtain ⟨f', hg', hprep⟩ := hlinked.prepared hmem
    obtain rfl := Option.some.inj (hg.symm.trans hg')
    rw [hst] at hprep
    cases hprep
  have hperm : ((queue ++ s.linked).map some ++ taken.map Prod.fst).Perm
      ((queue.map some ++ taken.map Prod.fst) ++ s.linked.map some) := by
    rw [List.map_append, List.append_assoc, List.append_assoc]
    exact List.Perm.append_left _ List.perm_append_comm
  refine hperm.nodup_iff.2 (List.nodup_append.2
    ⟨h.nodup, hnd.map (Option.some_injective _), ?_⟩)
  rintro a ha b hb rfl
  obtain ⟨g, hmem, rfl⟩ := List.mem_map.1 hb
  rcases List.mem_append.1 ha with ha | ha
  · obtain ⟨g', hmem', heq⟩ := List.mem_map.1 ha
    obtain rfl := Option.some.inj heq
    obtain ⟨sqe, hsends⟩ := sends_of_mem h.queued hmem'
    exact hnot _ _ hsends hmem
  · obtain ⟨p, hp, hpg⟩ := List.mem_map.1 ha
    obtain ⟨g', hpg', hsends⟩ := h.unfinished p hp
    obtain rfl := Option.some.inj (hpg'.symm.trans hpg)
    exact hnot _ _ hsends hmem

/-- A session is published, and leaves a slot of the ring free. -/
theorem RingOk.publish {s : Session} {sq : SubmissionQueue} (h : RingOk k queue taken ready w)
    (hc : w.Consistent) (hs : w.session = some s) (hpub : w.ctx.sq.publish s.count = some sq)
    (hroom : w.ctx.sq.unconsumed + s.count < 2 ^ k) (hsq : w'.ctx.sq = sq)
    (hsession : w'.session = none) (hcall : w'.call = w.call)
    (hledger : w'.ledger = w.ledger.publish
      (s.linked.zip (sq.published w.ctx.sq.sq.ktail s.count))) :
    RingOk k (queue ++ s.linked) taken ready w' := by
  subst hsq
  obtain ⟨k', -, hk'⟩ := hc.tables.linked.ring
  obtain ⟨-, hnd, -⟩ := hk' s hs
  have ho : (w.linkedSlots k).session =
      some ⟨s.count, w.ctx.sq.entriesFrom k w.ctx.sq.sq.ktail s.count⟩ := by
    unfold World.linkedSlots
    rw [hs, Option.map_some]
  obtain ⟨hsized, hun, hentries⟩ := h.slots.publish ho hpub
  have hsized₀ : w.ctx.sq.Sized k := h.slots.sized
  obtain ⟨-, hsent⟩ := hsized₀.published_eq hpub
  have hkeep : w.KeepsSent w' := by
    intro g f hg
    rw [hledger]
    rcases Ledger.publish_futs w.ledger (s.linked.zip _) g with heq | ⟨⟨sqe', hmem⟩, sqe, heq⟩
    · exact ⟨f, heq.trans hg, rfl, fun _ => ⟨rfl, rfl⟩⟩
    · have hlinked : Linked _ (some s) _ := hs ▸ hc.tables.linked
      obtain ⟨f', hg', hprep⟩ := hlinked.prepared (List.of_mem_zip hmem).1
      obtain rfl := Option.some.inj (hg.symm.trans hg')
      rw [hg, Option.map_some] at heq
      refine ⟨_, heq, rfl, fun hst => ?_⟩
      simp [hprep] at hst
  have hnew : List.Forall₂ w'.Sends s.linked
      (SubmissionQueue.closeChain (w.ctx.sq.entriesFrom k w.ctx.sq.sq.ktail s.count)) := by
    have hsends := Ledger.publish_sends hnd (closeChain_plays (h.linked s hs))
    unfold World.Sends
    rw [hledger, hsent]
    exact hsends
  refine ⟨?_, ?_, fun s' hs' => ?_, fun g r hc' => h.waits g r (hcall ▸ hc'), fun p hp => ?_,
    fun p hp => ?_, h.nodup_publish hc hs hnd, h.nodupReady⟩
  · unfold World.linkedSlots
    rw [hsession]
    exact ⟨hsized, hun.trans_lt hroom, rfl, fun o ho => by cases ho⟩
  · show List.Forall₂ w'.Sends _ (w'.ctx.sq.entriesFrom k _ _)
    rw [← hentries]
    exact List.rel_append (h.queued.imp fun _ _ => hkeep.sends) hnew
  · rw [hsession] at hs'
    cases hs'
  · obtain ⟨g, hpg, hsends⟩ := h.unfinished p hp
    exact ⟨g, hpg, hkeep.sends hsends⟩
  · obtain ⟨g, f, hpg, hg, hst⟩ := h.finished p hp
    obtain ⟨f', hg', -, hkeep⟩ := hkeep g f hg
    exact ⟨g, f', hpg, hg', (hkeep (.inr ⟨_, hst⟩)).1.trans hst⟩

theorem Mirrors.submit {out : Out} (h : m.Mirrors hs k) (he : m.KeepsRing (.run .submit))
    (hw : m.world.step hs .submit = some (out, w')) :
    m.Follows hs k (.run .submit)
      { m with world := w', queue := m.queue ++ publishes m.world .submit } := by
  have hc := World.Reachable.consistent h.reachable
  have hstep : m.world.Step hs .submit w' := ⟨out, hw⟩
  have hreach := h.reachable.tail hstep
  refine ⟨.submit, rfl, hstep, ?_⟩
  obtain ⟨s, hs', hw⟩ := Option.map_eq_some_iff.1 (Option.ite_none_right_eq_some.1 hw).2
  have hroom : m.world.ctx.sq.unconsumed + s.count < 2 ^ k := by
    have hentries : m.world.ctx.sq.queueSize = 2 ^ k := h.ring.slots.sized.entries
    exact (he s hs').trans_eq hentries
  split at hw
  · rename_i sq hpub
    obtain ⟨-, rfl⟩ := Prod.mk.inj hw
    have hqueue : publishes m.world .submit = s.linked := by
      simp only [publishes, hs', hpub, Option.isSome_some, if_true]
    rw [hqueue]
    refine ⟨hreach, h.ring.publish hc hs' hpub hroom rfl rfl rfl rfl, h.held.trans ?_⟩
    show _ = (m.world.ledger.publish _).held
    rw [Ledger.publish_eq]
  · rename_i hpub
    obtain ⟨-, rfl⟩ := Prod.mk.inj hw
    have hqueue : publishes m.world .submit = [] := by
      simp only [publishes, hs', hpub, Option.isSome_none, Bool.false_eq_true, if_false]
    rw [hqueue, List.append_nil]
    have hm := Move.abandon hs'
    have ha : KeepsEntries (.abandon s.linked m.world.ledger.futs) := trivial
    exact ⟨hreach, h.ring.move hc ha hm, h.held.trans (held_move ha.byExecutor hm).symm⟩

/-! ## The steps of the kernel -/

theorem RingOk.length_queue (h : RingOk k queue taken ready w) :
    queue.length = w.ctx.sq.unconsumed := by
  rw [h.queued.length_eq]
  exact Ring.length_window ..

/-- What the kernel reads from the ring are the entries of the oldest requests. -/
theorem RingOk.read (h : RingOk k m.queue taken ready m.world) {count : ℕ}
    (hcount : count ≤ m.world.ctx.sq.unconsumed) :
    ∀ p ∈ m.read count, ∃ g, p.1 = some g ∧ m.world.Sends g p.2 := by
  intro p hp
  obtain ⟨i, hi, rfl⟩ := List.mem_map.1 hp
  have hi : i < m.queue.length := by
    rw [h.length_queue]
    exact (List.mem_range.1 hi).trans_le hcount
  have hsends := h.queued.get hi (h.queued.length_eq ▸ hi)
  have hmask : m.world.ctx.sq.sq.kringMask.toNat = 2 ^ k - 1 := h.slots.sized.mask
  refine ⟨m.queue[i], List.getElem?_eq_getElem hi, ?_⟩
  show m.world.Sends _ (m.world.ctx.sq.sq.sqes _)
  rw [Ring.and_mask_eq_mod hmask]
  have hentry := Ring.getElem_window (N := 2 ^ k) m.world.ctx.sq.sq.sqes
    m.world.ctx.sq.sq.khead.toNat m.world.ctx.sq.unconsumed (h.queued.length_eq ▸ hi)
  exact hentry ▸ hsends

theorem read_fst {count : ℕ} (hcount : count ≤ m.queue.length) :
    (m.read count).map Prod.fst = (m.queue.take count).map some := by
  refine List.ext_getElem (by simp [RingWorld.read, hcount]) fun i hi hi' => ?_
  have hlt : i < m.queue.length := by simp at hi'; omega
  simp [RingWorld.read, List.getElem?_eq_getElem hlt]

/-- The head moves past the entries that the kernel has read. -/
theorem RingOk.consume {count : UInt32} (h : RingOk k m.queue m.taken ready m.world)
    (hcount : count.toNat ≤ m.world.ctx.sq.unconsumed) :
    RingOk k (m.queue.drop count.toNat) (m.taken ++ m.read count.toNat) ready
      (m.world.withCtx { m.world.ctx with sq := m.world.ctx.sq.consume count }) := by
  have hslots := h.slots.consume hcount
  have hlen := h.length_queue
  refine ⟨?_, ?_, h.linked, h.waits, fun p hp => ?_, h.finished, ?_, h.nodupReady⟩
  · have hentries := hslots.entries
    simp only [World.linkedSlots, Option.map_map] at hentries
    exact hentries
  · have hpub : (m.world.linkedSlots k).published.drop count.toNat =
        ((m.world.withCtx { m.world.ctx with
          sq := m.world.ctx.sq.consume count }).linkedSlots k).published := hslots.published
    rw [← hpub]
    exact List.forall₂_drop _ h.queued
  · rcases List.mem_append.1 hp with hp | hp
    · exact h.unfinished p hp
    · exact h.read hcount p hp
  · have hperm : ((m.queue.drop count.toNat).map some ++
        (m.taken ++ m.read count.toNat).map Prod.fst).Perm
        (m.queue.map some ++ m.taken.map Prod.fst) := by
      rw [List.map_append, read_fst (by omega), ← List.append_assoc]
      refine List.perm_append_comm.trans ?_
      rw [← List.append_assoc, ← List.map_append, List.take_append_drop]
    exact hperm.nodup_iff.2 h.nodup

theorem Mirrors.consume {count : UInt32} (h : m.Mirrors hs k) (hm : m.consume count = some m') :
    m.Follows hs k (.consume count) m' := by
  obtain ⟨⟨out, w'⟩, hw, hm⟩ := Option.map_eq_some_iff.1 hm
  have hstep : m.world.Step hs (.consume count) w' := ⟨out, hw⟩
  simp only [World.consume, Option.ite_none_right_eq_some, Option.some.injEq,
    Prod.mk.injEq] at hw
  obtain ⟨hcount, -, rfl⟩ := hw
  subst hm
  exact ⟨.consume count, rfl, hstep, h.reachable.tail hstep, h.ring.consume hcount, h.held⟩

theorem perm_eraseIdx {α : Type*} {l : List α} {i : ℕ} {a : α} (hi : l[i]? = some a) :
    l.Perm (a :: l.eraseIdx i) := by
  obtain ⟨hlt, rfl⟩ := List.getElem?_eq_some_iff.1 hi
  exact (List.getElem_cons_eraseIdx_perm hlt).symm

theorem sends_update {g g' : ℕ} {f' : Fut} {sqe : Sqe}
    (hfuts : w'.ledger.futs = Function.update w.ledger.futs g (some f')) (hne : g' ≠ g)
    (h : w.Sends g' sqe) : w'.Sends g' sqe := by
  obtain ⟨f, hg, hsent⟩ := h
  exact ⟨f, by rw [hfuts, Function.update_of_ne hne, hg], hsent⟩

theorem plays_update {g g' : ℕ} {f f' : Fut} {sqe : Sqe} (hg : w.ledger.futs g = some f)
    (hfuts : w'.ledger.futs = Function.update w.ledger.futs g (some f')) (hk : f'.kind = f.kind)
    (h : w.Plays g' sqe) : w'.Plays g' sqe := by
  obtain ⟨f₂, hg₂, huse⟩ := h
  by_cases hgg : g' = g
  · subst hgg
    obtain rfl := Option.some.inj (hg.symm.trans hg₂)
    exact ⟨f', by rw [hfuts, Function.update_self], by rw [hk, huse]⟩
  · exact ⟨f₂, by rw [hfuts, Function.update_of_ne hgg, hg₂], huse⟩

/-- An entry that the kernel has read is carried out: its event is ready to be posted. -/
theorem RingOk.complete {i g : ℕ} {f : Fut} {sqe : Sqe} {cqe : Cqe} {ledger : Ledger}
    (h : RingOk k queue taken ready w) (hi : taken[i]? = some (some g, sqe))
    (hg : w.ledger.futs g = some f) (hst : f.stage = .published)
    (hfuts : ledger.futs =
      Function.update w.ledger.futs g (some { f with stage := .completed cqe })) :
    RingOk k queue (taken.eraseIdx i) (ready ++ [(some g, cqe)]) { w with ledger } := by
  have hperm : (queue.map some ++ taken.map Prod.fst).Perm
      (some g :: (queue.map some ++ (taken.eraseIdx i).map Prod.fst)) :=
    (((perm_eraseIdx hi).map Prod.fst).append_left _).trans List.perm_middle
  obtain ⟨hnot, hnodup⟩ := List.nodup_cons.1 (hperm.nodup_iff.1 h.nodup)
  have hready : ∀ p ∈ ready, p.1 ≠ some g := by
    intro p hp hpg
    obtain ⟨g', f', hpg', hg', hst'⟩ := h.finished p hp
    obtain rfl := Option.some.inj (hpg'.symm.trans hpg)
    obtain rfl := Option.some.inj (hg.symm.trans hg')
    rw [hst] at hst'
    cases hst'
  have hkind : ({ f with stage := .completed cqe } : Fut).kind = f.kind := rfl
  refine ⟨h.slots, ?_, fun s hs => ?_, h.waits, fun p hp => ?_, fun p hp => ?_, hnodup, ?_⟩
  · obtain ⟨hlen, hsends⟩ := List.forall₂_iff_zip.1 h.queued
    refine List.forall₂_iff_zip.2 ⟨hlen, fun {g' sqe'} hmem => ?_⟩
    refine sends_update hfuts ?_ (hsends hmem)
    rintro rfl
    exact hnot (List.mem_append_left _ (List.mem_map_of_mem (List.of_mem_zip hmem).1))
  · exact (h.linked s hs).imp fun _ _ => plays_update hg hfuts hkind
  · obtain ⟨g', hpg', hsends⟩ := h.unfinished p (List.mem_of_mem_eraseIdx hp)
    refine ⟨g', hpg', sends_update hfuts ?_ hsends⟩
    rintro rfl
    exact hnot (List.mem_append_right _ (List.mem_map.2 ⟨p, hp, hpg'⟩))
  · rcases List.mem_append.1 hp with hmem | hp
    · obtain ⟨g', f', hpg', hg', hst'⟩ := h.finished p hmem
      have hne : g' ≠ g := by
        rintro rfl
        exact hready p hmem hpg'
      exact ⟨g', f', hpg', by rw [hfuts, Function.update_of_ne hne, hg'], hst'⟩
    · obtain rfl := List.mem_singleton.1 hp
      exact ⟨g, _, rfl, by rw [hfuts, Function.update_self], rfl⟩
  · rw [List.map_append]
    refine List.nodup_append.2 ⟨h.nodupReady, List.nodup_singleton _, ?_⟩
    rintro a ha b hb rfl
    obtain rfl := List.mem_singleton.1 hb
    obtain ⟨p, hp, hpg⟩ := List.mem_map.1 ha
    exact hready p hp hpg

/-- **What the kernel does with an entry from the ring is what the ledger says it does with the
request**: the machine of `World` takes the same step. -/
theorem Mirrors.complete {i : ℕ} {res : Int32} {flags : UInt32} (h : m.Mirrors hs k)
    (hm : m.complete i res flags = some m') : m.Follows hs k (.complete i res flags) m' := by
  obtain ⟨⟨g?, sqe⟩, hi, hm⟩ := Option.bind_eq_some_iff.1 hm
  obtain ⟨held, hheld, hm⟩ := Option.map_eq_some_iff.1 hm
  obtain ⟨g, rfl, f, hg, hst, rfl, huse⟩ : ∃ g, g? = some g ∧ m.world.Sends g sqe :=
    h.ring.unfinished _ (List.mem_of_getElem? hi)
  rw [h.held] at hheld
  obtain ⟨l', hl', hheld'⟩ := Ledger.complete_of_carryOut hg hst huse hheld
  simp only [Option.bind_some, hl', Option.getD_some] at hm
  subst hm
  have hseen : m.seen (.complete i res flags) = some (.complete g res flags) := by
    simp only [seen, hi, Option.bind_some, Option.map_some]
  have hstep : m.world.step hs (.complete g res flags) =
      some (.silent, { m.world with ledger := l' }) := by
    show (m.world.ledger.complete g res flags).map _ = _
    rw [hl', Option.map_some]
  obtain ⟨f', held', bufs, hg', -, -, heq⟩ := Ledger.complete_eq_some hl'
  obtain rfl := Option.some.inj (hg.symm.trans hg')
  exact ⟨_, hseen, ⟨_, hstep⟩, h.reachable.tail ⟨_, hstep⟩,
    h.ring.complete hi hg hst (congrArg Ledger.futs heq), hheld'.symm⟩

/-- The event of a request is posted. -/
theorem RingOk.post {i g : ℕ} {f : Fut} {cqe : Cqe} {cq : CompletionQueue} {ledger : Ledger}
    (h : RingOk k queue taken ready w) (hi : ready[i]? = some (some g, cqe))
    (hg : w.ledger.futs g = some f) (hst : f.stage = .completed cqe)
    (hfuts : ledger.futs =
      Function.update w.ledger.futs g (some { f with stage := .posted cqe })) :
    RingOk k queue taken (ready.eraseIdx i) { w.withCtx { w.ctx with cq } with ledger } := by
  have hperm := (perm_eraseIdx hi).map Prod.fst
  obtain ⟨hnot, hnodup⟩ := List.nodup_cons.1 (hperm.nodup_iff.1 h.nodupReady)
  have hsends : ∀ g' sqe, w.Sends g' sqe →
      World.Sends { w.withCtx { w.ctx with cq } with ledger } g' sqe := by
    intro g' sqe hs
    refine sends_update hfuts ?_ hs
    rintro rfl
    obtain ⟨f', hg', hst', -⟩ := hs
    obtain rfl := Option.some.inj (hg.symm.trans hg')
    rw [hst] at hst'
    cases hst'
  have hkind : ({ f with stage := .posted cqe } : Fut).kind = f.kind := rfl
  refine ⟨h.slots, h.queued.imp hsends, fun s hs => ?_, h.waits, fun p hp => ?_, fun p hp => ?_,
    h.nodup, hnodup⟩
  · exact (h.linked s hs).imp fun _ _ => plays_update hg hfuts hkind
  · obtain ⟨g', hpg', hs⟩ := h.unfinished p hp
    exact ⟨g', hpg', hsends _ _ hs⟩
  · obtain ⟨g', f', hpg', hg', hst'⟩ := h.finished p (List.mem_of_mem_eraseIdx hp)
    have hne : g' ≠ g := by
      rintro rfl
      exact hnot (List.mem_map.2 ⟨p, hp, hpg'⟩)
    exact ⟨g', f', hpg', by rw [hfuts, Function.update_of_ne hne, hg'], hst'⟩

theorem Mirrors.post {i : ℕ} (h : m.Mirrors hs k) (hm : m.post i = some m') :
    m.Follows hs k (.post i) m' := by
  obtain ⟨⟨g?, cqe⟩, hi, hm⟩ := Option.bind_eq_some_iff.1 hm
  obtain ⟨g, f, rfl, hg, hst⟩ : ∃ g f, g? = some g ∧ m.world.ledger.futs g = some f ∧
      f.stage = .completed cqe := h.ring.finished _ (List.mem_of_getElem? hi)
  obtain ⟨hroom, hm⟩ := Option.ite_none_right_eq_some.1 hm
  obtain rfl := Option.some.inj hm
  obtain ⟨k', hposts⟩ := (World.Reachable.consistent h.reachable).tables.posts.ring
  have hcount := hposts.count
  rw [List.length_map] at hcount
  have hledger : m.world.ledger.post g cqe = { m.world.ledger with
      futs := Function.update m.world.ledger.futs g (some { f with stage := .posted cqe })
      posts := m.world.ledger.posts ++ [(g, cqe)] } := by
    rw [Ledger.post, Ledger.modifyFut_eq hg]
  have hseen : m.seen (.post i) = some (.post g) := by
    simp only [seen, hi, Option.bind_some, Option.map_some]
  have hstep : m.world.step hs (.post g) = some (.silent,
      { m.world.withCtx { m.world.ctx with cq := m.world.ctx.cq.post cqe } with
        ledger := m.world.ledger.post g cqe }) := by
    show World.post _ _ = _
    simp only [World.post, hg, Option.map_some, hst]
    rw [if_pos (hcount ▸ hroom)]
  refine ⟨_, hseen, ⟨_, hstep⟩, h.reachable.tail ⟨_, hstep⟩, h.ring.post hi hg hst ?_, ?_⟩
  · show (m.world.ledger.post g cqe).futs = _
    rw [hledger]
  · show m.held = (m.world.ledger.post g cqe).held
    rw [hledger]
    exact h.held

/-! ## Runs -/

/-- A step that keeps to the rules of the ring is one of the machine of `World`. -/
theorem Mirrors.step {e : RingWorldEvent} (h : m.Mirrors hs k) (he : m.KeepsRing e)
    (hm : Step hs m e m') : m.Follows hs k e m' := by
  cases e with
  | consume count => exact h.consume hm
  | complete i res flags => exact h.complete hm
  | post i => exact h.post hm
  | run e =>
    obtain ⟨hkernel, hm⟩ := Option.ite_none_left_eq_some.1 hm
    obtain ⟨⟨out, w'⟩, hw, hm⟩ := Option.map_eq_some_iff.1 hm
    subst hm
    by_cases hsubmit : e = .submit
    · subst hsubmit
      exact h.submit he hw
    · have hqueue : publishes m.world e = [] := by
        cases e with
        | submit => exact absurd rfl hsubmit
        | _ => rfl
      rw [hqueue, List.append_nil]
      exact h.run (Bool.not_eq_true _ ▸ hkernel) hsubmit he hw

theorem Init.mirrors (h : m.Init) : ∃ k, m.Mirrors hs k := by
  obtain ⟨k, hsized⟩ := h.world.sq
  have hun : m.world.ctx.sq.unconsumed = 0 := by
    rw [SubmissionQueue.unconsumed, h.empty]
    simp
  have hpub : (m.world.linkedSlots k).published = [] := by
    show Ring.window _ _ _ m.world.ctx.sq.unconsumed = []
    rw [hun]
    rfl
  refine ⟨k, .init h.world, ⟨⟨hsized, ?_, rfl, fun o ho => ?_⟩, ?_, fun s hs => ?_,
    fun g r hcall => ?_, ?_, ?_, ?_, ?_⟩, ?_⟩
  · show m.world.ctx.sq.unconsumed < _
    rw [hun]
    exact Nat.two_pow_pos k
  · obtain ⟨s, hs, -⟩ := Option.map_eq_some_iff.1 ho
    rw [h.world.session] at hs
    cases hs
  · rw [h.queue, hpub]
    exact .nil
  · rw [h.world.session] at hs
    cases hs
  · rw [h.world.call] at hcall
    cases hcall
  · intro x hx
    rw [h.taken] at hx
    cases hx
  · intro x hx
    rw [h.ready] at hx
    cases hx
  · rw [h.queue, h.taken]
    exact .nil
  · rw [h.ready]
    exact .nil
  · rw [h.held, h.world.ledger]
    rfl

/-- **The kernel finds in the ring what was published**, in every run whose sessions leave a slot
free: every state is one of the machine of `World`, with the kernel holding what the ledger says. -/
theorem mirrors_of_keepsRing {l : List (RingWorldEvent × RingWorld)} (h0 : m.Init)
    (hr : Run (Step hs) m l) (hk : ∀ x ∈ steps m l, x.1.KeepsRing x.2.1) :
    ∃ k, ∀ u ∈ states m l, u.Mirrors hs k := by
  obtain ⟨k, hmirrors⟩ : ∃ k, m.Mirrors hs k := h0.mirrors
  refine ⟨k, hr.invariant (C := KeepsRing) (fun u e u' hi hk hst => ?_) hmirrors hk⟩
  obtain ⟨_, _, _, hmirrors'⟩ := hi.step hk hst
  exact hmirrors'

/-- `KeepsRing`, where it can be evaluated. -/
def keepsRing (m : RingWorld) : RingWorldEvent → Bool
  | .run .submit => m.world.session.all fun s =>
    m.world.ctx.sq.unconsumed + s.count < m.world.ctx.sq.queueSize
  | .run (.request (.submitSqe _)) => false
  | _ => true

theorem KeepsRing.of_keepsRing {e : RingWorldEvent} (h : m.keepsRing e = true) : m.KeepsRing e := by
  cases e with
  | run e =>
    cases e with
    | submit =>
      intro s hs
      rw [keepsRing, hs, Option.all_some] at h
      exact of_decide_eq_true h
    | request r =>
      cases r with
      | submitSqe func => cases h
      | _ => trivial
    | _ => trivial
  | _ => trivial

/-! ## A session that fills the ring -/

/-- An empty ring of four entries. -/
def emptyRing : RingWorld where
  world := World.emptyWorld
  queue := []
  taken := []
  ready := []
  held := []

theorem emptyRing_init : emptyRing.Init := ⟨World.emptyWorld_init, rfl, rfl, rfl, rfl, rfl⟩

/-- The request to provide a buffer at this address. -/
def provide (ptr : UInt64) : RingWorldEvent :=
  .run (.request (.provideBuffer ⟨ptr, List.replicate 16 none, 0⟩))

/-- A session fills the ring, and the next one is given its first slot. -/
def fullRing : List RingWorldEvent :=
  [.run .openSession, provide 4096, provide 8192, provide 12288, provide 16384, .run .submit,
    .run .openSession, provide 20480, .run .submit,
    .consume 4, .consume 1, .complete 0 0 0, .complete 3 0 0]

/-- **The kernel may be given a buffer twice** when a session fills the ring: it finds the last of
the five entries in the slot of the first, and in its own. -/
theorem fullRing_providesTwice :
    ∃ l, Run (Step ⟨id, id⟩) emptyRing l ∧ ¬ ((final emptyRing l).held.map Prod.fst).Nodup := by
  refine ⟨play (step ⟨id, id⟩) emptyRing fullRing, run_play _ _ _, ?_⟩
  have hheld : (final emptyRing (play (step ⟨id, id⟩) emptyRing fullRing)).held =
    [(4, 20480), (4, 20480)] := rfl
  rw [hheld]
  decide

end RingWorld

end Hamerkop
