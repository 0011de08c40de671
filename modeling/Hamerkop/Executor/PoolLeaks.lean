import Hamerkop.Executor.Pool

/-!
# Buffers chosen by a read leave the pool, unless the read is dropped

The buffer in the event of a read is taken out of the table only when the future
of the read resolves with success.  When the future is dropped instead, or the
event is an error, nobody takes it out: the kernel has given the buffer up, and
it stays in the table for good.  A request to provide a buffer has the same fault
when its session is abandoned, and when it fails and its future is dropped after
its event was processed.

These are all: a step that is none of these keeps `PoolInv` (`PoolInv.step`), under
which the table has exactly the buffers that the kernel holds, that are in a request
under way, or that belong to a read whose future is alive.
-/

namespace Hamerkop

open Runs LinkedSubmitter

namespace Fut

/-- The request of this future to provide a buffer is under way. -/
def Requesting (f : Fut) : Prop :=
  match f.stage with
  | .fresh | .prepared => f.life = .live
  | .abandoned | .resolved => False
  | .published => f.life ≠ .lost
  | .completed cqe | .posted cqe => cqe.isErr = true ∧ f.life ≠ .lost
  | .processed cqe _ => cqe.isErr = true ∧ f.life = .live

/-- The kernel has handed this buffer to the future, which is alive. -/
def Handed (f : Fut) (b : ℕ) : Prop :=
  f.kind = .read ∧ f.life = .live ∧
    ∃ cqe bid, f.stage.event? = some cqe ∧ cqe.bufId = some bid ∧ bid.toNat = b

/-- No buffer is lost if the future is dropped now: the kernel has not handed it one, and if it is
to provide one then its request is published and has not been seen to fail. -/
def KeepsBuffer (f : Fut) : Prop :=
  (f.kind = .read → ∀ cqe, f.stage.event? = some cqe → cqe.bufId = none) ∧
    (f.kind.bufid? ≠ none → f.Outstanding ∨
      ∃ cqe time, f.stage = .processed cqe time ∧ cqe.isErr = false)

theorem Requesting.providing {f : Fut} (h : f.Requesting) : f.Providing := by
  obtain ⟨_, _, _, _, _, stage, _, _⟩ := f
  cases stage with
  | abandoned => exact h.elim
  | resolved => exact h.elim
  | completed cqe => exact h.1
  | posted cqe => exact h.1
  | processed cqe time => exact h
  | _ => trivial

/-- A request under way stays so when its future is dropped while it is outstanding. -/
theorem Requesting.dropped {f : Fut} (h : f.Requesting)
    (hout : f.Outstanding ∨ ∃ cqe time, f.stage = .processed cqe time ∧ cqe.isErr = false) :
    ({ f with life := .dead } : Fut).Requesting := by
  rcases hout with (hst | ⟨cqe, hst | hst⟩) | ⟨cqe, time, hst, hok⟩
  · simp [Requesting, hst]
  · simp only [Requesting, hst] at h ⊢
    exact ⟨h.1, nofun⟩
  · simp only [Requesting, hst] at h ⊢
    exact ⟨h.1, nofun⟩
  · simp only [Requesting, hst] at h
    rw [hok] at h
    cases h.1

end Fut

/-- Somebody will take this buffer out of where it is. -/
def UsedIn (l : Ledger) (b : ℕ) : Place → Prop
  | .requested g => ∃ f len, l.futs g = some f ∧ f.kind = .provide b len ∧ f.Requesting
  | .held => ∃ p ∈ l.held, p.1.toNat = b
  | .handed g => ∃ f, l.futs g = some f ∧ f.Handed b

/-- Every buffer of the pool is used. -/
def BufsUsed (l : Ledger) : Prop := ∀ b u, l.bufs b = some u → UsedIn l b u.place

namespace BufsUsed

variable {l l' : Ledger} {g : ℕ} {f f' : Fut}

/-- Buffers are taken out, and futures move on without losing theirs. -/
theorem mapFuts (h : BufsUsed l) (hbufs : ∀ b u, l'.bufs b = some u → l.bufs b = some u)
    (hheld : l'.held = l.held)
    (hfuts : ∀ g f, l.futs g = some f → ∃ f', l'.futs g = some f' ∧ f'.kind = f.kind ∧
      ∀ b u, l'.bufs b = some u →
        (u.place = .requested g → f.kind.bufid? = some b → f.Requesting → f'.Requesting) ∧
        (u.place = .handed g → f.Handed b → f'.Handed b)) : BufsUsed l' := by
  rintro b ⟨buffer, place⟩ hb
  have hu := h b _ (hbufs b _ hb)
  cases place with
  | requested g =>
    obtain ⟨f, len, hg, hk, hreq⟩ := hu
    obtain ⟨f', hg', hk', hf⟩ := hfuts g f hg
    exact ⟨f', len, hg', hk'.trans hk, (hf b _ hb).1 rfl (by rw [hk]; rfl) hreq⟩
  | held =>
    obtain ⟨p, hp, hpb⟩ := hu
    exact ⟨p, hheld ▸ hp, hpb⟩
  | handed g =>
    obtain ⟨f, hg, hhanded⟩ := hu
    obtain ⟨f', hg', -, hf⟩ := hfuts g f hg
    exact ⟨f', hg', (hf b _ hb).2 rfl hhanded⟩

theorem mapFut (h : BufsUsed l) (hg : l.futs g = some f)
    (hbufs : ∀ b u, l'.bufs b = some u → l.bufs b = some u) (hheld : l'.held = l.held)
    (hfuts : l'.futs = Function.update l.futs g (some f')) (hk : f'.kind = f.kind)
    (hreq : ∀ b u, l'.bufs b = some u → u.place = .requested g → f.kind.bufid? = some b →
      f.Requesting → f'.Requesting)
    (hhanded : ∀ b u, l'.bufs b = some u → u.place = .handed g → f.Handed b → f'.Handed b) :
    BufsUsed l' := by
  refine h.mapFuts hbufs hheld fun g₂ f₂ hg₂ => ?_
  rw [hfuts]
  by_cases hgg : g₂ = g
  · subst hgg
    obtain rfl := Option.some.inj (hg.symm.trans hg₂)
    exact ⟨f', Function.update_self .., hk, fun b u hb => ⟨hreq b u hb, hhanded b u hb⟩⟩
  · exact ⟨f₂, (Function.update_of_ne hgg ..).trans hg₂, rfl,
      fun _ _ _ => ⟨fun _ _ => id, fun _ => id⟩⟩

/-- A future changes in a way that does not concern its buffer. -/
theorem modifyFut (h : BufsUsed l) (hg : l.futs g = some f) {upd : Fut → Fut}
    (hk : (upd f).kind = f.kind) (hreq : f.kind.bufid? ≠ none → f.Requesting → (upd f).Requesting)
    (hhanded : ∀ b, f.Handed b → (upd f).Handed b) : BufsUsed (l.modifyFut g upd) :=
  h.mapFut hg (fun _ _ hb => hb) rfl (Ledger.futs_modifyFut hg _) hk
    (fun _ _ _ _ hb hf => hreq (by rw [hb]; nofun) hf) fun b _ _ _ => hhanded b

/-- A future is created. -/
theorem create (h : BufsUsed l) (hnew : l.futs l.nextFut = none) {cqid : ℕ} {kind : FutureKind}
    {buffer : Option (FixedVec UInt8)} : BufsUsed (l.create cqid kind buffer) := by
  have hne : ∀ {g f}, l.futs g = some f → (l.create cqid kind buffer).futs g = some f := by
    intro g f hg
    refine (Function.update_of_ne ?_ ..).trans hg
    rintro rfl
    rw [hnew] at hg
    cases hg
  have hold : ∀ b u, l.bufs b = some u → UsedIn (l.create cqid kind buffer) b u.place := by
    rintro b ⟨buffer', place⟩ hb
    have hu := h b _ hb
    cases place with
    | requested g =>
      obtain ⟨f, len, hg, hrest⟩ := hu
      exact ⟨f, len, hne hg, hrest⟩
    | held => exact hu
    | handed g =>
      obtain ⟨f, hg, hrest⟩ := hu
      exact ⟨f, hne hg, hrest⟩
  intro b u hb
  cases kind with
  | completion => exact hold b u hb
  | read => exact hold b u hb
  | provide bufid len =>
    cases buffer with
    | none => exact hold b u hb
    | some buffer =>
      simp only [Ledger.create] at hb
      by_cases hbb : b = bufid
      · subst hbb
        rw [Function.update_self, Option.some.injEq] at hb
        subst hb
        exact ⟨_, len, Function.update_self .., rfl, rfl⟩
      · rw [Function.update_of_ne hbb] at hb
        exact hold b u hb

/-- A buffer moves, together with the future `g` it was or is going to be with. -/
theorem moveBuf (h : BufsUsed l) {b₀ : ℕ} {place : Place} (hg : l.futs g = some f)
    (hfuts : l'.futs = Function.update l.futs g (some f'))
    (hbufs : l'.bufs = (l.moveBuf b₀ place).bufs)
    (hheld : ∀ p ∈ l.held, p.1.toNat ≠ b₀ → p ∈ l'.held)
    (hreq : ∀ b, f.kind.bufid? = some b → b = b₀) (hhanded : ∀ b, ¬ f.Handed b)
    (hnew : UsedIn l' b₀ place) : BufsUsed l' := by
  rintro b ⟨buffer, place'⟩ hb
  rw [hbufs, Ledger.moveBuf] at hb
  by_cases hbb : b = b₀
  · subst hbb
    simp only [Function.update_self] at hb
    obtain ⟨u₀, -, hu₀⟩ := Option.map_eq_some_iff.1 hb
    rw [← hu₀]
    exact hnew
  · simp only [Function.update_of_ne hbb] at hb
    have hu := h b _ hb
    have hne : ∀ {g₂ f₂}, l.futs g₂ = some f₂ → (g₂ = g → f₂ = f → False) →
        l'.futs g₂ = some f₂ := by
      intro g₂ f₂ hg₂ hnot
      rw [hfuts]
      refine (Function.update_of_ne (fun hgg => hnot hgg ?_) ..).trans hg₂
      rw [hgg, hg, Option.some.injEq] at hg₂
      exact hg₂.symm
    cases place' with
    | requested g₂ =>
      obtain ⟨f₂, len, hg₂, hk, hrest⟩ := hu
      refine ⟨f₂, len, hne hg₂ fun _ heq => hbb (hreq b ?_), hk, hrest⟩
      rw [← heq, hk]
      rfl
    | held =>
      obtain ⟨p, hp, hpb⟩ := hu
      exact ⟨p, hheld p hp (hpb ▸ hbb), hpb⟩
    | handed g₂ =>
      obtain ⟨f₂, hg₂, hrest⟩ := hu
      exact ⟨f₂, hne hg₂ fun _ heq => hhanded b (heq ▸ hrest), hrest⟩

/-- The kernel carries out a request, and hands no buffer to a read that is gone. -/
theorem complete {buffers : Slots (FixedVec UInt8)} (h : BufsUsed l) (hp : Pool buffers l)
    {cqe : Cqe} (hg : l.futs g = some f) (hsqe : SqeOk f f.sqe) (hst : f.stage = .published)
    (hgone : f.kind = .read → f.life ≠ .live → cqe.bufId = none)
    {held : List (UInt16 × UInt64)} {bufs : ℕ → Option BufUse}
    (ht : l.Transfer g f cqe held bufs) :
    BufsUsed { l with
      futs := Function.update l.futs g (some { f with stage := .completed cqe })
      held, bufs } := by
  have hnone : ∀ b, ¬ f.Handed b := by
    rintro b ⟨-, -, cqe', bid, hev, -⟩
    rw [hst] at hev
    cases hev
  cases ht with
  | none hprovide hread =>
    refine h.mapFut hg (fun _ _ hb => hb) rfl rfl rfl (fun b _ _ _ hb hf => ?_)
      fun b _ _ _ hf => (hnone b hf).elim
    simp only [Fut.Requesting, hst] at hf
    exact ⟨hprovide (by rw [hb]; rfl), hf⟩
  | given hprovide hok =>
    obtain ⟨bufid, hbufid⟩ := Option.isSome_iff_exists.1 hprovide
    obtain ⟨len, hk⟩ := FutureKind.eq_provide hbufid
    obtain ⟨buffer, -, hu⟩ := (hp.futs g f hg).requested bufid len hk
      (by simp [Fut.Providing, hst])
    have hb : f.sqe.bid.toNat = bufid := by rw [(hsqe.buffer bufid len hk).1, hp.toNat_ofNat hu]
    refine h.moveBuf hg rfl rfl (fun p hp _ => List.mem_cons_of_mem _ hp) (fun b hkb => ?_) hnone
      ⟨_, List.mem_cons_self .., rfl⟩
    rw [hb]
    rw [hk] at hkb
    exact (Option.some.inj hkb).symm
  | @handed p hread hmem hbid =>
    refine h.moveBuf hg rfl rfl (fun q hq hne => ?_) (fun b hkb => ?_) hnone
      ⟨_, Function.update_self .., hread, ?_, cqe, p.1, rfl, hbid, rfl⟩
    · refine (List.mem_erase_of_ne ?_).2 hq
      rintro rfl
      exact hne rfl
    · rw [hread] at hkb
      cases hkb
    · by_contra hlife
      rw [hgone hread hlife] at hbid
      cases hbid

end BufsUsed

namespace World

variable {hs : Hashes} {w w' : World}

/-- The buffers of the pool are exactly those that the kernel holds, that are in a request under
way, or that belong to a read whose future is alive; none is left of a read whose future has
resolved or been dropped. -/
structure BuffersLeave (w : World) : Prop where
  exact : ∀ b, (w.ctx.buffers.get b).isSome ↔ (∃ p ∈ w.ledger.held, p.1.toNat = b) ∨
    (∃ g f len, w.ledger.futs g = some f ∧ f.kind = .provide b len ∧ f.Requesting) ∨
    ∃ g f, w.ledger.futs g = some f ∧ f.Handed b
  released : ∀ g f, w.ledger.futs g = some f → f.kind = .read → f.life ≠ .live →
    ∀ b u, w.ledger.bufs b = some u → u.place ≠ .handed g

/-- None of these futures is that of a request to provide a buffer. -/
def ProvidesNone (futs : ℕ → Option Fut) (linked : List ℕ) : Prop :=
  ∀ g ∈ linked, ∀ f, futs g = some f → f.kind.bufid? = none

/-- The step loses no buffer: the kernel hands none to a read whose future is gone; no request to
provide one is abandoned, or turned down while it waits for a slot; no read resolves to an error
that carries one; and no future is dropped that has one, or in a session. -/
def KeepsBuffers (w : World) : Event → Prop
  | .complete g res flags => ∀ f, w.ledger.futs g = some f → f.kind = .read → f.life ≠ .live →
    ({ userData := f.sqe.userData, res, flags } : Cqe).bufId = none
  | .abandon => ∀ s, w.session = some s → ProvidesNone w.ledger.futs s.linked
  | .submit => ∀ s, w.session = some s → w.ctx.sq.publish s.count = none →
    ProvidesNone w.ledger.futs s.linked
  | .poll g => ∀ f cqe time, w.ledger.futs g = some f → f.kind = .read →
    f.stage = .processed cqe time → cqe.isErr = true → cqe.bufId = none
  | .drop g => ∀ f, w.ledger.futs g = some f →
    f.kind = .completion ∨ w.session = none ∧ f.KeepsBuffer
  | .enter ret =>
    (∀ errno, ret = .error errno → IOContext.isBusy errno = false →
      ∀ g r, w.call = .slotWait g r → r.kind.bufid? = none) ∧
    ((∀ errno, ret = .error errno → IOContext.isBusy errno = false) →
      ∀ g f, w.call = .dropWait g → w.ledger.futs g = some f →
        ∀ cqe time, f.stage = .processed cqe time → f.KeepsBuffer)
  | _ => True

/-- The moves of such a step. -/
def KeepsBuffer : Act → Prop
  | .complete _ f cqe => f.kind = .read → f.life ≠ .live → cqe.bufId = none
  | .abandon linked futs => ProvidesNone futs linked
  | .resolve _ f cqe => f.kind = .read → cqe.isErr = true → cqe.bufId = none
  | .dropReady _ f _ | .die _ f | .endWait _ f _ => f.KeepsBuffer
  | .lose _ f => f.kind = .completion ∨ f.kind.bufid? = none ∧ f.stage = .fresh
  | _ => True

/-! ## Moves -/

end World

namespace BufsUsed

open World

variable {l : Ledger} {g : ℕ} {f : Fut} {w w' : World}

/-- A future is dropped that keeps its buffer. -/
theorem dropFut (h : BufsUsed l) (hg : l.futs g = some f) (hkeeps : f.KeepsBuffer) :
    BufsUsed (l.modifyFut g fun f => { f with life := .dead }) := by
  refine h.modifyFut hg rfl (fun hk hreq => hreq.dropped (hkeeps.2 hk)) fun b hb => ?_
  obtain ⟨hk, -, cqe, bid, hev, hid, -⟩ := hb
  rw [hkeeps.1 hk cqe hev] at hid
  cases hid

/-- Futures move on whose requests are filled and not published yet, and no request to provide a
buffer is given up. -/
theorem prepared (h : BufsUsed l) {linked : List ℕ} {futs : ℕ → Option Fut}
    (hlinked : ∀ g ∈ linked, ∃ f, l.futs g = some f ∧ f.stage = .prepared)
    (hfuts : ∀ g f, l.futs g = some f → futs g = some f ∨ g ∈ linked ∧
      ∃ f', futs g = some f' ∧ f'.kind = f.kind ∧
        (f.kind.bufid? ≠ none → f.life = .live → f'.Requesting)) :
    BufsUsed { l with futs } := by
  refine h.mapFuts (fun _ _ hb => hb) rfl fun g f hg => ?_
  rcases hfuts g f hg with heq | ⟨hmem, f', heq, hk, hreq⟩
  · exact ⟨f, heq, rfl, fun _ _ _ => ⟨fun _ _ => id, fun _ => id⟩⟩
  · obtain ⟨f₂, hg₂, hst⟩ := hlinked g hmem
    obtain rfl := Option.some.inj (hg.symm.trans hg₂)
    refine ⟨f', heq, hk, fun b u _ => ⟨fun _ hb hf => ?_, fun _ ⟨_, _, cqe, bid, hev, _⟩ => ?_⟩⟩
    · simp only [Fut.Requesting, hst] at hf
      exact hreq (by rw [hb]; nofun) hf
    · rw [hst] at hev
      cases hev

theorem publish (h : BufsUsed l) {linked : List ℕ} {sqes : List Sqe}
    (hlinked : ∀ g ∈ linked, ∃ f, l.futs g = some f ∧ f.stage = .prepared) :
    BufsUsed (l.publish (linked.zip sqes)) := by
  rw [Ledger.publish_eq]
  refine h.prepared hlinked fun g f hg => ?_
  rcases Ledger.publish_futs l (linked.zip sqes) g with heq | ⟨⟨sqe', hmem⟩, sqe, heq⟩
  · exact .inl (heq.trans hg)
  · rw [hg, Option.map_some] at heq
    refine .inr ⟨(List.of_mem_zip hmem).1, _, heq, rfl, fun _ hlive => ?_⟩
    simp [Fut.Requesting, hlive]

theorem abandon (h : BufsUsed l) {linked : List ℕ}
    (hlinked : ∀ g ∈ linked, ∃ f, l.futs g = some f ∧ f.stage = .prepared)
    (hnone : ProvidesNone l.futs linked) : BufsUsed (l.abandon linked) := by
  rw [Ledger.abandon_eq]
  refine h.prepared hlinked fun g f hg => ?_
  rcases Ledger.abandon_futs l linked g with heq | ⟨hmem, heq⟩
  · exact .inl (heq.trans hg)
  · rw [hg, Option.map_some] at heq
    exact .inr ⟨hmem, _, heq, rfl, fun hk => absurd (hnone g hmem f hg) hk⟩

/-- The future of a request resolves: one that has failed gives its buffer back, and a read gives
its caller the buffer, or resolves to an error that carries none. -/
theorem resolve (h : BufsUsed l) {cqe : Cqe} {time : ℕ} (hg : l.futs g = some f)
    (hst : f.stage = .processed cqe time)
    (hkeeps : f.kind = .read → cqe.isErr = true → cqe.bufId = none) :
    BufsUsed (l.resolve g f.kind cqe) := by
  rw [Ledger.resolve_eq hg]
  refine h.mapFut hg (fun _ _ hb => Ledger.bufsTaken_le hb) rfl rfl rfl
    (fun b u hb _ hk hreq => ?_) fun b u hb _ ⟨hk, _, cqe', bid, hev, hid, hbid⟩ => ?_
  · obtain ⟨len, hkind⟩ := FutureKind.eq_provide hk
    simp only [Fut.Requesting, hst] at hreq
    simp [Ledger.bufsTaken, hkind, hreq.1, Ledger.dropBuf] at hb
  · rw [hst] at hev
    obtain rfl := Option.some.inj hev
    cases herr : cqe.isErr with
    | true =>
      rw [hkeeps hk herr] at hid
      cases hid
    | false =>
      subst hbid
      simp [Ledger.bufsTaken, hk, hid, herr, Ledger.dropBuf] at hb

/-- An event is processed: if the request has failed and its future is dropped, its buffer goes. -/
theorem process (h : BufsUsed l) {cqe : Cqe} (hg : l.futs g = some f)
    (hst : f.stage = .posted cqe) : BufsUsed (l.process (g, cqe)) := by
  rw [Ledger.process_eq hg]
  refine h.mapFut hg (fun _ _ hb => Ledger.bufsAfter_le hb) rfl rfl rfl
    (fun b u hb _ hk hreq => ?_) fun b u hb _ ⟨hk, hlive, cqe', bid, hev, hid⟩ => ?_
  · obtain ⟨len, hkind⟩ := FutureKind.eq_provide hk
    simp only [Fut.Requesting, hst] at hreq
    cases hlife : f.life with
    | live => exact ⟨hreq.1, rfl⟩
    | dead => simp [Ledger.bufsAfter, hlife, hkind, hreq.1, Ledger.dropBuf] at hb
    | lost => exact absurd hlife hreq.2
  · rw [hst] at hev
    exact ⟨hk, hlive, cqe', bid, hev, hid⟩

/-- The drop of a future panics that has no buffer. -/
theorem lose (h : BufsUsed l) (hg : l.futs g = some f)
    (hnone : f.kind = .completion ∨ f.kind.bufid? = none ∧ f.stage = .fresh) :
    BufsUsed (l.modifyFut g fun f => { f with life := .lost }) := by
  refine h.modifyFut hg rfl (fun hk => ?_) fun b ⟨hk, _, cqe, bid, hev, _⟩ => ?_
  · rcases hnone with hkind | ⟨hkind, -⟩
    · simp [hkind, FutureKind.bufid?] at hk
    · exact absurd hkind hk
  · rcases hnone with hkind | ⟨-, hst⟩
    · rw [hkind] at hk
      cases hk
    · rw [hst] at hev
      cases hev

theorem move {a : Act} (hc : w.Consistent) (hp : Pool w.ctx.buffers w.ledger) (ha : KeepsBuffer a)
    (h : BufsUsed w.ledger) (hm : Move w a w') : BufsUsed w'.ledger := by
  have hnew := hc.tables.futs_nextFut
  cases hm with
  | runtime hsame =>
    rcases hsame.ledger with heq | ⟨task, heq⟩
    · exact heq ▸ h
    · rw [heq]
      exact h
  | ring _ => exact h
  | complete hg hl =>
    obtain ⟨f, held, bufs, hg', hst, ht, rfl⟩ := Ledger.complete_eq_some hl
    obtain rfl := Option.some.inj (hg.symm.trans hg')
    exact h.complete hp hg ((hc.tables.futs _ _ hg).2.sent (.inl hst)) hst ha ht
  | post hg hst hroom =>
    refine h.modifyFut hg rfl (fun _ hreq => ?_) fun b ⟨hk, hlive, cqe', bid, hev, hid⟩ => ?_
    · simpa only [Fut.Requesting, hst] using hreq
    · rw [hst] at hev
      exact ⟨hk, hlive, cqe', bid, hev, hid⟩
  | newFuture hcall hfrom => exact h.create hnew
  | request hcall hs hreq hfrom => exact h.create hnew
  | openSession _ _ => exact h
  | fill hcall hs hg hfill =>
    obtain ⟨f', hg', hlive, hfresh, -⟩ : CallOk _ _ (.slotWait _ _) := hcall ▸ hc.tables.call
    obtain rfl := Option.some.inj (hg.symm.trans hg')
    refine h.modifyFut hg rfl (fun _ _ => hlive) fun b ⟨_, _, cqe, bid, hev, _⟩ => ?_
    rw [hfresh] at hev
    cases hev
  | publish hs hpub queued =>
    have hlinked : Linked _ (some _) _ := hs ▸ hc.tables.linked
    exact h.publish fun g hmem => hlinked.prepared hmem
  | abandon hs =>
    have hlinked : Linked _ (some _) _ := hs ▸ hc.tables.linked
    exact h.abandon (fun g hmem => hlinked.prepared hmem) ha
  | setMustWait hg hlive mustWait => exact h.modifyFut hg rfl (fun _ => id) fun _ => id
  | pending hcall hg hlive hce hcqe hcurrent => exact h.modifyFut hg rfl (fun _ => id) fun _ => id
  | ready hcall hg hlive hce hcqe hcurrent => exact h.modifyFut hg rfl (fun _ => id) fun _ => id
  | resolve hcall hg hlive hkind hce hcqe hget =>
    obtain ⟨time, hst⟩ := (hc.entryOk hg hlive hce).processed hcqe
    exact h.resolve hg hst ha
  | dropReady hcall hg hlive hce hcqe => exact h.dropFut hg ha
  | die hcall hg hlive hce hcqe hmustWait => exact h.dropFut hg ha
  | beginWait hcall hs hg hlive hce hcqe hmustWait =>
    exact h.modifyFut hg rfl (fun _ => id) fun _ => id
  | cancel _ => exact h
  | endWait hcall hg hce hcqe => exact h.dropFut hg ha
  | lose hg hlive hcall => exact h.lose hg ha
  | @process g f cqe ce rest intoRunqueue hp hg hst hud hce hok =>
    obtain ⟨completions, heq, -⟩ := takeCqe_eq intoRunqueue hst hud hce hok
    rw [heq]
    exact h.process hg hst

end BufsUsed

namespace World

variable {hs : Hashes} {w w' : World}

/-! ## Steps and runs -/

/-- A step that meets the condition only makes such moves. -/
theorem KeepsBuffers.cause (hc₀ : w.Consistent) {e : Event} (h : w.KeepsBuffers e) {a : Act}
    {w₁ w₂ : World} (hcause : w.Cause e a) (hc : w₁.Consistent) (hm : Move w₁ a w₂) :
    KeepsBuffer a := by
  have hkeeps : ∀ {f : Fut}, f.kind = .completion ∨ w.session = none ∧ f.KeepsBuffer →
      f.KeepsBuffer := by
    rintro f (hk | ⟨-, hf⟩)
    · exact ⟨by rw [hk]; nofun, by rw [hk]; exact fun hk => absurd rfl hk⟩
    · exact hf
  cases hm with
  | complete hg hl =>
    obtain ⟨rfl, hg'⟩ := hcause
    exact h _ hg'
  | abandon hs =>
    obtain ⟨hfuts, s, hs', hlinked, he⟩ := hcause
    show ProvidesNone _ _
    rw [hfuts, ← hlinked]
    rcases he with rfl | ⟨rfl, hpub⟩
    · exact h s hs'
    · exact h s hs' hpub
  | resolve hcall hg hlive hkind hce hcqe hget =>
    obtain ⟨rfl, hg'⟩ := hcause
    obtain ⟨time, hst⟩ := (hc.entryOk hg hlive hce).processed hcqe
    exact fun hk => h _ _ time hg' hk hst
  | dropReady hcall hg hlive hce hcqe =>
    obtain ⟨rfl, hg'⟩ := hcause
    exact hkeeps (h _ hg')
  | die hcall hg hlive hce hcqe hmustWait =>
    obtain ⟨rfl, hg'⟩ := hcause
    exact hkeeps (h _ hg')
  | endWait hcall hg hce hcqe =>
    obtain ⟨hcall', hg', ret, rfl, hbusy⟩ := hcause
    obtain ⟨-, f', hg'', hlive⟩ : CallOk _ _ (.dropWait _) := hcall ▸ hc.tables.call
    obtain rfl := Option.some.inj (hg.symm.trans hg'')
    obtain ⟨time, hst⟩ := (hc.entryOk hg hlive hce).processed hcqe
    exact h.2 hbusy _ _ hcall' hg' _ _ hst
  | lose hg hlive hcall =>
    obtain ⟨hg', ⟨rfl, hs⟩ | ⟨r, errno, hcall', rfl, hbusy⟩⟩ := hcause
    · rcases h _ hg' with hk | ⟨hnone, -⟩
      · exact .inl hk
      · rw [hnone] at hs
        cases hs
    · obtain ⟨f', hg'', -, hfresh, hkind, -⟩ : CallOk _ _ (.slotWait _ _) :=
        hcall' ▸ hc₀.tables.call
      obtain rfl := Option.some.inj (hg'.symm.trans hg'')
      exact .inr ⟨hkind ▸ h.1 errno rfl hbusy _ r hcall', hfresh⟩
  | _ => trivial

/-- The tables are in order and no buffer is lost. -/
structure PoolInv (w : World) : Prop where
  consistent : w.Consistent
  pool : Pool w.ctx.buffers w.ledger
  used : BufsUsed w.ledger

theorem PoolInv.step (h : w.PoolInv) {e : Event} (hk : w.KeepsBuffers e) (hst : w.Step hs e w') :
    w'.PoolInv := by
  obtain ⟨out, hw⟩ := hst
  obtain ⟨hc, hp, hu⟩ := (h.consistent.step_does hw).keeps
    (I := fun w => Pool w.ctx.buffers w.ledger ∧ BufsUsed w.ledger)
    (fun w₁ a w₂ hc₁ ha hi hm => ⟨Pool.move hc₁ hi.1 hm,
      hi.2.move hc₁ hi.1 (hk.cause h.consistent ha hc₁ hm) hm⟩)
    h.consistent ⟨h.pool, h.used⟩
  exact ⟨hc, hp, hu⟩

theorem Init.poolInv (h : w.Init) : w.PoolInv := by
  refine ⟨h.consistent, h.pool, fun b u hb => ?_⟩
  rw [h.ledger] at hb
  cases hb

theorem PoolInv.buffersLeave (h : w.PoolInv) : w.BuffersLeave := by
  have hsome : ∀ {b u}, w.ledger.bufs b = some u → (w.ctx.buffers.get b).isSome := by
    intro b u hb
    rw [h.pool.keys, hb]
    rfl
  refine ⟨fun b => ⟨fun hb => ?_, ?_⟩, fun g f hg hk hlife b u hb hplace => ?_⟩
  · rw [h.pool.keys, Option.isSome_map] at hb
    obtain ⟨⟨buffer, place⟩, hu⟩ := Option.isSome_iff_exists.1 hb
    have hused := h.used b _ hu
    cases place with
    | requested g => exact .inr (.inl ⟨g, hused⟩)
    | held => exact .inl hused
    | handed g => exact .inr (.inr ⟨g, hused⟩)
  · rintro (⟨p, hp, rfl⟩ | ⟨g, f, len, hg, hk, hreq⟩ | ⟨g, f, hg, hk, -, cqe, bid, hev, hid, rfl⟩)
    · obtain ⟨buffer, hu, -⟩ := h.pool.held p hp
      exact hsome hu
    · obtain ⟨buffer, -, hu⟩ := (h.pool.futs g f hg).requested b len hk hreq.providing
      exact hsome hu
    · obtain ⟨buffer, hu⟩ := (h.pool.futs g f hg).handed cqe bid hk hev hid
      exact hsome hu
  · have hused := h.used b u hb
    rw [hplace] at hused
    obtain ⟨f', hg', -, hlive, -⟩ := hused
    obtain rfl := Option.some.inj (hg.symm.trans hg')
    exact hlife hlive

end World

end Hamerkop
