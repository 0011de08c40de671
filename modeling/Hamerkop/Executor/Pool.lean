import Hamerkop.Executor.Routing

/-!
# The kernel never holds a buffer that the pool has given up

`Pool` relates the table of buffers to the ledger: the keys are exactly the
buffers given to the pool and not taken out since, and each is where the
requests and the kernel take it to be.  Every move keeps it.

`World.Reachable.heldBuffers` is what it comes to: in every reachable state the
buffer of a request that is under way, of one the kernel holds, and of the event
of a read that has not consumed it, is in the table under the id the kernel knows
it by; and no future panics because it is not.  (`RingPool` says the same of the
kernel that reads its entries from the ring.)

A request to provide a buffer is under way until the kernel has carried it out,
and if it has failed until its event is processed.  Once it has succeeded the
buffer is the kernel's, which may hand it out in the event of a read at once.
-/

namespace Hamerkop

open LinkedSubmitter

namespace Fut

/-- The request of this future is to provide a buffer, and the buffer is with it: the kernel has
not taken it, and the pool has not got rid of it. -/
def Providing (f : Fut) : Prop :=
  match f.stage with
  | .fresh | .prepared | .abandoned | .published => True
  | .completed cqe | .posted cqe => cqe.isErr = true
  | .processed cqe _ => cqe.isErr = true ∧ f.life = .live
  | .resolved => False

end Fut

/-- The buffers of a future are where its request takes them to be. -/
structure FutBufs (bufs : ℕ → Option BufUse) (g : ℕ) (f : Fut) : Prop where
  requested : ∀ bufid len, f.kind = .provide bufid len → f.Providing →
    ∃ buffer, f.buffer = some buffer ∧ bufs bufid = some ⟨buffer, .requested g⟩
  handed : ∀ cqe bid, f.kind = .read → f.stage.event? = some cqe → cqe.bufId = some bid →
    ∃ buffer, bufs bid.toNat = some ⟨buffer, .handed g⟩
  carries : ∀ cqe, f.kind = .read → f.stage.event? = some cqe → cqe.isErr = false →
    cqe.bufId ≠ none

/-- The table of buffers against the ledger. -/
structure Pool (buffers : Slots (FixedVec UInt8)) (l : Ledger) : Prop where
  small : buffers.slabCount ≤ 64
  keys : ∀ b, buffers.get b = (l.bufs b).map BufUse.buffer
  futs : ∀ g f, l.futs g = some f → FutBufs l.bufs g f
  held : ∀ p ∈ l.held, ∃ buffer, l.bufs p.1.toNat = some ⟨buffer, .held⟩ ∧ buffer.ptr = p.2
  nodup : (l.held.map Prod.fst).Nodup

namespace FutBufs

variable {bufs : ℕ → Option BufUse} {g b : ℕ} {f f' : Fut}

/-- What happens to a buffer that is not with this future does not concern it. -/
theorem update (h : FutBufs bufs g f) (x : Option BufUse)
    (hb : ∀ u, bufs b = some u → u.place ≠ .requested g ∧ u.place ≠ .handed g) :
    FutBufs (Function.update bufs b x) g f := by
  have hne : ∀ b' buffer place, bufs b' = some ⟨buffer, place⟩ →
      place = .requested g ∨ place = .handed g → b' ≠ b := by
    rintro b' buffer place hb' hplace rfl
    obtain ⟨hr, hh⟩ := hb _ hb'
    exact hplace.elim hr hh
  refine ⟨fun bufid len hk hp => ?_, fun cqe bid hk hev hbid => ?_, h.carries⟩
  · obtain ⟨buffer, hbuffer, hu⟩ := h.requested bufid len hk hp
    refine ⟨buffer, hbuffer, ?_⟩
    rw [Function.update_of_ne (hne _ _ _ hu (.inl rfl)), hu]
  · obtain ⟨buffer, hu⟩ := h.handed cqe bid hk hev hbid
    refine ⟨buffer, ?_⟩
    rw [Function.update_of_ne (hne _ _ _ hu (.inr rfl)), hu]

/-- The future moves on without its buffers doing so. -/
theorem congr (h : FutBufs bufs g f) (hk : f'.kind = f.kind) (hb : f'.buffer = f.buffer)
    (hp : f'.Providing → f.Providing)
    (hev : ∀ cqe, f'.stage.event? = some cqe → f.stage.event? = some cqe) :
    FutBufs bufs g f' := by
  refine ⟨fun bufid len hkind hprov => ?_, fun cqe bid hkind hevent => ?_,
    fun cqe hkind hevent => ?_⟩
  · rw [hb]
    exact h.requested bufid len (hk ▸ hkind) (hp hprov)
  · exact h.handed cqe bid (hk ▸ hkind) (hev cqe hevent)
  · exact h.carries cqe (hk ▸ hkind) (hev cqe hevent)

/-- A future that has resolved has no buffer. -/
theorem of_resolved (hst : f.stage = .resolved) :
    FutBufs bufs g f := by
  refine ⟨fun _ _ _ hp => ?_, fun _ _ _ hev => ?_, fun _ _ hev => ?_⟩
  · simp [Fut.Providing, hst] at hp
  · simp [Stage.event?, hst] at hev
  · simp [Stage.event?, hst] at hev

end FutBufs

namespace Pool

variable {buffers buffers' : Slots (FixedVec UInt8)} {l l' : Ledger} {g b : ℕ} {f f' : Fut}

/-- The ids of the pool fit the `u16` of a submission entry. -/
theorem id_lt (h : Pool buffers l) {u : BufUse} (hb : l.bufs b = some u) : b < 65536 := by
  have hget : buffers.get b = some u.buffer := by rw [h.keys, hb, Option.map_some]
  have hlt := Slots.lt_slabCount_mul hget
  have hle := Nat.mul_le_mul_right SLABSIZE h.small
  simp only [SLABSIZE] at hlt hle
  omega

theorem toNat_ofNat (h : Pool buffers l) {u : BufUse} (hb : l.bufs b = some u) :
    (UInt16.ofNat b).toNat = b := by
  have hlt := h.id_lt hb
  rw [UInt16.toNat_ofNat_of_lt' (by simpa [UInt16.size] using hlt)]

/-- Futures move on, and the buffers stay where they are. -/
theorem moveFuts (h : Pool buffers l) (hbufs : l'.bufs = l.bufs) (hheld : l'.held = l.held)
    (hfuts : ∀ g f', l'.futs g = some f' → FutBufs l.bufs g f') : Pool buffers l' :=
  ⟨h.small, hbufs ▸ h.keys, hbufs ▸ hfuts, by rw [hbufs, hheld]; exact h.held, hheld ▸ h.nodup⟩

/-- One future moves on, and the buffers stay where they are. -/
theorem moveFut (h : Pool buffers l) (hg : l.futs g = some f) (hbufs : l'.bufs = l.bufs)
    (hheld : l'.held = l.held) (hfuts : l'.futs = Function.update l.futs g (some f'))
    (hf : FutBufs l.bufs g f → FutBufs l.bufs g f') : Pool buffers l' := by
  refine h.moveFuts hbufs hheld fun g₂ f₂ hg₂ => ?_
  rw [hfuts] at hg₂
  by_cases hgg : g₂ = g
  · subst hgg
    rw [Function.update_self, Option.some.injEq] at hg₂
    exact hg₂ ▸ hf (h.futs g₂ f hg)
  · rw [Function.update_of_ne hgg] at hg₂
    exact h.futs g₂ f₂ hg₂

/-- A buffer moves together with the future `g` it was or is going to be with. -/
theorem moveBuf (h : Pool buffers l) (x : Option BufUse)
    (hfuts : l'.futs = Function.update l.futs g (some f'))
    (hbufs : l'.bufs = Function.update l.bufs b x)
    (hb : ∀ u, l.bufs b = some u → ∀ g₂ ≠ g, u.place ≠ .requested g₂ ∧ u.place ≠ .handed g₂)
    (hf : FutBufs l'.bufs g f') (hsmall : buffers'.slabCount ≤ 64)
    (hkeys : ∀ b, buffers'.get b = (l'.bufs b).map BufUse.buffer)
    (hheld : ∀ p ∈ l'.held, ∃ buffer, l'.bufs p.1.toNat = some ⟨buffer, .held⟩ ∧ buffer.ptr = p.2)
    (hnodup : (l'.held.map Prod.fst).Nodup) : Pool buffers' l' := by
  refine ⟨hsmall, hkeys, fun g₂ f₂ hg₂ => ?_, hheld, hnodup⟩
  rw [hfuts] at hg₂
  by_cases hgg : g₂ = g
  · subst hgg
    rw [Function.update_self, Option.some.injEq] at hg₂
    exact hg₂ ▸ hf
  · rw [Function.update_of_ne hgg] at hg₂
    rw [hbufs]
    exact (h.futs g₂ f₂ hg₂).update x fun u hu => hb u hu g₂ hgg

/-- The buffers the kernel holds are not concerned by what happens to another one. -/
theorem held_update (h : Pool buffers l) (x : Option BufUse)
    (hb : ∀ u, l.bufs b = some u → u.place ≠ .held) :
    ∀ p ∈ l.held, ∃ buffer, Function.update l.bufs b x p.1.toNat = some ⟨buffer, .held⟩ ∧
      buffer.ptr = p.2 := by
  intro p hp
  obtain ⟨buffer, hu, hptr⟩ := h.held p hp
  have hne : p.1.toNat ≠ b := by
    rintro rfl
    exact hb _ hu rfl
  exact ⟨buffer, by rw [Function.update_of_ne hne, hu], hptr⟩

/-! ## Creating, carrying out, and taking out -/

/-- A future is created; if it is to provide a buffer, that has just been put into the table. -/
theorem createProvide (h : Pool buffers l) {bufid len cqid : ℕ} {buffer : FixedVec UInt8}
    (hins : buffers.insert buffer = some (bufid, buffers')) (hroom : buffers.len < MAX_BUFFERS) :
    Pool buffers' (l.create cqid (.provide bufid len) (some buffer)) := by
  have hfree : l.bufs bufid = none := by
    have hget := h.keys bufid
    rw [Slots.get_before_insert hins] at hget
    exact Option.map_eq_none_iff.1 hget.symm
  have hnone : ∀ u, l.bufs bufid = some u → False := fun u hu => by
    rw [hfree] at hu
    cases hu
  refine h.moveBuf _ rfl rfl (fun u hu => (hnone u hu).elim) ?_ ?_ (fun b => ?_)
    (h.held_update _ fun u hu => (hnone u hu).elim) h.nodup
  · refine ⟨fun bufid' len' hk _ => ?_, fun cqe bid hk => ?_, fun cqe hk => ?_⟩
    · obtain ⟨rfl, rfl⟩ := FutureKind.provide.inj hk
      exact ⟨buffer, rfl, Function.update_self ..⟩
    · cases hk
    · cases hk
  · exact Slots.slabCount_insert_le hins h.small (hroom.trans (by decide))
  · rw [Slots.get_insert hins]
    by_cases hbb : b = bufid
    · subst hbb
      simp [Ledger.create]
    · simp [Ledger.create, Function.update_of_ne hbb, h.keys b]

theorem create (h : Pool buffers l) {cqid : ℕ} {kind : FutureKind}
    {buffer : Option (FixedVec UInt8)} (hk : kind.bufid? = none) :
    Pool buffers (l.create cqid kind buffer) := by
  have hbufs : (l.create cqid kind buffer).bufs = l.bufs := by
    cases kind with
    | provide bufid len => cases hk
    | _ => rfl
  refine h.moveFuts hbufs rfl fun g f hg => ?_
  by_cases hgg : g = l.nextFut
  · subst hgg
    simp only [Ledger.create, Function.update_self, Option.some.injEq] at hg
    subst hg
    refine ⟨fun bufid len hkind => ?_, fun cqe bid _ hev => ?_, fun cqe _ hev => ?_⟩
    · rw [show kind = .provide bufid len from hkind] at hk
      cases hk
    · cases hev
    · cases hev
  · simp only [Ledger.create, Function.update_of_ne hgg] at hg
    exact h.futs g f hg

/-- Where a buffer is makes no difference to what the table has. -/
theorem keys_moveBuf (h : Pool buffers l) (b : ℕ) (place : Place) :
    ∀ i, buffers.get i = ((l.moveBuf b place).bufs i).map BufUse.buffer := by
  intro i
  rw [h.keys i, Ledger.moveBuf]
  by_cases hib : i = b
  · subst hib
    simp only [Function.update_self, Option.map_map]
    rfl
  · simp only [Function.update_of_ne hib]

/-- The kernel carries out a request. -/
theorem complete (h : Pool buffers l) {res : Int32} {flags : UInt32}
    (hg : l.futs g = some f) (hsqe : SqeOk f f.sqe) (hst : f.stage = .published)
    {held : List (UInt16 × UInt64)} {bufs : ℕ → Option BufUse}
    (ht : l.Transfer g f ⟨f.sqe.userData, res, flags⟩ held bufs) :
    Pool buffers { l with
      futs := Function.update l.futs g
        (some { f with stage := .completed ⟨f.sqe.userData, res, flags⟩ })
      held, bufs } := by
  have hf := h.futs g f hg
  cases ht with
  | none hprovide hread =>
    refine h.moveFut hg rfl rfl rfl fun _ => ⟨fun bufid len hk hp => ?_, fun cqe bid hk hev => ?_,
      fun cqe hk hev => ?_⟩
    · exact hf.requested bufid len hk (by simp [Fut.Providing, hst])
    · obtain rfl := Option.some.inj hev
      rw [(hread hk).1]
      simp
    · obtain rfl := Option.some.inj hev
      rw [(hread hk).2]
      simp
  | given hprovide hok =>
    obtain ⟨bufid, hbufid⟩ := Option.isSome_iff_exists.1 hprovide
    obtain ⟨len, hk⟩ := FutureKind.eq_provide hbufid
    obtain ⟨buffer, hbuffer, hu⟩ := hf.requested bufid len hk (by simp [Fut.Providing, hst])
    obtain ⟨hbid, buffer', hbuffer', hptr⟩ := hsqe.buffer bufid len hk
    obtain rfl := Option.some.inj (hbuffer.symm.trans hbuffer')
    have hb : f.sqe.bid.toNat = bufid := by rw [hbid, h.toNat_ofNat hu]
    have hplace : ∀ u, l.bufs bufid = some u → u.place = .requested g := fun u hu' => by
      obtain rfl := Option.some.inj (hu.symm.trans hu')
      rfl
    have hnew : (l.moveBuf bufid .held).bufs bufid = some ⟨buffer, .held⟩ := by
      simp [Ledger.moveBuf, hu]
    rw [hb]
    refine h.moveBuf _ rfl rfl (fun u hu' g₂ hg₂ => ?_) ⟨fun _ _ _ hp => ?_, fun _ _ hk' => ?_,
      fun _ hk' => ?_⟩ h.small (h.keys_moveBuf _ _) (fun p hp => ?_) ?_
    · rw [hplace u hu']
      exact ⟨fun heq => hg₂ (Place.requested.inj heq).symm, by simp⟩
    · rw [Fut.Providing] at hp
      simp only [hok] at hp
      cases hp
    · rw [show f.kind = .read from hk'] at hk
      cases hk
    · rw [show f.kind = .read from hk'] at hk
      cases hk
    · rcases List.mem_cons.1 hp with rfl | hp
      · exact ⟨buffer, by rw [hb]; exact hnew, hptr.symm⟩
      · exact h.held_update _ (fun u hu' => by rw [hplace u hu']; simp) p hp
    · refine List.nodup_cons.2 ⟨fun hmem => ?_, h.nodup⟩
      obtain ⟨p, hp, hpb⟩ := List.mem_map.1 hmem
      obtain ⟨buffer', hu', -⟩ := h.held p hp
      rw [hpb, hb] at hu'
      cases hplace _ hu'
  | handed hread hp hbid =>
    rename_i p
    obtain ⟨buffer, hu, -⟩ := h.held p hp
    have hplace : ∀ u, l.bufs p.1.toNat = some u → u.place = .held := fun u hu' => by
      obtain rfl := Option.some.inj (hu.symm.trans hu')
      rfl
    have hnew : (l.moveBuf p.1.toNat (.handed g)).bufs p.1.toNat = some ⟨buffer, .handed g⟩ := by
      simp [Ledger.moveBuf, hu]
    refine h.moveBuf _ rfl rfl (fun u hu' g₂ hg₂ => ?_) ⟨fun _ _ hk' => ?_,
      fun cqe bid _ hev hcqe => ?_, fun cqe _ hev _ => ?_⟩ h.small (h.keys_moveBuf _ _)
      (fun q hq => ?_) ?_
    · rw [hplace u hu']
      simp
    · rw [show f.kind = .provide _ _ from hk'] at hread
      cases hread
    · obtain rfl := Option.some.inj hev
      obtain rfl := Option.some.inj (hbid.symm.trans hcqe)
      exact ⟨buffer, hnew⟩
    · obtain rfl := Option.some.inj hev
      rw [hbid]
      simp
    · have hne : q.1 ≠ p.1 := fun heq => by
        have hpq : q = p := List.inj_on_of_nodup_map h.nodup (List.mem_of_mem_erase hq) hp heq
        rw [hpq] at hq
        exact (List.Nodup.of_map _ h.nodup).not_mem_erase hq
      obtain ⟨buffer', hu', hptr'⟩ := h.held q (List.mem_of_mem_erase hq)
      refine ⟨buffer', ?_, hptr'⟩
      rw [Ledger.moveBuf]
      exact (Function.update_of_ne (fun heq => hne (UInt16.toNat_inj.1 heq)) ..).trans hu'
    · exact h.nodup.sublist ((List.erase_sublist ..).map _)

/-- The buffer of a future is taken out. -/
theorem dropBuf (h : Pool buffers l)
    (hplace : ∀ u, l.bufs b = some u → u.place = .requested g ∨ u.place = .handed g)
    (hfuts : l'.futs = Function.update l.futs g (some f')) (hbufs : l'.bufs = (l.dropBuf b).bufs)
    (hheld : l'.held = l.held) (hf : FutBufs l'.bufs g f') : Pool (buffers.remove b).2 l' := by
  refine h.moveBuf none hfuts hbufs (fun u hu g₂ hg₂ => ?_) hf ?_ (fun i => ?_) ?_ (hheld ▸ h.nodup)
  · rcases hplace u hu with heq | heq <;> rw [heq]
    · exact ⟨fun he => hg₂ (Place.requested.inj he).symm, by simp⟩
    · exact ⟨by simp, fun he => hg₂ (Place.handed.inj he).symm⟩
  · rw [Slots.slabCount_remove]
    exact h.small
  · rw [Slots.get_remove, hbufs, Ledger.dropBuf]
    by_cases hib : i = b
    · subst hib
      simp only [Function.update_self, Option.map_none]
    · simp only [Function.update_of_ne hib, h.keys i]
  · rw [hheld, hbufs]
    refine h.held_update none fun u hu => ?_
    rcases hplace u hu with heq | heq <;> rw [heq] <;> simp

/-- An event is processed. -/
theorem process {ctx : IOContext} (h : Pool ctx.buffers l) {cqe : Cqe} (hg : l.futs g = some f)
    (hst : f.stage = .posted cqe) : Pool (ctx.buffersAfter f cqe) (l.process (g, cqe)) := by
  have hf := h.futs g f hg
  rw [Ledger.process_eq hg]
  by_cases hdrop : f.life = .dead ∧ cqe.isErr = true ∧ ∃ bufid len, f.kind = .provide bufid len
  · obtain ⟨hdead, herr, bufid, len, hk⟩ := hdrop
    obtain ⟨buffer, -, hu⟩ := hf.requested bufid len hk (by simp [Fut.Providing, hst, herr])
    have hbuffers : ctx.buffersAfter f cqe = (ctx.buffers.remove bufid).2 := by
      simp [IOContext.buffersAfter, hdead, hk, herr]
    have hbufs : l.bufsAfter f cqe = (l.dropBuf bufid).bufs := by
      simp [Ledger.bufsAfter, hdead, hk, herr]
    rw [hbuffers]
    refine h.dropBuf (fun u hu' => .inl ?_) rfl hbufs rfl ⟨fun _ _ _ hp => ?_, fun _ _ hk' => ?_,
      fun _ hk' => ?_⟩
    · rw [← Option.some.inj (hu.symm.trans hu')]
    · have hlive : f.life = .live := hp.2
      rw [hdead] at hlive
      cases hlive
    · rw [show f.kind = .read from hk'] at hk
      cases hk
    · rw [show f.kind = .read from hk'] at hk
      cases hk
  · have hsame : ctx.buffersAfter f cqe = ctx.buffers ∧ l.bufsAfter f cqe = l.bufs := by
      simp only [IOContext.buffersAfter, Ledger.bufsAfter]
      split
      · rename_i bufid len hdead hk
        have herr : cqe.isErr = false := by
          by_contra herr
          exact hdrop ⟨hdead, by simpa using herr, bufid, len, hk⟩
        simp [herr]
      · exact ⟨rfl, rfl⟩
    rw [hsame.1]
    refine h.moveFut hg hsame.2 rfl rfl fun hf => hf.congr rfl rfl (fun hp => ?_) fun cqe' hev => ?_
    · have herr : cqe.isErr = true := hp.1
      simp [Fut.Providing, hst, herr]
    · rw [hst]
      exact hev

/-- A future resolves. -/
theorem resolve {ctx : IOContext} (h : Pool ctx.buffers l) {cqe : Cqe} {time : ℕ}
    (hg : l.futs g = some f) (hlive : f.life = .live) (hst : f.stage = .processed cqe time) :
    Pool (ctx.buffersTaken f.kind cqe) (l.resolve g f.kind cqe) := by
  have hf := h.futs g f hg
  have hres : ∀ bufs, FutBufs bufs g { f with life := .dead, stage := .resolved } := fun _ =>
    .of_resolved rfl
  rw [Ledger.resolve_eq hg]
  -- the buffers stay, except that of a read that has one and that of a request that has failed
  have hstay (hbuffers : ctx.buffersTaken f.kind cqe = ctx.buffers)
      (hbufs : l.bufsTaken f.kind cqe = l.bufs) : Pool (ctx.buffersTaken f.kind cqe) { l with
        futs := Function.update l.futs g (some { f with life := .dead, stage := .resolved })
        bufs := l.bufsTaken f.kind cqe } := by
    rw [hbuffers]
    exact h.moveFut hg hbufs rfl rfl fun _ => hres _
  have hgone {b : ℕ} {u : BufUse} (hu : l.bufs b = some u)
      (hplace : u.place = .requested g ∨ u.place = .handed g)
      (hbuffers : ctx.buffersTaken f.kind cqe = (ctx.buffers.remove b).2)
      (hbufs : l.bufsTaken f.kind cqe = (l.dropBuf b).bufs) :
      Pool (ctx.buffersTaken f.kind cqe) { l with
        futs := Function.update l.futs g (some { f with life := .dead, stage := .resolved })
        bufs := l.bufsTaken f.kind cqe } := by
    rw [hbuffers]
    refine h.dropBuf (fun u' hu' => ?_) rfl hbufs rfl (hres _)
    rwa [← Option.some.inj (hu.symm.trans hu')]
  obtain hk | hk | ⟨bufid, len, hk⟩ : f.kind = .completion ∨ f.kind = .read ∨
      ∃ bufid len, f.kind = .provide bufid len := by
    cases f.kind <;> simp
  · exact hstay (by rw [hk]; rfl) (by rw [hk]; rfl)
  · by_cases hhas : ∃ bid, cqe.bufId = some bid ∧ cqe.isErr = false
    · obtain ⟨bid, hid, herr⟩ := hhas
      obtain ⟨buffer, hu⟩ := hf.handed cqe bid hk (by rw [hst]; rfl) hid
      refine hgone hu (.inr rfl) ?_ ?_
      · simp [IOContext.buffersTaken, hk, hid, herr]
      · simp [Ledger.bufsTaken, hk, hid, herr]
    · refine hstay ?_ ?_
      · simp only [IOContext.buffersTaken, hk]
        split <;> simp_all
      · simp only [Ledger.bufsTaken, hk]
        split <;> simp_all
  · cases herr : cqe.isErr with
    | true =>
      have hprov : f.Providing := by simp [Fut.Providing, hst, herr, hlive]
      obtain ⟨buffer, -, hu⟩ := hf.requested bufid len hk hprov
      refine hgone hu (.inl rfl) ?_ ?_
      · simp [IOContext.buffersTaken, hk, herr]
      · simp [Ledger.bufsTaken, hk, herr]
    | false =>
      refine hstay ?_ ?_
      · simp [IOContext.buffersTaken, hk, herr]
      · simp [Ledger.bufsTaken, hk, herr]

end Pool

theorem Ledger.dropBuf_le {l : Ledger} {b i : ℕ} {u : BufUse} (h : (l.dropBuf b).bufs i = some u) :
    l.bufs i = some u := by
  rw [dropBuf] at h
  by_cases hib : i = b
  · subst hib
    simp only [Function.update_self, reduceCtorEq] at h
  · simpa only [Function.update_of_ne hib] using h

theorem Ledger.bufsTaken_le {l : Ledger} {kind : FutureKind} {cqe : Cqe} {b : ℕ} {u : BufUse}
    (h : l.bufsTaken kind cqe b = some u) : l.bufs b = some u := by
  cases kind with
  | completion => exact h
  | read =>
    cases hid : cqe.bufId with
    | none => simpa only [bufsTaken, hid] using h
    | some bid =>
      cases herr : cqe.isErr <;> simp only [bufsTaken, hid, herr] at h
      · exact dropBuf_le h
      · exact h
  | provide bufid len =>
    cases herr : cqe.isErr <;> simp only [bufsTaken, herr] at h
    · exact h
    · exact dropBuf_le h

theorem Ledger.bufsAfter_le {l : Ledger} {f : Fut} {cqe : Cqe} {b : ℕ} {u : BufUse}
    (h : l.bufsAfter f cqe b = some u) : l.bufs b = some u := by
  obtain hsame | ⟨bufid, hdrop⟩ : l.bufsAfter f cqe = l.bufs ∨
      ∃ bufid, l.bufsAfter f cqe = (l.dropBuf bufid).bufs := by
    rw [bufsAfter]
    split
    · split
      · exact .inr ⟨_, rfl⟩
      · exact .inl rfl
    · exact .inl rfl
  · rwa [hsame] at h
  · rw [hdrop] at h
    exact dropBuf_le h

theorem Fut.Providing.of_life {f : Fut} {life : Life} (hlife : life ≠ .live)
    (h : ({ f with life } : Fut).Providing) : f.Providing := by
  obtain ⟨_, _, _, _, _, stage, _, _⟩ := f
  cases stage with
  | processed cqe time => exact absurd h.2 hlife
  | _ => exact h

theorem Fut.providing_of_prepared {f : Fut} (hst : f.stage = .prepared) : f.Providing := by
  rw [Fut.Providing, hst]
  trivial

/-- The future is dropped, or its `drop` panics. -/
theorem FutBufs.withLife {bufs : ℕ → Option BufUse} {g : ℕ} {f : Fut} (h : FutBufs bufs g f)
    {life : Life} (hlife : life ≠ .live) : FutBufs bufs g { f with life } :=
  h.congr rfl rfl (.of_life hlife) fun _ hev => hev

namespace World

variable {hs : Hashes} {w w' : World}

/-- The buffers stay where they are, and a future whose kind and stage stay as well is updated. -/
theorem pool_modifyFut {buffers : Slots (FixedVec UInt8)} {l : Ledger} {g : ℕ} {f : Fut}
    (h : Pool buffers l) (hg : l.futs g = some f) {upd : Fut → Fut}
    (hf : FutBufs l.bufs g f → FutBufs l.bufs g (upd f)) : Pool buffers (l.modifyFut g upd) := by
  rw [Ledger.modifyFut_eq hg]
  exact h.moveFut hg rfl rfl rfl hf

/-- **Every move keeps the pool.** -/
theorem Pool.move {a : Act} (hc : w.Consistent) (h : Pool w.ctx.buffers w.ledger)
    (hm : Move w a w') : Pool w'.ctx.buffers w'.ledger := by
  cases hm with
  | runtime hsame =>
    rw [hsame.buffers]
    rcases hsame.ledger with heq | ⟨task, heq⟩
    · exact heq ▸ h
    · rw [heq]
      exact ⟨h.small, h.keys, h.futs, h.held, h.nodup⟩
  | ring _ => exact h
  | complete hg hl =>
    obtain ⟨f, held, bufs, hg', hst, ht, rfl⟩ := Ledger.complete_eq_some hl
    exact h.complete hg' ((hc.tables.futs _ f hg').2.sent (.inl hst)) hst ht
  | @post g f cqe hg hst hroom =>
    have hpool :
        Pool w.ctx.buffers (w.ledger.modifyFut g fun f => { f with stage := .posted cqe }) :=
      pool_modifyFut h hg fun hf => hf.congr rfl rfl (fun hp => by rwa [Fut.Providing, hst])
        fun _ hev => by rwa [hst]
    exact ⟨hpool.small, hpool.keys, hpool.futs, hpool.held, hpool.nodup⟩
  | newFuture hcall hfrom =>
    obtain ⟨⟨i, completions⟩, hins, hpair⟩ := Option.map_eq_some_iff.1 hfrom
    obtain ⟨rfl, rfl⟩ := Prod.mk.inj hpair
    exact h.create rfl
  | request hcall hs hreq hfrom =>
    obtain ⟨⟨i, completions⟩, hins, hpair⟩ := Option.map_eq_some_iff.1 hfrom
    obtain ⟨rfl, rfl⟩ := Prod.mk.inj hpair
    rcases beginRequest_started hreq with ⟨hnone, rfl⟩ |
      ⟨buffer, bufid, len, buffers, hkind, hins', hroom, rfl, -⟩
    · exact h.create hnone
    · have hbuffer : buffers.get bufid = some buffer := by
        rw [Slots.get_insert hins', Function.update_self]
      have hnew : Pool buffers (w.ledger.create i (.provide bufid len) (some buffer)) :=
        h.createProvide hins' hroom
      rw [← hbuffer] at hnew
      simp only [hkind, FutureKind.bufid?, Option.bind_some]
      exact hnew
  | openSession _ _ => exact h
  | fill hcall hs hg hfill =>
    obtain ⟨f', hg', hlive, hfresh, -⟩ : CallOk _ _ (.slotWait _ _) := hcall ▸ hc.tables.call
    obtain rfl := Option.some.inj (hg.symm.trans hg')
    obtain ⟨sq, completions, -, rfl, -⟩ := fillSlot_eq_some hfill
    refine pool_modifyFut h hg fun hf => hf.congr rfl rfl (fun _ => ?_) fun _ hev => by cases hev
    simp [Fut.Providing, hfresh]
  | @publish s sq hs hpub queued =>
    have hlinked : Linked _ (some s) _ := hs ▸ hc.tables.linked
    rw [Ledger.publish_eq]
    refine h.moveFuts rfl rfl fun g f hg => ?_
    rcases Ledger.publish_futs w.ledger _ g with heq | ⟨⟨sqe', hmem⟩, sqe, heq⟩
    · exact h.futs g f (heq.symm.trans hg)
    · obtain ⟨f₀, hg₀, rfl⟩ := Option.map_eq_some_iff.1 (heq.symm.trans hg)
      obtain ⟨f', hg', hst⟩ := hlinked.prepared (List.of_mem_zip hmem).1
      obtain rfl := Option.some.inj (hg₀.symm.trans hg')
      exact (h.futs g _ hg₀).congr rfl rfl (fun _ => Fut.providing_of_prepared hst)
        fun _ hev => by cases hev
  | @abandon s hs =>
    have hlinked : Linked _ (some s) _ := hs ▸ hc.tables.linked
    rw [Ledger.abandon_eq]
    refine h.moveFuts rfl rfl fun g f hg => ?_
    rcases Ledger.abandon_futs w.ledger s.linked g with heq | ⟨hmem, heq⟩
    · exact h.futs g f (heq.symm.trans hg)
    · obtain ⟨f₀, hg₀, rfl⟩ := Option.map_eq_some_iff.1 (heq.symm.trans hg)
      obtain ⟨f', hg', hst⟩ := hlinked.prepared hmem
      obtain rfl := Option.some.inj (hg₀.symm.trans hg')
      exact (h.futs g _ hg₀).congr rfl rfl (fun _ => Fut.providing_of_prepared hst)
        fun _ hev => by cases hev
  | setMustWait hg hlive mustWait =>
    exact pool_modifyFut h hg fun hf => hf.congr rfl rfl id fun _ hev => hev
  | pending hcall hg hlive hce hcqe hcurrent =>
    exact pool_modifyFut h hg fun hf => hf.congr rfl rfl id fun _ hev => hev
  | ready hcall hg hlive hce hcqe hcurrent =>
    exact pool_modifyFut h hg fun hf => hf.congr rfl rfl id fun _ hev => hev
  | resolve hcall hg hlive hkind hce hcqe hget =>
    obtain ⟨time, hst⟩ := (hc.entryOk hg hlive hce).processed hcqe
    exact Pool.resolve (h : Pool w.ctx.buffers w.ledger) hg hlive hst
  | dropReady hcall hg hlive hce hcqe => exact pool_modifyFut h hg fun hf => hf.withLife (by simp)
  | die hcall hg hlive hce hcqe hmustWait =>
    exact pool_modifyFut h hg fun hf => hf.withLife (by simp)
  | beginWait hcall hs hg hlive hce hcqe hmustWait =>
    exact pool_modifyFut h hg fun hf => hf.congr rfl rfl id fun _ hev => hev
  | cancel _ => exact h
  | endWait hcall hg hce hcqe => exact pool_modifyFut h hg fun hf => hf.withLife (by simp)
  | lose hg hlive hcall => exact pool_modifyFut h hg fun hf => hf.withLife (by simp)
  | process intoRunqueue hp hg hst hud hce hok =>
    obtain ⟨completions, heq, -⟩ := takeCqe_eq intoRunqueue hst hud hce hok
    rw [heq]
    exact h.process hg hst

theorem Init.pool (h : w.Init) : Pool w.ctx.buffers w.ledger := by
  rw [h.buffers, h.ledger]
  refine ⟨Nat.zero_le _, fun _ => rfl, fun g f hg => ?_, fun p hp => ?_, List.nodup_nil⟩
  · cases hg
  · cases hp

theorem Reachable.pool (h : Reachable hs w) : Pool w.ctx.buffers w.ledger :=
  h.keeps (fun _ hi => hi.pool) fun _ _ _ hc hi hm => Pool.move hc hi hm

/-! ## Where the buffers come from -/

/-- Every buffer of the pool is that of a request to provide it, and once it is no longer with the
request the entry of that has named its id and its address. -/
def Given (l : Ledger) : Prop :=
  ∀ b u, l.bufs b = some u → ∃ g f len, l.futs g = some f ∧ f.kind = .provide b len ∧
    f.buffer = some u.buffer ∧
    (u.place = .requested g ∨ f.sqe.bid.toNat = b ∧ f.sqe.addrSplice = u.buffer.ptr)

namespace Given

variable {l l' : Ledger} {g : ℕ} {f f' : Fut}

/-- Buffers are taken out, and futures move on without their requests changing. -/
theorem mapFuts (h : Given l) (hbufs : ∀ b u, l'.bufs b = some u → l.bufs b = some u)
    (hfuts : ∀ g f, l.futs g = some f → ∃ f', l'.futs g = some f' ∧ f'.kind = f.kind ∧
      f'.buffer = f.buffer ∧ f'.sqe = f.sqe) : Given l' := by
  intro b u hb
  obtain ⟨g, f, len, hg, hk, hbuffer, hplace⟩ := h b u (hbufs b u hb)
  obtain ⟨f', hg', hk', hbuffer', hsqe⟩ := hfuts g f hg
  exact ⟨g, f', len, hg', hk'.trans hk, hbuffer'.trans hbuffer, by rwa [hsqe]⟩

theorem mapFut (h : Given l) (hg : l.futs g = some f)
    (hbufs : ∀ b u, l'.bufs b = some u → l.bufs b = some u)
    (hfuts : l'.futs = Function.update l.futs g (some f')) (hk : f'.kind = f.kind)
    (hbuffer : f'.buffer = f.buffer) (hsqe : f'.sqe = f.sqe) : Given l' := by
  refine h.mapFuts hbufs fun g₂ f₂ hg₂ => ?_
  rw [hfuts]
  by_cases hgg : g₂ = g
  · subst hgg
    obtain rfl := Option.some.inj (hg.symm.trans hg₂)
    exact ⟨f', Function.update_self .., hk, hbuffer, hsqe⟩
  · exact ⟨f₂, (Function.update_of_ne hgg ..).trans hg₂, rfl, rfl, rfl⟩

/-- A buffer moves to the kernel, or from there into an event. -/
theorem moveBuf (h : Given l) {b : ℕ} {place : Place} (hfuts : l'.futs = l.futs)
    (hbufs : l'.bufs = (l.moveBuf b place).bufs)
    (hb : ∀ u, l.bufs b = some u → ∀ g f, u.place = .requested g → l.futs g = some f →
      f.sqe.bid.toNat = b ∧ f.sqe.addrSplice = u.buffer.ptr) : Given l' := by
  intro i u hi
  rw [hbufs, Ledger.moveBuf] at hi
  by_cases hib : i = b
  · subst hib
    simp only [Function.update_self] at hi
    obtain ⟨u₀, hu₀, rfl⟩ := Option.map_eq_some_iff.1 hi
    obtain ⟨g, f, len, hg, hk, hbuffer, hplace⟩ := h i u₀ hu₀
    exact ⟨g, f, len, hfuts ▸ hg, hk, hbuffer,
      .inr (hplace.elim (fun hreq => hb u₀ hu₀ g f hreq hg) id)⟩
  · simp only [Function.update_of_ne hib] at hi
    rw [hfuts]
    exact h i u hi

/-- A future is created. -/
theorem create (h : Given l) (hnew : l.futs l.nextFut = none) {cqid : ℕ} {kind : FutureKind}
    {buffer : Option (FixedVec UInt8)} : Given (l.create cqid kind buffer) := by
  have hold : ∀ b u, l.bufs b = some u → ∃ g f len,
      (l.create cqid kind buffer).futs g = some f ∧ f.kind = .provide b len ∧
      f.buffer = some u.buffer ∧
      (u.place = .requested g ∨ f.sqe.bid.toNat = b ∧ f.sqe.addrSplice = u.buffer.ptr) := by
    intro b u hb
    obtain ⟨g, f, len, hg, hrest⟩ := h b u hb
    have hne : g ≠ l.nextFut := by
      rintro rfl
      rw [hnew] at hg
      cases hg
    exact ⟨g, f, len, (Function.update_of_ne hne ..).trans hg, hrest⟩
  intro b u hb
  cases kind with
  | completion => exact hold b u hb
  | read => exact hold b u hb
  | provide bufid len =>
    cases buffer with
    | none => exact hold b u hb
    | some buffer =>
      simp only [Ledger.create] at hb
      by_cases hbb : b = bufid
      · subst hbb
        rw [Function.update_self, Option.some.injEq] at hb
        subst hb
        exact ⟨_, _, len, Function.update_self .., rfl, rfl, .inl rfl⟩
      · rw [Function.update_of_ne hbb] at hb
        exact hold b u hb

theorem complete (h : Given l) {buffers : Slots (FixedVec UInt8)} (hp : Pool buffers l)
    {cqe : Cqe} (hg : l.futs g = some f) (hsqe : SqeOk f f.sqe) (hst : f.stage = .published)
    {held : List (UInt16 × UInt64)} {bufs : ℕ → Option BufUse}
    (ht : l.Transfer g f cqe held bufs) :
    Given { l with
      futs := Function.update l.futs g (some { f with stage := .completed cqe })
      held, bufs } := by
  have hf : Given { l with
      futs := Function.update l.futs g (some { f with stage := .completed cqe }) } :=
    h.mapFut hg (fun _ _ hb => hb) rfl rfl rfl rfl
  cases ht with
  | none hprovide hread => exact hf
  | given hprovide hok =>
    obtain ⟨bufid, hbufid⟩ := Option.isSome_iff_exists.1 hprovide
    obtain ⟨len, hk⟩ := FutureKind.eq_provide hbufid
    obtain ⟨buffer, hbuffer, hu⟩ := (hp.futs g f hg).requested bufid len hk
      (by simp [Fut.Providing, hst])
    obtain ⟨hbid, buffer', hbuffer', hptr⟩ := hsqe.buffer bufid len hk
    obtain rfl := Option.some.inj (hbuffer.symm.trans hbuffer')
    have hb : f.sqe.bid.toNat = bufid := by rw [hbid, hp.toNat_ofNat hu]
    refine hf.moveBuf rfl rfl fun u hu' g₂ f₂ hreq hg₂ => ?_
    rw [hb] at hu'
    obtain rfl := Option.some.inj (hu.symm.trans hu')
    obtain rfl := Place.requested.inj hreq
    simp only [Function.update_self, Option.some.injEq] at hg₂
    subst hg₂
    exact ⟨rfl, hptr⟩
  | handed hread hmem hbid =>
    obtain ⟨buffer, hu, -⟩ := hp.held _ hmem
    refine hf.moveBuf rfl rfl fun u hu' g₂ f₂ hreq hg₂ => ?_
    obtain rfl := Option.some.inj (hu.symm.trans hu')
    cases hreq

theorem move {a : Act} (hc : w.Consistent) (hp : Pool w.ctx.buffers w.ledger)
    (h : Given w.ledger) (hm : Move w a w') : Given w'.ledger := by
  have hnew := hc.tables.futs_nextFut
  cases hm with
  | runtime hsame =>
    rcases hsame.ledger with heq | ⟨task, heq⟩
    · exact heq ▸ h
    · rw [heq]
      exact h
  | ring _ => exact h
  | complete hg hl =>
    obtain ⟨f, held, bufs, hg', hst, ht, rfl⟩ := Ledger.complete_eq_some hl
    exact h.complete hp hg' ((hc.tables.futs _ f hg').2.sent (.inl hst)) hst ht
  | post hg hst hroom =>
    exact h.mapFut hg (fun _ _ hb => hb) (Ledger.futs_modifyFut hg _) rfl rfl rfl
  | newFuture hcall hfrom => exact h.create hnew
  | request hcall hs hreq hfrom => exact h.create hnew
  | openSession _ _ => exact h
  | fill hcall hs hg hfill =>
    exact h.mapFut hg (fun _ _ hb => hb) (Ledger.futs_modifyFut hg _) rfl rfl rfl
  | @publish s sq hs hpub queued =>
    have hlinked : Linked _ (some s) _ := hs ▸ hc.tables.linked
    have hsent := Ledger.publish_eq w.ledger (s.linked.zip (sq.published w.ctx.sq.sq.ktail s.count))
    intro b u hb
    obtain ⟨g, f, len, hg, hk, hbuffer, hplace⟩ := h b u (by rwa [hsent] at hb)
    rcases Ledger.publish_futs w.ledger (s.linked.zip _) g with heq | ⟨⟨sqe', hmem⟩, sqe, heq⟩
    · exact ⟨g, f, len, heq.trans hg, hk, hbuffer, hplace⟩
    · -- its buffer is still with the request
      obtain ⟨f', hg', hst⟩ := hlinked.prepared (List.of_mem_zip hmem).1
      obtain rfl := Option.some.inj (hg.symm.trans hg')
      obtain ⟨buffer, -, hu⟩ := (hp.futs g f hg).requested b len hk (Fut.providing_of_prepared hst)
      rw [hsent, hu, Option.some.injEq] at hb
      subst hb
      rw [hg, Option.map_some] at heq
      exact ⟨g, _, len, heq, hk, hbuffer, .inl rfl⟩
  | @abandon s hs =>
    rw [Ledger.abandon_eq]
    refine h.mapFuts (fun _ _ hb => hb) fun g f hg => ?_
    rcases Ledger.abandon_futs w.ledger s.linked g with heq | ⟨-, heq⟩
    · exact ⟨f, heq.trans hg, rfl, rfl, rfl⟩
    · rw [hg, Option.map_some] at heq
      exact ⟨_, heq, rfl, rfl, rfl⟩
  | setMustWait hg hlive mustWait =>
    exact h.mapFut hg (fun _ _ hb => hb) (Ledger.futs_modifyFut hg _) rfl rfl rfl
  | pending hcall hg hlive hce hcqe hcurrent =>
    exact h.mapFut hg (fun _ _ hb => hb) (Ledger.futs_modifyFut hg _) rfl rfl rfl
  | ready hcall hg hlive hce hcqe hcurrent =>
    exact h.mapFut hg (fun _ _ hb => hb) (Ledger.futs_modifyFut hg _) rfl rfl rfl
  | resolve hcall hg hlive hkind hce hcqe hget =>
    refine h.mapFut hg (fun b u hb => ?_) (congrArg Ledger.futs (Ledger.resolve_eq hg _ _)) rfl rfl
      rfl
    rw [Ledger.resolve_eq hg] at hb
    exact Ledger.bufsTaken_le hb
  | dropReady hcall hg hlive hce hcqe =>
    exact h.mapFut hg (fun _ _ hb => hb) (Ledger.futs_modifyFut hg _) rfl rfl rfl
  | die hcall hg hlive hce hcqe hmustWait =>
    exact h.mapFut hg (fun _ _ hb => hb) (Ledger.futs_modifyFut hg _) rfl rfl rfl
  | beginWait hcall hs hg hlive hce hcqe hmustWait =>
    exact h.mapFut hg (fun _ _ hb => hb) (Ledger.futs_modifyFut hg _) rfl rfl rfl
  | cancel _ => exact h
  | endWait hcall hg hce hcqe =>
    exact h.mapFut hg (fun _ _ hb => hb) (Ledger.futs_modifyFut hg _) rfl rfl rfl
  | lose hg hlive hcall =>
    exact h.mapFut hg (fun _ _ hb => hb) (Ledger.futs_modifyFut hg _) rfl rfl rfl
  | @process g f cqe ce rest intoRunqueue hp hg hst hud hce hok =>
    obtain ⟨completions, heq, -⟩ := takeCqe_eq intoRunqueue hst hud hce hok
    have hledger : w.ledger.process (g, cqe) = _ := Ledger.process_eq hg
    rw [heq]
    refine h.mapFut hg (fun b u hb => ?_) (congrArg Ledger.futs hledger) rfl rfl rfl
    simp only [hledger] at hb
    exact Ledger.bufsAfter_le hb

end Given

theorem Reachable.given (h : Reachable hs w) : Given w.ledger := by
  have hinv : Pool w.ctx.buffers w.ledger ∧ Given w.ledger := by
    refine h.keeps (I := fun w => Pool w.ctx.buffers w.ledger ∧ Given w.ledger)
      (fun w hi => ⟨hi.pool, ?_⟩) fun _ _ _ hc hi hm => ⟨Pool.move hc hi.1 hm, hi.2.move hc hi.1 hm⟩
    rw [hi.ledger]
    intro b u hb
    cases hb
  exact hinv.2

/-! ## What the kernel may write to is in the pool -/

/-- What the kernel may write to, and what it has handed out and not been consumed, is in the table
under the id the kernel knows it by, and is the buffer whose address it was given. -/
structure HeldBuffers (hs : Hashes) (w : World) : Prop where
  /-- a request to provide a buffer, until it has succeeded; if it fails, until its event is
  processed, and as long as its future lives -/
  requested : ∀ g f bufid len, w.ledger.futs g = some f → f.kind = .provide bufid len →
    f.Sent → f.Providing → f.sqe.bid.toNat = bufid ∧ ∃ buffer,
      w.ctx.buffers.get bufid = some buffer ∧ f.buffer = some buffer ∧
      f.sqe.addrSplice = buffer.ptr
  held : ∀ p ∈ w.ledger.held, ∃ buffer,
    w.ctx.buffers.get p.1.toNat = some buffer ∧ buffer.ptr = p.2
  /-- the event of a read that has not consumed it -/
  handed : ∀ g f cqe bid, w.ledger.futs g = some f → f.kind = .read →
    f.stage.event? = some cqe → cqe.bufId = some bid → ∃ buffer,
      w.ctx.buffers.get bid.toNat = some buffer ∧ ∃ g' f' len, w.ledger.futs g' = some f' ∧
        f'.kind = .provide bid.toNat len ∧ f'.buffer = some buffer ∧ f'.sqe.bid = bid ∧
        f'.sqe.addrSplice = buffer.ptr
  /-- no two buffers the kernel holds share an id -/
  nodup : (w.ledger.held.map Prod.fst).Nodup
  /-- no future panics on its event -/
  resolves : ∀ g p w', w.step hs (.poll g) = some (.panicked p, w') →
    p = .alreadyBorrowed ∨ p = .outsideUringContext

/-- The future of a request does not panic on its event. -/
theorem Pool.resolve_ok {ctx : IOContext} (h : Pool w.ctx.buffers w.ledger) {g : ℕ} {f : Fut}
    {cqe : Cqe} {time : ℕ} (hg : w.ledger.futs g = some f) (hlive : f.life = .live)
    (hst : f.stage = .processed cqe time) (hbuffers : ctx.buffers = w.ctx.buffers) (p : Panic) :
    resolve ctx f.kind cqe ≠ .error p := by
  have hf := h.futs g f hg
  have hev : f.stage.event? = some cqe := by
    rw [hst]
    rfl
  have hremove : ∀ {b u}, w.ledger.bufs b = some u → (ctx.buffers.remove b).1 ≠ none := by
    intro b u hu
    rw [Slots.remove_fst, hbuffers, h.keys, hu]
    nofun
  intro hres
  cases hk : f.kind with
  | completion => simp [LinkedSubmitter.resolve, hk] at hres
  | read =>
    cases herr : cqe.isErr with
    | true => simp [LinkedSubmitter.resolve, hk, Cqe.result_of_isErr herr] at hres
    | false =>
      obtain ⟨bid, hid⟩ := Option.ne_none_iff_exists'.1 (hf.carries cqe hk hev herr)
      obtain ⟨buffer, hu⟩ := hf.handed cqe bid hk hev hid
      simp only [LinkedSubmitter.resolve, hk, Cqe.result_of_not_isErr herr, hid] at hres
      split at hres
      · rename_i hrem
        exact hremove hu (congrArg Prod.fst hrem)
      · cases hres
  | provide bufid len =>
    cases herr : cqe.isErr with
    | false => simp [LinkedSubmitter.resolve, hk, Cqe.result_of_not_isErr herr] at hres
    | true =>
      obtain ⟨buffer, -, hu⟩ :=
        hf.requested bufid len hk (by simp [Fut.Providing, hst, herr, hlive])
      simp only [LinkedSubmitter.resolve, hk, Cqe.result_of_isErr herr] at hres
      split at hres
      · rename_i hrem
        exact hremove hu (congrArg Prod.fst hrem)
      · cases hres

/-- **The kernel never holds a buffer that the pool has given up**, in any reachable state. -/
theorem Reachable.heldBuffers (h : Reachable hs w) : w.HeldBuffers hs := by
  have hc := h.consistent
  have hp := h.pool
  have hget : ∀ {b u}, w.ledger.bufs b = some u → w.ctx.buffers.get b = some u.buffer := by
    intro b u hu
    rw [hp.keys, hu, Option.map_some]
  refine ⟨fun g f bufid len hg hk hsent hprov => ?_, fun p hmem => ?_,
    fun g f cqe bid hg hk hev hid => ?_, hp.nodup, fun g p w' hw => ?_⟩
  · obtain ⟨buffer, hbuffer, hu⟩ := (hp.futs g f hg).requested bufid len hk hprov
    obtain ⟨hbid, buffer', hbuffer', hptr⟩ :=
      ((hc.tables.futs g f hg).2.sent hsent).buffer bufid len hk
    obtain rfl := Option.some.inj (hbuffer.symm.trans hbuffer')
    exact ⟨by rw [hbid, hp.toNat_ofNat hu], buffer, hget hu, hbuffer, hptr⟩
  · obtain ⟨buffer, hu, hptr⟩ := hp.held p hmem
    exact ⟨buffer, hget hu, hptr⟩
  · obtain ⟨buffer, hu⟩ := (hp.futs g f hg).handed cqe bid hk hev hid
    obtain ⟨g', f', len, hg', hk', hbuffer', hplace⟩ := h.given _ _ hu
    obtain ⟨hbid, hptr⟩ := hplace.resolve_left nofun
    exact ⟨buffer, hget hu, g', f', len, hg', hk', hbuffer', UInt16.toNat_inj.1 hbid, hptr⟩
  · rcases hc.panics hw with
      _ | _ | _ | _ | @⟨_, f, ce, cqe, ctx, _, hg, hlive, hce, hcqe, hres, hbuffers⟩
    · exact .inl rfl
    · exact .inr rfl
    · obtain ⟨time, hst⟩ := (hc.entryOk hg hlive hce).processed hcqe
      exact absurd hres (Pool.resolve_ok hp hg hlive hst hbuffers _)

end World

end Hamerkop
