import Hamerkop.Executor.Pool

/-!
# Requests that fail

A request can fail in three places: before it is made, because the pool is full;
while it waits for a slot, because `io_uring_enter` fails; and when it is carried
out.

`World.failsAtomically_iff` says what each leaves behind.  In a run every failure
leaves tables, queue and buffer as they were before the request, exactly if none is
of the second kind: there `submit_sqe` drops the future it has made, whose `drop`
borrows the context that the session has borrowed, and panics
(`failedSlotWait_not_atomic`).
-/

namespace Hamerkop

open Runs LinkedSubmitter

/-- The buffer that a request was given, as its caller had it. -/
def Fut.given? (f : Fut) : Option (FixedVec UInt8) :=
  match f.kind with
  | .provide _ len => f.buffer.map fun buffer => buffer.setLen len
  | _ => none

theorem FixedVec.setLen_clear (v : FixedVec UInt8) : v.clear.setLen v.len = v := rfl

namespace LinkedSubmitter

/-- A request is turned down only if it is to provide a buffer, which it gives back. -/
theorem beginRequest_rejected {ctx : IOContext} {req : Request} {err : IoError}
    {buffer : FixedVec UInt8} (h : beginRequest ctx req = some (.rejected err buffer)) :
    req = .provideBuffer buffer := by
  cases req with
  | provideBuffer b =>
    simp only [beginRequest] at h
    split at h
    · split at h
      · simp only [Option.some.injEq, Begun.rejected.injEq] at h
        rw [h.2]
      · obtain ⟨_, -, hr⟩ := Option.map_eq_some_iff.1 h
        cases hr
    · cases h
  | readBuf fd data len | writeBuf fd data len =>
    simp only [beginRequest] at h
    split at h <;> cases h
  | _ => cases h

end LinkedSubmitter

namespace World

variable {hs : Hashes} {w w' : World} {e : Event} {out : Out} {g : ℕ} {f : Fut} {a : Act}

/-! ## What is said of failures -/

/-- A failed request leaves everything as it was before, and gives its buffer back. -/
structure FailsAtomically (hs : Hashes) (w : World) (e : Event) (w' : World) : Prop where
  /-- the pool is full -/
  rejected : ∀ req err buffer, e = .request req → w.step hs e = some (.rejected err buffer, w') →
    w' = w ∧ ∃ given, req = .provideBuffer given ∧ buffer = some given
  /-- `io_uring_enter` fails while the request waits for a slot -/
  submit : ∀ g r f errno args out, w.call = .slotWait g r → w.ledger.futs g = some f →
    e = .enter (.error errno) → w.ctx.sq.enterCall 0 = some args →
    IOContext.isBusy errno = false → w.step hs e = some (out, w') →
      out = .rejected (.os errno) f.given? ∧ w'.ctx.sq.sq.ktail = w.ctx.sq.sq.ktail ∧
      w'.ctx.completions.get = Function.update w.ctx.completions.get f.cqid none ∧
      w'.ctx.buffers.get = match f.kind.bufid? with
        | some bufid => Function.update w.ctx.buffers.get bufid none
        | none => w.ctx.buffers.get
  /-- the request is carried out, with an error -/
  completed : ∀ g f err buffer, e = .poll g → w.ledger.futs g = some f →
    w.step hs e = some (.ready (.provided (.error (err, buffer))), w') → f.given? = some buffer

/-- `io_uring_enter` does not fail while a request waits for a slot. -/
def SlotWaitSubmits (w : World) : Event → Prop
  | .enter (.error errno) => ∀ g r args, w.call = .slotWait g r →
      w.ctx.sq.enterCall 0 = some args → IOContext.isBusy errno = true
  | _ => True

/-- The request of a future that is to provide a buffer knows which one: it is the caller's when
the request is made, and stays so. -/
def KnowsBuffers (hs : Hashes) (w : World) (l : List (Event × World)) : Prop :=
  ∀ l₁ l₂ u buffer, l = l₁ ++ (.request (.provideBuffer buffer), u) :: l₂ →
    (final w l₁).step hs (.request (.provideBuffer buffer)) = some (.silent, u) →
      ∃ f, (final u l₂).ledger.futs (final w l₁).ledger.nextFut = some f ∧ f.given? = some buffer

/-! ## The request of a future does not change -/

/-- A future moves on with the request it has. -/
def SameRequest (w' : World) (g : ℕ) (f : Fut) : Prop :=
  ∃ f', w'.ledger.futs g = some f' ∧ f'.kind = f.kind ∧ f'.buffer = f.buffer

theorem sameRequest_update {g₀ : ℕ} {f₀ f₀' : Fut} (hg₀ : w.ledger.futs g₀ = some f₀)
    (hfuts : w'.ledger.futs = Function.update w.ledger.futs g₀ (some f₀'))
    (hkind : f₀'.kind = f₀.kind) (hbuffer : f₀'.buffer = f₀.buffer)
    (hg : w.ledger.futs g = some f) : w'.SameRequest g f := by
  rw [SameRequest, hfuts]
  by_cases hgg : g = g₀
  · subst hgg
    obtain rfl := Option.some.inj (hg₀.symm.trans hg)
    exact ⟨f₀', Function.update_self .., hkind, hbuffer⟩
  · exact ⟨f, by rw [Function.update_of_ne hgg, hg], rfl, rfl⟩

theorem sameRequest_create {cqid : ℕ} {kind : FutureKind} {buffer : Option (FixedVec UInt8)}
    (hc : w.Consistent) (hfuts : w'.ledger.futs = (w.ledger.create cqid kind buffer).futs)
    (hg : w.ledger.futs g = some f) : w'.SameRequest g f := by
  have hne : g ≠ w.ledger.nextFut := fun heq => by
    have hlt := (hc.tables.futs g f hg).1
    omega
  refine ⟨f, ?_, rfl, rfl⟩
  rw [hfuts]
  exact (Function.update_of_ne hne ..).trans hg

theorem Move.sameRequest (hc : w.Consistent) (hm : Move w a w') (hg : w.ledger.futs g = some f) :
    w'.SameRequest g f := by
  have hsame {w' : World} (hfuts : w'.ledger.futs = w.ledger.futs) : w'.SameRequest g f :=
    ⟨f, hfuts ▸ hg, rfl, rfl⟩
  cases hm with
  | runtime hrun =>
    refine hsame ?_
    rcases hrun.ledger with heq | ⟨task, heq⟩
    · rw [heq]
    · rw [heq]
      rfl
  | ring _ => exact hsame rfl
  | complete _ hl =>
    obtain ⟨f₀, held, bufs, hg₀, -, -, rfl⟩ := Ledger.complete_eq_some hl
    exact sameRequest_update hg₀ rfl rfl rfl hg
  | newFuture hcall hnew => exact sameRequest_create hc rfl hg
  | request hcall hs hreq hnew => exact sameRequest_create hc rfl hg
  | openSession _ _ => exact hsame rfl
  | @publish s sq hs hpub queued =>
    rcases Ledger.publish_futs w.ledger (s.linked.zip _) g with heq | ⟨-, sqe, heq⟩
    · exact ⟨f, heq.trans hg, rfl, rfl⟩
    · rw [hg, Option.map_some] at heq
      exact ⟨_, heq, rfl, rfl⟩
  | @abandon s hs =>
    rcases Ledger.abandon_futs w.ledger s.linked g with heq | ⟨-, heq⟩
    · exact ⟨f, heq.trans hg, rfl, rfl⟩
    · rw [hg, Option.map_some] at heq
      exact ⟨_, heq, rfl, rfl⟩
  | cancel _ => exact hsame rfl
  | resolve hcall hg₀ hlive hkind hce hcqe hget =>
    exact sameRequest_update hg₀ (congrArg Ledger.futs (Ledger.resolve_eq hg₀ _ _)) rfl rfl hg
  | @process g₀ f₀ cqe ce rest intoRunqueue hp hg₀ hst hud hce hok =>
    obtain ⟨completions, heq, -⟩ := takeCqe_eq intoRunqueue hst hud hce hok
    rw [heq]
    exact sameRequest_update hg₀ (congrArg Ledger.futs (Ledger.process_eq hg₀)) rfl rfl hg
  | post hg₀ | fill _ _ hg₀ | setMustWait hg₀ | pending _ hg₀ | ready _ hg₀ | dropReady _ hg₀
  | die _ hg₀ | beginWait _ _ hg₀ | endWait _ hg₀ | lose hg₀ =>
    exact sameRequest_update hg₀ (Ledger.futs_modifyFut hg₀ _) rfl rfl hg

/-- A future is there, and was given this buffer. -/
def Knows (w : World) (g : ℕ) (buffer : FixedVec UInt8) : Prop :=
  ∃ f, w.ledger.futs g = some f ∧ f.given? = some buffer

theorem Knows.step {buffer : FixedVec UInt8} (h : w.Knows g buffer) (hc : w.Consistent)
    (hw : w.step hs e = some (out, w')) : w'.Knows g buffer := by
  refine ((hc.step_does hw).keeps (I := fun u => u.Knows g buffer)
    (fun u a v hu _ hi hm => ?_) hc h).2
  obtain ⟨f, hg, hgiven⟩ := hi
  obtain ⟨f', hg', hkind, hbuffer⟩ := Move.sameRequest hu hm hg
  exact ⟨f', hg', by rw [← hgiven, Fut.given?, Fut.given?, hkind, hbuffer]⟩

theorem tryFill_knows {s : Session} {cqid : ℕ} {r : Started} {buffer : FixedVec UInt8} {g₀ : ℕ}
    (h : w.Knows g buffer) : (w.tryFill s g₀ cqid r).Knows g buffer := by
  obtain ⟨f, hg, hgiven⟩ := h
  rw [tryFill]
  split
  · by_cases hgg : g = g₀
    · subst hgg
      refine ⟨{ f with stage := .prepared, mustWait := r.mustWait }, ?_, hgiven⟩
      rw [Ledger.futs_modifyFut hg, Function.update_self]
    · refine ⟨f, ?_, hgiven⟩
      rw [Ledger.modifyFut_futs, Function.update_of_ne hgg, hg]
  · exact ⟨f, hg, hgiven⟩

/-- The future of a request that is made knows the buffer its caller gave. -/
theorem request_knows {buffer : FixedVec UInt8}
    (hw : w.request (.provideBuffer buffer) = some (.silent, w')) :
    w'.Knows w.ledger.nextFut buffer := by
  obtain ⟨s, hs, hw⟩ := Option.bind_eq_some_iff.1 hw
  obtain ⟨begun, hreq, hw⟩ := Option.bind_eq_some_iff.1 hw
  cases begun with
  | panicked p => cases hw
  | rejected err back => cases hw
  | started r ctx =>
    obtain ⟨⟨cqid, ctx'⟩, hnew, hw⟩ := Option.bind_eq_some_iff.1 hw
    simp only [Option.ite_none_left_eq_some, Option.some.injEq, Prod.mk.injEq] at hw
    obtain ⟨-, -, rfl⟩ := hw
    obtain ⟨bufid, hkind, hget, -⟩ := beginRequest_provide hreq
    obtain ⟨⟨i, completions⟩, -, hpair⟩ := Option.map_eq_some_iff.1 hnew
    obtain ⟨rfl, rfl⟩ := Prod.mk.inj hpair
    refine tryFill_knows ⟨_, Function.update_self .., ?_⟩
    simp only [Fut.given?, hkind, FutureKind.bufid?, Option.bind_some, hget, Option.map_some,
      FixedVec.setLen_clear]

/-! ## The three failures -/

/-- A pool that is full takes no buffer, and gives it back. -/
theorem request_rejected {req : Request} {err : IoError} {buffer : Option (FixedVec UInt8)}
    (hw : w.step hs (.request req) = some (.rejected err buffer, w')) :
    w' = w ∧ ∃ given, req = .provideBuffer given ∧ buffer = some given := by
  have hw := (Option.ite_none_right_eq_some.1 hw).2
  obtain ⟨s, hs, hw⟩ := Option.bind_eq_some_iff.1 hw
  obtain ⟨begun, hreq, hw⟩ := Option.bind_eq_some_iff.1 hw
  cases begun with
  | panicked p => cases hw
  | rejected err' back =>
    simp only [Option.some.injEq, Prod.mk.injEq, Out.rejected.injEq] at hw
    obtain ⟨⟨-, rfl⟩, rfl⟩ := hw
    exact ⟨rfl, back, beginRequest_rejected hreq, rfl⟩
  | started r ctx =>
    obtain ⟨⟨cqid, ctx'⟩, hnew, hw⟩ := Option.bind_eq_some_iff.1 hw
    simp at hw

/-- The future of a request to provide a buffer takes it out of the pool if it has failed. -/
theorem resolve_provided {ctx ctx' : IOContext} {kind : FutureKind} {cqe : Cqe} {err : IoError}
    {buffer : FixedVec UInt8}
    (h : resolve ctx kind cqe = .ok (.provided (.error (err, buffer)), ctx')) :
    ∃ bufid len b, kind = .provide bufid len ∧ cqe.isErr = true ∧
      ctx.buffers.get bufid = some b ∧ buffer = b.setLen len := by
  cases kind with
  | completion => cases h
  | read =>
    simp only [resolve] at h
    repeat' split at h
    all_goals cases h
  | provide bufid len =>
    cases herr : cqe.isErr with
    | false =>
      simp only [resolve, Cqe.result_of_not_isErr herr] at h
      cases h
    | true =>
      simp only [resolve, Cqe.result_of_isErr herr] at h
      split at h
      · cases h
      · rename_i b buffers hrem
        simp only [Except.ok.injEq, Prod.mk.injEq, Resolved.provided.injEq, Except.error.injEq] at h
        refine ⟨bufid, len, b, rfl, rfl, ?_, h.1.2.symm⟩
        rw [← Slots.remove_fst, hrem]

/-- A request that is carried out with an error gives back the buffer it took. -/
theorem Reachable.poll_provided (h : Reachable hs w) (hg : w.ledger.futs g = some f)
    {err : IoError} {buffer : FixedVec UInt8}
    (hw : w.step hs (.poll g) = some (.ready (.provided (.error (err, buffer))), w')) :
    f.given? = some buffer := by
  have hc := Reachable.consistent h
  have hw := (Option.ite_none_right_eq_some.1 hw).2
  obtain ⟨f', hf, hw⟩ := Option.map_eq_some_iff.1 hw
  obtain ⟨hg', hlive⟩ := liveFut_eq_some hf
  obtain rfl := Option.some.inj (hg.symm.trans hg')
  obtain ⟨ce, hce, hok⟩ := hc.entry hg hlive
  rw [poll_eq hce] at hw
  cases hcurrent : w.currentTask with
  | none =>
    simp only [hcurrent, Option.map_none] at hw
    split at hw <;> cases hw
  | some current =>
    cases hcqe : ce.cqe with
    | none =>
      simp only [hcurrent, hcqe, Option.map_some] at hw
      split at hw <;> cases hw
    | some cqe =>
      obtain ⟨time, hst⟩ := hok.processed hcqe
      have hpolled : (w.ctx.completions.modify f.cqid fun ce =>
          { ce with task := current.1 }).get f.cqid = some { ce with task := current.1 } := by
        rw [Slots.get_modify, Function.update_self, hce, Option.map_some]
      simp only [hcurrent, hcqe, Option.map_some, CompletionFuture.drop, hpolled,
        Option.isSome_some, if_true] at hw
      split at hw
      · cases hw
      split at hw
      · cases hw
      split at hw
      · cases hw
      · rename_i res ctx hres
        obtain ⟨hout, -⟩ := Prod.mk.inj hw
        rw [Out.ready.inj hout] at hres
        obtain ⟨bufid, len, b, hk, herr, hb, rfl⟩ := resolve_provided hres
        have hproviding : f.Providing := by simp [Fut.Providing, hst, herr, hlive]
        have hpool := Reachable.pool h
        obtain ⟨b', hbuffer, hu⟩ := (hpool.futs g f hg).requested bufid len hk hproviding
        have hget := hpool.keys bufid
        rw [hu, Option.map_some] at hget
        obtain rfl := Option.some.inj (hb.symm.trans hget)
        simp only [Fut.given?, hk, hbuffer, Option.map_some]

/-- A submission that fails while a request waits for a slot panics in the `drop` of its future. -/
theorem enter_slotWait_failed {r : Started} {errno : Errno} {args : EnterArgs}
    (hcall : w.call = .slotWait g r) (henter : w.ctx.sq.enterCall 0 = some args)
    (hfatal : IOContext.isBusy errno = false)
    (hw : w.step hs (.enter (.error errno)) = some (out, w')) :
    out = .panicked .alreadyBorrowed ∧ ∃ f, w.ledger.futs g = some f := by
  simp only [World.step, World.enter, hcall] at hw
  obtain ⟨s, hs, hw⟩ := Option.bind_eq_some_iff.1 hw
  obtain ⟨f, hg, hw⟩ := Option.bind_eq_some_iff.1 hw
  rw [IOContext.submitOnce_failed henter hfatal] at hw
  simp only [Option.some.injEq, Prod.mk.injEq] at hw
  exact ⟨hw.1.symm, f, hg⟩

/-! ## Which runs fail atomically -/

/-- Nothing that happens after a request takes its buffer from its future. -/
theorem Reachable.knowsBuffers {l : List (Event × World)} (h : Reachable hs w)
    (hr : Run (Step hs) w l) : KnowsBuffers hs w l := by
  intro l₁ l₂ u buffer hl hw
  rw [hl, Run.append_iff] at hr
  have hfinal : Reachable hs (final w l₁) :=
    Runs.Reachable.run h hr.1 _ (final_mem_states w l₁)
  obtain ⟨hst, hrest⟩ := Run.cons_iff.1 hr.2
  have hknows := request_knows (Option.ite_none_right_eq_some.1 hw).2
  have hinv : ∀ v ∈ states u l₂, Reachable hs v ∧ v.Knows _ buffer :=
    hrest.invariant_of_events (I := fun v => Reachable hs v ∧ v.Knows _ buffer)
      (C := fun _ => True)
      (fun v e v' hv _ hstep => by
        obtain ⟨out, hout⟩ := hstep
        exact ⟨hv.1.tail ⟨out, hout⟩, hv.2.step (Reachable.consistent hv.1) hout⟩)
      ⟨hfinal.tail hst, hknows⟩ fun _ _ => trivial
  exact (hinv _ (final_mem_states u l₂)).2

/-- **In a run every failure leaves things as they were before the request, and gives the buffer
back, iff no submission fails while a request waits for a slot.** -/
theorem failsAtomically_iff {l : List (Event × World)} (h0 : w.Init) (hr : Run (Step hs) w l) :
    ((∀ x ∈ steps w l, FailsAtomically hs x.1 x.2.1 x.2.2) ∧ KnowsBuffers hs w l) ↔
      ∀ x ∈ steps w l, x.1.SlotWaitSubmits x.2.1 := by
  rw [and_iff_left (Reachable.knowsBuffers (.init h0) hr)]
  refine hr.forall_steps_iff (I := Reachable hs) (C := SlotWaitSubmits)
    (Q := fun u e v => FailsAtomically hs u e v) ?_ ?_ (.init h0)
  · rintro u e v hu he ⟨out, hw⟩
    refine ⟨hu.tail ⟨out, hw⟩, ?_, ?_, ?_⟩
    · rintro req err buffer rfl hrej
      exact request_rejected hrej
    · rintro g r f errno args out' hcall - rfl henter hfatal -
      rw [he g r args hcall henter] at hfatal
      cases hfatal
    · rintro g f err buffer rfl hg hready
      exact Reachable.poll_provided hu hg hready
  · rintro u e v hu he ⟨out, hw⟩ hatomic
    cases e with
    | enter ret =>
      cases ret with
      | ok count => exact he trivial
      | error errno =>
        simp only [SlotWaitSubmits, not_forall, Bool.not_eq_true] at he
        obtain ⟨g, r, args, hcall, henter, hfatal⟩ := he
        obtain ⟨rfl, f, hg⟩ := enter_slotWait_failed hcall henter hfatal hw
        obtain ⟨hout, -⟩ := hatomic.submit g r f errno args _ hcall hg rfl henter hfatal hw
        cases hout
    | _ => exact he trivial

/-! ## A request that has to wait -/

/-- The second request of a session finds no slot, and waits until the kernel has taken the three
entries that are published. -/
def waitedForSlot : List Event :=
  [.openSession, .request (.read 0 16), .request (.read 0 16), .request (.read 0 16), .submit,
    .openSession, .request (.read 0 16), .request (.read 0 16), .consume 3, .enter (.ok 3), .submit]

theorem waitedForSlot_failsAtomically :
    EachStep (fun x => FailsAtomically ⟨id, id⟩ x.1 x.2.1 x.2.2) emptyWorld
      (play (next? ⟨id, id⟩) emptyWorld waitedForSlot) := by
  have hsub : PlaysWith (next? ⟨id, id⟩) SlotWaitSubmits emptyWorld waitedForSlot :=
    ⟨trivial, trivial, trivial, trivial, trivial, trivial, trivial, trivial, trivial, trivial,
      trivial, trivial⟩
  exact ((failsAtomically_iff emptyWorld_init (run_play _ _ _)).2 hsub.forall_steps).1

/-- **A submission that fails with `EINVAL` while a request waits for a slot is a panic.** -/
theorem failedSlotWait_not_atomic :
    ¬ ∀ (hs : Hashes) (u v : World) (e : Event), Reachable hs u → Step hs u e v →
      FailsAtomically hs u e v := by
  intro h
  have hr : emptyWorld.runs ⟨id, id⟩ (waitedForSlot.take 8) = some _ := rfl
  have hatomic := h ⟨id, id⟩ _ _ (.enter (.error 22)) (.runs (.init emptyWorld_init) hr) ⟨_, rfl⟩
  obtain ⟨hout, -⟩ := hatomic.submit 4 _ _ 22 _ (.panicked .alreadyBorrowed) rfl rfl rfl rfl rfl rfl
  cases hout

end World

end Hamerkop
