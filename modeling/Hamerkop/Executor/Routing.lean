import Hamerkop.Executor.Steps

/-!
# Completions are not misrouted

`World.Reachable.routed`: in every reachable state the slot of a request that is
published and not processed is still that of its own future, a future that is
polled only ever gets the event of its own request, no event belongs to two
futures, and no step panics because a `cqid` is invalid.

`Consistent.panics` lists the panics a step can end in at all.
-/

namespace Hamerkop

open LinkedSubmitter

namespace World

variable {hs : Hashes} {w w' : World} {e : Event} {out : Out} {p : Panic}

/-! ## How a step can panic -/

/-- The panics of a step that has the tables in order: the context is borrowed, a future is polled
outside of a task, an argument is out of range, more entries than fit are published, or the future
of a request panics on its event. -/
inductive Panics (w : World) : Event → Panic → Prop
  | borrowed {e : Event} (hs : w.session.isSome ∨ w.call.isNone = false) :
      Panics w e .alreadyBorrowed
  | outside {g : ℕ} : Panics w (.poll g) .outsideUringContext
  | request {r : Request} {p : Panic} (hr : beginRequest w.ctx r = some (.panicked p)) :
      Panics w (.request r) p
  | submit {s : Session} (hs : w.session = some s) (hpub : w.ctx.sq.publish s.count = none) :
      Panics w .submit .unwrapNone
  | resolve {g : ℕ} {f : Fut} {ce : CompletionEvent} {cqe : Cqe} {ctx : IOContext} {p : Panic}
      (hg : w.ledger.futs g = some f) (hlive : f.life = .live)
      (hce : w.ctx.completions.get f.cqid = some ce) (hcqe : ce.cqe = some cqe)
      (hres : resolve ctx f.kind cqe = .error p) (hbuffers : ctx.buffers = w.ctx.buffers) :
      Panics w (.poll g) p

theorem Consistent.poll_panics (h : w.Consistent) {g : ℕ} (hw : w.poll g = some (.panicked p, w')) :
    w.Panics (.poll g) p := by
  obtain ⟨f, hf, hw⟩ := Option.map_eq_some_iff.1 hw
  obtain ⟨hg, hlive⟩ := liveFut_eq_some hf
  obtain ⟨ce, hce, hok⟩ := h.entry hg hlive
  rw [poll_eq hce] at hw
  split at hw
  · rename_i hs
    obtain ⟨hp, -⟩ := Prod.mk.inj hw
    cases hp
    exact .borrowed (.inl hs)
  · cases hcurrent : w.currentTask with
    | none =>
      simp only [hcurrent, Option.map_none] at hw
      obtain ⟨hp, -⟩ := Prod.mk.inj hw
      cases hp
      exact .outside
    | some current =>
      cases hcqe : ce.cqe with
      | none => simp [hcurrent, hcqe] at hw
      | some cqe =>
        simp only [hcurrent, hcqe, Option.map_some] at hw
        split at hw
        · cases (Prod.mk.inj hw).1
        · have hpolled : (w.ctx.completions.modify f.cqid fun ce =>
              { ce with task := current.1 }).get f.cqid = some { ce with task := current.1 } := by
            rw [Slots.get_modify, Function.update_self, hce, Option.map_some]
          simp only [CompletionFuture.drop, hpolled, hcqe, Option.isSome_some, if_true] at hw
          split at hw
          · rename_i hres
            cases (Prod.mk.inj hw).1
            exact .resolve hg hlive hce hcqe hres rfl
          · cases (Prod.mk.inj hw).1

theorem Consistent.drop_panics (h : w.Consistent) {g : ℕ} (hw : w.drop g = some (.panicked p, w')) :
    w.Panics (.drop g) p := by
  obtain ⟨f, hf, hw⟩ := Option.map_eq_some_iff.1 hw
  obtain ⟨hg, hlive⟩ := liveFut_eq_some hf
  obtain ⟨ce, hce, hok⟩ := h.entry hg hlive
  simp only at hw
  split at hw
  · rename_i hs
    cases (Prod.mk.inj hw).1
    exact .borrowed (.inl hs)
  · simp only [CompletionFuture.drop, hce] at hw
    cases hcqe : ce.cqe with
    | some cqe => simp [hcqe] at hw
    | none =>
      cases hmw : f.mustWait with
      | false => simp [hcqe, hmw] at hw
      | true =>
        obtain hcancel | ⟨slot, sqe, -, hcancel⟩ := dropCancel_cases
          { w.ctx with
            completions := w.ctx.completions.modify f.cqid fun ce =>
              { ce with task := NO_TASK_SENTINEL } } f.cqid
        · simp [hcqe, hmw, hcancel] at hw
        · simp [hcqe, hmw, hcancel] at hw

theorem Consistent.enterSlotWait_panics (h : w.Consistent) {g : ℕ} {r : Started}
    {ret : Except Errno UInt32} (hw : w.enterSlotWait g r ret = some (.panicked p, w')) :
    w.Panics (.enter ret) p := by
  obtain ⟨s, hs, hw⟩ := Option.bind_eq_some_iff.1 hw
  obtain ⟨f, hg, hw⟩ := Option.bind_eq_some_iff.1 hw
  rcases h.submitOnce (P := fun _ => True) (fun _ => trivial) 0 ret with
    ⟨ctx, res, hsub, -⟩ | ⟨ctx, hsub, -⟩
  · cases res with
    | ok u => simp [hsub] at hw
    | error err =>
      simp only [hsub, Option.some.injEq, Prod.mk.injEq, Out.panicked.injEq] at hw
      exact hw.1 ▸ .borrowed (.inl (by simp [hs]))
  · simp [hsub] at hw

theorem Consistent.enterDropSlot_ne_panicked (h : w.Consistent) {g : ℕ}
    {ret : Except Errno UInt32} : w.enterDropSlot g ret ≠ some (.panicked p, w') := by
  intro hw
  obtain ⟨f, hg, hw⟩ := Option.map_eq_some_iff.1 hw
  rcases h.submitOnce (P := fun _ => True) (fun _ => trivial) 0 ret with
    ⟨ctx, res, hsub, -⟩ | ⟨ctx, hsub, -⟩
  · simp only [hsub] at hw
    obtain hcancel | ⟨slot, sqe, -, hcancel⟩ := dropCancel_cases ctx f.cqid
    · simp [hcancel] at hw
    · simp [hcancel] at hw
  · simp [hsub] at hw

theorem Consistent.enterDropWait_ne_panicked (h : w.Consistent) {g : ℕ}
    {ret : Except Errno UInt32} (hcall : w.call = .dropWait g) :
    w.enterDropWait g ret ≠ some (.panicked p, w') := by
  intro hw
  obtain ⟨f, hg, hw⟩ := Option.map_eq_some_iff.1 hw
  obtain ⟨-, f', hg', hlive⟩ : CallOk _ _ (.dropWait g) := hcall ▸ h.tables.call
  obtain rfl := Option.some.inj (hg.symm.trans hg')
  rcases h.submitOnce (P := fun _ => True) (fun _ => trivial) 1 ret with
    ⟨ctx, res, hsub, hring, -⟩ | ⟨ctx, hsub, -⟩
  · obtain ⟨ce, hce, -⟩ := (h.move hring).entry hg hlive
    simp only [hsub, CompletionFuture.dropWaited,
      show ctx.completions.get f.cqid = some ce from hce] at hw
    cases hcqe : ce.cqe <;> simp [hcqe] at hw
  · simp [hsub] at hw

theorem Consistent.enterTurn_ne_panicked (h : w.Consistent) {waitFor : UInt32}
    {ret : Except Errno UInt32} : w.enterTurn hs waitFor ret ≠ (.panicked p, w') := by
  intro hw
  rcases h.submitOnce (P := fun _ => True) (fun _ => trivial) waitFor ret with
    ⟨ctx, res, hsub, hring, -⟩ | ⟨ctx, hsub, -⟩
  · simp only [enterTurn, hsub] at hw
    cases res with
    | ok u =>
      obtain ⟨w₁, hstart, -⟩ := (h.move hring).startPolling hs (P := fun _ => True)
        trivial fun _ => trivial
      simp [hstart] at hw
    | error err => simp at hw
  · simp [enterTurn, hsub] at hw

/-- Of the calls of `io_uring_enter` only the one that waits for a slot may panic. -/
theorem Consistent.enter_panics (h : w.Consistent) {ret : Except Errno UInt32}
    (hw : w.enter hs ret = some (.panicked p, w')) : w.Panics (.enter ret) p := by
  rw [enter] at hw
  split at hw
  · exact h.enterSlotWait_panics hw
  · exact absurd hw h.enterDropSlot_ne_panicked
  · rename_i hcall
    exact absurd hw (h.enterDropWait_ne_panicked hcall)
  · split at hw
    · exact absurd (Option.some.inj hw) h.enterTurn_ne_panicked
    · cases hw

/-- An operation that borrows the context first, and does not panic after that. -/
theorem panics_of_borrow {out : Option (Out × World)}
    (hw : (if w.session.isSome then some (.panicked .alreadyBorrowed, w) else out) =
      some (.panicked p, w'))
    (hout : ∀ p w', out ≠ some (.panicked p, w')) : w.Panics e p := by
  split at hw
  · rename_i hs
    simp only [Option.some.injEq, Prod.mk.injEq, Out.panicked.injEq] at hw
    exact hw.1 ▸ .borrowed (.inl hs)
  · exact absurd hw (hout p w')

theorem post_ne_panicked {g : ℕ} : w.post g ≠ some (.panicked p, w') := by
  intro hw
  simp only [post] at hw
  split at hw
  · simp at hw
  · cases hw

theorem request_panics {r : Request} (hw : w.request r = some (.panicked p, w')) :
    w.Panics (.request r) p := by
  obtain ⟨s, hs, hw⟩ := Option.bind_eq_some_iff.1 hw
  obtain ⟨begun, hreq, hw⟩ := Option.bind_eq_some_iff.1 hw
  cases begun with
  | panicked p' =>
    simp only [Option.some.injEq, Prod.mk.injEq, Out.panicked.injEq] at hw
    exact hw.1 ▸ .request hreq
  | rejected err buffer => simp at hw
  | started r ctx =>
    obtain ⟨⟨cqid, ctx'⟩, hnew, hw⟩ := Option.bind_eq_some_iff.1 hw
    simp at hw

theorem submit_panics (hw : w.submit = some (.panicked p, w')) : w.Panics .submit p := by
  obtain ⟨s, hs, hw⟩ := Option.map_eq_some_iff.1 hw
  split at hw
  · simp at hw
  · rename_i hpub
    simp only [Prod.mk.injEq, Out.panicked.injEq] at hw
    exact hw.1 ▸ .submit hs hpub

theorem Consistent.turn_panics (h : w.Consistent) (hw : w.turn hs = some (.panicked p, w')) :
    w.Panics .turn p := by
  simp only [turn] at hw
  split at hw
  · rename_i hs
    simp only [Option.some.injEq, Prod.mk.injEq, Out.panicked.injEq] at hw
    exact hw.1 ▸ .borrowed (.inl hs)
  · obtain ⟨rt, hrt, hw⟩ := Option.map_eq_some_iff.1 hw
    split at hw
    · cases (Prod.mk.inj hw).1
    · obtain ⟨w₁, hstart, -⟩ := (h.collected hrt).startPolling hs (P := fun _ => True)
        trivial fun _ => trivial
      cases (Prod.mk.inj (hstart.symm.trans hw)).1

theorem next_ne_panicked : w.next ≠ some (.panicked p, w') := by
  intro hw
  simp only [next] at hw
  split at hw
  · split at hw <;> simp at hw
  · cases hw

theorem polled_ne_panicked {res : TaskPoll} : w.polled res ≠ some (.panicked p, w') := by
  intro hw
  simp only [polled] at hw
  split at hw
  · cases res <;> simp at hw
  · cases hw

theorem turnOk_ne_panicked : w.turnOk ≠ some (.panicked p, w') := by
  intro hw
  simp only [turnOk] at hw
  split at hw <;> simp at hw

theorem unwound_ne_panicked : w.unwound ≠ some (.panicked p, w') := by
  intro hw
  simp only [unwound] at hw
  split at hw <;> simp at hw

/-- **The panics of a step.** -/
theorem Consistent.panics (h : w.Consistent) (hw : w.step hs e = some (.panicked p, w')) :
    w.Panics e p := by
  cases e with
  | consume count => simp [World.step, consume] at hw
  | complete g res flags => simp [World.step, complete] at hw
  | post g => exact absurd hw post_ne_panicked
  | newFuture => exact panics_of_borrow (Option.ite_none_right_eq_some.1 hw).2 (by simp)
  | openSession => exact panics_of_borrow (Option.ite_none_right_eq_some.1 hw).2 (by simp)
  | request r => exact request_panics (Option.ite_none_right_eq_some.1 hw).2
  | submit => exact submit_panics (Option.ite_none_right_eq_some.1 hw).2
  | abandon =>
    obtain ⟨s, hs, hw⟩ := Option.map_eq_some_iff.1 (Option.ite_none_right_eq_some.1 hw).2
    simp at hw
  | setMustWait g mustWait =>
    obtain ⟨f, hf, hw⟩ := Option.map_eq_some_iff.1 (Option.ite_none_right_eq_some.1 hw).2
    simp at hw
  | poll g => exact h.poll_panics (Option.ite_none_right_eq_some.1 hw).2
  | drop g => exact h.drop_panics (Option.ite_none_right_eq_some.1 hw).2
  | handleSpawn => exact panics_of_borrow (Option.ite_none_right_eq_some.1 hw).2 (by simp)
  | enter ret => exact h.enter_panics hw
  | spawn =>
    obtain ⟨r, -, hw⟩ := Option.map_eq_some_iff.1 (Option.ite_none_right_eq_some.1 hw).2
    simp at hw
  | turn => exact h.turn_panics (Option.ite_none_right_eq_some.1 hw).2
  | chooseWait =>
    simp only [World.step] at hw
    split at hw
    · simp at hw
    · cases hw
  | next => exact absurd (Option.ite_none_right_eq_some.1 hw).2 next_ne_panicked
  | polled res => exact absurd (Option.ite_none_right_eq_some.1 hw).2 polled_ne_panicked
  | turnOk => exact absurd (Option.ite_none_right_eq_some.1 hw).2 turnOk_ne_panicked
  | unwound => exact absurd (Option.ite_none_right_eq_some.1 hw).2 unwound_ne_panicked
  | blockOn =>
    obtain ⟨r, -, hw⟩ := Option.map_eq_some_iff.1 (Option.ite_none_right_eq_some.1 hw).2
    simp at hw

/-! ## Routing -/

/-- What it means that no completion is misrouted. -/
structure Routed (hs : Hashes) (w : World) : Prop where
  /-- while a request is published and its event not processed, the slot its entry names is that
  of its future, allocated for it last, and waits for the event -/
  slot : ∀ g f, w.ledger.futs g = some f → f.Outstanding → f.sqe.userData.toNat = f.cqid ∧
    w.ledger.owner f.cqid = some g ∧ ∃ ce, w.ctx.completions.get f.cqid = some ce ∧ ce.cqe = none
  /-- a future is only ever ready with the event posted for its own request -/
  own : ∀ g f, w.liveFut g = some f → ∀ task cqe ctx,
    CompletionFuture.poll w.ctx f.cqid task = .ok (some cqe, ctx) →
      (g, cqe) ∈ w.ledger.posts.take w.ledger.seen ∧ cqe.userData = f.sqe.userData
  /-- no event is delivered to two futures, and none twice to one -/
  nodup : (w.ledger.posts.map Prod.fst).Nodup
  valid : ∀ e w', w.step hs e ≠ some (.panicked .cqidWasInvalid, w')

theorem Panics.ne_cqidWasInvalid (h : w.Panics e p) : p ≠ .cqidWasInvalid := by
  cases h with
  | borrowed _ => nofun
  | outside => nofun
  | submit _ _ => nofun
  | @request r p hr =>
    rintro rfl
    cases r with
    | provideBuffer buffer =>
      simp only [beginRequest] at hr
      split at hr
      · split at hr <;> simp at hr
      · simp at hr
    | submitSqe func => simp [beginRequest] at hr
    | read fd size => simp [beginRequest] at hr
    | readBuf fd data len =>
      simp only [beginRequest] at hr
      split at hr <;> simp at hr
    | writeBuf fd data len =>
      simp only [beginRequest] at hr
      split at hr <;> simp at hr
  | @resolve g f ce cqe ctx p hg hlive hce hcqe hres hbuffers =>
    rintro rfl
    cases hk : f.kind with
    | completion => simp [LinkedSubmitter.resolve, hk] at hres
    | read =>
      simp only [LinkedSubmitter.resolve, hk] at hres
      split at hres
      · cases hres
      · split at hres
        · cases hres
        · split at hres <;> cases hres
    | provide bufid len =>
      simp only [LinkedSubmitter.resolve, hk] at hres
      split at hres
      · cases hres
      · split at hres <;> cases hres

/-- The published entry of a request names the slot of its future. -/
theorem Consistent.toNat_userData (h : w.Consistent) {g : ℕ} {f : Fut}
    (hg : w.ledger.futs g = some f) (hout : f.Outstanding) : f.sqe.userData.toNat = f.cqid := by
  have hfut := (h.tables.futs g f hg).2
  refine (hfut.sent ?_).toNat_userData hfut.cqid
  rcases hout with hst | ⟨_, hst | hst⟩
  · exact .inl hst
  · exact .inr (by simp [hst, Stage.event?])
  · exact .inr (by simp [hst, Stage.event?])

/-- **Completions are not misrouted**, in any reachable state. -/
theorem Reachable.routed (h : Reachable hs w) : w.Routed hs := by
  have hc := h.consistent
  have ht := hc.tables
  refine ⟨fun g f hg hout => ?_, fun g f hf task cqe ctx hpoll => ?_, ht.posts.nodup, ?_⟩
  · obtain ⟨howner, ce, hce, hok⟩ := ht.table g f hg hout.needsEntry
    refine ⟨hc.toNat_userData hg hout, howner, ce, hce, ?_⟩
    rw [hok.cqe]
    rcases hout with hst | ⟨_, hst | hst⟩ <;> rw [hst] <;> rfl
  · obtain ⟨hg, hlive⟩ := liveFut_eq_some hf
    obtain ⟨ce, hce, hok⟩ := hc.entry hg hlive
    rw [poll_eq hce] at hpoll
    cases task with
    | none => cases hpoll
    | some t =>
      obtain ⟨hcqe, -⟩ := Prod.mk.inj (Except.ok.inj hpoll)
      obtain ⟨time, hst⟩ := hok.processed hcqe
      refine ⟨(ht.posts.processed g f cqe time hg hst).1, (ht.futs g f hg).2.event cqe ?_⟩
      rw [hst]
      rfl
  · exact fun e w' hw => (hc.panics hw).ne_cqidWasInvalid rfl

/-- A request is published, and its event has been posted. -/
def onePosted : List Event :=
  [.openSession, .request (.submitSqe id), .submit, .complete 0 7 0, .post 0]

theorem onePosted_routed :
    ∃ w, emptyWorld.runs ⟨id, id⟩ onePosted = some w ∧ w.Routed ⟨id, id⟩ := by
  have hr : emptyWorld.runs ⟨id, id⟩ onePosted = some _ := rfl
  exact ⟨_, hr, Reachable.routed (.runs (.init emptyWorld_init) hr)⟩

end World

end Hamerkop
