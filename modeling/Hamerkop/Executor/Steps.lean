import Hamerkop.Executor.Moves

/-!
# Every step is a sequence of moves

`World.step_does` takes each step of the machine apart into moves, and with it
executor and ledger are consistent in every reachable state
(`World.Reachable.consistent`).
-/

namespace Hamerkop

open LinkedSubmitter

namespace IOContext

/-- The error ends `submit`, and the context stays as it is. -/
theorem submitOnce_failed {ctx : IOContext} {waitFor : UInt32} {args : EnterArgs} {errno : Errno}
    (hcall : ctx.sq.enterCall waitFor = some args) (hfatal : isBusy errno = false) :
    ctx.submitOnce waitFor (.error errno) = .ok (.done (.error (.os errno)), ctx) := by
  simp only [submitOnce, SubmissionQueue.submitAndWait_error hcall, hfatal]
  rfl

/-- Nothing is to be submitted and nothing waited for. -/
theorem submitOnce_of_not_called {ctx : IOContext} {waitFor : UInt32}
    (hcall : ctx.sq.enterCall waitFor = none) (ret : Except Errno UInt32) :
    ctx.submitOnce waitFor ret = .ok (.done (.ok ()), { ctx with sq := ctx.sq.settle }) := by
  simp only [submitOnce, SubmissionQueue.submitAndWait_of_not_called hcall]

/-- What one turn of the loop in `submit` does: it ends, with an error only if `io_uring_enter`
failed for another reason than being busy, or the events available are processed. -/
theorem submitOnce_cases {ctx : IOContext} {k : ℕ} {cqes : List Cqe} (h : ctx.cq.Holds k cqes)
    (waitFor : UInt32) (ret : Except Errno UInt32) :
    (∃ sq res, ctx.submitOnce waitFor ret = .ok (.done res, { ctx with sq }) ∧
      (sq = ctx.sq ∨ sq = ctx.sq.settle) ∧
      (∀ e, res = .error e → sq = ctx.sq ∧ ∃ errno args, ret = .error errno ∧
        ctx.sq.enterCall waitFor = some args ∧ isBusy errno = false) ∧
      (∀ errno, ret = .error errno → waitFor ≠ 0 → isBusy errno = false)) ∨
    ((∃ errno, ret = .error errno ∧ isBusy errno = true) ∧
      ctx.submitOnce waitFor ret = .ok (.retry, (cqes.foldl (takeCqe pushWoken) ((), ctx)).2)) := by
  cases ret with
  | ok count =>
    refine .inl ⟨ctx.sq.settle, .ok (), ?_, .inr rfl, nofun, nofun⟩
    simp only [submitOnce, SubmissionQueue.submitAndWait_ok]
  | error errno =>
    cases hcall : ctx.sq.enterCall waitFor with
    | none =>
      refine .inl ⟨ctx.sq.settle, .ok (), submitOnce_of_not_called hcall _, .inr rfl, nofun,
        fun _ _ hw => ?_⟩
      · obtain ⟨args, hargs⟩ := ctx.sq.enterCall_of_ne_zero hw
        rw [hcall] at hargs
        cases hargs
    | some args =>
      cases hbusy : isBusy errno with
      | false =>
        refine .inl ⟨ctx.sq, .error (.os errno), submitOnce_failed hcall hbusy, .inl rfl,
          fun _ _ => ⟨rfl, errno, args, rfl, rfl, hbusy⟩, ?_⟩
        · rintro _ ⟨⟩ _
          exact hbusy
      | true =>
        refine .inr ⟨⟨errno, rfl, hbusy⟩, ?_⟩
        simp only [submitOnce, SubmissionQueue.submitAndWait_error hcall, hbusy, if_true,
          processCqes_eq pushWoken h]

end IOContext

namespace World

variable {hs : Hashes} {w w' : World} {P Q : Act → Prop}

/-- A sequence of moves with these labels. -/
def Does (P : Act → Prop) : World → World → Prop :=
  Relation.ReflTransGen fun w w' => ∃ a, P a ∧ Move w a w'

theorem Does.one {a : Act} (hm : Move w a w') (ha : P a) : Does P w w' := .single ⟨a, ha, hm⟩

theorem Does.cons {w₁ : World} {a : Act} (hm : Move w a w₁) (ha : P a) (h : Does P w₁ w') :
    Does P w w' := .head ⟨a, ha, hm⟩ h

/-- What every move keeps, a sequence of moves keeps. -/
theorem Does.keeps {I : World → Prop}
    (hmove : ∀ w a w', w.Consistent → P a → I w → Move w a w' → I w') (h : Does P w w')
    (hc : w.Consistent) (hi : I w) : w'.Consistent ∧ I w' := by
  induction h with
  | refl => exact ⟨hc, hi⟩
  | tail _ hm ih =>
    obtain ⟨a, ha, hm⟩ := hm
    exact ⟨ih.1.move hm, hmove _ a _ ih.1 ha ih.2 hm⟩

/-- The events in which the runtime takes part. -/
def RuntimeEvent (w : World) : Event → Prop
  | .handleSpawn | .spawn | .turn | .chooseWait | .next | .polled _ | .turnOk | .unwound
  | .blockOn => True
  | .enter _ => w.call = .none
  | _ => False

/-- Where a move comes from that the runtime makes, that ends the life of a future, that reads from
the submission ring or writes to it, or that may keep a buffer from coming back. -/
def Cause (w : World) (e : Event) : Act → Prop
  | .runtime => w.RuntimeEvent e
  | .ring byKernel => byKernel = true → ∃ count, e = .consume count
  | .post g => e = .post g
  | .create (some req) => e = .request req
  | .publish => e = .submit
  | .process intoRunqueue _ => intoRunqueue = true → w.RuntimeEvent e
  | .complete g f cqe => e = .complete g cqe.res cqe.flags ∧ w.ledger.futs g = some f
  | .abandon linked futs => futs = w.ledger.futs ∧ ∃ s, w.session = some s ∧ s.linked = linked ∧
    (e = .abandon ∨ e = .submit ∧ w.ctx.sq.publish s.count = none)
  | .resolve g f _ => e = .poll g ∧ w.ledger.futs g = some f
  | .dropReady g f _ | .die g f => e = .drop g ∧ w.ledger.futs g = some f
  | .endWait g f _ => w.call = .dropWait g ∧ w.ledger.futs g = some f ∧
    ∃ ret, e = .enter ret ∧ ∀ errno, ret = .error errno → IOContext.isBusy errno = false
  | .lose g f => w.ledger.futs g = some f ∧ (e = .drop g ∧ w.session.isSome ∨
    ∃ r errno, w.call = .slotWait g r ∧ e = .enter (.error errno) ∧
      IOContext.isBusy errno = false)
  | _ => True

/-! ## Processing -/

theorem foldl_takeCqe_woken (l : List (ℕ × Cqe)) (w : World) :
    l.foldl (takeCqe false) w =
      { w.withCtx
          ((l.map Prod.snd).foldl (IOContext.takeCqe IOContext.pushWoken) ((), w.ctx)).2 with
        ledger := l.foldl Ledger.process w.ledger } := by
  induction l generalizing w with
  | nil => rfl
  | cons p l ih =>
    rw [List.foldl_cons, ih]
    rfl

theorem foldl_takeCqe_runqueue (l : List (ℕ × Cqe)) (w : World) :
    l.foldl (takeCqe true) w =
      { w with
        rt := { w.rt with
          ctx := ((l.map Prod.snd).foldl (IOContext.takeCqe IOContext.pushRunqueue)
            (w.rt.runqueue, w.ctx)).2
          runqueue := ((l.map Prod.snd).foldl (IOContext.takeCqe IOContext.pushRunqueue)
            (w.rt.runqueue, w.ctx)).1 }
        ledger := l.foldl Ledger.process w.ledger } := by
  induction l generalizing w with
  | nil => rfl
  | cons p l ih =>
    rw [List.foldl_cons, ih]
    rfl

/-- The events available are processed one after the other. -/
theorem Consistent.processAll (h : w.Consistent) (intoRunqueue : Bool)
    (hP : ∀ g, P (.process intoRunqueue g)) :
    Does P w (w.ledger.pending.foldl (takeCqe intoRunqueue) w) := by
  generalize hl : w.ledger.pending = l
  induction l generalizing w with
  | nil => exact .refl
  | cons p rest ih =>
    obtain ⟨g, cqe⟩ := p
    obtain ⟨f, ce, hg, hst, hud, hce, hok⟩ := h.tables.next_event hl
    have hm := Move.process intoRunqueue hl hg hst hud hce hok
    have hrest : (w.takeCqe intoRunqueue (g, cqe)).ledger.pending = rest := by
      obtain ⟨-, -, -, -, hledger, -⟩ := w.takeCqe_parts intoRunqueue (g, cqe)
      rw [hledger, Ledger.process_eq hg, Ledger.pending, ← List.tail_drop]
      exact congrArg List.tail hl
    exact .cons hm (hP g) (ih (h.move hm) hrest)

/-- The loop in `submit` goes round again. -/
theorem Consistent.retry (h : w.Consistent) (hP : ∀ g, P (.process false g)) :
    Does P w (w.retry
      ((w.ledger.pending.map Prod.snd).foldl (IOContext.takeCqe IOContext.pushWoken)
        ((), w.ctx)).2) := by
  have hall := h.processAll false hP
  rw [foldl_takeCqe_woken] at hall
  exact hall

/-- One turn of the loop in `submit`, as moves: its end, or another round of it. -/
theorem Consistent.submitOnce (h : w.Consistent) (hP : ∀ g, P (.process false g))
    (waitFor : UInt32) (ret : Except Errno UInt32) :
    (∃ ctx res, w.ctx.submitOnce waitFor ret = .ok (.done res, ctx) ∧
      Move w (.ring false) (w.withCtx ctx) ∧
      (∀ e, res = .error e → ∃ errno, ret = .error errno ∧ IOContext.isBusy errno = false) ∧
      (∀ errno, ret = .error errno → waitFor ≠ 0 → IOContext.isBusy errno = false)) ∨
    ∃ ctx, w.ctx.submitOnce waitFor ret = .ok (.retry, ctx) ∧ Does P w (w.retry ctx) := by
  obtain ⟨k, hk⟩ := h.tables.posts.ring
  rcases IOContext.submitOnce_cases hk waitFor ret with
    ⟨sq, res, hsub, hsq, herr, hbusy⟩ | ⟨-, hsub⟩
  · refine .inl ⟨_, res, hsub, .ring ?_, fun e he => ?_, hbusy⟩
    · rcases hsq with rfl | rfl
      · exact .failed
      · exact .settle
    · obtain ⟨-, errno, args, hret, -, hfatal⟩ := herr e he
      exact ⟨errno, hret, hfatal⟩
  · exact .inr ⟨_, hsub, h.retry hP⟩

/-! ## The operations, one by one -/

variable {e : Event} {out : Out}

/-- A step that leaves the tables alone. -/
theorem Does.runtime (he : w.RuntimeEvent e) (h : w.SameTables w') : Does (Cause w e) w w' :=
  .one (.runtime h) he

theorem call_of_userCode (h : w.userCode = true) : w.call = .none := by
  rw [userCode, Bool.and_eq_true] at h
  cases hc : w.call with
  | none => rfl
  | _ => simp [hc, Call.isNone] at h

theorem liveFut_eq_some {g : ℕ} {f : Fut} (h : w.liveFut g = some f) :
    w.ledger.futs g = some f ∧ f.life = .live := by
  obtain ⟨hg, hl⟩ := Option.filter_eq_some_iff.1 h
  exact ⟨hg, by simpa using hl⟩

theorem consume_does {count : UInt32} (h : w.consume count = some (out, w')) :
    Does (Cause w (.consume count)) w w' := by
  simp only [consume, Option.ite_none_right_eq_some, Option.some.injEq, Prod.mk.injEq] at h
  obtain ⟨hcount, -, rfl⟩ := h
  exact .one (.ring (.consume hcount)) fun _ => ⟨count, rfl⟩

theorem complete_does {g : ℕ} {res : Int32} {flags : UInt32}
    (h : w.complete g res flags = some (out, w')) :
    Does (Cause w (.complete g res flags)) w w' := by
  obtain ⟨ledger, hl, heq⟩ := Option.map_eq_some_iff.1 h
  obtain ⟨-, rfl⟩ := Prod.mk.inj heq
  obtain ⟨f, -, -, hg, -⟩ := Ledger.complete_eq_some hl
  exact .one (.complete hg hl) ⟨rfl, hg⟩

theorem post_does {g : ℕ} (h : w.post g = some (out, w')) : Does (Cause w (.post g)) w w' := by
  simp only [post] at h
  split at h
  · rename_i cqe hst
    obtain ⟨f, hg, hst⟩ := Option.map_eq_some_iff.1 hst
    split at h
    · rename_i hroom
      simp only [Option.some.injEq, Prod.mk.injEq] at h
      obtain ⟨-, rfl⟩ := h
      exact .one (.post hg hst hroom) rfl
    · cases h
  · cases h

theorem newFuture_does (hcall : w.call = .none) (h : w.newFuture = some (out, w')) :
    Does (Cause w e) w w' := by
  simp only [newFuture] at h
  split at h
  · obtain ⟨-, rfl⟩ := Prod.mk.inj (Option.some.inj h)
    exact .refl
  · obtain ⟨⟨cqid, ctx⟩, hnew, heq⟩ := Option.map_eq_some_iff.1 h
    obtain ⟨-, rfl⟩ := Prod.mk.inj heq
    exact .one (.newFuture hcall hnew) trivial

theorem openSession_does (hcall : w.call = .none) (h : w.openSession = some (out, w')) :
    Does (Cause w e) w w' := by
  simp only [openSession] at h
  split at h
  · obtain ⟨-, rfl⟩ := Prod.mk.inj (Option.some.inj h)
    exact .refl
  · rename_i hs
    obtain ⟨-, rfl⟩ := Prod.mk.inj (Option.some.inj h)
    exact .one (.openSession hcall (by simpa using hs)) trivial

/-- A request that waits for a slot gets one or goes on waiting. -/
theorem tryFill_does {g cqid : ℕ} {r : Started} {s : Session} {f : Fut}
    (hcall : w.call = .slotWait g r) (hs : w.session = some s) (hg : w.ledger.futs g = some f)
    (hcqid : f.cqid = cqid) (hP : P (.fill g)) : Does P w (w.tryFill s g cqid r) := by
  subst hcqid
  rw [tryFill]
  split
  · rename_i ctx hfill
    exact .one (.fill hcall hs hg hfill) hP
  · rw [← hcall]
    exact .refl

/-- Whether it has waited before makes no difference. -/
theorem tryFill_withCall (w : World) (call : Call) (s : Session) (g cqid : ℕ) (r : Started) :
    ({ w with call } : World).tryFill s g cqid r = w.tryFill s g cqid r := by
  simp only [tryFill, ctx, withCtx]

theorem request_does {r : Request} (hcall : w.call = .none) (h : w.request r = some (out, w')) :
    Does (Cause w (.request r)) w w' := by
  obtain ⟨s, hs, h⟩ := Option.bind_eq_some_iff.1 h
  obtain ⟨begun, hreq, h⟩ := Option.bind_eq_some_iff.1 h
  cases begun with
  | panicked p =>
    obtain ⟨-, rfl⟩ := Prod.mk.inj (Option.some.inj h)
    exact .refl
  | rejected err buffer =>
    obtain ⟨-, rfl⟩ := Prod.mk.inj (Option.some.inj h)
    exact .refl
  | started r ctx =>
    obtain ⟨⟨cqid, ctx'⟩, hnew, h⟩ := Option.bind_eq_some_iff.1 h
    simp only [Option.ite_none_left_eq_some, Option.some.injEq, Prod.mk.injEq] at h
    obtain ⟨-, -, rfl⟩ := h
    have hm := Move.request hcall hs hreq hnew
    refine .cons hm rfl ?_
    rw [← tryFill_withCall _ (.slotWait w.ledger.nextFut r)]
    have hg : (w.ledger.create cqid r.kind (r.kind.bufid?.bind ctx'.buffers.get)).futs
        w.ledger.nextFut = some _ := Function.update_self ..
    exact tryFill_does rfl hs hg rfl trivial

theorem submit_does (h : w.submit = some (out, w')) : Does (Cause w .submit) w w' := by
  obtain ⟨s, hs, h⟩ := Option.map_eq_some_iff.1 h
  split at h
  · rename_i sq hpub
    obtain ⟨-, rfl⟩ := Prod.mk.inj h
    exact .one (.publish hs hpub _) rfl
  · rename_i hpub
    obtain ⟨-, rfl⟩ := Prod.mk.inj h
    exact .one (.abandon hs) ⟨rfl, s, hs, rfl, .inr ⟨rfl, hpub⟩⟩

theorem abandon_does (h : w.abandon = some (out, w')) : Does (Cause w .abandon) w w' := by
  obtain ⟨s, hs, h⟩ := Option.map_eq_some_iff.1 h
  obtain ⟨-, rfl⟩ := Prod.mk.inj h
  exact .one (.abandon hs) ⟨rfl, s, hs, rfl, .inl rfl⟩

theorem setMustWait_does {g : ℕ} {mustWait : Bool}
    (h : w.setMustWait g mustWait = some (out, w')) : Does (Cause w e) w w' := by
  obtain ⟨f, hf, h⟩ := Option.map_eq_some_iff.1 h
  obtain ⟨-, rfl⟩ := Prod.mk.inj h
  obtain ⟨hg, hlive⟩ := liveFut_eq_some hf
  exact .one (.setMustWait hg hlive mustWait) trivial

/-! ## Futures -/

/-- `poll` of a live future inside a task. -/
theorem poll_eq {ctx : IOContext} {cqid : ℕ} {ce : CompletionEvent}
    (hce : ctx.completions.get cqid = some ce) (currentTask : Option ℕ) :
    CompletionFuture.poll ctx cqid currentTask = match currentTask with
      | none => .error .outsideUringContext
      | some task => .ok (ce.cqe,
        { ctx with completions := ctx.completions.modify cqid fun ce => { ce with task } }) := by
  cases currentTask <;> simp only [CompletionFuture.poll, hce]

theorem Consistent.poll_does (h : w.Consistent) (hcall : w.call = .none) {g : ℕ}
    (hw : w.poll g = some (out, w')) : Does (Cause w (.poll g)) w w' := by
  obtain ⟨f, hf, hw⟩ := Option.map_eq_some_iff.1 hw
  obtain ⟨hg, hlive⟩ := liveFut_eq_some hf
  obtain ⟨ce, hce, hok⟩ := h.entry hg hlive
  rw [poll_eq hce] at hw
  cases hcurrent : w.currentTask with
  | none =>
    simp only [hcurrent, Option.map_none] at hw
    split at hw
    · obtain ⟨-, rfl⟩ := Prod.mk.inj hw
      exact .refl
    · obtain ⟨-, rfl⟩ := Prod.mk.inj hw
      exact .refl
  | some current =>
    obtain ⟨t, task⟩ := current
    simp only [hcurrent, Option.map_some] at hw
    split at hw
    · obtain ⟨-, rfl⟩ := Prod.mk.inj hw
      exact .refl
    · cases hcqe : ce.cqe with
      | none =>
        simp only [hcqe] at hw
        obtain ⟨-, rfl⟩ := Prod.mk.inj hw
        have hm := Move.pending hcall hg hlive hce hcqe hcurrent
        rw [hcurrent] at hm
        exact .one hm trivial
      | some cqe =>
        simp only [hcqe] at hw
        split at hw
        · obtain ⟨-, rfl⟩ := Prod.mk.inj hw
          exact .one (.ready hcall hg hlive hce hcqe hcurrent) trivial
        · rename_i hkind
          have hpolled : (w.ctx.completions.modify f.cqid fun ce => { ce with task := t }).get
              f.cqid = some { ce with task := t } := by
            rw [Slots.get_modify, Function.update_self, hce, Option.map_some]
          have hget : (((w.ctx.completions.modify f.cqid fun ce =>
              { ce with task := t }).remove f.cqid).2).get =
              Function.update w.ctx.completions.get f.cqid none := by
            rw [Slots.get_remove, Slots.get_modify, Function.update_idem]
          have hm := Move.resolve hcall hg hlive hkind hce hcqe hget
          simp only [CompletionFuture.drop, hpolled, hcqe, Option.isSome_some, if_true] at hw
          split at hw
          · rename_i hres
            obtain ⟨-, rfl⟩ := Prod.mk.inj hw
            have hsame := resolve_error hres
            rw [show w.ctx.buffersTaken f.kind cqe = w.ctx.buffers from hsame] at hm
            exact .one hm ⟨rfl, hg⟩
          · rename_i hres
            obtain ⟨-, rfl⟩ := Prod.mk.inj hw
            rw [resolve_ok hres]
            exact .one hm ⟨rfl, hg⟩

/-- The cancellation is written behind the tail, or it waits for a slot. -/
theorem dropCancel_cases (ctx : IOContext) (cqid : ℕ) :
    CompletionFuture.dropCancel ctx cqid = (.needsSlot, ctx) ∨
      ∃ slot sqe, ctx.sq.slotAt 0 = some slot ∧ CompletionFuture.dropCancel ctx cqid =
        (.waits, { ctx with sq := ctx.sq.writeSqe slot sqe }) := by
  rw [CompletionFuture.dropCancel]
  split
  · exact .inl rfl
  · rename_i slot hslot
    exact .inr ⟨slot, _, hslot, rfl⟩

theorem Consistent.drop_does (h : w.Consistent) (hcall : w.call = .none) {g : ℕ}
    (hw : w.drop g = some (out, w')) : Does (Cause w (.drop g)) w w' := by
  obtain ⟨f, hf, hw⟩ := Option.map_eq_some_iff.1 hw
  obtain ⟨hg, hlive⟩ := liveFut_eq_some hf
  obtain ⟨ce, hce, hok⟩ := h.entry hg hlive
  simp only at hw
  split at hw
  · rename_i hs
    obtain ⟨-, rfl⟩ := Prod.mk.inj hw
    have hm := Move.lose hg hlive (.inl hcall)
    rw [loseFut, ← hcall] at hm
    exact .one hm ⟨hg, .inl ⟨rfl, hs⟩⟩
  · rename_i hs
    have hs : w.session = none := by simpa using hs
    simp only [CompletionFuture.drop, hce] at hw
    cases hcqe : ce.cqe with
    | some cqe =>
      simp only [hcqe, Option.isSome_some, if_true] at hw
      obtain ⟨-, rfl⟩ := Prod.mk.inj hw
      exact .one (.dropReady hcall hg hlive hce hcqe) ⟨rfl, hg⟩
    | none =>
      cases hmw : f.mustWait with
      | false =>
        simp only [hcqe, hmw] at hw
        obtain ⟨-, rfl⟩ := Prod.mk.inj hw
        exact .one (.die hcall hg hlive hce hcqe hmw) ⟨rfl, hg⟩
      | true =>
        have hm := Move.beginWait hcall hs hg hlive hce hcqe hmw
        simp only [hcqe, hmw] at hw
        refine .cons hm trivial ?_
        obtain hcancel | ⟨slot, sqe, hslot, hcancel⟩ := dropCancel_cases
          { w.ctx with
            completions := w.ctx.completions.modify f.cqid fun ce =>
              { ce with task := NO_TASK_SENTINEL } } f.cqid
        · simp only [Bool.not_true, Bool.false_eq_true, if_false, hcancel] at hw
          obtain ⟨-, rfl⟩ := Prod.mk.inj hw
          exact .refl
        · simp only [Bool.not_true, Bool.false_eq_true, if_false, hcancel] at hw
          obtain ⟨-, rfl⟩ := Prod.mk.inj hw
          exact .cons (.ring (.cancel hs hslot sqe)) (by intro h; cases h)
            (.one (.cancel rfl) trivial)

/-! ## The runtime -/

/-- `turn` from the end of `submit` to the first poll. -/
theorem Consistent.startPolling (h : w.Consistent) (hs : Hashes) (hruntime : P .runtime)
    (hP : ∀ g, P (.process true g)) :
    ∃ w', w.startPolling hs = (.silent, w') ∧ Does P w w' := by
  have hsame : w.SameTables (w.withCtx { w.ctx with queued := 0 }) :=
    ⟨rfl, rfl, rfl, rfl, rfl, rfl, .inl rfl, h.current⟩
  have h₁ := h.move (.runtime hsame)
  obtain ⟨k, hk⟩ := h₁.tables.posts.ring
  have hcqes := IOContext.processCqes_eq IOContext.pushRunqueue hk w.rt.runqueue
  have hdoes := h₁.processAll true hP
  rw [foldl_takeCqe_runqueue] at hdoes
  have hctx : (w.withCtx { w.ctx with queued := 0 }).ctx = { w.rt.ctx with queued := 0 } := rfl
  rw [hctx] at hcqes
  simp only [World.startPolling, Runtime.drainRunqueue, hcqes]
  refine ⟨_, rfl, .cons (.runtime hsame) hruntime (hdoes.tail ⟨_, hruntime, .runtime ?_⟩)⟩
  exact ⟨rfl, rfl, rfl, rfl, rfl, rfl, .inl rfl, fun _ _ hc => by cases hc⟩

/-- Collecting the new and the woken tasks leaves the tables alone. -/
theorem sameTables_collect {rt : Runtime} (h : w.rt.collect = some rt) (phase : Phase)
    (hcurrent : ∀ id task, ({ w with rt, phase } : World).currentTask = some (id, task) →
      id < 2 ^ 61) : w.SameTables { w with rt, phase } := by
  have hctx := Runtime.collect_ctx h
  exact ⟨(congrArg IOContext.sq hctx :), (congrArg IOContext.cq hctx :),
    (congrArg IOContext.completions hctx :), (congrArg IOContext.buffers hctx :), rfl, rfl,
    .inl rfl, hcurrent⟩

theorem Consistent.collected (h : w.Consistent) {rt : Runtime} (hrt : w.rt.collect = some rt) :
    ({ w with rt } : World).Consistent :=
  h.move (.runtime (sameTables_collect hrt w.phase h.current))

theorem Consistent.turn_does (h : w.Consistent) (hw : w.turn hs = some (out, w')) :
    Does (Cause w .turn) w w' := by
  simp only [turn] at hw
  split at hw
  · obtain ⟨-, rfl⟩ := Prod.mk.inj (Option.some.inj hw)
    exact .runtime trivial ⟨rfl, rfl, rfl, rfl, rfl, rfl, .inl rfl, fun _ _ hc => by cases hc⟩
  · obtain ⟨rt, hrt, hw⟩ := Option.map_eq_some_iff.1 hw
    split at hw
    · obtain ⟨-, rfl⟩ := Prod.mk.inj hw
      exact .runtime trivial (sameTables_collect hrt .choosing fun _ _ hc => by cases hc)
    · obtain ⟨w₁, hstart, hdoes⟩ := (h.collected hrt).startPolling hs (P := Cause w .turn)
        trivial fun _ _ => trivial
      obtain rfl : w₁ = w' := (Prod.mk.inj (hstart.symm.trans hw)).2
      exact .cons (.runtime (sameTables_collect hrt w.phase h.current)) trivial hdoes

theorem spawn_does (h : w.Consistent) (hw : w.spawn = some (out, w')) :
    Does (Cause w .spawn) w w' := by
  obtain ⟨⟨id, rt⟩, hrt, hw⟩ := Option.map_eq_some_iff.1 hw
  obtain ⟨⟨i, futures⟩, -, hrt⟩ := Option.map_eq_some_iff.1 hrt
  obtain ⟨-, rfl⟩ := Prod.mk.inj hrt
  obtain ⟨-, rfl⟩ := Prod.mk.inj hw
  exact .runtime trivial ⟨rfl, rfl, rfl, rfl, rfl, rfl, .inl rfl, h.current⟩

theorem blockOn_does (h : w.Consistent) (hw : w.blockOn = some (out, w')) :
    Does (Cause w .blockOn) w w' := by
  obtain ⟨⟨id, rt⟩, hrt, hw⟩ := Option.map_eq_some_iff.1 hw
  obtain ⟨⟨i, futures⟩, -, hrt⟩ := Option.map_eq_some_iff.1 hrt
  obtain ⟨-, rfl⟩ := Prod.mk.inj hrt
  obtain ⟨-, rfl⟩ := Prod.mk.inj hw
  exact .runtime trivial ⟨rfl, rfl, rfl, rfl, rfl, rfl, .inl rfl, h.current⟩

theorem handleSpawn_does (h : w.Consistent) (hw : w.handleSpawn = some (out, w')) :
    Does (Cause w .handleSpawn) w w' := by
  simp only [handleSpawn] at hw
  split at hw <;> obtain ⟨-, rfl⟩ := Prod.mk.inj (Option.some.inj hw)
  · exact .refl
  · exact .runtime trivial ⟨rfl, rfl, rfl, rfl, rfl, rfl, .inl rfl, h.current⟩

theorem next_does (hw : w.next = some (out, w')) : Does (Cause w .next) w w' := by
  simp only [next] at hw
  split at hw
  · split at hw <;> obtain ⟨-, rfl⟩ := Prod.mk.inj (Option.some.inj hw)
    · exact .runtime trivial ⟨rfl, rfl, rfl, rfl, rfl, rfl, .inl rfl, fun _ _ hc => by cases hc⟩
    · rename_i id rest hphase task hget
      refine .runtime trivial ⟨rfl, rfl, rfl, rfl, rfl, rfl, .inr ⟨task, rfl⟩, fun i t hc => ?_⟩
      obtain ⟨rfl, -⟩ := Prod.mk.inj (Option.some.inj hc)
      exact Slots.lt_of_get hget
  · cases hw

theorem polled_does {res : TaskPoll} (hw : w.polled res = some (out, w')) :
    Does (Cause w (.polled res)) w w' := by
  simp only [polled] at hw
  split at hw
  · cases res <;> obtain ⟨-, rfl⟩ := Prod.mk.inj (Option.some.inj hw) <;>
      exact .runtime trivial ⟨rfl, rfl, rfl, rfl, rfl, rfl, .inl rfl, fun _ _ hc => by cases hc⟩
  · cases hw

theorem turnOk_does (hw : w.turnOk = some (out, w')) : Does (Cause w .turnOk) w w' := by
  simp only [turnOk] at hw
  split at hw
  · obtain ⟨-, rfl⟩ := Prod.mk.inj (Option.some.inj hw)
    exact .runtime trivial ⟨rfl, rfl, rfl, rfl, rfl, rfl, .inl rfl, fun _ _ hc => by cases hc⟩
  · cases hw

theorem unwound_does (hw : w.unwound = some (out, w')) : Does (Cause w .unwound) w w' := by
  simp only [unwound] at hw
  split at hw
  · obtain ⟨-, rfl⟩ := Prod.mk.inj (Option.some.inj hw)
    exact .runtime trivial ⟨rfl, rfl, rfl, rfl, rfl, rfl, .inl rfl, fun _ _ hc => by cases hc⟩
  · obtain ⟨-, rfl⟩ := Prod.mk.inj (Option.some.inj hw)
    exact .runtime trivial ⟨rfl, rfl, rfl, rfl, rfl, rfl, .inl rfl, fun _ _ hc => by cases hc⟩
  · cases hw

/-! ## Returns of `io_uring_enter` -/

theorem Consistent.enterSlotWait_does (h : w.Consistent) {g : ℕ} {r : Started}
    {ret : Except Errno UInt32} (hcall : w.call = .slotWait g r)
    (hw : w.enterSlotWait g r ret = some (out, w')) : Does (Cause w (.enter ret)) w w' := by
  obtain ⟨s, hs, hw⟩ := Option.bind_eq_some_iff.1 hw
  obtain ⟨f, hg, hw⟩ := Option.bind_eq_some_iff.1 hw
  rcases h.submitOnce (P := Cause w (.enter ret)) (fun _ => nofun) 0 ret with
    ⟨ctx, res, hsub, hring, herr, -⟩ | ⟨ctx, hsub, hdoes⟩
  · simp only [hsub] at hw
    cases res with
    | ok u =>
      obtain ⟨-, rfl⟩ := Prod.mk.inj (Option.some.inj hw)
      exact .cons hring nofun (tryFill_does hcall hs hg rfl trivial)
    | error err =>
      obtain ⟨-, rfl⟩ := Prod.mk.inj (Option.some.inj hw)
      obtain ⟨errno, rfl, hbusy⟩ := herr err rfl
      obtain ⟨f', hg', hlive, -⟩ : CallOk _ _ (.slotWait g r) := hcall ▸ h.tables.call
      obtain rfl := Option.some.inj (hg.symm.trans hg')
      exact .cons hring nofun
        (.one (.lose hg hlive (.inr ⟨r, hcall⟩)) ⟨hg, .inr ⟨r, errno, hcall, rfl, hbusy⟩⟩)
  · simp only [hsub] at hw
    obtain ⟨-, rfl⟩ := Prod.mk.inj (Option.some.inj hw)
    exact hdoes

theorem Consistent.enterDropSlot_does (h : w.Consistent) {g : ℕ} {ret : Except Errno UInt32}
    (hcall : w.call = .dropSlot g) (hw : w.enterDropSlot g ret = some (out, w')) :
    Does (Cause w e) w w' := by
  obtain ⟨f, hg, hw⟩ := Option.map_eq_some_iff.1 hw
  obtain ⟨hs, -⟩ : CallOk _ _ (.dropSlot g) := hcall ▸ h.tables.call
  rcases h.submitOnce (P := Cause w e) (fun _ => nofun) 0 ret with
    ⟨ctx, res, hsub, hring, -, -⟩ | ⟨ctx, hsub, hdoes⟩
  · simp only [hsub] at hw
    refine .cons hring nofun ?_
    obtain hcancel | ⟨slot, sqe, hslot, hcancel⟩ := dropCancel_cases ctx f.cqid
    · simp only [hcancel] at hw
      obtain ⟨-, rfl⟩ := Prod.mk.inj hw
      exact .refl
    · simp only [hcancel] at hw
      obtain ⟨-, rfl⟩ := Prod.mk.inj hw
      exact .cons (.ring (.cancel hs hslot sqe)) nofun (.one (.cancel hcall) trivial)
  · simp only [hsub] at hw
    obtain ⟨-, rfl⟩ := Prod.mk.inj hw
    exact hdoes

theorem Consistent.enterDropWait_does (h : w.Consistent) {g : ℕ} {ret : Except Errno UInt32}
    (hcall : w.call = .dropWait g) (hw : w.enterDropWait g ret = some (out, w')) :
    Does (Cause w (.enter ret)) w w' := by
  obtain ⟨f, hg, hw⟩ := Option.map_eq_some_iff.1 hw
  obtain ⟨-, f', hg', hlive⟩ : CallOk _ _ (.dropWait g) := hcall ▸ h.tables.call
  obtain rfl := Option.some.inj (hg.symm.trans hg')
  rcases h.submitOnce (P := Cause w (.enter ret)) (fun _ => nofun) 1 ret with
    ⟨ctx, res, hsub, hring, -, hbusy⟩ | ⟨ctx, hsub, hdoes⟩
  · simp only [hsub] at hw
    refine .cons hring nofun ?_
    obtain ⟨ce, hce, -⟩ := (h.move hring).entry hg hlive
    have hce : ctx.completions.get f.cqid = some ce := hce
    simp only [CompletionFuture.dropWaited, hce] at hw
    cases hcqe : ce.cqe with
    | none =>
      simp only [hcqe, Option.isSome_none] at hw
      obtain ⟨-, rfl⟩ := Prod.mk.inj hw
      exact .refl
    | some cqe =>
      simp only [hcqe, Option.isSome_some] at hw
      obtain ⟨-, rfl⟩ := Prod.mk.inj hw
      exact .one (.endWait hcall hg hce hcqe)
        ⟨hcall, hg, ret, rfl, fun errno he => hbusy errno he (by decide)⟩
  · simp only [hsub] at hw
    obtain ⟨-, rfl⟩ := Prod.mk.inj hw
    exact hdoes

theorem Consistent.enterTurn_does (h : w.Consistent) (hcall : w.call = .none) {waitFor : UInt32}
    {ret : Except Errno UInt32}
    (hw : w.enterTurn hs waitFor ret = (out, w')) : Does (Cause w (.enter ret)) w w' := by
  rcases h.submitOnce (P := Cause w (.enter ret)) (fun _ => nofun) waitFor ret with
    ⟨ctx, res, hsub, hring, -, -⟩ | ⟨ctx, hsub, hdoes⟩
  · simp only [enterTurn, hsub] at hw
    refine .cons hring nofun ?_
    cases res with
    | ok u =>
      obtain ⟨w₁, hstart, hdoes⟩ := (h.move hring).startPolling hs (P := Cause w (.enter ret)) hcall
        fun _ _ => hcall
      obtain rfl : w₁ = w' := (Prod.mk.inj (hstart.symm.trans hw)).2
      exact hdoes
    | error err =>
      obtain ⟨-, rfl⟩ := Prod.mk.inj hw
      exact .one (.runtime ⟨rfl, rfl, rfl, rfl, rfl, rfl, .inl rfl, fun _ _ hc => by cases hc⟩)
        hcall
  · simp only [enterTurn, hsub] at hw
    obtain ⟨-, rfl⟩ := Prod.mk.inj hw
    exact hdoes

theorem Consistent.enter_does (h : w.Consistent) {ret : Except Errno UInt32}
    (hw : w.enter hs ret = some (out, w')) : Does (Cause w (.enter ret)) w w' := by
  rw [enter] at hw
  split at hw
  · exact h.enterSlotWait_does ‹_› hw
  · exact h.enterDropSlot_does ‹_› hw
  · exact h.enterDropWait_does ‹_› hw
  · split at hw
    · exact h.enterTurn_does ‹_› (Option.some.inj hw)
    · cases hw

/-! ## Every step -/

/-- **Every step is a sequence of moves**, and those that end the life of a future have a cause. -/
theorem Consistent.step_does (h : w.Consistent) (hw : w.step hs e = some (out, w')) :
    Does (Cause w e) w w' := by
  cases e with
  | consume count => exact consume_does hw
  | complete g res flags => exact complete_does hw
  | post g => exact post_does hw
  | newFuture =>
    obtain ⟨hu, hw⟩ := Option.ite_none_right_eq_some.1 hw
    exact newFuture_does (call_of_userCode hu) hw
  | openSession =>
    obtain ⟨hu, hw⟩ := Option.ite_none_right_eq_some.1 hw
    exact openSession_does (call_of_userCode hu) hw
  | request r =>
    obtain ⟨hu, hw⟩ := Option.ite_none_right_eq_some.1 hw
    exact request_does (call_of_userCode hu) hw
  | submit => exact submit_does (Option.ite_none_right_eq_some.1 hw).2
  | abandon => exact abandon_does (Option.ite_none_right_eq_some.1 hw).2
  | setMustWait g mustWait => exact setMustWait_does (Option.ite_none_right_eq_some.1 hw).2
  | poll g =>
    obtain ⟨hu, hw⟩ := Option.ite_none_right_eq_some.1 hw
    exact h.poll_does (call_of_userCode hu) hw
  | drop g =>
    obtain ⟨hu, hw⟩ := Option.ite_none_right_eq_some.1 hw
    exact h.drop_does (call_of_userCode hu) hw
  | handleSpawn => exact handleSpawn_does h (Option.ite_none_right_eq_some.1 hw).2
  | enter ret => exact h.enter_does hw
  | spawn => exact spawn_does h (Option.ite_none_right_eq_some.1 hw).2
  | turn => exact h.turn_does (Option.ite_none_right_eq_some.1 hw).2
  | chooseWait =>
    simp only [step] at hw
    split at hw
    · obtain ⟨-, rfl⟩ := Prod.mk.inj (Option.some.inj hw)
      exact .runtime trivial ⟨rfl, rfl, rfl, rfl, rfl, rfl, .inl rfl, fun _ _ hc => by cases hc⟩
    · cases hw
  | next => exact next_does (Option.ite_none_right_eq_some.1 hw).2
  | polled res => exact polled_does (Option.ite_none_right_eq_some.1 hw).2
  | turnOk => exact turnOk_does (Option.ite_none_right_eq_some.1 hw).2
  | unwound => exact unwound_does (Option.ite_none_right_eq_some.1 hw).2
  | blockOn => exact blockOn_does h (Option.ite_none_right_eq_some.1 hw).2

theorem Init.consistent (h : w.Init) : w.Consistent := by
  obtain ⟨k, hk⟩ := h.cq
  obtain ⟨k', hk'⟩ := h.sq
  refine ⟨⟨?_, ?_, ?_, ⟨k', hk', ?_⟩, ?_⟩, ?_⟩
  · rw [h.completions, h.ledger]
    exact Table.empty
  · rw [h.ledger]
    intro g f hg
    cases hg
  · rw [h.ledger]
    exact PostsOk.new hk
  · rw [h.session]
    intro s hs
    cases hs
  · rw [h.call]
    trivial
  · rw [currentTask, h.phase]
    intro id task hc
    cases hc

/-- Executor and ledger stay consistent. -/
theorem Consistent.step (h : w.Consistent) (hw : w.Step hs e w') : w'.Consistent := by
  obtain ⟨out, hw⟩ := hw
  exact ((h.step_does hw).keeps (fun _ _ _ _ _ _ _ => trivial) h trivial).1

/-- **Executor and ledger are consistent in every reachable state.** -/
theorem Reachable.consistent (h : Reachable hs w) : w.Consistent :=
  Runs.Reachable.invariant (fun _ hi => hi.consistent) (fun _ _ _ hc hst => hc.step hst) h

/-- An invariant of the tables that every move keeps holds in every reachable state. -/
theorem Reachable.keeps {I : World → Prop} (hinit : ∀ w, w.Init → I w)
    (hmove : ∀ w a w', w.Consistent → I w → Move w a w' → I w') (h : Reachable hs w) :
    I w := by
  induction h with
  | init hi => exact hinit _ hi
  | tail hr hst ih =>
    obtain ⟨out, hw⟩ := hst
    have hc := Reachable.consistent hr
    exact ((hc.step_does hw).keeps (fun w a w' hc _ hi hm => hmove w a w' hc hi hm) hc ih).2

end World

end Hamerkop
