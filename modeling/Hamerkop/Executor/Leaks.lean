import Hamerkop.Executor.Routing

/-!
# Completion entries are not leaked, as long as nothing is dropped too early

An entry is freed by `drop` if its event has arrived, and by `process_cqes` if
its future is dead.  This misses three cases.  A future that is dropped before
its entry is published (or whose session is abandoned) has no event that could
free the entry; a future whose `drop` panics leaves its entry behind; and the
`drop` of a future that must wait returns without removing the entry it has
waited for.

`World.noLeak_of_keepsEntries`: these are all.  In a run without such a step
every occupied slot belongs to a live future or to a request in flight.
-/

namespace Hamerkop

open Runs LinkedSubmitter

/-- Its entry is used: the future is live, or its request in flight. -/
def Fut.HoldsEntry (f : Fut) : Prop := f.life = .live ∨ f.Outstanding

namespace World

variable {hs : Hashes} {w w' : World}

/-- Every occupied slot belongs to a future that is live, or is the user data of an entry that is
published and its event not processed; and there are no more of them than that. -/
structure NoLeak (w : World) : Prop where
  owned : ∀ i ce, w.ctx.completions.get i = some ce → ∃ g f, w.ledger.futs g = some f ∧
    f.cqid = i ∧ (f.life = .live ∨ f.Outstanding ∧ f.sqe.userData.toNat = i)
  count : ∃ gs : Finset ℕ, (∀ g ∈ gs, ∃ f, w.ledger.futs g = some f ∧ f.HoldsEntry) ∧
    w.ctx.completions.len ≤ gs.card

/-- The step leaves no entry behind: no future is dropped while a session is open or before its
entry is published, unless it must wait; no `io_uring_enter` fails for good while a request waits
for a slot; and no `drop` that waits for its event gets to its end. -/
def KeepsEntries (w : World) : Event → Prop
  | .drop g => w.session = none ∧ ∀ f, w.ledger.futs g = some f →
    f.mustWait = true ∨ f.Outstanding ∨ ∃ cqe time, f.stage = .processed cqe time
  | .enter ret =>
    (∀ errno, ret = .error errno → IOContext.isBusy errno = false →
      ∀ g r, w.call ≠ .slotWait g r) ∧
    ((∀ errno, ret = .error errno → IOContext.isBusy errno = false) →
      ∀ g f, w.call = .dropWait g → w.ledger.futs g = some f →
        ∀ cqe time, f.stage ≠ .processed cqe time)
  | _ => True

/-- The moves of such a step. -/
def KeepsEntry : Act → Prop
  | .die _ f => f.Outstanding
  | .endWait _ _ _ | .lose _ _ => False
  | _ => True

/-! ## The invariant -/

/-- Every entry is used, and no future was lost. -/
structure EntriesUsed (w : World) : Prop where
  used : ∀ i ce, w.ctx.completions.get i = some ce → ∃ g f, w.ledger.futs g = some f ∧
    f.cqid = i ∧ f.HoldsEntry
  found : ∀ g f, w.ledger.futs g = some f → f.life ≠ .lost

namespace EntriesUsed

variable {g : ℕ} {f f' : Fut}

/-- A future changes, and may stop using its entry only if that is removed. -/
theorem update (h : w.EntriesUsed) (hg : w.ledger.futs g = some f)
    (hget : ∀ i, w.ctx.completions.get i = none → w'.ctx.completions.get i = none)
    (hfuts : w'.ledger.futs = Function.update w.ledger.futs g (some f')) (hc : f'.cqid = f.cqid)
    (hl : f.life ≠ .lost → f'.life ≠ .lost)
    (hx : f.HoldsEntry → f'.HoldsEntry ∨ w'.ctx.completions.get f.cqid = none) :
    w'.EntriesUsed := by
  refine ⟨fun i ce hce => ?_, fun g₂ f₂ hg₂ => ?_⟩
  · have hsome : w.ctx.completions.get i ≠ none := fun hnone => by
      rw [hget i hnone] at hce
      cases hce
    obtain ⟨ce₀, hce₀⟩ := Option.ne_none_iff_exists'.1 hsome
    obtain ⟨g₂, f₂, hg₂, hi, hu⟩ := h.used i ce₀ hce₀
    by_cases hgg : g₂ = g
    · subst hgg
      obtain rfl := Option.some.inj (hg.symm.trans hg₂)
      rcases hx hu with hu' | hnone
      · exact ⟨g₂, f', by rw [hfuts, Function.update_self], hc.trans hi, hu'⟩
      · rw [hi, hce] at hnone
        cases hnone
    · exact ⟨g₂, f₂, by rw [hfuts, Function.update_of_ne hgg, hg₂], hi, hu⟩
  · rw [hfuts] at hg₂
    by_cases hgg : g₂ = g
    · subst hgg
      rw [Function.update_self, Option.some.injEq] at hg₂
      exact hg₂ ▸ hl (h.found g₂ f hg)
    · rw [Function.update_of_ne hgg] at hg₂
      exact h.found g₂ f₂ hg₂

/-- Several futures change, and none stops using its entry. -/
theorem map (h : w.EntriesUsed) (hcomp : w'.ctx.completions = w.ctx.completions)
    (hfuts : ∀ g, w'.ledger.futs g = w.ledger.futs g ∨ ∃ upd : Fut → Fut,
      w'.ledger.futs g = (w.ledger.futs g).map upd ∧ ∀ f, w.ledger.futs g = some f →
        (upd f).cqid = f.cqid ∧ (upd f).life = f.life ∧ (f.HoldsEntry → (upd f).HoldsEntry)) :
    w'.EntriesUsed := by
  refine ⟨fun i ce hce => ?_, fun g f hg => ?_⟩
  · rw [hcomp] at hce
    obtain ⟨g, f, hg, hi, hu⟩ := h.used i ce hce
    rcases hfuts g with heq | ⟨upd, heq, hupd⟩
    · exact ⟨g, f, heq.trans hg, hi, hu⟩
    · obtain ⟨hc, -, hx⟩ := hupd f hg
      exact ⟨g, upd f, by rw [heq, hg, Option.map_some], hc.trans hi, hx hu⟩
  · rcases hfuts g with heq | ⟨upd, heq, hupd⟩
    · exact h.found g f (heq.symm.trans hg)
    · rw [heq] at hg
      obtain ⟨f₀, hg₀, rfl⟩ := Option.map_eq_some_iff.1 hg
      rw [(hupd f₀ hg₀).2.1]
      exact h.found g f₀ hg₀

/-- An entry is made for a new future. -/
theorem create (h : w.EntriesUsed) (hnew : w.ledger.futs w.ledger.nextFut = none) {cqid : ℕ}
    {kind : FutureKind} {buffer : Option (FixedVec UInt8)}
    (hget : w'.ctx.completions.get =
      Function.update w.ctx.completions.get cqid (some (.new NO_TASK_SENTINEL)))
    (hfuts : w'.ledger.futs = (w.ledger.create cqid kind buffer).futs) : w'.EntriesUsed := by
  obtain ⟨f', hself, hcqid, hlive⟩ : ∃ f', w'.ledger.futs w.ledger.nextFut = some f' ∧
      f'.cqid = cqid ∧ f'.life = .live :=
    ⟨_, by rw [hfuts]; exact Function.update_self .., rfl, rfl⟩
  have hne : ∀ g ≠ w.ledger.nextFut, w'.ledger.futs g = w.ledger.futs g := fun g hg => by
    rw [hfuts]
    exact Function.update_of_ne hg ..
  refine ⟨fun i ce hce => ?_, fun g f hg => ?_⟩
  · by_cases hi : i = cqid
    · exact ⟨_, f', hself, hcqid.trans hi.symm, .inl hlive⟩
    · rw [hget, Function.update_of_ne hi] at hce
      obtain ⟨g, f, hg, hc, hu⟩ := h.used i ce hce
      refine ⟨g, f, (hne g fun heq => ?_).trans hg, hc, hu⟩
      rw [heq, hnew] at hg
      cases hg
  · by_cases hgg : g = w.ledger.nextFut
    · rw [hgg, hself, Option.some.injEq] at hg
      simp [← hg, hlive]
    · exact h.found g f ((hne g hgg).symm.trans hg)

theorem move {a : Act} (hc : w.Consistent) (ha : KeepsEntry a) (h : w.EntriesUsed)
    (hm : Move w a w') : w'.EntriesUsed := by
  have hnew := hc.tables.futs_nextFut
  cases hm with
  | runtime hsame =>
    refine h.map hsame.completions fun g => .inl ?_
    rcases hsame.ledger with heq | ⟨task, heq⟩ <;> rw [heq]
    rfl
  | ring _ => exact ⟨h.used, h.found⟩
  | complete hg hl =>
    obtain ⟨f, held, bufs, hg', hst, -, rfl⟩ := Ledger.complete_eq_some hl
    exact h.update hg' (fun _ hi => hi) rfl rfl id fun _ => .inl (.inr (.inr ⟨_, .inl rfl⟩))
  | post hg hst hroom =>
    exact h.update hg (fun _ hi => hi) (Ledger.futs_modifyFut hg _) rfl id
      fun _ => .inl (.inr (.inr ⟨_, .inr rfl⟩))
  | newFuture hcall hfrom =>
    obtain ⟨⟨i, completions⟩, hins, hpair⟩ := Option.map_eq_some_iff.1 hfrom
    obtain ⟨rfl, rfl⟩ := Prod.mk.inj hpair
    exact h.create hnew (Slots.get_insert hins) rfl
  | request hcall hs hreq hfrom =>
    obtain ⟨⟨i, completions⟩, hins, hpair⟩ := Option.map_eq_some_iff.1 hfrom
    obtain ⟨rfl, rfl⟩ := Prod.mk.inj hpair
    refine h.create hnew ?_ rfl
    rcases beginRequest_started hreq with ⟨-, rfl⟩ | ⟨_, _, _, buffers, -, -, -, rfl, -⟩
    · exact Slots.get_insert hins
    · exact Slots.get_insert hins
  | openSession _ _ => exact ⟨h.used, h.found⟩
  | fill hcall hs hg hfill =>
    obtain ⟨f', hg', hlive, -⟩ : CallOk _ _ (.slotWait _ _) := hcall ▸ hc.tables.call
    obtain rfl := Option.some.inj (hg.symm.trans hg')
    obtain ⟨sq, completions, -, rfl, hget⟩ := fillSlot_eq_some hfill
    refine h.update hg (fun i hi => ?_) (Ledger.futs_modifyFut hg _) rfl id
      fun _ => .inl (.inl hlive)
    refine (congrFun hget i).trans (Slots.update_eq_none hi fun hic => ?_)
    rw [← hic, hi, Option.map_none]
  | publish hs hpub queued =>
    refine h.map rfl fun g => ?_
    rcases Ledger.publish_futs w.ledger _ g with heq | ⟨-, sqe, heq⟩
    · exact .inl heq
    · exact .inr ⟨_, heq, fun f _ => ⟨rfl, rfl, fun _ => .inr (.inl rfl)⟩⟩
  | @abandon s hs =>
    refine h.map rfl fun g => ?_
    rcases Ledger.abandon_futs w.ledger s.linked g with heq | ⟨hmem, heq⟩
    · exact .inl heq
    · refine .inr ⟨_, heq, fun f hg => ⟨rfl, rfl, fun hu => .inl ?_⟩⟩
      obtain ⟨f', hg', hst⟩ := (hs ▸ hc.tables.linked).prepared hmem
      obtain rfl := Option.some.inj (hg.symm.trans hg')
      exact hu.resolve_right (Fut.not_outstanding_of_prepared hst)
  | setMustWait hg hlive mustWait =>
    exact h.update hg (fun _ hi => hi) (Ledger.futs_modifyFut hg _) rfl id
      fun _ => .inl (.inl hlive)
  | pending hcall hg hlive hce hcqe hcurrent =>
    exact h.update hg (fun _ hi => Slots.get_modify_of_none hi _ _) (Ledger.futs_modifyFut hg _) rfl
      id fun _ => .inl (.inl hlive)
  | ready hcall hg hlive hce hcqe hcurrent =>
    exact h.update hg (fun _ hi => Slots.get_modify_of_none hi _ _) (Ledger.futs_modifyFut hg _) rfl
      id fun _ => .inl (.inl hlive)
  | resolve hcall hg hlive hkind hce hcqe hget =>
    refine h.update hg (fun i hi => ?_) (congrArg Ledger.futs (Ledger.resolve_eq hg _ _)) rfl nofun
      fun _ => .inr ?_
    · exact (congrFun hget i).trans (Slots.update_eq_none hi fun _ => rfl)
    · exact (congrFun hget _).trans (Function.update_self ..)
  | dropReady hcall hg hlive hce hcqe =>
    refine h.update hg (fun _ hi => Slots.get_remove_of_none hi _) (Ledger.futs_modifyFut hg _) rfl
      nofun fun _ => .inr ?_
    exact (congrFun (Slots.get_remove ..) _).trans (Function.update_self ..)
  | die hcall hg hlive hce hcqe hmustWait =>
    exact h.update hg (fun _ hi => Slots.get_modify_of_none hi _ _) (Ledger.futs_modifyFut hg _) rfl
      nofun fun _ => .inl (.inr ha)
  | beginWait hcall hs hg hlive hce hcqe hmustWait =>
    exact h.update hg (fun _ hi => Slots.get_modify_of_none hi _ _) (Ledger.futs_modifyFut hg _) rfl
      id fun _ => .inl (.inl hlive)
  | cancel _ => exact ⟨h.used, h.found⟩
  | endWait _ _ _ _ => exact ha.elim
  | lose _ _ _ => exact ha.elim
  | @process g f _ _ _ intoRunqueue hp hg hst hud hce hok =>
    obtain ⟨completions, heq, hget⟩ := takeCqe_eq intoRunqueue hst hud hce hok
    rw [heq]
    refine h.update hg (fun i hi => ?_) (congrArg Ledger.futs (Ledger.process_eq hg)) rfl id
      fun _ => ?_
    · refine (congrFun hget i).trans (Slots.update_eq_none hi fun hic => ?_)
      rw [hic, hce] at hi
      cases hi
    · cases hlife : f.life with
      | live => exact .inl (.inl rfl)
      | dead => exact .inr ((congrFun hget _).trans (by rw [Function.update_self, if_pos hlife]))
      | lost => exact absurd hlife (h.found _ f hg)

end EntriesUsed

/-! ## Steps and runs -/

/-- A step that meets the condition only makes such moves. -/
theorem KeepsEntries.cause {e : Event} (h : w.KeepsEntries e) {a : Act} {w₁ w₂ : World}
    (hcause : w.Cause e a) (hc : w₁.Consistent) (hm : Move w₁ a w₂) : KeepsEntry a := by
  cases hm with
  | die hcall hg hlive hce hcqe hmustWait =>
    obtain ⟨rfl, hg'⟩ := hcause
    rcases h.2 _ hg' with hmust | hout | ⟨cqe, time, hst⟩
    · rw [hmust] at hmustWait
      cases hmustWait
    · exact hout
    · have hok := (hc.entryOk hg hlive hce).cqe
      rw [hcqe, hst] at hok
      cases hok
  | endWait hcall hg hce hcqe =>
    obtain ⟨hcall', hg', ret, rfl, hbusy⟩ := hcause
    obtain ⟨-, f', hg'', hlive⟩ : CallOk _ _ (.dropWait _) := hcall ▸ hc.tables.call
    obtain rfl := Option.some.inj (hg.symm.trans hg'')
    obtain ⟨time, hst⟩ := (hc.entryOk hg hlive hce).processed hcqe
    exact h.2 hbusy _ _ hcall' hg' _ _ hst
  | lose hg hlive hcall =>
    rcases hcause with ⟨-, ⟨rfl, hs⟩ | ⟨r, errno, hcall', rfl, hbusy⟩⟩
    · rw [h.1] at hs
      cases hs
    · exact h.1 errno rfl hbusy _ r hcall'
  | _ => trivial

theorem EntriesUsed.step (hc : w.Consistent) (h : w.EntriesUsed) {e : Event}
    (hk : w.KeepsEntries e) (hst : w.Step hs e w') : w'.Consistent ∧ w'.EntriesUsed := by
  obtain ⟨out, hw⟩ := hst
  exact (hc.step_does hw).keeps (fun w₁ a w₂ hc₁ ha hi hm => hi.move hc₁ (hk.cause ha hc₁ hm) hm)
    hc h

theorem Init.entriesUsed (h : w.Init) : w.EntriesUsed := by
  refine ⟨fun i ce hce => ?_, fun g f hg => ?_⟩
  · rw [h.completions] at hce
    cases hce
  · rw [h.ledger] at hg
    cases hg

theorem EntriesUsed.noLeak (h : w.EntriesUsed) (hc : w.Consistent) : w.NoLeak := by
  refine ⟨fun i ce hce => ?_, ?_⟩
  · obtain ⟨g, f, hg, rfl, hu⟩ := h.used i ce hce
    refine ⟨g, f, hg, rfl, hu.imp_right fun hout => ⟨hout, ?_⟩⟩
    exact hc.toNat_userData hg hout
  · -- every occupied slot is that of a future in use, and different slots of different futures
    have hcover : ∀ i ∈ w.ctx.completions.live, ∃ g, ∃ f, w.ledger.futs g = some f ∧ f.cqid = i ∧
        f.HoldsEntry := by
      intro i hi
      obtain ⟨ce, hce⟩ := Option.isSome_iff_exists.1 (Slots.mem_live.1 hi)
      exact h.used i ce hce
    choose! owner howner using hcover
    refine ⟨w.ctx.completions.live.image owner, fun g hmem => ?_, ?_⟩
    · obtain ⟨i, hi, rfl⟩ := Finset.mem_image.1 hmem
      obtain ⟨f, hg, -, hu⟩ := howner i hi
      exact ⟨f, hg, hu⟩
    · rw [Slots.len_eq, Finset.card_image_of_injOn fun i hi j hj hij => ?_]
      obtain ⟨f, hg, rfl, -⟩ := howner i hi
      obtain ⟨f', hg', rfl, -⟩ := howner j hj
      rw [show owner f.cqid = owner f'.cqid from hij, hg', Option.some.injEq] at hg
      rw [hg]

/-- **Completion entries are not leaked** in a run from `Runtime::new` whose steps all keep them:
in every state passed, each occupied slot belongs to a live future or a request in flight. -/
theorem noLeak_of_keepsEntries {l : List (Event × World)} (h0 : w.Init) (hr : Run (Step hs) w l)
    (hk : ∀ x ∈ steps w l, x.1.KeepsEntries x.2.1) : ∀ u ∈ states w l, u.NoLeak := by
  have hinv : ∀ u ∈ states w l, u.Consistent ∧ u.EntriesUsed :=
    hr.invariant (C := KeepsEntries) (fun u e u' hi hk hst => hi.2.step hi.1 hk hst)
      ⟨h0.consistent, h0.entriesUsed⟩ hk
  exact fun u hu => (hinv u hu).2.noLeak (hinv u hu).1

/-! ## A session that is submitted, and one that is abandoned -/

/-- A request is published, and its future dropped once the event is posted. -/
def droppedLate : List Event := onePosted ++ [.drop 0]

theorem droppedLate_noLeak :
    Always NoLeak emptyWorld (play (next? ⟨id, id⟩) emptyWorld droppedLate) := by
  have hkeeps : PlaysWith (next? ⟨id, id⟩) KeepsEntries emptyWorld droppedLate := by
    refine ⟨trivial, trivial, trivial, trivial, trivial, ⟨rfl, fun f hf => ?_⟩, trivial⟩
    obtain rfl := Option.some.inj hf
    exact .inr (.inl (.inr ⟨_, .inr rfl⟩))
  exact noLeak_of_keepsEntries emptyWorld_init (run_play _ _ _) hkeeps.forall_steps

/-- A session is dropped without `submit`, and then the future of its request. -/
def abandoned : List Event := [.openSession, .request (.submitSqe id), .abandon, .drop 0]

/-- **The entry of an abandoned request is leaked**, so not every run is without a leak. -/
theorem abandoned_leaks :
    ¬ ∀ (hs : Hashes) (w : World), Reachable hs w → w.NoLeak := by
  intro h
  have hr : emptyWorld.runs ⟨id, id⟩ abandoned = some _ := rfl
  obtain ⟨g, f, hg, -, hu⟩ := (h ⟨id, id⟩ _ (.runs (.init emptyWorld_init) hr)).owned 0 _ rfl
  cases g with
  | zero =>
    obtain rfl := Option.some.inj hg
    rcases hu with hl | ⟨hs | ⟨_, hs | hs⟩, -⟩
    · cases hl
    · cases hs
    · cases hs
    · cases hs
  | succ g => cases hg

end World

end Hamerkop
