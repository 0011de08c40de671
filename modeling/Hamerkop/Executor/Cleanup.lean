import Hamerkop.Executor.Pool

/-!
# Dropping a future before or after its event is processed

The executor cleans up behind a future in two places: `process_cqes`, when the
future was dropped first, and `drop`, when the event came first.

`World.Reachable.sameCleanup_iff` compares them: whatever else is in the batch of
events, both orders leave the same entries and the same buffers, unless the request
was to provide a buffer and has failed.  Then only `process_cqes` takes the buffer
out of the pool (`failedProvide_not_sameCleanup`).
-/

namespace Hamerkop

/-- The table of completion entries, and the pool. -/
abbrev Tables := Slots CompletionEvent × Slots (FixedVec UInt8)

/-- What processing an event does to both. -/
def Tables.processCqe (t : Tables) (cqe : Cqe) : Tables :=
  match t.1.get cqe.userData.toNat with
  | none => t
  | some ce =>
    let kept := t.1.modify cqe.userData.toNat fun _ => { ce with cqe := some cqe }
    if ce.task = DEAD_TASK_SENTINEL then
      ((kept.remove cqe.userData.toNat).2, match ce.action with
        | .deleteBufferOnError bufid => if cqe.isErr then (t.2.remove bufid).2 else t.2
        | .none => t.2)
    else (kept, t.2)

namespace IOContext

/-- The tables of the context, on their own. -/
def tables (ctx : IOContext) : Tables := (ctx.completions, ctx.buffers)

/-- Dropping the future of an entry and then processing the events available leaves the same live
entries and the same pool as doing so the other way round. -/
def SameCleanup {ρ : Type} (queueFunc : QueueFunc ρ) (captured : ρ) (ctx : IOContext) (cqid : ℕ) :
    Prop :=
  ∃ dropped processed ctx₁ ctx₂ r₁ r₂,
    CompletionFuture.drop ctx cqid false = .ok (.done, dropped) ∧
    dropped.processCqes queueFunc captured = .ok (r₁, ctx₁) ∧
    ctx.processCqes queueFunc captured = .ok (r₂, processed) ∧
    CompletionFuture.drop processed cqid false = .ok (.done, ctx₂) ∧
    ctx₁.completions.live = ctx₂.completions.live ∧ ctx₁.buffers = ctx₂.buffers

variable {ρ : Type} {queueFunc : QueueFunc ρ}

theorem tables_takeCqe (s : ρ × IOContext) (cqe : Cqe) :
    (takeCqe queueFunc s cqe).2.tables = s.2.tables.processCqe cqe := by
  obtain ⟨captured, ctx⟩ := s
  cases hce : ctx.completions.get cqe.userData.toNat with
  | none => simp only [takeCqe, processCqe, Tables.processCqe, tables, hce]
  | some ce =>
    simp only [takeCqe, processCqe_eq queueFunc captured hce, Tables.processCqe, tables, hce]
    by_cases hno : ce.task = NO_TASK_SENTINEL
    · have hdead : ce.task ≠ DEAD_TASK_SENTINEL := by
        rw [hno]
        decide
      rw [if_pos hno, if_neg hdead]
    · rw [if_neg hno]
      split <;> rfl

theorem tables_foldl (cqes : List Cqe) (s : ρ × IOContext) :
    (cqes.foldl (takeCqe queueFunc) s).2.tables = cqes.foldl Tables.processCqe s.2.tables := by
  induction cqes generalizing s with
  | nil => rfl
  | cons cqe cqes ih => rw [List.foldl_cons, List.foldl_cons, ih, tables_takeCqe]

end IOContext

namespace Tables

variable {s t : Tables} {cqid : ℕ} {cqe : Cqe} {cqes : List Cqe} {x : Option CompletionEvent}

theorem processCqe_fst (t : Tables) {ce : CompletionEvent}
    (hce : t.1.get cqe.userData.toNat = some ce) :
    (t.processCqe cqe).1.get = Function.update t.1.get cqe.userData.toNat
      (if ce.task = DEAD_TASK_SENTINEL then none else some { ce with cqe := some cqe }) := by
  have hkept : (t.1.modify cqe.userData.toNat fun _ => { ce with cqe := some cqe }).get =
      Function.update t.1.get cqe.userData.toNat (some { ce with cqe := some cqe }) := by
    rw [Slots.get_modify, hce, Option.map_some]
  simp only [processCqe, hce]
  split
  · rw [Slots.get_remove, hkept, Function.update_idem]
  · exact hkept

/-- The event of another entry leaves this one alone. -/
theorem get_processCqe_of_ne (t : Tables) (hne : cqe.userData.toNat ≠ cqid) :
    (t.processCqe cqe).1.get cqid = t.1.get cqid := by
  cases hce : t.1.get cqe.userData.toNat with
  | none => simp only [processCqe, hce]
  | some ce => rw [processCqe_fst t hce, Function.update_of_ne hne.symm]

/-- Two tables with the same entries but for one, and how they differ in it. -/
structure DifferAt (cqid : ℕ) (x : Option CompletionEvent) (s t : Tables) : Prop where
  get : s.1.get = Function.update t.1.get cqid x

theorem DifferAt.get_of_ne (h : DifferAt cqid x s t) (hne : cqe.userData.toNat ≠ cqid) :
    s.1.get cqe.userData.toNat = t.1.get cqe.userData.toNat := by
  rw [h.get, Function.update_of_ne hne]

/-- The event of another entry does the same to both. -/
theorem DifferAt.processCqe (h : DifferAt cqid x s t) (hne : cqe.userData.toNat ≠ cqid) :
    DifferAt cqid x (s.processCqe cqe) (t.processCqe cqe) ∧
      (s.2 = t.2 → (s.processCqe cqe).2 = (t.processCqe cqe).2) := by
  have hsame := h.get_of_ne hne
  cases hce : t.1.get cqe.userData.toNat with
  | none =>
    rw [hce] at hsame
    simp only [Tables.processCqe, hce, hsame]
    exact ⟨h, id⟩
  | some ce =>
    rw [hce] at hsame
    refine ⟨⟨?_⟩, fun hbuffers => ?_⟩
    · rw [processCqe_fst s hsame, processCqe_fst t hce, h.get, Function.update_comm hne]
    · simp only [Tables.processCqe, hce, hsame, hbuffers]
      split <;> rfl

theorem DifferAt.foldl (h : DifferAt cqid x s t)
    (hne : ∀ cqe ∈ cqes, cqe.userData.toNat ≠ cqid) :
    DifferAt cqid x (cqes.foldl Tables.processCqe s) (cqes.foldl Tables.processCqe t) ∧
      (s.2 = t.2 → (cqes.foldl Tables.processCqe s).2 = (cqes.foldl Tables.processCqe t).2) := by
  induction cqes generalizing s t with
  | nil => exact ⟨h, id⟩
  | cons cqe cqes ih =>
    obtain ⟨hne, hrest⟩ := List.forall_mem_cons.1 hne
    obtain ⟨hdiffer, hbuffers⟩ := h.processCqe hne
    obtain ⟨hdiffer', hbuffers'⟩ := ih hdiffer hrest
    exact ⟨hdiffer', fun h => hbuffers' (hbuffers h)⟩

theorem get_foldl_of_ne (t : Tables) (hne : ∀ cqe ∈ cqes, cqe.userData.toNat ≠ cqid) :
    (cqes.foldl Tables.processCqe t).1.get cqid = t.1.get cqid := by
  induction cqes generalizing t with
  | nil => rfl
  | cons cqe cqes ih =>
    obtain ⟨hne, hrest⟩ := List.forall_mem_cons.1 hne
    rw [List.foldl_cons, ih _ hrest, get_processCqe_of_ne t hne]

/-- Processing events puts no buffer into the pool. -/
theorem buffer_processCqe {b : ℕ} (t : Tables) (cqe : Cqe) (hb : t.2.get b = none) :
    (t.processCqe cqe).2.get b = none := by
  simp only [processCqe]
  split
  · exact hb
  · split
    · split
      · split
        · exact Slots.get_remove_of_none hb _
        · exact hb
      · exact hb
    · exact hb

theorem buffer_foldl {b : ℕ} (t : Tables) (cqes : List Cqe) (hb : t.2.get b = none) :
    (cqes.foldl Tables.processCqe t).2.get b = none := by
  induction cqes generalizing t with
  | nil => exact hb
  | cons cqe cqes ih => exact ih _ (buffer_processCqe t cqe hb)

/-- The event of a dropped future is processed in `s`, and that of the same future in `t`. -/
theorem DifferAt.processEvent {ce : CompletionEvent}
    (h : DifferAt cqid (some { ce with task := DEAD_TASK_SENTINEL }) s t)
    (hce : t.1.get cqid = some ce) (hdead : ce.task ≠ DEAD_TASK_SENTINEL)
    (hud : cqe.userData.toNat = cqid) :
    DifferAt cqid none (s.processCqe cqe) (t.processCqe cqe) ∧
      (t.processCqe cqe).1.get cqid = some { ce with cqe := some cqe } ∧
      (t.processCqe cqe).2 = t.2 ∧
      (s.processCqe cqe).2 = match ce.action with
        | .deleteBufferOnError bufid => if cqe.isErr then (s.2.remove bufid).2 else s.2
        | .none => s.2 := by
  subst hud
  have hself : s.1.get cqe.userData.toNat = some { ce with task := DEAD_TASK_SENTINEL } := by
    rw [h.get, Function.update_self]
  have hget := processCqe_fst t hce
  rw [if_neg hdead] at hget
  refine ⟨⟨?_⟩, by rw [hget, Function.update_self], ?_, ?_⟩
  · rw [processCqe_fst s hself, if_pos rfl, hget, h.get, Function.update_idem, Function.update_idem]
  · simp only [Tables.processCqe, hce, if_neg hdead]
  · simp only [Tables.processCqe, hself, if_true]

/-- A batch of events, that of the dropped future among them. -/
theorem DifferAt.foldl_event {ce : CompletionEvent} {before after : List Cqe}
    (h : DifferAt cqid (some { ce with task := DEAD_TASK_SENTINEL }) s t) (hbuffers : s.2 = t.2)
    (hce : t.1.get cqid = some ce) (hdead : ce.task ≠ DEAD_TASK_SENTINEL)
    (hud : cqe.userData.toNat = cqid) (hbefore : ∀ cqe' ∈ before, cqe'.userData.toNat ≠ cqid)
    (hafter : ∀ cqe' ∈ after, cqe'.userData.toNat ≠ cqid) :
    let s' := (before ++ cqe :: after).foldl Tables.processCqe s
    let t' := (before ++ cqe :: after).foldl Tables.processCqe t
    DifferAt cqid none s' t' ∧ t'.1.get cqid = some { ce with cqe := some cqe } ∧
      (ce.action = .none ∨ cqe.isErr = false → s'.2 = t'.2) ∧
      ∀ bufid, ce.action = .deleteBufferOnError bufid → cqe.isErr = true →
        s'.2.get bufid = none := by
  obtain ⟨h₁, hbuffers₁⟩ := h.foldl hbefore
  have hbuffers₁ := hbuffers₁ hbuffers
  obtain ⟨h₂, hentry, hkept, hcleaned⟩ :=
    h₁.processEvent ((get_foldl_of_ne t hbefore).trans hce) hdead hud
  obtain ⟨h₃, hbuffers₃⟩ := h₂.foldl hafter
  simp only [List.foldl_append, List.foldl_cons]
  refine ⟨h₃, (get_foldl_of_ne _ hafter).trans hentry, fun hquiet => hbuffers₃ ?_,
    fun bufid haction herr => buffer_foldl _ after ?_⟩
  · rw [hkept, hcleaned, ← hbuffers₁]
    rcases hquiet with haction | herr
    · rw [haction]
    · cases ce.action with
      | none => rfl
      | deleteBufferOnError bufid => simp [herr]
  · rw [hcleaned, haction]
    simp only [herr, if_true]
    rw [Slots.get_remove, Function.update_self]

end Tables

namespace IOContext

variable {ctx : IOContext} {cqid k : ℕ} {ce : CompletionEvent} {cqe : Cqe} {before after : List Cqe}

/-- Both orders go through, and leave the same entries; the pools differ by what the cleanup action
does to the one of the future that was dropped first. -/
theorem cleanup_spec {ρ : Type} (queueFunc : QueueFunc ρ) (captured : ρ)
    (hring : ctx.cq.Holds k (before ++ cqe :: after)) (hce : ctx.completions.get cqid = some ce)
    (hnone : ce.cqe = none) (hdead : ce.task ≠ DEAD_TASK_SENTINEL)
    (hud : cqe.userData.toNat = cqid) (hbefore : ∀ cqe' ∈ before, cqe'.userData.toNat ≠ cqid)
    (hafter : ∀ cqe' ∈ after, cqe'.userData.toNat ≠ cqid) :
    ∃ dropped processed ctx₁ ctx₂ r₁ r₂,
      CompletionFuture.drop ctx cqid false = .ok (.done, dropped) ∧
      dropped.processCqes queueFunc captured = .ok (r₁, ctx₁) ∧
      ctx.processCqes queueFunc captured = .ok (r₂, processed) ∧
      CompletionFuture.drop processed cqid false = .ok (.done, ctx₂) ∧
      ctx₁.completions.live = ctx₂.completions.live ∧
      ctx₂.buffers = ((before ++ cqe :: after).foldl Tables.processCqe ctx.tables).2 ∧
      (ce.action = .none ∨ cqe.isErr = false → ctx₁.buffers = ctx₂.buffers) ∧
      ∀ bufid, ce.action = .deleteBufferOnError bufid → cqe.isErr = true →
        ctx₁.buffers.get bufid = none := by
  let dropped : IOContext :=
    { ctx with completions := ctx.completions.modify cqid fun ce =>
      { ce with task := DEAD_TASK_SENTINEL } }
  have hstart : Tables.DifferAt cqid (some { ce with task := DEAD_TASK_SENTINEL }) dropped.tables
      ctx.tables := by
    refine ⟨?_⟩
    show (ctx.completions.modify cqid _).get = _
    rw [Slots.get_modify, hce, Option.map_some]
    rfl
  obtain ⟨hdiffer, hentry, hsame, hremoved⟩ :=
    hstart.foldl_event rfl hce hdead hud hbefore hafter
  rw [← @tables_foldl _ queueFunc _ (captured, ctx)] at hdiffer hentry hsame ⊢
  rw [← @tables_foldl _ queueFunc _ (captured, dropped)] at hdiffer hsame hremoved
  generalize hfold : (before ++ cqe :: after).foldl (takeCqe queueFunc) (captured, ctx) = r₂ at *
  generalize hfold' :
    (before ++ cqe :: after).foldl (takeCqe queueFunc) (captured, dropped) = r₁ at *
  refine ⟨dropped, r₂.2, r₁.2, { r₂.2 with completions := (r₂.2.completions.remove cqid).2 }, r₁.1,
    r₂.1, ?_, ?_, ?_, ?_, ?_, rfl, hsame, hremoved⟩
  · simp [CompletionFuture.drop, hce, hnone, dropped]
  · have hring' : dropped.cq.Holds k (before ++ cqe :: after) := hring
    rw [processCqes_eq queueFunc hring', hfold']
  · rw [processCqes_eq queueFunc hring, hfold]
  · have hget : r₂.2.completions.get cqid = _ := hentry
    simp [CompletionFuture.drop, hget]
  · have hget : r₁.2.completions.get = Function.update r₂.2.completions.get cqid none := hdiffer.get
    ext i
    rw [Slots.mem_live, Slots.mem_live, hget, Slots.get_remove]

end IOContext

namespace World

variable {hs : Hashes} {w w' : World} {g : ℕ} {f : Fut} {cqe : Cqe} {ce : CompletionEvent}

/-- The events around that of a future belong to other entries. -/
theorem Consistent.pending_split (h : w.Consistent) (hg : w.ledger.futs g = some f)
    (hst : f.stage = .posted cqe) :
    ∃ before after, w.ledger.pending.map Prod.snd = before ++ cqe :: after ∧
      cqe.userData.toNat = f.cqid ∧ (∀ cqe' ∈ before, cqe'.userData.toNat ≠ f.cqid) ∧
      ∀ cqe' ∈ after, cqe'.userData.toNat ≠ f.cqid := by
  have hposts := h.tables.posts
  obtain ⟨before, after, hsplit⟩ := List.append_of_mem (hposts.posted g f cqe hg hst)
  have hnodup : (w.ledger.pending.map Prod.fst).Nodup :=
    hposts.nodup.sublist ((List.drop_sublist ..).map _)
  rw [hsplit, List.map_append, List.map_cons, List.nodup_append] at hnodup
  obtain ⟨-, hafter, hbefore⟩ := hnodup
  have hevent : ∀ {g' f' cqe'}, w.ledger.futs g' = some f' → f'.stage = .posted cqe' →
      cqe'.userData.toNat = f'.cqid := by
    intro g' f' cqe' hg' hst'
    rw [(h.tables.futs g' f' hg').2.event cqe' (by rw [hst']; rfl)]
    exact h.toNat_userData hg' (Fut.outstanding_of_posted hst')
  have hother : ∀ p ∈ w.ledger.pending, p.1 ≠ g → p.2.userData.toNat ≠ f.cqid := by
    intro p hp hne
    obtain ⟨f', hg', hst'⟩ := hposts.pending p hp
    rw [hevent hg' hst']
    exact h.tables.table.cqid_ne hg (Fut.outstanding_of_posted hst).needsEntry hg'
      (Fut.outstanding_of_posted hst').needsEntry hne
  refine ⟨before.map Prod.snd, after.map Prod.snd, by rw [hsplit, List.map_append, List.map_cons],
    hevent hg hst, fun cqe' hmem => ?_, fun cqe' hmem => ?_⟩
  · obtain ⟨p, hp, rfl⟩ := List.mem_map.1 hmem
    refine hother p (hsplit ▸ List.mem_append_left _ hp) ?_
    exact hbefore p.1 (List.mem_map_of_mem hp) g (List.mem_cons_self ..)
  · obtain ⟨p, hp, rfl⟩ := List.mem_map.1 hmem
    refine hother p (hsplit ▸ List.mem_append_right _ (List.mem_cons_of_mem _ hp)) ?_
    rintro rfl
    exact (List.nodup_cons.1 hafter).1 (List.mem_map.2 ⟨p, hp, rfl⟩)

/-- Processing events leaves the buffer of a live future in the pool, if its request has failed. -/
theorem Reachable.buffer_processed (h : Reachable hs w) (hg : w.ledger.futs g = some f)
    (hlive : f.life = .live) (hst : f.stage = .posted cqe) (herr : cqe.isErr = true) {bufid len : ℕ}
    (hkind : f.kind = .provide bufid len) :
    (((w.ledger.pending.map Prod.snd).foldl Tables.processCqe w.ctx.tables).2.get bufid).isSome :=
  by
  have hc := Reachable.consistent h
  have hdoes := hc.processAll (P := fun a => ∃ g', a = .process false g') false fun g' => ⟨g', rfl⟩
  rw [foldl_takeCqe_woken] at hdoes
  obtain ⟨hc', hpool, f', hg', hkind', hlive', hst'⟩ := hdoes.keeps
    (I := fun u => Pool u.ctx.buffers u.ledger ∧ ∃ f', u.ledger.futs g = some f' ∧
      f'.kind = f.kind ∧ f'.life = .live ∧
      (f'.stage = .posted cqe ∨ ∃ time, f'.stage = .processed cqe time))
    (fun u a v hu ha hi hm => by
      obtain ⟨hpool, f', hg', hkind', hlive', hst'⟩ := hi
      refine ⟨Pool.move hu hpool hm, ?_⟩
      obtain ⟨g₂, rfl⟩ := ha
      cases hm with
      | @process g₂ f₂ cqe₂ ce rest intoRunqueue hp hg₂ hst₂ hud hce hok =>
        obtain ⟨completions, heq, -⟩ := takeCqe_eq false hst₂ hud hce hok
        rw [heq, show u.ledger.process (g₂, cqe₂) = _ from Ledger.process_eq hg₂]
        by_cases hgg : g₂ = g
        · subst hgg
          obtain rfl := Option.some.inj (hg'.symm.trans hg₂)
          have hcqe : cqe₂ = cqe := by
            rcases hst' with hst' | ⟨time, hst'⟩
            · exact (Stage.posted.inj (hst'.symm.trans hst₂)).symm
            · cases hst'.symm.trans hst₂
          exact ⟨_, Function.update_self .., hkind', hlive', .inr ⟨_, by rw [hcqe]⟩⟩
        · exact ⟨f', (Function.update_of_ne (Ne.symm hgg) ..).trans hg', hkind', hlive', hst'⟩)
    hc ⟨Reachable.pool h, f, hg, rfl, hlive, .inl hst⟩
  have hprov : f'.Providing := by
    rcases hst' with hst' | ⟨time, hst'⟩
    · simp only [Fut.Providing, hst', herr]
    · simp only [Fut.Providing, hst', herr, hlive', and_self]
  obtain ⟨buffer, -, hu⟩ := (hpool.futs g f' hg').requested bufid len (hkind'.trans hkind) hprov
  have hkey := hpool.keys bufid
  rw [hu] at hkey
  rw [show w.ctx.tables = (((), w.ctx) : Unit × IOContext).2.tables from rfl,
    ← @IOContext.tables_foldl _ IOContext.pushWoken]
  exact Option.isSome_iff_exists.2 ⟨buffer, hkey⟩

/-- Both orders go through for a live future whose event is in the ring. -/
theorem Reachable.cleanup_spec (h : Reachable hs w) (hg : w.ledger.futs g = some f)
    (hlive : f.life = .live) (hst : f.stage = .posted cqe)
    (hce : w.ctx.completions.get f.cqid = some ce) {ρ : Type} (queueFunc : IOContext.QueueFunc ρ)
    (captured : ρ) :
    ∃ dropped processed ctx₁ ctx₂ r₁ r₂,
      CompletionFuture.drop w.ctx f.cqid false = .ok (.done, dropped) ∧
      dropped.processCqes queueFunc captured = .ok (r₁, ctx₁) ∧
      w.ctx.processCqes queueFunc captured = .ok (r₂, processed) ∧
      CompletionFuture.drop processed f.cqid false = .ok (.done, ctx₂) ∧
      ctx₁.completions.live = ctx₂.completions.live ∧
      ctx₂.buffers =
        ((w.ledger.pending.map Prod.snd).foldl Tables.processCqe w.ctx.tables).2 ∧
      (ce.action = .none ∨ cqe.isErr = false → ctx₁.buffers = ctx₂.buffers) ∧
      ∀ bufid, ce.action = .deleteBufferOnError bufid → cqe.isErr = true →
        ctx₁.buffers.get bufid = none := by
  have hc := Reachable.consistent h
  obtain ⟨before, after, hsplit, hud, hbefore, hafter⟩ := hc.pending_split hg hst
  obtain ⟨k, hring⟩ := hc.tables.posts.ring
  obtain ⟨ce', hce', hok⟩ := hc.entry hg hlive
  obtain rfl := Option.some.inj (hce.symm.trans hce')
  have hnone : ce.cqe = none := by rw [hok.cqe, hst]; rfl
  have hdead : ce.task ≠ DEAD_TASK_SENTINEL := fun htask => by
    rw [hok.dead.1 htask] at hlive
    cases hlive
  rw [hsplit] at hring ⊢
  exact IOContext.cleanup_spec queueFunc captured hring hce hnone hdead hud hbefore hafter

/-- A buffer whose request has failed stays in the pool when its future is dropped late. -/
theorem Reachable.not_sameCleanup (h : Reachable hs w) (hg : w.ledger.futs g = some f)
    (hlive : f.life = .live) (hst : f.stage = .posted cqe)
    (hce : w.ctx.completions.get f.cqid = some ce) (haction : ce.action ≠ .none)
    (herr : cqe.isErr = true) {ρ : Type} (queueFunc : IOContext.QueueFunc ρ) (captured : ρ) :
    ¬ w.ctx.SameCleanup queueFunc captured f.cqid := by
  rintro ⟨dropped', processed', ctx₁', ctx₂', r₁', r₂', hdrop', hproc₁', hproc₂', hdrop₂', -, heq⟩
  obtain ⟨dropped, processed, ctx₁, ctx₂, r₁, r₂, hdrop, hproc₁, hproc₂, hdrop₂, -, hbuffers, -,
    hremoved⟩ := h.cleanup_spec hg hlive hst hce queueFunc captured
  obtain ⟨-, rfl⟩ := Prod.mk.inj (Except.ok.inj (hdrop.symm.trans hdrop'))
  obtain ⟨-, rfl⟩ := Prod.mk.inj (Except.ok.inj (hproc₁.symm.trans hproc₁'))
  obtain ⟨-, rfl⟩ := Prod.mk.inj (Except.ok.inj (hproc₂.symm.trans hproc₂'))
  obtain ⟨-, rfl⟩ := Prod.mk.inj (Except.ok.inj (hdrop₂.symm.trans hdrop₂'))
  obtain ⟨ce', hce', hok⟩ := (Reachable.consistent h).entry hg hlive
  obtain rfl := Option.some.inj (hce.symm.trans hce')
  rw [hok.action] at haction hremoved
  cases hkind : f.kind with
  | provide bufid len =>
    have hdelete : f.action = .deleteBufferOnError bufid := by simp [Fut.action, hkind, hst]
    have hin := Reachable.buffer_processed h hg hlive hst herr hkind
    rw [← hbuffers, ← heq, hremoved bufid hdelete herr] at hin
    cases hin
  | completion => exact haction (by simp [Fut.action, hkind])
  | read => exact haction (by simp [Fut.action, hkind])

/-- **Cleanup does not depend on the order, unless a request to provide a buffer has failed**: for
a live future whose event is in the completion ring, in any reachable state, dropping it and
processing the events, in either order, leave the same live entries and the same pool, iff the
entry has no cleanup action or the event is no error. -/
theorem Reachable.sameCleanup_iff (h : Reachable hs w) (hg : w.ledger.futs g = some f)
    (hlive : f.life = .live) (hst : f.stage = .posted cqe)
    (hce : w.ctx.completions.get f.cqid = some ce) {ρ : Type} (queueFunc : IOContext.QueueFunc ρ)
    (captured : ρ) :
    w.ctx.SameCleanup queueFunc captured f.cqid ↔ ce.action = .none ∨ cqe.isErr = false := by
  constructor
  · intro hsame
    by_contra hnot
    rw [not_or, Bool.not_eq_false] at hnot
    exact h.not_sameCleanup hg hlive hst hce hnot.1 hnot.2 queueFunc captured hsame
  · intro hquiet
    obtain ⟨dropped, processed, ctx₁, ctx₂, r₁, r₂, hdrop, hproc₁, hproc₂, hdrop₂, hkeys, -, hsame,
      -⟩ := h.cleanup_spec hg hlive hst hce queueFunc captured
    exact ⟨dropped, processed, ctx₁, ctx₂, r₁, r₂, hdrop, hproc₁, hproc₂, hdrop₂, hkeys,
      hsame hquiet⟩

/-! ## A request that succeeds, and one that fails -/

theorem onePosted_sameCleanup : ∃ w, emptyWorld.runs ⟨id, id⟩ onePosted = some w ∧
    w.ctx.SameCleanup IOContext.pushWoken () 0 := by
  have hr : emptyWorld.runs ⟨id, id⟩ onePosted = some _ := rfl
  refine ⟨_, hr, ?_⟩
  exact (Reachable.sameCleanup_iff (g := 0) (.runs (.init emptyWorld_init) hr) rfl rfl rfl rfl
    IOContext.pushWoken ()).2 (.inl rfl)

/-- A request to provide a buffer has failed, and its event is posted. -/
def failedProvide : List Event :=
  [.openSession, .request (.provideBuffer ⟨4096, List.replicate 16 none, 0⟩), .submit,
    .complete 0 (-22) 0, .post 0]

/-- **A buffer that could not be provided stays in the pool if its future is dropped late.** -/
theorem failedProvide_not_sameCleanup :
    ¬ ∀ (hs : Hashes) (w : World) (g : ℕ) (f : Fut) (cqe : Cqe), Reachable hs w →
      w.ledger.futs g = some f → f.life = .live → f.stage = .posted cqe →
        w.ctx.SameCleanup IOContext.pushWoken () f.cqid := by
  intro h
  have hr : emptyWorld.runs ⟨id, id⟩ failedProvide = some _ := rfl
  have hreach := Reachable.runs (.init emptyWorld_init) hr
  refine Reachable.not_sameCleanup (g := 0) hreach rfl rfl rfl rfl nofun (by decide)
    IOContext.pushWoken () (h ⟨id, id⟩ _ 0 _ _ hreach rfl rfl rfl)

end World

end Hamerkop
