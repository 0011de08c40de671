import Hamerkop.Executor.Consistent

/-!
# Events are processed

`process_cqes` is a loop over the events available that hands all of them back at
the end.  For the proofs each is handed back as soon as it is processed
(`takeCqe`), which comes to the same (`processCqes_eq`): then the invariants hold
between two events as well.

`takeCqe_spec` says what processing the event of a future does to its entry, to
its buffer and to the lists of woken tasks, and `Consistent.take` that executor
and ledger stay consistent.
-/

namespace Hamerkop

namespace IOContext

variable {ρ : Type} {queueFunc : QueueFunc ρ}

/-- An event is processed and handed back. -/
def takeCqe (queueFunc : QueueFunc ρ) (s : ρ × IOContext) (cqe : Cqe) : ρ × IOContext :=
  let (captured, ctx) := processCqe queueFunc s cqe
  (captured, { ctx with cq := ctx.cq.advance 1 })

theorem processCqe_cq (s : ρ × IOContext) (cq : CompletionQueue) (cqe : Cqe) :
    processCqe queueFunc (s.1, { s.2 with cq }) cqe =
      ((processCqe queueFunc s cqe).1, { (processCqe queueFunc s cqe).2 with cq }) := by
  obtain ⟨captured, ctx⟩ := s
  simp only [processCqe]
  split
  · rfl
  · split
    · rfl
    · split
      · split
        · rfl
        · split <;> rfl
      · rfl

theorem foldl_takeCqe (queueFunc : QueueFunc ρ) (cqes : List Cqe) (s : ρ × IOContext)
    (cq : CompletionQueue) :
    cqes.foldl (takeCqe queueFunc) (s.1, { s.2 with cq }) =
      ((cqes.foldl (processCqe queueFunc) s).1,
        { (cqes.foldl (processCqe queueFunc) s).2 with cq := cq.advance cqes.length }) := by
  induction cqes generalizing s cq with
  | nil => simp only [List.foldl_nil, List.length_nil, CompletionQueue.advance_zero]
  | cons cqe cqes ih =>
    rw [List.foldl_cons, List.foldl_cons, List.length_cons, Nat.add_comm,
      ← CompletionQueue.advance_advance, ← ih, takeCqe, processCqe_cq]

theorem cq_processCqe (s : ρ × IOContext) (cqe : Cqe) :
    (processCqe queueFunc s cqe).2.cq = s.2.cq := by
  rw [show s = (s.1, { s.2 with cq := s.2.cq }) from rfl, processCqe_cq]

theorem cq_foldl_processCqe (cqes : List Cqe) (s : ρ × IOContext) :
    (cqes.foldl (processCqe queueFunc) s).2.cq = s.2.cq := by
  induction cqes generalizing s with
  | nil => rfl
  | cons cqe cqes ih => rw [List.foldl_cons, ih, cq_processCqe]

/-- **`process_cqes` never panics**, and is the same as handing back every event at once. -/
theorem processCqes_eq (queueFunc : QueueFunc ρ) {ctx : IOContext} {k : ℕ} {cqes : List Cqe}
    (h : ctx.cq.Holds k cqes) (captured : ρ) :
    processCqes queueFunc captured ctx = .ok (cqes.foldl (takeCqe queueFunc) (captured, ctx)) := by
  obtain ⟨ring, hring, hlen, hiter⟩ := h.available_intoIter
  have hfold := foldl_takeCqe queueFunc cqes (captured, ctx) ctx.cq
  simp only at hfold
  rw [processCqes, hring]
  simp only [hiter, hlen, hfold, cq_foldl_processCqe]

/-- What becomes of the pool when an event of a future is processed. -/
def buffersAfter (ctx : IOContext) (f : Fut) (cqe : Cqe) : Slots (FixedVec UInt8) :=
  match f.life, f.kind with
  | .dead, .provide bufid _ => if cqe.isErr then (ctx.buffers.remove bufid).2 else ctx.buffers
  | _, _ => ctx.buffers

theorem buffersAfter_of_not_dead {ctx : IOContext} {f : Fut} {cqe : Cqe} (h : f.life ≠ .dead) :
    ctx.buffersAfter f cqe = ctx.buffers := by
  unfold buffersAfter
  split
  · contradiction
  · rfl

theorem buffersAfter_of_dead {ctx : IOContext} {f : Fut} {cqe : Cqe} (h : f.life = .dead)
    (hst : f.stage ≠ .fresh) :
    ctx.buffersAfter f cqe = match f.action with
      | .deleteBufferOnError bufid =>
        if cqe.isErr then (ctx.buffers.remove bufid).2 else ctx.buffers
      | .none => ctx.buffers := by
  cases hk : f.kind <;> simp only [buffersAfter, Fut.action, h, hk, if_neg hst]

/-- What processing an event does for the future it belongs to: its entry is removed if the future
is dead, and has the event otherwise; and its task is queued unless it is a sentinel. -/
theorem takeCqe_spec (queueFunc : QueueFunc ρ) (captured : ρ) {ctx : IOContext} {f : Fut}
    {cqe : Cqe} {ce : CompletionEvent}
    (hce : ctx.completions.get f.cqid = some ce) (hud : cqe.userData.toNat = f.cqid)
    (hok : EntryOk f ce) (hst : f.stage ≠ .fresh) :
    ∃ completions,
      takeCqe queueFunc (captured, ctx) cqe =
        (let queued := if ce.task = NO_TASK_SENTINEL ∨ f.life = .dead then (captured, ctx.woken)
          else queueFunc captured ctx.woken { ce with cqe := some cqe }
        (queued.1,
          { ctx with
            cq := ctx.cq.advance 1, completions, buffers := ctx.buffersAfter f cqe
            woken := queued.2 })) ∧
      completions.get = Function.update ctx.completions.get f.cqid
        (if f.life = .dead then none else some { ce with cqe := some cqe }) := by
  have hkept : (ctx.completions.modify f.cqid fun _ => { ce with cqe := some cqe }).get =
      Function.update ctx.completions.get f.cqid (some { ce with cqe := some cqe }) := by
    rw [Slots.get_modify, hce, Option.map_some]
  rw [takeCqe, processCqe_eq queueFunc captured (hud ▸ hce), hud]
  by_cases hdead : f.life = .dead
  · have htask := hok.dead.2 hdead
    have hno : ce.task ≠ NO_TASK_SENTINEL := by
      rw [htask]
      decide
    refine ⟨((ctx.completions.modify f.cqid fun _ => { ce with cqe := some cqe }).remove f.cqid).2,
      ?_, ?_⟩
    · rw [buffersAfter_of_dead hdead hst, ← hok.action]
      cases ce.action <;> simp only [if_neg hno, if_pos htask, hdead, or_true, if_true]
    · rw [if_pos hdead, Slots.get_remove, hkept, Function.update_idem]
  · have hlive : ce.task ≠ DEAD_TASK_SENTINEL := fun h => hdead (hok.dead.1 h)
    refine ⟨_, ?_, hkept.trans (by rw [if_neg hdead])⟩
    rw [buffersAfter_of_not_dead hdead]
    simp only [if_neg hlive, hdead, or_false]
    split <;> rfl

end IOContext

/-! ## The ledger -/

namespace Ledger

/-- What becomes of the buffers when an event of a future is processed. -/
def bufsAfter (l : Ledger) (f : Fut) (cqe : Cqe) : ℕ → Option BufUse :=
  match f.life, f.kind with
  | .dead, .provide bufid _ => if cqe.isErr then (l.dropBuf bufid).bufs else l.bufs
  | _, _ => l.bufs

theorem process_eq {l : Ledger} {p : ℕ × Cqe} {f : Fut} (hg : l.futs p.1 = some f) :
    l.process p = { l with
      futs := Function.update l.futs p.1 (some { f with stage := .processed p.2 l.clock })
      seen := l.seen + 1, bufs := l.bufsAfter f p.2 } := by
  have hmod := modifyFut_eq (l := { l with seen := l.seen + 1 }) hg
    fun f => { f with stage := .processed p.2 l.clock }
  simp only [process, hg, hmod, bufsAfter]
  cases f.life with
  | live | lost => rfl
  | dead =>
    cases f.kind with
    | provide bufid len =>
      by_cases herr : p.2.isErr = true
      · simp only [herr, if_true, dropBuf]
      · simp only [herr]
        rfl
    | _ => rfl

theorem take_succ_seen {l : Ledger} {p : ℕ × Cqe} {rest : List (ℕ × Cqe)}
    (hp : l.pending = p :: rest) :
    l.posts.take (l.seen + 1) = l.posts.take l.seen ++ [p] := by
  have hget : l.posts[l.seen]? = some p := by
    rw [← List.head?_drop]
    exact congrArg List.head? hp
  rw [List.take_add_one, hget, Option.toList_some]

end Ledger

theorem PostsOk.process {q : CompletionQueue} {l : Ledger} (h : PostsOk q l) {p : ℕ × Cqe}
    {rest : List (ℕ × Cqe)} (hp : l.pending = p :: rest) {f : Fut} (hg : l.futs p.1 = some f) :
    PostsOk (q.advance 1) (l.process p) := by
  rw [Ledger.process_eq hg]
  obtain ⟨k, hk⟩ := h.ring
  have hrest : l.posts.drop (l.seen + 1) = rest := by
    rw [← List.tail_drop]
    exact congrArg List.tail hp
  have hnd : p.1 ∉ rest.map Prod.fst := by
    have hsub : ((p :: rest).map Prod.fst).Nodup := by
      rw [← hp]
      exact h.nodup.sublist ((List.drop_sublist ..).map _)
    exact (List.nodup_cons.1 hsub).1
  have hmem : ∀ p' ∈ rest, p' ∈ l.pending := fun p' hp' => hp ▸ List.mem_cons_of_mem _ hp'
  refine ⟨⟨k, ?_⟩, h.nodup, ?_, ?_, ?_, ?_, ?_⟩
  · rw [hp] at hk
    rw [Ledger.pending, hrest]
    exact hk.advance_one
  · have hlt : l.seen < l.posts.length := by
      by_contra hge
      have hnil : l.pending = [] := List.drop_eq_nil_of_le (not_lt.1 hge)
      rw [hp] at hnil
      cases hnil
    exact hlt
  · rw [Ledger.pending, hrest]
    intro p' hp'
    obtain ⟨f₂, hf₂, hs⟩ := h.pending p' (hmem p' hp')
    have hne : p'.1 ≠ p.1 := fun heq => hnd (heq ▸ List.mem_map_of_mem hp')
    exact ⟨f₂, (Function.update_of_ne hne ..).trans hf₂, hs⟩
  · rw [Ledger.take_succ_seen hp]
    intro p' hp'
    rcases List.mem_append.1 hp' with hp' | hp'
    · obtain ⟨f₂, hf₂, hs⟩ := h.done p' hp'
      refine ⟨f₂, (Function.update_of_ne (fun heq => ?_) ..).trans hf₂, hs⟩
      obtain ⟨f₁, hf₁, hs₁⟩ := h.pending p (hp ▸ List.mem_cons_self ..)
      rw [heq, hf₁, Option.some.injEq] at hf₂
      simp [← hf₂, hs₁] at hs
    · obtain rfl := List.mem_singleton.1 hp'
      exact ⟨_, Function.update_self .., .inr ⟨l.clock, rfl⟩⟩
  · rw [Ledger.pending, hrest]
    intro g f₂ cqe hg' hs
    by_cases hgg : g = p.1
    · subst hgg
      simp only [Function.update_self, Option.some.injEq] at hg'
      subst hg'
      cases hs
    · simp only [Function.update_of_ne hgg] at hg'
      have hin := h.posted g f₂ cqe hg' hs
      rw [hp] at hin
      rcases List.mem_cons.1 hin with rfl | hin
      · exact absurd rfl hgg
      · exact hin
  · rw [Ledger.take_succ_seen hp]
    intro g f₂ cqe time hg' hs
    by_cases hgg : g = p.1
    · subst hgg
      simp only [Function.update_self, Option.some.injEq] at hg'
      subst hg'
      obtain ⟨rfl, rfl⟩ := Stage.processed.inj hs
      exact ⟨List.mem_append.2 (.inr (List.mem_singleton_self _)), le_rfl⟩
    · simp only [Function.update_of_ne hgg] at hg'
      obtain ⟨hin, ht⟩ := h.processed g f₂ cqe time hg' hs
      exact ⟨List.mem_append.2 (.inl hin), ht⟩

/-! ## Both together -/

namespace Consistent

variable {ctx : IOContext} {l : Ledger} {session : Option Session} {call : Call} {g : ℕ} {cqe : Cqe}
  {rest : List (ℕ × Cqe)}

/-- The next event belongs to a future that needs its entry. -/
theorem next_event (h : Consistent ctx l session call) (hp : l.pending = (g, cqe) :: rest) :
    ∃ f ce, l.futs g = some f ∧ f.stage = .posted cqe ∧ cqe.userData.toNat = f.cqid ∧
      ctx.completions.get f.cqid = some ce ∧ EntryOk f ce := by
  obtain ⟨f, hg, hst⟩ := h.posts.pending (g, cqe) (hp ▸ List.mem_cons_self ..)
  obtain ⟨-, ce, hce, hok⟩ := h.table g f hg (Fut.outstanding_of_posted hst).needsEntry
  have hf := (h.futs g f hg).2
  have hsent : f.Sent := .inr (by simp [hst, Stage.event?])
  refine ⟨f, ce, hg, hst, ?_, hce, hok⟩
  rw [hf.event cqe (by simp [hst, Stage.event?]), (hf.sent hsent).toNat_userData hf.cqid]

/-- The event of a future is processed. -/
theorem take {ρ : Type} (queueFunc : IOContext.QueueFunc ρ) (captured : ρ)
    (h : Consistent ctx l session call) (hp : l.pending = (g, cqe) :: rest) :
    Consistent (IOContext.takeCqe queueFunc (captured, ctx) cqe).2 (l.process (g, cqe)) session
      call := by
  obtain ⟨f, ce, hg, hst, hud, hce, hok⟩ := h.next_event hp
  have hf := (h.futs g f hg).2
  have hfresh : f.stage ≠ .fresh := by simp [hst]
  obtain ⟨completions, heq, hget⟩ :=
    IOContext.takeCqe_spec queueFunc captured hce hud hok hfresh
  have hposts := h.posts.process hp hg
  rw [heq]
  rw [Ledger.process_eq hg] at hposts ⊢
  have hc : ({ f with stage := .processed cqe l.clock } : Fut).cqid = f.cqid := rfl
  have hst' : ({ f with stage := .processed cqe l.clock } : Fut).stage = .processed cqe l.clock :=
    rfl
  refine ⟨?_, ?_, hposts, ?_, ?_⟩
  · show Table completions.get _ _
    rw [hget]
    refine h.table.update hg (Fut.outstanding_of_posted hst).needsEntry hc _ fun hn => ?_
    have hlive := Fut.life_of_needsEntry hst' hn
    rw [if_neg (by simp [show f.life = .live from hlive])]
    refine ⟨_, rfl, rfl, ?_, hok.dead, hok.polled⟩
    exact hok.action.trans (Fut.action_congr rfl (by simp [hst]))
  · refine FutOk.all h.futs hg ⟨hf.cqid, fun _ => (hf.sent (.inr ?_)).congr rfl rfl rfl,
      fun cqe' hcqe => hf.event cqe' ?_⟩
    · simp [hst, Stage.event?]
    · rw [hst]
      exact hcqe
  · refine h.linked.move hg fun hpr => ?_
    rw [hst] at hpr
    cases hpr
  · exact h.call.move hg rfl rfl rfl fun hf => absurd hf hfresh

end Consistent

end Hamerkop
