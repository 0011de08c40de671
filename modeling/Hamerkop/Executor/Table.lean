import Hamerkop.Executor.Ledger

/-!
# The completion table against the ledger

`Table entries futs owner` says that the completion table has what the ledger
says it needs: as long as a future is live, or its entry is going to be or has
been published and its event not been processed, the slot `cqid` holds the entry
that was made for it (`EntryOk`), and has not been allocated again since.

Whatever the executor does to the table is one of three things: it makes an
entry (`Table.create`), changes or removes the entry of one future
(`Table.update`), or leaves the table alone while a future moves on
(`Table.move`).
-/

namespace Hamerkop

namespace Stage

/-- The event of a request the kernel has carried out. -/
def event? : Stage → Option Cqe
  | .completed cqe | .posted cqe | .processed cqe _ => some cqe
  | _ => none

/-- The event that `process_cqes` has put into the entry. -/
def processed? : Stage → Option Cqe
  | .processed cqe _ => some cqe
  | _ => none

end Stage

namespace Fut

/-- The future or the kernel will come back to the slot `cqid`. -/
def NeedsEntry (f : Fut) : Prop := f.life = .live ∨ f.stage = .prepared ∨ f.Outstanding

/-- The cleanup action of its entry: it is set when the submission entry is filled. -/
def action (f : Fut) : CleanupAction :=
  match f.kind with
  | .provide bufid _ => if f.stage = .fresh then .none else .deleteBufferOnError bufid
  | _ => .none

theorem action_congr {f f' : Fut} (hk : f'.kind = f.kind)
    (hfresh : f'.stage = .fresh ↔ f.stage = .fresh) : f'.action = f.action := by
  simp only [action, hk, hfresh]

theorem Outstanding.needsEntry {f : Fut} (h : f.Outstanding) : f.NeedsEntry := .inr (.inr h)

theorem needsEntry_of_live {f : Fut} (h : f.life = .live) : f.NeedsEntry := .inl h

theorem outstanding_of_posted {f : Fut} {cqe : Cqe} (h : f.stage = .posted cqe) :
    f.Outstanding := .inr ⟨cqe, .inr h⟩

theorem not_outstanding_of_prepared {f : Fut} (h : f.stage = .prepared) : ¬ f.Outstanding := by
  rintro (hs | ⟨_, hs | hs⟩) <;>
  · rw [h] at hs
    cases hs

/-- Once its event is processed, only a future that is live needs its entry. -/
theorem life_of_needsEntry {f : Fut} {cqe : Cqe} {time : ℕ} (hs : f.stage = .processed cqe time)
    (h : f.NeedsEntry) : f.life = .live := by
  rcases h with h | h | h
  · exact h
  · rw [hs] at h
    cases h
  · rcases h with h | ⟨_, h | h⟩ <;>
    · rw [hs] at h
      cases h

theorem not_needsEntry {f : Fut} {cqe : Cqe} {time : ℕ} (hs : f.stage = .processed cqe time)
    (hl : f.life ≠ .live) : ¬ f.NeedsEntry := fun h => hl (life_of_needsEntry hs h)

end Fut

/-- The entry that the table keeps for a future. -/
structure EntryOk (f : Fut) (ce : CompletionEvent) : Prop where
  cqe : ce.cqe = f.stage.processed?
  action : ce.action = f.action
  dead : ce.task = DEAD_TASK_SENTINEL ↔ f.life = .dead
  polled : ∀ t task, f.polledBy = some (t, task) → f.life = .live → ce.task = t ∧ t < 2 ^ 61

theorem EntryOk.congr {f f' : Fut} {ce : CompletionEvent} (h : EntryOk f ce)
    (hp : f'.stage.processed? = f.stage.processed?) (hk : f'.kind = f.kind)
    (hfresh : f'.stage = .fresh ↔ f.stage = .fresh) (hl : f'.life = f.life)
    (hby : f'.polledBy = f.polledBy) : EntryOk f' ce := by
  refine ⟨h.cqe.trans hp.symm, h.action.trans (Fut.action_congr hk hfresh).symm, hl ▸ h.dead, ?_⟩
  rw [hby, hl]
  exact h.polled

/-- An entry with an event is that of a future whose event is processed. -/
theorem EntryOk.processed {f : Fut} {ce : CompletionEvent} (h : EntryOk f ce) {cqe : Cqe}
    (hcqe : ce.cqe = some cqe) : ∃ time, f.stage = .processed cqe time := by
  rw [h.cqe] at hcqe
  cases hs : f.stage with
  | processed cqe' time =>
    rw [hs] at hcqe
    exact ⟨time, congrArg (Stage.processed · time) (Option.some.inj hcqe)⟩
  | _ =>
    rw [hs] at hcqe
    cases hcqe

/-- The table has the entries that are needed. -/
def Table (entries : ℕ → Option CompletionEvent) (futs : ℕ → Option Fut) (owner : ℕ → Option ℕ) :
    Prop :=
  ∀ g f, futs g = some f → f.NeedsEntry →
    owner f.cqid = some g ∧ ∃ ce, entries f.cqid = some ce ∧ EntryOk f ce

namespace Table

variable {entries : ℕ → Option CompletionEvent} {futs : ℕ → Option Fut} {owner : ℕ → Option ℕ}
  {g : ℕ} {f f' : Fut}

theorem empty : Table (fun _ => none) (fun _ => none) (fun _ => none) := by
  intro g f hg
  cases hg

/-- Two futures that both need their slot do not share it. -/
theorem cqid_ne (h : Table entries futs owner) (hg : futs g = some f) (hn : f.NeedsEntry)
    {g' : ℕ} {f₂ : Fut} (hg' : futs g' = some f₂) (hn' : f₂.NeedsEntry) (hne : g' ≠ g) :
    f₂.cqid ≠ f.cqid := by
  intro heq
  have h1 := (h g f hg hn).1
  have h2 := (h g' f₂ hg' hn').1
  rw [heq, h1, Option.some.injEq] at h2
  exact hne h2.symm

/-- The entry of one future changes, or is removed when it is needed no more. -/
theorem update (h : Table entries futs owner) (hg : futs g = some f) (hn : f.NeedsEntry)
    (hc : f'.cqid = f.cqid) (x : Option CompletionEvent)
    (hx : f'.NeedsEntry → ∃ ce, x = some ce ∧ EntryOk f' ce) :
    Table (Function.update entries f.cqid x) (Function.update futs g (some f')) owner := by
  intro g₂ f₂ hg₂ hn₂
  by_cases hgg : g₂ = g
  · subst hgg
    rw [Function.update_self, Option.some.injEq] at hg₂
    subst hg₂
    obtain ⟨ce, hce, hok⟩ := hx hn₂
    rw [hc]
    exact ⟨(h g₂ f hg hn).1, ce, by rw [Function.update_self, hce], hok⟩
  · rw [Function.update_of_ne hgg] at hg₂
    rw [Function.update_of_ne (h.cqid_ne hg hn hg₂ hn₂ hgg)]
    exact h g₂ f₂ hg₂ hn₂

/-- A future moves on without its entry changing. -/
theorem move (h : Table entries futs owner) (hg : futs g = some f) (hc : f'.cqid = f.cqid)
    (hx : f'.NeedsEntry → f.NeedsEntry ∧ ∀ ce, EntryOk f ce → EntryOk f' ce) :
    Table entries (Function.update futs g (some f')) owner := by
  intro g₂ f₂ hg₂ hn₂
  by_cases hgg : g₂ = g
  · subst hgg
    rw [Function.update_self, Option.some.injEq] at hg₂
    subst hg₂
    obtain ⟨hn, hok⟩ := hx hn₂
    obtain ⟨ho, ce, hce, he⟩ := h g₂ f hg hn
    rw [hc]
    exact ⟨ho, ce, hce, hok ce he⟩
  · rw [Function.update_of_ne hgg] at hg₂
    exact h g₂ f₂ hg₂ hn₂

/-- An entry is made in a free slot for a new future. -/
theorem create (h : Table entries futs owner) (hfree : entries f'.cqid = none)
    (hnew : futs g = none) {ce : CompletionEvent} (hok : EntryOk f' ce) :
    Table (Function.update entries f'.cqid (some ce)) (Function.update futs g (some f'))
      (Function.update owner f'.cqid (some g)) := by
  intro g₂ f₂ hg₂ hn₂
  by_cases hgg : g₂ = g
  · subst hgg
    rw [Function.update_self, Option.some.injEq] at hg₂
    subst hg₂
    exact ⟨Function.update_self .., ce, Function.update_self .., hok⟩
  · rw [Function.update_of_ne hgg] at hg₂
    obtain ⟨ho, ce₂, hce₂, hok₂⟩ := h g₂ f₂ hg₂ hn₂
    have hne : f₂.cqid ≠ f'.cqid := fun heq => by
      rw [heq, hfree] at hce₂
      cases hce₂
    rw [Function.update_of_ne hne, Function.update_of_ne hne]
    exact ⟨ho, ce₂, hce₂, hok₂⟩

end Table

/-! ## An event is processed -/

/-- What `processCqe` does with the event of a future whose entry is there: the entry of a dead
future is removed, and its buffer with it if the request failed; any other entry keeps the event,
and its task is queued unless there is none. -/
theorem processCqe_eq {ρ : Type} (queueFunc : IOContext.QueueFunc ρ) (captured : ρ)
    {ctx : IOContext} {cqe : Cqe} {ce : CompletionEvent}
    (hce : ctx.completions.get cqe.userData.toNat = some ce) :
    IOContext.processCqe queueFunc (captured, ctx) cqe =
      let cqid := cqe.userData.toNat
      let kept := ctx.completions.modify cqid fun _ => { ce with cqe := some cqe }
      if ce.task = NO_TASK_SENTINEL then (captured, { ctx with completions := kept })
      else if ce.task = DEAD_TASK_SENTINEL then
        let buffers := match ce.action with
          | .deleteBufferOnError bufid =>
            if cqe.isErr then (ctx.buffers.remove bufid).2 else ctx.buffers
          | .none => ctx.buffers
        (captured, { ctx with completions := (kept.remove cqid).2, buffers })
      else
        let queued := queueFunc captured ctx.woken { ce with cqe := some cqe }
        (queued.1, { ctx with completions := kept, woken := queued.2 }) := by
  simp only [IOContext.processCqe, hce]
  split
  · rfl
  · split
    · cases ce.action with
      | none => rfl
      | deleteBufferOnError bufid =>
        simp only
        split <;> rfl
    · rfl

end Hamerkop
