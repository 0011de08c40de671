import Hamerkop.Executor.Table
import Hamerkop.Executor.Machine

/-!
# Executor and ledger are consistent

`Consistent` relates the state of the executor to the ledger: the completion
table (`Table`), the events in the completion ring (`PostsOk`), the entries that
the open session has filled (`Linked`) and the call that is waiting (`CallOk`).

It is stated about the parts of a world that it speaks of.  Every operation
changes them in one of a few ways, and there is one lemma for each.
-/

namespace Hamerkop

open LinkedSubmitter

/-! ## Definitions -/

/-- A submission entry says what the future it was filled for needs it to say. -/
structure SqeOk (f : Fut) (sqe : Sqe) : Prop where
  userData : sqe.userData = UInt64.ofNat f.cqid
  buffer : ∀ bufid len, f.kind = .provide bufid len →
    sqe.bid = UInt16.ofNat bufid ∧ ∃ buffer, f.buffer = some buffer ∧ sqe.addrSplice = buffer.ptr

theorem SqeOk.toNat_userData {f : Fut} {sqe : Sqe} (h : SqeOk f sqe) (hlt : f.cqid < 2 ^ 61) :
    sqe.userData.toNat = f.cqid := by
  rw [h.userData, UInt64.toNat_ofNat_of_lt' (by simp only [UInt64.size]; omega)]

/-- What a request will write says what the future needs it to say. -/
def FuncOk (f : Fut) (func : Sqe → Sqe) : Prop :=
  ∀ bufid len, f.kind = .provide bufid len → ∃ buffer, f.buffer = some buffer ∧
    ∀ sqe, (func sqe).bid = UInt16.ofNat bufid ∧ (func sqe).addrSplice = buffer.ptr

/-- The entry of a future is published, or was. -/
def Fut.Sent (f : Fut) : Prop := f.stage = .published ∨ f.stage.event? ≠ none

/-- The index of a future fits its field, and so do its entry and its event. -/
structure FutOk (f : Fut) : Prop where
  cqid : f.cqid < 2 ^ 61
  sent : f.Sent → SqeOk f f.sqe
  event : ∀ cqe, f.stage.event? = some cqe → cqe.userData = f.sqe.userData

/-- The events posted are those of the ledger, in its order. -/
structure PostsOk (q : CompletionQueue) (l : Ledger) : Prop where
  ring : ∃ k, q.Holds k (l.pending.map Prod.snd)
  nodup : (l.posts.map Prod.fst).Nodup
  seen : l.seen ≤ l.posts.length
  pending : ∀ p ∈ l.pending, ∃ f, l.futs p.1 = some f ∧ f.stage = .posted p.2
  done : ∀ p ∈ l.posts.take l.seen, ∃ f, l.futs p.1 = some f ∧
    (f.stage = .resolved ∨ ∃ time, f.stage = .processed p.2 time)
  posted : ∀ g f cqe, l.futs g = some f → f.stage = .posted cqe → (g, cqe) ∈ l.pending
  processed : ∀ g f cqe time, l.futs g = some f → f.stage = .processed cqe time →
    (g, cqe) ∈ l.posts.take l.seen ∧ time ≤ l.clock

/-- These entries are filled for these futures. -/
def LinkedEntries (futs : ℕ → Option Fut) (linked : List ℕ) (sqes : List Sqe) : Prop :=
  List.Forall₂ (fun g sqe => ∃ f, futs g = some f ∧ f.stage = .prepared ∧ SqeOk f sqe) linked sqes

/-- The entries behind the tail are those of the futures the open session has linked. -/
structure Linked (q : SubmissionQueue) (session : Option Session) (futs : ℕ → Option Fut) :
    Prop where
  ring : ∃ k, q.Sized k ∧ ∀ s, session = some s → s.count ≤ 2 ^ k ∧ s.linked.Nodup ∧
    LinkedEntries futs s.linked (q.entriesFrom k q.sq.ktail s.count)

/-- The future a call waits for is there; a `drop` only waits while no session is open. -/
def CallOk (futs : ℕ → Option Fut) (session : Option Session) : Call → Prop
  | .none => True
  | .slotWait g r => ∃ f, futs g = some f ∧ f.life = .live ∧ f.stage = .fresh ∧ f.kind = r.kind ∧
    FuncOk f r.func
  | .dropSlot g => session = none ∧ ∃ f, futs g = some f ∧ f.life = .live
  | .dropWait g => session = none ∧ ∃ f, futs g = some f ∧ f.life = .live

/-- The tables, the events, the session and the waiting call agree with the ledger. -/
structure Consistent (ctx : IOContext) (l : Ledger) (session : Option Session) (call : Call) :
    Prop where
  table : Table ctx.completions.get l.futs l.owner
  futs : ∀ g f, l.futs g = some f → g < l.nextFut ∧ FutOk f
  posts : PostsOk ctx.cq l
  linked : Linked ctx.sq session l.futs
  call : CallOk l.futs session call

theorem PostsOk.new {q : CompletionQueue} {k : ℕ} (h : q.Holds k []) : PostsOk q .new := by
  have hpending : Ledger.new.pending = [] := rfl
  have hposts : Ledger.new.posts = [] := rfl
  refine ⟨⟨k, ?_⟩, List.nodup_nil, le_rfl, ?_, ?_, fun g f cqe hg => ?_, fun g f cqe time hg => ?_⟩
  · rw [hpending]
    exact h
  · rw [hpending]
    exact fun p hp => absurd hp List.not_mem_nil
  · rw [hposts, List.take_nil]
    exact fun p hp => absurd hp List.not_mem_nil
  · cases hg
  · cases hg

namespace Stage

/-- The kernel has not posted the event of this stage. -/
def Unposted : Stage → Prop
  | .posted _ | .processed _ _ | .resolved => False
  | _ => True

theorem Unposted.processed?_eq {s : Stage} (h : s.Unposted) : s.processed? = none := by
  cases s with
  | processed cqe time => exact h.elim
  | _ => rfl

end Stage

/-! ## A future moves on -/

section Move

variable {l : Ledger} {g : ℕ} {f f' : Fut}

theorem FutOk.all (h : ∀ g f, l.futs g = some f → g < l.nextFut ∧ FutOk f) (hg : l.futs g = some f)
    (hok : FutOk f') : ∀ g' f₂, Function.update l.futs g (some f') g' = some f₂ →
      g' < l.nextFut ∧ FutOk f₂ := by
  intro g' f₂ hg'
  by_cases hgg : g' = g
  · subst hgg
    rw [Function.update_self, Option.some.injEq] at hg'
    exact ⟨(h g' f hg).1, hg' ▸ hok⟩
  · rw [Function.update_of_ne hgg] at hg'
    exact h g' f₂ hg'

/-- What a future may become as far as the events posted are concerned. -/
def Stage.PostsMove (s s' : Stage) : Prop :=
  s' = s ∨ (s.Unposted ∧ s'.Unposted) ∨ ∃ cqe time, s = .processed cqe time ∧ s' = .resolved

theorem PostsOk.move {q : CompletionQueue} (h : PostsOk q l) (hg : l.futs g = some f)
    (hmove : f.stage.PostsMove f'.stage) :
    PostsOk q { l with futs := Function.update l.futs g (some f') } := by
  refine ⟨h.ring, h.nodup, h.seen, ?_, ?_, ?_, ?_⟩
  · intro p hp
    obtain ⟨f₂, hf₂, hs⟩ := h.pending p hp
    by_cases hgg : p.1 = g
    · refine ⟨f', by simp [hgg], ?_⟩
      rw [hgg, hg, Option.some.injEq] at hf₂
      subst hf₂
      rcases hmove with he | ⟨hu, -⟩ | ⟨cqe, time, he, -⟩
      · rw [he, hs]
      · rw [hs] at hu
        exact hu.elim
      · rw [hs] at he
        cases he
    · exact ⟨f₂, by simp [hgg, hf₂], hs⟩
  · intro p hp
    obtain ⟨f₂, hf₂, hs⟩ := h.done p hp
    by_cases hgg : p.1 = g
    · refine ⟨f', by simp [hgg], ?_⟩
      rw [hgg, hg, Option.some.injEq] at hf₂
      subst hf₂
      rcases hmove with he | ⟨hu, -⟩ | ⟨cqe, time, -, he⟩
      · rw [he]
        exact hs
      · rcases hs with hs | ⟨time, hs⟩ <;>
        · rw [hs] at hu
          exact hu.elim
      · exact .inl he
    · exact ⟨f₂, by simp [hgg, hf₂], hs⟩
  · intro g' f₂ cqe hg' hs
    by_cases hgg : g' = g
    · subst hgg
      simp only [Function.update_self, Option.some.injEq] at hg'
      subst hg'
      rcases hmove with he | ⟨-, hu⟩ | ⟨_, _, -, he⟩
      · exact h.posted g' f cqe hg (he ▸ hs)
      · rw [hs] at hu
        exact hu.elim
      · rw [hs] at he
        cases he
    · simp only [Function.update_of_ne hgg] at hg'
      exact h.posted g' f₂ cqe hg' hs
  · intro g' f₂ cqe time hg' hs
    by_cases hgg : g' = g
    · subst hgg
      simp only [Function.update_self, Option.some.injEq] at hg'
      subst hg'
      rcases hmove with he | ⟨-, hu⟩ | ⟨_, _, -, he⟩
      · exact h.processed g' f cqe time hg (he ▸ hs)
      · rw [hs] at hu
        exact hu.elim
      · rw [hs] at he
        cases he
    · simp only [Function.update_of_ne hgg] at hg'
      exact h.processed g' f₂ cqe time hg' hs

/-- The event of a request the kernel has carried out is posted. -/
theorem PostsOk.post {q : CompletionQueue} (h : PostsOk q l) (hg : l.futs g = some f) {cqe : Cqe}
    (hst : f.stage = .completed cqe) (hroom : l.pending.length < q.cq.kringMask.toNat + 1) :
    PostsOk (q.post cqe) (l.post g cqe) := by
  obtain ⟨k, hk⟩ := h.ring
  have hpend : (l.post g cqe).pending = l.pending ++ [(g, cqe)] :=
    List.drop_append_of_le_length h.seen
  have htake : (l.post g cqe).posts.take l.seen = l.posts.take l.seen :=
    List.take_append_of_le_length h.seen
  have hfuts : (l.post g cqe).futs =
      Function.update l.futs g (some { f with stage := .posted cqe }) := by
    rw [Ledger.post, Ledger.modifyFut_eq hg]
  have hne : ∀ p ∈ l.posts, p.1 ≠ g := by
    rintro p hmem rfl
    rw [← List.take_append_drop l.seen l.posts] at hmem
    rcases List.mem_append.1 hmem with hmem | hmem
    · obtain ⟨f₂, hf₂, hs⟩ := h.done p hmem
      obtain rfl := Option.some.inj (hg.symm.trans hf₂)
      simp [hst] at hs
    · obtain ⟨f₂, hf₂, hs⟩ := h.pending p hmem
      obtain rfl := Option.some.inj (hg.symm.trans hf₂)
      simp [hst] at hs
  refine ⟨⟨k, ?_⟩, ?_, ?_, ?_, ?_, ?_, ?_⟩
  · rw [hpend, List.map_append]
    refine hk.post ?_ cqe
    rw [List.length_map]
    have := hk.mask
    have : 0 < 2 ^ k := by positivity
    omega
  · show ((l.posts ++ [(g, cqe)]).map Prod.fst).Nodup
    rw [List.map_append, List.nodup_append]
    refine ⟨h.nodup, List.nodup_singleton _, ?_⟩
    rintro a ha b hb rfl
    obtain ⟨p, hp, rfl⟩ := List.mem_map.1 ha
    exact hne p hp (List.mem_singleton.1 hb)
  · show l.seen ≤ (l.posts ++ [(g, cqe)]).length
    rw [List.length_append]
    exact h.seen.trans (Nat.le_add_right _ _)
  · rw [hpend, hfuts]
    intro p hp
    rcases List.mem_append.1 hp with hp | hp
    · obtain ⟨f₂, hf₂, hs⟩ := h.pending p hp
      exact ⟨f₂, by rw [Function.update_of_ne (hne p (List.mem_of_mem_drop hp)), hf₂], hs⟩
    · obtain rfl := List.mem_singleton.1 hp
      exact ⟨_, Function.update_self .., rfl⟩
  · show ∀ p ∈ (l.post g cqe).posts.take l.seen, _
    rw [htake, hfuts]
    intro p hp
    obtain ⟨f₂, hf₂, hs⟩ := h.done p hp
    exact ⟨f₂, by rw [Function.update_of_ne (hne p (List.mem_of_mem_take hp)), hf₂], hs⟩
  · rw [hpend, hfuts]
    intro g' f₂ cqe' hg' hs
    by_cases hgg : g' = g
    · subst hgg
      rw [Function.update_self, Option.some.injEq] at hg'
      subst hg'
      obtain rfl := Stage.posted.inj hs
      exact List.mem_append.2 (.inr (List.mem_singleton_self _))
    · rw [Function.update_of_ne hgg] at hg'
      exact List.mem_append.2 (.inl (h.posted g' f₂ cqe' hg' hs))
  · show ∀ g' f₂ cqe' time, (l.post g cqe).futs g' = some f₂ → f₂.stage = .processed cqe' time →
      (g', cqe') ∈ (l.post g cqe).posts.take l.seen ∧ time ≤ l.clock
    rw [htake, hfuts]
    intro g' f₂ cqe' time hg' hs
    by_cases hgg : g' = g
    · subst hgg
      rw [Function.update_self, Option.some.injEq] at hg'
      subst hg'
      cases hs
    · rw [Function.update_of_ne hgg] at hg'
      exact h.processed g' f₂ cqe' time hg' hs

theorem LinkedEntries.move {futs : ℕ → Option Fut} {linked : List ℕ} {sqes : List Sqe}
    (h : LinkedEntries futs linked sqes) (hg : futs g = some f)
    (hmove : f.stage = .prepared → f'.stage = .prepared ∧ ∀ sqe, SqeOk f sqe → SqeOk f' sqe) :
    LinkedEntries (Function.update futs g (some f')) linked sqes := by
  refine List.Forall₂.imp (fun g' sqe hsqe => ?_) h
  obtain ⟨f₂, hf₂, hst, hok⟩ := hsqe
  by_cases hgg : g' = g
  · subst hgg
    rw [hg, Option.some.injEq] at hf₂
    subst hf₂
    exact ⟨f', Function.update_self .., (hmove hst).1, (hmove hst).2 sqe hok⟩
  · exact ⟨f₂, by rw [Function.update_of_ne hgg, hf₂], hst, hok⟩

theorem LinkedEntries.of_not_mem {futs : ℕ → Option Fut} {linked : List ℕ} {sqes : List Sqe}
    (h : LinkedEntries futs linked sqes) (hg : g ∉ linked) (x : Option Fut) :
    LinkedEntries (Function.update futs g x) linked sqes := by
  induction h with
  | nil => exact .nil
  | cons hab _ ih =>
    obtain ⟨f, hf, hrest⟩ := hab
    refine .cons ⟨f, ?_, hrest⟩ (ih fun hmem => hg (List.mem_cons_of_mem _ hmem))
    rw [Function.update_of_ne fun heq => hg (by rw [← heq]; exact List.mem_cons_self ..), hf]

theorem LinkedEntries.prepared_of_mem {futs : ℕ → Option Fut} {linked : List ℕ} {sqes : List Sqe}
    (h : LinkedEntries futs linked sqes) (hg : g ∈ linked) :
    ∃ f, futs g = some f ∧ f.stage = .prepared := by
  induction h with
  | nil => cases hg
  | cons hab _ ih =>
    rcases List.mem_cons.1 hg with rfl | hg
    · obtain ⟨f, hf, hst, -⟩ := hab
      exact ⟨f, hf, hst⟩
    · exact ih hg

/-- Clearing the link flag of the last entry changes nothing of this. -/
theorem LinkedEntries.closeChain {futs : ℕ → Option Fut} {linked : List ℕ} {sqes : List Sqe}
    (h : LinkedEntries futs linked sqes) :
    LinkedEntries futs linked (SubmissionQueue.closeChain sqes) := by
  induction h with
  | nil => exact .nil
  | cons hab hrest ih =>
    cases hrest with
    | nil =>
      obtain ⟨f, hf, hst, hok⟩ := hab
      exact .cons ⟨f, hf, hst, hok.userData, hok.buffer⟩ .nil
    | cons _ _ => exact .cons hab ih

theorem Linked.move {q : SubmissionQueue} {session : Option Session} {futs : ℕ → Option Fut}
    (h : Linked q session futs) (hg : futs g = some f)
    (hmove : f.stage = .prepared → f'.stage = .prepared ∧ ∀ sqe, SqeOk f sqe → SqeOk f' sqe) :
    Linked q session (Function.update futs g (some f')) := by
  obtain ⟨k, hk, hs⟩ := h.ring
  refine ⟨k, hk, fun s hse => ?_⟩
  obtain ⟨hle, hnd, hall⟩ := hs s hse
  exact ⟨hle, hnd, hall.move hg hmove⟩

/-- The futures that the open session has linked have their entries filled. -/
theorem Linked.prepared {q : SubmissionQueue} {s : Session} {futs : ℕ → Option Fut}
    (h : Linked q (some s) futs) (hg : g ∈ s.linked) :
    ∃ f, futs g = some f ∧ f.stage = .prepared := by
  obtain ⟨k, -, hs⟩ := h.ring
  exact (hs s rfl).2.2.prepared_of_mem hg

/-- Without a session nothing is linked. -/
theorem Linked.closed {q : SubmissionQueue} {futs : ℕ → Option Fut} (h : Linked q none futs)
    (futs' : ℕ → Option Fut) : Linked q none futs' := by
  obtain ⟨k, hk, -⟩ := h.ring
  exact ⟨k, hk, fun s hs => by cases hs⟩

/-- Another future moves on while a call waits for its own. -/
theorem CallOk.move {futs : ℕ → Option Fut} {session : Option Session} {call : Call}
    (h : CallOk futs session call) (hg : futs g = some f) (hlife : f'.life = f.life)
    (hkind : f'.kind = f.kind) (hbuf : f'.buffer = f.buffer)
    (hfresh : f.stage = .fresh → f'.stage = .fresh) :
    CallOk (Function.update futs g (some f')) session call := by
  have hlive : ∀ g', (∃ f₂, futs g' = some f₂ ∧ f₂.life = .live) →
      ∃ f₂, Function.update futs g (some f') g' = some f₂ ∧ f₂.life = .live := by
    rintro g' ⟨f₂, hf₂, hl⟩
    by_cases hgg : g' = g
    · subst hgg
      rw [hg, Option.some.injEq] at hf₂
      subst hf₂
      exact ⟨f', Function.update_self .., hlife.trans hl⟩
    · exact ⟨f₂, by rw [Function.update_of_ne hgg, hf₂], hl⟩
  cases call with
  | none => trivial
  | dropSlot g' => exact ⟨h.1, hlive g' h.2⟩
  | dropWait g' => exact ⟨h.1, hlive g' h.2⟩
  | slotWait g' r =>
    obtain ⟨f₂, hf₂, hl, hst, hk, hfunc⟩ := h
    by_cases hgg : g' = g
    · subst hgg
      rw [hg, Option.some.injEq] at hf₂
      subst hf₂
      refine ⟨f', Function.update_self .., hlife.trans hl, hfresh hst, hkind.trans hk, ?_⟩
      intro bufid len hb
      rw [hbuf]
      exact hfunc bufid len (hkind ▸ hb)
    · exact ⟨f₂, by rw [Function.update_of_ne hgg, hf₂], hl, hst, hk, hfunc⟩

theorem CallOk.closed {futs : ℕ → Option Fut} {session : Option Session} {call : Call}
    (h : CallOk futs session call) : CallOk futs none call := by
  cases call with
  | none => trivial
  | slotWait g r => exact h
  | dropSlot g => exact ⟨rfl, h.2⟩
  | dropWait g => exact ⟨rfl, h.2⟩

end Move

/-! ## Operations on one future -/

/-- The request of a future stays what it is. -/
structure Fut.SameRequest (f f' : Fut) : Prop where
  cqid : f'.cqid = f.cqid
  kind : f'.kind = f.kind
  buffer : f'.buffer = f.buffer
  stage : f'.stage = f.stage
  sqe : f'.sqe = f.sqe

variable {ctx : IOContext} {l : Ledger} {session : Option Session} {call call' : Call}
  {g : ℕ} {f f' : Fut}

theorem SqeOk.congr {sqe : Sqe} (h : SqeOk f sqe) (hc : f'.cqid = f.cqid) (hk : f'.kind = f.kind)
    (hb : f'.buffer = f.buffer) : SqeOk f' sqe := by
  refine ⟨hc ▸ h.userData, fun bufid len hkind => ?_⟩
  rw [hb]
  exact h.buffer bufid len (hk ▸ hkind)

theorem FutOk.congr (h : FutOk f) (hs : f.SameRequest f') : FutOk f' := by
  refine ⟨hs.cqid ▸ h.cqid, fun hsent => ?_, fun cqe hcqe => ?_⟩
  · rw [hs.sqe]
    refine (h.sent ?_).congr hs.cqid hs.kind hs.buffer
    rw [Fut.Sent, hs.stage] at hsent
    exact hsent
  · rw [hs.sqe]
    exact h.event cqe (hs.stage ▸ hcqe)

namespace Consistent

/-- The entry of a future is changed or removed, and its request stays what it is. -/
theorem touch (h : Consistent ctx l session call) (hg : l.futs g = some f) (hn : f.NeedsEntry)
    (hs : f.SameRequest f') {completions : Slots CompletionEvent} {x : Option CompletionEvent}
    (hget : completions.get = Function.update ctx.completions.get f.cqid x)
    (hx : f'.NeedsEntry → ∃ ce, x = some ce ∧ EntryOk f' ce)
    (hcall : CallOk (Function.update l.futs g (some f')) session call') :
    Consistent { ctx with completions } { l with futs := Function.update l.futs g (some f') }
      session call' where
  table := by
    show Table completions.get _ _
    rw [hget]
    exact h.table.update hg hn hs.cqid x hx
  futs := FutOk.all h.futs hg ((h.futs g f hg).2.congr hs)
  posts := h.posts.move hg (.inl hs.stage)
  linked := h.linked.move hg fun hp =>
    ⟨hs.stage.trans hp, fun _ hok => hok.congr hs.cqid hs.kind hs.buffer⟩
  call := hcall

/-- A future changes and its entry does not. -/
theorem keep (h : Consistent ctx l session call) (hg : l.futs g = some f)
    (hs : f.SameRequest f')
    (hx : f'.NeedsEntry → f.NeedsEntry ∧ ∀ ce, EntryOk f ce → EntryOk f' ce)
    (hcall : CallOk (Function.update l.futs g (some f')) session call') :
    Consistent ctx { l with futs := Function.update l.futs g (some f') } session call' where
  table := h.table.move hg hs.cqid hx
  futs := FutOk.all h.futs hg ((h.futs g f hg).2.congr hs)
  posts := h.posts.move hg (.inl hs.stage)
  linked := h.linked.move hg fun hp =>
    ⟨hs.stage.trans hp, fun _ hok => hok.congr hs.cqid hs.kind hs.buffer⟩
  call := hcall

/-- The event of a future is handed over, and its entry with it. -/
theorem resolve (h : Consistent ctx l session .none) (hg : l.futs g = some f) (hn : f.NeedsEntry)
    {cqe : Cqe} {time : ℕ} (hst : f.stage = .processed cqe time)
    {completions : Slots CompletionEvent}
    (hget : completions.get = Function.update ctx.completions.get f.cqid none) :
    Consistent { ctx with completions }
      { l with
        futs := Function.update l.futs g (some { f with life := .dead, stage := .resolved }) }
      session .none where
  table := by
    show Table completions.get _ _
    rw [hget]
    have hc : ({ f with life := .dead, stage := .resolved } : Fut).cqid = f.cqid := rfl
    exact h.table.update hg hn hc none fun hn' => by
      rcases hn' with hl | hp | hp | ⟨_, hp | hp⟩ <;> cases ‹_ = _›
  futs := FutOk.all h.futs hg ⟨(h.futs g f hg).2.cqid,
    fun hs => by rcases hs with hs | hs <;> simp [Stage.event?] at hs,
    fun cqe hcqe => by cases hcqe⟩
  posts := h.posts.move hg (.inr (.inr ⟨cqe, time, hst, rfl⟩))
  linked := h.linked.move hg fun hp => by
    rw [hst] at hp
    cases hp
  call := trivial

/-- A request that is not posted yet moves on, and its entry stays. -/
theorem setStage (h : Consistent ctx l session call) (hg : l.futs g = some f) {stage : Stage}
    {sqe : Sqe} (hok : FutOk { f with stage, sqe }) (hu : f.stage.Unposted) (hu' : stage.Unposted)
    (hfresh : f.stage ≠ .fresh) (hfresh' : stage ≠ .fresh)
    (hneeds : ({ f with stage, sqe } : Fut).NeedsEntry → f.NeedsEntry)
    (hlinked : Linked ctx.sq session (Function.update l.futs g (some { f with stage, sqe }))) :
    Consistent ctx { l with futs := Function.update l.futs g (some { f with stage, sqe }) }
      session call where
  table := by
    have hc : ({ f with stage, sqe } : Fut).cqid = f.cqid := rfl
    refine h.table.move hg hc fun hn => ⟨hneeds hn, fun ce hce => hce.congr ?_ rfl ?_ rfl rfl⟩
    · rw [hu.processed?_eq, hu'.processed?_eq]
    · exact ⟨fun he => absurd he hfresh', fun he => absurd he hfresh⟩
  futs := FutOk.all h.futs hg hok
  posts := h.posts.move hg (.inr (.inl ⟨hu, hu'⟩))
  linked := hlinked
  call := h.call.move hg rfl rfl rfl fun he => absurd he hfresh

/-- The submission ring changes without the entries behind its tail doing so. -/
theorem ofSq (h : Consistent ctx l session call) {sq : SubmissionQueue}
    (hsq : ∀ k, ctx.sq.Sized k → sq.Sized k) (htail : sq.sq.ktail = ctx.sq.sq.ktail)
    (hsqes : session = none ∨ sq.sq.sqes = ctx.sq.sq.sqes) :
    Consistent { ctx with sq } l session call where
  table := h.table
  futs := h.futs
  posts := h.posts
  linked := by
    obtain ⟨k, hk, hs⟩ := h.linked.ring
    refine ⟨k, hsq k hk, fun s hse => ?_⟩
    rcases hsqes with hnone | hsqes
    · rw [hnone] at hse
      cases hse
    · rw [SubmissionQueue.entriesFrom, hsqes, htail]
      exact hs s hse
  call := h.call

/-- Where the buffers are plays no part. -/
theorem withBufs (h : Consistent ctx l session call) (held : List (UInt16 × UInt64))
    (bufs : ℕ → Option BufUse) : Consistent ctx { l with held, bufs } session call where
  table := h.table
  futs := h.futs
  posts := ⟨h.posts.ring, h.posts.nodup, h.posts.seen, h.posts.pending, h.posts.done,
    h.posts.posted, h.posts.processed⟩
  linked := h.linked
  call := h.call

theorem withBuffers (h : Consistent ctx l session call) (buffers : Slots (FixedVec UInt8)) :
    Consistent { ctx with buffers } l session call :=
  ⟨h.table, h.futs, h.posts, h.linked, h.call⟩

/-! ## A future is created -/

theorem futs_nextFut (h : Consistent ctx l session call) : l.futs l.nextFut = none := by
  cases hf : l.futs l.nextFut with
  | none => rfl
  | some f => exact absurd (h.futs _ f hf).1 (lt_irrefl _)

theorem create (h : Consistent ctx l session call) {cqid : ℕ}
    {completions : Slots CompletionEvent}
    (hins : ctx.completions.insert (.new NO_TASK_SENTINEL) = some (cqid, completions))
    (kind : FutureKind) (buffer : Option (FixedVec UInt8))
    (hcall : CallOk (l.create cqid kind buffer).futs session call') :
    Consistent { ctx with completions } (l.create cqid kind buffer) session call' := by
  have hget := Slots.get_insert hins
  have hnew := h.futs_nextFut
  have hne : ∀ {g f}, l.futs g = some f → g ≠ l.nextFut := fun {g f} hg heq => by
    rw [heq, hnew] at hg
    cases hg
  have hcqid : cqid < 2 ^ 61 := Slots.lt_of_get (s := completions)
    (v := .new NO_TASK_SENTINEL) (by rw [hget, Function.update_self])
  refine ⟨?_, ?_, ?_, ?_, hcall⟩
  · show Table completions.get _ _
    rw [hget]
    refine h.table.create (Slots.get_before_insert hins) hnew ⟨rfl, ?_, ?_, ?_⟩
    · cases kind <;> rfl
    · exact ⟨fun hd => absurd hd (by decide), fun hd => by cases hd⟩
    · intro t task hp
      cases hp
  · intro g f hg
    by_cases hgg : g = l.nextFut
    · subst hgg
      simp only [Ledger.create, Function.update_self, Option.some.injEq] at hg
      subst hg
      exact ⟨Nat.lt_succ_self _, hcqid,
        fun hs => by rcases hs with hs | hs <;> simp [Stage.event?] at hs,
        fun cqe hcqe => by cases hcqe⟩
    · simp only [Ledger.create, Function.update_of_ne hgg] at hg
      exact ⟨(h.futs g f hg).1.trans (Nat.lt_succ_self _), (h.futs g f hg).2⟩
  · have hp := h.posts
    refine ⟨hp.ring, hp.nodup, hp.seen, ?_, ?_, ?_, ?_⟩
    · intro p hpp
      obtain ⟨f, hf, hs⟩ := hp.pending p hpp
      exact ⟨f, by simp [Ledger.create, Function.update_of_ne (hne hf), hf], hs⟩
    · intro p hpp
      obtain ⟨f, hf, hs⟩ := hp.done p hpp
      exact ⟨f, by simp [Ledger.create, Function.update_of_ne (hne hf), hf], hs⟩
    · intro g f cqe hg hs
      by_cases hgg : g = l.nextFut
      · subst hgg
        simp only [Ledger.create, Function.update_self, Option.some.injEq] at hg
        rw [← hg] at hs
        cases hs
      · simp only [Ledger.create, Function.update_of_ne hgg] at hg
        exact hp.posted g f cqe hg hs
    · intro g f cqe time hg hs
      by_cases hgg : g = l.nextFut
      · subst hgg
        simp only [Ledger.create, Function.update_self, Option.some.injEq] at hg
        rw [← hg] at hs
        cases hs
      · simp only [Ledger.create, Function.update_of_ne hgg] at hg
        exact hp.processed g f cqe time hg hs
  · obtain ⟨k, hk, hs⟩ := h.linked.ring
    refine ⟨k, hk, fun s hse => ?_⟩
    obtain ⟨hle, hnd, hall⟩ := hs s hse
    refine ⟨hle, hnd, List.Forall₂.imp (fun g sqe hsqe => ?_) hall⟩
    obtain ⟨f, hf, hst, hok⟩ := hsqe
    exact ⟨f, by simp [Ledger.create, Function.update_of_ne (hne hf), hf], hst, hok⟩

/-! ## Sessions -/

theorem openSession (h : Consistent ctx l session .none) :
    Consistent ctx l (some { count := 0, linked := [] }) .none := by
  obtain ⟨k, hk, -⟩ := h.linked.ring
  refine ⟨h.table, h.futs, h.posts, ⟨k, hk, fun s hs => ?_⟩, trivial⟩
  obtain rfl := Option.some.inj hs
  exact ⟨Nat.zero_le _, List.nodup_nil, .nil⟩

theorem closeSession (h : Consistent ctx l session call) : Consistent ctx l none call := by
  obtain ⟨k, hk, -⟩ := h.linked.ring
  exact ⟨h.table, h.futs, h.posts, ⟨k, hk, fun s hs => by cases hs⟩, h.call.closed⟩

/-- The slot of a request is filled. -/
theorem fill {s : Session} (h : Consistent ctx l (some s) call) (hg : l.futs g = some f)
    (hlive : f.life = .live) (hfresh : f.stage = .fresh) {r : Started} (hkind : f.kind = r.kind)
    (hfunc : FuncOk f r.func) {ctx' : IOContext}
    (hfill : fillSlot ctx s.count f.cqid r = some ctx') :
    Consistent ctx'
      (l.modifyFut g fun f => { f with stage := .prepared, mustWait := r.mustWait })
      (some { count := s.count + 1, linked := s.linked ++ [g] }) .none := by
  rw [Ledger.modifyFut_eq hg]
  obtain ⟨sq, completions, hsq, rfl, hget⟩ := fillSlot_eq_some hfill
  obtain ⟨k, hk, hs⟩ := h.linked.ring
  obtain ⟨hle, hnd, hall⟩ := hs s rfl
  obtain ⟨hlt, slot, hsqeq, hentries⟩ := hk.linkSqe_entriesFrom hsq
  obtain ⟨-, ce, hce, hok⟩ := h.table g f hg (.inl hlive)
  have hnot : g ∉ s.linked := fun hmem => by
    obtain ⟨f₂, hf₂, hst⟩ := hall.prepared_of_mem hmem
    rw [hg, Option.some.injEq] at hf₂
    rw [← hf₂, hfresh] at hst
    cases hst
  refine ⟨?_, ?_, ?_, ?_, trivial⟩
  · show Table completions.get _ _
    rw [hget]
    rw [hce, Option.map_some]
    have hc : ({ f with stage := .prepared, mustWait := r.mustWait } : Fut).cqid = f.cqid := rfl
    refine h.table.update hg (.inl hlive) hc _ fun _ => ⟨_, rfl, ?_, ?_, hok.dead, hok.polled⟩
    · rw [hok.cqe, hfresh]
      rfl
    · rw [hok.action, Fut.action, Fut.action, hkind, hfresh]
      cases r.kind <;> rfl
  · refine FutOk.all h.futs hg
      ⟨(h.futs g f hg).2.cqid, fun hsent => ?_, fun cqe hcqe => by cases hcqe⟩
    rcases hsent with hsent | hsent
    · cases hsent
    · exact absurd rfl hsent
  · exact h.posts.move hg (.inr (.inl ⟨by rw [hfresh]; trivial, trivial⟩))
  · refine ⟨k, hsqeq ▸ hk.writeSqe _ _, fun s' hs' => ?_⟩
    obtain rfl := Option.some.inj hs'
    refine ⟨hlt, List.nodup_append.2 ⟨hnd, List.nodup_singleton g, ?_⟩, ?_⟩
    · rintro a ha b hb rfl
      exact hnot (List.mem_singleton.1 hb ▸ ha)
    · rw [hentries]
      refine List.rel_append (hall.move hg fun hp => ?_)
        (.cons ⟨_, Function.update_self .., rfl, rfl, ?_⟩ .nil)
      · rw [hfresh] at hp
        cases hp
      · intro bufid len hb
        obtain ⟨buffer, hbuf, hwrites⟩ := hfunc bufid len hb
        exact ⟨(hwrites _).1, buffer, hbuf, (hwrites _).2⟩

/-- The entries of a session are published one after the other. -/
theorem sendAll (h : Consistent ctx l none call) {linked : List ℕ} {sqes : List Sqe}
    (hnd : linked.Nodup) (hall : LinkedEntries l.futs linked sqes) :
    Consistent ctx (l.publish (linked.zip sqes)) none call := by
  induction linked generalizing l sqes with
  | nil => exact h
  | cons g linked ih =>
    rcases hall with _ | ⟨⟨f, hg, hst, hok⟩, hall⟩
    rename_i sqe sqes
    obtain ⟨hnot, hnd⟩ := List.nodup_cons.1 hnd
    have hokf : FutOk { f with stage := .published, sqe } :=
      ⟨(h.futs g f hg).2.cqid, fun _ => hok.congr rfl rfl rfl, fun cqe hcqe => by cases hcqe⟩
    have hstep : Consistent ctx
        (l.modifyFut g fun f => { f with stage := .published, sqe }) none call := by
      rw [Ledger.modifyFut_eq hg]
      refine h.setStage hg hokf (by rw [hst]; trivial) trivial (by simp [hst]) (by simp)
        (fun _ => .inr (.inl hst)) ?_
      exact h.linked.closed _
    refine ih hstep hnd ?_
    rw [Ledger.modifyFut_eq hg]
    exact LinkedEntries.of_not_mem hall hnot _

theorem publish {s : Session} (h : Consistent ctx l (some s) call) {sq : SubmissionQueue}
    (hpub : ctx.sq.publish s.count = some sq) (queued : ℕ) :
    Consistent { ctx with sq, queued }
      (l.publish (s.linked.zip (sq.published ctx.sq.sq.ktail s.count))) none call := by
  obtain ⟨k, hk, hs⟩ := h.linked.ring
  obtain ⟨-, hnd, hall⟩ := hs s rfl
  obtain ⟨hsized, hentries⟩ := hk.published_eq hpub
  rw [hentries]
  have hbase : Consistent { ctx with sq, queued } l none call :=
    ⟨h.table, h.futs, h.posts, ⟨k, hsized, fun _ hs => by cases hs⟩, h.call.closed⟩
  exact hbase.sendAll hnd hall.closeChain

/-- A session is dropped without being submitted. -/
theorem abandon (h : Consistent ctx l none call) {linked : List ℕ} (hnd : linked.Nodup)
    (hall : ∀ g ∈ linked, ∃ f, l.futs g = some f ∧ f.stage = .prepared) :
    Consistent ctx (l.abandon linked) none call := by
  induction linked generalizing l with
  | nil => exact h
  | cons g linked ih =>
    obtain ⟨f, hg, hst⟩ := hall g (List.mem_cons_self ..)
    obtain ⟨hnot, hnd⟩ := List.nodup_cons.1 hnd
    have hokf : FutOk { f with stage := .abandoned } :=
      ⟨(h.futs g f hg).2.cqid, fun hs => by rcases hs with hs | hs <;> simp [Stage.event?] at hs,
        fun cqe hcqe => by cases hcqe⟩
    have hstep : Consistent ctx (l.modifyFut g fun f => { f with stage := .abandoned }) none
        call := by
      rw [Ledger.modifyFut_eq hg]
      exact h.setStage hg hokf (by rw [hst]; trivial) trivial (by simp [hst]) (by simp)
        (fun _ => .inr (.inl hst)) (h.linked.closed _)
    refine ih hstep hnd fun g' hg' => ?_
    obtain ⟨f', hf', hst'⟩ := hall g' (List.mem_cons_of_mem _ hg')
    refine ⟨f', ?_, hst'⟩
    show (l.modifyFut g _).futs g' = _
    rw [Ledger.modifyFut_eq hg]
    exact (Function.update_of_ne (fun heq => hnot (by rw [← heq]; exact hg')) ..).trans hf'

theorem abandonSession {s : Session} (h : Consistent ctx l (some s) call) :
    Consistent ctx (l.abandon s.linked) none call := by
  obtain ⟨k, -, hs⟩ := h.linked.ring
  exact h.closeSession.abandon (hs s rfl).2.1 fun g hg => h.linked.prepared hg

/-! ## The kernel -/

theorem complete (h : Consistent ctx l session call) {res : Int32} {flags : UInt32} {l' : Ledger}
    (hl : l.complete g res flags = some l') : Consistent ctx l' session call := by
  obtain ⟨f, held, bufs, hg, hst, -, rfl⟩ := Ledger.complete_eq_some hl
  have hok := (h.futs g f hg).2
  have hokf : FutOk { f with stage := .completed ⟨f.sqe.userData, res, flags⟩, sqe := f.sqe } := by
    refine ⟨hok.cqid, fun _ => (hok.sent (.inl hst)).congr rfl rfl rfl, fun cqe hcqe => ?_⟩
    rw [← Option.some.inj hcqe]
  refine withBufs (h.setStage hg hokf (by rw [hst]; trivial) trivial (by simp [hst]) (by simp)
    (fun _ => .inr (.inr (.inl hst))) (h.linked.move hg fun hp => ?_)) held bufs
  rw [hst] at hp
  cases hp

/-- The kernel posts the event of a request. -/
theorem post (h : Consistent ctx l session call) (hg : l.futs g = some f) {cqe : Cqe}
    (hst : f.stage = .completed cqe)
    (hroom : l.pending.length < ctx.cq.cq.kringMask.toNat + 1) :
    Consistent { ctx with cq := ctx.cq.post cqe } (l.post g cqe) session call := by
  have hokf := (h.futs g f hg).2
  have hfuts : (l.post g cqe).futs =
      Function.update l.futs g (some { f with stage := .posted cqe }) := by
    rw [Ledger.post, Ledger.modifyFut_eq hg]
  have hc : ({ f with stage := .posted cqe } : Fut).cqid = f.cqid := rfl
  refine ⟨?_, ?_, h.posts.post hg hst hroom, ?_, ?_⟩
  · rw [hfuts]
    refine h.table.move hg hc fun _ =>
      ⟨.inr (.inr (.inr ⟨cqe, .inl hst⟩)), fun ce hce => hce.congr ?_ rfl ?_ rfl rfl⟩
    · rw [hst]
      rfl
    · simp [hst]
  · rw [hfuts]
    refine FutOk.all h.futs hg ⟨hokf.cqid, fun _ => (hokf.sent (.inr ?_)).congr rfl rfl rfl,
      fun cqe' hcqe => hokf.event cqe' ?_⟩
    · simp [hst, Stage.event?]
    · rw [hst]
      exact hcqe
  · rw [hfuts]
    refine h.linked.move hg fun hp => ?_
    rw [hst] at hp
    cases hp
  · rw [hfuts]
    refine h.call.move hg rfl rfl rfl fun hf => ?_
    rw [hst] at hf
    cases hf

/-! ## Polls of tasks and processed events -/

theorem pollTask (h : Consistent ctx l session call) (task : FutureObj) :
    Consistent ctx (l.pollTask task) session call where
  table := h.table
  futs := h.futs
  posts := ⟨h.posts.ring, h.posts.nodup, h.posts.seen, h.posts.pending, h.posts.done,
    h.posts.posted, fun g f cqe time hg hs =>
      ⟨(h.posts.processed g f cqe time hg hs).1,
        (h.posts.processed g f cqe time hg hs).2.trans (Nat.le_succ _)⟩⟩
  linked := h.linked
  call := h.call

end Consistent

end Hamerkop
