import Hamerkop.Executor.Submitter

/-!
# The ledger of a run

What has happened to every request and every buffer so far, kept beside the
state of the executor: which future a request belongs to and how far it has
come, which events the kernel has posted, which buffers it holds.  The executor
never reads it.  It is what the properties of the executor speak about, and it
is where the kernel is allowed to do what it does.

The kernel takes a published entry as it was in the ring when it was published,
and posts exactly one event for it, with its user data, at any time and in any
order (`complete` decides the event, `post` places it).  It holds the buffers
whose requests have succeeded, hands each of them out in at most one event, and
a read that succeeds always carries one.  Other requests do not touch the
buffers of the pool.  (The kernel of the code reads the entry from the ring when it
consumes it.  `RingKernel` is that kernel, and `RingSlots` says when it finds there
what was published.)
-/

namespace Hamerkop

/-- The buffer id of a `ProvideBuffers` entry, as the kernel reads it. -/
def Sqe.bid (sqe : Sqe) : UInt16 := sqe.offAddr2.toUInt16

/-- What has become of a `CompletionFuture`. -/
inductive Life where
  | live
  /-- dropped -/
  | dead
  /-- its `drop` has panicked -/
  | lost
deriving DecidableEq, Repr

/-- How far the request of a future has come. -/
inductive Stage where
  /-- no submission entry is filled for it yet -/
  | fresh
  | prepared
  /-- its session ended without being submitted -/
  | abandoned
  | published
  /-- the kernel has carried it out -/
  | completed (cqe : Cqe)
  | posted (cqe : Cqe)
  /-- `process_cqes` has seen its event, after `time` polls of tasks -/
  | processed (cqe : Cqe) (time : ℕ)
  /-- its future has resolved -/
  | resolved
deriving DecidableEq, Repr

/-- A future that was created: its index, its request, and what has become of both. -/
structure Fut where
  cqid : ℕ
  kind : FutureKind
  /-- the buffer it gives to the pool -/
  buffer : Option (FixedVec UInt8)
  mustWait : Bool
  life : Life
  stage : Stage
  /-- the entry as it was published -/
  sqe : Sqe
  /-- the task that polled it last and was told to wait -/
  polledBy : Option (ℕ × FutureObj)

namespace Fut

/-- Its entry is published and its event not processed. -/
def Outstanding (f : Fut) : Prop :=
  f.stage = .published ∨ ∃ cqe, f.stage = .completed cqe ∨ f.stage = .posted cqe

end Fut

/-- Where a buffer of the pool is. -/
inductive Place where
  /-- on its way to the kernel, with the request of this future -/
  | requested (g : ℕ)
  | held
  /-- in the event of this read -/
  | handed (g : ℕ)
deriving DecidableEq, Repr

/-- A buffer of the pool, and where it is. -/
structure BufUse where
  buffer : FixedVec UInt8
  place : Place

/-- What has happened so far. -/
structure Ledger where
  /-- the futures ever created -/
  futs : ℕ → Option Fut
  nextFut : ℕ
  /-- the future each slot of `completions` was last allocated for -/
  owner : ℕ → Option ℕ
  /-- the events posted, with the futures they belong to -/
  posts : List (ℕ × Cqe)
  /-- how many of them have been processed -/
  seen : ℕ
  /-- the buffers the kernel holds: id and address -/
  held : List (UInt16 × UInt64)
  /-- the buffers given to the pool and not taken out since -/
  bufs : ℕ → Option BufUse
  /-- the number of polls of tasks -/
  clock : ℕ
  /-- when each task was last polled -/
  lastPoll : FutureObj → ℕ

namespace Ledger

/-- Nothing has happened. -/
def new : Ledger where
  futs := fun _ => none
  nextFut := 0
  owner := fun _ => none
  posts := []
  seen := 0
  held := []
  bufs := fun _ => none
  clock := 0
  lastPoll := fun _ => 0

/-- The future `g` changes, if there is one. -/
def modifyFut (l : Ledger) (g : ℕ) (f : Fut → Fut) : Ledger :=
  { l with futs := Function.update l.futs g ((l.futs g).map f) }

/-- A future is created with the slot `cqid`, and its buffer is in the pool from now on. -/
def create (l : Ledger) (cqid : ℕ) (kind : FutureKind) (buffer : Option (FixedVec UInt8)) :
    Ledger :=
  { l with
    futs := Function.update l.futs l.nextFut (some
      { cqid, kind, buffer, mustWait := false, life := .live, stage := .fresh, sqe := {}
        polledBy := none })
    owner := Function.update l.owner cqid (some l.nextFut)
    nextFut := l.nextFut + 1
    bufs := match kind, buffer with
      | .provide bufid _, some buffer =>
        Function.update l.bufs bufid (some { buffer, place := .requested l.nextFut })
      | _, _ => l.bufs }

/-- The entries of a session are published. -/
def publish (l : Ledger) (published : List (ℕ × Sqe)) : Ledger :=
  published.foldl (fun l p => l.modifyFut p.1 fun f => { f with stage := .published, sqe := p.2 }) l

/-- The session of these futures ends without being submitted. -/
def abandon (l : Ledger) (linked : List ℕ) : Ledger :=
  linked.foldl (fun l g => l.modifyFut g fun f => { f with stage := .abandoned }) l

/-- A buffer moves to another place. -/
def moveBuf (l : Ledger) (bufid : ℕ) (place : Place) : Ledger :=
  { l with
    bufs := Function.update l.bufs bufid ((l.bufs bufid).map fun u => { u with place }) }

/-- A buffer has left the pool. -/
def dropBuf (l : Ledger) (bufid : ℕ) : Ledger :=
  { l with bufs := Function.update l.bufs bufid none }

/-- The kernel carries out the request of `g`; `none` if this is not what the kernel does. -/
def complete (l : Ledger) (g : ℕ) (res : Int32) (flags : UInt32) : Option Ledger :=
  match l.futs g with
  | none => none
  | some f =>
    if f.stage = .published then
      let cqe : Cqe := { userData := f.sqe.userData, res, flags }
      let l := l.modifyFut g fun f => { f with stage := .completed cqe }
      match f.kind with
      | .completion => some l
      | .provide _ _ =>
        if cqe.isErr then some l
        else
          some ({ l with held := (f.sqe.bid, f.sqe.addrSplice) :: l.held }.moveBuf
            f.sqe.bid.toNat .held)
      | .read => match cqe.bufId with
        | none => if cqe.isErr then some l else none
        | some bid => match l.held.find? fun p => p.1 == bid with
          | none => none
          | some p => some ({ l with held := l.held.erase p }.moveBuf bid.toNat (.handed g))
    else
      none

/-- The events posted and not processed. -/
def pending (l : Ledger) : List (ℕ × Cqe) := l.posts.drop l.seen

/-- The kernel posts the event of `g`. -/
def post (l : Ledger) (g : ℕ) (cqe : Cqe) : Ledger :=
  { l.modifyFut g fun f => { f with stage := .posted cqe } with posts := l.posts ++ [(g, cqe)] }

/-- `process_cqes` sees the next event. -/
def process (l : Ledger) (p : ℕ × Cqe) : Ledger :=
  let l := { l with seen := l.seen + 1 }
  match l.futs p.1 with
  | none => l
  | some f =>
    let l := l.modifyFut p.1 fun f => { f with stage := .processed p.2 l.clock }
    match f.life, f.kind with
    | .dead, .provide bufid _ => if p.2.isErr then l.dropBuf bufid else l
    | _, _ => l

/-- `process_cqes` sees all the events there are. -/
def processAll (l : Ledger) : Ledger := l.pending.foldl process l

/-- The future of a request resolves and is dropped. -/
def resolve (l : Ledger) (g : ℕ) (kind : FutureKind) (cqe : Cqe) : Ledger :=
  let l := l.modifyFut g fun f => { f with life := .dead, stage := .resolved }
  match kind with
  | .completion => l
  | .read => match cqe.bufId with
    | some bufid => if cqe.isErr then l else l.dropBuf bufid.toNat
    | none => l
  | .provide bufid _ => if cqe.isErr then l.dropBuf bufid else l

/-- A poll of a task begins. -/
def pollTask (l : Ledger) (task : FutureObj) : Ledger :=
  { l with clock := l.clock + 1, lastPoll := Function.update l.lastPoll task (l.clock + 1) }

theorem modifyFut_eq {l : Ledger} {g : ℕ} {f : Fut} (hg : l.futs g = some f) (upd : Fut → Fut) :
    l.modifyFut g upd = { l with futs := Function.update l.futs g (some (upd f)) } := by
  rw [modifyFut, hg, Option.map_some]

theorem futs_modifyFut {l : Ledger} {g : ℕ} {f : Fut} (hg : l.futs g = some f)
    (upd : Fut → Fut) : (l.modifyFut g upd).futs = Function.update l.futs g (some (upd f)) := by
  rw [modifyFut_eq hg]

theorem modifyFut_futs (l : Ledger) (g : ℕ) (upd : Fut → Fut) :
    (l.modifyFut g upd).futs = Function.update l.futs g ((l.futs g).map upd) := rfl

/-- Publishing entries changes nothing but the futures they belong to. -/
theorem publish_eq (l : Ledger) (published : List (ℕ × Sqe)) :
    l.publish published = { l with futs := (l.publish published).futs } := by
  induction published generalizing l with
  | nil => rfl
  | cons p published ih =>
    rw [publish, List.foldl_cons]
    exact ih _

theorem publish_futs (l : Ledger) (published : List (ℕ × Sqe)) (g : ℕ) :
    (l.publish published).futs g = l.futs g ∨ (∃ sqe, (g, sqe) ∈ published) ∧
      ∃ sqe, (l.publish published).futs g =
        (l.futs g).map fun f => { f with stage := .published, sqe } := by
  induction published generalizing l with
  | nil => exact .inl rfl
  | cons p published ih =>
    rw [publish, List.foldl_cons]
    have hmod := modifyFut_futs l p.1 fun f => { f with stage := .published, sqe := p.2 }
    by_cases hgp : g = p.1
    · subst hgp
      refine .inr ⟨⟨p.2, List.mem_cons_self ..⟩, ?_⟩
      rcases ih (l.modifyFut p.1 fun f => { f with stage := .published, sqe := p.2 }) with
        heq | ⟨-, sqe, heq⟩
      · exact ⟨p.2, heq.trans (by rw [hmod, Function.update_self])⟩
      · refine ⟨sqe, heq.trans ?_⟩
        rw [hmod, Function.update_self, Option.map_map]
        rfl
    · rcases ih (l.modifyFut p.1 fun f => { f with stage := .published, sqe := p.2 }) with
        heq | ⟨⟨sqe', hmem⟩, sqe, heq⟩
      · exact .inl (heq.trans (by rw [hmod, Function.update_of_ne hgp]))
      · refine .inr ⟨⟨sqe', List.mem_cons_of_mem _ hmem⟩, sqe, heq.trans ?_⟩
        rw [hmod, Function.update_of_ne hgp]

theorem abandon_eq (l : Ledger) (linked : List ℕ) :
    l.abandon linked = { l with futs := (l.abandon linked).futs } := by
  induction linked generalizing l with
  | nil => rfl
  | cons g linked ih =>
    rw [abandon, List.foldl_cons]
    exact ih _

theorem abandon_futs (l : Ledger) (linked : List ℕ) (g : ℕ) :
    (l.abandon linked).futs g = l.futs g ∨ g ∈ linked ∧ (l.abandon linked).futs g =
      (l.futs g).map fun f => { f with stage := .abandoned } := by
  induction linked generalizing l with
  | nil => exact .inl rfl
  | cons g' linked ih =>
    rw [abandon, List.foldl_cons]
    have hmod := modifyFut_futs l g' fun f => { f with stage := .abandoned }
    by_cases hgg : g = g'
    · subst hgg
      refine .inr ⟨List.mem_cons_self .., ?_⟩
      rcases ih (l.modifyFut g fun f => { f with stage := .abandoned }) with heq | ⟨-, heq⟩
      · exact heq.trans (by rw [hmod, Function.update_self])
      · refine heq.trans ?_
        rw [hmod, Function.update_self, Option.map_map]
        rfl
    · rcases ih (l.modifyFut g' fun f => { f with stage := .abandoned }) with heq | ⟨hmem, heq⟩
      · exact .inl (heq.trans (by rw [hmod, Function.update_of_ne hgg]))
      · refine .inr ⟨List.mem_cons_of_mem _ hmem, heq.trans ?_⟩
        rw [hmod, Function.update_of_ne hgg]

/-- What a request of this kind does to the buffers the kernel holds when it is carried out. -/
inductive Transfer (l : Ledger) (g : ℕ) (f : Fut) (cqe : Cqe) :
    List (UInt16 × UInt64) → (ℕ → Option BufUse) → Prop
  | none (hprovide : f.kind.bufid?.isSome → cqe.isErr)
      (hread : f.kind = .read → cqe.bufId = none ∧ cqe.isErr) : Transfer l g f cqe l.held l.bufs
  | given (hprovide : f.kind.bufid?.isSome) (hok : cqe.isErr = false) :
      Transfer l g f cqe ((f.sqe.bid, f.sqe.addrSplice) :: l.held)
        (l.moveBuf f.sqe.bid.toNat .held).bufs
  | handed {p : UInt16 × UInt64} (hread : f.kind = .read) (hp : p ∈ l.held)
      (hbid : cqe.bufId = some p.1) :
      Transfer l g f cqe (l.held.erase p) (l.moveBuf p.1.toNat (.handed g)).bufs

theorem complete_eq_some {l l' : Ledger} {g : ℕ} {res : Int32} {flags : UInt32}
    (h : l.complete g res flags = some l') :
    ∃ f held bufs, l.futs g = some f ∧ f.stage = .published ∧
      l.Transfer g f ⟨f.sqe.userData, res, flags⟩ held bufs ∧
      l' = { l with
        futs := Function.update l.futs g
          (some { f with stage := .completed ⟨f.sqe.userData, res, flags⟩ })
        held, bufs } := by
  rw [complete] at h
  split at h
  · cases h
  · rename_i f hg
    split at h
    · rename_i hst
      simp only [modifyFut_eq hg] at h
      split at h
      · rename_i hk
        exact ⟨f, _, _, hg, hst, .none (by simp [hk, FutureKind.bufid?]) (by simp [hk]),
          (Option.some.inj h).symm⟩
      · rename_i hk
        split at h
        · rename_i herr
          exact ⟨f, _, _, hg, hst, .none (fun _ => herr) (by simp [hk]), (Option.some.inj h).symm⟩
        · rename_i hok
          exact ⟨f, _, _, hg, hst, .given (by simp [hk, FutureKind.bufid?]) (by simpa using hok),
            (Option.some.inj h).symm⟩
      · rename_i hk
        split at h
        · rename_i hnone
          split at h
          · rename_i herr
            exact ⟨f, _, _, hg, hst, .none (by simp [hk, FutureKind.bufid?])
              (fun _ => ⟨hnone, herr⟩), (Option.some.inj h).symm⟩
          · cases h
        · rename_i bid hbid
          split at h
          · cases h
          · rename_i p hp
            have hpb : p.1 = bid := by simpa using List.find?_some hp
            subst hpb
            exact ⟨f, _, _, hg, hst, .handed hk (List.mem_of_find?_eq_some hp) hbid,
              (Option.some.inj h).symm⟩
    · cases h

end Ledger

end Hamerkop
