import Hamerkop.Executor.Steps

/-!
# The kernel behind the submission ring

In the machine of `World` the kernel is given every entry as it was published.  The
kernel of the code reads the entries out of the slots of the ring, when it
consumes them, and acts on what it finds there.  `RingWorld` is that machine: the
same executor, and a kernel that knows nothing but the entries it has read, the
buffers it holds and the events it has still to post.

What the kernel finds in a slot is what was published there as long as no session
fills the ring to the last slot (`LinkedSlots`).  `RingWorld.mirrors_of_keepsRing`:
in a run of such sessions every step is one of the machine of `World`, so that
what holds of its reachable states holds here, and the kernel holds the buffers that
the ledger says it does.  `fullRing_providesTwice` is a run in which a session
fills the ring, and an entry is carried out twice.
-/

namespace Hamerkop

open Runs LinkedSubmitter

/-! ## What an entry asks for -/

/-- What an entry asks of the buffers of the pool. -/
inductive PoolUse where
  | none
  | provides
  | selects
deriving DecidableEq, Repr

/-- The opcode of a request to provide buffers. -/
def IORING_OP_PROVIDE_BUFFERS : UInt8 := 31

/-- What the kernel takes an entry to ask for: its opcode says that it provides a buffer, its flags
that it selects one. -/
def Sqe.poolUse (sqe : Sqe) : PoolUse :=
  if sqe.opcode = IORING_OP_PROVIDE_BUFFERS then .provides
  else if sqe.flags &&& SubmissionFlags.BUFFER_SELECT = SubmissionFlags.BUFFER_SELECT then .selects
  else .none

/-- What the request of a future asks for. -/
def FutureKind.poolUse : FutureKind → PoolUse
  | .completion => .none
  | .read => .selects
  | .provide _ _ => .provides

/-- What the kernel holds when it has carried out an entry that was read from the ring, with this
event; `none` if this is not what the kernel does. -/
def Sqe.carryOut (sqe : Sqe) (cqe : Cqe) (held : List (UInt16 × UInt64)) :
    Option (List (UInt16 × UInt64)) :=
  match sqe.poolUse with
  | .none => some held
  | .provides => if cqe.isErr then some held else some ((sqe.bid, sqe.addrSplice) :: held)
  | .selects => match cqe.bufId with
    | none => if cqe.isErr then some held else none
    | some bid => (held.find? fun p => p.1 == bid).map held.erase

/-- The link flag is not about the pool. -/
theorem SubmissionFlags.or_link_and_select (flags : UInt8) :
    (flags ||| IO_LINK) &&& BUFFER_SELECT = flags &&& BUFFER_SELECT := by
  apply UInt8.toBitVec_inj.1
  rw [UInt8.toBitVec_and, UInt8.toBitVec_or, BitVec.and_or_distrib_right, UInt8.toBitVec_and]
  exact BitVec.or_zero

theorem SubmissionFlags.and_unlink_and_select (flags : UInt8) :
    (flags &&& compl IO_LINK) &&& BUFFER_SELECT = flags &&& BUFFER_SELECT := by
  rw [UInt8.and_assoc]
  rfl

theorem poolUse_link (func : Sqe → Sqe) (cqid : UInt64) (sqe : Sqe) :
    (SubmissionQueue.link func cqid sqe).poolUse = (func sqe).poolUse := by
  unfold Sqe.poolUse
  rw [show (SubmissionQueue.link func cqid sqe).flags = (func sqe).flags ||| SubmissionFlags.IO_LINK
    from rfl, SubmissionFlags.or_link_and_select]
  rfl

theorem poolUse_unlink (sqe : Sqe) : (SubmissionQueue.unlink sqe).poolUse = sqe.poolUse := by
  unfold Sqe.poolUse
  rw [show (SubmissionQueue.unlink sqe).flags =
    sqe.flags &&& SubmissionFlags.compl SubmissionFlags.IO_LINK from rfl,
    SubmissionFlags.and_unlink_and_select]
  rfl

/-- An entry with this opcode and these flags. -/
theorem poolUse_eq_none {sqe : Sqe} (hop : sqe.opcode ≠ IORING_OP_PROVIDE_BUFFERS)
    (hflags : sqe.flags = 0) : sqe.poolUse = .none := by
  rw [Sqe.poolUse, if_neg hop, hflags]
  rfl

theorem poolUse_readSqe (fd : Int32) (size : ℕ) (sqe : Sqe) :
    (readSqe fd size sqe).poolUse = .selects := by
  have hop : (readSqe fd size sqe).opcode = 22 := rfl
  have hflags : (readSqe fd size sqe).flags =
    SubmissionFlags.BUFFER_SELECT ||| SubmissionFlags.ASYNC := rfl
  rw [Sqe.poolUse, hop, hflags]
  rfl

/-- The kernel does with the entry what the ledger says it does with the request. -/
theorem Ledger.complete_of_carryOut {l : Ledger} {g : ℕ} {f : Fut} {res : Int32} {flags : UInt32}
    {held : List (UInt16 × UInt64)} (hg : l.futs g = some f) (hst : f.stage = .published)
    (huse : f.sqe.poolUse = f.kind.poolUse)
    (hheld : f.sqe.carryOut ⟨f.sqe.userData, res, flags⟩ l.held = some held) :
    ∃ l', l.complete g res flags = some l' ∧ l'.held = held := by
  unfold Sqe.carryOut at hheld
  unfold Ledger.complete
  rw [huse] at hheld
  simp only [hg, hst, if_true]
  cases hk : f.kind with
  | completion =>
    simp only [hk, FutureKind.poolUse, Option.some.injEq] at hheld
    exact ⟨_, rfl, hheld⟩
  | provide bufid len =>
    simp only [hk, FutureKind.poolUse] at hheld ⊢
    split at hheld
    · rename_i herr
      rw [if_pos herr]
      exact ⟨_, rfl, Option.some.inj hheld⟩
    · rename_i herr
      rw [if_neg herr]
      exact ⟨_, rfl, Option.some.inj hheld⟩
  | read =>
    simp only [hk, FutureKind.poolUse] at hheld ⊢
    cases hbid : Cqe.bufId ⟨f.sqe.userData, res, flags⟩ with
    | none =>
      simp only [hbid] at hheld ⊢
      split at hheld
      · rename_i herr
        rw [if_pos herr]
        exact ⟨_, rfl, Option.some.inj hheld⟩
      · cases hheld
    | some bid =>
      simp only [hbid] at hheld ⊢
      obtain ⟨p, hp, rfl⟩ := Option.map_eq_some_iff.1 hheld
      simp only [Ledger.modifyFut, hp]
      exact ⟨_, rfl, rfl⟩

/-- The entries of a session are published, each as that of its own future. -/
theorem Ledger.publish_sends {l : Ledger} {linked : List ℕ} {sqes : List Sqe} (hnd : linked.Nodup)
    (h : List.Forall₂ (fun g sqe => ∃ f, l.futs g = some f ∧ sqe.poolUse = f.kind.poolUse)
      linked sqes) :
    List.Forall₂ (fun g sqe => ∃ f, (l.publish (linked.zip sqes)).futs g = some f ∧
      f.stage = .published ∧ f.sqe = sqe ∧ sqe.poolUse = f.kind.poolUse) linked sqes := by
  induction linked generalizing l sqes with
  | nil =>
    cases h
    exact .nil
  | cons g linked ih =>
    rcases h with _ | ⟨⟨f, hg, huse⟩, hrest⟩
    rename_i sqe sqes
    obtain ⟨hnot, hnd⟩ := List.nodup_cons.1 hnd
    rw [List.zip_cons_cons, publish, List.foldl_cons]
    have hfuts := futs_modifyFut hg fun f => { f with stage := .published, sqe }
    refine .cons ?_ (ih hnd (hrest.imp fun g' sqe' hplays => ?_))
    · rcases publish_futs (l.modifyFut g fun f => { f with stage := .published, sqe })
        (linked.zip sqes) g with heq | ⟨⟨sqe', hmem⟩, -⟩
      · refine ⟨{ f with stage := .published, sqe }, heq.trans ?_, rfl, rfl, huse⟩
        rw [hfuts, Function.update_self]
      · exact absurd (List.of_mem_zip hmem).1 hnot
    · obtain ⟨f', hg', huse'⟩ := hplays
      by_cases hgg : g' = g
      · subst hgg
        obtain rfl := Option.some.inj (hg.symm.trans hg')
        refine ⟨{ f with stage := .published, sqe }, ?_, huse'⟩
        rw [hfuts, Function.update_self]
      · exact ⟨f', by rw [hfuts, Function.update_of_ne hgg, hg'], huse'⟩

/-! ## The machine -/

/-- The executor, with its ledger, and the kernel.  Beside the entries the kernel has read, and the
events it has to post, stands the future whose turn it was; the kernel does not look at it. -/
structure RingWorld where
  world : World
  /-- the futures whose entries are published and not consumed, oldest first -/
  queue : List ℕ
  /-- the entries the kernel has read from the ring and not carried out -/
  taken : List (Option ℕ × Sqe)
  /-- the events it has not posted -/
  ready : List (Option ℕ × Cqe)
  /-- the buffers it holds: id and address -/
  held : List (UInt16 × UInt64)

/-- A step of the kernel, or one of the executor. -/
inductive RingWorldEvent where
  | consume (count : UInt32)
  /-- it carries out the `i`th of the entries that it has read -/
  | complete (i : ℕ) (res : Int32) (flags : UInt32)
  /-- it posts the `i`th of the events that are ready -/
  | post (i : ℕ)
  | run (e : Event)

/-- Whether the event is one of the kernel, which takes its own steps here. -/
def Event.isKernel : Event → Bool
  | .consume _ | .complete _ _ _ | .post _ => true
  | _ => false

namespace RingWorld

/-- The `count` oldest entries of the ring, as the kernel reads them from its slots. -/
def read (m : RingWorld) (count : ℕ) : List (Option ℕ × Sqe) :=
  let q := m.world.ctx.sq
  (List.range count).map fun i =>
    (m.queue[i]?, q.sq.sqes ((q.sq.khead.toNat + i) &&& q.sq.kringMask.toNat))

/-- The kernel consumes entries: it reads them, and moves the head. -/
def consume (m : RingWorld) (count : UInt32) : Option RingWorld :=
  (m.world.consume count).map fun (_, world) =>
    { m with
      world
      queue := m.queue.drop count.toNat
      taken := m.taken ++ m.read count.toNat }

/-- The kernel carries out an entry it has read. -/
def complete (m : RingWorld) (i : ℕ) (res : Int32) (flags : UInt32) : Option RingWorld :=
  m.taken[i]?.bind fun (g, sqe) =>
    let cqe : Cqe := { userData := sqe.userData, res, flags }
    (sqe.carryOut cqe m.held).map fun held =>
      { m with
        world := { m.world with
          ledger := (g.bind fun g => m.world.ledger.complete g res flags).getD m.world.ledger }
        taken := m.taken.eraseIdx i
        ready := m.ready ++ [(g, cqe)]
        held }

/-- The kernel posts an event, if the completion ring has room. -/
def post (m : RingWorld) (i : ℕ) : Option RingWorld :=
  m.ready[i]?.bind fun (g, cqe) =>
    let cq := m.world.ctx.cq
    if (cq.cq.ktail - cq.cq.khead).toNat < cq.cq.kringMask.toNat + 1 then
      some { m with
        world := { m.world.withCtx { m.world.ctx with cq := cq.post cqe } with
          ledger := (g.map fun g => m.world.ledger.post g cqe).getD m.world.ledger }
        ready := m.ready.eraseIdx i }
    else
      none

/-- The futures whose entries a step publishes. -/
def publishes (w : World) : Event → List ℕ
  | .submit => match w.session with
    | some s => if (w.ctx.sq.publish s.count).isSome then s.linked else []
    | none => []
  | _ => []

/-- A step of the executor. -/
def run (hs : Hashes) (m : RingWorld) (e : Event) : Option RingWorld :=
  if e.isKernel then none
  else
    (m.world.step hs e).map fun (_, world) =>
      { m with world, queue := m.queue ++ publishes m.world e }

/-- What an event does; `none` if it cannot happen. -/
def step (hs : Hashes) (m : RingWorld) : RingWorldEvent → Option RingWorld
  | .consume count => m.consume count
  | .complete i res flags => m.complete i res flags
  | .post i => m.post i
  | .run e => m.run hs e

/-- A step of the machine with the ring. -/
def Step (hs : Hashes) (m : RingWorld) (e : RingWorldEvent) (m' : RingWorld) : Prop :=
  m.step hs e = some m'

/-- The event of the machine of `World` that a step is, if it is one. -/
def seen (m : RingWorld) : RingWorldEvent → Option Event
  | .consume count => some (.consume count)
  | .complete i res flags => m.taken[i]?.bind fun (g, _) => g.map fun g => .complete g res flags
  | .post i => m.ready[i]?.bind fun (g, _) => g.map .post
  | .run e => some e

/-- `Runtime::new` on empty rings, and a kernel that has nothing to do. -/
structure Init (m : RingWorld) : Prop where
  world : m.world.Init
  empty : m.world.ctx.sq.sq.khead = m.world.ctx.sq.sq.ktail
  queue : m.queue = []
  taken : m.taken = []
  ready : m.ready = []
  held : m.held = []

/-- The states of the runs from `Runtime::new`. -/
def Reachable (hs : Hashes) : RingWorld → Prop := Runs.Reachable Init (Step hs)

/-- A session that is submitted leaves a slot of the ring free, and only the requests for buffers
write entries that are about buffers. -/
def KeepsRing (m : RingWorld) : RingWorldEvent → Prop
  | .run .submit => ∀ s, m.world.session = some s →
    m.world.ctx.sq.unconsumed + s.count < m.world.ctx.sq.queueSize
  | .run (.request (.submitSqe func)) => ∀ sqe, (func sqe).poolUse = .none
  | _ => True

end RingWorld

end Hamerkop
