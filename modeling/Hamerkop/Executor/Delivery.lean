import Hamerkop.Executor.Process
import Hamerkop.Uring.Iterators

/-!
# `process_cqes` against the kernel

Elsewhere a call of `process_cqes` is one step.  Here it is taken apart into its
accesses to the ring: `available` reads the tail, the iterator reads one slot after
the other, and `advance` moves the head.  The kernel may post events in between.

`Delivery.everyEvent_delivered` is about every state of every run, wherever the counters start:
the events examined are the events posted, in order, up to where the call has come,
and when a call ends these are all events up to the tail it has read, which was the tail of the
ring when the call began (`Delivery.everyCall_reads`).  `Delivery.processCqes_eq` says that a call
which the kernel does not interrupt is `processCqes`.
-/

namespace Hamerkop

open Runs

/-- Where a call of `process_cqes` is. -/
inductive ProcessCall where
  | idle
  /-- in the loop: the slots the iterator still has to visit, and `count` -/
  | looping (slots : List ℕ) (count : ℕ)
  | panicked
deriving DecidableEq

/-- The context, and what has happened so far. -/
structure Delivery (ρ : Type) where
  /-- what the `queue_func` of the calls captures -/
  captured : ρ
  ctx : IOContext
  call : ProcessCall
  /-- the events the kernel has posted -/
  posted : List Cqe
  /-- the events the calls have looked at -/
  examined : List Cqe
  /-- the last tail that was read, and how many events were posted then -/
  tailRead : UInt32
  postedThen : ℕ

namespace Delivery

variable {ρ : Type} {queueFunc : IOContext.QueueFunc ρ} {k : ℕ} {s t : Delivery ρ}

/-- The kernel posts an event, or the call goes on. -/
inductive Event where
  /-- the kernel posts an event -/
  | post (cqe : Cqe)
  /-- `process_cqes` is called, and reads the tail -/
  | call
  /-- the body of the loop -/
  | examine
  /-- the loop ends, and the events are handed back -/
  | finish

/-- The kernel posts an event, if the ring has room for it. -/
def post (s : Delivery ρ) (cqe : Cqe) : Option (Delivery ρ) :=
  if (s.ctx.cq.cq.ktail - s.ctx.cq.cq.khead).toNat < s.ctx.cq.cq.kringMask.toNat + 1 then
    some { s with ctx := { s.ctx with cq := s.ctx.cq.post cqe }, posted := s.posted ++ [cqe] }
  else
    none

/-- `let available = self.cq.available();` and `(&available).into_iter()` -/
def begin (s : Delivery ρ) : Delivery ρ :=
  match s.ctx.cq.available with
  | none => { s with call := .panicked }
  | some ring => match ring.intoIterMut with
    | none => { s with call := .panicked }
    | some slots =>
      { s with
        call := .looping slots ring.len, tailRead := s.ctx.cq.cq.ktail
        postedThen := s.posted.length }

/-- The body of the loop, for the event in the next slot. -/
def examine (queueFunc : IOContext.QueueFunc ρ) (s : Delivery ρ) (slot : ℕ) (slots : List ℕ)
    (count : ℕ) : Delivery ρ :=
  let cqe := s.ctx.cq.cq.cqes slot
  let next := IOContext.processCqe queueFunc (s.captured, s.ctx) cqe
  { s with
    captured := next.1, ctx := next.2, call := .looping slots count
    examined := s.examined ++ [cqe] }

/-- The next state, if the event can happen. -/
def step (queueFunc : IOContext.QueueFunc ρ) (s : Delivery ρ) : Event → Option (Delivery ρ)
  | .post cqe => s.post cqe
  | .call => match s.call with
    | .idle => some s.begin
    | _ => none
  | .examine => match s.call with
    | .looping (slot :: slots) count => some (s.examine queueFunc slot slots count)
    | _ => none
  | .finish => match s.call with
    | .looping [] count =>
      some { s with ctx := { s.ctx with cq := s.ctx.cq.advance count }, call := .idle }
    | _ => none

/-- A step of the delivery of events. -/
def Step (queueFunc : IOContext.QueueFunc ρ) (s : Delivery ρ) (e : Event) (t : Delivery ρ) : Prop :=
  s.step queueFunc e = some t

/-- A ring of `2 ^ k` entries with nothing in it, wherever its counters stand. -/
structure Init (k : ℕ) (s : Delivery ρ) : Prop where
  ring : s.ctx.cq.Holds k []
  call : s.call = .idle
  posted : s.posted = []
  examined : s.examined = []
  tailRead : s.tailRead = s.ctx.cq.cq.khead
  postedThen : s.postedThen = 0

/-- The events examined are those posted, in order, up to where the calls have come. -/
structure Delivered (s : Delivery ρ) : Prop where
  noPanic : s.call ≠ .panicked
  /-- nothing is skipped, repeated, or examined before it is posted -/
  inOrder : s.examined <+: s.posted
  /-- a call does not go beyond the tail it has read, and when it is over it has come there -/
  upToTail : s.postedThen ≤ s.posted.length ∧ match s.call with
    | .looping slots _ => s.examined.length + slots.length = s.postedThen
    | _ => s.examined = s.posted.take s.postedThen ∧ s.ctx.cq.cq.khead = s.tailRead

/-! ## The invariant -/

/-- What holds of a call: `consumed` events have been handed back, and the loop has visited `done`
of the slots behind the head. -/
def CallOk (k : ℕ) (s : Delivery ρ) (consumed : ℕ) : Prop :=
  match s.call with
  | .idle => s.examined = s.posted.take consumed ∧ s.postedThen = consumed ∧
    s.ctx.cq.cq.khead = s.tailRead
  | .looping slots count => ∃ done, done + slots.length = count ∧
    s.examined = s.posted.take (consumed + done) ∧ s.postedThen = consumed + count ∧
    s.tailRead = s.ctx.cq.cq.khead + UInt32.ofNat count ∧
    slots = Ring.window (2 ^ k) id (s.ctx.cq.cq.khead.toNat + done) slots.length
  | .panicked => False

/-- The events that are not handed back yet are in the ring. -/
def Inv (k : ℕ) (s : Delivery ρ) : Prop :=
  ∃ consumed, s.ctx.cq.Holds k (s.posted.drop consumed) ∧ s.postedThen ≤ s.posted.length ∧
    s.CallOk k consumed

theorem Init.inv (h : Init k s) : s.Inv k := by
  refine ⟨0, ?_, ?_, ?_⟩
  · rw [h.posted]
    exact h.ring
  · rw [h.postedThen]
    exact Nat.zero_le _
  · simp only [CallOk, h.call, h.posted, h.examined, h.postedThen, h.tailRead, List.take_nil,
      and_self]

theorem Inv.delivered (h : s.Inv k) : s.Delivered := by
  obtain ⟨consumed, hring, hle, hcall⟩ := h
  cases hs : s.call with
  | idle =>
    simp only [CallOk, hs] at hcall
    obtain ⟨hexamined, hthen, htail⟩ := hcall
    refine ⟨by simp [hs], hexamined ▸ List.take_prefix .., hle, ?_⟩
    simp only [hs]
    exact ⟨by rw [hexamined, hthen], htail⟩
  | looping slots count =>
    simp only [CallOk, hs] at hcall
    obtain ⟨done, hcount, hexamined, hthen, -, -⟩ := hcall
    refine ⟨by simp [hs], hexamined ▸ List.take_prefix .., hle, ?_⟩
    simp only [hs, hexamined, List.length_take]
    omega
  | panicked => simp [CallOk, hs] at hcall

theorem Inv.post (h : s.Inv k) {cqe : Cqe} (hp : s.post cqe = some t) : t.Inv k := by
  obtain ⟨consumed, hring, hle, hcall⟩ := h
  obtain ⟨hroom, ht⟩ := Option.ite_none_right_eq_some.1 hp
  obtain rfl := Option.some.inj ht
  have hpos : 0 < 2 ^ k := by positivity
  rw [hring.mask, hring.count, Nat.sub_add_cancel hpos] at hroom
  have hmore : ∀ n ≤ s.posted.length, (s.posted ++ [cqe]).take n = s.posted.take n := fun n hn =>
    List.take_append_of_le_length hn
  have hconsumed : consumed ≤ s.posted.length := by
    cases hs : s.call <;> simp only [CallOk, hs] at hcall
    · omega
    · obtain ⟨_, -, -, hthen, -⟩ := hcall
      omega
  refine ⟨consumed, ?_, ?_, ?_⟩
  · show CompletionQueue.Holds _ k ((s.posted ++ [cqe]).drop consumed)
    rw [List.drop_append_of_le_length hconsumed]
    exact hring.post hroom cqe
  · show s.postedThen ≤ (s.posted ++ [cqe]).length
    rw [List.length_append]
    omega
  · cases hs : s.call with
    | idle =>
      simp only [CallOk, hs, hmore consumed hconsumed] at hcall ⊢
      exact hcall
    | looping slots count =>
      simp only [CallOk, hs] at hcall ⊢
      obtain ⟨done, hcount, hexamined, hthen, htail⟩ := hcall
      exact ⟨done, hcount, by rw [hmore _ (by omega)]; exact hexamined, hthen, htail⟩
    | panicked => simp [CallOk, hs] at hcall

/-- A call begins: the iterator is to visit the slots of the events in the ring. -/
theorem Inv.begin (h : s.Inv k) (hs : s.call = .idle) : s.begin.Inv k := by
  obtain ⟨consumed, hring, hle, hcall⟩ := h
  simp only [CallOk, hs] at hcall
  obtain ⟨hexamined, hthen, htail⟩ := hcall
  obtain ⟨ring, havail, hlen, hslots⟩ := hring.available_intoIterMut
  have hcount : (s.posted.drop consumed).length = s.posted.length - consumed := List.length_drop
  simp only [Delivery.begin, havail, hslots]
  refine ⟨consumed, hring, le_rfl, 0, ?_, ?_, ?_, ?_, ?_⟩
  · rw [Nat.zero_add, Ring.length_window, hlen]
  · rw [Nat.add_zero]
    exact hexamined
  · show s.posted.length = consumed + ring.len
    omega
  · show s.ctx.cq.cq.ktail = s.ctx.cq.cq.khead + UInt32.ofNat ring.len
    rw [hlen, ← hring.count, UInt32.ofNat_toNat, UInt32.add_comm, UInt32.sub_add_cancel]
  · rw [Nat.add_zero, Ring.length_window]

/-- A call reads the current tail: it is to examine all events posted so far. -/
theorem Inv.begin_reads (h : s.Inv k) :
    s.begin.tailRead = s.ctx.cq.cq.ktail ∧ s.begin.postedThen = s.posted.length := by
  obtain ⟨consumed, hring, -, -⟩ := h
  obtain ⟨ring, havail, -, hslots⟩ := hring.available_intoIterMut
  simp only [Delivery.begin, havail, hslots, and_self]

/-- The body of the loop: the next slot holds the event that was posted next. -/
theorem Inv.examine (h : s.Inv k) {slot count : ℕ} {slots : List ℕ}
    (hs : s.call = .looping (slot :: slots) count) :
    (s.examine queueFunc slot slots count).Inv k := by
  obtain ⟨consumed, hring, hle, hcall⟩ := h
  simp only [CallOk, hs] at hcall
  obtain ⟨done, hcount, hexamined, hthen, htail, hslots⟩ := hcall
  rw [List.length_cons] at hcount hslots
  rw [Nat.add_comm slots.length, Ring.window_add] at hslots
  obtain ⟨hslot, hrest⟩ := List.cons.inj hslots
  have hdone : done < (s.posted.drop consumed).length := by
    rw [List.length_drop]
    omega
  -- the event in the slot, by way of the window of the events in the ring
  have hposted : consumed + done < s.posted.length := by
    rw [List.length_drop] at hdone
    omega
  have hcqe : s.ctx.cq.cq.cqes slot = s.posted[consumed + done] := by
    have hget := List.getElem_of_eq hring.events (i := done) (by simpa using hdone)
    rw [Ring.getElem_window, List.getElem_drop] at hget
    rw [hslot]
    exact hget
  have hcq : (IOContext.processCqe queueFunc (s.captured, s.ctx) (s.ctx.cq.cq.cqes slot)).2.cq =
      s.ctx.cq := IOContext.cq_processCqe _ _
  refine ⟨consumed, ?_, hle, done + 1, by omega, ?_, hthen, ?_, ?_⟩
  · show (IOContext.processCqe queueFunc _ _).2.cq.Holds k _
    rw [hcq]
    exact hring
  · show s.examined ++ [s.ctx.cq.cq.cqes slot] = s.posted.take (consumed + done + 1)
    rw [hexamined, hcqe, List.take_concat_get']
  · show s.tailRead = (IOContext.processCqe queueFunc _ _).2.cq.cq.khead + _
    rw [hcq]
    exact htail
  · show slots = Ring.window _ id ((IOContext.processCqe queueFunc _ _).2.cq.cq.khead.toNat + _) _
    rw [hcq]
    exact hrest

/-- The call ends: the events it has examined are handed back. -/
theorem Inv.finish (h : s.Inv k) {count : ℕ} (hs : s.call = .looping [] count) :
    Inv k { s with ctx := { s.ctx with cq := s.ctx.cq.advance count }, call := .idle } := by
  obtain ⟨consumed, hring, hle, hcall⟩ := h
  simp only [CallOk, hs] at hcall
  obtain ⟨done, hcount, hexamined, hthen, htail, -⟩ := hcall
  obtain rfl : done = count := by simpa using hcount
  refine ⟨consumed + done, ?_, hle, hexamined, hthen, htail.symm⟩
  show (s.ctx.cq.advance done).Holds k _
  rw [← List.drop_drop]
  exact hring.advance_drop (by
    rw [List.length_drop]
    omega)

theorem Inv.step {e : Event} (h : s.Inv k) (hst : Step queueFunc s e t) : t.Inv k := by
  cases e with
  | post cqe => exact h.post hst
  | call =>
    simp only [Step, Delivery.step] at hst
    split at hst
    · rename_i hs
      obtain rfl := Option.some.inj hst
      exact h.begin hs
    · cases hst
  | examine =>
    simp only [Step, Delivery.step] at hst
    split at hst
    · rename_i slot slots count hs
      obtain rfl := Option.some.inj hst
      exact h.examine hs
    · cases hst
  | finish =>
    simp only [Step, Delivery.step] at hst
    split at hst
    · rename_i count hs
      obtain rfl := Option.some.inj hst
      exact h.finish hs
    · cases hst

/-! ## Every event is examined once, and in order -/

/-- **In every state of every run, whatever the kernel posts in between, the events examined are
those posted, in order, and a call that is over has examined all up to the tail it has read.** -/
theorem everyEvent_delivered {l : List (Event × Delivery ρ)} (h0 : Init k s)
    (hr : Run (Step queueFunc) s l) : ∀ t ∈ states s l, t.Delivered := by
  have hinv : ∀ t ∈ states s l, Inv k t :=
    hr.invariant (C := fun _ _ => True) (fun _ _ _ hi _ hst => hi.step hst) h0.inv
      fun _ _ => trivial
  exact fun t ht => (hinv t ht).delivered

/-- Every call of a run reads the tail as it is then, after all that has been posted. -/
theorem everyCall_reads {l : List (Event × Delivery ρ)} (h0 : Init k s)
    (hr : Run (Step queueFunc) s l) :
    EachStep (fun x => x.2.1 = .call →
      x.2.2.tailRead = x.1.ctx.cq.cq.ktail ∧ x.2.2.postedThen = x.1.posted.length) s l := by
  refine hr.forall_steps (I := Inv k) (C := fun _ _ => True)
    (Q := fun u e t => e = .call →
      t.tailRead = u.ctx.cq.cq.ktail ∧ t.postedThen = u.posted.length)
    (fun u e t hi _ hst => ⟨hi.step hst, ?_⟩) h0.inv fun _ _ => trivial
  rintro rfl
  simp only [Step, Delivery.step] at hst
  split at hst
  · obtain rfl := Option.some.inj hst
    exact hi.begin_reads
  · cases hst

/-- A call goes on until it is over. -/
theorem Delivered.exists_step (h : s.Delivered) (hs : s.call ≠ .idle) :
    ∃ e t, (e = .examine ∨ e = .finish) ∧ Step queueFunc s e t := by
  cases hcall : s.call with
  | idle => exact absurd hcall hs
  | looping slots count =>
    cases slots with
    | nil => exact ⟨.finish, _, .inr rfl, by rw [Step, step, hcall]⟩
    | cons slot slots => exact ⟨.examine, _, .inl rfl, by rw [Step, step, hcall]⟩
  | panicked => exact absurd hcall h.noPanic

/-! ## A call that is not interrupted -/

/-- The body of the loop, for all the slots that are left. -/
theorem run_examine (slots : List ℕ) (count : ℕ) (hs : s.call = .looping slots count) :
    ∃ l, Run (Step queueFunc) s l ∧ (final s l).call = .looping [] count ∧
      ((final s l).captured, (final s l).ctx) =
        (slots.map s.ctx.cq.cq.cqes).foldl (IOContext.processCqe queueFunc)
          (s.captured, s.ctx) := by
  induction slots generalizing s with
  | nil => exact ⟨[], .nil s, hs, rfl⟩
  | cons slot slots ih =>
    have hcq : (s.examine queueFunc slot slots count).ctx.cq = s.ctx.cq :=
      IOContext.cq_processCqe _ _
    obtain ⟨l, hr, hend, hctx⟩ := @ih (s.examine queueFunc slot slots count) rfl
    refine ⟨(.examine, _) :: l, .cons (by rw [Step, step, hs]) hr, hend, ?_⟩
    rw [final_cons, hctx, hcq, List.map_cons, List.foldl_cons]
    rfl

/-- **A call that the kernel does not interrupt is `process_cqes`.** -/
theorem processCqes_eq {cqes : List Cqe} (h : s.ctx.cq.Holds k cqes) (hs : s.call = .idle) :
    ∃ l, Run (Step queueFunc) s l ∧ (final s l).call = .idle ∧
      s.ctx.processCqes queueFunc s.captured = .ok ((final s l).captured, (final s l).ctx) := by
  obtain ⟨ring, havail, hlen, hslots⟩ := h.available_intoIterMut
  obtain ⟨ring', havail', -, hiter⟩ := h.available_intoIter
  obtain rfl := Option.some.inj (havail.symm.trans havail')
  have hcqes : (Ring.window (2 ^ k) id s.ctx.cq.cq.khead.toNat cqes.length).map s.ctx.cq.cq.cqes =
      cqes := by
    rw [Ring.window, List.map_map]
    exact h.events
  have hbegin : s.begin.call = .looping
      (Ring.window (2 ^ k) id s.ctx.cq.cq.khead.toNat cqes.length) ring.len ∧
      s.begin.captured = s.captured ∧ s.begin.ctx = s.ctx := by
    simp only [begin, havail, hslots, and_self]
  obtain ⟨l, hr, hend, hctx⟩ := @run_examine _ queueFunc s.begin _ _ hbegin.1
  rw [hbegin.2.1, hbegin.2.2, hcqes] at hctx
  refine ⟨(.call, s.begin) :: (l ++ [(.finish, _)]), .cons (by rw [Step, step, hs])
    (Run.append_iff.2 ⟨hr, .cons (by rw [Step, step, hend]) (.nil _)⟩), ?_, ?_⟩
  · rw [final_cons, final_append]
    rfl
  · rw [final_cons, final_append, IOContext.processCqes, havail]
    simp only [hiter, ← hctx]
    rfl

/-! ## A head that is about to wrap -/

/-- Nothing is posted yet, and the counters are about to wrap. -/
def aboutToWrap : Delivery Unit where
  captured := ()
  ctx :=
    { World.emptyWorld.ctx with
      cq :=
        { cq := { khead := 2 ^ 32 - 1, ktail := 2 ^ 32 - 1, kringMask := 3
                  cqes := fun _ => ⟨0, 0, 0⟩ } } }
  call := .idle
  posted := []
  examined := []
  tailRead := 2 ^ 32 - 1
  postedThen := 0

/-- The second event is posted while the first is examined. -/
def postedMeanwhile : List Event :=
  [.post ⟨7, 0, 0⟩, .call, .post ⟨8, 0, 0⟩, .examine, .finish, .call, .examine, .finish]

theorem postedMeanwhile_delivered : Always Delivered aboutToWrap
    (play (step IOContext.pushWoken) aboutToWrap postedMeanwhile) :=
  everyEvent_delivered (k := 2) ⟨.nil (by decide) rfl rfl, rfl, rfl, rfl, rfl, rfl⟩
    (run_play _ _ _)

example : (final aboutToWrap
    (play (step IOContext.pushWoken) aboutToWrap postedMeanwhile)).examined =
      [⟨7, 0, 0⟩, ⟨8, 0, 0⟩] := by rfl

end Delivery

end Hamerkop
