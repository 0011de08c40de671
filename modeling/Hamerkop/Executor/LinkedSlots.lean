import Hamerkop.Lib.Runs
import Hamerkop.Uring.SubmissionQueue

/-!
# The submission slots of a `LinkedSubmitter`

What a `LinkedSubmitter` does to the submission ring: `linkSqe` fills the slot
`sqes().get_mut(count)` and `publish` closes the chain and advances over it.

`LinkedSlots` runs such sessions against a kernel that consumes published
entries from the head.  The counters only tell the distance between head and
tail modulo the ring size, so an exactly full ring looks empty.  As long as
every session leaves a slot free, no slot is handed out twice and every
published entry reaches the kernel as it was published
(`slotsOk_iff_leavesRoom`), and only as long as that.
-/

namespace Hamerkop

namespace SubmissionQueue

/-- What `submit_sqe` writes over an entry: `func` prepares it, then the user data and the link
flag are set. -/
def link (func : Sqe → Sqe) (cqid : UInt64) (sqe : Sqe) : Sqe :=
  ((func sqe).setUserData cqid).addFlags SubmissionFlags.IO_LINK

/-- `last.set_flags(last.flags() & !SubmissionFlags::IO_LINK)` -/
def unlink (sqe : Sqe) : Sqe :=
  sqe.setFlags (sqe.flags &&& SubmissionFlags.compl SubmissionFlags.IO_LINK)

@[simp] theorem link_userData (func : Sqe → Sqe) (cqid : UInt64) (sqe : Sqe) :
    (link func cqid sqe).userData = cqid := rfl

@[simp] theorem unlink_userData (sqe : Sqe) : (unlink sqe).userData = sqe.userData := rfl

/-- A chain with the link flag of its last entry cleared. -/
def closeChain : List Sqe → List Sqe
  | [] => []
  | [last] => [unlink last]
  | sqe :: next :: rest => sqe :: closeChain (next :: rest)

theorem closeChain_append (l : List Sqe) (last : Sqe) :
    closeChain (l ++ [last]) = l ++ [unlink last] := by
  induction l with
  | nil => rfl
  | cons sqe l ih =>
    cases l with
    | nil => rfl
    | cons next rest => exact congrArg (sqe :: ·) ih

/-- The slot that `sqes().get_mut(i)` points at. -/
def slotAt (q : SubmissionQueue) (i : ℕ) : Option ℕ := q.sqes.bind fun ring => ring.getMut i

/-- The part of `submit_sqe` that fills the slot it was given, if it was given one. -/
def linkSqe (q : SubmissionQueue) (count : ℕ) (func : Sqe → Sqe) (cqid : UInt64) :
    Option SubmissionQueue :=
  (q.slotAt count).map fun slot => q.writeSqe slot (link func cqid (q.sq.sqes slot))

/-- `LinkedSubmitter::submit` on the ring; `none` is the `unwrap` that fails. -/
def publish (q : SubmissionQueue) (count : ℕ) : Option SubmissionQueue :=
  if count ≠ 0 then
    (q.slotAt (count - 1)).map fun last =>
      (q.writeSqe last (unlink (q.sq.sqes last))).advance (UInt32.ofNat count)
  else
    some q

/-- The `count` entries the kernel finds behind the position `tail`. -/
def published (q : SubmissionQueue) (tail : UInt32) (count : ℕ) : List Sqe :=
  (List.range count).map fun i => q.sq.sqes ((tail.toNat + i) &&& q.sq.kringMask.toNat)

/-- The entries of the `n` positions from the counter `a` on. -/
def entriesFrom (q : SubmissionQueue) (k : ℕ) (a : UInt32) (n : ℕ) : List Sqe :=
  Ring.window (2 ^ k) q.sq.sqes a.toNat n

variable {q : SubmissionQueue} {k : ℕ}

theorem closeChain_window (data : ℕ → Sqe) {a n : ℕ} (h : n < 2 ^ k) :
    closeChain (Ring.window (2 ^ k) data a (n + 1)) = Ring.window (2 ^ k)
      (Function.update data ((a + n) % 2 ^ k) (unlink (data ((a + n) % 2 ^ k)))) a (n + 1) := by
  have hlast : Ring.window (2 ^ k) data a (n + 1) =
      Ring.window (2 ^ k) data a n ++ [data ((a + n) % 2 ^ k)] := by
    rw [Ring.window_add]
    simp [Ring.window]
  rw [hlast, Ring.window_push _ h]
  exact closeChain_append ..

theorem Sized.slotAt_iff_freeSqes (h : q.Sized k) {i slot : ℕ} :
    q.slotAt i = some slot ↔ i < q.freeSqes ∧ slot = (q.sq.ktail.toNat + i) % 2 ^ k := by
  rw [slotAt, h.getMut]
  split
  · simp
    omega
  · simp only [Option.some.injEq, eq_comm]
    exact ⟨fun hs => ⟨by omega, hs⟩, fun hs => hs.2⟩

theorem Sized.freeSqes_le (h : q.Sized k) : q.freeSqes ≤ 2 ^ k := by
  rw [h.freeSqes]
  omega

theorem Sized.lt_of_slotAt (h : q.Sized k) {i slot : ℕ} (hs : q.slotAt i = some slot) :
    i < 2 ^ k := (h.slotAt_iff_freeSqes.1 hs).1.trans_le h.freeSqes_le

/-- Filling the next slot leaves what the session has filled before. -/
theorem Sized.linkSqe_entriesFrom (h : q.Sized k) {n : ℕ} {func : Sqe → Sqe} {cqid : UInt64}
    {q' : SubmissionQueue} (hq : q.linkSqe n func cqid = some q') :
    n < 2 ^ k ∧ ∃ slot, q' = q.writeSqe slot (link func cqid (q.sq.sqes slot)) ∧
      q'.entriesFrom k q'.sq.ktail (n + 1) =
        q.entriesFrom k q.sq.ktail n ++ [link func cqid (q.sq.sqes slot)] := by
  obtain ⟨slot, hslot, rfl⟩ := Option.map_eq_some_iff.1 hq
  have hn := h.lt_of_slotAt hslot
  obtain ⟨-, rfl⟩ := h.slotAt_iff_freeSqes.1 hslot
  exact ⟨hn, _, rfl, Ring.window_push _ hn _⟩

/-- Publishing leaves the entries of the session behind the old tail, as a closed chain. -/
theorem Sized.published_eq (h : q.Sized k) {n : ℕ} {q' : SubmissionQueue}
    (hq : q.publish n = some q') :
    q'.Sized k ∧ q'.published q.sq.ktail n = closeChain (q.entriesFrom k q.sq.ktail n) := by
  have hpub : ∀ p : SubmissionQueue, p.Sized k → p.published q.sq.ktail n =
      Ring.window (2 ^ k) p.sq.sqes q.sq.ktail.toNat n := fun p hp => by
    simp only [published, Ring.window, Ring.and_mask_eq_mod hp.mask]
  cases n with
  | zero =>
    obtain rfl : q = q' := by simpa [publish] using hq
    exact ⟨h, rfl⟩
  | succ n =>
    simp only [publish, ne_eq, Nat.add_eq_zero_iff, one_ne_zero, and_false,
      not_false_eq_true, if_true, Nat.add_sub_cancel, Option.map_eq_some_iff] at hq
    obtain ⟨slot, hslot, rfl⟩ := hq
    have hn := h.lt_of_slotAt hslot
    obtain ⟨-, rfl⟩ := h.slotAt_iff_freeSqes.1 hslot
    have hsized := (h.writeSqe ((q.sq.ktail.toNat + n) % 2 ^ k)
      (unlink (q.sq.sqes ((q.sq.ktail.toNat + n) % 2 ^ k)))).advance (UInt32.ofNat (n + 1))
    refine ⟨hsized, ?_⟩
    rw [hpub _ hsized, entriesFrom]
    exact (closeChain_window _ hn).symm

/-- Less than a full ring of published entries: `get_mut` hands out the slots behind the tail,
as many as are left. -/
theorem Sized.slotAt_eq_some (h : q.Sized k) (hroom : q.unconsumed < 2 ^ k) {i slot : ℕ} :
    q.slotAt i = some slot ↔
      q.unconsumed + i < 2 ^ k ∧ slot = (q.sq.ktail.toNat + i) % 2 ^ k := by
  rw [h.slotAt_iff_freeSqes, h.freeSqes, Nat.mod_eq_of_lt hroom]
  refine and_congr_left fun _ => ?_
  omega

theorem tail_toNat (q : SubmissionQueue) :
    q.sq.ktail.toNat = (q.sq.khead.toNat + q.unconsumed) % 2 ^ 32 := by
  rw [unconsumed, ← UInt32.toNat_add, UInt32.add_comm, UInt32.sub_add_cancel]

theorem Sized.tail_slot (h : q.Sized k) (i : ℕ) :
    (q.sq.ktail.toNat + i) % 2 ^ k = (q.sq.khead.toNat + q.unconsumed + i) % 2 ^ k := by
  rw [tail_toNat]
  exact Ring.slot_wrap (Ring.two_pow_dvd h.lt.le) ..

/-- The entries behind the tail, counted from the head. -/
theorem Sized.entries_tail (h : q.Sized k) (n : ℕ) :
    q.entriesFrom k q.sq.ktail n =
      Ring.window (2 ^ k) q.sq.sqes (q.sq.khead.toNat + q.unconsumed) n := by
  rw [entriesFrom, tail_toNat, Ring.window_wrap (Ring.two_pow_dvd h.lt.le)]

/-- Advancing adds to what the kernel has to consume, as long as a `u32` can count it. -/
theorem unconsumed_advance (q : SubmissionQueue) {n : ℕ} (h : q.unconsumed + n < 2 ^ 32) :
    (q.advance (UInt32.ofNat n)).unconsumed = q.unconsumed + n := by
  have hmove : q.sq.ktail + UInt32.ofNat n - q.sq.khead =
      q.sq.ktail - q.sq.khead + UInt32.ofNat n := by
    rw [UInt32.sub_eq_add_neg, UInt32.add_assoc, UInt32.add_comm (UInt32.ofNat n),
      ← UInt32.add_assoc, ← UInt32.sub_eq_add_neg]
  show (q.sq.ktail + UInt32.ofNat n - q.sq.khead).toNat = _
  rw [hmove, UInt32.toNat_add, UInt32.toNat_ofNat', Nat.mod_eq_of_lt (a := n) (by omega)]
  exact Nat.mod_eq_of_lt h

theorem unconsumed_consume (q : SubmissionQueue) {c : UInt32} (h : c.toNat ≤ q.unconsumed) :
    (q.consume c).unconsumed = q.unconsumed - c.toNat := by
  have hmove : q.sq.ktail - (q.sq.khead + c) = q.sq.ktail - q.sq.khead - c := by grind
  show (q.sq.ktail - (q.sq.khead + c)).toNat = _
  rw [hmove, UInt32.toNat_sub_of_le _ _ (UInt32.le_iff_toNat_le.2 h), unconsumed]

end SubmissionQueue

/-! ## Sessions against the kernel -/

namespace LinkedSlots

open Runs SubmissionQueue

/-- An open session: its `count`, and what it wrote into its slots. -/
structure Session where
  count : ℕ
  linked : List Sqe

/-- The ring, the open session, and the entries published and not consumed. -/
structure State where
  q : SubmissionQueue
  session : Option Session
  /-- the published entries that the kernel has not consumed, as they were published -/
  published : List Sqe

/-- What a session or the kernel does to the slots. -/
inductive Event where
  | openSession
  | fill (func : Sqe → Sqe) (cqid : UInt64)
  | submit
  | abandon
  | consume (count : UInt32)

/-- The next state, if the event can happen. -/
def step (s : State) : Event → Option State
  | .openSession =>
    if s.session.isNone then some { s with session := some { count := 0, linked := [] } } else none
  | .fill func cqid => s.session.bind fun o =>
    -- the assertion that the chain is no longer than the queue
    if o.count = s.q.queueSize then none
    else
      (s.q.slotAt o.count).bind fun slot => (s.q.linkSqe o.count func cqid).map fun q =>
        { s with
          q
          session := some
            { count := o.count + 1, linked := o.linked ++ [link func cqid (s.q.sq.sqes slot)] } }
  | .submit => s.session.bind fun o => (s.q.publish o.count).map fun q =>
    { q, session := none, published := s.published ++ closeChain o.linked }
  | .abandon => s.session.map fun _ => { s with session := none }
  | .consume count =>
    if count.toNat ≤ s.q.unconsumed then
      some { s with q := s.q.consume count, published := s.published.drop count.toNat }
    else
      none

/-- A step of the ring and its session. -/
def Step (s : State) (e : Event) (t : State) : Prop := step s e = some t

/-- An empty ring of `2 ^ k` entries. -/
structure Init (k : ℕ) (s : State) : Prop where
  sized : s.q.Sized k
  head : s.q.sq.khead = s.q.sq.ktail
  session : s.session = none
  published : s.published = []

/-- The queue tells its free slots apart from those the kernel has yet to read. -/
structure SlotsOk (k : ℕ) (s : State) : Prop where
  freeSqes : s.q.freeSqes + s.q.unconsumed = 2 ^ k
  sqes : ∃ ring, s.q.sqes = some ring ∧ ring.len + s.q.unconsumed = 2 ^ k
  disjoint : ∀ i slot, s.q.slotAt i = some slot → ∀ j < s.q.unconsumed,
    slot ≠ (s.q.sq.khead.toNat + j) &&& s.q.sq.kringMask.toNat
  intact : s.published = s.q.entriesFrom k s.q.sq.khead s.q.unconsumed

/-- A session that is submitted leaves a slot of the ring free. -/
def LeavesRoom (k : ℕ) (s : State) : Event → Prop
  | .submit => ∀ o, s.session = some o → s.q.unconsumed + o.count < 2 ^ k
  | _ => True

/-- What holds of the slots as long as every session leaves one free. -/
structure Inv (k : ℕ) (s : State) : Prop where
  sized : s.q.Sized k
  room : s.q.unconsumed < 2 ^ k
  published : s.published = s.q.entriesFrom k s.q.sq.khead s.q.unconsumed
  session : ∀ o, s.session = some o →
    s.q.unconsumed + o.count ≤ 2 ^ k ∧ o.linked = s.q.entriesFrom k s.q.sq.ktail o.count

variable {k : ℕ} {s t : State}

theorem Init.inv (h : Init k s) : Inv k s := by
  have hzero : s.q.unconsumed = 0 := by
    rw [unconsumed, h.head, UInt32.sub_self]
    rfl
  refine ⟨h.sized, ?_, ?_, ?_⟩
  · rw [hzero]
    positivity
  · rw [hzero, h.published]
    rfl
  · intro o ho
    rw [h.session] at ho
    cases ho

theorem Inv.slotsOk (h : Inv k s) : SlotsOk k s := by
  have hfree : s.q.freeSqes + s.q.unconsumed = 2 ^ k := by
    rw [h.sized.freeSqes, Nat.mod_eq_of_lt h.room, Nat.sub_add_cancel h.room.le]
  refine ⟨hfree, ⟨_, h.sized.sqes, hfree⟩, ?_, h.published⟩
  intro i slot hslot j hj
  obtain ⟨hfit, rfl⟩ := (h.sized.slotAt_eq_some h.room).1 hslot
  rw [Ring.and_mask_eq_mod h.sized.mask, h.sized.tail_slot]
  exact Ring.slot_ne_of_adjacent hj hfit

/-! ## What each step keeps -/

theorem Inv.openSession (h : Inv k s) : Inv k { s with session := some ⟨0, []⟩ } := by
  refine ⟨h.sized, h.room, h.published, ?_⟩
  rintro o ho
  obtain rfl := Option.some.inj ho
  exact ⟨h.room.le, rfl⟩

theorem Inv.abandon (h : Inv k s) : Inv k { s with session := none } :=
  ⟨h.sized, h.room, h.published, fun _ ho => by cases ho⟩

theorem Inv.consume (h : Inv k s) {c : UInt32} (hc : c.toNat ≤ s.q.unconsumed) :
    Inv k { s with q := s.q.consume c, published := s.published.drop c.toNat } := by
  have hun := unconsumed_consume s.q hc
  have hhead : (s.q.consume c).sq.khead.toNat = (s.q.sq.khead.toNat + c.toNat) % 2 ^ 32 :=
    UInt32.toNat_add ..
  have hroom := h.room
  refine ⟨h.sized.consume c, ?_, ?_, ?_⟩
  · show (s.q.consume c).unconsumed < 2 ^ k
    omega
  · show s.published.drop c.toNat = (s.q.consume c).entriesFrom k _ (s.q.consume c).unconsumed
    rw [h.published, entriesFrom, entriesFrom, Ring.window_drop _ hc, hun, hhead,
      Ring.window_wrap (Ring.two_pow_dvd h.sized.lt.le)]
    rfl
  · intro o ho
    obtain ⟨hle, hlinked⟩ := h.session o ho
    refine ⟨?_, hlinked⟩
    show (s.q.consume c).unconsumed + o.count ≤ 2 ^ k
    omega

/-- Filling a slot behind the tail touches neither what is published nor what the session has
filled already. -/
theorem Inv.fill (h : Inv k s) {o : Session} (ho : s.session = some o) {slot : ℕ}
    (hslot : s.q.slotAt o.count = some slot) (sqe : Sqe) :
    Inv k { s with
            q := s.q.writeSqe slot sqe
            session := some { count := o.count + 1, linked := o.linked ++ [sqe] } } := by
  obtain ⟨-, hlinked⟩ := h.session o ho
  obtain ⟨hfit, rfl⟩ := (h.sized.slotAt_eq_some h.room).1 hslot
  refine ⟨h.sized.writeSqe _ _, h.room, ?_, ?_⟩
  · show s.published = Ring.window _ (Function.update _ _ _) _ _
    rw [h.published, h.sized.tail_slot]
    exact (Ring.window_update_of_ne fun j hj => (Ring.slot_ne_of_adjacent hj hfit).symm).symm
  · rintro o' ho'
    obtain rfl := Option.some.inj ho'
    refine ⟨by show s.q.unconsumed + (o.count + 1) ≤ 2 ^ k; omega, ?_⟩
    show o.linked ++ [sqe] = Ring.window (2 ^ k) (Function.update s.q.sq.sqes _ sqe)
      s.q.sq.ktail.toNat (o.count + 1)
    rw [hlinked, Ring.window_push _ (by omega), entriesFrom]

/-- What a session publishes comes to lie right behind what is published already. -/
theorem Inv.publish (h : Inv k s) {o : Session} (ho : s.session = some o) {q : SubmissionQueue}
    (hq : s.q.publish o.count = some q) :
    q.Sized k ∧ q.unconsumed = s.q.unconsumed + o.count ∧
      s.published ++ closeChain o.linked = q.entriesFrom k q.sq.khead q.unconsumed := by
  obtain ⟨hfits, hlinked⟩ := h.session o ho
  have hlt := h.sized.two_pow_lt
  obtain ⟨count, linked⟩ := o
  cases count with
  | zero =>
    obtain rfl : s.q = q := by simpa [SubmissionQueue.publish] using hq
    refine ⟨h.sized, rfl, ?_⟩
    have hnil : linked = [] := hlinked
    simp [hnil, closeChain, h.published]
  | succ n =>
    simp only [SubmissionQueue.publish, ne_eq, Nat.add_eq_zero_iff, one_ne_zero, and_false,
      not_false_eq_true, if_true, Nat.add_sub_cancel, Option.map_eq_some_iff] at hq
    obtain ⟨slot, hslot, rfl⟩ := hq
    obtain ⟨hfit, rfl⟩ := (h.sized.slotAt_eq_some h.room).1 hslot
    have hun := unconsumed_advance (s.q.writeSqe ((s.q.sq.ktail.toNat + n) % 2 ^ k)
      (unlink (s.q.sq.sqes ((s.q.sq.ktail.toNat + n) % 2 ^ k)))) (n := n + 1)
      (show s.q.unconsumed + (n + 1) < 2 ^ 32 by omega)
    refine ⟨(h.sized.writeSqe _ _).advance _, hun, ?_⟩
    have hlinked' : linked = s.q.entriesFrom k s.q.sq.ktail (n + 1) := hlinked
    rw [hun, hlinked', h.sized.entries_tail, closeChain_window _ (by omega), h.published]
    show _ = Ring.window (2 ^ k) (Function.update s.q.sq.sqes _ _) s.q.sq.khead.toNat
      (s.q.unconsumed + (n + 1))
    rw [Ring.window_add _ _ s.q.unconsumed, h.sized.tail_slot,
      Ring.window_update_of_ne fun j hj => (Ring.slot_ne_of_adjacent hj hfit).symm, entriesFrom]

/-! ## Exactness -/

theorem good_step (s : State) (e : Event) (t : State) (hi : Inv k s) (hc : LeavesRoom k s e)
    (hst : Step s e t) : Inv k t := by
  cases e with
  | openSession =>
    obtain ⟨-, hst⟩ := Option.ite_none_right_eq_some.1 hst
    obtain rfl := Option.some.inj hst
    exact hi.openSession
  | fill func cqid =>
    obtain ⟨o, ho, hst⟩ := Option.bind_eq_some_iff.1 hst
    obtain ⟨-, hst⟩ := Option.ite_none_left_eq_some.1 hst
    obtain ⟨slot, hslot, hst⟩ := Option.bind_eq_some_iff.1 hst
    rw [linkSqe, hslot, Option.map_some, Option.map_some, Option.some.injEq] at hst
    obtain rfl := hst
    exact hi.fill ho hslot _
  | submit =>
    obtain ⟨o, ho, hst⟩ := Option.bind_eq_some_iff.1 hst
    obtain ⟨q, hq, rfl⟩ := Option.map_eq_some_iff.1 hst
    obtain ⟨hsized, hun, hpub⟩ := hi.publish ho hq
    exact ⟨hsized, hun ▸ hc o ho, hpub, fun _ ho' => by cases ho'⟩
  | abandon =>
    obtain ⟨_, -, rfl⟩ := Option.map_eq_some_iff.1 hst
    exact hi.abandon
  | consume count =>
    obtain ⟨hc, hst⟩ := Option.ite_none_right_eq_some.1 hst
    obtain rfl := Option.some.inj hst
    exact hi.consume hc

/-- A session that fills the ring to the last slot makes it look empty. -/
theorem bad_step (s : State) (e : Event) (t : State) (hi : Inv k s) (hc : ¬ LeavesRoom k s e)
    (hst : Step s e t) : ¬ SlotsOk k t := by
  cases e with
  | submit =>
    obtain ⟨o, ho, hst⟩ := Option.bind_eq_some_iff.1 hst
    obtain ⟨q, hq, rfl⟩ := Option.map_eq_some_iff.1 hst
    obtain ⟨hsized, hun, -⟩ := hi.publish ho hq
    have hfull : q.unconsumed = 2 ^ k := by
      have hle := (hi.session o ho).1
      have hge : ¬ s.q.unconsumed + o.count < 2 ^ k := fun hlt => hc fun o' ho' => by
        obtain rfl := Option.some.inj (ho.symm.trans ho')
        exact hlt
      omega
    intro hok
    have hfree : q.freeSqes + q.unconsumed = 2 ^ k := hok.freeSqes
    rw [hsized.freeSqes, hfull, Nat.mod_self] at hfree
    have hpos : 0 < 2 ^ k := by positivity
    omega
  | openSession => exact absurd trivial hc
  | fill func cqid => exact absurd trivial hc
  | abandon => exact absurd trivial hc
  | consume count => exact absurd trivial hc

/-- **When submission slots are never handed out twice.**  In a run from an empty ring of `2 ^ k`
entries, every state knows its free slots, hands out none that holds a published entry the kernel
has yet to consume and has left those entries as they were published, iff every session that is
submitted leaves a slot of the ring free. -/
theorem slotsOk_iff_leavesRoom {l : List (Event × State)} (h0 : Init k s) (hr : Run Step s l) :
    (∀ u ∈ states s l, SlotsOk k u) ↔ ∀ x ∈ steps s l, LeavesRoom k x.1 x.2.1 :=
  hr.forall_states_iff good_step (fun _ => Inv.slotsOk) bad_step h0.inv

/-! ## A ring of two entries -/

/-- An empty ring of two entries. -/
def emptyState : State where
  q :=
    { sq :=
        { khead := 0, ktail := 0, kringMask := 1, kringEntries := 2, kflags := 0
          sqes := fun _ => {}, sqeTail := 0 }
      flags := 0 }
  session := none
  published := []

theorem emptyState_init : Init 1 emptyState := ⟨⟨by decide, rfl, rfl⟩, rfl, rfl, rfl⟩

/-- A session of one entry. -/
def oneEntry : List Event := [.openSession, .fill id 7, .submit]

theorem oneEntry_slotsOk :
    Always (SlotsOk 1) emptyState (play step emptyState oneEntry) := by
  refine (slotsOk_iff_leavesRoom emptyState_init (run_play ..)).2 fun x hx => ?_
  rcases List.mem_cons.1 hx with rfl | hx
  · trivial
  rcases List.mem_cons.1 hx with rfl | hx
  · trivial
  obtain rfl := List.mem_singleton.1 hx
  intro o ho
  obtain rfl := Option.some.inj ho
  decide

/-- A session that fills both entries. -/
def twoEntries : List Event := [.openSession, .fill id 7, .fill id 8, .submit]

/-- **A full ring is taken for an empty one**, so not every run keeps its slots apart. -/
theorem twoEntries_not_slotsOk :
    ¬ ∀ (k : ℕ) (s : State) (l : List (Event × State)), Init k s → Run Step s l →
      ∀ u ∈ states s l, SlotsOk k u := by
  intro h
  have hok := h 1 emptyState _ emptyState_init (run_play step emptyState twoEntries)
    (final emptyState (play step emptyState twoEntries)) (final_mem_states ..)
  exact absurd hok.freeSqes (by decide)

end LinkedSlots

end Hamerkop
