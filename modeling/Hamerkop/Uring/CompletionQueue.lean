import Hamerkop.Uring.RingBuf
import Hamerkop.Uring.Sqe

/-!
# `CompletionQueue`

The completion side of `uring/src/cqe.rs`: the kernel posts events at `ktail`,
the process takes what lies between `khead` and `ktail` and hands the slots back
with `advance`.  `Holds` says which events lie there; `Holds.post` and
`Holds.advance` follow them through both sides.
-/

namespace Hamerkop

/-- `detail::io_uring_cq`, less what only the set-up uses. -/
structure IoUringCq where
  khead : UInt32
  ktail : UInt32
  kringMask : UInt32
  cqes : ℕ → Cqe

/-- The completion queue of a ring. -/
structure CompletionQueue where
  cq : IoUringCq

namespace CompletionQueue

/-- The events available; `none` is a failed assertion of `RingBufMut::new`. -/
def available (q : CompletionQueue) : Option (RingBuf Cqe) :=
  RingBuf.new q.cq.cqes (q.cq.khead &&& q.cq.kringMask).toNat (q.cq.ktail - q.cq.khead).toNat
    q.cq.kringMask.toNat

/-- `advance(count)`: the events are seen. -/
def advance (q : CompletionQueue) (count : ℕ) : CompletionQueue :=
  { q with cq := { q.cq with khead := q.cq.khead + UInt32.ofNat count } }

/-- `has_next()`, which compares the counters as they are. -/
def hasNext (q : CompletionQueue) : Bool := decide (q.cq.khead < q.cq.ktail)

/-- The kernel posts an event. -/
def post (q : CompletionQueue) (cqe : Cqe) : CompletionQueue :=
  { q with cq :=
    { q.cq with
      ktail := q.cq.ktail + 1
      cqes := Function.update q.cq.cqes (q.cq.ktail &&& q.cq.kringMask).toNat cqe } }

/-- A ring of `2 ^ k` slots in which the events of `l` are waiting, oldest first. -/
structure Holds (q : CompletionQueue) (k : ℕ) (l : List Cqe) : Prop where
  lt : k < 32
  mask : q.cq.kringMask.toNat = 2 ^ k - 1
  count : (q.cq.ktail - q.cq.khead).toNat = l.length
  fits : l.length ≤ 2 ^ k
  events : Ring.window (2 ^ k) q.cq.cqes q.cq.khead.toNat l.length = l

variable {q : CompletionQueue} {k : ℕ} {l : List Cqe}

theorem Holds.toNat_and_mask (h : q.Holds k l) (a : UInt32) :
    (a &&& q.cq.kringMask).toNat = a.toNat % 2 ^ k := by
  rw [UInt32.toNat_and, Ring.and_mask_eq_mod h.mask]

/-- The slot the next event is posted to, counted from the head. -/
theorem Holds.tail_slot (h : q.Holds k l) :
    q.cq.ktail.toNat % 2 ^ k = (q.cq.khead.toNat + l.length) % 2 ^ k := by
  have htail : q.cq.ktail = q.cq.khead + (q.cq.ktail - q.cq.khead) := by
    rw [UInt32.add_comm, UInt32.sub_add_cancel]
  rw [htail, UInt32.toNat_add, Nat.mod_mod_of_dvd _ (Ring.two_pow_dvd h.lt.le), h.count]

/-- **Iterating `available` yields exactly the waiting events, in order.** -/
theorem Holds.available_intoIter (h : q.Holds k l) :
    ∃ ring, q.available = some ring ∧ ring.len = l.length ∧ ring.intoIter = some l := by
  have hnew := RingBuf.new_eq_some q.cq.cqes (q.cq.khead &&& q.cq.kringMask).toNat h.mask
    (h.count.trans_le h.fits)
  refine ⟨_, hnew, h.count, ?_⟩
  rw [RingBuf.intoIter_eq (k := k) h.mask]
  · rw [h.toNat_and_mask, Ring.window_wrap (dvd_refl _), h.count, h.events]
  · rw [h.toNat_and_mask]
    exact Nat.mod_lt _ (by positivity)
  · exact h.count.trans_le h.fits

theorem Holds.post (h : q.Holds k l) (hfull : l.length < 2 ^ k) (cqe : Cqe) :
    (q.post cqe).Holds k (l ++ [cqe]) := by
  have hlt : 2 ^ k < 2 ^ 32 := Nat.pow_lt_pow_right (by omega) h.lt
  refine ⟨h.lt, h.mask, ?_, ?_, ?_⟩
  · show (q.cq.ktail + 1 - q.cq.khead).toNat = _
    rw [UInt32.sub_eq_add_neg, UInt32.add_assoc, UInt32.add_comm 1,
      ← UInt32.add_assoc, ← UInt32.sub_eq_add_neg, UInt32.toNat_add,
      h.count, UInt32.toNat_one, Nat.mod_eq_of_lt (by omega), List.length_append,
      List.length_singleton]
  · simpa using hfull
  · show Ring.window _ (Function.update q.cq.cqes (q.cq.ktail &&& q.cq.kringMask).toNat cqe)
      q.cq.khead.toNat (l ++ [cqe]).length = _
    rw [h.toNat_and_mask, h.tail_slot, List.length_append, List.length_singleton,
      Ring.window_push _ hfull, h.events]

theorem Holds.advance (h : q.Holds k l) : (q.advance l.length).Holds k [] := by
  refine ⟨h.lt, h.mask, ?_, Nat.zero_le _, rfl⟩
  show (q.cq.ktail - (q.cq.khead + UInt32.ofNat l.length)).toNat = 0
  have hcount : UInt32.ofNat l.length = q.cq.ktail - q.cq.khead := by
    rw [← h.count, UInt32.ofNat_toNat]
  rw [hcount, UInt32.add_comm, UInt32.sub_add_cancel, UInt32.sub_self, UInt32.toNat_zero]

/-- One event is handed back. -/
theorem Holds.advance_one {cqe : Cqe} (h : q.Holds k (cqe :: l)) : (q.advance 1).Holds k l := by
  have hcount := h.count
  have hfits := h.fits
  rw [List.length_cons] at hcount hfits
  have hsub : q.cq.ktail - (q.cq.khead + 1) = q.cq.ktail - q.cq.khead - 1 := by
    rw [UInt32.sub_eq_add_neg, UInt32.neg_add, UInt32.sub_eq_add_neg (-q.cq.khead),
      ← UInt32.add_assoc, ← UInt32.sub_eq_add_neg, ← UInt32.sub_eq_add_neg]
  refine ⟨h.lt, h.mask, ?_, by omega, ?_⟩
  · show (q.cq.ktail - (q.cq.khead + 1)).toNat = _
    have hle : 1 ≤ q.cq.ktail - q.cq.khead := by
      rw [UInt32.le_iff_toNat_le, hcount]
      simp
    rw [hsub, UInt32.toNat_sub_of_le _ _ hle, hcount]
    simp
  · show Ring.window _ q.cq.cqes (q.cq.khead + 1).toNat l.length = l
    have htail := congrArg (List.drop 1) h.events
    rw [Ring.window_drop _ (by simp), List.length_cons, Nat.add_sub_cancel] at htail
    rw [UInt32.toNat_add, Ring.window_wrap (Ring.two_pow_dvd h.lt.le)]
    exact htail

theorem advance_zero (q : CompletionQueue) : q.advance 0 = q := by
  simp [advance]

theorem advance_advance (q : CompletionQueue) (m n : ℕ) :
    (q.advance m).advance n = q.advance (m + n) := by
  simp only [advance, UInt32.ofNat_add, UInt32.add_assoc]

/-- The oldest `n` events are handed back. -/
theorem Holds.advance_drop (h : q.Holds k l) {n : ℕ} (hn : n ≤ l.length) :
    (q.advance n).Holds k (l.drop n) := by
  induction n with
  | zero =>
    rw [advance_zero]
    exact h
  | succ n ih =>
    have hrest := ih (by omega)
    rw [List.drop_eq_getElem_cons (by omega)] at hrest
    rw [← advance_advance]
    exact hrest.advance_one

/-- A ring that holds nothing. -/
theorem Holds.nil (hlt : k < 32) (hmask : q.cq.kringMask.toNat = 2 ^ k - 1)
    (h : q.cq.khead = q.cq.ktail) : q.Holds k [] :=
  ⟨hlt, hmask, by rw [h, UInt32.sub_self]; rfl, Nat.zero_le _, rfl⟩

/-- An event is seen by `has_next` as long as the counters have not wrapped. -/
theorem Holds.hasNext (h : q.Holds k l) (hwrap : q.cq.khead.toNat + l.length < 2 ^ 32) :
    q.hasNext = true ↔ l ≠ [] := by
  have htail : q.cq.ktail = q.cq.khead + (q.cq.ktail - q.cq.khead) := by
    rw [UInt32.add_comm, UInt32.sub_add_cancel]
  rw [CompletionQueue.hasNext, decide_eq_true_iff, UInt32.lt_iff_toNat_lt, htail,
    UInt32.toNat_add, h.count, Nat.mod_eq_of_lt hwrap, ← List.length_pos_iff]
  omega

end CompletionQueue

end Hamerkop
