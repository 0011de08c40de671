import Hamerkop.Uring.ReadyCheck
import Hamerkop.Uring.SubmissionQueue

/-!
# Iterating the windows of the rings

`get` masks the sum of offset and index; the iterators split the memory of the ring
at the offset.  `CompletionQueue::available` masks the offset it passes,
`SubmissionQueue::sqes` passes the tail as it is.

`windowsIterate_iff` says what comes of it: iterating a window of the completion ring
is always the same as indexing it, and iterating a window of the submission ring is
exactly if the tail is inside the first lap, or at its end with some entry taken.
Further on the iterators panic (`fifthTail_not_iterates`).
-/

namespace Hamerkop

namespace RingBuf

variable {T : Type}

/-- The slots that the mutable iterator yields references to. -/
def intoIterMut (b : RingBuf T) : Option (List ℕ) := ({ b with data := id } : RingBuf ℕ).intoIter

/-- Both iterators yield what indexing yields, in order, and no slot twice. -/
structure IteratesLikeGet (b : RingBuf T) : Prop where
  shared : ∃ items, b.intoIter = some items ∧ items.map some = (List.range b.len).map b.get
  mutable : ∃ slots, b.intoIterMut = some slots ∧
    slots.map some = (List.range b.len).map b.getMut ∧ slots.Nodup

variable {b : RingBuf T} {k : ℕ}

/-- Indexing a window reads it position by position. -/
theorem map_get (hmask : b.mask = 2 ^ k - 1) :
    (List.range b.len).map b.get =
      (Ring.window (2 ^ k) b.data b.offset b.size).map some := by
  rw [Ring.window, List.map_map]
  refine List.map_congr_left fun i hi => ?_
  have hlt : i < b.len := List.mem_range.1 hi
  rw [get, if_neg (by omega), slotOf, Ring.and_mask_eq_mod hmask]
  rfl

theorem map_getMut (b : RingBuf T) :
    (List.range b.len).map b.getMut =
      (List.range b.len).map ({ b with data := id } : RingBuf ℕ).get := rfl

/-- No slot is in a window twice that is no longer than the ring. -/
theorem nodup_window {a n : ℕ} (hn : n ≤ 2 ^ k) : (Ring.window (2 ^ k) id a n).Nodup := by
  refine List.Nodup.map_on (fun i hi j hj heq => ?_) List.nodup_range
  rw [List.mem_range] at hi hj
  exact Ring.slot_inj (by omega) (by omega) heq

/-- An iterator that yields the window is as good as indexing. -/
theorem iteratesLikeGet_of_window (hmask : b.mask = 2 ^ k - 1) (hsize : b.size ≤ 2 ^ k)
    (hiter : b.intoIter = some (Ring.window (2 ^ k) b.data b.offset b.size))
    (hmut : b.intoIterMut = some (Ring.window (2 ^ k) id b.offset b.size)) :
    b.IteratesLikeGet := by
  refine ⟨⟨_, hiter, (map_get hmask).symm⟩, ⟨_, hmut, ?_, nodup_window hsize⟩⟩
  rw [map_getMut]
  exact (map_get (b := { b with data := id }) hmask).symm

theorem iteratesLikeGet_of_lt (hmask : b.mask = 2 ^ k - 1) (hoff : b.offset < 2 ^ k)
    (hsize : b.size ≤ 2 ^ k) : b.IteratesLikeGet :=
  iteratesLikeGet_of_window hmask hsize (intoIter_eq hmask hoff hsize)
    (intoIter_eq (b := { b with data := id }) hmask hoff hsize)

/-! ## Offsets at the end of the ring and behind it -/

/-- At the end of the ring only the second slice is left. -/
theorem intoIter_of_eq (hmask : b.mask = 2 ^ k - 1) (hoff : b.offset = 2 ^ k) :
    b.intoIter = some (Ring.window (2 ^ k) b.data b.offset (b.size % 2 ^ k)) := by
  have hpos : 0 < 2 ^ k := by positivity
  have hN : b.mask + 1 = 2 ^ k := by omega
  have hlen : b.backing.length = 2 ^ k := by simp [backing, hN]
  have hlt : b.size % 2 ^ k < 2 ^ k := Nat.mod_lt _ hpos
  have hmod : (b.offset + b.size) % 2 ^ k = b.size % 2 ^ k := by rw [hoff, Nat.add_mod_left]
  have hne : ¬ b.size % 2 ^ k = b.offset + b.size := by omega
  have htake : b.backing.take b.offset = b.backing := List.take_of_length_le (by omega)
  have hdrop : b.backing.drop b.offset = [] := List.drop_of_length_le (by omega)
  have hstart : Ring.window (2 ^ k) b.data b.offset (b.size % 2 ^ k) =
      Ring.window (2 ^ k) b.data 0 (b.size % 2 ^ k) :=
    Ring.window_congr_start b.data (by rw [hoff, Nat.mod_self, Nat.zero_mod]) _
  rw [intoIter, Ring.and_mask_eq_mod hmask, hmod, if_neg hne, splitAt_eq_some (by omega),
    Option.bind_some]
  show (sliceRange (b.backing.take b.offset) 0 (b.size % 2 ^ k)).map _ = _
  rw [htake, hdrop, sliceRange_eq_some (Nat.zero_le _) (by omega), List.drop_zero,
    Option.map_some, List.nil_append, hstart, Ring.window_eq_of_le b.data (by omega),
    Nat.zero_add, List.drop_zero, backing, hN]

theorem iteratesLikeGet_of_eq (hmask : b.mask = 2 ^ k - 1) (hoff : b.offset = 2 ^ k)
    (hsize : b.size < 2 ^ k) : b.IteratesLikeGet := by
  have hmod := Nat.mod_eq_of_lt hsize
  refine iteratesLikeGet_of_window hmask hsize.le ?_ ?_
  · rw [intoIter_of_eq hmask hoff, hmod]
  · rw [intoIterMut, intoIter_of_eq (b := { b with data := id }) hmask hoff]
    exact congrArg (fun n => some (Ring.window (2 ^ k) id b.offset n)) hmod

/-- A window of the whole ring at its end yields nothing. -/
theorem not_iteratesLikeGet_of_eq (hmask : b.mask = 2 ^ k - 1) (hoff : b.offset = 2 ^ k)
    (hsize : b.size = 2 ^ k) : ¬ b.IteratesLikeGet := by
  rintro ⟨⟨items, hiter, hget⟩, -⟩
  rw [intoIter_of_eq hmask hoff, hsize, Nat.mod_self, Ring.window_zero,
    Option.some.injEq] at hiter
  have hlen := congrArg List.length hget
  rw [← hiter, List.length_map, List.length_map, List.length_range, len, hsize,
    List.length_nil] at hlen
  have hpos : 0 < 2 ^ k := by positivity
  omega

/-- Behind the ring, splitting its memory panics. -/
theorem intoIter_of_gt (hmask : b.mask = 2 ^ k - 1) (hoff : 2 ^ k < b.offset) :
    b.intoIter = none := by
  have hpos : 0 < 2 ^ k := by positivity
  have hlen : b.backing.length = 2 ^ k := by
    simp only [backing, List.length_map, List.length_range]
    omega
  have hlt : (b.offset + b.size) % 2 ^ k < 2 ^ k := Nat.mod_lt _ hpos
  rw [intoIter, Ring.and_mask_eq_mod hmask, if_neg (by omega), splitAt, if_neg (by omega)]
  rfl

theorem not_iteratesLikeGet_of_gt (hmask : b.mask = 2 ^ k - 1) (hoff : 2 ^ k < b.offset) :
    ¬ b.IteratesLikeGet := by
  rintro ⟨⟨items, hiter, -⟩, -⟩
  rw [intoIter_of_gt hmask hoff] at hiter
  cases hiter

end RingBuf

/-! ## The windows of the two rings -/

/-- Iterating the windows that `sqes` and `available` return is the same as indexing them. -/
structure WindowsIterate (sq : SubmissionQueue) (cq : CompletionQueue) : Prop where
  sqes : ∃ ring, sq.sqes = some ring ∧ ring.IteratesLikeGet
  available : ∃ ring, cq.available = some ring ∧ ring.IteratesLikeGet

variable {sq : SubmissionQueue} {cq : CompletionQueue} {k k' : ℕ}

theorem CompletionQueue.Sized.available_iterates (h : cq.Sized k') :
    ∃ ring, cq.available = some ring ∧ ring.IteratesLikeGet := by
  refine ⟨_, h.available, RingBuf.iteratesLikeGet_of_lt h.mask ?_ h.fits⟩
  show (cq.cq.khead &&& cq.cq.kringMask).toNat < 2 ^ k'
  rw [SubmissionQueue.toNat_and_mask h.mask]
  exact Nat.mod_lt _ (by positivity)

/-- The slots that iterating `available` visits. -/
theorem CompletionQueue.Holds.available_intoIterMut {l : List Cqe} (h : cq.Holds k l) :
    ∃ ring, cq.available = some ring ∧ ring.len = l.length ∧
      ring.intoIterMut = some (Ring.window (2 ^ k) id cq.cq.khead.toNat l.length) := by
  refine ⟨_, h.sized.available, h.count, ?_⟩
  rw [RingBuf.intoIterMut, RingBuf.intoIter_eq (k := k) h.mask _ h.sized.fits]
  · show some (Ring.window (2 ^ k) id (cq.cq.khead &&& cq.cq.kringMask).toNat
      (cq.cq.ktail - cq.cq.khead).toNat) = _
    rw [h.toNat_and_mask, h.count, Ring.window_wrap (dvd_refl _)]
  · show (cq.cq.khead &&& cq.cq.kringMask).toNat < 2 ^ k
    rw [h.toNat_and_mask]
    exact Nat.mod_lt _ (by positivity)

theorem SubmissionQueue.Sized.sqes_iterates_iff (h : sq.Sized k) :
    (∃ ring, sq.sqes = some ring ∧ ring.IteratesLikeGet) ↔
      sq.sq.ktail.toNat < 2 ^ k ∨ (sq.sq.ktail.toNat = 2 ^ k ∧ sq.unconsumed % 2 ^ k ≠ 0) := by
  have hpos : 0 < 2 ^ k := by positivity
  have hfree := h.freeSqes
  have hle : sq.freeSqes ≤ 2 ^ k := by omega
  rw [h.sqes]
  simp only [Option.some.injEq, exists_eq_left']
  rcases lt_trichotomy sq.sq.ktail.toNat (2 ^ k) with hlt | heq | hgt
  · exact iff_of_true (RingBuf.iteratesLikeGet_of_lt h.mask hlt hle) (.inl hlt)
  · by_cases hslot : sq.unconsumed % 2 ^ k = 0
    · have hlen : sq.freeSqes = 2 ^ k := by omega
      exact iff_of_false (RingBuf.not_iteratesLikeGet_of_eq h.mask heq hlen) (by omega)
    · have hlen : sq.freeSqes < 2 ^ k := by omega
      exact iff_of_true (RingBuf.iteratesLikeGet_of_eq h.mask heq hlen) (.inr ⟨heq, hslot⟩)
  · exact iff_of_false (RingBuf.not_iteratesLikeGet_of_gt h.mask hgt) (by omega)

/-- **Iterating the windows of the rings is the same as indexing them iff the tail of the
submission ring is inside the first lap, or at its end with some entry taken.** -/
theorem windowsIterate_iff (hsq : sq.Sized k) (hcq : cq.Sized k') :
    WindowsIterate sq cq ↔
      sq.sq.ktail.toNat < 2 ^ k ∨ (sq.sq.ktail.toNat = 2 ^ k ∧ sq.unconsumed % 2 ^ k ≠ 0) := by
  rw [← hsq.sqes_iterates_iff]
  exact ⟨fun h => h.sqes, fun h => ⟨h, hcq.available_iterates⟩⟩

/-! ## A tail inside the first lap, and one behind it -/

/-- A submission ring of four entries. -/
def fourSqes (khead ktail : UInt32) : SubmissionQueue :=
  { sq :=
      { khead, ktail, kringMask := 3, kringEntries := 4, kflags := 0, sqes := fun _ => {}
        sqeTail := ktail }
    flags := 0 }

theorem thirdTail_iterates :
    WindowsIterate (fourSqes 1 3) (CompletionQueue.fourEntries (2 ^ 32 - 1) 2) :=
  (windowsIterate_iff (⟨by decide, rfl, rfl⟩ : SubmissionQueue.Sized _ 2)
    (⟨by decide, rfl, by decide⟩ : CompletionQueue.Sized _ 2)).2 (.inl (by decide))

/-- **After five entries the iterators of the free entries panic.** -/
theorem fifthTail_not_iterates :
    ¬ ∀ (sq : SubmissionQueue) (cq : CompletionQueue) (k k' : ℕ), sq.Sized k →
      sq.unconsumed ≤ 2 ^ k → cq.Sized k' → WindowsIterate sq cq := by
  intro h
  obtain ⟨⟨ring, hring, ⟨items, hiter, -⟩, -⟩, -⟩ :=
    h (fourSqes 5 5) (CompletionQueue.fourEntries 0 0) 2 2 ⟨by decide, rfl, rfl⟩ (by decide)
      ⟨by decide, rfl, by decide⟩
  obtain rfl := Option.some.inj hring
  have hnone : some items = none := hiter.symm.trans (by rfl)
  cases hnone

end Hamerkop
