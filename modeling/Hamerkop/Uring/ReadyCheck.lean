import Hamerkop.Uring.CompletionQueue

/-!
# Three ways to ask whether an event is ready

`has_next` compares the counters of the completion ring, `available` takes their
difference, and the debug check of `advance` compares a sum with the tail.  The
counters are free-running `u32`s, and in a debug build arithmetic on them panics when
it overflows.

`CompletionQueue.readyChecksAgree_iff` says when the three agree: as long as the tail
has not wrapped past the head.  When it has, events are waiting that `has_next` does
not see, and a debug build panics in `available` and in `advance`
(`wrappedTail_not_agree`).
-/

namespace Hamerkop

/-- `a + b` in a debug build: `none` is the panic of an overflow. -/
def checkedAdd (a b : UInt32) : Option UInt32 :=
  if a.toNat + b.toNat < UInt32.size then some (a + b) else none

/-- `a - b` in a debug build. -/
def checkedSub (a b : UInt32) : Option UInt32 := if b ≤ a then some (a - b) else none

namespace CompletionQueue

/-- `available` in a debug build. -/
def availableDebug (q : CompletionQueue) : Option (RingBuf Cqe) :=
  (checkedSub q.cq.ktail q.cq.khead).bind fun size =>
    RingBuf.new q.cq.cqes (q.cq.khead &&& q.cq.kringMask).toNat size.toNat q.cq.kringMask.toNat

/-- `advance` in a debug build, with its two assertions. -/
def advanceDebug (q : CompletionQueue) (count : ℕ) : Option CompletionQueue :=
  if count ≤ 2 ^ 32 - 1 then
    (checkedAdd q.cq.khead (UInt32.ofNat count)).bind fun head =>
      if head ≤ q.cq.ktail then some { q with cq := { q.cq with khead := head } } else none
  else
    none

/-- A ring of `2 ^ k` entries, with no more events waiting than it has entries. -/
structure Sized (q : CompletionQueue) (k : ℕ) : Prop where
  lt : k < 32
  mask : q.cq.kringMask.toNat = 2 ^ k - 1
  fits : (q.cq.ktail - q.cq.khead).toNat ≤ 2 ^ k

/-- The three formulas say the same about the events that are waiting. -/
structure ReadyChecksAgree (q : CompletionQueue) : Prop where
  hasNext : q.hasNext = true ↔ ∃ ring, q.available = some ring ∧ 0 < ring.len
  available : q.availableDebug = q.available
  advance : ∀ ring, q.available = some ring → ∀ count ≤ ring.len,
    q.advanceDebug count = some (q.advance count)

variable {q : CompletionQueue} {k : ℕ}

theorem Holds.sized {l : List Cqe} (h : q.Holds k l) : q.Sized k :=
  ⟨h.lt, h.mask, h.count ▸ h.fits⟩

/-- The window that `available` hands out. -/
theorem Sized.available (h : q.Sized k) : q.available = some
    { data := q.cq.cqes, offset := (q.cq.khead &&& q.cq.kringMask).toNat
      size := (q.cq.ktail - q.cq.khead).toNat, mask := q.cq.kringMask.toNat } :=
  RingBuf.new_eq_some _ _ h.mask h.fits

theorem Sized.exists_available (h : q.Sized k) :
    (∃ ring, q.available = some ring ∧ 0 < ring.len) ↔ q.cq.khead ≠ q.cq.ktail := by
  rw [h.available]
  simp only [Option.some.injEq, exists_eq_left', RingBuf.len]
  rw [Nat.pos_iff_ne_zero, not_iff_not, ← UInt32.toNat_zero, UInt32.toNat_inj]
  constructor
  · intro hzero
    have htail := UInt32.sub_add_cancel q.cq.ktail q.cq.khead
    rwa [hzero, UInt32.zero_add] at htail
  · intro heq
    rw [heq, UInt32.sub_self]

/-! ## Each of the three, as long as the tail has not wrapped -/

theorem hasNext_of_le (hle : q.cq.khead ≤ q.cq.ktail) :
    q.hasNext = true ↔ q.cq.khead ≠ q.cq.ktail := by
  have hle' := UInt32.le_iff_toNat_le.1 hle
  rw [CompletionQueue.hasNext, decide_eq_true_iff, UInt32.lt_iff_toNat_lt, ne_eq,
    ← UInt32.toNat_inj]
  omega

theorem availableDebug_of_le (hle : q.cq.khead ≤ q.cq.ktail) :
    q.availableDebug = q.available := by
  rw [availableDebug, checkedSub, if_pos hle, Option.bind_some]
  rfl

/-- What lies between head and tail may be handed back. -/
theorem advanceDebug_of_le (hle : q.cq.khead ≤ q.cq.ktail) {count : ℕ}
    (hcount : count ≤ (q.cq.ktail - q.cq.khead).toNat) :
    q.advanceDebug count = some (q.advance count) := by
  have hsub := UInt32.toNat_sub_of_le _ _ hle
  have hle' := UInt32.le_iff_toNat_le.1 hle
  have htail := q.cq.ktail.toNat_lt
  have hofNat : (UInt32.ofNat count).toNat = count := UInt32.toNat_ofNat_of_lt' (by
    show count < 2 ^ 32
    omega)
  have hsum : (q.cq.khead + UInt32.ofNat count).toNat = q.cq.khead.toNat + count := by
    rw [UInt32.toNat_add, hofNat, Nat.mod_eq_of_lt (by omega)]
  have hfits : q.cq.khead.toNat + (UInt32.ofNat count).toNat < UInt32.size := by
    rw [hofNat]
    show _ < 2 ^ 32
    omega
  have hend : q.cq.khead + UInt32.ofNat count ≤ q.cq.ktail := by
    rw [UInt32.le_iff_toNat_le, hsum]
    omega
  rw [advanceDebug, if_pos (by omega), checkedAdd, if_pos hfits, Option.bind_some, if_pos hend]
  rfl

/-! ## Once it has wrapped -/

/-- The difference of the counters overflows in a debug build. -/
theorem availableDebug_of_lt (hlt : q.cq.ktail < q.cq.khead) : q.availableDebug = none := by
  rw [availableDebug, checkedSub, if_neg (UInt32.not_le.2 hlt), Option.bind_none]

/-- `has_next` sees nothing, although something is there. -/
theorem hasNext_of_lt (hlt : q.cq.ktail < q.cq.khead) : q.hasNext = false := by
  rw [CompletionQueue.hasNext, decide_eq_false_iff_not]
  exact UInt32.lt_asymm hlt

/-- **The three checks agree iff the tail has not wrapped past the head.** -/
theorem readyChecksAgree_iff (h : q.Sized k) :
    q.ReadyChecksAgree ↔ q.cq.khead ≤ q.cq.ktail := by
  constructor
  · intro hagree
    by_contra hnot
    have hnone := hagree.available.symm.trans (availableDebug_of_lt (UInt32.not_le.1 hnot))
    rw [h.available] at hnone
    cases hnone
  · intro hle
    refine ⟨?_, availableDebug_of_le hle, fun ring hring count hcount => ?_⟩
    · rw [h.exists_available]
      exact hasNext_of_le hle
    · rw [h.available] at hring
      cases hring
      exact advanceDebug_of_le hle hcount

/-! ## A tail before and after it wraps -/

/-- A ring of four entries. -/
def fourEntries (khead ktail : UInt32) : CompletionQueue :=
  { cq := { khead, ktail, kringMask := 3, cqes := fun _ => ⟨0, 0, 0⟩ } }

theorem lastTail_agree : (fourEntries (2 ^ 32 - 2) (2 ^ 32 - 1)).ReadyChecksAgree :=
  (readyChecksAgree_iff (k := 2) ⟨by decide, rfl, by decide⟩).2 (by decide)

/-- **One event waits across the end of the counters: `has_next` does not see it.** -/
theorem wrappedTail_not_agree :
    ¬ ∀ (q : CompletionQueue) (k : ℕ), q.Sized k → q.ReadyChecksAgree := by
  intro h
  have hagree := h (fourEntries (2 ^ 32 - 1) 0) 2 ⟨by decide, rfl, by decide⟩
  have hnext : (fourEntries (2 ^ 32 - 1) 0).hasNext = true := hagree.hasNext.2 ⟨_, rfl, by decide⟩
  exact absurd hnext (by decide)

end CompletionQueue

end Hamerkop
