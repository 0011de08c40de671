import Hamerkop.FixedVec.Drain
import Hamerkop.FixedVec.Write

/-!
# The buffers of the ping server

`transfer_remainder` of `hamerkop/examples/pingserver.rs` moves what has not been used of two
buffers to the first of them.

* `transferRemainder_eq` — the first buffer gets as much as it can hold of what is left, the rest
  stays in the second.
-/

namespace Hamerkop

/-- What is done to another vector; where that panics, this does. -/
def VecM.other {T α : Type} (outcome : Outcome T α) : VecM T (α × Mem T) := fun m =>
  match outcome with
  | .ok a m' => .ok (a, m') m
  | .panic _ => .panic m
  | .undefined fault => .undefined fault

theorem VecM.other_bind {T α β : Type} (a : α) (m m' : Mem T) (f : α × Mem T → VecM T β) :
    (VecM.other (.ok a m') >>= f) m = f (a, m') m := rfl

namespace RawVec

open VecM

/-- `transfer_remainder(&mut a, &mut b, count)`, as it works on the memory of `b`; what becomes of
`a` is the result. -/
def transferRemainder (a : Mem UInt8) (count : ℕ) : VecM UInt8 (Mem UInt8) := do
  let b ← vec
  assert (count ≤ a.vec.len + b.len)
  let aCount := min count a.vec.len
  let bCount := count - aCount
  let (_, a) ← other (drainFor .unbounded (.excluded aCount) 0 a)
  let slice ← asSlice
  assert (bCount ≤ slice.length)
  let (moved, a) ← other (extendFromSlice u8 (slice.drop bCount) a)
  let _ ← drainFor .unbounded (.excluded (bCount + moved)) 0
  return a

variable {a b m : Mem UInt8} {la lb l : List UInt8}

/-- A range that is drained from the front, and of which nobody wants anything. -/
theorem drainFor_front {n : ℕ} (h : m.vec.Holds l) (hn : n ≤ l.length) :
    ∃ m', drainFor .unbounded (.excluded n) 0 m = .ok [] m' ∧
      After m m' (l.drop n) (l.take n) := by
  obtain ⟨m', hrun, hholds, hcap, hdropped, hstale⟩ :=
    @drainFor_eq UInt8 m l .unbounded (.excluded n) 0 h ⟨Nat.zero_le _, hn⟩
  simp only [drainRange, drainKept, drainYield, Bound.start, Bound.stop, List.take_zero,
    List.drop_zero, List.nil_append, List.map_nil, staleIn_init, List.append_nil,
    Nat.zero_sub, List.replicate_zero] at hrun hholds hdropped hstale
  exact ⟨m', hrun, hholds, hcap, hdropped, hstale⟩

/-- **`transfer_remainder` cuts what is left of both buffers where the first is full.** -/
theorem transferRemainder_eq (ha : a.vec.Holds la) (hb : b.vec.Holds lb) (count : ℕ) :
    if count ≤ la.length + lb.length then
      ∃ a' b', transferRemainder a count b = .ok a' b' ∧
        After a a' (((la ++ lb).drop count).take a.vec.capacity) (la.take count) ∧
        After b b' (((la ++ lb).drop count).drop a.vec.capacity)
          (lb.take (count + a.vec.capacity - la.length))
    else
      transferRemainder a count b = .panic b := by
  have hlena := ha.len_eq
  have hlenb := hb.len_eq
  have hroom := ha.length_le
  unfold transferRemainder
  rw [vec_bind, hlena, hlenb]
  by_cases hcount : count ≤ la.length + lb.length
  · rw [if_pos hcount, bind_ok (assert_pos hcount b)]
    obtain ⟨aCount, haCount⟩ : ∃ n, n = min count la.length := ⟨_, rfl⟩
    obtain ⟨bCount, hbCount⟩ : ∃ n, n = count - aCount := ⟨_, rfl⟩
    simp only [← haCount, ← hbCount]
    obtain ⟨a₁, hdrain, hafter₁⟩ := drainFor_front ha (by omega : aCount ≤ la.length)
    obtain ⟨a₂, hextend, hafter₂⟩ :=
      extendFromSlice_eq u8 (lb.drop bCount) hafter₁.holds
    rw [hafter₁.capacity, List.length_drop, List.length_drop] at hextend
    rw [hafter₁.capacity, List.length_drop] at hafter₂
    obtain ⟨moved, hmoved⟩ : ∃ n, n = min (a.vec.capacity - (la.length - aCount))
      (lb.length - bCount) := ⟨_, rfl⟩
    rw [← hmoved] at hextend
    have hlast : bCount + moved = min (count + a.vec.capacity - la.length) lb.length := by omega
    obtain ⟨b', hdrain', hafter'⟩ := drainFor_front hb (by omega : bCount + moved ≤ lb.length)
    -- what is left of `a`, and what is left of `b`
    have hla : la.drop aCount = la.drop count := by
      rcases le_total count la.length with h | h
      · rw [haCount, min_eq_left h]
      · rw [haCount, min_eq_right h, List.drop_length, List.drop_of_length_le h]
    have hrest : (la ++ lb).drop count = la.drop aCount ++ lb.drop bCount := by
      rw [List.drop_append, hla]
      congr 2
      omega
    have hfits : (la.drop aCount).length ≤ a.vec.capacity := by
      rw [List.length_drop]
      omega
    have hkept : lb.drop (bCount + moved) = ((la ++ lb).drop count).drop a.vec.capacity := by
      rw [hrest, List.drop_append, List.drop_of_length_le hfits, List.nil_append, List.drop_drop,
        List.length_drop, hlast]
      rcases le_total (count + a.vec.capacity - la.length) lb.length with h | h
      · rw [min_eq_left h]
        congr 1
        omega
      · rw [min_eq_right h, List.drop_length, List.drop_of_length_le (by omega)]
    have htaken : lb.take (bCount + moved) = lb.take (count + a.vec.capacity - la.length) := by
      rw [hlast, ← List.take_eq_take_min]
    have hstored : ∀ l : List UInt8, l.map u8.stored = l := fun l => List.map_id' l
    have hextended : (la.drop aCount ++ ((lb.drop bCount).take
        (a.vec.capacity - (la.length - aCount))).map u8.stored) =
        ((la ++ lb).drop count).take a.vec.capacity := by
      rw [hrest, List.take_append, List.take_of_length_le hfits, hstored, List.length_drop]
    rw [hextended] at hafter₂
    rw [hkept, htaken] at hafter'
    have hdropped : la.take aCount = la.take count := by
      rw [haCount, ← List.take_eq_take_min]
    refine ⟨a₂, b', ?_, ?_, hafter'⟩
    · rw [hdrain, other_bind, bind_ok (asSlice_eq hb), bind_ok (assert_pos (by omega) b), hextend,
        other_bind, bind_ok hdrain']
      rfl
    · rw [← hdropped, ← List.append_nil (la.take aCount)]
      exact hafter₁.trans hafter₂
  · rw [if_neg hcount, bind_panic (assert_neg hcount b)]

end RawVec

end Hamerkop
