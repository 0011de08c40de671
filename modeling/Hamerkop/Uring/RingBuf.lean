import Hamerkop.Lib.Ring

/-!
# `RingBuf` and `RingBufMut`

The windows into a ring of `uring/src/ringbuf.rs`.  `data` is the memory the
window points into, slot by slot; a mutable reference into it is the slot it
points at.  The functions that may panic return an `Option`: `none` is the
failed assertion of `new`, or the slice index out of range of `into_iter`.
-/

namespace Hamerkop

/-- A part of a ring: `size` slots from `offset` on, wrapped around by the mask. -/
structure RingBuf (T : Type) where
  data : ℕ → T
  offset : ℕ
  size : ℕ
  mask : ℕ

namespace RingBuf

variable {T : Type}

/-- `new(data, offset, size, mask)`; there is no result when an assertion fails. -/
def new (data : ℕ → T) (offset size mask : ℕ) : Option (RingBuf T) :=
  if mask &&& (mask + 1) = 0 then
    if size ≤ mask + 1 then some { data, offset, size, mask } else none
  else
    none

/-- The number of slots. -/
def len (b : RingBuf T) : ℕ := b.size

/-- `&slice` of all slots of the ring. -/
def backing (b : RingBuf T) : List T := (List.range (b.mask + 1)).map b.data

/-- The slot of an index. -/
def slotOf (b : RingBuf T) (index : ℕ) : ℕ := (b.offset + index) &&& b.mask

/-- `get(index)` -/
def get (b : RingBuf T) (index : ℕ) : Option T :=
  if index ≥ b.len then none else some (b.data (b.slotOf index))

/-- The slot that the reference returned by `get_mut` points at. -/
def getMut (b : RingBuf T) (index : ℕ) : Option ℕ :=
  if index ≥ b.len then none else some (b.slotOf index)

/-- `&slice[a..b]`. -/
def sliceRange (slice : List T) (a b : ℕ) : Option (List T) :=
  if a ≤ b ∧ b ≤ slice.length then some ((slice.take b).drop a) else none

/-- `slice.split_at(mid)`. -/
def splitAt (slice : List T) (mid : ℕ) : Option (List T × List T) :=
  if mid ≤ slice.length then some (slice.take mid, slice.drop mid) else none

/-- `into_iter()`; there is no result when a range is out of bounds. -/
def intoIter (b : RingBuf T) : Option (List T) :=
  let slice := b.backing
  if (b.offset + b.size) &&& b.mask = b.offset + b.size then
    sliceRange slice b.offset (b.offset + b.size)
  else
    (splitAt slice b.offset).bind fun (slice1, slice2) =>
      (sliceRange slice1 0 ((b.offset + b.size) &&& b.mask)).map (slice2 ++ ·)

theorem new_eq_some (data : ℕ → T) (offset : ℕ) {size mask k : ℕ} (hmask : mask = 2 ^ k - 1)
    (hsize : size ≤ 2 ^ k) : new data offset size mask = some { data, offset, size, mask } := by
  have hpos : 0 < 2 ^ k := by positivity
  have hand : mask &&& (mask + 1) = 0 := by
    rw [Nat.and_comm, Ring.and_mask_eq_mod hmask, show mask + 1 = 2 ^ k from by omega, Nat.mod_self]
  rw [new, if_pos hand, if_pos (by omega)]

theorem sliceRange_eq_some {slice : List T} {a b : ℕ} (hab : a ≤ b) (hb : b ≤ slice.length) :
    sliceRange slice a b = some ((slice.take b).drop a) := if_pos ⟨hab, hb⟩

theorem splitAt_eq_some {slice : List T} {mid : ℕ} (h : mid ≤ slice.length) :
    splitAt slice mid = some (slice.take mid, slice.drop mid) := if_pos h

/-- **Iterating a window yields its slots in order**, when its offset lies inside the ring. -/
theorem intoIter_eq {b : RingBuf T} {k : ℕ} (hmask : b.mask = 2 ^ k - 1) (hoff : b.offset < 2 ^ k)
    (hsize : b.size ≤ 2 ^ k) :
    b.intoIter = some (Ring.window (2 ^ k) b.data b.offset b.size) := by
  have hN : b.mask + 1 = 2 ^ k := by omega
  have hlen : b.backing.length = 2 ^ k := by simp [backing, hN]
  rw [intoIter, Ring.and_mask_eq_mod hmask]
  by_cases hlap : b.offset + b.size < 2 ^ k
  · rw [Nat.mod_eq_of_lt hlap, if_pos rfl, sliceRange_eq_some (by omega) (by omega),
      Ring.window_eq_of_le b.data hlap.le, backing, hN]
  · have hmod : (b.offset + b.size) % 2 ^ k = b.offset + b.size - 2 ^ k := by
      rw [Nat.mod_eq_sub_mod (by omega), Nat.mod_eq_of_lt (by omega)]
    have htake : ((b.backing.take b.offset).take (b.offset + b.size - 2 ^ k)) =
        b.backing.take (b.offset + b.size - 2 ^ k) := by
      rw [List.take_take, Nat.min_eq_left (by omega)]
    have hlen1 : (b.backing.take b.offset).length = b.offset := by
      rw [List.length_take, hlen]
      omega
    have hne : ¬ b.offset + b.size - 2 ^ k = b.offset + b.size := by
      have : 0 < 2 ^ k := by positivity
      omega
    rw [hmod, if_neg hne, splitAt_eq_some (by omega), Option.bind_some]
    show (sliceRange (b.backing.take b.offset) 0 (b.offset + b.size - 2 ^ k)).map _ = _
    rw [sliceRange_eq_some (Nat.zero_le _) (by omega), htake, List.drop_zero, Option.map_some,
      Ring.window_eq_of_lt b.data (by omega) hsize (by omega), backing, hN]

end RingBuf

end Hamerkop
