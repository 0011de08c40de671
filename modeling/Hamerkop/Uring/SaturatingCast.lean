import Mathlib

/-!
# `saturating_cast`

The conversion between integer types of `uring/src/detail.rs`.  One macro body serves all
pairs of types.  It decides with casts to `u128` and `i128` which of the two bounds it has to
clamp to, and casts the bound to the source type for it.  None of these casts wraps
(`cast_of_mem`), so the result is the nearest value of the target type
(`saturatingCast_nearest`).
-/

namespace Hamerkop

/-- The types of `all_casts!`, on a target with 64 bit pointers. -/
inductive IntType where
  | u8 | u16 | u32 | u64 | u128 | usize | i8 | i16 | i32 | i64 | i128 | isize
deriving DecidableEq, Repr

namespace IntType

/-- The width of the type; that of a pointer is 64. -/
def bits : IntType → ℕ
  | u8 | i8 => 8
  | u16 | i16 => 16
  | u32 | i32 => 32
  | u64 | i64 | usize | isize => 64
  | u128 | i128 => 128

/-- Whether the type is signed. -/
def signed : IntType → Bool
  | u8 | u16 | u32 | u64 | u128 | usize => false
  | i8 | i16 | i32 | i64 | i128 | isize => true

/-- `MIN` -/
def min (t : IntType) : ℤ := if t.signed then -2 ^ (t.bits - 1) else 0

/-- `MAX` -/
def max (t : IntType) : ℤ := if t.signed then 2 ^ (t.bits - 1) - 1 else 2 ^ t.bits - 1

/-- The values of the type. -/
def Value (t : IntType) : Type := {x : ℤ // t.min ≤ x ∧ x ≤ t.max}

variable (s t : IntType)

theorem min_le_zero : t.min ≤ 0 := by
  cases t <;> decide

theorem zero_le_max : 0 ≤ t.max := by
  cases t <;> decide

theorem max_le_u128 : t.max ≤ u128.max := by
  cases t <;> decide

theorem i128_le_min : i128.min ≤ t.min := by
  cases t <;> decide

theorem max_sub_min : t.max - t.min + 1 = 2 ^ t.bits := by
  cases t <;> decide

/-- `MIN` -/
def minValue : t.Value := ⟨t.min, le_rfl, (min_le_zero t).trans (zero_le_max t)⟩

/-- `MAX` -/
def maxValue : t.Value := ⟨t.max, (min_le_zero t).trans (zero_le_max t), le_rfl⟩

/-- The cast `as`: the number modulo the size of the type. -/
def cast (x : ℤ) : t.Value :=
  ⟨t.min + (x - t.min) % 2 ^ t.bits, by
    have hsize := t.max_sub_min
    have hpos : (0 : ℤ) < 2 ^ t.bits := by positivity
    have hnonneg := Int.emod_nonneg (x - t.min) hpos.ne'
    have hlt := Int.emod_lt_of_pos (x - t.min) hpos
    constructor <;> omega⟩

variable {s t}

/-- What the type can represent is not changed by a cast. -/
theorem cast_of_mem {x : ℤ} (h : t.min ≤ x ∧ x ≤ t.max) : (t.cast x).1 = x := by
  have hsize := t.max_sub_min
  show t.min + (x - t.min) % 2 ^ t.bits = x
  rw [Int.emod_eq_of_lt (by omega) (by omega)]
  omega

/-- `Ord::min` -/
def Value.min (x y : t.Value) : t.Value := if x.1 ≤ y.1 then x else y

/-- `Ord::max` -/
def Value.max (x y : t.Value) : t.Value := if x.1 ≤ y.1 then y else x

@[simp] theorem Value.min_val (x y : t.Value) : (x.min y).1 = Min.min x.1 y.1 := by
  unfold Value.min
  split_ifs <;> omega

@[simp] theorem Value.max_val (x y : t.Value) : (x.max y).1 = Max.max x.1 y.1 := by
  unfold Value.max
  split_ifs <;> omega

variable (s t) in
/-- `saturating_cast` -/
def saturatingCast (self : s.Value) : t.Value :=
  let self :=
    if (u128.cast t.max).1 < (u128.cast s.max).1 then self.min (s.cast t.max) else self
  let self :=
    if (i128.cast t.min).1 > (i128.cast s.min).1 then self.max (s.cast t.min) else self
  t.cast self.1

/-! ## The casts of the bounds -/

variable (s t) in
/-- The bounds that are compared are not wrapped. -/
theorem guard_casts : (u128.cast t.max).1 = t.max ∧ (i128.cast t.min).1 = t.min := by
  constructor
  · apply cast_of_mem
    exact ⟨(min_le_zero u128).trans (zero_le_max t), max_le_u128 t⟩
  · apply cast_of_mem
    exact ⟨i128_le_min t, (min_le_zero t).trans (zero_le_max i128)⟩

/-- Where the source type goes further up, it has the greatest value of the target. -/
theorem cast_max (h : t.max < s.max) : (s.cast t.max).1 = t.max := by
  apply cast_of_mem
  exact ⟨(min_le_zero s).trans (zero_le_max t), h.le⟩

theorem cast_min (h : s.min < t.min) : (s.cast t.min).1 = t.min := by
  apply cast_of_mem
  exact ⟨h.le, (min_le_zero t).trans (zero_le_max s)⟩

/-! ## The nearest value -/

/-- The two clamps, one after the other. -/
theorem saturatingCast_val (x : s.Value) :
    (saturatingCast s t x).1 = Max.max t.min (Min.min x.1 t.max) := by
  have hs := x.2
  have hmin := min_le_zero t
  have hmax := zero_le_max t
  -- what remains to be cast after each of the clamps
  have hupper : (if t.max < s.max then x.min (s.cast t.max) else x).1 = Min.min x.1 t.max := by
    by_cases h : t.max < s.max
    · rw [if_pos h, Value.min_val, cast_max h]
    · rw [if_neg h]
      omega
  have hlower : ∀ y : s.Value, y.1 = Min.min x.1 t.max →
      (if t.min > s.min then y.max (s.cast t.min) else y).1 =
        Max.max t.min (Min.min x.1 t.max) := by
    intro y hy
    by_cases h : t.min > s.min
    · rw [if_pos h, Value.max_val, cast_min h, hy, max_comm]
    · rw [if_neg h, hy]
      omega
  unfold saturatingCast
  rw [(guard_casts t).1, (guard_casts s).1, (guard_casts t).2, (guard_casts s).2]
  simp only
  rw [hlower _ hupper]
  apply cast_of_mem
  constructor <;> omega

/-- **`saturating_cast` returns the nearest value of the target type**, and no cast on the way
wraps. -/
theorem saturatingCast_nearest (s t : IntType) (x : s.Value) :
    (t.min ≤ x.1 ∧ x.1 ≤ t.max → (saturatingCast s t x).1 = x.1) ∧
      (t.max < x.1 → saturatingCast s t x = t.maxValue) ∧
      (x.1 < t.min → saturatingCast s t x = t.minValue) ∧
      (∀ y : t.Value, |x.1 - (saturatingCast s t x).1| ≤ |x.1 - y.1|) ∧
      ((u128.cast t.max).1 = t.max ∧ (u128.cast s.max).1 = s.max ∧
        (i128.cast t.min).1 = t.min ∧ (i128.cast s.min).1 = s.min) ∧
      (t.max < s.max → (s.cast t.max).1 = t.max) ∧ (s.min < t.min → (s.cast t.min).1 = t.min) := by
  have hval := @saturatingCast_val s t x
  have hmin := min_le_zero t
  have hmax := zero_le_max t
  refine ⟨?_, ?_, ?_, ?_, ?_, cast_max, cast_min⟩
  · intro h
    omega
  · intro h
    apply Subtype.ext
    rw [hval]
    show Max.max t.min (Min.min x.1 t.max) = t.max
    omega
  · intro h
    apply Subtype.ext
    rw [hval]
    show Max.max t.min (Min.min x.1 t.max) = t.min
    omega
  · intro y
    have hy := y.2
    have hself := le_abs_self (x.1 - y.1)
    have hneg := neg_le_abs (x.1 - y.1)
    rw [hval, abs_le]
    constructor <;> omega
  · exact ⟨(guard_casts t).1, (guard_casts s).1, (guard_casts t).2, (guard_casts s).2⟩

end IntType

end Hamerkop
