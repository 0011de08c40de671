import Mathlib

/-!
# Saturating addition

Addition that stops at a cap.  Adding a list of values one after the other, however they are
grouped and in whatever order, comes to the cap or to their sum, whichever is less
(`foldl_satAdd`): no intermediate saturation makes a difference.
-/

namespace Saturating

variable {α : Type*} [AddCommMonoid α] [LinearOrder α] {cap a b : α}

/-- The sum, or the cap if that is less. -/
def satAdd (cap a b : α) : α := min (a + b) cap

theorem satAdd_comm (cap a b : α) : satAdd cap a b = satAdd cap b a := by
  unfold satAdd
  rw [add_comm]

theorem satAdd_le (cap a b : α) : satAdd cap a b ≤ cap := min_le_right _ _

theorem satAdd_zero (h : a ≤ cap) : satAdd cap a 0 = a := by
  unfold satAdd
  rw [add_zero, min_eq_left h]

theorem satAdd_eq_add (h : a + b ≤ cap) : satAdd cap a b = a + b := min_eq_left h

variable [CanonicallyOrderedAdd α]

/-- What was cut off once would be cut off by the last addition. -/
theorem satAdd_satAdd (cap a b c : α) : satAdd cap (satAdd cap a b) c = min (a + b + c) cap := by
  unfold satAdd
  rcases le_total (a + b) cap with h | h
  · rw [min_eq_left h]
  · rw [min_eq_right h, min_eq_right le_self_add, min_eq_right (h.trans le_self_add)]

theorem satAdd_assoc (cap a b c : α) :
    satAdd cap (satAdd cap a b) c = satAdd cap a (satAdd cap b c) := by
  rw [satAdd_comm cap a (satAdd cap b c), satAdd_satAdd, satAdd_satAdd]
  congr 1
  rw [add_comm (b + c) a, add_assoc]

theorem satAdd_right_comm (cap a b c : α) :
    satAdd cap (satAdd cap a b) c = satAdd cap (satAdd cap a c) b := by
  rw [satAdd_satAdd, satAdd_satAdd, add_right_comm]

/-- **The order and the intermediate sums do not matter.** -/
theorem foldl_satAdd (cap : α) (l : List α) (h : a ≤ cap) :
    l.foldl (satAdd cap) a = min (a + l.sum) cap := by
  induction l generalizing a with
  | nil => rw [List.foldl_nil, List.sum_nil, add_zero, min_eq_left h]
  | cons b l ih =>
    rw [List.foldl_cons, ih (satAdd_le cap a b), List.sum_cons, ← add_assoc]
    exact satAdd_satAdd cap a b l.sum

end Saturating
