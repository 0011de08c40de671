import Mathlib

/-!
# Splicing a list into another

`splice a r l` is the list `l` with every `a` replaced by the elements of `r`.  What is
spliced in is not looked at again: counting `a` in the result multiplies, counting anything
else adds what the copies of `r` bring along.
-/

namespace Splice

variable {α : Type*} [DecidableEq α] {a b : α}

/-- Every `a` is replaced by the elements of `r`. -/
def splice (a : α) (r l : List α) : List α := l.flatMap fun x => if x = a then r else [x]

@[simp] theorem splice_nil (a : α) (r : List α) : splice a r [] = [] := rfl

theorem splice_cons_self (a : α) (r l : List α) : splice a r (a :: l) = r ++ splice a r l := by
  simp [splice]

theorem splice_cons_of_ne (h : b ≠ a) (r l : List α) :
    splice a r (b :: l) = b :: splice a r l := by
  simp [splice, h]

@[simp] theorem splice_append (a : α) (r l l' : List α) :
    splice a r (l ++ l') = splice a r l ++ splice a r l' := List.flatMap_append

theorem count_splice_self (a : α) (r l : List α) :
    (splice a r l).count a = l.count a * r.count a := by
  induction l with
  | nil => simp
  | cons x l ih =>
    by_cases hx : x = a
    · subst hx
      rw [splice_cons_self, List.count_append, ih, List.count_cons_self]
      ring
    · rw [splice_cons_of_ne hx, List.count_cons_of_ne hx, ih, List.count_cons_of_ne hx]

theorem count_splice_of_ne (h : b ≠ a) (r l : List α) :
    (splice a r l).count b = l.count b + r.count b * l.count a := by
  induction l with
  | nil => simp
  | cons x l ih =>
    by_cases hx : x = a
    · subst hx
      rw [splice_cons_self, List.count_append, ih, List.count_cons_of_ne h.symm,
        List.count_cons_self]
      ring
    · rw [splice_cons_of_ne hx, List.count_cons, ih, List.count_cons, List.count_cons_of_ne hx]
      ring

end Splice
