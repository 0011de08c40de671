import Mathlib

/-!
# `FixedVec`

The fixed-capacity vector of `hamerkop/src/fixedvec.rs`, as far as the buffer
pool uses it.  `data` is the boxed slice, each of whose elements may be
uninitialised, and `ptr` is the address it lives at for as long as it lives.
-/

namespace Hamerkop

/-- A vector that never grows: its memory, and how much of it is in use. -/
structure FixedVec (T : Type) where
  ptr : UInt64
  data : List (Option T)
  size : ℕ
deriving DecidableEq, Repr

namespace FixedVec

variable {T : Type}

/-- The number of elements there is room for. -/
def capacity (v : FixedVec T) : ℕ := v.data.length

/-- The number of elements. -/
def len (v : FixedVec T) : ℕ := v.size

/-- `as_mut_ptr()` -/
def asMutPtr (v : FixedVec T) : UInt64 := v.ptr

/-- `set_len(new_len)` -/
def setLen (v : FixedVec T) (newLen : ℕ) : FixedVec T := { v with size := newLen }

/-- `clear` of a vector of bytes, which do not need to be dropped. -/
def clear (v : FixedVec UInt8) : FixedVec UInt8 := v.setLen 0

@[simp] theorem setLen_ptr (v : FixedVec T) (n : ℕ) : (v.setLen n).ptr = v.ptr := rfl

end FixedVec

end Hamerkop
