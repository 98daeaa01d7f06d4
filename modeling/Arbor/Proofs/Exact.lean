import Arbor.Scalar
import Mathlib.Algebra.Order.Field.Basic
import Mathlib.Algebra.BigOperators.Group.List.Basic

/-!
# Exact numbers

The definitions of the library can be read over any numbers. `Scalar.ofField` reads them over an ordered field, in which
nothing is rounded and every number is finite; the functions that a field does not have are given with it.
-/

namespace Arbor
namespace Scalar

/-- What a field does not come with. -/
structure Functions (K : Type) where
  sqrt : K → K
  sin : K → K
  cos : K → K
  degree : K
  tiny : K

variable {K : Type} [Field K] [LinearOrder K]

/-- The numbers of an ordered field. -/
@[reducible] def ofField (f : Functions K) : Scalar K where
  beq a b := decide (a = b)
  decLt := inferInstance
  decLe := inferInstance
  ofNat n := n
  isFinite _ := true
  sqrt := f.sqrt
  sin := f.sin
  cos := f.cos
  degree := f.degree
  tiny := f.tiny

/-- Exact terms may be added up in any order. -/
theorem sum_ofField (f : Functions K) (terms : List K) : @sum K (ofField f) terms = terms.sum := by
  have hzero : ((0 : ℕ) : K) = 0 := Nat.cast_zero
  show terms.foldl (· + ·) ((0 : ℕ) : K) = terms.sum
  rw [hzero, List.sum_eq_foldl]

end Scalar
end Arbor
