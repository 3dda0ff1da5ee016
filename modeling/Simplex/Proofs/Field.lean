import Mathlib.Algebra.BigOperators.Field
import Mathlib.Algebra.BigOperators.Ring.Finset
import Mathlib.Algebra.Order.BigOperators.Ring.Finset
import Mathlib.Algebra.Order.Field.Basic
import Mathlib.Tactic.FieldSimp
import Mathlib.Tactic.Linarith
import Mathlib.Tactic.Ring
import Simplex.Scalar

/-!
# Exact scalars

Every linearly ordered field is a scalar type in which nothing is rounded (`Scalar.ofField`). The
operations of the method are then those of the field: `Scalar.abs` is the absolute value,
`Scalar.least` the minimum, `Scalar.sum` the sum of a list, and the equality test is equality.
-/

namespace Simplex

namespace Scalar

section
variable {K : Type} [Field K] [LinearOrder K]

/-- A linearly ordered field as a scalar type. All its elements are finite, and an empty sum is
zero. -/
instance (priority := low) ofField : Scalar K where
  isFinite _ := true
  emptySum := 0
  defaultTolerance := 1 / 1000000

/-- The smaller of two values is their minimum. -/
theorem least_eq_min (x y : K) : least x y = min x y := by
  unfold least
  rcases lt_or_ge y x with h | h
  · rw [if_pos h, min_eq_right h.le]
  · rw [if_neg (not_lt.2 h), min_eq_left h]

/-- A sum from left to right is the sum of the list. -/
theorem sum_eq (xs : List K) : sum xs = xs.sum := by
  rw [List.sum_eq_foldl]
  rfl

variable [IsStrictOrderedRing K]

/-- The magnitude is the absolute value. -/
theorem abs_eq_abs (x : K) : abs x = |x| := by
  unfold abs
  rcases lt_or_ge x 0 with h | h
  · rw [if_pos h, abs_of_neg h]
  · rw [if_neg (not_lt.2 h), abs_of_nonneg h]

end

end Scalar

end Simplex
