/-!
# Texts of scalars

A scalar is written in two ways. Tables and relative costs use the plain one, which suits columns
of numbers; the values inside a compound such as a point use the marked one, which shows by a
point or an exponent that a number is no integer.
-/

namespace Simplex

/-- How the values of a scalar type are written. -/
class ScalarText (F : Type) where
  /-- Digits without an exponent, and without a point for a whole number. -/
  plain : F → String
  /-- Digits that always come with a point or an exponent. -/
  marked : F → String

end Simplex
