/-!
# Shortest decimals

The value of a binary floating point number is `m · 2 ^ q`. Every real number closer to it than
to its two neighbours is read back as that same number, so a printer may choose among the
decimals of this interval. `shortest` chooses one with the fewest digits and, among those, the
one nearest to the value, all in exact integer arithmetic.

`BinaryFormat.decode` splits the bits of a number into the parts that this needs, and says how
far the neighbours are.
-/

namespace Simplex.Decimal

/-- A binary interchange format: how many bits hold the fraction and how many the exponent. The
bit above both is the sign. -/
structure BinaryFormat where
  fractionBits : Nat
  exponentBits : Nat

/-- Double precision. -/
def binary64 : BinaryFormat := ⟨52, 11⟩

/-- Single precision. -/
def binary32 : BinaryFormat := ⟨23, 8⟩

/-- A positive number `m · 2 ^ q` of a binary format.

`narrowBelow` holds when `m` is the smallest significand of its exponent and a smaller exponent
exists: then the neighbour below is only half as far away as the one above. -/
structure Binary where
  m : Nat
  q : Int
  narrowBelow : Bool

/-- What the bits of a number stand for. -/
inductive Pattern where
  | nan
  | infinite (negative : Bool)
  | zero (negative : Bool)
  | number (negative : Bool) (magnitude : Binary)

namespace BinaryFormat

/-- Read the sign, the exponent and the fraction of a bit pattern. The largest exponent stands
for the infinities and the NaNs, the smallest one for numbers without an implicit leading bit. -/
def decode (format : BinaryFormat) (bits : Nat) : Pattern :=
  let fractions := Nat.pow 2 format.fractionBits
  let exponents := Nat.pow 2 format.exponentBits
  let fraction := bits % fractions
  let exponent := bits / fractions % exponents
  let negative := bits.testBit (format.fractionBits + format.exponentBits)
  let bias : Int := exponents / 2 - 1
  let scale (e : Nat) : Int := (e : Int) - bias - format.fractionBits
  if exponent = exponents - 1 then
    if fraction = 0 then .infinite negative else .nan
  else if exponent = 0 then
    if fraction = 0 then .zero negative else .number negative ⟨fraction, scale 1, false⟩
  else
    .number negative
      ⟨fractions + fraction, scale exponent, fraction = 0 && 1 < exponent⟩

end BinaryFormat

/-- The decimal `digits · 10 ^ exponent`. -/
structure Digits where
  digits : Nat
  exponent : Int

/-- A nonnegative fraction `num / den`, kept unreduced. -/
structure Ratio where
  num : Nat
  den : Nat

namespace Ratio

/-- The fraction `n · 2 ^ e`. -/
def ofBinary (n : Nat) (e : Int) : Ratio := ⟨n * Nat.pow 2 e.toNat, Nat.pow 2 (-e).toNat⟩

/-- The fraction `n · 10 ^ e`. -/
def ofDecimal (n : Nat) (e : Int) : Ratio := ⟨n * Nat.pow 10 e.toNat, Nat.pow 10 (-e).toNat⟩

/-- Comparison of two fractions with positive denominators. -/
def lt (x y : Ratio) : Bool := x.num * y.den < y.num * x.den

/-- Comparison of two fractions with positive denominators. -/
def le (x y : Ratio) : Bool := x.num * y.den ≤ y.num * x.den

/-- How many whole times `10 ^ e` goes into the fraction. -/
def floorOn (x : Ratio) (e : Int) : Nat :=
  x.num * Nat.pow 10 (-e).toNat / (x.den * Nat.pow 10 e.toNat)

end Ratio

namespace Binary

/-- The value, in quarters of a unit in the last place so that the ends of the interval are
whole as well. -/
def value (x : Binary) : Ratio := .ofBinary (4 * x.m) (x.q - 2)

/-- Whether a decimal is read back as `x`: it lies between the midpoints to the two neighbours,
and a midpoint itself goes to the even significand. -/
def readsBack (x : Binary) (d : Ratio) : Bool :=
  let low := Ratio.ofBinary (4 * x.m - if x.narrowBelow then 1 else 2) (x.q - 2)
  let high := Ratio.ofBinary (4 * x.m + 2) (x.q - 2)
  if x.m % 2 = 0 then low.le d && d.le high else low.lt d && d.lt high

/-- Whether the second of two decimals around `x` is at least as near as the first. -/
def nearerAbove (x : Binary) (below above : Ratio) : Bool :=
  let v := x.value
  let sum : Ratio := ⟨below.num * above.den + above.num * below.den, below.den * above.den⟩
  sum.le ⟨2 * v.num, v.den⟩

/-- The number of decimal places before the point, counted from the leading digit: the least `e`
with `x < 10 ^ e`. The search starts at an estimate from the number of bits, which is too low by
at most one. -/
def magnitude (x : Binary) : Int :=
  let bits : Int := Nat.log2 x.m + x.q
  let guess : Int := bits * 30103 / 100000
  if x.value.lt (.ofDecimal 1 guess) then guess
  else if x.value.lt (.ofDecimal 1 (guess + 1)) then guess + 1
  else guess + 2

/-- The decimal of `x` on the grid `10 ^ e`, if one of the two points around `x` reads back. The
nearer one is taken if both do, the upper one if they are equally near. -/
def onGrid (x : Binary) (e : Int) : Option Digits :=
  let n := x.value.floorOn e
  let below := Ratio.ofDecimal n e
  let above := Ratio.ofDecimal (n + 1) e
  match x.readsBack below, x.readsBack above with
  | true, true => some ⟨if x.nearerAbove below above then n + 1 else n, e⟩
  | true, false => some ⟨n, e⟩
  | false, true => some ⟨n + 1, e⟩
  | false, false => none

/-- Try grids that are finer and finer, at most `fuel` of them, and take the first hit. -/
def search (x : Binary) : Nat → Int → Option Digits
  | 0, _ => none
  | fuel + 1, e =>
    match x.onGrid e with
    | some d => some d
    | none => x.search fuel (e - 1)

end Binary

/-- Strip zeros at the end of the digits, at most `fuel` of them. -/
def Digits.strip : Nat → Digits → Digits
  | 0, d => d
  | fuel + 1, d =>
    if d.digits ≠ 0 ∧ d.digits % 10 = 0 then strip fuel ⟨d.digits / 10, d.exponent + 1⟩
    else d

/-- The value itself as a decimal: halves are fives of the next place. -/
def Binary.exact (x : Binary) : Digits :=
  ⟨x.m * Nat.pow 2 x.q.toNat * Nat.pow 5 (-x.q).toNat, if x.q < 0 then x.q else 0⟩

/-- The decimal with the fewest digits that reads back as `x`, and among those the nearest.
Seventeen digits are enough for double precision; in a format in which they are not, all digits
of the value are kept. -/
def shortest (x : Binary) : Digits :=
  match x.search 17 (x.magnitude - 1) with
  | some d => d.strip 17
  | none => x.exact

end Simplex.Decimal
