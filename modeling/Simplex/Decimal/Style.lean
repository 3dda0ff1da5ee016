import Simplex.Decimal.Shortest
import Simplex.Text

/-!
# Number styles

How the digits of a number are laid out as text. `Style` holds the decisions of one layout, and
the two layouts in use are values of it: `plain` never uses an exponent and writes a whole number
without a point, `marked` always shows a point or an exponent.
-/

namespace Simplex.Decimal

/-- The decisions that lay out a decimal. -/
structure Style where
  /-- Whether a whole number is written with `.0` at its end. -/
  keepsPoint : Bool
  /-- The places of the leading digit for which the number is written without an exponent, from
  the first up to but without the second. All of them if absent. -/
  positional : Option (Int × Int)

/-- Positional for every magnitude, and without a point for a whole number. -/
def plain : Style := ⟨false, none⟩

/-- Positional from `0.0001` up to but without `1e16`, with a point for a whole number. -/
def marked : Style := ⟨true, some (-4, 16)⟩

namespace Style

/-- Lay out digits without an exponent, `places` of them (or zeros) before the point. -/
def positionalText (style : Style) (digits : List Char) (places : Int) : String :=
  if places ≤ 0 then
    "0." ++ fill '0' (-places).toNat ++ String.ofList digits
  else if digits.length ≤ places.toNat then
    String.ofList digits ++ fill '0' (places.toNat - digits.length)
      ++ if style.keepsPoint then ".0" else ""
  else
    String.ofList (digits.take places.toNat) ++ "." ++ String.ofList (digits.drop places.toNat)

/-- Lay out digits with the point after the leading one, and the exponent after an `e`. No point
is written if there is no second digit. -/
def exponentText (digits : List Char) (exponent : Int) : String :=
  let fraction := digits.drop 1
  String.ofList (digits.take 1) ++ (if fraction.isEmpty then "" else "." ++ String.ofList fraction)
    ++ "e" ++ toString exponent

/-- The text of a decimal that is not zero. -/
def text (style : Style) (d : Digits) : String :=
  let digits := Nat.toDigits 10 d.digits
  let places : Int := digits.length + d.exponent
  match style.positional with
  | none => style.positionalText digits places
  | some (first, last) =>
    if first ≤ places - 1 ∧ places - 1 < last then style.positionalText digits places
    else exponentText digits (places - 1)

end Style

/-- The text of a number of a binary format, given by its bits. The sign of a zero is kept, that
of a NaN is not. -/
def textOfBits (format : BinaryFormat) (style : Style) (bits : Nat) : String :=
  let sign (negative : Bool) : String := if negative then "-" else ""
  match format.decode bits with
  | .nan => "NaN"
  | .infinite negative => sign negative ++ "inf"
  | .zero negative => sign negative ++ if style.keepsPoint then "0.0" else "0"
  | .number negative x => sign negative ++ style.text (shortest x)

end Simplex.Decimal
