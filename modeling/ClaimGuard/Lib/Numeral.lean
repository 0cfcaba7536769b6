import Mathlib.Data.Rat.Defs
import Mathlib.Algebra.Order.Field.Rat
import ClaimGuard.Lib.Text

/-!
# Numbers as they are written

A decimal numeral the way JSON writes one: a sign, the digits read as one
integer, how many of them stand after the point, and an exponent if one is
written. The digits, the number of fractional digits and the exponent are all
part of the numeral, so `1.0`, `1.00` and `10E-1` are three numerals of one
value.
-/

/-- A decimal numeral as it is written: `mantissa` holds all digits, the last
`scale` of them after the point. -/
structure Numeral where
  neg : Bool
  mantissa : ℕ
  scale : ℕ
  exponent : Option ℤ
deriving DecidableEq, Repr

namespace Numeral

/-- The exponent that applies, zero when none is written. -/
def exp (n : Numeral) : ℤ := n.exponent.getD 0

/-- Written without a point and without an exponent. -/
def isInteger (n : Numeral) : Bool := n.scale == 0 && n.exponent.isNone

/-- The value without its sign. -/
def magnitude (n : Numeral) : ℚ := n.mantissa * (10 : ℚ) ^ (n.exp - n.scale)

/-- The integer a numeral without point and exponent stands for. -/
def toInt (n : Numeral) : ℤ := if n.neg then -(n.mantissa : ℤ) else n.mantissa

/-- The numeral of an integer. -/
def ofInt (z : ℤ) : Numeral :=
  { neg := decide (z < 0), mantissa := z.natAbs, scale := 0, exponent := none }

@[simp] theorem isInteger_ofInt (z : ℤ) : (ofInt z).isInteger = true := rfl

@[simp] theorem toInt_ofInt (z : ℤ) : (ofInt z).toInt = z := by
  unfold toInt ofInt
  by_cases hz : z < 0
  · simp only [hz, decide_true, if_true]
    omega
  · simp only [hz, decide_false, Bool.false_eq_true, if_false]
    omega

/-! ## The text of a numeral -/

/-- The digits after the point, with the point. -/
def fractionText (n : Numeral) : List Char :=
  if n.scale = 0 then [] else '.' :: Text.fixed 10 n.scale (n.mantissa % 10 ^ n.scale)

/-- The exponent as it is printed. -/
def exponentText (n : Numeral) : List Char :=
  match n.exponent with
  | none => []
  | some e => 'E' :: Text.decimalInt e

/-- The numeral without its sign. -/
def unsignedText (n : Numeral) : List Char :=
  Text.decimal (n.mantissa / 10 ^ n.scale) ++ (n.fractionText ++ n.exponentText)

/-- The text of a numeral. -/
def text (n : Numeral) : List Char :=
  if n.neg then '-' :: n.unsignedText else n.unsignedText

end Numeral
