import Mathlib.Data.Rat.Defs

/-!
# Floating-point arithmetic without laws

The operations of a type of floating-point numbers, and nothing that they satisfy: what
is proved over them holds of any arithmetic. Comparisons are separate operations, for a
NaN is neither below nor above anything.
-/

/-- The operations of floating-point numbers. -/
class Floats (F : Type) extends Add F, Sub F, Mul F, Div F, Neg F where
  /-- The number nearest to a literal, to an integer or to a quotient of integers. -/
  ofRat : ℚ → F
  lt : F → F → Bool
  le : F → F → Bool
  abs : F → F
  /-- `round(x, n)`. -/
  round : F → ℕ → F
  /-- The built-in `sum`, whose order of additions is its own. -/
  sum : List F → F
  /-- `f"{x:.nf}"`. -/
  format : F → ℕ → String

namespace Floats

variable {F : Type} [Floats F]

/-- The built-in `min` of two numbers: the first of equal ones. -/
def min (a b : F) : F := if lt b a then b else a

/-- The built-in `max` of two numbers: the first of equal ones. -/
def max (a b : F) : F := if lt a b then b else a

/-- The truth value of a number: zero is false. -/
def truth (a : F) : Bool := !(le a (ofRat 0) && le (ofRat 0) a)

end Floats
