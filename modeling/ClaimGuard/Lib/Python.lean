import Mathlib.Data.List.DropRight
import ClaimGuard.Lib.Dict

/-!
# Values of a Python program

Strings by their code points, the values `json.loads` can give, and the exceptions that
taking such a value apart raises. A decoded document may have any shape, so each
operation here says what it does on every shape.
-/

namespace Python

/-- A `str`, by its code points: it may hold surrogates that stand alone. -/
abbrev Str := List ℕ

/-- The `str` of a text. -/
def str (s : String) : Str := s.toList.map Char.toNat

/-- What `str.strip` takes for whitespace. -/
def isSpace (c : ℕ) : Bool :=
  (0x9 ≤ c && c ≤ 0xD) || (0x1C ≤ c && c ≤ 0x20) || c == 0x85 || c == 0xA0 || c == 0x1680 ||
    (0x2000 ≤ c && c ≤ 0x200A) || c == 0x2028 || c == 0x2029 || c == 0x202F || c == 0x205F ||
    c == 0x3000

/-- `str.strip()`. -/
def strip (s : Str) : Str := (s.dropWhile isSpace).rdropWhile isSpace

/-- `str.lower()` of a string of ASCII characters. -/
def lower (s : Str) : Str := s.map fun c => if 0x41 ≤ c ∧ c ≤ 0x5A then c + 0x20 else c

/-- A value that `json.loads` can give. Numbers keep what tells them apart. -/
inductive Value where
  | none
  | bool (b : Bool)
  | int (n : ℤ)
  | float (bits : BitVec 64)
  | str (s : Str)
  | list (elems : List Value)
  | dict (items : List (Str × Value))

/-- The exceptions, by the class that an `except` clause names. -/
inductive Error where
  | httpError
  | keyError
  | valueError
  | typeError
  | recursionError
deriving DecidableEq, Repr

/-- What decoding a document comes to: a value, or `JSONDecodeError` and the other
`ValueError`s, or `RecursionError` when it is nested too deeply. -/
inductive Decoded where
  | value (v : Value)
  | invalid
  | tooDeep

/-- The value of a document, or the exception. -/
def Decoded.get : Decoded → Except Error Value
  | .value v => pure v
  | .invalid => throw .valueError
  | .tooDeep => throw .recursionError

/-- `v[key]` for a `str` key. -/
def subscript (v : Value) (key : Str) : Except Error Value :=
  match v with
  | .dict items =>
      match Dict.get items key with
      | some w => pure w
      | none => throw .keyError
  -- a list and a str want an integer, the rest cannot be subscripted
  | _ => throw .typeError

/-- `json.loads(v)`: text is decoded, any other type refused. -/
def loads (decode : Str → Decoded) (v : Value) : Except Error Value :=
  match v with
  | .str s => (decode s).get
  | _ => throw .typeError

end Python
