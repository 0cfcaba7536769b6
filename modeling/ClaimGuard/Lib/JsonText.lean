import ClaimGuard.Lib.Numeral

/-!
# JSON texts

A JSON text up to insignificant whitespace and the spelling of escapes: objects
keep the order of their members and repeated keys, numbers stay numerals.
`render` is the compact text with the escapes Jackson writes.
-/

/-- The lexical tree of a JSON text. -/
inductive JsonText where
  | null
  | bool (b : Bool)
  | num (n : Numeral)
  | str (s : String)
  | arr (elems : List JsonText)
  | obj (fields : List (String × JsonText))

namespace JsonText

/-- Neither an array nor an object. -/
def isLeaf : JsonText → Bool
  | .arr _ => false
  | .obj _ => false
  | _ => true

/-- Induction over a text: leaves, arrays of their elements, objects of their
values. -/
theorem induction {P : JsonText → Prop} (leaf : ∀ t : JsonText, t.isLeaf = true → P t)
    (arr : ∀ xs : List JsonText, (∀ x ∈ xs, P x) → P (.arr xs))
    (obj : ∀ fs : List (String × JsonText), (∀ e ∈ fs, P e.2) → P (.obj fs))
    (t : JsonText) : P t := by
  apply JsonText.rec (motive_1 := P) (motive_2 := fun xs => ∀ x ∈ xs, P x)
    (motive_3 := fun fs => ∀ e ∈ fs, P e.2) (motive_4 := fun e => P e.2)
  case null => exact leaf _ rfl
  case bool => exact fun _ => leaf _ rfl
  case num => exact fun _ => leaf _ rfl
  case str => exact fun _ => leaf _ rfl
  case arr => exact arr
  case obj => exact obj
  case nil => simp
  case cons =>
    intro x xs hx hxs y hy
    rcases List.mem_cons.1 hy with rfl | hy
    · exact hx
    · exact hxs y hy
  case nil => simp
  case cons =>
    intro e fs he hfs f hf
    rcases List.mem_cons.1 hf with rfl | hf
    · exact he
    · exact hfs f hf
  case mk => exact fun _ _ hv => hv

/-! ## Strings -/

/-- Upper case hexadecimal digits. -/
def hexDigit (n : ℕ) : Char := (Nat.digitChar n).toUpper

/-- A character inside a JSON string: control characters, quotes and backslashes
are escaped, everything else stands for itself. -/
def escapeChar (c : Char) : List Char :=
  if c = '"' then ['\\', '"']
  else if c = '\\' then ['\\', '\\']
  else if c.toNat = 8 then ['\\', 'b']
  else if c.toNat = 9 then ['\\', 't']
  else if c.toNat = 10 then ['\\', 'n']
  else if c.toNat = 12 then ['\\', 'f']
  else if c.toNat = 13 then ['\\', 'r']
  else if c.toNat < 32 then ['\\', 'u', '0', '0', hexDigit (c.toNat / 16), hexDigit (c.toNat % 16)]
  else [c]

/-- A quoted string. -/
def renderString (s : String) : List Char := '"' :: (s.toList.flatMap escapeChar ++ ['"'])

/-! ## Values -/

mutual

/-- The compact text of a tree. -/
def render : JsonText → List Char
  | .null => ['n', 'u', 'l', 'l']
  | .bool true => ['t', 'r', 'u', 'e']
  | .bool false => ['f', 'a', 'l', 's', 'e']
  | .num n => n.text
  | .str s => renderString s
  | .arr [] => ['[', ']']
  | .arr (x :: xs) => '[' :: (render x ++ renderElems xs)
  | .obj [] => ['{', '}']
  | .obj ((k, v) :: fs) => '{' :: (renderString k ++ ':' :: (render v ++ renderFields fs))

/-- The elements after the first, and the closing bracket. -/
def renderElems : List JsonText → List Char
  | [] => [']']
  | x :: xs => ',' :: (render x ++ renderElems xs)

/-- The members after the first, and the closing brace. -/
def renderFields : List (String × JsonText) → List Char
  | [] => ['}']
  | (k, v) :: fs => ',' :: (renderString k ++ ':' :: (render v ++ renderFields fs))

end

end JsonText
