import Mathlib.Data.List.TakeDrop
import ClaimGuard.Lib.JsonText

/-!
# Reading JSON

A reader for JSON texts, and the writers it reads back. A writer is given by how it
spells characters and numerals and by the white space after its commas and colons;
whatever these are, what is written is read back as the tree it was written from.
-/

namespace Text

/-- The number some decimal digits stand for. -/
def ofDigits (ds : List Char) : ℕ := Nat.ofDigitChars 10 ds 0

@[simp] theorem ofDigits_decimal (n : ℕ) : ofDigits (decimal n) = n :=
  Nat.ofDigitChars_toDigits (by decide) (by decide)

theorem ofDigits_append (l m : List Char) :
    ofDigits (l ++ m) = ofDigits l * 10 ^ m.length + ofDigits m := by
  unfold ofDigits
  rw [Nat.ofDigitChars_append, Nat.ofDigitChars_eq_ofDigitChars_zero, Nat.mul_comm]

theorem ofDigits_fixed {w n : ℕ} (h : n < 10 ^ w) : ofDigits (fixed 10 w n) = n := by
  induction w generalizing n with
  | zero =>
      rw [pow_zero] at h
      have hzero : n = 0 := by omega
      rw [hzero]
      rfl
  | succ w ih =>
      have hlast : ofDigits [Nat.digitChar (n % 10)] = n % 10 := by
        unfold ofDigits
        rw [Nat.ofDigitChars_cons_digitChar_of_lt_ten (Nat.mod_lt n (by decide)),
          Nat.ofDigitChars_nil]
        omega
      rw [fixed, ofDigits_append, ih (Nat.div_lt_of_lt_mul (by rwa [pow_succ, mul_comm] at h)),
        hlast, List.length_singleton, pow_one]
      omega

/-- The run of characters of one kind at the front of a text, and the rest. -/
theorem span_of_stops {p : Char → Bool} {l r : List Char} (hl : ∀ c ∈ l, p c = true)
    (hr : Stops p r) : (l ++ r).span p = (l, r) := by
  rw [List.span_eq_takeWhile_dropWhile, List.takeWhile_append_of_pos hl,
    List.dropWhile_append_of_pos hl]
  cases r with
  | nil => simp
  | cons c r =>
      rw [stops_cons] at hr
      simp [hr]

end Text

namespace JsonText

/-! ## Characters of a string -/

/-- Insignificant white space. -/
def isSpace (c : Char) : Bool := c == ' ' || c == '\t' || c == '\n' || c == '\r'

/-- The text after white space. -/
def skipSpace (l : List Char) : List Char := l.dropWhile isSpace

/-- The number a hexadecimal digit stands for, in either case. -/
def hexDigit? (c : Char) : Option ℕ :=
  if c.isDigit then some (c.toNat - 48)
  else if 97 ≤ c.toNat ∧ c.toNat ≤ 102 then some (c.toNat - 87)
  else if 65 ≤ c.toNat ∧ c.toNat ≤ 70 then some (c.toNat - 55)
  else none

/-- Four hexadecimal digits. -/
def readHex4 : List Char → Option (ℕ × List Char)
  | a :: b :: c :: d :: r => do
      let a ← hexDigit? a
      let b ← hexDigit? b
      let c ← hexDigit? c
      let d ← hexDigit? d
      some (((16 * a + b) * 16 + c) * 16 + d, r)
  | _ => none

/-- The character of a `\u` escape, or of two that form a surrogate pair. A surrogate
alone is no character. -/
def readUnit (l : List Char) : Option (Char × List Char) := do
  let (high, r) ← readHex4 l
  if high < 0xD800 ∨ 0xDFFF < high then some (Char.ofNat high, r)
  else if 0xDC00 ≤ high then none
  else
    match r with
    | '\\' :: 'u' :: r => do
        let (low, r) ← readHex4 r
        if 0xDC00 ≤ low ∧ low ≤ 0xDFFF then
          some (Char.ofNat (0x10000 + (high - 0xD800) * 0x400 + (low - 0xDC00)), r)
        else none
    | _ => none

/-- The character an escape of one letter stands for. -/
def simpleEscape (c : Char) : Option Char :=
  if c = '"' ∨ c = '\\' ∨ c = '/' then some c
  else if c = 'b' then some (Char.ofNat 8)
  else if c = 't' then some (Char.ofNat 9)
  else if c = 'n' then some (Char.ofNat 10)
  else if c = 'f' then some (Char.ofNat 12)
  else if c = 'r' then some (Char.ofNat 13)
  else none

/-- One character of a string: an escape, or any other that is no control character. -/
def readChar : List Char → Option (Char × List Char)
  | [] => none
  | c :: r =>
      if c = '\\' then
        match r with
        | [] => none
        | e :: r => if e = 'u' then readUnit r else (simpleEscape e).map fun d => (d, r)
      else if c = '"' ∨ c.toNat < 32 then none
      else some (c, r)

/-- The characters of a string up to its closing quote, at most `fuel` of them. -/
def readBody : ℕ → List Char → Option (List Char × List Char)
  | 0, _ => none
  | fuel + 1, l =>
      if l.head? = some '"' then some ([], l.tail)
      else do
        let (c, r) ← readChar l
        let (cs, r) ← readBody fuel r
        some (c :: cs, r)

/-! ## Numerals -/

/-- A sign, if there is one. -/
def readSign (isSign : Char → Bool) (l : List Char) : Option Char × List Char :=
  match l with
  | c :: r => if isSign c then (some c, r) else (none, l)
  | [] => (none, [])

/-- The digits after a point, if there is one. -/
def readFraction : List Char → Option (List Char × List Char)
  | '.' :: r => if (r.span Char.isDigit).1 = [] then none else some (r.span Char.isDigit)
  | l => some ([], l)

/-- An exponent, if there is one. -/
def readExponent : List Char → Option (Option ℤ × List Char)
  | [] => some (none, [])
  | c :: r =>
      if c = 'e' ∨ c = 'E' then
        let (sign, r) := readSign (fun c => c == '+' || c == '-') r
        let (ds, r) := r.span Char.isDigit
        if ds = [] then none
        else some (some (if sign = some '-' then -(Text.ofDigits ds : ℤ) else Text.ofDigits ds), r)
      else some (none, c :: r)

/-- A numeral: no leading zeros, and digits after a point and in an exponent. -/
def readNumeral (l : List Char) : Option (Numeral × List Char) := do
  let (sign, l) := readSign (fun c => c == '-') l
  let (int, l) := l.span Char.isDigit
  if int = [] ∨ (int.head? = some '0' ∧ int.length ≠ 1) then none
  else do
    let (frac, l) ← readFraction l
    let (exponent, l) ← readExponent l
    some (⟨sign.isSome, Text.ofDigits (int ++ frac), frac.length, exponent⟩, l)

/-! ## Values -/

/-- The text after a literal name. -/
def readLiteral (name l : List Char) : Option (List Char) :=
  if name.isPrefixOf l then some (l.drop name.length) else none

mutual

/-- A value, with the text after it. -/
def readValue : ℕ → List Char → Option (JsonText × List Char)
  | 0, _ => none
  | fuel + 1, l =>
      match skipSpace l with
      | [] => none
      | c :: r =>
          if c = '{' then
            if (skipSpace r).head? = some '}' then some (.obj [], (skipSpace r).tail)
            else (readFields fuel r).map fun e => (.obj e.1, e.2)
          else if c = '[' then
            if (skipSpace r).head? = some ']' then some (.arr [], (skipSpace r).tail)
            else (readElems fuel r).map fun e => (.arr e.1, e.2)
          else if c = '"' then
            (readBody (r.length + 1) r).map fun e => (.str (String.ofList e.1), e.2)
          else if c = 'n' then (readLiteral ['u', 'l', 'l'] r).map fun r => (.null, r)
          else if c = 't' then (readLiteral ['r', 'u', 'e'] r).map fun r => (.bool true, r)
          else if c = 'f' then (readLiteral ['a', 'l', 's', 'e'] r).map fun r => (.bool false, r)
          else (readNumeral (c :: r)).map fun e => (.num e.1, e.2)

/-- One element or more, and the closing bracket. -/
def readElems : ℕ → List Char → Option (List JsonText × List Char)
  | 0, _ => none
  | fuel + 1, l => do
      let (x, r) ← readValue fuel l
      match skipSpace r with
      | [] => none
      | c :: r =>
          if c = ',' then (readElems fuel r).map fun e => (x :: e.1, e.2)
          else if c = ']' then some ([x], r)
          else none

/-- One member or more, and the closing brace. -/
def readFields : ℕ → List Char → Option (List (String × JsonText) × List Char)
  | 0, _ => none
  | fuel + 1, l =>
      match skipSpace l with
      | [] => none
      | q :: r =>
          if q ≠ '"' then none
          else do
            let (k, r) ← readBody (r.length + 1) r
            match skipSpace r with
            | [] => none
            | c :: r =>
                if c ≠ ':' then none
                else do
                  let (v, r) ← readValue fuel r
                  match skipSpace r with
                  | [] => none
                  | c :: r =>
                      if c = ',' then
                        (readFields fuel r).map fun e => ((String.ofList k, v) :: e.1, e.2)
                      else if c = '}' then some ([(String.ofList k, v)], r)
                      else none

end

/-- The first value of a text, whatever comes after it. -/
def readFirst (l : List Char) : Option JsonText := (readValue (l.length + 1) l).map Prod.fst

/-- The one value of a text. -/
def read (l : List Char) : Option JsonText := do
  let (t, r) ← readValue (l.length + 1) l
  if skipSpace r = [] then some t else none

/-! ## Writers -/

/-- The characters of numerals, in any spelling. -/
def isNumberChar (c : Char) : Bool :=
  c.isDigit || c == '.' || c == 'e' || c == 'E' || c == '+' || c == '-'

/-- How a writer spells characters and numerals, and the white space it leaves. What it
spells is read back. -/
structure Writer where
  escape : Char → List Char
  numeral : Numeral → List Char
  afterComma : List Char
  afterColon : List Char
  readChar_escape : ∀ c r, readChar (escape c ++ r) = some (c, r)
  readNumeral_numeral : ∀ n r, Text.Stops isNumberChar r →
    readNumeral (numeral n ++ r) = some (n, r)
  isSpace_afterComma : ∀ c ∈ afterComma, isSpace c = true
  isSpace_afterColon : ∀ c ∈ afterColon, isSpace c = true

namespace Writer

variable (w : Writer)

/-- A quoted string. -/
def string (s : String) : List Char := '"' :: (s.toList.flatMap w.escape ++ ['"'])

mutual

/-- The text of a tree. -/
def write : JsonText → List Char
  | .null => ['n', 'u', 'l', 'l']
  | .bool true => ['t', 'r', 'u', 'e']
  | .bool false => ['f', 'a', 'l', 's', 'e']
  | .num n => w.numeral n
  | .str s => w.string s
  | .arr [] => ['[', ']']
  | .arr (x :: xs) => '[' :: (write x ++ writeElems xs)
  | .obj [] => ['{', '}']
  | .obj ((k, v) :: fs) =>
      '{' :: (w.string k ++ ':' :: (w.afterColon ++ (write v ++ writeFields fs)))

/-- The elements after the first, and the closing bracket. -/
def writeElems : List JsonText → List Char
  | [] => [']']
  | x :: xs => ',' :: (w.afterComma ++ (write x ++ writeElems xs))

/-- The members after the first, and the closing brace. -/
def writeFields : List (String × JsonText) → List Char
  | [] => ['}']
  | (k, v) :: fs => ',' :: (w.afterComma ++
      (w.string k ++ ':' :: (w.afterColon ++ (write v ++ writeFields fs))))

end

/-! ## What is written is read back -/

/-- An escape is no closing quote. -/
theorem head_escape (c : Char) (r : List Char) :
    ∃ d l, w.escape c ++ r = d :: l ∧ d ≠ '"' := by
  have hread := w.readChar_escape c r
  cases h : w.escape c ++ r with
  | nil =>
      rw [h] at hread
      cases hread
  | cons d l =>
      refine ⟨d, l, rfl, ?_⟩
      rintro rfl
      rw [h] at hread
      cases hread

theorem readBody_string {s : List Char} {fuel : ℕ} (r : List Char) (h : s.length < fuel) :
    readBody fuel (s.flatMap w.escape ++ '"' :: r) = some (s, r) := by
  induction s generalizing fuel with
  | nil =>
      obtain ⟨fuel, rfl⟩ : ∃ n, fuel = n + 1 := ⟨fuel - 1, by simp at h; omega⟩
      simp [readBody]
  | cons c s ih =>
      obtain ⟨fuel, rfl⟩ : ∃ n, fuel = n + 1 := ⟨fuel - 1, by omega⟩
      rw [List.flatMap_cons, List.append_assoc]
      rcases w.head_escape c (s.flatMap w.escape ++ '"' :: r) with ⟨d, l, hl, hd⟩
      have hread := w.readChar_escape c (s.flatMap w.escape ++ '"' :: r)
      unfold readBody
      rw [hl] at hread ⊢
      rw [List.head?_cons, if_neg (by simpa using hd), hread]
      have hrest : readBody fuel (s.flatMap w.escape ++ '"' :: r) = some (s, r) :=
        ih (by simpa using h)
      simp [hrest]

theorem length_le_flatMap_escape (s : List Char) : s.length ≤ (s.flatMap w.escape).length := by
  induction s with
  | nil => simp
  | cons c s ih =>
      rcases w.head_escape c [] with ⟨d, l, hl, -⟩
      rw [List.append_nil] at hl
      rw [List.flatMap_cons, List.length_append, hl, List.length_cons, List.length_cons]
      omega

/-- A string is read back up to its closing quote. -/
theorem readBody_append (s : String) (r : List Char) :
    readBody ((s.toList.flatMap w.escape ++ '"' :: r).length + 1)
      (s.toList.flatMap w.escape ++ '"' :: r) = some (s.toList, r) := by
  apply w.readBody_string
  have hle := w.length_le_flatMap_escape s.toList
  rw [List.length_append]
  omega

theorem string_append (s : String) (r : List Char) :
    w.string s ++ r = '"' :: (s.toList.flatMap w.escape ++ '"' :: r) := by
  simp [string]

/-- A numeral starts with a digit or a minus sign. -/
theorem head_of_readNumeral {l : List Char} {e : Numeral × List Char}
    (h : readNumeral l = some e) : ∃ c r, l = c :: r ∧ (c = '-' ∨ c.isDigit = true) := by
  cases l with
  | nil => simp [readNumeral, readSign] at h
  | cons c r =>
      refine ⟨c, r, rfl, ?_⟩
      by_contra hc
      rw [not_or, Bool.not_eq_true] at hc
      -- without a sign there is no digit to start with
      have hrun : (c :: r).takeWhile Char.isDigit = [] := by simp [hc.2]
      simp [readNumeral, readSign, hc.1, hrun] at h

/-- A value starts with a character that is no white space and closes nothing. -/
theorem head_write (t : JsonText) :
    ∃ c l, w.write t = c :: l ∧ isSpace c = false ∧ c ≠ ']' ∧ c ≠ '}' := by
  cases t with
  | null => exact ⟨'n', _, by rw [write], by decide⟩
  | bool b =>
      cases b with
      | true => exact ⟨'t', _, by rw [write], by decide⟩
      | false => exact ⟨'f', _, by rw [write], by decide⟩
  | num n =>
      rcases head_of_readNumeral (w.readNumeral_numeral n [] (Text.stops_nil _)) with
        ⟨c, l, hl, hc⟩
      rw [List.append_nil] at hl
      refine ⟨c, l, by rw [write, hl], ?_⟩
      have hne : ∀ d : Char, d ≠ '-' → d.isDigit = false → c ≠ d := by
        rintro d hd hdigit rfl
        rcases hc with hc | hc
        · exact hd hc
        · rw [hdigit] at hc
          cases hc
      refine ⟨?_, hne _ (by decide) (by decide), hne _ (by decide) (by decide)⟩
      simp [isSpace, hne ' ' (by decide) (by decide), hne '\t' (by decide) (by decide),
        hne '\n' (by decide) (by decide), hne '\r' (by decide) (by decide)]
  | str s => exact ⟨'"', _, by rw [write, string], by decide⟩
  | arr xs =>
      cases xs with
      | nil => exact ⟨'[', _, by rw [write], by decide⟩
      | cons x xs => exact ⟨'[', _, by rw [write], by decide⟩
  | obj fs =>
      cases fs with
      | nil => exact ⟨'{', _, by rw [write], by decide⟩
      | cons f fs =>
          rcases f with ⟨k, v⟩
          exact ⟨'{', _, by rw [write], by decide⟩

/-- White space in front is skipped, up to a character that is none. -/
theorem skipSpace_append {sp : List Char} (hsp : ∀ c ∈ sp, isSpace c = true) {c : Char}
    (hc : isSpace c = false) (l : List Char) : skipSpace (sp ++ c :: l) = c :: l := by
  unfold skipSpace
  rw [List.dropWhile_append_of_pos hsp, List.dropWhile_cons_of_neg (by simp [hc])]

theorem skipSpace_cons {c : Char} (hc : isSpace c = false) (l : List Char) :
    skipSpace (c :: l) = c :: l := by
  have hnone : ∀ d ∈ ([] : List Char), isSpace d = true := fun d hd => absurd hd List.not_mem_nil
  exact skipSpace_append hnone hc l

/-- The text of the tree is read back, with white space in front of it and anything after
it that does not continue a numeral. -/
def ReadsBack (t : JsonText) : Prop :=
  ∀ (fuel : ℕ) (sp r : List Char), (∀ c ∈ sp, isSpace c = true) → Text.Stops isNumberChar r →
    (w.write t).length < fuel → readValue fuel (sp ++ (w.write t ++ r)) = some (t, r)

theorem stops_writeElems (xs : List JsonText) (r : List Char) :
    Text.Stops isNumberChar (w.writeElems xs ++ r) := by
  cases xs with
  | nil =>
      rw [writeElems, List.singleton_append, Text.stops_cons]
      decide
  | cons x xs =>
      rw [writeElems, List.cons_append, Text.stops_cons]
      decide

theorem stops_writeFields (fs : List (String × JsonText)) (r : List Char) :
    Text.Stops isNumberChar (w.writeFields fs ++ r) := by
  cases fs with
  | nil =>
      rw [writeFields, List.singleton_append, Text.stops_cons]
      decide
  | cons f fs =>
      rcases f with ⟨k, v⟩
      rw [writeFields, List.cons_append, Text.stops_cons]
      decide

/-- The elements of an array, when each of them is read back. -/
theorem readElems_write (x : JsonText) (xs : List JsonText) (h : ∀ y ∈ x :: xs, w.ReadsBack y)
    (fuel : ℕ) (sp r : List Char) (hsp : ∀ c ∈ sp, isSpace c = true)
    (hfuel : (w.write x).length + (w.writeElems xs).length < fuel) :
    readElems fuel (sp ++ (w.write x ++ (w.writeElems xs ++ r))) = some (x :: xs, r) := by
  induction xs generalizing x fuel sp with
  | nil =>
      obtain ⟨fuel, rfl⟩ : ∃ n, fuel = n + 1 := ⟨fuel - 1, by omega⟩
      rw [writeElems, List.length_singleton] at hfuel
      have hx := h x List.mem_cons_self fuel sp (w.writeElems [] ++ r) hsp
        (w.stops_writeElems [] r) (by omega)
      unfold readElems
      simp only [hx, bind, Option.bind]
      rw [writeElems, List.singleton_append, skipSpace_cons (by decide)]
      rfl
  | cons y xs ih =>
      obtain ⟨fuel, rfl⟩ : ∃ n, fuel = n + 1 := ⟨fuel - 1, by omega⟩
      rw [writeElems, List.length_cons, List.length_append, List.length_append] at hfuel
      have hx := h x List.mem_cons_self fuel sp (w.writeElems (y :: xs) ++ r) hsp
        (w.stops_writeElems (y :: xs) r) (by omega)
      have hrest := ih y (fun z hz => h z (List.mem_cons_of_mem x hz)) fuel w.afterComma
        w.isSpace_afterComma (by omega)
      unfold readElems
      simp only [hx, bind, Option.bind]
      rw [writeElems, List.cons_append, skipSpace_cons (by decide)]
      simp only [List.append_assoc, if_true, hrest, Option.map_some]

/-- The members of an object, when each value is read back. -/
theorem readFields_write (k : String) (v : JsonText) (fs : List (String × JsonText))
    (h : ∀ e ∈ (k, v) :: fs, w.ReadsBack e.2) (fuel : ℕ) (sp r : List Char)
    (hsp : ∀ c ∈ sp, isSpace c = true)
    (hfuel : (w.write v).length + (w.writeFields fs).length < fuel) :
    readFields fuel (sp ++ (w.string k ++ ':' :: (w.afterColon ++
      (w.write v ++ (w.writeFields fs ++ r))))) = some ((k, v) :: fs, r) := by
  induction fs generalizing k v fuel sp with
  | nil =>
      obtain ⟨fuel, rfl⟩ : ∃ n, fuel = n + 1 := ⟨fuel - 1, by omega⟩
      rw [writeFields, List.length_singleton] at hfuel
      have hv := h (k, v) List.mem_cons_self fuel w.afterColon (w.writeFields [] ++ r)
        w.isSpace_afterColon (w.stops_writeFields [] r) (by dsimp only; omega)
      unfold readFields
      rw [string_append, skipSpace_append hsp (by decide)]
      simp only [ne_eq, not_true_eq_false, if_false, w.readBody_append, bind, Option.bind]
      rw [skipSpace_cons (by decide)]
      simp only [not_true_eq_false, if_false, hv]
      rw [writeFields, List.singleton_append, skipSpace_cons (by decide)]
      simp
  | cons f fs ih =>
      obtain ⟨l, u⟩ := f
      obtain ⟨fuel, rfl⟩ : ∃ n, fuel = n + 1 := ⟨fuel - 1, by omega⟩
      rw [writeFields, List.length_cons, List.length_append, List.length_append, List.length_cons,
        List.length_append, List.length_append] at hfuel
      have hv := h (k, v) List.mem_cons_self fuel w.afterColon (w.writeFields ((l, u) :: fs) ++ r)
        w.isSpace_afterColon (w.stops_writeFields ((l, u) :: fs) r) (by dsimp only; omega)
      have hrest := ih l u (fun e he => h e (List.mem_cons_of_mem _ he)) fuel w.afterComma
        w.isSpace_afterComma (by omega)
      unfold readFields
      rw [string_append, skipSpace_append hsp (by decide)]
      simp only [ne_eq, not_true_eq_false, if_false, w.readBody_append, bind, Option.bind]
      rw [skipSpace_cons (by decide)]
      simp only [not_true_eq_false, if_false, hv]
      rw [writeFields, List.cons_append, skipSpace_cons (by decide)]
      simp only [List.append_assoc, List.cons_append, if_true, hrest]
      simp

/-- Every tree is read back. -/
theorem readsBack (t : JsonText) : w.ReadsBack t := by
  refine JsonText.induction ?_ ?_ ?_ t
  · intro t hleaf fuel sp r hsp hr hfuel
    obtain ⟨fuel, rfl⟩ : ∃ n, fuel = n + 1 := ⟨fuel - 1, by omega⟩
    unfold readValue
    cases t with
    | null =>
        rw [write, List.cons_append, skipSpace_append hsp (by decide)]
        simp [readLiteral]
    | bool b =>
        cases b with
        | true =>
            rw [write, List.cons_append, skipSpace_append hsp (by decide)]
            simp [readLiteral]
        | false =>
            rw [write, List.cons_append, skipSpace_append hsp (by decide)]
            simp [readLiteral]
    | str s =>
        rw [write, string_append, skipSpace_append hsp (by decide)]
        simp only [Char.reduceEq, if_false, if_true, w.readBody_append, Option.map_some,
          String.ofList_toList]
    | num n =>
        have hread := w.readNumeral_numeral n r hr
        rcases head_of_readNumeral hread with ⟨c, l, hl, hc⟩
        rcases w.head_write (.num n) with ⟨d, m, hm, hspace, -, -⟩
        rw [write] at hm
        obtain rfl : d = c := by
          rw [hm, List.cons_append] at hl
          exact (List.cons.inj hl).1
        rw [write, hl, skipSpace_append hsp hspace]
        rw [hl] at hread
        -- no other kind of value starts with a digit or a minus sign
        have hne : ∀ e : Char, e ≠ '-' → e.isDigit = false → d ≠ e := by
          rintro e he hdigit rfl
          rcases hc with hc | hc
          · exact he hc
          · rw [hdigit] at hc
            cases hc
        simp only [if_neg (hne '{' (by decide) (by decide)),
          if_neg (hne '[' (by decide) (by decide)), if_neg (hne '"' (by decide) (by decide)),
          if_neg (hne 'n' (by decide) (by decide)), if_neg (hne 't' (by decide) (by decide)),
          if_neg (hne 'f' (by decide) (by decide)), hread, Option.map_some]
    | arr xs => cases hleaf
    | obj fs => cases hleaf
  · intro xs h fuel sp r hsp hr hfuel
    obtain ⟨fuel, rfl⟩ : ∃ n, fuel = n + 1 := ⟨fuel - 1, by omega⟩
    unfold readValue
    cases xs with
    | nil =>
        rw [write, List.cons_append, skipSpace_append hsp (by decide)]
        simp [skipSpace, isSpace]
    | cons x xs =>
        rw [write, List.length_cons, List.length_append] at hfuel
        rw [write, List.cons_append, skipSpace_append hsp (by decide)]
        rcases w.head_write x with ⟨c, l, hl, hspace, hclose, -⟩
        have hrest := w.readElems_write x xs h fuel [] r (by simp) (by omega)
        have hhead : (skipSpace ((w.write x ++ w.writeElems xs) ++ r)).head? ≠ some ']' := by
          rw [hl, List.cons_append, List.cons_append, skipSpace_cons hspace]
          simpa using hclose
        rw [List.nil_append, ← List.append_assoc] at hrest
        simp only [if_neg hhead, hrest]
        simp
  · intro fs h fuel sp r hsp hr hfuel
    obtain ⟨fuel, rfl⟩ : ∃ n, fuel = n + 1 := ⟨fuel - 1, by omega⟩
    unfold readValue
    cases fs with
    | nil =>
        rw [write, List.cons_append, skipSpace_append hsp (by decide)]
        simp [skipSpace, isSpace]
    | cons f fs =>
        rcases f with ⟨k, v⟩
        simp only [write, List.length_cons, List.length_append] at hfuel
        rw [write, List.cons_append, skipSpace_append hsp (by decide)]
        have hrest := w.readFields_write k v fs h fuel [] r (by simp) (by omega)
        simp only [List.nil_append] at hrest
        simp only [List.append_assoc, List.cons_append, if_true, hrest]
        rw [string_append, skipSpace_cons (by decide)]
        simp

/-- A written tree is read as the one value of its text. -/
theorem read_write (t : JsonText) : read (w.write t) = some t := by
  have h := w.readsBack t ((w.write t).length + 1) [] [] (by simp) (Text.stops_nil _) (by omega)
  rw [List.nil_append, List.append_nil] at h
  rw [read, h]
  rfl

theorem readFirst_write (t : JsonText) : readFirst (w.write t) = some t := by
  have h := w.readsBack t ((w.write t).length + 1) [] [] (by simp) (Text.stops_nil _) (by omega)
  rw [List.nil_append, List.append_nil] at h
  simp [readFirst, h]

end Writer

end JsonText
