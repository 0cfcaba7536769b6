import ClaimGuard.Lib.JsonRead

/-!
# Two writers of JSON

The compact writer leaves no white space and writes every character that need not be
escaped; the ASCII writer leaves a space after commas and colons, escapes every
character outside printable ASCII, those beyond the basic plane as surrogate pairs,
and gives exponents a sign and two digits.
-/

namespace JsonText

/-! ## Numerals in any spelling -/

/-- A numeral, its exponent spelled in some way. -/
def spellNumeral (exponent : ℤ → List Char) (n : Numeral) : List Char :=
  let rest := Text.decimal (n.mantissa / 10 ^ n.scale) ++
    (n.fractionText ++ (n.exponent.map exponent).getD [])
  if n.neg then '-' :: rest else rest

/-- The spelling is read back, and starts with the letter of an exponent. -/
structure SpellsExponents (exponent : ℤ → List Char) : Prop where
  letter : ∀ e, ∃ c l, exponent e = c :: l ∧ (c = 'e' ∨ c = 'E')
  read : ∀ e r, Text.Stops Char.isDigit r → readExponent (exponent e ++ r) = some (some e, r)

theorem stops_isDigit {r : List Char} (h : Text.Stops isNumberChar r) :
    Text.Stops Char.isDigit r := by
  intro c hc
  have hnot := h c hc
  simp only [isNumberChar, Bool.or_eq_false_iff] at hnot
  exact hnot.1.1.1.1.1

/-- A decimal has no leading zeros. -/
theorem length_decimal_of_head {n : ℕ} (h : (Text.decimal n).head? = some '0') :
    (Text.decimal n).length = 1 := by
  induction n using Nat.strong_induction_on with
  | _ n ih =>
      unfold Text.decimal at h ih ⊢
      rw [Nat.toDigits_eq_if (by decide)] at h ⊢
      split
      · rfl
      · rename_i hn
        rw [if_neg hn, List.head?_append_of_ne_nil _ Nat.toDigits_ne_nil] at h
        have hone := ih (n / 10) (Nat.div_lt_self (by omega) (by decide)) h
        -- a single digit that is zero is the number zero
        have hsmall : n / 10 < 10 := by
          by_contra hlarge
          rw [Nat.toDigits_eq_if (by decide), if_neg hlarge, List.length_append] at hone
          have hpos := List.length_pos_iff.2 (Nat.toDigits_ne_nil (n := n / 10 / 10) (b := 10))
          rw [List.length_singleton] at hone
          omega
        rw [Nat.toDigits_of_lt_base hsmall, List.head?_cons] at h
        have hzero : n / 10 = 0 := by
          have key : ∀ d : Fin 10, Nat.digitChar d = '0' → d = 0 := by decide
          exact Fin.mk.inj (key ⟨n / 10, hsmall⟩ (Option.some.inj h))
        omega

section

variable {exponent : ℤ → List Char} (hexp : SpellsExponents exponent)

include hexp

theorem readExponent_spelled (o : Option ℤ) {r : List Char} (hr : Text.Stops isNumberChar r) :
    readExponent ((o.map exponent).getD [] ++ r) = some (o, r) := by
  cases o with
  | some e => exact hexp.read e r (stops_isDigit hr)
  | none =>
      cases r with
      | nil => rfl
      | cons c r =>
          rw [Text.stops_cons] at hr
          have hc : ¬ (c = 'e' ∨ c = 'E') := by
            rintro (rfl | rfl) <;> exact absurd hr (by decide)
          simp [readExponent, hc]

theorem stops_exponent (o : Option ℤ) {r : List Char} (hr : Text.Stops isNumberChar r) :
    Text.Stops (fun c => c.isDigit || c == '.') ((o.map exponent).getD [] ++ r) := by
  cases o with
  | some e =>
      rcases hexp.letter e with ⟨c, l, hl, hc⟩
      rw [Option.map_some, Option.getD_some, hl, List.cons_append, Text.stops_cons]
      rcases hc with rfl | rfl <;> decide
  | none =>
      intro c hc
      have hnot := hr c hc
      simp only [isNumberChar, Bool.or_eq_false_iff] at hnot
      simp [hnot.1.1.1.1.1, hnot.1.1.1.1.2]

theorem readFraction_spelled (n : Numeral) {r : List Char} (hr : Text.Stops isNumberChar r) :
    readFraction (n.fractionText ++ ((n.exponent.map exponent).getD [] ++ r)) =
      some (Text.fixed 10 n.scale (n.mantissa % 10 ^ n.scale),
        (n.exponent.map exponent).getD [] ++ r) := by
  have hstops := stops_exponent hexp n.exponent hr
  generalize (n.exponent.map exponent).getD [] ++ r = rest at hstops
  unfold Numeral.fractionText
  by_cases hscale : n.scale = 0
  · rw [if_pos hscale, List.nil_append, hscale]
    cases rest with
    | nil => rfl
    | cons c rest =>
        rw [Text.stops_cons, Bool.or_eq_false_iff] at hstops
        have hc : c ≠ '.' := by simpa using hstops.2
        simp [readFraction, Text.fixed, hc]
  · have hspan : (Text.fixed 10 n.scale (n.mantissa % 10 ^ n.scale) ++ rest).span Char.isDigit =
        (Text.fixed 10 n.scale (n.mantissa % 10 ^ n.scale), rest) := by
      apply Text.span_of_stops fun _ => Text.isDigit_of_mem_fixed
      intro c hc
      exact (Bool.or_eq_false_iff.1 (hstops c hc)).1
    have hsome : Text.fixed 10 n.scale (n.mantissa % 10 ^ n.scale) ≠ [] := by
      intro hnil
      have hlen := Text.length_fixed 10 n.scale (n.mantissa % 10 ^ n.scale)
      rw [hnil] at hlen
      exact hscale hlen.symm
    rw [if_neg hscale, List.cons_append, readFraction, hspan, if_neg hsome]

/-- A numeral is read back, whatever the spelling of its exponent. -/
theorem readNumeral_spelled (n : Numeral) {r : List Char} (hr : Text.Stops isNumberChar r) :
    readNumeral (spellNumeral exponent n ++ r) = some (n, r) := by
  have hunsigned : ∀ s : Option Char, readSign (fun c => c == '-') (spellNumeral exponent n ++ r) =
      (s, Text.decimal (n.mantissa / 10 ^ n.scale) ++
        (n.fractionText ++ ((n.exponent.map exponent).getD [] ++ r))) → s.isSome = n.neg →
      readNumeral (spellNumeral exponent n ++ r) = some (n, r) := by
    intro s hsign hneg
    have hspan : (Text.decimal (n.mantissa / 10 ^ n.scale) ++
        (n.fractionText ++ ((n.exponent.map exponent).getD [] ++ r))).span Char.isDigit =
        (Text.decimal (n.mantissa / 10 ^ n.scale),
          n.fractionText ++ ((n.exponent.map exponent).getD [] ++ r)) := by
      apply Text.span_of_stops fun _ => Text.isDigit_of_mem_decimal
      unfold Numeral.fractionText
      by_cases hscale : n.scale = 0
      · rw [if_pos hscale, List.nil_append]
        intro c hc
        exact (Bool.or_eq_false_iff.1 (stops_exponent hexp n.exponent hr c hc)).1
      · rw [if_neg hscale, List.cons_append, Text.stops_cons]
        decide
    have hleading : ¬ (Text.decimal (n.mantissa / 10 ^ n.scale) = [] ∨
        ((Text.decimal (n.mantissa / 10 ^ n.scale)).head? = some '0' ∧
          (Text.decimal (n.mantissa / 10 ^ n.scale)).length ≠ 1)) := by
      rintro (hnil | ⟨hhead, hlen⟩)
      · exact Text.decimal_ne_nil _ hnil
      · exact hlen (length_decimal_of_head hhead)
    -- the digits before and after the point make up the mantissa
    have hmantissa : Text.ofDigits (Text.decimal (n.mantissa / 10 ^ n.scale) ++
        Text.fixed 10 n.scale (n.mantissa % 10 ^ n.scale)) = n.mantissa := by
      rw [Text.ofDigits_append, Text.ofDigits_decimal,
        Text.ofDigits_fixed (Nat.mod_lt _ (pow_pos (by decide) _)), Text.length_fixed]
      exact Nat.div_add_mod' n.mantissa (10 ^ n.scale)
    unfold readNumeral
    simp only [hsign, hspan, if_neg hleading, readFraction_spelled hexp n hr,
      readExponent_spelled hexp n.exponent hr, bind, Option.bind, hmantissa, Text.length_fixed,
      hneg]
  cases hneg : n.neg with
  | true =>
      refine hunsigned (some '-') ?_ hneg.symm
      simp [spellNumeral, hneg, readSign]
  | false =>
      refine hunsigned none ?_ hneg.symm
      rcases Text.exists_decimal_eq_cons (n.mantissa / 10 ^ n.scale) with ⟨c, l, hl, hc⟩
      have hne : c ≠ '-' := by
        rintro rfl
        exact absurd hc (by decide)
      simp [spellNumeral, hneg, hl, readSign, hne]

end

/-! ## Exponents -/

/-- A numeral's own text has a capital letter and no sign that is not needed. -/
theorem spellsExponents_text : SpellsExponents fun e => 'E' :: Text.decimalInt e where
  letter e := ⟨'E', _, rfl, Or.inr rfl⟩
  read e r hr := by
    have hspan : ∀ n : ℕ, (Text.decimal n ++ r).span Char.isDigit = (Text.decimal n, r) :=
      fun n => Text.span_of_stops (fun _ => Text.isDigit_of_mem_decimal) hr
    unfold Text.decimalInt
    by_cases he : e < 0
    · rw [if_pos he]
      have hvalue : -(e.natAbs : ℤ) = e := by omega
      simp only [readExponent, readSign, List.cons_append, or_true, if_true, beq_self_eq_true,
        Bool.or_true, hspan, Text.decimal_ne_nil, if_false, Text.ofDigits_decimal, hvalue]
    · rw [if_neg he]
      have hvalue : (e.natAbs : ℤ) = e := by omega
      rcases Text.exists_decimal_eq_cons e.natAbs with ⟨c, l, hl, hc⟩
      have hsign : (c == '+' || c == '-') = false := by
        by_contra hsign
        rw [Bool.not_eq_false, Bool.or_eq_true, beq_iff_eq, beq_iff_eq] at hsign
        rcases hsign with rfl | rfl <;> exact absurd hc (by decide)
      have hread := hspan e.natAbs
      rw [hl, List.cons_append] at hread
      have hdigits : Text.ofDigits (c :: l) = e.natAbs := by rw [← hl, Text.ofDigits_decimal]
      simp only [readExponent, readSign, hl, List.cons_append, or_true, if_true, hsign,
        Bool.false_eq_true, if_false, hread, hdigits, reduceCtorEq, hvalue]

/-- The text of a numeral is one of its spellings. -/
theorem spellNumeral_text (n : Numeral) :
    spellNumeral (fun e => 'E' :: Text.decimalInt e) n = n.text := by
  unfold spellNumeral Numeral.text Numeral.unsignedText Numeral.exponentText
  cases n.exponent <;> rfl

/-- A signed exponent of two digits or more. -/
def signedExponent (e : ℤ) : List Char :=
  'e' :: (if e < 0 then '-' else '+') ::
    ((if e.natAbs < 10 then ['0'] else []) ++ Text.decimal e.natAbs)

theorem spellsExponents_signed : SpellsExponents signedExponent where
  letter e := ⟨'e', _, rfl, Or.inl rfl⟩
  read e r hr := by
    have hdigit : ∀ c ∈ (if e.natAbs < 10 then ['0'] else []) ++ Text.decimal e.natAbs,
        c.isDigit = true := by
      intro c hc
      rcases List.mem_append.1 hc with hc | hc
      · split at hc
        · rw [List.mem_singleton.1 hc]
          decide
        · cases hc
      · exact Text.isDigit_of_mem_decimal hc
    have hspan := Text.span_of_stops hdigit hr
    have hvalue : Text.ofDigits ((if e.natAbs < 10 then ['0'] else []) ++ Text.decimal e.natAbs) =
        e.natAbs := by
      rw [Text.ofDigits_append, Text.ofDigits_decimal]
      split
      · simp [Text.ofDigits, Nat.ofDigitChars_cons]
      · simp [Text.ofDigits]
    have hne : (if e.natAbs < 10 then ['0'] else []) ++ Text.decimal e.natAbs ≠ [] := by
      simp [Text.decimal_ne_nil]
    unfold signedExponent
    by_cases he : e < 0
    · have hneg : -(e.natAbs : ℤ) = e := by omega
      simp only [readExponent, readSign, List.cons_append, true_or, if_true, if_pos he,
        beq_self_eq_true, Bool.or_true, hspan, hne, if_false, hvalue, hneg]
    · have hpos : (e.natAbs : ℤ) = e := by omega
      have hplus : ¬ some '+' = some '-' := by decide
      simp only [readExponent, readSign, List.cons_append, true_or, if_true, if_neg he,
        beq_self_eq_true, Bool.true_or, hspan, hne, if_false, hvalue, hpos, hplus]

/-! ## Escapes -/

theorem hexDigit?_digitChar {d : ℕ} (h : d < 16) : hexDigit? (Nat.digitChar d) = some d := by
  have key : ∀ d : Fin 16, hexDigit? (Nat.digitChar d) = some d.val := by decide
  exact key ⟨d, h⟩

/-- Four hexadecimal digits are read back. -/
theorem readHex4_fixed {n : ℕ} (h : n < 0x10000) (r : List Char) :
    readHex4 (Text.fixed 16 4 n ++ r) = some (n, r) := by
  have hn : ((16 * (n / 16 / 16 / 16 % 16) + n / 16 / 16 % 16) * 16 + n / 16 % 16) * 16 + n % 16 =
      n := by omega
  simp only [Text.fixed, List.nil_append, List.cons_append, readHex4,
    hexDigit?_digitChar (Nat.mod_lt _ (by decide : 0 < 16)), bind, Option.bind, hn]

/-- A character outside the surrogates, as one escape. -/
theorem readUnit_fixed {c : Char} (h : c.toNat < 0x10000) (r : List Char) :
    readUnit (Text.fixed 16 4 c.toNat ++ r) = some (c, r) := by
  have hvalid : c.toNat < 0xD800 ∨ 0xDFFF < c.toNat := by
    rcases c.valid with h | ⟨h, -⟩
    · exact Or.inl h
    · exact Or.inr h
  unfold readUnit
  simp only [readHex4_fixed h, bind, Option.bind, if_pos hvalid, Char.ofNat_toNat]

/-- The two code units of a character beyond the basic plane, each as an escape. -/
def surrogatePair (c : Char) : List Char :=
  '\\' :: 'u' :: (Text.fixed 16 4 (0xD800 + (c.toNat - 0x10000) / 0x400) ++
    '\\' :: 'u' :: Text.fixed 16 4 (0xDC00 + (c.toNat - 0x10000) % 0x400))

/-- Two surrogates are read as one character. -/
theorem readUnit_pair {high low : ℕ} (hhigh : 0xD800 ≤ high ∧ high < 0xDC00)
    (hlow : 0xDC00 ≤ low ∧ low ≤ 0xDFFF) (r : List Char) :
    readUnit (Text.fixed 16 4 high ++ '\\' :: 'u' :: (Text.fixed 16 4 low ++ r)) =
      some (Char.ofNat (0x10000 + (high - 0xD800) * 0x400 + (low - 0xDC00)), r) := by
  unfold readUnit
  simp only [readHex4_fixed (show high < 0x10000 by omega),
    readHex4_fixed (show low < 0x10000 by omega), bind, Option.bind]
  rw [if_neg (by omega), if_neg (by omega), if_pos hlow]

theorem readChar_surrogatePair {c : Char} (h : 0x10000 ≤ c.toNat) (r : List Char) :
    readChar (surrogatePair c ++ r) = some (c, r) := by
  have hmax : c.toNat < 0x110000 := by
    rcases c.valid with h | ⟨-, h⟩
    · exact lt_trans h (by decide)
    · exact h
  have hpair : ∀ high low : ℕ, high = 0xD800 + (c.toNat - 0x10000) / 0x400 →
      low = 0xDC00 + (c.toNat - 0x10000) % 0x400 →
      readUnit (Text.fixed 16 4 high ++ '\\' :: 'u' :: (Text.fixed 16 4 low ++ r)) =
        some (c, r) := by
    intro high low hhigh hlow
    have hsum : 0x10000 + (high - 0xD800) * 0x400 + (low - 0xDC00) = c.toNat := by omega
    rw [readUnit_pair (by omega) (by omega), hsum, Char.ofNat_toNat]
  unfold readChar surrogatePair
  simp only [List.cons_append, List.append_assoc, if_true]
  exact hpair _ _ rfl rfl

/-- A character with an escape of one letter, and any other printed by `other`. -/
def escapeWith (other : Char → List Char) (c : Char) : List Char :=
  if c = '"' then ['\\', '"']
  else if c = '\\' then ['\\', '\\']
  else if c.toNat = 8 then ['\\', 'b']
  else if c.toNat = 9 then ['\\', 't']
  else if c.toNat = 10 then ['\\', 'n']
  else if c.toNat = 12 then ['\\', 'f']
  else if c.toNat = 13 then ['\\', 'r']
  else other c

theorem readChar_escapeWith (other : Char → List Char)
    (hother : ∀ c r, c ≠ '"' → c ≠ '\\' → readChar (other c ++ r) = some (c, r)) (c : Char)
    (r : List Char) : readChar (escapeWith other c ++ r) = some (c, r) := by
  have heq : ∀ n, c.toNat = n → Char.ofNat n = c := by
    rintro n rfl
    exact Char.ofNat_toNat c
  unfold escapeWith
  split_ifs with hquote hbackslash h8 h9 h10 h12 h13
  · rw [hquote]
    rfl
  · rw [hbackslash]
    rfl
  · rw [← heq 8 h8]
    rfl
  · rw [← heq 9 h9]
    rfl
  · rw [← heq 10 h10]
    rfl
  · rw [← heq 12 h12]
    rfl
  · rw [← heq 13 h13]
    rfl
  · exact hother c r hquote hbackslash

/-! ## The compact writer -/

theorem readChar_self {c : Char} (hquote : c ≠ '"') (hbackslash : c ≠ '\\') (h : 32 ≤ c.toNat)
    (r : List Char) : readChar (c :: r) = some (c, r) := by
  unfold readChar
  dsimp only
  rw [if_neg hbackslash, if_neg (by rw [not_or]; exact ⟨hquote, by omega⟩)]

theorem readChar_escapeChar (c : Char) (r : List Char) :
    readChar (escapeChar c ++ r) = some (c, r) := by
  refine readChar_escapeWith (fun c =>
    if c.toNat < 32 then
      ['\\', 'u', '0', '0', hexDigit (c.toNat / 16), hexDigit (c.toNat % 16)]
    else [c]) ?_ c r
  intro c r hquote hbackslash
  split
  · -- the control characters one by one
    rename_i hctl
    have key : ∀ n : Fin 32, hexDigit? (hexDigit (n.val / 16)) = some (n.val / 16) ∧
        hexDigit? (hexDigit (n.val % 16)) = some (n.val % 16) := by decide
    obtain ⟨hhigh, hlow⟩ := key ⟨c.toNat, hctl⟩
    have hvalue : 16 * (c.toNat / 16) + c.toNat % 16 = c.toNat := by omega
    have hzero : hexDigit? '0' = some 0 := by decide
    simp only [readChar, List.cons_append, List.nil_append, if_true, readUnit, readHex4, hzero,
      hhigh, hlow, bind, Option.bind, Nat.mul_zero, Nat.zero_add, Nat.zero_mul]
    rw [Nat.mul_comm (c.toNat / 16) 16, hvalue, if_pos (Or.inl (by omega)), Char.ofNat_toNat]
  · exact readChar_self hquote hbackslash (by omega) r

/-- The compact writer. -/
def compact : Writer where
  escape := escapeChar
  numeral := Numeral.text
  afterComma := []
  afterColon := []
  readChar_escape := readChar_escapeChar
  readNumeral_numeral n r hr := by
    rw [← spellNumeral_text]
    exact readNumeral_spelled spellsExponents_text n hr
  isSpace_afterComma := by simp
  isSpace_afterColon := by simp

theorem compact_writeElems {xs : List JsonText} (h : ∀ x ∈ xs, compact.write x = render x) :
    compact.writeElems xs = renderElems xs := by
  induction xs with
  | nil => rfl
  | cons x xs ih =>
      obtain ⟨hx, hxs⟩ := List.forall_mem_cons.1 h
      rw [Writer.writeElems, renderElems, hx, ih hxs]
      rfl

theorem compact_writeFields {fs : List (String × JsonText)}
    (h : ∀ e ∈ fs, compact.write e.2 = render e.2) :
    compact.writeFields fs = renderFields fs := by
  induction fs with
  | nil => rfl
  | cons e fs ih =>
      obtain ⟨k, v⟩ := e
      obtain ⟨hv, hfs⟩ := List.forall_mem_cons.1 h
      rw [Writer.writeFields, renderFields, hv, ih hfs]
      rfl

/-- It writes the compact text. -/
theorem compact_write (t : JsonText) : compact.write t = render t := by
  induction t using JsonText.induction with
  | leaf t ht =>
      cases t with
      | bool b => cases b <;> rfl
      | arr xs => cases ht
      | obj fs => cases ht
      | _ => rfl
  | arr xs ih =>
      cases xs with
      | nil => rfl
      | cons x xs =>
          obtain ⟨hx, hxs⟩ := List.forall_mem_cons.1 ih
          rw [Writer.write, render, hx, compact_writeElems hxs]
  | obj fs ih =>
      cases fs with
      | nil => rfl
      | cons e fs =>
          obtain ⟨k, v⟩ := e
          obtain ⟨hv, hfs⟩ := List.forall_mem_cons.1 ih
          rw [Writer.write, render, hv, compact_writeFields hfs]
          rfl

/-- The compact text determines the tree. -/
theorem render_inj {t u : JsonText} (h : render t = render u) : t = u := by
  have hread : some t = some u := by
    rw [← compact.read_write t, ← compact.read_write u, compact_write, compact_write, h]
  exact Option.some.inj hread

/-! ## The ASCII writer -/

/-- A printable ASCII character as it is, any other as its code units. -/
def asciiChar (c : Char) : List Char :=
  if 32 ≤ c.toNat ∧ c.toNat < 127 then [c]
  else if c.toNat < 0x10000 then '\\' :: 'u' :: Text.fixed 16 4 c.toNat
  else surrogatePair c

theorem readChar_asciiChar (c : Char) (r : List Char) (hquote : c ≠ '"') (hbackslash : c ≠ '\\') :
    readChar (asciiChar c ++ r) = some (c, r) := by
  unfold asciiChar
  split_ifs with hprintable hbasic
  · exact readChar_self hquote hbackslash hprintable.1 r
  · simp only [readChar, List.cons_append, if_true, readUnit_fixed hbasic]
  · exact readChar_surrogatePair (by omega) r

/-- The ASCII writer. -/
def ascii : Writer where
  escape := escapeWith asciiChar
  numeral := spellNumeral signedExponent
  afterComma := [' ']
  afterColon := [' ']
  readChar_escape := readChar_escapeWith _ readChar_asciiChar
  readNumeral_numeral n _ hr := readNumeral_spelled spellsExponents_signed n hr
  isSpace_afterComma := by simp [isSpace]
  isSpace_afterColon := by simp [isSpace]

end JsonText
