import ClaimGuard.Lib.Text

/-!
# Universally unique identifiers

A 128-bit identifier and its printed form: thirty-two hexadecimal digits in
groups of 8, 4, 4, 4 and 12. Reading the printed form gives the identifier back.
-/

/-- A 128-bit identifier. -/
structure UUID where
  bits : BitVec 128
deriving DecidableEq, Repr

namespace UUID

/-- The printed form, `8-4-4-4-12`. -/
def chars (u : UUID) : List Char :=
  let n := u.bits.toNat
  Text.fixed 16 8 (n / 16 ^ 24) ++ '-' :: (Text.fixed 16 4 (n / 16 ^ 20 % 16 ^ 4) ++ '-' ::
    (Text.fixed 16 4 (n / 16 ^ 16 % 16 ^ 4) ++ '-' ::
      (Text.fixed 16 4 (n / 16 ^ 12 % 16 ^ 4) ++ '-' :: Text.fixed 16 12 (n % 16 ^ 12))))

/-- The printed form as a string. -/
def toString (u : UUID) : String := String.ofList u.chars

/-- A group of digits is read back from the front of a text. -/
private theorem group_append_inj {w m n : ℕ} {r s : List Char} (hm : m < 16 ^ w)
    (hn : n < 16 ^ w) (h : Text.fixed 16 w m ++ '-' :: r = Text.fixed 16 w n ++ '-' :: s) :
    m = n ∧ r = s := by
  obtain ⟨hd, hrs⟩ := List.append_inj h (by simp)
  exact ⟨Text.fixed_inj (by decide) (by decide) hm hn hd, (List.cons.inj hrs).2⟩

/-- Identifiers that print alike are equal. -/
theorem toString_injective : Function.Injective toString := by
  intro u v h
  have hu := u.bits.isLt
  have hv := v.bits.isLt
  have hchars : u.chars = v.chars := String.ofList_injective h
  unfold chars at hchars
  obtain ⟨h₁, hchars⟩ := group_append_inj (by omega) (by omega) hchars
  obtain ⟨h₂, hchars⟩ := group_append_inj (by omega) (by omega) hchars
  obtain ⟨h₃, hchars⟩ := group_append_inj (by omega) (by omega) hchars
  obtain ⟨h₄, hchars⟩ := group_append_inj (by omega) (by omega) hchars
  have h₅ := Text.fixed_inj (by decide) (by decide) (Nat.mod_lt _ (by decide))
    (Nat.mod_lt _ (by decide)) hchars
  have hn : u.bits.toNat = v.bits.toNat := by omega
  rcases u with ⟨x⟩
  rcases v with ⟨y⟩
  exact congrArg UUID.mk (BitVec.eq_of_toNat_eq hn)

/-- What holds of the digits and of a hyphen holds of the characters of an identifier. -/
theorem of_mem_toString {p : Char → Prop} (hdigit : ∀ d < 16, p (Nat.digitChar d))
    (hhyphen : p '-') {u : UUID} {c : Char} (h : c ∈ u.toString.toList) : p c := by
  have hfixed : ∀ {w n : ℕ}, c ∈ Text.fixed 16 w n → p c := Text.of_mem_fixed (by decide) hdigit
  unfold toString chars at h
  rw [String.toList_ofList] at h
  simp only [List.mem_append, List.mem_cons] at h
  rcases h with h | rfl | h | rfl | h | rfl | h | rfl | h
  · exact hfixed h
  · exact hhyphen
  · exact hfixed h
  · exact hhyphen
  · exact hfixed h
  · exact hhyphen
  · exact hfixed h
  · exact hhyphen
  · exact hfixed h

/-! ## Reading -/

/-- The value of a hexadecimal digit. -/
def hexValue (c : Char) : Option ℕ :=
  if 0x30 ≤ c.toNat ∧ c.toNat ≤ 0x39 then some (c.toNat - 0x30)
  else if 0x41 ≤ c.toNat ∧ c.toNat ≤ 0x46 then some (c.toNat - 0x37)
  else if 0x61 ≤ c.toNat ∧ c.toNat ≤ 0x66 then some (c.toNat - 0x57)
  else none

/-- The number that some hexadecimal digits stand for, after the digits of `a`. -/
def readHex : ℕ → List Char → Option ℕ
  | a, [] => some a
  | a, c :: digits => (hexValue c).bind fun d => readHex (16 * a + d) digits

/-- The identifier with the printed form `s`, in any letter case. -/
def parse? (s : String) : Option UUID :=
  let digits := s.toList.filter fun c => decide (c ≠ '-')
  if s.length = 36 ∧ digits.length = 32 ∧
      [8, 13, 18, 23].all (fun i => decide (s.toList[i]? = some '-')) = true then
    (readHex 0 digits).map fun n => ⟨BitVec.ofNat 128 n⟩
  else none

theorem readHex_append (a : ℕ) (l r : List Char) :
    readHex a (l ++ r) = (readHex a l).bind fun b => readHex b r := by
  induction l generalizing a with
  | nil => rfl
  | cons c l ih => simp only [List.cons_append, readHex, ih, Option.bind_assoc]

theorem hexValue_digitChar {d : ℕ} (hd : d < 16) : hexValue (Nat.digitChar d) = some d := by
  have key : ∀ a : Fin 16, hexValue (Nat.digitChar a) = some a.1 := by decide
  exact key ⟨d, hd⟩

/-- Digits of fixed width are read back. -/
theorem readHex_fixed (a w n : ℕ) (hn : n < 16 ^ w) :
    readHex a (Text.fixed 16 w n) = some (a * 16 ^ w + n) := by
  induction w generalizing n with
  | zero =>
      obtain rfl : n = 0 := by simpa using hn
      simp [Text.fixed, readHex]
  | succ w ih =>
      have hdiv : n / 16 < 16 ^ w := Nat.div_lt_of_lt_mul (by rwa [pow_succ, mul_comm] at hn)
      rw [Text.fixed, readHex_append, ih _ hdiv, Option.bind_some, readHex,
        hexValue_digitChar (Nat.mod_lt n (by omega)), Option.bind_some, readHex]
      have hpow : a * 16 ^ (w + 1) = 16 * (a * 16 ^ w) := by
        rw [pow_succ, ← mul_assoc, mul_comm]
      have hmod := Nat.div_add_mod n 16
      congr 1
      omega

/-- No digit is a hyphen. -/
theorem filter_fixed (w n : ℕ) :
    (Text.fixed 16 w n).filter (fun c => decide (c ≠ '-')) = Text.fixed 16 w n := by
  have key : ∀ a : Fin 16, Nat.digitChar a ≠ '-' := by decide
  induction w generalizing n with
  | zero => rfl
  | succ w ih =>
      have hlast := key ⟨n % 16, Nat.mod_lt n (by omega)⟩
      rw [Text.fixed, List.filter_append, ih]
      simp [hlast]

/-- The digits of the printed form. -/
theorem filter_chars (u : UUID) : u.chars.filter (fun c => decide (c ≠ '-')) =
    Text.fixed 16 8 (u.bits.toNat / 16 ^ 24) ++
      (Text.fixed 16 4 (u.bits.toNat / 16 ^ 20 % 16 ^ 4) ++
        (Text.fixed 16 4 (u.bits.toNat / 16 ^ 16 % 16 ^ 4) ++
          (Text.fixed 16 4 (u.bits.toNat / 16 ^ 12 % 16 ^ 4) ++
            Text.fixed 16 12 (u.bits.toNat % 16 ^ 12)))) := by
  unfold chars
  simp only [List.filter_append, List.filter_cons, filter_fixed, ne_eq, not_true, decide_false,
    Bool.false_eq_true, if_false]

/-- The digits of the printed form stand for the identifier. -/
theorem readHex_chars (u : UUID) :
    readHex 0 (u.chars.filter fun c => decide (c ≠ '-')) = some u.bits.toNat := by
  have hlt := u.bits.isLt
  rw [filter_chars, readHex_append, readHex_fixed _ _ _ (by omega), Option.bind_some,
    readHex_append, readHex_fixed _ _ _ (by omega), Option.bind_some,
    readHex_append, readHex_fixed _ _ _ (by omega), Option.bind_some,
    readHex_append, readHex_fixed _ _ _ (by omega), Option.bind_some,
    readHex_fixed _ _ _ (by omega)]
  congr 1
  omega

/-- The printed form is read back. -/
theorem parse?_toString (u : UUID) : parse? u.toString = some u := by
  have hchars : u.toString.toList = u.chars := String.toList_ofList
  have hlength : u.toString.length = 36 := by
    rw [← String.length_toList, hchars]
    simp [chars]
  have hdigits : (u.chars.filter fun c => decide (c ≠ '-')).length = 32 := by
    rw [filter_chars]
    simp
  have hhyphens : [8, 13, 18, 23].all (fun i => decide (u.chars[i]? = some '-')) = true := by
    simp [chars, List.getElem?_append]
  unfold parse?
  simp only [hchars]
  rw [if_pos ⟨hlength, hdigits, hhyphens⟩, readHex_chars, Option.map_some, BitVec.ofNat_toNat,
    BitVec.setWidth_eq]

end UUID
