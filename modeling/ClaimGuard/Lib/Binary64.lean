import Mathlib.Data.Int.Log
import Mathlib.Data.Rat.Floor
import Mathlib.Tactic.Ring
import Mathlib.Tactic.FieldSimp
import Mathlib.Tactic.Positivity
import ClaimGuard.Lib.Numeral

/-!
# Double precision numbers and their decimal text

IEEE binary64 values as exact rationals, rounding to nearest with ties to even,
and the shortest decimal that rounds back to a value, laid out the way
`Double.toString` does: plain notation from `10^-3` up to `10^7`, scientific
notation outside. There is no NaN: no decimal rounds to it.
-/

namespace Binary64

/-- A finite magnitude `mant * 2 ^ exp` in canonical form: the mantissa has 53
bits, or the exponent is the smallest one. -/
structure Magnitude where
  mant : ℕ
  exp : ℤ
  mant_lt : mant < 2 ^ 53
  exp_ge : -1074 ≤ exp
  exp_le : exp ≤ 971
  canonical : exp = -1074 ∨ 2 ^ 52 ≤ mant
deriving DecidableEq

namespace Magnitude

/-- The exact value. -/
def value (m : Magnitude) : ℚ := m.mant * (2 : ℚ) ^ m.exp

/-- The magnitude with these parts, if they are in canonical form and in range. -/
def ofParts? (m : ℕ) (e : ℤ) : Option Magnitude :=
  if h : m < 2 ^ 53 ∧ -1074 ≤ e ∧ e ≤ 971 ∧ (e = -1074 ∨ 2 ^ 52 ≤ m) then
    some ⟨m, e, h.1, h.2.1, h.2.2.1, h.2.2.2⟩
  else none

@[simp] theorem ofParts?_self (m : Magnitude) : ofParts? m.mant m.exp = some m := by
  unfold ofParts?
  rw [dif_pos ⟨m.mant_lt, m.exp_ge, m.exp_le, m.canonical⟩]

/-- Zero. -/
def zero : Magnitude := ⟨0, -1074, by decide, by decide, by decide, Or.inl rfl⟩

theorem eq_zero_of_mant {m : Magnitude} (h : m.mant = 0) : m = zero := by
  rcases m with ⟨mant, exp, h₁, h₂, h₃, h₄⟩
  simp only at h
  subst h
  have hexp : exp = -1074 := by
    rcases h₄ with h₄ | h₄
    · exact h₄
    · exact absurd h₄ (by decide)
  subst hexp
  rfl

end Magnitude

/-! ## Rounding -/

/-- The nearest natural number, ties to even. -/
def roundHalfEven (q : ℚ) : ℕ :=
  let n := ⌊q⌋₊
  if q - n < 1 / 2 then n
  else if 1 / 2 < q - n then n + 1
  else if n % 2 = 0 then n else n + 1

@[simp] theorem roundHalfEven_natCast (n : ℕ) : roundHalfEven (n : ℚ) = n := by
  simp [roundHalfEven]

/-- What a number is rounded up to: it is above the midpoint below, or at it when the upper
neighbour is even. -/
theorem le_roundHalfEven_iff {q : ℚ} (hq : 0 ≤ q) {n : ℕ} :
    n ≤ roundHalfEven q ↔ (n : ℚ) - 1 / 2 < q ∨ ((n : ℚ) - 1 / 2 = q ∧ n % 2 = 0) := by
  have hfloor := Nat.floor_le hq
  have hlt := Nat.lt_floor_add_one q
  unfold roundHalfEven
  generalize ⌊q⌋₊ = m at hfloor hlt
  simp only
  rcases Nat.lt_trichotomy n (m + 1) with h | rfl | h
  · -- at most the lower neighbour
    have hn : (n : ℚ) ≤ m := by exact_mod_cast Nat.lt_succ_iff.1 h
    have hle : n ≤ (if q - m < 1 / 2 then m else if 1 / 2 < q - m then m + 1
        else if m % 2 = 0 then m else m + 1) := by
      split_ifs <;> omega
    exact iff_of_true hle (Or.inl (by linarith))
  · push_cast
    split_ifs with h₁ h₂ h₃
    · apply iff_of_false (by omega)
      rintro (h | ⟨h, -⟩) <;> linarith
    · exact iff_of_true le_rfl (Or.inl (by linarith))
    · apply iff_of_false (by omega)
      rintro (h | ⟨-, h⟩)
      · linarith
      · omega
    · exact iff_of_true le_rfl (Or.inr ⟨by linarith, by omega⟩)
  · -- above both neighbours
    have hn : (m : ℚ) + 2 ≤ n := by exact_mod_cast h
    apply iff_of_false
    · split_ifs <;> omega
    · rintro (h | ⟨h, -⟩) <;> linarith

theorem roundHalfEven_mono {q r : ℚ} (hq : 0 ≤ q) (h : q ≤ r) :
    roundHalfEven q ≤ roundHalfEven r := by
  rw [le_roundHalfEven_iff (hq.trans h)]
  rcases (le_roundHalfEven_iff hq).1 le_rfl with hlt | ⟨heq, heven⟩
  · exact Or.inl (hlt.trans_le h)
  · rcases h.lt_or_eq with hqr | hqr
    · exact Or.inl (heq.trans_lt hqr)
    · exact Or.inr ⟨heq.trans hqr, heven⟩

/-- The exponent of the last mantissa bit of a positive rational. -/
def lastBit (q : ℚ) : ℤ := max (Int.log 2 q - 52) (-1074)

/-- The magnitude nearest to a non-negative rational, `none` when it overflows. -/
def round (q : ℚ) : Option Magnitude :=
  if q ≤ 0 then some Magnitude.zero
  else
    let e := lastBit q
    let m := roundHalfEven (q / (2 : ℚ) ^ e)
    if m = 2 ^ 53 then Magnitude.ofParts? (2 ^ 52) (e + 1) else Magnitude.ofParts? m e

theorem round_of_nonpos {q : ℚ} (h : q ≤ 0) : round q = some Magnitude.zero := if_pos h

/-- The last bit of a magnitude is where its exponent says. -/
theorem lastBit_value (m : Magnitude) (hm : m.mant ≠ 0) : lastBit m.value = m.exp := by
  have hpos : (0 : ℚ) < m.mant := by exact_mod_cast Nat.pos_of_ne_zero hm
  have hval : 0 < m.value := mul_pos hpos (zpow_pos (by norm_num) _)
  have hlt : (m.mant : ℚ) < 2 ^ (53 : ℤ) := by exact_mod_cast m.mant_lt
  have hlog_lt : Int.log 2 m.value < 53 + m.exp := by
    rw [← Int.lt_zpow_iff_log_lt (by decide) hval]
    push_cast
    rw [zpow_add₀ (by norm_num)]
    exact mul_lt_mul_of_pos_right hlt (zpow_pos (by norm_num) _)
  unfold lastBit
  -- a subnormal mantissa is short, and the smallest exponent bounds it
  rcases m.canonical with h | h
  · have := m.exp_ge
    omega
  · have hge : (2 : ℚ) ^ (52 : ℤ) ≤ m.mant := by exact_mod_cast h
    have hlog_ge : 52 + m.exp ≤ Int.log 2 m.value := by
      rw [← Int.zpow_le_iff_le_log (by decide) hval]
      push_cast
      rw [zpow_add₀ (by norm_num)]
      exact mul_le_mul_of_nonneg_right hge (zpow_pos (by norm_num) _).le
    have := m.exp_ge
    omega

/-- Everything from `2 ^ 1024` on overflows. -/
theorem round_eq_none {q : ℚ} (h : (2 : ℚ) ^ (1024 : ℤ) ≤ q) : round q = none := by
  have hpos : 0 < q := lt_of_lt_of_le (zpow_pos (by norm_num) _) h
  have hlog : 1024 ≤ Int.log 2 q :=
    (Int.zpow_le_iff_le_log (by decide) hpos).1 (by exact_mod_cast h)
  have hlast : 972 ≤ lastBit q := by
    unfold lastBit
    omega
  -- no magnitude has an exponent above 971
  have hparts : ∀ m e, 971 < e → Magnitude.ofParts? m e = none := by
    intro m e he
    unfold Magnitude.ofParts?
    rw [dif_neg]
    intro hvalid
    omega
  unfold round
  rw [if_neg (not_le.2 hpos)]
  simp only
  split
  · exact hparts _ _ (by omega)
  · exact hparts _ _ (by omega)

/-- Rounding keeps the values that are representable. -/
theorem round_value (m : Magnitude) : round m.value = some m := by
  by_cases hm : m.mant = 0
  · have hval : m.value ≤ 0 := by simp [Magnitude.value, hm]
    rw [round_of_nonpos hval, Magnitude.eq_zero_of_mant hm]
  · have hpos : (0 : ℚ) < m.mant := by exact_mod_cast Nat.pos_of_ne_zero hm
    have hval : ¬ m.value ≤ 0 := not_le.2 (mul_pos hpos (zpow_pos (by norm_num) _))
    have hquot : m.value / (2 : ℚ) ^ m.exp = m.mant := by
      unfold Magnitude.value
      rw [mul_div_assoc, div_self (zpow_ne_zero _ (by norm_num)), mul_one]
    unfold round
    rw [if_neg hval]
    simp only [lastBit_value m hm, hquot, roundHalfEven_natCast]
    rw [if_neg (ne_of_lt m.mant_lt), Magnitude.ofParts?_self]

end Binary64

/-- A binary64 value that is not NaN. -/
inductive Binary64 where
  | finite (neg : Bool) (mag : Binary64.Magnitude)
  | infinite (neg : Bool)
deriving DecidableEq

namespace Binary64

/-- The value nearest to a decimal with sign `neg` and magnitude `q`. -/
def ofDecimal (neg : Bool) (q : ℚ) : Binary64 :=
  match round q with
  | some m => .finite neg m
  | none => .infinite neg

/-! ## The shortest decimal -/

/-- The rational `s * 10 ^ i` of a significand and an exponent. -/
def decimalValue (d : ℕ × ℤ) : ℚ := d.1 * (10 : ℚ) ^ d.2

/-- The decimal of at most `n` digits that rounds to `m` and is closest to it,
if there is one. Of the two neighbours at that precision an exact tie goes to
the even one. -/
def atLength (m : Magnitude) (n : ℕ) : Option (ℕ × ℤ) :=
  let i := Int.log 10 m.value - n + 1
  let c := ⌊m.value / (10 : ℚ) ^ i⌋₊
  let below := m.value - decimalValue (c, i)
  let above := decimalValue (c + 1, i) - m.value
  if round (decimalValue (c, i)) = some m then
    if round (decimalValue (c + 1, i)) = some m then
      if below < above then some (c, i)
      else if above < below then some (c + 1, i)
      else if c % 2 = 0 then some (c, i) else some (c + 1, i)
    else some (c, i)
  else if round (decimalValue (c + 1, i)) = some m then some (c + 1, i)
  else none

/-- The finite decimal expansion of a magnitude. -/
def exact (m : Magnitude) : ℕ × ℤ :=
  if 0 ≤ m.exp then (m.mant * 2 ^ m.exp.toNat, 0) else (m.mant * 5 ^ (-m.exp).toNat, m.exp)

/-- The shortest decimal of two digits or more that rounds to `m`. Seventeen
digits are always enough; the exact expansion stands in where the search ends. -/
def shortest (m : Magnitude) : ℕ × ℤ :=
  ((List.range 16).findSome? fun k => atLength m (k + 2)).getD (exact m)

theorem round_atLength {m : Magnitude} {n : ℕ} {d : ℕ × ℤ} (h : atLength m n = some d) :
    round (decimalValue d) = some m := by
  unfold atLength at h
  simp only at h
  split_ifs at h <;> cases h <;> assumption

theorem decimalValue_exact (m : Magnitude) : decimalValue (exact m) = m.value := by
  unfold exact decimalValue Magnitude.value
  by_cases he : 0 ≤ m.exp
  · rw [if_pos he]
    have hexp : m.exp = (m.exp.toNat : ℤ) := by omega
    simp only [zpow_zero, mul_one]
    push_cast
    rw [← zpow_natCast, ← hexp]
  · rw [if_neg he]
    have hexp : m.exp = -((-m.exp).toNat : ℤ) := by omega
    generalize (-m.exp).toNat = k at hexp
    simp only [hexp, zpow_neg, zpow_natCast]
    push_cast
    have h10 : (10 : ℚ) ^ k = 2 ^ k * 5 ^ k := by rw [← mul_pow]; norm_num
    rw [h10]
    field_simp

/-- The shortest decimal of a magnitude rounds back to it. -/
theorem round_shortest (m : Magnitude) : round (decimalValue (shortest m)) = some m := by
  unfold shortest
  -- a decimal is taken only if it rounds back, and the exact one does
  cases h : (List.range 16).findSome? fun k => atLength m (k + 2) with
  | none =>
      rw [Option.getD_none, decimalValue_exact]
      exact round_value m
  | some d =>
      rcases List.exists_of_findSome?_eq_some h with ⟨k, -, hk⟩
      exact round_atLength hk

/-- Drop trailing zeros of the significand, at most `fuel` of them. -/
def stripZeros : ℕ → ℕ × ℤ → ℕ × ℤ
  | 0, d => d
  | fuel + 1, d => if d.1 ≠ 0 ∧ d.1 % 10 = 0 then stripZeros fuel (d.1 / 10, d.2 + 1) else d

theorem decimalValue_stripZeros (fuel : ℕ) (d : ℕ × ℤ) :
    decimalValue (stripZeros fuel d) = decimalValue d := by
  induction fuel generalizing d with
  | zero => rfl
  | succ fuel ih =>
      rw [stripZeros]
      by_cases h : d.1 ≠ 0 ∧ d.1 % 10 = 0
      · rw [if_pos h, ih]
        have hd : (d.1 : ℚ) = (d.1 / 10 : ℕ) * 10 := by
          exact_mod_cast (Nat.div_mul_cancel (Nat.dvd_of_mod_eq_zero h.2)).symm
        unfold decimalValue
        rw [hd, zpow_add_one₀ (by norm_num)]
        ring
      · rw [if_neg h]

/-! ## The text layout -/

/-- Lay out a significand and an exponent: plain notation when the decimal point
falls within the first seven digits or the first three zeros after it, scientific
notation otherwise, with at least one digit after the point either way. -/
def layout (neg : Bool) (d : ℕ × ℤ) : Numeral :=
  let n := (Text.decimal d.1).length
  let e := n + d.2 - 1
  if -3 ≤ e ∧ e < 7 then
    if 0 ≤ d.2 then ⟨neg, d.1 * 10 ^ d.2.toNat * 10, 1, none⟩
    else ⟨neg, d.1, (-d.2).toNat, none⟩
  else if n = 1 then ⟨neg, d.1 * 10, 1, some e⟩
  else ⟨neg, d.1, n - 1, some e⟩

/-- The numeral a finite value is printed as. -/
def toNumeral (neg : Bool) (m : Magnitude) : Numeral :=
  if m.mant = 0 then ⟨neg, 0, 1, none⟩ else layout neg (stripZeros 800 (shortest m))

@[simp] theorem layout_neg (neg : Bool) (d : ℕ × ℤ) : (layout neg d).neg = neg := by
  unfold layout
  simp only
  split_ifs <;> rfl

@[simp] theorem toNumeral_neg (neg : Bool) (m : Magnitude) : (toNumeral neg m).neg = neg := by
  unfold toNumeral
  split_ifs
  · rfl
  · exact layout_neg neg _

theorem length_decimal_pos (n : ℕ) : 0 < (Text.decimal n).length :=
  List.length_pos_iff.2 (Text.decimal_ne_nil n)

theorem layout_scale_pos (neg : Bool) (d : ℕ × ℤ) : 0 < (layout neg d).scale := by
  have hn := length_decimal_pos d.1
  unfold layout
  simp only
  split_ifs
  · exact Nat.one_pos
  · show 0 < (-d.2).toNat
    omega
  · exact Nat.one_pos
  · show 0 < (Text.decimal d.1).length - 1
    omega

/-- A printed value always has a digit after the point. -/
theorem toNumeral_scale_pos (neg : Bool) (m : Magnitude) : 0 < (toNumeral neg m).scale := by
  unfold toNumeral
  split_ifs
  · exact Nat.one_pos
  · exact layout_scale_pos neg _

theorem magnitude_layout (neg : Bool) (d : ℕ × ℤ) :
    (layout neg d).magnitude = decimalValue d := by
  have hn := length_decimal_pos d.1
  rcases d with ⟨s, i⟩
  unfold layout decimalValue Numeral.magnitude Numeral.exp
  simp only at hn ⊢
  generalize (Text.decimal s).length = n at hn ⊢
  split_ifs with h₁ h₂ h₃
  · -- an integer, printed with one zero after the point
    have hi : i = (i.toNat : ℤ) := by omega
    generalize i.toNat = k at hi
    subst hi
    simp only [Option.getD_none, zpow_natCast]
    push_cast
    norm_num
    ring
  · have hi : (0 : ℤ) - ((-i).toNat : ℤ) = i := by omega
    simp only [Option.getD_none, hi]
  · have hi : (n : ℤ) + i - 1 - 1 = i - 1 := by omega
    simp only [Option.getD_some, Nat.cast_one, hi]
    rw [zpow_sub_one₀ (by norm_num)]
    push_cast
    ring
  · have hi : (n : ℤ) + i - 1 - ((n - 1 : ℕ) : ℤ) = i := by omega
    simp only [Option.getD_some, hi]

/-- Printing and reading back gives the value: the sign and the magnitude. -/
theorem round_magnitude_toNumeral (neg : Bool) (m : Magnitude) :
    round (toNumeral neg m).magnitude = some m := by
  unfold toNumeral
  by_cases hm : m.mant = 0
  · rw [if_pos hm, Magnitude.eq_zero_of_mant hm]
    exact round_of_nonpos (by simp [Numeral.magnitude])
  · rw [if_neg hm, magnitude_layout, decimalValue_stripZeros]
    exact round_shortest m

/-- Distinct finite values are printed as distinct numerals. -/
theorem toNumeral_inj {neg neg' : Bool} {m m' : Magnitude}
    (h : toNumeral neg m = toNumeral neg' m') : neg = neg' ∧ m = m' := by
  have hneg := congrArg Numeral.neg h
  rw [toNumeral_neg, toNumeral_neg] at hneg
  have hround : some m = some m' := by
    rw [← round_magnitude_toNumeral neg m, ← round_magnitude_toNumeral neg' m', h]
  exact ⟨hneg, Option.some.inj hround⟩

end Binary64
