import Mathlib.Algebra.Order.Floor.Ring
import Mathlib.Algebra.Order.Field.Power
import Mathlib.Data.Rat.Floor
import Mathlib.Tactic.FieldSimp
import Mathlib.Tactic.Linarith
import Mathlib.Tactic.Positivity
import Mathlib.Tactic.Ring
import ClaimGuard.Lib.Text

/-!
# Scaled decimals

An unscaled integer with a scale. `setScale` is the exact rescaling with ties
away from zero (`RoundingMode.HALF_UP`) that a program does before it prints;
`numeric` is the rounding a fixed-point column `NUMERIC(p, s)` does when it
stores. The main result is that the two agree, so that what was printed before
storing is printed again after reading.
-/

/-- An unscaled integer and the number of its decimals. -/
structure BigDecimal where
  unscaled : ℤ
  scale : ℤ
deriving DecidableEq, Repr

namespace BigDecimal

/-- The rational a decimal stands for. -/
def value (d : BigDecimal) : ℚ := d.unscaled * (10 : ℚ) ^ (-d.scale)

/-! ## Rounding -/

/-- The nearest integer, ties away from zero. -/
def roundHalfAway (q : ℚ) : ℤ := if 0 ≤ q then ⌊q + 1 / 2⌋ else -⌊-q + 1 / 2⌋

/-- Integer division, ties away from zero: the truncated quotient moves one away
from zero when twice the remainder reaches the divisor. -/
def divideHalfUp (n : ℤ) (m : ℕ) : ℤ :=
  if m ≤ 2 * (n.tmod m).natAbs then n.tdiv m + n.sign else n.tdiv m

/-- The decimal with `s` decimals, ties away from zero. -/
def setScale (d : BigDecimal) (s : ℤ) : BigDecimal where
  unscaled :=
    if d.scale ≤ s then d.unscaled * 10 ^ (s - d.scale).toNat
    else divideHalfUp d.unscaled (10 ^ (d.scale - s).toNat)
  scale := s

/-- What a column of `precision` digits with `scale` decimals keeps of a value;
`none` when the rounded value has too many digits. -/
def numeric (precision scale : ℕ) (d : BigDecimal) : Option BigDecimal :=
  let u := roundHalfAway (d.value * 10 ^ scale)
  if u.natAbs < 10 ^ precision then some ⟨u, scale⟩ else none

@[simp] theorem roundHalfAway_intCast (z : ℤ) : roundHalfAway (z : ℚ) = z := by
  have h : ∀ w : ℤ, ⌊(w : ℚ) + 1 / 2⌋ = w := by
    intro w
    rw [Int.floor_eq_iff]
    constructor <;> norm_num
  unfold roundHalfAway
  split
  · exact h z
  · rw [← Int.cast_neg, h, neg_neg]

theorem roundHalfAway_neg (q : ℚ) : roundHalfAway (-q) = -roundHalfAway q := by
  unfold roundHalfAway
  rcases lt_trichotomy q 0 with h | rfl | h
  · rw [if_pos (by linarith), if_neg (not_le.2 h), neg_neg]
  · norm_num
  · rw [if_neg (by linarith), if_pos h.le, neg_neg]

private theorem roundHalfAway_div_natCast (n m : ℕ) (hm : 0 < m) :
    roundHalfAway ((n : ℚ) / m) = ((if m ≤ 2 * (n % m) then n / m + 1 else n / m : ℕ) : ℤ) := by
  have hmq : (0 : ℚ) < m := by exact_mod_cast hm
  have hdiv : (n : ℚ) = m * ((n / m : ℕ) : ℚ) + ((n % m : ℕ) : ℚ) := by
    exact_mod_cast (Nat.div_add_mod n m).symm
  have hquot : (n : ℚ) / m = ((n / m : ℕ) : ℚ) + ((n % m : ℕ) : ℚ) / m := by
    conv_lhs => rw [hdiv]
    field_simp
  have hlt : ((n % m : ℕ) : ℚ) / m < 1 := by
    rw [div_lt_one hmq]
    exact_mod_cast Nat.mod_lt n hm
  have hnonneg : (0 : ℚ) ≤ ((n % m : ℕ) : ℚ) / m := by positivity
  unfold roundHalfAway
  rw [if_pos (by positivity), hquot]
  generalize hr : ((n % m : ℕ) : ℚ) / m = r at hlt hnonneg
  -- the remainder reaches half the divisor when the fraction reaches one half
  have hhalf : m ≤ 2 * (n % m) ↔ 1 / 2 ≤ r := by
    rw [← hr, le_div_iff₀ hmq]
    constructor
    · intro h
      have : (m : ℚ) ≤ 2 * ((n % m : ℕ) : ℚ) := by exact_mod_cast h
      linarith
    · intro h
      have : (m : ℚ) ≤ 2 * ((n % m : ℕ) : ℚ) := by linarith
      exact_mod_cast this
  generalize n / m = k
  by_cases h : 1 / 2 ≤ r
  · rw [if_pos (hhalf.2 h), Int.floor_eq_iff]
    push_cast
    constructor <;> linarith
  · have h' := not_le.1 h
    rw [if_neg (fun hm => h (hhalf.1 hm)), Int.floor_eq_iff]
    push_cast
    constructor <;> linarith

/-- Division of integers and rounding of the quotient agree on ties. -/
theorem divideHalfUp_eq (n : ℤ) (m : ℕ) (hm : 0 < m) :
    divideHalfUp n m = roundHalfAway ((n : ℚ) / m) := by
  unfold divideHalfUp
  -- both sides are odd in the dividend
  rcases n with k | k
  · have hround := roundHalfAway_div_natCast k m hm
    have hcast : ((Int.ofNat k : ℤ) : ℚ) = (k : ℚ) := by simp
    have hmod : (Int.ofNat k).tmod m = ((k % m : ℕ) : ℤ) := rfl
    have hdiv : (Int.ofNat k).tdiv m = ((k / m : ℕ) : ℤ) := rfl
    rw [hcast, hround, hmod, hdiv, Int.natAbs_natCast]
    split
    · rename_i hge
      have hk : k ≠ 0 := by
        rintro rfl
        simp at hge
        omega
      have hsign : (Int.ofNat k).sign = 1 := Int.sign_eq_one_of_pos (by
        have := Nat.pos_of_ne_zero hk
        simpa using this)
      rw [hsign]
      push_cast
      ring
    · rfl
  · have hround := roundHalfAway_div_natCast (k + 1) m hm
    have hcast : ((Int.negSucc k : ℤ) : ℚ) / m = -(((k + 1 : ℕ) : ℚ) / m) := by
      rw [Int.cast_negSucc]
      ring
    have hmod : (Int.negSucc k).tmod m = -(((k + 1) % m : ℕ) : ℤ) := by
      rw [Int.negSucc_eq, Int.neg_tmod]
      rfl
    have hdiv : (Int.negSucc k).tdiv m = -(((k + 1) / m : ℕ) : ℤ) := by
      rw [Int.negSucc_eq, Int.neg_tdiv]
      rfl
    have hsign : (Int.negSucc k).sign = -1 := rfl
    rw [hcast, roundHalfAway_neg, hround, hmod, hdiv, hsign, Int.natAbs_neg, Int.natAbs_natCast]
    split
    · push_cast
      ring
    · rfl

/-- Rescaling rounds the value to the nearest decimal, ties away from zero. -/
theorem unscaled_setScale (d : BigDecimal) (s : ℤ) :
    (d.setScale s).unscaled = roundHalfAway (d.value * (10 : ℚ) ^ s) := by
  have hvalue : d.value * (10 : ℚ) ^ s = d.unscaled * (10 : ℚ) ^ (s - d.scale) := by
    unfold value
    rw [mul_assoc, ← zpow_add₀ (by norm_num)]
    congr 2
    ring
  rw [hvalue]
  unfold setScale
  simp only
  split
  -- more decimals are exact
  · rename_i h
    have hpow : (10 : ℚ) ^ (s - d.scale) = ((10 ^ (s - d.scale).toNat : ℤ) : ℚ) := by
      push_cast
      rw [← zpow_natCast, Int.toNat_of_nonneg (by omega)]
    rw [hpow, ← Int.cast_mul, roundHalfAway_intCast]
  · rename_i h
    have hpow : (10 : ℚ) ^ (s - d.scale) = (((10 ^ (d.scale - s).toNat : ℕ)) : ℚ)⁻¹ := by
      push_cast
      rw [← zpow_natCast, ← zpow_neg, Int.toNat_of_nonneg (by omega)]
      congr 1
      ring
    rw [divideHalfUp_eq _ _ (by positivity), hpow, div_eq_mul_inv]

/-- What a column stores is the rescaled decimal. -/
theorem numeric_eq_some {p s : ℕ} {d d' : BigDecimal} (h : numeric p s d = some d') :
    d' = d.setScale s := by
  unfold numeric at h
  simp only at h
  split at h
  · cases h
    have := unscaled_setScale d s
    rw [zpow_natCast] at this
    rw [← this]
    rfl
  · cases h

/-- Rescaling twice to one scale is rescaling once. -/
@[simp] theorem setScale_setScale (d : BigDecimal) (s : ℤ) :
    (d.setScale s).setScale s = d.setScale s := by
  conv_lhs => unfold setScale
  simp
  rfl

/-! ## Printing -/

/-- The decimal without an exponent: sign, integer part, and as many fraction
digits as the scale says. -/
def toPlainString (d : BigDecimal) : List Char :=
  if d.scale ≤ 0 then Text.decimalInt (d.unscaled * 10 ^ (-d.scale).toNat)
  else
    (if d.unscaled < 0 then ['-'] else []) ++
      Text.decimal (d.unscaled.natAbs / 10 ^ d.scale.toNat) ++
      '.' :: Text.fixed 10 d.scale.toNat (d.unscaled.natAbs % 10 ^ d.scale.toNat)

/-- At one scale, decimals that print alike are equal. -/
theorem toPlainString_inj {d e : BigDecimal} (hs : d.scale = e.scale)
    (h : d.toPlainString = e.toPlainString) : d = e := by
  rcases d with ⟨u, s⟩
  rcases e with ⟨v, s'⟩
  cases hs
  unfold toPlainString at h
  simp only at h
  split at h
  · have hmul := (Text.decimalInt_append_inj (r := []) (s := []) (by simp) (by simp)
      (by simpa using h)).1
    have hpow : (10 : ℤ) ^ (-s).toNat ≠ 0 := by positivity
    rw [mul_right_cancel₀ hpow hmul]
  · have key : ∀ m n : ℕ, Text.decimal (m / 10 ^ s.toNat) ++
        '.' :: Text.fixed 10 s.toNat (m % 10 ^ s.toNat) =
        Text.decimal (n / 10 ^ s.toNat) ++ '.' :: Text.fixed 10 s.toNat (n % 10 ^ s.toNat) →
        m = n := by
      intro m n hmn
      have hpos : 0 < 10 ^ s.toNat := by positivity
      obtain ⟨hq, hr⟩ := Text.decimal_append_inj (by simp) (by simp) hmn
      have hr' := Text.fixed_inj (by norm_num) (by norm_num) (Nat.mod_lt _ hpos)
        (Nat.mod_lt _ hpos) (List.cons.inj hr).2
      rw [← Nat.div_add_mod m (10 ^ s.toNat), ← Nat.div_add_mod n (10 ^ s.toNat), hq, hr']
    -- a leading minus sign is no digit
    have hminus : ∀ (m n : ℕ) (l : List Char), ¬ '-' :: l = Text.decimal m ++
        '.' :: Text.fixed 10 s.toNat n := by
      intro m n l hml
      rcases Text.exists_decimal_eq_cons m with ⟨c, l', hc, hdigit⟩
      rw [hc] at hml
      have : '-' = c := (List.cons.inj hml).1
      subst this
      exact absurd hdigit (by decide)
    congr 1
    by_cases hu : u < 0 <;> by_cases hv : v < 0
    · simp only [hu, hv, if_true, List.cons_append, List.nil_append, List.cons.injEq,
        true_and] at h
      have := key _ _ h
      omega
    · simp only [hu, hv, if_true, if_false, List.cons_append, List.nil_append] at h
      exact absurd h (hminus _ _ _)
    · simp only [hu, hv, if_true, if_false, List.cons_append, List.nil_append] at h
      exact absurd h.symm (hminus _ _ _)
    · simp only [hu, hv, if_false, List.nil_append] at h
      have := key _ _ h
      omega

end BigDecimal
