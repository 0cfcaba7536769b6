import ClaimGuard.Lib.Double

/-!
# The decimal text of a double, as Python prints it

`float.__repr__`: the shortest decimal that rounds back, of one digit or more, in plain
notation from `10^-4` up to `10^16` and in scientific notation outside. Reading it back
gives the double again.
-/

namespace Binary64

/-- The shortest decimal that rounds to `m`. -/
def shortestRepr (m : Magnitude) : ℕ × ℤ :=
  ((List.range 17).findSome? fun k => atLength m (k + 1)).getD (exact m)

theorem round_shortestRepr (m : Magnitude) : round (decimalValue (shortestRepr m)) = some m := by
  unfold shortestRepr
  cases h : (List.range 17).findSome? fun k => atLength m (k + 1) with
  | none =>
      rw [Option.getD_none, decimalValue_exact]
      exact round_value m
  | some d =>
      rcases List.exists_of_findSome?_eq_some h with ⟨k, -, hk⟩
      exact round_atLength hk

/-- Lay out a significand and an exponent: there is a point in plain notation, and in
scientific notation only between two digits. -/
def reprLayout (neg : Bool) (d : ℕ × ℤ) : Numeral :=
  let n := (Text.decimal d.1).length
  let e := n + d.2 - 1
  if -4 ≤ e ∧ e < 16 then
    if 0 ≤ d.2 then ⟨neg, d.1 * 10 ^ d.2.toNat * 10, 1, none⟩
    else ⟨neg, d.1, (-d.2).toNat, none⟩
  else ⟨neg, d.1, n - 1, some e⟩

/-- The numeral a finite value is printed as. -/
def repr (neg : Bool) (m : Magnitude) : Numeral :=
  if m.mant = 0 then ⟨neg, 0, 1, none⟩ else reprLayout neg (stripZeros 800 (shortestRepr m))

theorem magnitude_reprLayout (neg : Bool) (d : ℕ × ℤ) :
    (reprLayout neg d).magnitude = decimalValue d := by
  have hn := length_decimal_pos d.1
  rcases d with ⟨s, i⟩
  unfold reprLayout decimalValue Numeral.magnitude Numeral.exp
  simp only at hn ⊢
  generalize (Text.decimal s).length = n at hn ⊢
  split_ifs with h₁ h₂
  · have hi : i = (i.toNat : ℤ) := by omega
    generalize i.toNat = k at hi
    subst hi
    simp only [Option.getD_none, zpow_natCast]
    push_cast
    norm_num
    ring
  · have hi : (0 : ℤ) - ((-i).toNat : ℤ) = i := by omega
    simp only [Option.getD_none, hi]
  · have hi : (n : ℤ) + i - 1 - ((n - 1 : ℕ) : ℤ) = i := by omega
    simp only [Option.getD_some, hi]

@[simp] theorem repr_neg (neg : Bool) (m : Magnitude) : (repr neg m).neg = neg := by
  unfold repr reprLayout
  simp only
  split_ifs <;> rfl

/-- Printing and reading back gives the value. -/
theorem round_magnitude_repr (neg : Bool) (m : Magnitude) :
    round (repr neg m).magnitude = some m := by
  unfold repr
  by_cases hm : m.mant = 0
  · rw [if_pos hm, Magnitude.eq_zero_of_mant hm]
    exact round_of_nonpos (by simp [Numeral.magnitude])
  · rw [if_neg hm, magnitude_reprLayout, decimalValue_stripZeros]
    exact round_shortestRepr m

/-- A printed value has a point or an exponent. -/
theorem isInteger_repr (neg : Bool) (m : Magnitude) : (repr neg m).isInteger = false := by
  unfold repr reprLayout Numeral.isInteger
  simp only
  split_ifs with h₁ h₂ h₃
  · rfl
  · rfl
  · simp only [Bool.and_eq_false_iff, beq_eq_false_iff_ne]
    left
    omega
  · simp

/-! ## Magnitudes and doubles -/

/-- What a number is rounded to. -/
theorem value_of_round {q : ℚ} {m : Magnitude} (hq : 0 ≤ q) (h : round q = some m) :
    m.value = nearest q := by
  rcases hq.eq_or_lt with rfl | hpos
  · rw [round_of_nonpos le_rfl] at h
    cases h
    simp [Magnitude.value, Magnitude.zero]
  · unfold round at h
    rw [if_neg hpos.not_ge] at h
    simp only at h
    rw [nearest_of_pos hpos]
    unfold nearestPos
    have hparts : ∀ (k : ℕ) (e : ℤ), Magnitude.ofParts? k e = some m →
        m.value = k * (2 : ℚ) ^ e := by
      intro k e hk
      unfold Magnitude.ofParts? at hk
      split at hk <;> cases hk
      rfl
    split at h
    · -- the carry moves into the exponent
      rename_i hcarry
      rw [hparts _ _ h, hcarry, zpow_add_one₀ (by norm_num)]
      push_cast
      ring
    · exact hparts _ _ h

/-- A number up to one is in range. -/
theorem exists_round_of_le_one {q : ℚ} (h : q ≤ 1) : ∃ m, round q = some m := by
  rcases le_or_gt q 0 with hq | hq
  · exact ⟨_, round_of_nonpos hq⟩
  · have hlog : Int.log 2 q ≤ 0 := by
      have hmono := Int.log_mono_right (b := 2) hq h
      rwa [Int.log_one_right] at hmono
    have hlast : lastBit q ≤ -52 := by
      unfold lastBit
      omega
    have hge : -1074 ≤ lastBit q := le_max_right _ _
    have hle := roundHalfEven_div_lastBit_le hq
    unfold round
    rw [if_neg hq.not_ge]
    simp only
    split
    · unfold Magnitude.ofParts?
      rw [dif_pos ⟨by norm_num, by omega, by omega, Or.inr le_rfl⟩]
      exact ⟨_, rfl⟩
    · rename_i hcarry
      have hcanonical : lastBit q = -1074 ∨
          2 ^ 52 ≤ roundHalfEven (q / (2 : ℚ) ^ lastBit q) := by
        rcases hge.eq_or_lt with heq | hlt
        · exact Or.inl heq.symm
        · right
          have hmono := roundHalfEven_mono (q := ((2 ^ 52 : ℕ) : ℚ)) (by positivity)
            (by exact_mod_cast le_div_lastBit hq hlt)
          rwa [roundHalfEven_natCast] at hmono
      unfold Magnitude.ofParts?
      rw [dif_pos ⟨by omega, hge, by omega, hcanonical⟩]
      exact ⟨_, rfl⟩

/-- A multiple of `2 ^ -17` up to two is a double. -/
theorem nearest_div_two_pow {j : ℕ} (h : j ≤ 2 ^ 18) :
    nearest ((j : ℚ) / 2 ^ 17) = (j : ℚ) / 2 ^ 17 := by
  rcases Nat.eq_zero_or_pos j with rfl | hj
  · simp
  · have hmul := nearestPos_natCast_mul (e := -17) hj (h.trans (by norm_num)) (by norm_num)
    have heq : (j : ℚ) * (2 : ℚ) ^ (-17 : ℤ) = (j : ℚ) / 2 ^ 17 := by
      rw [zpow_neg, ← div_eq_mul_inv]
      norm_cast
    rw [heq] at hmul
    rw [nearest_of_pos (by positivity), hmul]

/-- Doubles tell apart two numbers up to two that differ by `1 / 20000`. -/
theorem nearest_lt_nearest {q r : ℚ} (hq : 0 ≤ q) (hr : r ≤ 2) (h : q + 1 / 20000 ≤ r) :
    nearest q < nearest r := by
  -- two multiples of a power of two lie in between
  have hfloor := Nat.floor_le (show 0 ≤ q * 2 ^ 17 by positivity)
  have hlt := Nat.lt_floor_add_one (q * 2 ^ 17)
  generalize ⌊q * 2 ^ 17⌋₊ = n at hfloor hlt
  have hn₁ : q ≤ ((n + 1 : ℕ) : ℚ) / 2 ^ 17 := by
    rw [le_div_iff₀ (by norm_num)]
    push_cast
    exact hlt.le
  have hn₂ : ((n + 2 : ℕ) : ℚ) / 2 ^ 17 ≤ r := by
    rw [div_le_iff₀ (by norm_num)]
    push_cast
    linarith
  have hbound : n + 2 ≤ 2 ^ 18 := by
    have : ((n + 2 : ℕ) : ℚ) ≤ 2 ^ 18 := by
      rw [div_le_iff₀ (by norm_num)] at hn₂
      linarith
    exact_mod_cast this
  calc nearest q ≤ nearest (((n + 1 : ℕ) : ℚ) / 2 ^ 17) := nearest_mono hn₁
    _ = ((n + 1 : ℕ) : ℚ) / 2 ^ 17 := nearest_div_two_pow (by omega)
    _ < ((n + 2 : ℕ) : ℚ) / 2 ^ 17 := by
        rw [div_lt_div_iff_of_pos_right (by norm_num)]
        exact_mod_cast Nat.lt_succ_self _
    _ = nearest (((n + 2 : ℕ) : ℚ) / 2 ^ 17) := (nearest_div_two_pow hbound).symm
    _ ≤ nearest r := nearest_mono hn₂

end Binary64

namespace Double

/-- `float.__repr__`, of a finite double. -/
def repr (x : Double) : Numeral :=
  match Binary64.round |x.value| with
  | some m => Binary64.repr (decide (x.value < 0)) m
  | none => ⟨decide (x.value < 0), 0, 1, none⟩

/-- A double of the unit interval and the magnitude it is printed from. -/
theorem exists_repr {x : Double} (h₀ : 0 ≤ x.value) (h₁ : x.value ≤ 1) :
    ∃ m, m.value = x.value ∧ x.repr = Binary64.repr false m := by
  rcases Binary64.exists_round_of_le_one h₁ with ⟨m, hm⟩
  refine ⟨m, ?_, ?_⟩
  · rw [Binary64.value_of_round h₀ hm, x.representable]
  · unfold repr
    rw [abs_of_nonneg h₀, hm, decide_eq_false (not_lt.2 h₀)]

end Double
