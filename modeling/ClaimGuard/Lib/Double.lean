import Mathlib.Algebra.Order.Field.Power
import ClaimGuard.Lib.RoundedFloats

/-!
# Double precision arithmetic

Rationals that a double represents, with operations that round to the nearest double. The
range of exponents has no upper end: nothing overflows, and there is no NaN.
-/

namespace Binary64

/-- The double nearest to a positive rational. -/
def nearestPos (q : ℚ) : ℚ := roundHalfEven (q / (2 : ℚ) ^ lastBit q) * (2 : ℚ) ^ lastBit q

/-- The double nearest to a rational. -/
def nearest (q : ℚ) : ℚ :=
  if q = 0 then 0 else if 0 < q then nearestPos q else -nearestPos (-q)

theorem lastBit_mono {q r : ℚ} (hq : 0 < q) (h : q ≤ r) : lastBit q ≤ lastBit r := by
  have hlog := Int.log_mono_right (b := 2) hq h
  unfold lastBit
  omega

theorem nearestPos_nonneg (q : ℚ) : 0 ≤ nearestPos q := by
  unfold nearestPos
  positivity

/-- A number is short of the next power of two after its mantissa. -/
theorem div_lastBit_lt (q : ℚ) : q / (2 : ℚ) ^ lastBit q < 2 ^ 53 := by
  have hlog := Int.lt_zpow_succ_log_self (b := 2) (by decide) q
  have hle : Int.log 2 q + 1 ≤ 53 + lastBit q := by
    unfold lastBit
    omega
  rw [div_lt_iff₀ (by positivity), ← zpow_natCast, ← zpow_add₀ (by norm_num)]
  refine hlog.trans_le ?_
  push_cast
  exact zpow_le_zpow_right₀ (by norm_num) hle

/-- The mantissa of a rounded number, before the carry. -/
theorem roundHalfEven_div_lastBit_le {q : ℚ} (hq : 0 < q) :
    roundHalfEven (q / (2 : ℚ) ^ lastBit q) ≤ 2 ^ 53 := by
  have hmono := roundHalfEven_mono (q := q / (2 : ℚ) ^ lastBit q) (r := ((2 ^ 53 : ℕ) : ℚ))
    (by positivity) (by exact_mod_cast (div_lastBit_lt q).le)
  rwa [roundHalfEven_natCast] at hmono

/-- A normal number has a full mantissa. -/
theorem le_div_lastBit {q : ℚ} (hq : 0 < q) (h : -1074 < lastBit q) :
    2 ^ 52 ≤ q / (2 : ℚ) ^ lastBit q := by
  have hlog := Int.zpow_log_le_self (b := 2) (by decide) hq
  have heq : Int.log 2 q = 52 + lastBit q := by
    unfold lastBit at h ⊢
    omega
  rw [le_div_iff₀ (by positivity), ← zpow_natCast, ← zpow_add₀ (by norm_num)]
  push_cast at hlog
  calc (2 : ℚ) ^ (((52 : ℕ) : ℤ) + lastBit q) = 2 ^ Int.log 2 q := by rw [heq]; rfl
    _ ≤ q := hlog

theorem nearestPos_mono {q r : ℚ} (hq : 0 < q) (h : q ≤ r) : nearestPos q ≤ nearestPos r := by
  have hr := hq.trans_le h
  unfold nearestPos
  rcases (lastBit_mono hq h).eq_or_lt with heq | hlt
  · rw [heq]
    have hmono : roundHalfEven (q / (2 : ℚ) ^ lastBit r) ≤ roundHalfEven (r / 2 ^ lastBit r) :=
      roundHalfEven_mono (by positivity) (by gcongr)
    gcongr
  · -- the lower one rounds to at most the power of two that the higher one is not below
    have hbelow := roundHalfEven_div_lastBit_le hq
    have habove : 2 ^ 52 ≤ roundHalfEven (r / (2 : ℚ) ^ lastBit r) := by
      have hnormal : -1074 < lastBit r := lt_of_le_of_lt (le_max_right _ _) hlt
      have hmono := roundHalfEven_mono (q := ((2 ^ 52 : ℕ) : ℚ)) (by positivity)
        (by exact_mod_cast le_div_lastBit hr hnormal)
      rwa [roundHalfEven_natCast] at hmono
    calc (roundHalfEven (q / (2 : ℚ) ^ lastBit q) : ℚ) * 2 ^ lastBit q
        ≤ ((2 ^ 53 : ℕ) : ℚ) * 2 ^ lastBit q := by gcongr
      _ = ((2 ^ 52 : ℕ) : ℚ) * 2 ^ (lastBit q + 1) := by
          rw [zpow_add_one₀ (by norm_num)]
          push_cast
          ring
      _ ≤ (roundHalfEven (r / (2 : ℚ) ^ lastBit r) : ℚ) * 2 ^ lastBit r := by
          have hexp : (2 : ℚ) ^ (lastBit q + 1) ≤ 2 ^ lastBit r :=
            zpow_le_zpow_right₀ (by norm_num) hlt
          gcongr

/-- A multiple of a power of two that fits the mantissa is a double. -/
theorem nearestPos_natCast_mul {m : ℕ} {e : ℤ} (hm : 0 < m) (hle : m ≤ 2 ^ 53)
    (he : -1074 ≤ e) : nearestPos (m * (2 : ℚ) ^ e) = m * (2 : ℚ) ^ e := by
  have hpos : (0 : ℚ) < m * (2 : ℚ) ^ e := by positivity
  -- its last bit is a whole number of units below
  have hdvd : ∃ k : ℕ, (m : ℚ) * 2 ^ e / 2 ^ lastBit (m * (2 : ℚ) ^ e) = k := by
    rcases hle.lt_or_eq with hlt | rfl
    · have hlast : lastBit (m * (2 : ℚ) ^ e) ≤ e := by
        have hlog : Int.log 2 ((m : ℚ) * 2 ^ e) < 53 + e := by
          rw [← Int.lt_zpow_iff_log_lt (by decide) hpos]
          push_cast
          rw [zpow_add₀ (by norm_num)]
          have hm' : (m : ℚ) < 2 ^ (53 : ℤ) := by exact_mod_cast hlt
          gcongr
        unfold lastBit
        omega
      refine ⟨m * 2 ^ (e - lastBit (m * (2 : ℚ) ^ e)).toNat, ?_⟩
      push_cast
      rw [← zpow_natCast, Int.toNat_of_nonneg (by omega), zpow_sub₀ (by norm_num), mul_div_assoc]
    · have hlast : lastBit (((2 ^ 53 : ℕ) : ℚ) * 2 ^ e) = e + 1 := by
        have hpow : ((2 ^ 53 : ℕ) : ℚ) * 2 ^ e = ((2 : ℕ) : ℚ) ^ (53 + e) := by
          rw [Nat.cast_pow, zpow_add₀ (by norm_num)]
          rfl
        have hlog : Int.log 2 (((2 ^ 53 : ℕ) : ℚ) * 2 ^ e) = 53 + e := by
          rw [hpow]
          exact Int.log_zpow (by decide) _
        unfold lastBit
        omega
      refine ⟨2 ^ 52, ?_⟩
      rw [hlast, zpow_add_one₀ (by norm_num)]
      push_cast
      field_simp
      norm_num
  rcases hdvd with ⟨k, hk⟩
  unfold nearestPos
  rw [hk, roundHalfEven_natCast, ← hk]
  field_simp

theorem nearestPos_idem {q : ℚ} (hq : 0 < q) (hne : nearestPos q ≠ 0) :
    nearestPos (nearestPos q) = nearestPos q := by
  have hpos : 0 < roundHalfEven (q / (2 : ℚ) ^ lastBit q) := by
    apply Nat.pos_of_ne_zero
    intro hzero
    apply hne
    unfold nearestPos
    rw [hzero, Nat.cast_zero, zero_mul]
  exact nearestPos_natCast_mul hpos (roundHalfEven_div_lastBit_le hq) (le_max_right _ _)

theorem nearest_of_pos {q : ℚ} (h : 0 < q) : nearest q = nearestPos q := by
  unfold nearest
  rw [if_neg h.ne', if_pos h]

theorem nearest_of_neg {q : ℚ} (h : q < 0) : nearest q = -nearestPos (-q) := by
  unfold nearest
  rw [if_neg h.ne, if_neg h.le.not_gt]

@[simp] theorem nearest_zero : nearest 0 = 0 := if_pos rfl

theorem nearest_neg (q : ℚ) : nearest (-q) = -nearest q := by
  rcases lt_trichotomy q 0 with h | rfl | h
  · rw [nearest_of_neg h, nearest_of_pos (neg_pos.2 h), neg_neg]
  · simp
  · rw [nearest_of_pos h, nearest_of_neg (neg_lt_zero.2 h), neg_neg]

theorem nearest_nonneg {q : ℚ} (h : 0 ≤ q) : 0 ≤ nearest q := by
  rcases h.eq_or_lt with rfl | h
  · rw [nearest_zero]
  · rw [nearest_of_pos h]
    exact nearestPos_nonneg q

theorem nearest_mono : Monotone nearest := by
  -- on either side of zero, and across it
  have hpos : ∀ q r : ℚ, 0 ≤ q → q ≤ r → nearest q ≤ nearest r := by
    intro q r hq h
    rcases hq.eq_or_lt with rfl | hq
    · rw [nearest_zero]
      exact nearest_nonneg h
    · rw [nearest_of_pos hq, nearest_of_pos (hq.trans_le h)]
      exact nearestPos_mono hq h
  intro q r h
  rcases le_total 0 q with hq | hq
  · exact hpos q r hq h
  · rcases le_total 0 r with hr | hr
    · calc nearest q = -nearest (-q) := by rw [nearest_neg, neg_neg]
        _ ≤ 0 := neg_nonpos.2 (nearest_nonneg (neg_nonneg.2 hq))
        _ ≤ nearest r := nearest_nonneg hr
    · have hneg := hpos (-r) (-q) (neg_nonneg.2 hr) (neg_le_neg h)
      rw [nearest_neg, nearest_neg] at hneg
      exact neg_le_neg_iff.1 hneg

theorem nearest_idem (q : ℚ) : nearest (nearest q) = nearest q := by
  have hpos : ∀ q : ℚ, 0 < q → nearest (nearest q) = nearest q := by
    intro q hq
    rw [nearest_of_pos hq]
    by_cases hzero : nearestPos q = 0
    · rw [hzero, nearest_zero]
    · rw [nearest_of_pos ((nearestPos_nonneg q).lt_of_ne' hzero), nearestPos_idem hq hzero]
  rcases lt_trichotomy q 0 with h | rfl | h
  · have hneg := hpos (-q) (neg_pos.2 h)
    rwa [nearest_neg, nearest_neg, neg_inj] at hneg
  · rw [nearest_zero, nearest_zero]
  · exact hpos q h

/-- Small natural numbers are doubles. -/
theorem nearest_natCast {n : ℕ} (h : n ≤ 2 ^ 53) : nearest n = n := by
  rcases Nat.eq_zero_or_pos n with rfl | hpos
  · exact_mod_cast nearest_zero
  · have hn := nearestPos_natCast_mul (e := 0) hpos h (by norm_num)
    rw [zpow_zero, mul_one] at hn
    rw [nearest_of_pos (by exact_mod_cast hpos), hn]

/-- Between two integers, a rounded value stays between them. -/
theorem nearest_mem_Icc {q : ℚ} {m n : ℕ} (hmn : m ≤ n) (hn : n ≤ 2 ^ 53)
    (hq : q ∈ Set.Icc (m : ℚ) n) : nearest q ∈ Set.Icc (m : ℚ) n := by
  constructor
  · rw [← nearest_natCast (hmn.trans hn)]
    exact nearest_mono hq.1
  · rw [← nearest_natCast hn]
    exact nearest_mono hq.2

/-- A ratio of small natural numbers does not vanish. -/
theorem nearest_ratio_pos {m n : ℕ} (hm : 0 < m) (hmn : m ≤ n) (hn : n ≤ 2 ^ 53) :
    0 < nearest ((m : ℚ) / n) := by
  have hn0 : (0 : ℚ) < n := by exact_mod_cast hm.trans_le hmn
  have hunit : nearest ((2 : ℚ) ^ (-53 : ℤ)) = 2 ^ (-53 : ℤ) := by
    have h := nearestPos_natCast_mul (m := 1) (e := -53) (by norm_num) (by norm_num) (by norm_num)
    rw [Nat.cast_one, one_mul] at h
    rw [nearest_of_pos (by positivity), h]
  have hle : (2 : ℚ) ^ (-53 : ℤ) ≤ m / n := by
    rw [le_div_iff₀ hn0, zpow_neg, inv_mul_le_iff₀ (by positivity)]
    have hm' : (1 : ℚ) ≤ m := by exact_mod_cast hm
    have hn' : (n : ℚ) ≤ 2 ^ (53 : ℤ) := by exact_mod_cast hn
    exact hn'.trans (le_mul_of_one_le_right (by positivity) hm')
  calc
    (0 : ℚ) < 2 ^ (-53 : ℤ) := by positivity
    _ = nearest ((2 : ℚ) ^ (-53 : ℤ)) := hunit.symm
    _ ≤ nearest ((m : ℚ) / n) := nearest_mono hle

/-- A ratio of small natural numbers below one is not rounded to one. -/
theorem nearest_ratio_lt_one {m n : ℕ} (hmn : m < n) (hn : n ≤ 2 ^ 53) :
    nearest ((m : ℚ) / n) < 1 := by
  have hn0 : (0 : ℚ) < n := by exact_mod_cast (Nat.zero_le m).trans_lt hmn
  -- the double below one
  have hpred : nearest (((2 ^ 53 - 1 : ℕ) : ℚ) * 2 ^ (-53 : ℤ)) =
      ((2 ^ 53 - 1 : ℕ) : ℚ) * 2 ^ (-53 : ℤ) := by
    rw [nearest_of_pos (by norm_num)]
    exact nearestPos_natCast_mul (by norm_num) (by norm_num) (by norm_num)
  have hle : (m : ℚ) / n ≤ ((2 ^ 53 - 1 : ℕ) : ℚ) * 2 ^ (-53 : ℤ) := by
    rw [div_le_iff₀ hn0]
    have hm' : (m : ℚ) + 1 ≤ n := by exact_mod_cast hmn
    have hn' : (n : ℚ) ≤ 9007199254740992 := by exact_mod_cast hn
    norm_num
    linarith
  calc
    nearest ((m : ℚ) / n) ≤ ((2 ^ 53 - 1 : ℕ) : ℚ) * 2 ^ (-53 : ℤ) :=
      (nearest_mono hle).trans hpred.le
    _ < 1 := by norm_num

end Binary64

/-- A finite double. -/
structure Double where
  value : ℚ
  representable : Binary64.nearest value = value

namespace Double

/-- The double nearest to a rational. -/
def ofRat (q : ℚ) : Double := ⟨Binary64.nearest q, Binary64.nearest_idem q⟩

instance : Floats Double where
  add a b := ofRat (a.value + b.value)
  sub a b := ofRat (a.value - b.value)
  mul a b := ofRat (a.value * b.value)
  div a b := ofRat (a.value / b.value)
  neg a := ofRat (-a.value)
  ofRat := ofRat
  lt a b := decide (a.value < b.value)
  le a b := decide (a.value ≤ b.value)
  abs a := ofRat |a.value|
  round a n :=
    let digits := Binary64.roundHalfEven (|a.value| * 10 ^ n)
    ofRat (if a.value < 0 then -(digits / 10 ^ n) else digits / 10 ^ n)
  sum l := l.foldl (fun s a => ofRat (s.value + a.value)) (ofRat 0)
  format a n :=
    let digits := Binary64.roundHalfEven (|a.value| * 10 ^ n)
    (if a.value < 0 then "-" else "") ++ toString (digits / 10 ^ n) ++ "." ++
      String.ofList (Text.fixed 10 n digits)

instance : RoundedFloats Double where
  value := value
  nearest := Binary64.nearest
  nearest_mono := Binary64.nearest_mono
  nearest_value := representable
  nearest_zero := Binary64.nearest_zero
  nearest_one := by
    have h := Binary64.nearest_natCast (n := 1) (by norm_num)
    rwa [Nat.cast_one] at h
  value_ofRat _ := rfl
  value_add _ _ := rfl
  value_sub _ _ := rfl
  value_mul _ _ := rfl
  value_div _ _ _ := rfl
  lt_iff _ _ := decide_eq_true_iff
  le_iff _ _ := decide_eq_true_iff
  value_round a n h := by
    show Binary64.nearest (if a.value < 0 then _ else _) = _
    rw [if_neg h.not_gt, abs_of_nonneg h]

end Double
