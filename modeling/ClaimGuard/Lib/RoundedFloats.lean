import Mathlib.Algebra.Order.Archimedean.Basic
import Mathlib.Tactic.Linarith
import ClaimGuard.Lib.Binary64
import ClaimGuard.Lib.Floats

/-!
# Floating-point arithmetic that rounds

The laws of finite floating-point numbers: every number has a rational value, and an
operation gives the number nearest to the exact result. Of the rounding only its
monotonicity is used, so that it may be that of any format, or none at all.
-/

/-- Finite numbers with their values and the rounding of their operations. -/
class RoundedFloats (F : Type) [Floats F] where
  /-- The exact value. -/
  value : F → ℚ
  /-- The representable value nearest to a rational. -/
  nearest : ℚ → ℚ
  nearest_mono : Monotone nearest
  nearest_value : ∀ a, nearest (value a) = value a
  nearest_zero : nearest 0 = 0
  nearest_one : nearest 1 = 1
  value_ofRat : ∀ q, value (Floats.ofRat q) = nearest q
  value_add : ∀ a b : F, value (a + b) = nearest (value a + value b)
  value_sub : ∀ a b : F, value (a - b) = nearest (value a - value b)
  value_mul : ∀ a b : F, value (a * b) = nearest (value a * value b)
  value_div : ∀ a b : F, value b ≠ 0 → value (a / b) = nearest (value a / value b)
  lt_iff : ∀ a b : F, Floats.lt a b = true ↔ value a < value b
  le_iff : ∀ a b : F, Floats.le a b = true ↔ value a ≤ value b
  /-- The decimal nearest to the exact value, a tie going to the even digit, as a number. -/
  value_round : ∀ (a : F) (n : ℕ), 0 ≤ value a →
    value (Floats.round a n) = nearest (Binary64.roundHalfEven (value a * 10 ^ n) / 10 ^ n)

namespace RoundedFloats

variable {F : Type} [Floats F] [RoundedFloats F]

/-! ## The order -/

theorem lt_eq_false_iff {a b : F} : Floats.lt a b = false ↔ value b ≤ value a := by
  rw [← Bool.not_eq_true, lt_iff, not_lt]

theorem le_eq_false_iff {a b : F} : Floats.le a b = false ↔ value b < value a := by
  rw [← Bool.not_eq_true, le_iff, not_le]

theorem value_min (a b : F) : value (Floats.min a b) = min (value a) (value b) := by
  unfold Floats.min
  split_ifs with h
  · exact (min_eq_right ((lt_iff b a).1 h).le).symm
  · rw [Bool.not_eq_true, lt_eq_false_iff] at h
    exact (min_eq_left h).symm

theorem value_max (a b : F) : value (Floats.max a b) = max (value a) (value b) := by
  unfold Floats.max
  split_ifs with h
  · exact (max_eq_right ((lt_iff a b).1 h).le).symm
  · rw [Bool.not_eq_true, lt_eq_false_iff] at h
    exact (max_eq_left h).symm

/-! ## Ranges -/

theorem nearest_nonneg {q : ℚ} (h : 0 ≤ q) : 0 ≤ nearest F q := by
  rw [← nearest_zero (F := F)]
  exact nearest_mono h

theorem nearest_le_one {q : ℚ} (h : q ≤ 1) : nearest F q ≤ 1 := by
  rw [← nearest_one (F := F)]
  exact nearest_mono h

@[simp] theorem value_zero : value (Floats.ofRat 0 : F) = 0 := by
  rw [value_ofRat, nearest_zero]

@[simp] theorem value_one : value (Floats.ofRat 1 : F) = 1 := by
  rw [value_ofRat, nearest_one]

theorem truth_eq_false_iff {a : F} : Floats.truth a = false ↔ value a = 0 := by
  unfold Floats.truth
  rw [Bool.not_eq_false', Bool.and_eq_true, le_iff, le_iff, value_zero]
  exact ⟨fun h => le_antisymm h.1 h.2, fun h => ⟨h.le, h.ge⟩⟩

/-! ## Rounding to decimals -/

theorem value_round_nonneg {a : F} (n : ℕ) (h : 0 ≤ value a) : 0 ≤ value (Floats.round a n) := by
  rw [value_round a n h]
  exact nearest_nonneg (by positivity)

theorem value_round_le_one {a : F} (n : ℕ) (h : 0 ≤ value a) (h' : value a ≤ 1) :
    value (Floats.round a n) ≤ 1 := by
  rw [value_round a n h]
  apply nearest_le_one
  -- the scaled value is at most a power of ten, which is a natural number
  have hscaled : value a * 10 ^ n ≤ ((10 ^ n : ℕ) : ℚ) := by
    push_cast
    nlinarith [pow_pos (show (0 : ℚ) < 10 by norm_num) n]
  have hmono := Binary64.roundHalfEven_mono (by positivity) hscaled
  rw [Binary64.roundHalfEven_natCast] at hmono
  rw [div_le_one (by positivity)]
  exact_mod_cast hmono

/-- A quotient of a non-negative number by one that is not below it. -/
theorem value_div_mem_unit {a b : F} (ha : 0 ≤ value a) (hab : value a ≤ value b)
    (hb : 0 < value b) : 0 ≤ value (a / b) ∧ value (a / b) ≤ 1 := by
  rw [value_div a b hb.ne']
  exact ⟨nearest_nonneg (div_nonneg ha hb.le), nearest_le_one ((div_le_one hb).2 hab)⟩

/-! ## Thresholds and rounded numbers -/

/-- `n / 10 ^ d` is the first decimal with `d` places that is not below the threshold. -/
def FirstAtLeast (d : ℕ) (threshold : F) (n : ℕ) : Prop :=
  value threshold ≤ nearest F (n / 10 ^ d) ∧ ∀ m < n, nearest F (m / 10 ^ d) < value threshold

/-- A number is above the midpoint below `n / 10 ^ d`, or at it when `n` is even. -/
def AtMidpoint (d : ℕ) (a : F) (n : ℕ) : Prop :=
  (n : ℚ) - 1 / 2 < value a * 10 ^ d ∨ ((n : ℚ) - 1 / 2 = value a * 10 ^ d ∧ n % 2 = 0)

theorem exists_firstAtLeast (d : ℕ) (threshold : F) : ∃ n, FirstAtLeast d threshold n := by
  have hexists : ∃ n : ℕ, value threshold ≤ nearest F (n / 10 ^ d) := by
    rcases exists_nat_ge (value threshold * 10 ^ d) with ⟨n, hn⟩
    refine ⟨n, ?_⟩
    rw [← nearest_value threshold]
    exact nearest_mono ((le_div_iff₀ (by positivity)).2 hn)
  refine ⟨Nat.find hexists, Nat.find_spec hexists, ?_⟩
  intro m hm
  exact not_le.1 (Nat.find_min hexists hm)

/-- A rounded number reaches a threshold exactly when the number itself reaches the midpoint
below the first decimal that does. -/
theorem le_round_iff {d : ℕ} {threshold a : F} {n : ℕ} (hn : FirstAtLeast d threshold n)
    (ha : 0 ≤ value a) : value threshold ≤ value (Floats.round a d) ↔ AtMidpoint d a n := by
  unfold AtMidpoint
  rw [value_round a d ha, ← Binary64.le_roundHalfEven_iff (by positivity)]
  constructor
  · intro h
    by_contra hlt
    exact absurd h (not_le.2 (hn.2 _ (not_le.1 hlt)))
  · intro h
    refine hn.1.trans (nearest_mono ?_)
    gcongr

end RoundedFloats
