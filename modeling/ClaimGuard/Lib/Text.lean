import Mathlib.Data.Nat.Basic
import Mathlib.Data.List.Basic
import Mathlib.Algebra.Order.Ring.Nat

/-!
# Numerals as text, and reading text back

Printed numerals as character lists: variable-width decimals and fixed-width
digits in a base up to sixteen, with the facts that make printed text readable
again: a numeral determines its number, and a run of characters of one kind ends
at the first character of another kind.
-/

namespace Text

/-! ## Splitting at the end of a run -/

/-- `r` is empty or starts with a character outside `p`. -/
def Stops (p : Char → Bool) (r : List Char) : Prop := ∀ c ∈ r.head?, p c = false

@[simp] theorem stops_nil (p : Char → Bool) : Stops p [] := by
  simp [Stops]

@[simp] theorem stops_cons {p : Char → Bool} {c : Char} {r : List Char} :
    Stops p (c :: r) ↔ p c = false := by
  simp [Stops]

/-- Two texts that start with a run of `p`-characters and then stop agree on the
run and on the rest. -/
theorem append_inj_of_stops {p : Char → Bool} {l₁ l₂ r₁ r₂ : List Char}
    (h₁ : ∀ c ∈ l₁, p c = true) (h₂ : ∀ c ∈ l₂, p c = true)
    (hr₁ : Stops p r₁) (hr₂ : Stops p r₂) (h : l₁ ++ r₁ = l₂ ++ r₂) : l₁ = l₂ ∧ r₁ = r₂ := by
  induction l₁ generalizing l₂ with
  | nil =>
      cases l₂ with
      | nil => exact ⟨rfl, h⟩
      | cons c l₂ =>
          have hr : r₁ = c :: (l₂ ++ r₂) := h
          rw [hr, stops_cons] at hr₁
          exact absurd (h₂ c List.mem_cons_self) (by simp [hr₁])
  | cons c l₁ ih =>
      cases l₂ with
      | nil =>
          have hr : r₂ = c :: (l₁ ++ r₁) := h.symm
          rw [hr, stops_cons] at hr₂
          exact absurd (h₁ c List.mem_cons_self) (by simp [hr₂])
      | cons d l₂ =>
          rcases List.cons.inj h with ⟨rfl, h'⟩
          obtain ⟨rfl, hr⟩ := ih (fun x hx => h₁ x (List.mem_cons_of_mem _ hx))
            (fun x hx => h₂ x (List.mem_cons_of_mem _ hx)) h'
          exact ⟨rfl, hr⟩

/-! ## Decimals -/

/-- A natural number in decimal, without leading zeros. -/
def decimal (n : ℕ) : List Char := Nat.toDigits 10 n

theorem isDigit_of_mem_decimal {n : ℕ} {c : Char} (h : c ∈ decimal n) : c.isDigit = true :=
  Nat.isDigit_of_mem_toDigits (by decide) (by decide) h

theorem decimal_ne_nil (n : ℕ) : decimal n ≠ [] := Nat.toDigits_ne_nil

theorem decimal_injective : Function.Injective decimal := by
  intro m n h
  have hm := Nat.ofDigitChars_toDigits (b := 10) (n := m) (by decide) (by decide)
  have hn := Nat.ofDigitChars_toDigits (b := 10) (n := n) (by decide) (by decide)
  rw [← hm, ← hn]
  exact congrArg (fun l => Nat.ofDigitChars 10 l 0) h

/-- A decimal is read back up to the first non-digit. -/
theorem decimal_append_inj {m n : ℕ} {r s : List Char} (hr : Stops Char.isDigit r)
    (hs : Stops Char.isDigit s) (h : decimal m ++ r = decimal n ++ s) : m = n ∧ r = s := by
  obtain ⟨hd, hrs⟩ := append_inj_of_stops (fun _ => isDigit_of_mem_decimal)
    (fun _ => isDigit_of_mem_decimal) hr hs h
  exact ⟨decimal_injective hd, hrs⟩

/-- A decimal starts with a digit. -/
theorem exists_decimal_eq_cons (n : ℕ) : ∃ c l, decimal n = c :: l ∧ c.isDigit = true := by
  cases h : decimal n with
  | nil => exact absurd h (decimal_ne_nil n)
  | cons c l => exact ⟨c, l, rfl, isDigit_of_mem_decimal (by rw [h]; exact List.mem_cons_self)⟩

/-- An integer in decimal, with a sign when it is negative. -/
def decimalInt (z : ℤ) : List Char := if z < 0 then '-' :: decimal z.natAbs else decimal z.natAbs

/-- An integer is read back up to the first non-digit. -/
theorem decimalInt_append_inj {y z : ℤ} {r s : List Char} (hr : Stops Char.isDigit r)
    (hs : Stops Char.isDigit s) (h : decimalInt y ++ r = decimalInt z ++ s) : y = z ∧ r = s := by
  rcases exists_decimal_eq_cons y.natAbs with ⟨c, l, hc, hcd⟩
  rcases exists_decimal_eq_cons z.natAbs with ⟨d, m, hd, hdd⟩
  have hminus : ('-' : Char).isDigit = false := by decide
  unfold decimalInt at h
  by_cases hy : y < 0
  · by_cases hz : z < 0
    · rw [if_pos hy, if_pos hz] at h
      rcases decimal_append_inj hr hs (List.cons.inj h).2 with ⟨hn, hrs⟩
      exact ⟨by omega, hrs⟩
    · -- a sign is not a digit
      rw [if_pos hy, if_neg hz, hd] at h
      have : '-' = d := (List.cons.inj h).1
      rw [this, hdd] at hminus
      cases hminus
  · by_cases hz : z < 0
    · rw [if_neg hy, if_pos hz, hc] at h
      have : c = '-' := (List.cons.inj h).1
      rw [← this, hcd] at hminus
      cases hminus
    · rw [if_neg hy, if_neg hz] at h
      rcases decimal_append_inj hr hs h with ⟨hn, hrs⟩
      exact ⟨by omega, hrs⟩

/-! ## Fixed width -/

/-- The `w` lowest digits of `n` in base `b`, most significant first. -/
def fixed (b : ℕ) : ℕ → ℕ → List Char
  | 0, _ => []
  | w + 1, n => fixed b w (n / b) ++ [Nat.digitChar (n % b)]

@[simp] theorem length_fixed (b w n : ℕ) : (fixed b w n).length = w := by
  induction w generalizing n with
  | zero => rfl
  | succ w ih => simp [fixed, ih]

/-- Only the lowest digits count. -/
theorem fixed_mod (b w n : ℕ) : fixed b w (n % b ^ w) = fixed b w n := by
  induction w generalizing n with
  | zero => rfl
  | succ w ih =>
      have hdiv : n % b ^ (w + 1) / b = n / b % b ^ w := by
        rw [pow_succ', Nat.mod_mul_right_div_self]
      have hmod : n % b ^ (w + 1) % b = n % b := by
        rw [pow_succ', Nat.mod_mul_right_mod]
      rw [fixed, hdiv, hmod, ih, fixed]

theorem digitChar_inj {m n : ℕ} (hm : m < 16) (hn : n < 16)
    (h : Nat.digitChar m = Nat.digitChar n) : m = n := by
  have key : ∀ a b : Fin 16, Nat.digitChar a = Nat.digitChar b → a = b := by decide
  have := key ⟨m, hm⟩ ⟨n, hn⟩ h
  exact Fin.mk.inj this

/-- Fixed-width digits determine a number that fits the width. -/
theorem fixed_inj {b w m n : ℕ} (hb : 0 < b) (hb' : b ≤ 16) (hm : m < b ^ w) (hn : n < b ^ w)
    (h : fixed b w m = fixed b w n) : m = n := by
  induction w generalizing m n with
  | zero =>
      rw [pow_zero] at hm hn
      omega
  | succ w ih =>
      have hlast := List.append_inj' h rfl
      have hmod : m % b = n % b :=
        digitChar_inj (lt_of_lt_of_le (Nat.mod_lt m hb) hb') (lt_of_lt_of_le (Nat.mod_lt n hb) hb')
          (List.cons.inj hlast.2).1
      have hdiv : m / b = n / b :=
        ih (Nat.div_lt_of_lt_mul (by rwa [pow_succ, mul_comm] at hm))
          (Nat.div_lt_of_lt_mul (by rwa [pow_succ, mul_comm] at hn)) hlast.1
      rw [← Nat.div_add_mod m b, ← Nat.div_add_mod n b, hdiv, hmod]

/-- What holds of all digits holds of the characters of a fixed width. -/
theorem of_mem_fixed {b : ℕ} (hb : 0 < b) {p : Char → Prop} (h : ∀ d < b, p (Nat.digitChar d))
    {w n : ℕ} {c : Char} (hc : c ∈ fixed b w n) : p c := by
  induction w generalizing n with
  | zero => cases hc
  | succ w ih =>
      rcases List.mem_append.1 hc with hc | hc
      · exact ih hc
      · rw [List.mem_singleton.1 hc]
        exact h (n % b) (Nat.mod_lt n hb)

theorem isDigit_of_mem_fixed {w n : ℕ} {c : Char} (h : c ∈ fixed 10 w n) : c.isDigit = true :=
  of_mem_fixed (p := fun c => c.isDigit = true) (by decide) (by decide) h

/-- A fixed-width decimal is read back up to the first non-digit: both its width
and its value. -/
theorem fixed_append_inj {v w m n : ℕ} {r s : List Char} (hm : m < 10 ^ v) (hn : n < 10 ^ w)
    (hr : Stops Char.isDigit r) (hs : Stops Char.isDigit s)
    (h : fixed 10 v m ++ r = fixed 10 w n ++ s) : v = w ∧ m = n ∧ r = s := by
  obtain ⟨hd, hrs⟩ := append_inj_of_stops (fun _ => isDigit_of_mem_fixed)
    (fun _ => isDigit_of_mem_fixed) hr hs h
  have hvw : v = w := by simpa using congrArg List.length hd
  subst hvw
  exact ⟨rfl, fixed_inj (by decide) (by decide) hm hn hd, hrs⟩

end Text
