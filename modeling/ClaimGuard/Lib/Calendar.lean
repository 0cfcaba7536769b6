import Mathlib.Data.String.Basic
import Mathlib.Order.Monotone.Defs
import ClaimGuard.Lib.Text

/-!
# Calendar dates

Dates of the proleptic Gregorian calendar by their ordinal, where the first of January
of the year 1 has number 1, and their ISO form. From the year 1 to the year 9999 the ISO
forms, compared as texts, are in the order of the dates.
-/

namespace Calendar

/-- A leap year. -/
def isLeap (y : ℕ) : Bool := decide (y % 4 = 0) && (decide (y % 100 ≠ 0) || decide (y % 400 = 0))

/-- The days before a year. -/
def daysBeforeYear (y : ℕ) : ℕ := 365 * (y - 1) + (y - 1) / 4 - (y - 1) / 100 + (y - 1) / 400

/-- The days of a year before a month; the month 13 stands for the whole year. -/
def daysBeforeMonth (leap : Bool) (m : ℕ) : ℕ :=
  [0, 31, 59, 90, 120, 151, 181, 212, 243, 273, 304, 334, 365].getD (m - 1) 365 +
    if leap && decide (2 < m) then 1 else 0

/-- The month of a day of the year, from an estimate that is at most one too high. -/
def monthOf (leap : Bool) (n : ℕ) : ℕ :=
  let month := (n + 50) / 32
  if n < daysBeforeMonth leap month then month - 1 else month

/-- The year, the month and the day with an ordinal. -/
def ofOrdinal (ordinal : ℕ) : ℕ × ℕ × ℕ :=
  let n := ordinal - 1
  -- cycles of 400, 100, 4 and 1 years
  let n400 := n / 146097
  let n100 := n % 146097 / 36524
  let n4 := n % 146097 % 36524 / 1461
  let n1 := n % 146097 % 36524 % 1461 / 365
  let day := n % 146097 % 36524 % 1461 % 365
  let year := 400 * n400 + 100 * n100 + 4 * n4 + n1 + 1
  -- the last day of a cycle that is one day longer
  if n1 = 4 ∨ n100 = 4 then (year - 1, 12, 31)
  else
    let leap := decide (n1 = 3) && (decide (n4 ≠ 24) || decide (n100 = 3))
    let month := monthOf leap day
    (year, month, day - daysBeforeMonth leap month + 1)

/-- The ISO form of the date with an ordinal. -/
def isoFormat (ordinal : ℕ) : String :=
  let date := ofOrdinal ordinal
  String.ofList (Text.fixed 10 4 date.1 ++
    '-' :: (Text.fixed 10 2 date.2.1 ++ '-' :: Text.fixed 10 2 date.2.2))

/-! ## Dates and their ordinals -/

/-- Which years of the cycles are leap years. -/
theorem isLeap_cycles (a : ℕ) {b c e : ℕ} (hb : b ≤ 3) (hc : c ≤ 24) (he : e ≤ 3) :
    isLeap (400 * a + 100 * b + 4 * c + e + 1) =
      (decide (e = 3) && (decide (c ≠ 24) || decide (b = 3))) := by
  have h4 : (400 * a + 100 * b + 4 * c + e + 1) % 4 = 0 ↔ e = 3 := by omega
  unfold isLeap
  simp only [h4]
  by_cases h3 : e = 3
  · have h100 : (400 * a + 100 * b + 4 * c + e + 1) % 100 ≠ 0 ↔ c ≠ 24 := by omega
    simp only [h100]
    by_cases h24 : c = 24
    · have h400 : (400 * a + 100 * b + 4 * c + e + 1) % 400 = 0 ↔ b = 3 := by omega
      simp only [h400]
    · simp [h24]
  · simp [h3]

/-- The days before a year of the cycles. -/
theorem daysBeforeYear_cycles (a : ℕ) {b c e : ℕ} (hb : b ≤ 3) (hc : c ≤ 24) (he : e ≤ 3) :
    daysBeforeYear (400 * a + 100 * b + 4 * c + e + 1) =
      146097 * a + 36524 * b + 1461 * c + 365 * e := by
  have h4 : (400 * a + 100 * b + 4 * c + e) / 4 = 100 * a + 25 * b + c := by omega
  have h100 : (400 * a + 100 * b + 4 * c + e) / 100 = 4 * a + b := by omega
  have h400 : (400 * a + 100 * b + 4 * c + e) / 400 = a := by omega
  unfold daysBeforeYear
  rw [Nat.add_sub_cancel, h4, h100, h400]
  omega

/-- A year is one of the years of the cycles. -/
theorem exists_cycles {y : ℕ} (hy : 1 ≤ y) : ∃ a b c e, b ≤ 3 ∧ c ≤ 24 ∧ e ≤ 3 ∧
    y = 400 * a + 100 * b + 4 * c + e + 1 := by
  refine ⟨(y - 1) / 400, (y - 1) % 400 / 100, (y - 1) % 100 / 4, (y - 1) % 4, ?_, ?_, ?_, ?_⟩ <;>
    omega

/-- The days of a year. -/
def yearLength (y : ℕ) : ℕ := 365 + if isLeap y then 1 else 0

theorem daysBeforeYear_succ {y : ℕ} (hy : 1 ≤ y) :
    daysBeforeYear (y + 1) = daysBeforeYear y + yearLength y := by
  rcases exists_cycles hy with ⟨a, b, c, e, hb, hc, he, rfl⟩
  unfold yearLength
  rw [daysBeforeYear_cycles a hb hc he, isLeap_cycles a hb hc he]
  by_cases h3 : e = 3
  · by_cases h24 : c = 24
    · by_cases hb3 : b = 3
      · -- the last year of all cycles
        have hnext := daysBeforeYear_cycles (a + 1) (Nat.zero_le 3) (Nat.zero_le 24) (Nat.zero_le 3)
        rw [show 400 * a + 100 * b + 4 * c + e + 1 + 1 =
          400 * (a + 1) + 100 * 0 + 4 * 0 + 0 + 1 by omega, hnext]
        simp [h3, h24, hb3]
        omega
      · have hnext := daysBeforeYear_cycles a (show b + 1 ≤ 3 by omega) (Nat.zero_le 24)
          (Nat.zero_le 3)
        rw [show 400 * a + 100 * b + 4 * c + e + 1 + 1 =
          400 * a + 100 * (b + 1) + 4 * 0 + 0 + 1 by omega, hnext]
        simp [h3, h24, hb3]
        omega
    · have hnext := daysBeforeYear_cycles a hb (show c + 1 ≤ 24 by omega) (Nat.zero_le 3)
      rw [show 400 * a + 100 * b + 4 * c + e + 1 + 1 =
        400 * a + 100 * b + 4 * (c + 1) + 0 + 1 by omega, hnext]
      simp [h3, h24]
      omega
  · have hnext := daysBeforeYear_cycles a hb hc (show e + 1 ≤ 3 by omega)
    rw [show 400 * a + 100 * b + 4 * c + e + 1 + 1 =
      400 * a + 100 * b + 4 * c + (e + 1) + 1 by omega, hnext]
    simp [h3]
    omega

theorem daysBeforeYear_le {y z : ℕ} (hy : 1 ≤ y) (h : y ≤ z) :
    daysBeforeYear y ≤ daysBeforeYear z := by
  induction z, h using Nat.le_induction with
  | base => exact Nat.le_refl _
  | succ z hz ih =>
      rw [daysBeforeYear_succ (by omega)]
      omega

/-- The month of a day is the one that it falls into. -/
theorem monthOf_spec (leap : Bool) {n : ℕ} (hn : n < 365) :
    1 ≤ monthOf leap n ∧ monthOf leap n ≤ 12 ∧ daysBeforeMonth leap (monthOf leap n) ≤ n ∧
      n < daysBeforeMonth leap (monthOf leap n + 1) := by
  have key : ∀ b : Bool, ∀ n < 365, 1 ≤ monthOf b n ∧ monthOf b n ≤ 12 ∧
      daysBeforeMonth b (monthOf b n) ≤ n ∧ n < daysBeforeMonth b (monthOf b n + 1) := by
    decide +kernel
  exact key leap n hn

theorem daysBeforeMonth_le (leap : Bool) {m k : ℕ} (h : m < k) (hk : k ≤ 12) :
    daysBeforeMonth leap (m + 1) ≤ daysBeforeMonth leap k := by
  have key : ∀ b : Bool, ∀ k ≤ 12, ∀ m < k, daysBeforeMonth b (m + 1) ≤ daysBeforeMonth b k := by
    decide
  exact key leap k hk m h

/-- What the date with an ordinal is: its day falls into its month, and its month into its
year. -/
structure DateOf (ordinal y m d : ℕ) : Prop where
  year_pos : 1 ≤ y
  month : 1 ≤ m ∧ m ≤ 12
  day_pos : 1 ≤ d
  ordinal_eq : ordinal = daysBeforeYear y + daysBeforeMonth (isLeap y) m + d
  inMonth : daysBeforeMonth (isLeap y) m + d ≤ daysBeforeMonth (isLeap y) (m + 1)

/-- The last day of a leap year. -/
theorem dateOf_lastDay {n y : ℕ} (hy : 1 ≤ y) (hleap : isLeap y = true)
    (hn : n = daysBeforeYear y + 366) : DateOf n y 12 31 := by
  have h12 : daysBeforeMonth true 12 = 335 := by decide
  have h13 : daysBeforeMonth true (12 + 1) = 366 := by decide
  constructor
  · exact hy
  · omega
  · omega
  · rw [hleap]
    omega
  · rw [hleap]
    omega

theorem dateOf_ofOrdinal {n : ℕ} (hn : 1 ≤ n) :
    DateOf n (ofOrdinal n).1 (ofOrdinal n).2.1 (ofOrdinal n).2.2 := by
  unfold ofOrdinal
  simp only
  generalize h400 : (n - 1) / 146097 = a
  generalize h100 : (n - 1) % 146097 / 36524 = b
  generalize h4 : (n - 1) % 146097 % 36524 / 1461 = c
  generalize h1 : (n - 1) % 146097 % 36524 % 1461 / 365 = e
  generalize hday : (n - 1) % 146097 % 36524 % 1461 % 365 = day
  have hc : c ≤ 24 := by omega
  have hsum : n - 1 = 146097 * a + 36524 * b + 1461 * c + 365 * e + day := by omega
  split
  · rename_i hlast
    rcases hlast with hlast | hlast
    · -- the last day of four years, the fourth of which is a leap year
      have hb : b ≤ 3 := by omega
      have hc' : c ≠ 24 := by omega
      have hyear : 400 * a + 100 * b + 4 * c + e + 1 - 1 = 400 * a + 100 * b + 4 * c + 3 + 1 := by
        omega
      rw [hyear]
      apply dateOf_lastDay (by omega)
      · rw [isLeap_cycles a hb hc (Nat.le_refl 3)]
        simp [hc']
      · rw [daysBeforeYear_cycles a hb hc (Nat.le_refl 3)]
        omega
    · -- the last day of four hundred years
      have hyear : 400 * a + 100 * b + 4 * c + e + 1 - 1 =
          400 * a + 100 * 3 + 4 * 24 + 3 + 1 := by
        omega
      rw [hyear]
      apply dateOf_lastDay (by omega)
      · rw [isLeap_cycles a (Nat.le_refl 3) (Nat.le_refl 24) (Nat.le_refl 3)]
        decide
      · rw [daysBeforeYear_cycles a (Nat.le_refl 3) (Nat.le_refl 24) (Nat.le_refl 3)]
        omega
  · rename_i hlast
    have hb : b ≤ 3 := by omega
    have he : e ≤ 3 := by omega
    have hdays := daysBeforeYear_cycles a hb hc he
    rw [← isLeap_cycles a hb hc he]
    dsimp only
    obtain ⟨hm, hm', hle, hlt⟩ :=
      monthOf_spec (isLeap (400 * a + 100 * b + 4 * c + e + 1)) (show day < 365 by omega)
    constructor
    · omega
    · exact ⟨hm, hm'⟩
    · omega
    · omega
    · omega

/-! ## The order of dates -/

/-- A later date has a later year, or in the same year a later month, or in the same month
a later day. -/
theorem DateOf.lt {n n' y m d y' m' d' : ℕ} (h : DateOf n y m d) (h' : DateOf n' y' m' d')
    (hlt : n < n') : y < y' ∨ y = y' ∧ (m < m' ∨ m = m' ∧ d < d') := by
  have hn := h.ordinal_eq
  have hn' := h'.ordinal_eq
  rcases Nat.lt_trichotomy y y' with hyear | rfl | hyear
  · exact Or.inl hyear
  · refine Or.inr ⟨rfl, ?_⟩
    rcases Nat.lt_trichotomy m m' with hmonth | rfl | hmonth
    · exact Or.inl hmonth
    · exact Or.inr ⟨rfl, by omega⟩
    · -- the earlier month ends before the later one begins
      have hle := daysBeforeMonth_le (isLeap y) hmonth h.month.2
      have hin := h'.inMonth
      have hpos := h.day_pos
      omega
  · -- the earlier year ends before the later one begins
    have hend : daysBeforeMonth (isLeap y') m' + d' ≤ yearLength y' := by
      have hin := h'.inMonth
      have hle : daysBeforeMonth (isLeap y') (m' + 1) ≤ yearLength y' := by
        unfold yearLength
        have key : ∀ b : Bool, ∀ m ≤ 12,
            daysBeforeMonth b (m + 1) ≤ 365 + if b then 1 else 0 := by
          decide
        exact key (isLeap y') m' h'.month.2
      omega
    have hyears := daysBeforeYear_le (by omega) (Nat.succ_le_of_lt hyear)
    rw [Nat.succ_eq_add_one, daysBeforeYear_succ h'.year_pos] at hyears
    have hpos := h.day_pos
    omega

/-- Digits of the same width are in the order of their numbers. -/
theorem fixed_append_lt {w m n : ℕ} (hn : n < 10 ^ w) (h : m < n) (r s : List Char) :
    Text.fixed 10 w m ++ r < Text.fixed 10 w n ++ s := by
  have key : ∀ a b : Fin 10, a < b → Nat.digitChar a < Nat.digitChar b := by decide
  induction w generalizing m n r s with
  | zero =>
      rw [pow_zero] at hn
      omega
  | succ w ih =>
      simp only [Text.fixed, List.append_assoc, List.cons_append, List.nil_append]
      by_cases hdiv : m / 10 < n / 10
      · exact ih (Nat.div_lt_of_lt_mul (by rwa [pow_succ, mul_comm] at hn)) hdiv _ _
      · -- all digits but the last are the same
        have hsame : m / 10 = n / 10 := by omega
        rw [hsame]
        apply List.append_left_lt
        apply List.Lex.rel
        exact key ⟨m % 10, Nat.mod_lt m (by omega)⟩ ⟨n % 10, Nat.mod_lt n (by omega)⟩
          (show m % 10 < n % 10 by omega)

/-- Texts that share a front are in the order of their rests. -/
theorem cons_append_lt {c : Char} {l r s : List Char} (h : r < s) : l ++ c :: r < l ++ c :: s :=
  List.append_left_lt (List.cons_lt_cons_self.2 h)

/-- The last ordinal with a year of four digits. -/
def maxOrdinal : ℕ := 3652059

theorem year_lt {n y m d : ℕ} (h : DateOf n y m d) (hn : n ≤ maxOrdinal) : y < 10 ^ 4 := by
  have hmax : daysBeforeYear 10000 = maxOrdinal := by decide
  by_contra hlarge
  have hle := daysBeforeYear_le (show 1 ≤ 10000 by omega) (show 10000 ≤ y by omega)
  have hn' := h.ordinal_eq
  have hpos := h.day_pos
  omega

theorem day_lt {n y m d : ℕ} (h : DateOf n y m d) : d < 10 ^ 2 := by
  have key : ∀ b : Bool, ∀ m ≤ 12, daysBeforeMonth b (m + 1) ≤ daysBeforeMonth b m + 31 := by
    decide
  have hle := key (isLeap y) m h.month.2
  have hin := h.inMonth
  omega

/-- The ISO forms of dates with years of four digits are in the order of the dates. -/
theorem isoFormat_strictMonoOn : StrictMonoOn isoFormat {n | 1 ≤ n ∧ n ≤ maxOrdinal} := by
  rintro n ⟨hn, -⟩ n' ⟨hn', hmax'⟩ hlt
  have h := dateOf_ofOrdinal hn
  have h' := dateOf_ofOrdinal hn'
  rw [String.lt_iff_toList_lt]
  simp only [isoFormat, String.toList_ofList]
  rcases h.lt h' hlt with hyear | ⟨hyear, hmonth | ⟨hmonth, hday⟩⟩
  · exact fixed_append_lt (year_lt h' hmax') hyear _ _
  · rw [hyear]
    have hmonth' := h'.month.2
    exact cons_append_lt (fixed_append_lt (by omega) hmonth _ _)
  · rw [hyear, hmonth]
    have hlast := fixed_append_lt (day_lt h') hday [] []
    rw [List.append_nil, List.append_nil] at hlast
    exact cons_append_lt (cons_append_lt hlast)

end Calendar
