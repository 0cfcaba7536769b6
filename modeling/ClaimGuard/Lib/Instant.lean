import Mathlib.Data.List.Lex
import ClaimGuard.Lib.Text

/-!
# Instants

A point of the UTC time line, as its date and time of day in the proleptic
calendar. Two operations matter to a program that prints what it stores:
truncation to a unit and the ISO-8601 form, whose fraction has as many digits
(none, three, six or nine) as the instant needs.
-/

/-- Days of a month in the proleptic Gregorian calendar. -/
def daysInMonth (year : ℤ) (month : ℕ) : ℕ :=
  if month = 2 then
    if 4 ∣ year ∧ (¬ 100 ∣ year ∨ 400 ∣ year) then 29 else 28
  else if month = 4 ∨ month = 6 ∨ month = 9 ∨ month = 11 then 30
  else 31

/-- An instant, by its UTC date, time of day and nanosecond. -/
structure Instant where
  year : ℤ
  month : ℕ
  day : ℕ
  hour : ℕ
  minute : ℕ
  second : ℕ
  nano : ℕ
  date_valid : 1 ≤ month ∧ month ≤ 12 ∧ 1 ≤ day ∧ day ≤ daysInMonth year month
  time_valid : hour < 24 ∧ minute < 60 ∧ second < 60 ∧ nano < 10 ^ 9
deriving DecidableEq, Repr

instance : Inhabited Instant :=
  ⟨⟨1970, 1, 1, 0, 0, 0, 0, by decide, by decide⟩⟩

namespace Instant

/-- The fields from the coarsest to the finest, which order instants. -/
def fields (i : Instant) : List ℤ := [i.year, i.month, i.day, i.hour, i.minute, i.second, i.nano]

/-- `i` is not later than `j`. -/
def Le (i j : Instant) : Prop := i.fields ≤ j.fields

instance : DecidableRel Le := fun i j => inferInstanceAs (Decidable (i.fields ≤ j.fields))

/-- Drop what is below `unit` nanoseconds, a divisor of the second. -/
def truncate (i : Instant) (unit : ℕ) : Instant where
  year := i.year
  month := i.month
  day := i.day
  hour := i.hour
  minute := i.minute
  second := i.second
  nano := i.nano - i.nano % unit
  date_valid := i.date_valid
  time_valid := by
    have h := i.time_valid
    omega

/-- Truncation to milliseconds. -/
def truncatedToMillis (i : Instant) : Instant := i.truncate 1000000

/-- What is truncated to milliseconds has whole microseconds. -/
theorem nano_truncatedToMillis (i : Instant) : i.truncatedToMillis.nano % 1000 = 0 := by
  simp only [truncatedToMillis, truncate]
  omega

/-! ## Printing -/

/-- The year: four digits, with a sign outside `0..9999`. -/
def yearChars (y : ℤ) : List Char :=
  if y.natAbs < 10000 then (if y < 0 then ['-'] else []) ++ Text.fixed 10 4 y.natAbs
  else (if y < 0 then '-' else '+') :: Text.decimal y.natAbs

/-- How many digits a fraction needs, in groups of three. -/
def fractionDigits (nano : ℕ) : ℕ :=
  if nano % 1000000 = 0 then 3 else if nano % 1000 = 0 then 6 else 9

/-- The fraction of a second: nothing, or three, six or nine digits. -/
def fractionChars (nano : ℕ) : List Char :=
  if nano = 0 then []
  else '.' :: Text.fixed 10 (fractionDigits nano) (nano / 10 ^ (9 - fractionDigits nano))

/-- The ISO-8601 form. -/
def chars (i : Instant) : List Char :=
  yearChars i.year ++ '-' :: (Text.fixed 10 2 i.month ++ '-' :: (Text.fixed 10 2 i.day ++ 'T' ::
    (Text.fixed 10 2 i.hour ++ ':' :: (Text.fixed 10 2 i.minute ++ ':' ::
      (Text.fixed 10 2 i.second ++ (fractionChars i.nano ++ ['Z']))))))

/-- The ISO-8601 form as a string. -/
def toString (i : Instant) : String := String.ofList i.chars

private theorem stops_dash (r : List Char) : Text.Stops Char.isDigit ('-' :: r) := by
  simp only [Text.stops_cons]
  decide

/-- A year is read back up to the dash after it. -/
theorem yearChars_append_inj {y z : ℤ} {r s : List Char}
    (h : yearChars y ++ '-' :: r = yearChars z ++ '-' :: s) : y = z ∧ r = s := by
  -- what a year starts with tells the three forms apart
  have hdigit : ∀ (n : ℕ) (c : Char) (l m : List Char), c.isDigit = false →
      ¬ c :: l = Text.fixed 10 4 n ++ m := by
    intro n c l m hc hcl
    have hmem : c ∈ Text.fixed 10 4 n := by
      have hlen : 0 < (Text.fixed 10 4 n).length := by simp
      cases hf : Text.fixed 10 4 n with
      | nil => simp [hf] at hlen
      | cons d l' =>
          rw [hf] at hcl
          rw [(List.cons.inj hcl).1]
          exact List.mem_cons_self
    simp [Text.isDigit_of_mem_fixed hmem] at hc
  have hfixed : ∀ {m n : ℕ} {r s : List Char}, m < 10000 → n < 10000 →
      Text.fixed 10 4 m ++ '-' :: r = Text.fixed 10 4 n ++ '-' :: s → m = n ∧ r = s := by
    intro m n r s hm hn hmn
    obtain ⟨-, h₁, h₂⟩ := Text.fixed_append_inj (by simpa using hm) (by simpa using hn)
      (stops_dash _) (stops_dash _) hmn
    exact ⟨h₁, (List.cons.inj h₂).2⟩
  have hdecimal : ∀ {m n : ℕ} {r s : List Char},
      Text.decimal m ++ '-' :: r = Text.decimal n ++ '-' :: s → m = n ∧ r = s := by
    intro m n r s hmn
    rcases Text.decimal_append_inj (stops_dash _) (stops_dash _) hmn with ⟨h₁, h₂⟩
    exact ⟨h₁, (List.cons.inj h₂).2⟩
  -- four digits never are the decimal of a number above 9999
  have hmixed : ∀ {m n : ℕ} {r s : List Char}, m < 10000 → 10000 ≤ n →
      ¬ Text.fixed 10 4 m ++ '-' :: r = Text.decimal n ++ '-' :: s := by
    intro m n r s hm hn hmn
    obtain ⟨h₁, -⟩ := Text.append_inj_of_stops (fun _ => Text.isDigit_of_mem_fixed)
      (fun _ => Text.isDigit_of_mem_decimal) (stops_dash _) (stops_dash _) hmn
    have hlen : (Text.decimal n).length = 4 := by rw [← h₁, Text.length_fixed]
    have := (Nat.length_toDigits_le_iff (b := 10) (n := n) (k := 4) (by decide) (by decide)).1
      (le_of_eq hlen)
    omega
  unfold yearChars at h
  by_cases hy : y.natAbs < 10000 <;> by_cases hz : z.natAbs < 10000 <;>
    by_cases hy' : y < 0 <;> by_cases hz' : z < 0 <;>
    simp only [hy, hz, hy', hz', if_true, if_false, List.cons_append, List.nil_append,
      List.cons.injEq, true_and] at h
  · rcases hfixed hy hz h with ⟨h₁, h₂⟩
    exact ⟨by omega, h₂⟩
  · exact absurd h (hdigit _ _ _ _ (by decide))
  · exact absurd h.symm (hdigit _ _ _ _ (by decide))
  · rcases hfixed hy hz h with ⟨h₁, h₂⟩
    exact ⟨by omega, h₂⟩
  · exact absurd h (hmixed hy (by omega))
  · simp at h
  · exact absurd h.symm (hdigit _ _ _ _ (by decide))
  · exact absurd h.symm (hdigit _ _ _ _ (by decide))
  · exact absurd h.symm (hmixed hz (by omega))
  · exact absurd h (hdigit _ _ _ _ (by decide))
  · simp at h
  · exact absurd h (hdigit _ _ _ _ (by decide))
  · rcases hdecimal h with ⟨h₁, h₂⟩
    exact ⟨by omega, h₂⟩
  · simp at h
  · simp at h
  · rcases hdecimal h with ⟨h₁, h₂⟩
    exact ⟨by omega, h₂⟩

/-- The digits printed are all the digits there are. -/
theorem fractionDigits_spec {nano : ℕ} (h : nano < 10 ^ 9) :
    nano / 10 ^ (9 - fractionDigits nano) < 10 ^ fractionDigits nano ∧
      nano = nano / 10 ^ (9 - fractionDigits nano) * 10 ^ (9 - fractionDigits nano) := by
  unfold fractionDigits
  split
  · change nano / 1000000 < 1000 ∧ nano = nano / 1000000 * 1000000
    omega
  · split
    · change nano / 1000 < 1000000 ∧ nano = nano / 1000 * 1000
      omega
    · change nano / 1 < 1000000000 ∧ nano = nano / 1 * 1
      omega

/-- A fraction is read back up to the end of the text. -/
theorem fractionChars_inj {m n : ℕ} (hm : m < 10 ^ 9) (hn : n < 10 ^ 9)
    (h : fractionChars m ++ ['Z'] = fractionChars n ++ ['Z']) : m = n := by
  have h' : fractionChars m = fractionChars n := List.append_cancel_right h
  rcases fractionDigits_spec hm with ⟨hmlt, hmeq⟩
  rcases fractionDigits_spec hn with ⟨hnlt, hneq⟩
  unfold fractionChars at h'
  by_cases hm0 : m = 0
  · by_cases hn0 : n = 0
    · rw [hm0, hn0]
    · rw [if_pos hm0, if_neg hn0] at h'
      cases h'
  · by_cases hn0 : n = 0
    · rw [if_neg hm0, if_pos hn0] at h'
      cases h'
    · rw [if_neg hm0, if_neg hn0] at h'
      obtain ⟨hdigits, hvalue, -⟩ := Text.fixed_append_inj (r := []) (s := []) hmlt hnlt
        (by simp) (by simp) (by simpa using (List.cons.inj h').2)
      rw [hmeq, hneq, hvalue, hdigits]

/-- Instants that print alike are equal. -/
theorem toString_injective : Function.Injective toString := by
  intro i j h
  have hi := i.date_valid
  have hj := j.date_valid
  have hti := i.time_valid
  have htj := j.time_valid
  have hdays : ∀ y m, daysInMonth y m ≤ 31 := by
    intro y m
    unfold daysInMonth
    repeat' split
    all_goals omega
  have hdi := hdays i.year i.month
  have hdj := hdays j.year j.month
  have group : ∀ {m n : ℕ} {r s : List Char}, m < 100 → n < 100 →
      Text.fixed 10 2 m ++ r = Text.fixed 10 2 n ++ s → m = n ∧ r = s := by
    intro m n r s hm hn hmn
    obtain ⟨hd, hrs⟩ := List.append_inj hmn (by simp)
    exact ⟨Text.fixed_inj (by decide) (by decide) (by simpa using hm) (by simpa using hn) hd, hrs⟩
  have hchars : i.chars = j.chars := String.ofList_injective h
  unfold chars at hchars
  rcases yearChars_append_inj hchars with ⟨hyear, hchars⟩
  obtain ⟨hmonth, hchars⟩ := group (by omega) (by omega) hchars
  obtain ⟨hday, hchars⟩ := group (by omega) (by omega) (List.cons.inj hchars).2
  obtain ⟨hhour, hchars⟩ := group (by omega) (by omega) (List.cons.inj hchars).2
  obtain ⟨hminute, hchars⟩ := group (by omega) (by omega) (List.cons.inj hchars).2
  obtain ⟨hsecond, hchars⟩ := group (by omega) (by omega) (List.cons.inj hchars).2
  have hnano := fractionChars_inj hti.2.2.2 htj.2.2.2 hchars
  cases i
  cases j
  simp only at hyear hmonth hday hhour hminute hsecond hnano
  subst hyear hmonth hday hhour hminute hsecond hnano
  rfl

end Instant
