import Mathlib.Tactic.Ring
import ClaimGuard.Detector
import ClaimGuard.Lib.Double
import ClaimGuard.Lib.Windows

/-!
# Burstiness

What `_burstiness` measures: the largest share of the dates that one window holds,
wherever the window starts. The loop only tries the windows that start at a date.
-/

namespace ClaimGuard

open Floats

/-- The days of the dates that are there. -/
def presentDays (dates : List (Option LocalDate)) : List ℤ :=
  (dates.filterMap id).map LocalDate.epochDay

/-- The number of dates from `start` to `BURSTINESS_WINDOW_DAYS` days after it, whatever
day that is. -/
def filedFrom (dates : List (Option LocalDate)) (start : LocalDate) : ℕ :=
  (dates.filterMap id).countP fun d => decide (start.epochDay ≤ d.epochDay) &&
    decide (d.epochDay ≤ start.epochDay + burstinessWindowDays)

/-- The largest share of the dates in one window; none with fewer than two dates. -/
noncomputable def largestShare (dates : List (Option LocalDate)) : ℚ :=
  let filed := (dates.filterMap id).length
  if filed < 2 then 0 else ((⨆ start, filedFrom dates start : ℕ) : ℚ) / filed

/-- The date some days later, or earlier. -/
def LocalDate.shift (date : LocalDate) (days : ℤ) : LocalDate := ⟨date.epochDay + days⟩

theorem length_presentDays (dates : List (Option LocalDate)) :
    (presentDays dates).length = (dates.filterMap id).length := List.length_map _

theorem filedFrom_eq (dates : List (Option LocalDate)) (start : LocalDate) :
    filedFrom dates start =
      Windows.count (presentDays dates) burstinessWindowDays start.epochDay := by
  unfold filedFrom presentDays Windows.count
  rw [List.countP_map]
  rfl

/-- Dates are days, so the windows are windows of days. -/
theorem range_filedFrom (dates : List (Option LocalDate)) :
    Set.range (filedFrom dates) =
      Set.range (Windows.count (presentDays dates) burstinessWindowDays) := by
  ext n
  constructor
  · intro h
    rcases h with ⟨start, rfl⟩
    exact ⟨start.epochDay, (filedFrom_eq dates start).symm⟩
  · intro h
    rcases h with ⟨t, rfl⟩
    exact ⟨⟨t⟩, filedFrom_eq dates ⟨t⟩⟩

theorem iSup_filedFrom (dates : List (Option LocalDate)) :
    (⨆ start, filedFrom dates start) = Windows.most (presentDays dates) burstinessWindowDays := by
  unfold Windows.most iSup
  rw [range_filedFrom]

/-- The running maximum of `_burstiness`, over the dates in any order. -/
theorem foldl_filed {dates : List (Option LocalDate)} {l : List LocalDate}
    (hl : l.Perm (dates.filterMap id)) (hne : l ≠ []) :
    l.foldl (fun best start => Nat.max best (l.countP fun d =>
        decide (0 ≤ d.epochDay - start.epochDay) &&
          decide (d.epochDay - start.epochDay ≤ burstinessWindowDays))) 1 =
      ⨆ start, filedFrom dates start := by
  have hdays : (l.map LocalDate.epochDay).Perm (presentDays dates) := hl.map _
  have hmost := Windows.foldl_max_count (l := l.map LocalDate.epochDay)
    (w := burstinessWindowDays) (by decide) (by simpa using hne)
  rw [iSup_filedFrom, ← Windows.most_perm hdays, ← hmost, List.foldl_map]
  congr 1
  funext best start
  unfold Windows.count
  rw [List.countP_map]
  congr 2
  funext d
  -- a difference of days is within the window as the days are
  have hlow : 0 ≤ d.epochDay - start.epochDay ↔ start.epochDay ≤ d.epochDay := by omega
  have hhigh : d.epochDay - start.epochDay ≤ burstinessWindowDays ↔
      d.epochDay ≤ start.epochDay + burstinessWindowDays := by omega
  simp only [Function.comp_apply, hlow, hhigh]

section Reference

variable {F : Type} [Floats F]

/-- The loop computes the largest share. -/
theorem burstiness_eq_largestShare (dates : List (Option LocalDate)) :
    (burstiness dates : F) = ofRat (largestShare dates) := by
  have hsort : ((dates.filterMap id).insertionSort fun a b => a.epochDay ≤ b.epochDay).Perm
      (dates.filterMap id) := List.perm_insertionSort _ _
  unfold burstiness largestShare
  simp only [hsort.length_eq]
  split_ifs with hfew
  · rfl
  · have hne : ((dates.filterMap id).insertionSort fun a b => a.epochDay ≤ b.epochDay) ≠ [] := by
      intro hnil
      rw [← hsort.length_eq, hnil] at hfew
      exact hfew (by decide)
    rw [foldl_filed hsort hne]

end Reference

/-- Some window holds the largest number, and none holds more. -/
theorem isGreatest_filedFrom (dates : List (Option LocalDate)) :
    IsGreatest (Set.range (filedFrom dates)) (⨆ start, filedFrom dates start) := by
  rw [range_filedFrom, iSup_filedFrom]
  exact Windows.isGreatest_most _ _

theorem iSup_filedFrom_pos {dates : List (Option LocalDate)}
    (h : 2 ≤ (dates.filterMap id).length) : 0 < ⨆ start, filedFrom dates start := by
  rw [iSup_filedFrom]
  refine Windows.most_pos (by decide) ?_
  intro hnil
  rw [← length_presentDays, hnil] at h
  exact absurd h (by decide)

theorem iSup_filedFrom_le (dates : List (Option LocalDate)) :
    (⨆ start, filedFrom dates start) ≤ (dates.filterMap id).length := by
  rw [iSup_filedFrom, ← length_presentDays]
  exact Windows.most_le_length _ _

theorem iSup_filedFrom_eq_length_iff (dates : List (Option LocalDate)) :
    (⨆ start, filedFrom dates start) = (dates.filterMap id).length ↔
      ∃ start : LocalDate, ∀ d : LocalDate, some d ∈ dates → start.epochDay ≤ d.epochDay ∧
        d.epochDay ≤ start.epochDay + burstinessWindowDays := by
  rw [iSup_filedFrom, ← length_presentDays, Windows.most_eq_length_iff]
  unfold presentDays
  simp only [List.mem_map, List.mem_filterMap, id_eq, exists_eq_right, forall_exists_index,
    and_imp, forall_apply_eq_imp_iff₂]
  constructor
  · intro h
    rcases h with ⟨t, ht⟩
    exact ⟨⟨t⟩, ht⟩
  · intro h
    rcases h with ⟨start, hstart⟩
    exact ⟨start.epochDay, hstart⟩

theorem largestShare_of_two_le {dates : List (Option LocalDate)}
    (h : 2 ≤ (dates.filterMap id).length) :
    largestShare dates =
      ((⨆ start, filedFrom dates start : ℕ) : ℚ) / (dates.filterMap id).length :=
  if_neg (not_lt.2 h)

/-- The order of the dates does not matter. -/
theorem largestShare_perm {dates dates' : List (Option LocalDate)} (h : dates.Perm dates') :
    largestShare dates = largestShare dates' := by
  have hdates : (dates.filterMap id).Perm (dates'.filterMap id) := h.filterMap id
  have hdays : (presentDays dates).Perm (presentDays dates') := hdates.map _
  unfold largestShare
  rw [iSup_filedFrom, iSup_filedFrom, Windows.most_perm hdays, hdates.length_eq]

/-- Nor does the time they are at. -/
theorem largestShare_shift (dates : List (Option LocalDate)) (days : ℤ) :
    largestShare (dates.map (Option.map fun d => d.shift days)) = largestShare dates := by
  have hpresent : (dates.map (Option.map fun d => d.shift days)).filterMap id =
      (dates.filterMap id).map fun d => d.shift days := by
    rw [List.filterMap_map, List.map_filterMap]
    rfl
  have hdays : presentDays (dates.map (Option.map fun d => d.shift days)) =
      (presentDays dates).map fun d => d + days := by
    unfold presentDays
    rw [hpresent, List.map_map, List.map_map]
    rfl
  unfold largestShare
  rw [iSup_filedFrom, iSup_filedFrom, hdays, Windows.most_map_add, hpresent, List.length_map]

/-- The share is above zero, at most one, and one exactly when a window holds all dates. -/
theorem largestShare_mem_unit {dates : List (Option LocalDate)}
    (h : 2 ≤ (dates.filterMap id).length) : 0 < largestShare dates ∧ largestShare dates ≤ 1 := by
  have hlength : (0 : ℚ) < (dates.filterMap id).length := by exact_mod_cast (by omega)
  have hpos : (0 : ℚ) < (⨆ start, filedFrom dates start : ℕ) := by
    exact_mod_cast iSup_filedFrom_pos h
  rw [largestShare_of_two_le h]
  refine ⟨div_pos hpos hlength, (div_le_one hlength).2 ?_⟩
  exact_mod_cast iSup_filedFrom_le dates

theorem largestShare_eq_one_iff {dates : List (Option LocalDate)}
    (h : 2 ≤ (dates.filterMap id).length) :
    largestShare dates = 1 ↔
      ∃ start : LocalDate, ∀ d : LocalDate, some d ∈ dates → start.epochDay ≤ d.epochDay ∧
        d.epochDay ≤ start.epochDay + burstinessWindowDays := by
  have hlength : ((dates.filterMap id).length : ℚ) ≠ 0 := by
    exact_mod_cast (by omega : (dates.filterMap id).length ≠ 0)
  rw [← iSup_filedFrom_eq_length_iff, largestShare_of_two_le h, div_eq_one_iff_eq hlength,
    Nat.cast_inj]

/-- As a double it is rounded, without leaving these bounds: with fewer than `2 ^ 53` dates
the rounding does not reach the ends. -/
theorem value_burstiness_mem_unit {dates : List (Option LocalDate)}
    (h : 2 ≤ (dates.filterMap id).length) (hfew : (dates.filterMap id).length ≤ 2 ^ 53) :
    0 < (burstiness dates : Double).value ∧ (burstiness dates : Double).value ≤ 1 := by
  have hvalue : (burstiness dates : Double).value = Binary64.nearest (largestShare dates) := by
    rw [burstiness_eq_largestShare]
    rfl
  rw [hvalue]
  constructor
  · rw [largestShare_of_two_le h]
    exact Binary64.nearest_ratio_pos (iSup_filedFrom_pos h) (iSup_filedFrom_le dates) hfew
  · exact RoundedFloats.nearest_le_one (F := Double) (largestShare_mem_unit h).2

theorem value_burstiness_eq_one_iff {dates : List (Option LocalDate)}
    (h : 2 ≤ (dates.filterMap id).length) (hfew : (dates.filterMap id).length ≤ 2 ^ 53) :
    (burstiness dates : Double).value = 1 ↔ largestShare dates = 1 := by
  have hvalue : (burstiness dates : Double).value = Binary64.nearest (largestShare dates) := by
    rw [burstiness_eq_largestShare]
    rfl
  rw [hvalue]
  constructor
  · intro hone
    by_contra hne
    have hlt : (⨆ start, filedFrom dates start) < (dates.filterMap id).length := by
      apply lt_of_le_of_ne (iSup_filedFrom_le dates)
      intro heq
      apply hne
      rw [largestShare_eq_one_iff h, ← iSup_filedFrom_eq_length_iff]
      exact heq
    have hbelow := Binary64.nearest_ratio_lt_one hlt hfew
    rw [← largestShare_of_two_le h, hone] at hbelow
    exact lt_irrefl _ hbelow
  · intro hone
    rw [hone]
    exact RoundedFloats.nearest_one (F := Double)

/-- `_burstiness` is the number nearest to the largest share of the dates in one window,
wherever it starts: a share of at most one, which is one exactly when a window holds all
dates, and which depends on neither the order of the dates nor the time they are at. -/
theorem burstiness_reference {F : Type} [Floats F] (dates : List (Option LocalDate)) :
    ((dates.filterMap id).length < 2 → (burstiness dates : F) = ofRat 0) ∧
    (2 ≤ (dates.filterMap id).length → ∃ most : ℕ,
      IsGreatest (Set.range (filedFrom dates)) most ∧
      (burstiness dates : F) = ofRat (most / (dates.filterMap id).length) ∧
      (0 : ℚ) < most / (dates.filterMap id).length ∧
      (most : ℚ) / (dates.filterMap id).length ≤ 1 ∧
      ((most : ℚ) / (dates.filterMap id).length = 1 ↔
        ∃ start : LocalDate, ∀ d : LocalDate, some d ∈ dates → start.epochDay ≤ d.epochDay ∧
          d.epochDay ≤ start.epochDay + burstinessWindowDays)) ∧
    (∀ dates', dates.Perm dates' → (burstiness dates' : F) = burstiness dates) ∧
    (∀ days, (burstiness (dates.map (Option.map fun d => d.shift days)) : F) =
      burstiness dates) ∧
    (2 ≤ (dates.filterMap id).length → (dates.filterMap id).length ≤ 2 ^ 53 →
      0 < (burstiness dates : Double).value ∧ (burstiness dates : Double).value ≤ 1 ∧
      ((burstiness dates : Double).value = 1 ↔
        ∃ start : LocalDate, ∀ d : LocalDate, some d ∈ dates → start.epochDay ≤ d.epochDay ∧
          d.epochDay ≤ start.epochDay + burstinessWindowDays)) := by
  refine ⟨?_, ?_, ?_, ?_, ?_⟩
  · intro hfew
    rw [burstiness_eq_largestShare]
    unfold largestShare
    rw [if_pos hfew]
  · intro h
    refine ⟨⨆ start, filedFrom dates start, isGreatest_filedFrom dates, ?_⟩
    rw [← largestShare_of_two_le h]
    exact ⟨burstiness_eq_largestShare dates, (largestShare_mem_unit h).1,
      (largestShare_mem_unit h).2, largestShare_eq_one_iff h⟩
  · intro dates' hperm
    rw [burstiness_eq_largestShare, burstiness_eq_largestShare, largestShare_perm hperm]
  · intro days
    rw [burstiness_eq_largestShare, burstiness_eq_largestShare, largestShare_shift]
  · intro h hfew
    refine ⟨(value_burstiness_mem_unit h hfew).1, (value_burstiness_mem_unit h hfew).2, ?_⟩
    rw [value_burstiness_eq_one_iff h hfew, largestShare_eq_one_iff h]

/-- Four dates, three of them within two weeks, and one that is missing. -/
def Sample.filed : List (Option LocalDate) :=
  [some ⟨40⟩, some ⟨14⟩, none, some ⟨0⟩, some ⟨3⟩]

theorem burstiness_filed :
    (burstiness Sample.filed : Sample.Exact) = ⟨3 / 4⟩ ∧
      (burstiness Sample.filed.reverse : Double) = burstiness Sample.filed ∧
      0 < (burstiness Sample.filed : Double).value := by
  have hreference := burstiness_reference (F := Double) Sample.filed
  exact ⟨by decide +kernel, hreference.2.2.1 _ (List.reverse_perm _).symm,
    (hreference.2.2.2.2 (by decide) (by decide)).1⟩

end ClaimGuard
