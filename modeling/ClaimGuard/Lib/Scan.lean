import Mathlib.Data.List.Basic

/-!
# Scanning a text for a pattern

A pattern of fixed length asks something of each element of a stretch of text. The
scan goes from left to right and continues behind each match, as the search for all
matches of a regular expression does, so it passes over an occurrence that begins inside
a match. The main result says which occurrences it reports.
-/

namespace Scan

variable {α : Type*}

/-- A pattern: what it asks of each element in turn. -/
abbrev Pattern (α : Type*) := List (α → Bool)

/-- The text begins with a stretch that has the pattern. -/
def fits : Pattern α → List α → Bool
  | [], _ => true
  | _ :: _, [] => false
  | p :: pattern, c :: text => p c && fits pattern text

/-- The pattern occurs in the text at a place. -/
def Occurs (pattern : Pattern α) (text : List α) (i : ℕ) : Prop :=
  fits pattern (text.drop i) = true

instance (pattern : Pattern α) (text : List α) (i : ℕ) : Decidable (Occurs pattern text i) :=
  inferInstanceAs (Decidable (_ = true))

/-- The stretch of the text at a place. -/
def stretch (pattern : Pattern α) (text : List α) (i : ℕ) : List α :=
  (text.drop i).take pattern.length

/-- The places of the matches, from a place on of which `skip` elements still belong to
the last match. -/
def startsFrom (pattern : Pattern α) : (skip i : ℕ) → List α → List ℕ
  | _, _, [] => []
  | skip + 1, i, _ :: text => startsFrom pattern skip (i + 1) text
  | 0, i, c :: text =>
      if fits pattern (c :: text) then i :: startsFrom pattern (pattern.length - 1) (i + 1) text
      else startsFrom pattern 0 (i + 1) text

/-- All matches of a pattern that is not empty, from left to right. -/
def findall (pattern : Pattern α) (text : List α) : List (List α) :=
  (startsFrom pattern 0 0 text).map (stretch pattern text)

/-- An occurrence that begins inside an earlier one which is itself not hidden. -/
def hidden (pattern : Pattern α) (text : List α) (i : ℕ) : Bool :=
  fits pattern (text.drop i) && (List.finRange i).any fun j =>
    fits pattern (text.drop j) && !hidden pattern text j && decide (i < j + pattern.length)
termination_by i
decreasing_by exact j.isLt

/-- An occurrence that is not hidden. -/
def Visible (pattern : Pattern α) (text : List α) (i : ℕ) : Prop :=
  Occurs pattern text i ∧ hidden pattern text i = false

theorem hidden_iff {pattern : Pattern α} {text : List α} {i : ℕ} :
    hidden pattern text i = true ↔ Occurs pattern text i ∧
      ∃ j, j < i ∧ i < j + pattern.length ∧ Visible pattern text j := by
  rw [hidden, Bool.and_eq_true, List.any_eq_true]
  apply and_congr_right
  intro _
  constructor
  · rintro ⟨j, -, hj⟩
    simp only [Bool.and_eq_true, Bool.not_eq_true', decide_eq_true_eq] at hj
    exact ⟨j, j.isLt, hj.2, hj.1⟩
  · rintro ⟨j, hj, hlt, hvisible⟩
    refine ⟨⟨j, hj⟩, List.mem_finRange _, ?_⟩
    simp only [Bool.and_eq_true, Bool.not_eq_true', decide_eq_true_eq]
    exact ⟨hvisible, hlt⟩

/-- An occurrence is visible, or it begins inside a visible one. -/
theorem visible_iff {pattern : Pattern α} {text : List α} {i : ℕ} :
    Visible pattern text i ↔ Occurs pattern text i ∧
      ∀ j, j < i → i < j + pattern.length → ¬ Visible pattern text j := by
  unfold Visible
  apply and_congr_right
  intro hoccurs
  rw [← Bool.not_eq_true, hidden_iff]
  constructor
  · intro h j hj hlt hvisible
    exact h ⟨hoccurs, j, hj, hlt, hvisible⟩
  · rintro h ⟨-, j, hj, hlt, hvisible⟩
    exact h j hj hlt hvisible

theorem visible_or_hidden {pattern : Pattern α} {text : List α} {i : ℕ}
    (h : Occurs pattern text i) : Visible pattern text i ∨ hidden pattern text i = true := by
  cases hhidden : hidden pattern text i with
  | false => exact Or.inl ⟨h, hhidden⟩
  | true => exact Or.inr rfl

/-! ## Elements of an occurrence -/

/-- An occurrence has elements that the pattern accepts. -/
theorem exists_getElem?_of_fits {pattern : Pattern α} {text : List α}
    (h : fits pattern text = true) {k : ℕ} {p : α → Bool} (hp : pattern[k]? = some p) :
    ∃ c, text[k]? = some c ∧ p c = true := by
  induction pattern generalizing text k with
  | nil => simp at hp
  | cons q pattern ih =>
      cases text with
      | nil => simp [fits] at h
      | cons c text =>
          simp only [fits, Bool.and_eq_true] at h
          cases k with
          | zero =>
              obtain rfl : q = p := by simpa using hp
              exact ⟨c, by simp, h.1⟩
          | succ k => exact ih h.2 (by simpa using hp)

/-- The element of an occurrence at a place of the pattern. -/
theorem Occurs.exists_getElem? {pattern : Pattern α} {text : List α} {i k : ℕ} {p : α → Bool}
    (h : Occurs pattern text i) (hp : pattern[k]? = some p) :
    ∃ c, text[i + k]? = some c ∧ p c = true := by
  rcases exists_getElem?_of_fits h hp with ⟨c, hc, hpc⟩
  rw [List.getElem?_drop] at hc
  exact ⟨c, hc, hpc⟩

/-- Where two occurrences overlap, some element passes both tests. -/
theorem Occurs.overlap {pattern : Pattern α} {text : List α} {i d k : ℕ} {p q : α → Bool}
    (h : Occurs pattern text i) (h' : Occurs pattern text (i + d))
    (hp : pattern[d + k]? = some p) (hq : pattern[k]? = some q) : ∃ c, p c = true ∧ q c = true := by
  rcases h.exists_getElem? hp with ⟨c, hc, hpc⟩
  rcases h'.exists_getElem? hq with ⟨c', hc', hqc⟩
  rw [Nat.add_assoc, hc] at hc'
  obtain rfl : c = c' := Option.some.inj hc'
  exact ⟨c, hpc, hqc⟩

/-! ## What the scan reports -/

/-- The visible occurrences before a place reach over the next `skip` elements and no
further. -/
def Reaches (pattern : Pattern α) (text : List α) (skip i : ℕ) : Prop :=
  ∀ m, i ≤ m → ((∃ j, j < i ∧ m < j + pattern.length ∧ Visible pattern text j) ↔ m < i + skip)

section

variable {pattern : Pattern α} {text : List α} {i : ℕ}

theorem reaches_zero : Reaches pattern text 0 0 := by
  intro m _
  constructor
  · rintro ⟨j, hj, -⟩
    omega
  · omega

/-- Nothing begins inside a match. -/
theorem Reaches.not_visible {skip : ℕ} (h : Reaches pattern text (skip + 1) i) :
    ¬ Visible pattern text i := by
  rcases (h i (Nat.le_refl i)).2 (by omega) with ⟨j, hj, hlt, hvisible⟩
  intro hi
  exact (visible_iff.1 hi).2 j hj hlt hvisible

/-- An occurrence outside the matches is a match. -/
theorem Reaches.visible (h : Reaches pattern text 0 i) (hoccurs : Occurs pattern text i) :
    Visible pattern text i := by
  refine visible_iff.2 ⟨hoccurs, fun j hj hlt hvisible => ?_⟩
  have := (h i (Nat.le_refl i)).1 ⟨j, hj, hlt, hvisible⟩
  omega

/-- One element on, when no match begins at it. -/
theorem Reaches.next {skip : ℕ} (h : Reaches pattern text skip i)
    (hnot : ¬ Visible pattern text i) : Reaches pattern text (skip - 1) (i + 1) := by
  intro m hm
  have hsame : (∃ j, j < i + 1 ∧ m < j + pattern.length ∧ Visible pattern text j) ↔
      ∃ j, j < i ∧ m < j + pattern.length ∧ Visible pattern text j := by
    constructor
    · rintro ⟨j, hj, hlt, hvisible⟩
      have hne : j ≠ i := by
        rintro rfl
        exact hnot hvisible
      exact ⟨j, by omega, hlt, hvisible⟩
    · rintro ⟨j, hj, hlt, hvisible⟩
      exact ⟨j, by omega, hlt, hvisible⟩
  rw [hsame, h m (by omega)]
  omega

/-- One element on, when a match begins at it. -/
theorem Reaches.match (h : Reaches pattern text 0 i) (hvisible : Visible pattern text i)
    (hpattern : 0 < pattern.length) : Reaches pattern text (pattern.length - 1) (i + 1) := by
  intro m hm
  constructor
  · rintro ⟨j, hj, hlt, hj'⟩
    by_cases hji : j = i
    · omega
    · -- the earlier matches end before this one
      have := (h m (by omega)).1 ⟨j, by omega, hlt, hj'⟩
      omega
  · intro hlt
    exact ⟨i, by omega, by omega, hvisible⟩

/-- A place from `i` on is a place from `i + 1` on, or `i` itself. -/
theorem le_and_visible_iff {k : ℕ} : i ≤ k ∧ Visible pattern text k ↔
    (k = i ∧ Visible pattern text i) ∨ (i + 1 ≤ k ∧ Visible pattern text k) := by
  constructor
  · rintro ⟨hik, hk⟩
    by_cases hki : k = i
    · subst hki
      exact Or.inl ⟨rfl, hk⟩
    · exact Or.inr ⟨by omega, hk⟩
  · rintro (⟨rfl, hk⟩ | ⟨hik, hk⟩)
    · exact ⟨Nat.le_refl k, hk⟩
    · exact ⟨by omega, hk⟩

/-- From each place on the scan reports the visible occurrences. -/
theorem mem_startsFrom (hpattern : 0 < pattern.length) {skip : ℕ}
    (h : Reaches pattern text skip i) {k : ℕ} :
    k ∈ startsFrom pattern skip i (text.drop i) ↔ i ≤ k ∧ Visible pattern text k := by
  -- the induction is on what is left of the text
  generalize hrest : text.drop i = rest
  induction rest generalizing skip i with
  | nil =>
      have hend : text.length ≤ i := List.drop_eq_nil_iff.1 hrest
      constructor
      · intro h
        simp [startsFrom] at h
      · rintro ⟨hik, hoccurs, -⟩
        rcases List.exists_cons_of_length_pos hpattern with ⟨p, ps, rfl⟩
        rw [Occurs, List.drop_eq_nil_of_le (by omega)] at hoccurs
        simp [fits] at hoccurs
  | cons c rest ih =>
      have hdrop : text.drop (i + 1) = rest := by
        rw [← List.drop_drop, hrest, List.drop_one, List.tail_cons]
      rw [le_and_visible_iff]
      cases skip with
      | succ skip =>
          have hnot := h.not_visible
          rw [startsFrom]
          have hrec : k ∈ startsFrom pattern skip (i + 1) rest ↔
              i + 1 ≤ k ∧ Visible pattern text k := ih (h.next hnot) hdrop
          rw [hrec]
          simp [hnot]
      | zero =>
          rw [startsFrom, ← hrest]
          split
          · rename_i hfits
            have hvisible := h.visible hfits
            have hrec : k ∈ startsFrom pattern (pattern.length - 1) (i + 1) rest ↔
                i + 1 ≤ k ∧ Visible pattern text k := ih (h.match hvisible hpattern) hdrop
            rw [List.mem_cons, hrec]
            simp [hvisible]
          · rename_i hfits
            have hnot : ¬ Visible pattern text i := fun hi => hfits hi.1
            have hrec : k ∈ startsFrom pattern 0 (i + 1) rest ↔
                i + 1 ≤ k ∧ Visible pattern text k := ih (h.next hnot) hdrop
            rw [hrec]
            simp [hnot]

/-- The scan reports the visible occurrences. -/
theorem mem_findall (hpattern : 0 < pattern.length) {m : List α} :
    m ∈ findall pattern text ↔ ∃ i, Visible pattern text i ∧ m = stretch pattern text i := by
  have hstarts : ∀ k, k ∈ startsFrom pattern 0 0 text ↔ Visible pattern text k := by
    intro k
    have hzero : Reaches pattern text 0 0 := reaches_zero
    have h := mem_startsFrom (k := k) hpattern hzero
    rw [List.drop_zero] at h
    rw [h]
    exact and_iff_right (Nat.zero_le k)
  unfold findall
  rw [List.mem_map]
  constructor
  · rintro ⟨i, hi, rfl⟩
    exact ⟨i, (hstarts i).1 hi, rfl⟩
  · rintro ⟨i, hi, rfl⟩
    exact ⟨i, (hstarts i).2 hi, rfl⟩

end

end Scan
