import Mathlib.Data.List.Infix
import Mathlib.Tactic.Common
import ClaimGuard.Lib.Words

/-!
# Replacing patterns by a blank

A pattern is replaced wherever it occurs, from left to right. Where no occurrence lies
across a cut, the parts are replaced on their own; and what is left comes from the text by
copying elements and striking occurrences.
-/

namespace Replace

variable {α : Type*} [DecidableEq α]

/-- Replace a pattern that is not empty, the elements of an occurrence being skipped. -/
def replaceFrom (target replacement : List α) : ℕ → List α → List α
  | _, [] => []
  | skip + 1, _ :: cs => replaceFrom target replacement skip cs
  | 0, c :: cs =>
      if target.isPrefixOf (c :: cs) then
        replacement ++ replaceFrom target replacement (target.length - 1) cs
      else c :: replaceFrom target replacement 0 cs

/-- Replace a pattern by a blank. -/
def strike (b : α) (s t : List α) : List α := replaceFrom s [b] 0 t

/-! ## Cuts -/

/-- No occurrence of the pattern lies across the cut between two texts. -/
def Apart (s x y : List α) : Prop :=
  ∀ s₁ s₂, s = s₁ ++ s₂ → s₁ ≠ [] → s₂ ≠ [] → s₁ <:+ x → ¬ s₂ <+: y

/-- The text does not end with the beginning of an occurrence. -/
def ClosedEnd (s x : List α) : Prop := ∀ u ∈ x.tails, u ≠ [] → u <+: s → s.length ≤ u.length

/-- The text does not begin with the end of an occurrence. -/
def ClosedFront (s y : List α) : Prop := ∀ u ∈ y.inits, u ≠ [] → u <:+ s → s.length ≤ u.length

instance (s x : List α) : Decidable (ClosedEnd s x) :=
  inferInstanceAs (Decidable (∀ u ∈ x.tails, _))

instance (s y : List α) : Decidable (ClosedFront s y) :=
  inferInstanceAs (Decidable (∀ u ∈ y.inits, _))

omit [DecidableEq α] in
theorem ClosedEnd.apart {s x : List α} (h : ClosedEnd s x) (y : List α) : Apart s x y := by
  rintro s₁ s₂ rfl hs₁ hs₂ hsuffix -
  have hle := h s₁ ((List.mem_tails s₁ x).2 hsuffix) hs₁ (List.prefix_append s₁ s₂)
  rw [List.length_append] at hle
  have hpos := List.length_pos_iff.2 hs₂
  omega

omit [DecidableEq α] in
theorem ClosedFront.apart {s y : List α} (h : ClosedFront s y) (x : List α) : Apart s x y := by
  rintro s₁ s₂ rfl hs₁ hs₂ - hbegins
  have hle := h s₂ ((List.mem_inits s₂ y).2 hbegins) hs₂ (List.suffix_append s₁ s₂)
  rw [List.length_append] at hle
  have hpos := List.length_pos_iff.2 hs₁
  omega

omit [DecidableEq α] in
omit [DecidableEq α] in
theorem closedFront_cons {s : List α} {c : α} (hc : c ∉ s) (y : List α) :
    ClosedFront s (c :: y) := by
  intro u hu hne hsuffix
  have hcu : c ∈ u := by
    rcases List.exists_cons_of_ne_nil hne with ⟨d, v, rfl⟩
    have hbegins := (List.mem_inits _ _).1 hu
    rw [List.cons_prefix_cons] at hbegins
    exact hbegins.1 ▸ List.mem_cons_self
  exact absurd (hsuffix.subset hcu) hc

omit [DecidableEq α] in
theorem closedFront_append {s x : List α} (hne : x ≠ []) (h : ∀ c ∈ x.head?, c ∉ s)
    (y : List α) : ClosedFront s (x ++ y) := by
  rcases List.exists_cons_of_ne_nil hne with ⟨c, x, rfl⟩
  exact closedFront_cons (h c rfl) (x ++ y)

omit [DecidableEq α] in
/-- A text without the first element of the pattern has no beginning of an occurrence. -/
theorem apart_of_not_mem {c : α} {s x : List α} (hc : c ∉ x) (y : List α) : Apart (c :: s) x y := by
  intro s₁ s₂ heq hs₁ _ hsuffix
  rcases List.exists_cons_of_ne_nil hs₁ with ⟨d, u, rfl⟩
  rw [List.cons_append, List.cons.injEq] at heq
  exact absurd (heq.1 ▸ hsuffix.subset List.mem_cons_self) hc

omit [DecidableEq α] in
/-- So an occurrence lies behind it. -/
theorem infix_of_infix_append_of_not_mem {c : α} {s x y : List α} (hc : c ∉ x)
    (h : c :: s <:+: x ++ y) : c :: s <:+: y := by
  induction x with
  | nil => exact h
  | cons d x ih =>
      rw [List.mem_cons, not_or] at hc
      rw [List.cons_append, List.infix_cons_iff] at h
      rcases h with hbegins | hrest
      · exact absurd (List.cons_prefix_cons.1 hbegins).1 hc.1
      · exact ih hc.2 hrest

/-- The parts of a text are replaced on their own. -/
theorem replaceFrom_append {s r x y : List α} (h : Apart s x y) {k : ℕ} (hk : k ≤ x.length) :
    replaceFrom s r k (x ++ y) = replaceFrom s r k x ++ replaceFrom s r 0 y := by
  induction x generalizing k with
  | nil =>
      obtain rfl : k = 0 := by simpa using hk
      simp [replaceFrom]
  | cons c x ih =>
      have hx : Apart s x y := by
        intro s₁ s₂ heq hs₁ hs₂ hsuffix
        exact h s₁ s₂ heq hs₁ hs₂ (hsuffix.trans (List.suffix_cons c x))
      cases k with
      | succ k =>
          simp only [List.cons_append, replaceFrom]
          exact ih hx (by simpa using hk)
      | zero =>
          simp only [List.cons_append, replaceFrom, List.isPrefixOf_iff_prefix]
          -- an occurrence here ends before the cut
          by_cases hbegins : s <+: c :: (x ++ y)
          · have hwithin : s <+: c :: x := by
              rw [← List.cons_append] at hbegins
              rcases List.prefix_or_prefix_of_prefix hbegins (List.prefix_append (c :: x) y) with
                hwithin | ⟨s₂, rfl⟩
              · exact hwithin
              · by_cases hnil : s₂ = []
                · rw [hnil, List.append_nil]
                · rw [List.prefix_append_right_inj] at hbegins
                  exact absurd hbegins (h (c :: x) s₂ rfl (by simp) hnil List.suffix_rfl)
            have hlength := hwithin.length_le
            rw [List.length_cons] at hlength
            rw [if_pos hbegins, if_pos hwithin, ih hx (by omega), List.append_assoc]
          · have hnot : ¬ s <+: c :: x := by
              intro hwithin
              exact hbegins (hwithin.trans (List.prefix_append (c :: x) y))
            rw [if_neg hbegins, if_neg hnot, ih hx (Nat.zero_le _), List.cons_append]

variable {b : α} {s : List α}

theorem strike_append {x y : List α} (h : Apart s x y) :
    strike b s (x ++ y) = strike b s x ++ strike b s y :=
  replaceFrom_append h (Nat.zero_le _)

/-- Nothing is replaced in a text without occurrences. -/
theorem replaceFrom_eq_self {s r t : List α} (h : ¬ s <:+: t) : replaceFrom s r 0 t = t := by
  induction t with
  | nil => rfl
  | cons c t ih =>
      have hbegins : ¬ s <+: c :: t := fun hp => h hp.isInfix
      simp only [replaceFrom, List.isPrefixOf_iff_prefix, if_neg hbegins]
      rw [ih fun hi => h (hi.trans (List.suffix_cons c t).isInfix)]

theorem strike_eq_self {t : List α} (h : ¬ s <:+: t) : strike b s t = t := replaceFrom_eq_self h

/-- A pattern that does not overlap itself is replaced as a whole. -/
theorem strike_self (hs : s ≠ []) : strike b s s = [b] := by
  have hskip : ∀ t : List α, replaceFrom s [b] t.length t = [] := by
    intro t
    induction t with
    | nil => rfl
    | cons c t ih => simpa [replaceFrom] using ih
  rcases List.exists_cons_of_ne_nil hs with ⟨c, t, rfl⟩
  unfold strike
  simp only [replaceFrom, List.isPrefixOf_iff_prefix]
  rw [if_pos List.prefix_rfl, List.length_cons, Nat.add_sub_cancel]
  rw [hskip, List.append_nil]

/-- An occurrence of a pattern that does not overlap itself is always replaced. -/
theorem strike_occurrence (hs : s ≠ []) (hborder : ClosedEnd s s) (x y : List α) :
    strike b s (x ++ s ++ y) = strike b s x ++ b :: strike b s y := by
  have hleft : Apart s x (s ++ y) := by
    rintro s₁ s₂ heq hs₁ hs₂ - hbegins
    -- the end of the occurrence that lies across would be a beginning of the pattern
    have hsuffix : s₂ <:+ s := ⟨s₁, heq.symm⟩
    have hlt : s₂.length < s.length := by
      have hpos := List.length_pos_iff.2 hs₁
      rw [heq, List.length_append]
      omega
    have hpre : s₂ <+: s := List.prefix_of_prefix_length_le hbegins (List.prefix_append s y) hlt.le
    exact absurd (hborder s₂ ((List.mem_tails _ _).2 hsuffix) hs₂ hpre) (not_le.2 hlt)
  rw [List.append_assoc, strike_append hleft, strike_append (hborder.apart y), strike_self hs,
    List.singleton_append]

/-- An element that is not in the pattern stays where it is. -/
theorem strike_append_cons (hs : s ≠ []) {c : α} (hc : c ∉ s) (x y : List α) :
    strike b s (x ++ c :: y) = strike b s x ++ c :: strike b s y := by
  rw [strike_append ((closedFront_cons hc y).apart x)]
  congr 1
  have hbegins : ¬ s <+: c :: y := by
    intro hbegins
    rcases List.exists_cons_of_ne_nil hs with ⟨d, t, rfl⟩
    rw [List.cons_prefix_cons] at hbegins
    exact hc (hbegins.1 ▸ List.mem_cons_self)
  unfold strike
  simp only [replaceFrom, List.isPrefixOf_iff_prefix, if_neg hbegins]

/-! ## Along the occurrences -/

/-- Induction along the occurrences of a pattern. -/
theorem occurrence_induction {motive : List α → Prop} (hs : s ≠ []) (t : List α)
    (clear : ∀ t, ¬ s <:+: t → motive t)
    (occurrence : ∀ x y, motive x → motive y → motive (x ++ s ++ y)) : motive t := by
  have hpos := List.length_pos_iff.2 hs
  induction hn : t.length using Nat.strongRec generalizing t with
  | _ n ih =>
      by_cases h : s <:+: t
      · rcases h with ⟨x, y, rfl⟩
        simp only [List.length_append] at hn
        exact occurrence x y (ih _ (by omega) x rfl) (ih _ (by omega) y rfl)
      · exact clear t h

omit [DecidableEq α] in
/-- What begins in front of a blank and has none ends in front of it. -/
theorem prefix_of_prefix_append_cons {u x y : List α} (hu : b ∉ u) (h : u <+: x ++ b :: y) :
    u <+: x := by
  rcases List.prefix_or_prefix_of_prefix h (List.prefix_append x (b :: y)) with hwithin | ⟨z, rfl⟩
  · exact hwithin
  · cases z with
    | nil => rw [List.append_nil]
    | cons d z =>
        rw [List.prefix_append_right_inj, List.cons_prefix_cons] at h
        exact absurd (List.mem_append_right x (h.1 ▸ List.mem_cons_self)) hu

omit [DecidableEq α] in
/-- What has no blank is found on one side of it. -/
theorem infix_of_infix_append_cons {u x y : List α} (hu : b ∉ u) (h : u <:+: x ++ b :: y) :
    u <:+: x ∨ u <:+: y := by
  induction x with
  | nil =>
      rcases List.infix_cons_iff.1 h with h | h
      · exact Or.inl (prefix_of_prefix_append_cons hu (x := []) h).isInfix
      · exact Or.inr h
  | cons c x ih =>
      rcases List.infix_cons_iff.1 h with h | h
      · exact Or.inl (prefix_of_prefix_append_cons hu (x := c :: x) h).isInfix
      · exact (ih h).imp_left fun h => List.infix_cons_iff.2 (Or.inr h)

/-- Striking a pattern brings out nothing that is free of blanks. -/
theorem infix_of_infix_strike (hs : s ≠ []) (hborder : ClosedEnd s s) {u : List α} (hu : b ∉ u)
    {t : List α} (h : u <:+: strike b s t) : u <:+: t := by
  induction t using occurrence_induction hs with
  | clear t hclear => rwa [strike_eq_self hclear] at h
  | occurrence x y ihx ihy =>
      rw [strike_occurrence hs hborder] at h
      rcases infix_of_infix_append_cons hu h with h | h
      · exact List.infix_append_of_infix_left (List.infix_append_of_infix_left (ihx h))
      · exact List.infix_append_of_infix_right (ihy h)

/-- A pattern free of blanks is struck out wholly. -/
theorem not_infix_strike (hs : s ≠ []) (hborder : ClosedEnd s s) (hb : b ∉ s) (t : List α) :
    ¬ s <:+: strike b s t := by
  induction t using occurrence_induction hs with
  | clear t hclear => rwa [strike_eq_self hclear]
  | occurrence x y ihx ihy =>
      rw [strike_occurrence hs hborder]
      intro h
      exact (infix_of_infix_append_cons hb h).elim ihx ihy

/-- A measure that counts what is on the sides of an occurrence, and something for the
occurrence itself, goes down when the pattern is struck. -/
theorem measure_strike (hs : s ≠ []) (hborder : ClosedEnd s s) {μ : List α → ℕ} {k : ℕ}
    (hoccurrence : ∀ x y, μ (x ++ s ++ y) = μ x + k + μ y)
    (hblank : ∀ x y, μ (x ++ b :: y) = μ x + μ y) (hk : 0 < k) (t : List α) :
    μ (strike b s t) ≤ μ t ∧ (s <:+: t → μ (strike b s t) < μ t) := by
  induction t using occurrence_induction hs with
  | clear t hclear =>
      rw [strike_eq_self hclear]
      exact ⟨le_rfl, fun h => absurd h hclear⟩
  | occurrence x y ihx ihy =>
      rw [strike_occurrence hs hborder, hoccurrence, hblank]
      omega

/-! ## Several patterns -/

/-- Strike out patterns one after the other. -/
def strikeAll (b : α) (patterns : List (List α)) (t : List α) : List α :=
  patterns.foldl (fun t s => strike b s t) t

/-- Patterns that are not empty, do not overlap themselves and have no blank. -/
structure Plain (b : α) (s : List α) : Prop where
  ne_nil : s ≠ []
  border : ClosedEnd s s
  blank : b ∉ s

variable {patterns : List (List α)}

theorem strikeAll_append_cons (hne : ∀ s ∈ patterns, s ≠ []) {c : α}
    (hc : ∀ s ∈ patterns, c ∉ s) (x y : List α) :
    strikeAll b patterns (x ++ c :: y) = strikeAll b patterns x ++ c :: strikeAll b patterns y := by
  induction patterns generalizing x y with
  | nil => rfl
  | cons s patterns ih =>
      simp only [strikeAll, List.foldl_cons]
      rw [strike_append_cons (hne s List.mem_cons_self) (hc s List.mem_cons_self)]
      exact ih (fun u hu => hne u (List.mem_cons_of_mem s hu))
        (fun u hu => hc u (List.mem_cons_of_mem s hu)) _ _

theorem strikeAll_eq_self {t : List α} (h : ∀ s ∈ patterns, ¬ s <:+: t) :
    strikeAll b patterns t = t := by
  induction patterns with
  | nil => rfl
  | cons s patterns ih =>
      simp only [strikeAll, List.foldl_cons]
      rw [strike_eq_self (h s List.mem_cons_self)]
      exact ih fun u hu => h u (List.mem_cons_of_mem s hu)

/-- What is free of blanks is not brought out. -/
theorem infix_of_infix_strikeAll (h : ∀ s ∈ patterns, Plain b s) {u : List α} (hu : b ∉ u)
    {t : List α} (hinside : u <:+: strikeAll b patterns t) : u <:+: t := by
  induction patterns generalizing t with
  | nil => exact hinside
  | cons s patterns ih =>
      have hs := h s List.mem_cons_self
      simp only [strikeAll, List.foldl_cons] at hinside
      exact infix_of_infix_strike hs.ne_nil hs.border hu
        (ih (fun v hv => h v (List.mem_cons_of_mem s hv)) hinside)

/-- No pattern is left. -/
theorem not_infix_strikeAll (h : ∀ s ∈ patterns, Plain b s) (t : List α) :
    ∀ s ∈ patterns, ¬ s <:+: strikeAll b patterns t := by
  induction patterns generalizing t with
  | nil => exact fun s hs => absurd hs List.not_mem_nil
  | cons s patterns ih =>
      have hrest := fun v hv => h v (List.mem_cons_of_mem s hv)
      have hs := h s List.mem_cons_self
      intro v hv hinside
      rcases List.mem_cons.1 hv with rfl | hv
      · exact not_infix_strike hs.ne_nil hs.border hs.blank t
          (infix_of_infix_strikeAll hrest hs.blank hinside)
      · exact ih hrest _ v hv hinside

/-- A measure that goes down at each pattern goes down when they are struck. -/
theorem measure_strikeAll (patterns : List (List α)) {μ : List α → ℕ} (weight : List α → ℕ)
    (h : ∀ s ∈ patterns, s ≠ [] ∧ ClosedEnd s s ∧ 0 < weight s ∧
      ∀ x y, μ (x ++ s ++ y) = μ x + weight s + μ y)
    (hblank : ∀ x y, μ (x ++ b :: y) = μ x + μ y) (t : List α) :
    μ (strikeAll b patterns t) ≤ μ t ∧
      ((∃ s ∈ patterns, s <:+: t) → μ (strikeAll b patterns t) < μ t) := by
  induction patterns generalizing t with
  | nil => exact ⟨le_rfl, by simp⟩
  | cons s patterns ih =>
      obtain ⟨hs, hborder, hpos, hoccurrence⟩ := h s List.mem_cons_self
      obtain ⟨hle, hlt⟩ := measure_strike hs hborder hoccurrence hblank hpos t
      obtain ⟨hle', hlt'⟩ := ih (fun v hv => h v (List.mem_cons_of_mem s hv)) (strike b s t)
      simp only [strikeAll, List.foldl_cons] at hle' hlt' ⊢
      refine ⟨hle'.trans hle, ?_⟩
      rintro ⟨v, hv, hinside⟩
      -- either this pattern occurs, or the text is the same for the patterns behind it
      by_cases hfirst : s <:+: t
      · exact hle'.trans_lt (hlt hfirst)
      · rw [strike_eq_self hfirst] at hlt' ⊢
        rcases List.mem_cons.1 hv with rfl | hv
        · exact absurd hinside hfirst
        · exact hlt' ⟨v, hv, hinside⟩

/-! ## Cuts and several patterns -/

/-- What ends a struck text and is free of blanks ends the text. -/
theorem suffix_of_suffix_strike (hs : s ≠ []) (hborder : ClosedEnd s s) {u : List α} (hu : b ∉ u)
    {t : List α} (h : u <:+ strike b s t) : u <:+ t := by
  induction t using occurrence_induction hs with
  | clear t hclear => rwa [strike_eq_self hclear] at h
  | occurrence x y _ ihy =>
      rw [strike_occurrence hs hborder] at h
      have hback : u <:+ strike b s y := by
        rw [← List.reverse_prefix] at h ⊢
        rw [List.reverse_append, List.reverse_cons, List.append_assoc,
          List.singleton_append] at h
        exact prefix_of_prefix_append_cons (by rwa [List.mem_reverse]) h
      exact (ihy hback).trans (List.suffix_append _ y)

theorem prefix_of_prefix_strike (hs : s ≠ []) (hborder : ClosedEnd s s) {u : List α} (hu : b ∉ u)
    {t : List α} (h : u <+: strike b s t) : u <+: t := by
  induction t using occurrence_induction hs with
  | clear t hclear => rwa [strike_eq_self hclear] at h
  | occurrence x y ihx _ =>
      rw [strike_occurrence hs hborder] at h
      have hfront := ihx (prefix_of_prefix_append_cons hu h)
      exact (hfront.trans (List.prefix_append x s)).trans (List.prefix_append _ y)

/-- A cut behind which no pattern begins is a cut for all of them. -/
theorem strikeAll_append_of_closedEnd (h : ∀ s ∈ patterns, Plain b s) {x : List α}
    (hx : ∀ s ∈ patterns, ClosedEnd s x) (y : List α) :
    strikeAll b patterns (x ++ y) = strikeAll b patterns x ++ strikeAll b patterns y := by
  induction patterns generalizing x y with
  | nil => rfl
  | cons s patterns ih =>
      have hs := h s List.mem_cons_self
      simp only [strikeAll, List.foldl_cons]
      rw [strike_append ((hx s List.mem_cons_self).apart y)]
      refine ih (fun v hv => h v (List.mem_cons_of_mem s hv)) ?_ _
      -- what ends the struck text ends the text
      intro v hv u hu hne hbegins
      have hb : b ∉ u := fun hmem => (h v (List.mem_cons_of_mem s hv)).blank (hbegins.subset hmem)
      have hsuffix := suffix_of_suffix_strike hs.ne_nil hs.border hb ((List.mem_tails _ _).1 hu)
      exact hx v (List.mem_cons_of_mem s hv) u ((List.mem_tails _ _).2 hsuffix) hne hbegins

/-- A cut in front of which no pattern ends is a cut for all of them. -/
theorem strikeAll_append_of_closedFront (h : ∀ s ∈ patterns, Plain b s) (x : List α)
    {y : List α} (hy : ∀ s ∈ patterns, ClosedFront s y) :
    strikeAll b patterns (x ++ y) = strikeAll b patterns x ++ strikeAll b patterns y := by
  induction patterns generalizing x y with
  | nil => rfl
  | cons s patterns ih =>
      have hs := h s List.mem_cons_self
      simp only [strikeAll, List.foldl_cons]
      rw [strike_append ((hy s List.mem_cons_self).apart x)]
      refine ih (fun v hv => h v (List.mem_cons_of_mem s hv)) _ ?_
      intro v hv u hu hne hsuffix
      have hb : b ∉ u := fun hmem => (h v (List.mem_cons_of_mem s hv)).blank (hsuffix.subset hmem)
      have hbegins := prefix_of_prefix_strike hs.ne_nil hs.border hb ((List.mem_inits _ _).1 hu)
      exact hy v (List.mem_cons_of_mem s hv) u ((List.mem_inits _ _).2 hbegins) hne hsuffix

/-! ## Where a struck text comes from -/

section

omit [DecidableEq α]

/-- The second text is the first with some occurrences of the patterns as blanks. -/
inductive Struck (b : α) (patterns : List (List α)) : List α → List α → Prop where
  | nil : Struck b patterns [] []
  | copy (c : α) {t t' : List α} (h : Struck b patterns t t') : Struck b patterns (c :: t) (c :: t')
  | occurrence {s t t' : List α} (hs : s ∈ patterns) (h : Struck b patterns t t') :
      Struck b patterns (s ++ t) (b :: t')

namespace Struck

theorem refl (t : List α) : Struck b patterns t t := by
  induction t with
  | nil => exact .nil
  | cons c t ih => exact .copy c ih

theorem append {t t' u u' : List α} (h : Struck b patterns t t') (h' : Struck b patterns u u') :
    Struck b patterns (t ++ u) (t' ++ u') := by
  induction h with
  | nil => exact h'
  | copy c _ ih => exact .copy c ih
  | occurrence hs _ ih =>
      rw [List.append_assoc]
      exact .occurrence hs ih

/-- The parts of a struck text come from parts of the text. -/
theorem of_append {t x y : List α} (h : Struck b patterns t (x ++ y)) :
    ∃ t₁ t₂, t = t₁ ++ t₂ ∧ Struck b patterns t₁ x ∧ Struck b patterns t₂ y := by
  induction x generalizing t with
  | nil => exact ⟨[], t, rfl, .nil, h⟩
  | cons c x ih =>
      rw [List.cons_append] at h
      cases h with
      | copy _ h =>
          rcases ih h with ⟨t₁, t₂, rfl, h₁, h₂⟩
          exact ⟨c :: t₁, t₂, rfl, .copy c h₁, h₂⟩
      | occurrence hs h =>
          rcases ih h with ⟨t₁, t₂, rfl, h₁, h₂⟩
          exact ⟨_ ++ t₁, t₂, (List.append_assoc _ _ _).symm, .occurrence hs h₁, h₂⟩

/-- Where there is no blank, nothing was struck. -/
theorem eq_of_blank_not_mem {t w : List α} (hw : b ∉ w) (h : Struck b patterns t w) : t = w := by
  induction h with
  | nil => rfl
  | copy c _ ih => rw [ih fun hmem => hw (List.mem_cons_of_mem c hmem)]
  | occurrence _ _ _ => exact absurd List.mem_cons_self hw

theorem mono {others : List (List α)} (hsub : ∀ s ∈ patterns, s ∈ others) {t t' : List α}
    (h : Struck b patterns t t') : Struck b others t t' := by
  induction h with
  | nil => exact .nil
  | copy c _ ih => exact .copy c ih
  | occurrence hs _ ih => exact .occurrence (hsub _ hs) ih

/-- What is struck in turn was struck at once, the patterns being free of blanks. -/
theorem trans (hb : ∀ s ∈ patterns, b ∉ s) {t t' t'' : List α} (h : Struck b patterns t t')
    (h' : Struck b patterns t' t'') : Struck b patterns t t'' := by
  induction h' generalizing t with
  | nil => exact h
  | copy c _ ih =>
      rcases of_append (x := [c]) h with ⟨t₁, t₂, rfl, h₁, h₂⟩
      exact h₁.append (ih h₂)
  | occurrence hs _ ih =>
      rcases of_append h with ⟨t₁, t₂, rfl, h₁, h₂⟩
      rw [eq_of_blank_not_mem (hb _ hs) h₁]
      exact .occurrence hs (ih h₂)

end Struck

end

theorem struck_strike (hs : s ≠ []) (hborder : ClosedEnd s s) (t : List α) :
    Struck b [s] t (strike b s t) := by
  induction t using occurrence_induction hs with
  | clear t hclear =>
      rw [strike_eq_self hclear]
      exact .refl t
  | occurrence x y ihx ihy =>
      rw [strike_occurrence hs hborder, List.append_assoc]
      exact ihx.append (.occurrence (List.mem_singleton_self s) ihy)

theorem struck_strikeAll (h : ∀ s ∈ patterns, Plain b s) (t : List α) :
    Struck b patterns t (strikeAll b patterns t) := by
  have hstep : ∀ remaining : List (List α), (∀ s ∈ remaining, s ∈ patterns) → ∀ t,
      Struck b patterns t (strikeAll b remaining t) := by
    intro remaining
    induction remaining with
    | nil => exact fun _ t => .refl t
    | cons s remaining ih =>
        intro hsub t
        have hs := h s (hsub s List.mem_cons_self)
        have hfirst : Struck b patterns t (strike b s t) :=
          (struck_strike hs.ne_nil hs.border t).mono fun v hv =>
            List.mem_singleton.1 hv ▸ hsub s List.mem_cons_self
        exact hfirst.trans (fun v hv => (h v hv).blank)
          (ih (fun v hv => hsub v (List.mem_cons_of_mem s hv)) _)
  exact hstep patterns (fun _ hs => hs) t

/-! ## Texts that are put together from pieces -/

/-- The text is put together from the pieces, each of them any number of times. -/
inductive Made (pieces : List (List α)) : List α → Prop where
  | nil : Made pieces []
  | append {a t : List α} (ha : a ∈ pieces) (h : Made pieces t) : Made pieces (a ++ t)

/-- The texts that give a text when some occurrences of the pattern become blanks. -/
def unstruck (b : α) (s : List α) : List α → List (List α)
  | [] => [[]]
  | c :: t =>
      (unstruck b s t).map (c :: ·) ++ if c = b then (unstruck b s t).map (s ++ ·) else []

theorem Struck.mem_unstruck {t t' : List α} (h : Struck b [s] t t') : t ∈ unstruck b s t' := by
  induction h with
  | nil => exact List.mem_singleton_self []
  | copy c _ ih => exact List.mem_append_left _ (List.mem_map_of_mem ih)
  | occurrence hs _ ih =>
      rw [List.mem_singleton.1 hs]
      refine List.mem_append_right _ ?_
      rw [if_pos rfl]
      exact List.mem_map_of_mem ih

/-- The pattern is struck piece by piece, and struck pieces come from pieces only. -/
def StrikesPieces (b : α) (s : List α) (pieces struck : List (List α)) : Prop :=
  s ≠ [] ∧ ClosedEnd s s ∧ (∀ a ∈ pieces, ClosedEnd s a ∧ strike b s a ∈ struck) ∧
    ∀ a ∈ struck, ∀ u ∈ unstruck b s a, u ∈ pieces

instance (b : α) (s : List α) (pieces struck : List (List α)) :
    Decidable (StrikesPieces b s pieces struck) :=
  inferInstanceAs (Decidable (_ ∧ _ ∧ (∀ a ∈ pieces, _) ∧ ∀ a ∈ struck, ∀ u ∈ unstruck b s a, _))

/-- What is made of struck pieces was made of pieces. -/
theorem StrikesPieces.made_iff {pieces struck : List (List α)}
    (h : StrikesPieces b s pieces struck) (t : List α) :
    Made struck (strike b s t) ↔ Made pieces t := by
  obtain ⟨hs, hborder, hpieces, hstruck⟩ := h
  constructor
  · have hback : ∀ u, Made struck u → ∀ t, Struck b [s] t u → Made pieces t := by
      intro u hu
      induction hu with
      | nil =>
          intro t ht
          cases ht
          exact .nil
      | append ha _ ih =>
          intro t ht
          rcases ht.of_append with ⟨t₁, t₂, rfl, h₁, h₂⟩
          exact .append (hstruck _ ha t₁ h₁.mem_unstruck) (ih t₂ h₂)
    intro h
    exact hback _ h t (struck_strike hs hborder t)
  · intro h
    induction h with
    | nil => exact .nil
    | append ha _ ih =>
        obtain ⟨hclosed, hmem⟩ := hpieces _ ha
        rw [strike_append (hclosed.apart _)]
        exact .append hmem ih

/-- Several patterns, with the pieces in front of each of them. -/
theorem made_strikeAll_iff (patterns : List (List α)) (pieces : ℕ → List (List α)) (n : ℕ)
    (h : ∀ p ∈ patterns.zipIdx n, StrikesPieces b p.1 (pieces p.2) (pieces (p.2 + 1)))
    (t : List α) :
    Made (pieces (n + patterns.length)) (strikeAll b patterns t) ↔ Made (pieces n) t := by
  induction patterns generalizing n t with
  | nil => exact Iff.rfl
  | cons s patterns ih =>
      rw [List.zipIdx_cons, List.forall_mem_cons] at h
      have hrest := ih (n + 1) h.2 (strike b s t)
      rw [List.length_cons, Nat.add_comm patterns.length, ← Nat.add_assoc]
      exact hrest.trans (h.1.made_iff t)

/-! ## Words -/

omit [DecidableEq α] in
/-- A word is in a text just where it is in one of its words. -/
theorem infix_iff_exists_word {p : α → Bool} {u : List α} (hu : Words.IsWord p u) (t : List α) :
    u <:+: t ↔ ∃ w ∈ Words.words p t, u <:+: w := by
  have hsep : ∀ {c : α}, p c = false → c ∉ u := by
    intro c hc hmem
    rw [hu.2 c hmem] at hc
    exact Bool.noConfusion hc
  constructor
  · intro h
    induction t using Words.induction_on (p := p) with
    | nil => exact absurd (List.infix_nil.1 h) hu.1
    | separator c t hc ih =>
        rw [Words.words_cons hc]
        rcases infix_of_infix_append_cons (hsep hc) (x := []) h with h | h
        · exact absurd (List.infix_nil.1 h) hu.1
        · exact ih h
    | word w hw => exact ⟨w, by rw [Words.words_of_isWord hw]; exact List.mem_singleton_self w, h⟩
    | wordThen w c t hw hc ih =>
        rw [Words.words_append_cons hc, Words.words_of_isWord hw]
        rcases infix_of_infix_append_cons (hsep hc) h with h | h
        · exact ⟨w, List.mem_cons_self, h⟩
        · rcases ih h with ⟨v, hv, hinside⟩
          exact ⟨v, List.mem_cons_of_mem w hv, hinside⟩
  · rintro ⟨w, hw, hinside⟩
    rcases List.append_of_mem hw with ⟨us, vs, hsplit⟩
    rcases Words.exists_of_words_eq_append hsplit with ⟨x, y, rfl, -, -, -⟩
    exact hinside.trans ⟨x, y, rfl⟩

/-- Patterns within words are struck word by word. -/
theorem words_strikeAll {p : α → Bool} (hne : ∀ s ∈ patterns, Words.IsWord p s) (t : List α) :
    Words.words p (strikeAll b patterns t) =
      (Words.words p t).flatMap fun w => Words.words p (strikeAll b patterns w) := by
  have hcut : ∀ {c : α}, p c = false → ∀ x y, strikeAll b patterns (x ++ c :: y) =
      strikeAll b patterns x ++ c :: strikeAll b patterns y := by
    intro c hc x y
    refine strikeAll_append_cons (fun s hs => (hne s hs).1) ?_ x y
    intro s hs hmem
    rw [(hne s hs).2 c hmem] at hc
    exact Bool.noConfusion hc
  have hnil : strikeAll b patterns [] = [] :=
    strikeAll_eq_self fun s hs hinside => (hne s hs).1 (List.infix_nil.1 hinside)
  induction t using Words.induction_on (p := p) with
  | nil => rw [hnil, Words.words_nil, List.flatMap_nil]
  | separator c t hc ih =>
      have hstruck := hcut hc [] t
      rw [List.nil_append, hnil, List.nil_append] at hstruck
      rw [hstruck, Words.words_cons hc, Words.words_cons hc, ih]
  | word w hw => rw [Words.words_of_isWord hw, List.flatMap_singleton]
  | wordThen w c t hw hc ih =>
      rw [hcut hc, Words.words_append_cons hc, Words.words_append_cons hc, Words.words_of_isWord hw,
        List.flatMap_append, List.flatMap_singleton, ih]

end Replace
