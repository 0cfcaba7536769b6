import Mathlib.Algebra.Order.Group.Defs
import Mathlib.Algebra.Order.Monoid.Defs
import Mathlib.Data.Finset.Max
import Mathlib.Order.Lattice.Nat

/-!
# Windows over a list of points

How many points of a list lie in a window of some length, and the greatest such number
over all windows. A window that starts at a point of the list attains it, so that trying
these is enough.
-/

namespace Windows

/-! ## The greatest value on a list -/

/-- A running maximum is the greatest of its start and the values. -/
theorem isGreatest_foldl_max {β : Type*} (f : β → ℕ) (l : List β) (b : ℕ) :
    IsGreatest {n | n = b ∨ ∃ s ∈ l, n = f s} (l.foldl (fun best s => max best (f s)) b) := by
  induction l generalizing b with
  | nil =>
      refine ⟨Or.inl rfl, ?_⟩
      intro n hn
      rcases hn with rfl | ⟨s, hs, -⟩
      · exact le_refl _
      · cases hs
  | cons s l ih =>
      rw [List.foldl_cons]
      rcases ih (max b (f s)) with ⟨hmem, hle⟩
      constructor
      · rcases hmem with heq | ⟨u, hu, heq⟩
        · rw [heq]
          rcases max_choice b (f s) with hb | hs
          · exact Or.inl hb
          · exact Or.inr ⟨s, List.mem_cons_self, hs⟩
        · exact Or.inr ⟨u, List.mem_cons_of_mem s hu, heq⟩
      · intro n hn
        have hmax : max b (f s) ≤ l.foldl (fun best s => max best (f s)) (max b (f s)) :=
          hle (Or.inl rfl)
        rcases hn with rfl | ⟨u, hu, rfl⟩
        · exact (le_max_left _ _).trans hmax
        · rcases List.mem_cons.1 hu with rfl | hu
          · exact (le_max_right _ _).trans hmax
          · exact hle (Or.inr ⟨u, hu, rfl⟩)

/-! ## Points in a window -/

section Count

variable {α : Type*} [AddCommGroup α] [LinearOrder α]

/-- The number of points from `t` to `t + w`, both included. -/
def count (l : List α) (w t : α) : ℕ := l.countP fun d => decide (t ≤ d) && decide (d ≤ t + w)

theorem count_le_length (l : List α) (w t : α) : count l w t ≤ l.length := List.countP_le_length

theorem count_perm {l m : List α} (h : l.Perm m) (w t : α) : count l w t = count m w t :=
  h.countP_eq _

/-- A window holds all points exactly when each is in it. -/
theorem count_eq_length_iff {l : List α} {w t : α} :
    count l w t = l.length ↔ ∀ d ∈ l, t ≤ d ∧ d ≤ t + w := by
  unfold count
  rw [List.countP_eq_length]
  simp only [Bool.and_eq_true, decide_eq_true_eq]

variable [IsOrderedAddMonoid α]

/-- Shifting the points shifts the windows. -/
theorem count_map_add (l : List α) (w t c : α) :
    count (l.map fun d => d + c) w (t + c) = count l w t := by
  unfold count
  rw [List.countP_map]
  congr 1
  funext d
  have hend : t + c + w = t + w + c := add_right_comm t c w
  simp only [Function.comp_apply, hend, add_le_add_iff_right]

/-- A point is in the window that starts at it. -/
theorem count_pos {l : List α} {w s : α} (hw : 0 ≤ w) (hs : s ∈ l) : 0 < count l w s := by
  unfold count
  rw [List.countP_pos_iff]
  refine ⟨s, hs, ?_⟩
  simp [hw]

/-- A window with points in it may as well start at the first of them. -/
theorem exists_start {l : List α} {w t : α} (h : 0 < count l w t) :
    ∃ s ∈ l, count l w t ≤ count l w s := by
  unfold count at h
  rcases List.countP_pos_iff.1 h with ⟨d, hd, hin⟩
  let inside := (l.filter fun d => decide (t ≤ d) && decide (d ≤ t + w)).toFinset
  have hne : inside.Nonempty := ⟨d, by simpa [inside] using ⟨hd, by simpa using hin⟩⟩
  rcases inside.exists_min_image id hne with ⟨s, hs, hmin⟩
  have hs' : s ∈ l ∧ t ≤ s ∧ s ≤ t + w := by simpa [inside] using hs
  refine ⟨s, hs'.1, ?_⟩
  apply List.countP_mono_left
  intro e he hwindow
  have hwindow' : t ≤ e ∧ e ≤ t + w := by simpa using hwindow
  have hse : s ≤ e := hmin e (by simpa [inside] using ⟨he, hwindow'⟩)
  have hend : e ≤ s + w := hwindow'.2.trans (add_le_add_left hs'.2.1 w)
  simp only [hse, hend, decide_true, Bool.and_true]

/-! ## The fullest window -/

/-- The greatest number of points in one window, wherever it starts. -/
noncomputable def most (l : List α) (w : α) : ℕ := ⨆ t, count l w t

omit [IsOrderedAddMonoid α] in
/-- Some window has that number of points, and none has more. -/
theorem isGreatest_most (l : List α) (w : α) : IsGreatest (Set.range (count l w)) (most l w) := by
  have hbdd : BddAbove (Set.range (count l w)) := by
    refine ⟨l.length, ?_⟩
    intro n hn
    rcases hn with ⟨t, rfl⟩
    exact count_le_length l w t
  exact ⟨Nat.sSup_mem ⟨_, 0, rfl⟩ hbdd, fun n hn => le_csSup hbdd hn⟩

omit [IsOrderedAddMonoid α] in
theorem most_le_length (l : List α) (w : α) : most l w ≤ l.length := by
  rcases (isGreatest_most l w).1 with ⟨t, ht⟩
  rw [← ht]
  exact count_le_length l w t

omit [IsOrderedAddMonoid α] in
/-- The order of the points does not matter. -/
theorem most_perm {l m : List α} (h : l.Perm m) (w : α) : most l w = most m w := by
  unfold most
  simp only [count_perm h]

theorem most_map_add (l : List α) (w c : α) : most (l.map fun d => d + c) w = most l w := by
  apply (isGreatest_most _ w).unique
  rcases isGreatest_most l w with ⟨⟨t, ht⟩, hle⟩
  constructor
  · refine ⟨t + c, ?_⟩
    rw [count_map_add, ht]
  · intro n hn
    rcases hn with ⟨u, rfl⟩
    -- every window over the shifted points is a shifted window
    rw [← sub_add_cancel u c, count_map_add]
    exact hle ⟨u - c, rfl⟩

theorem most_pos {l : List α} {w : α} (hw : 0 ≤ w) (hl : l ≠ []) : 0 < most l w := by
  rcases List.exists_mem_of_ne_nil l hl with ⟨s, hs⟩
  exact (count_pos hw hs).trans_le ((isGreatest_most l w).2 ⟨s, rfl⟩)

omit [IsOrderedAddMonoid α] in
/-- One window holds all points exactly when the fullest one does. -/
theorem most_eq_length_iff {l : List α} {w : α} :
    most l w = l.length ↔ ∃ t, ∀ d ∈ l, t ≤ d ∧ d ≤ t + w := by
  rcases isGreatest_most l w with ⟨⟨t, ht⟩, hle⟩
  constructor
  · intro h
    exact ⟨t, count_eq_length_iff.1 (ht.trans h)⟩
  · intro h
    rcases h with ⟨u, hu⟩
    apply le_antisymm (most_le_length l w)
    rw [← count_eq_length_iff.2 hu]
    exact hle ⟨u, rfl⟩

/-- Trying the windows that start at a point finds the fullest one. -/
theorem foldl_max_count {l : List α} {w : α} (hw : 0 ≤ w) (hl : l ≠ []) :
    l.foldl (fun best s => max best (count l w s)) 1 = most l w := by
  rcases isGreatest_foldl_max (count l w) l 1 with ⟨hmem, hle⟩
  apply le_antisymm
  · rcases hmem with heq | ⟨s, -, heq⟩
    · rw [heq]
      exact most_pos hw hl
    · rw [heq]
      exact (isGreatest_most l w).2 ⟨s, rfl⟩
  · rcases (isGreatest_most l w).1 with ⟨t, ht⟩
    have hpos : 0 < count l w t := by
      rw [ht]
      exact most_pos hw hl
    rcases exists_start hpos with ⟨s, hs, hts⟩
    rw [← ht]
    exact hts.trans (hle (Or.inr ⟨s, hs, rfl⟩))

end Count

end Windows
