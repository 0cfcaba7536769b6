import Mathlib.Data.List.Lex
import Mathlib.Data.List.Sort
import Mathlib.Data.Nat.Basic

/-!
# The order of UTF-16 code units

Strings in the order of their UTF-16 code units, which is not the order of their
code points: an astral character starts with a surrogate and so comes before
U+E000. Maps from strings are put in this order by `sortByKey`.
-/

namespace Utf16

/-- The one or two code units of a character. -/
def unitsOf (c : Char) : List ℕ :=
  if c.toNat < 0x10000 then [c.toNat]
  else [0xD800 + (c.toNat - 0x10000) / 0x400, 0xDC00 + (c.toNat - 0x10000) % 0x400]

/-- The code units of a string. -/
def units (s : String) : List ℕ := s.toList.flatMap unitsOf

/-- No character lies in the surrogate range. -/
theorem toNat_not_surrogate (c : Char) : c.toNat < 0xD800 ∨ 0xDFFF < c.toNat := by
  rcases c.valid with h | ⟨h, -⟩
  · exact Or.inl h
  · exact Or.inr h

theorem toNat_lt (c : Char) : c.toNat < 0x110000 := by
  rcases c.valid with h | ⟨-, h⟩
  · exact lt_of_lt_of_le h (by decide)
  · exact h

/-- The code units of a character are read back from the front of a text. -/
theorem unitsOf_append_inj {c d : Char} {l m : List ℕ}
    (h : unitsOf c ++ l = unitsOf d ++ m) : c = d ∧ l = m := by
  have hc := toNat_not_surrogate c
  have hd := toNat_not_surrogate d
  have hc' := toNat_lt c
  have hd' := toNat_lt d
  unfold unitsOf at h
  -- a unit in the surrogate range never is a character of its own
  split at h <;> split at h <;>
    simp only [List.cons_append, List.nil_append, List.cons.injEq] at h
  · exact ⟨Char.toNat_inj.1 h.1, h.2⟩
  · omega
  · omega
  · exact ⟨Char.toNat_inj.1 (by omega), h.2.2⟩

/-- Code units determine the string. -/
theorem units_injective : Function.Injective units := by
  have key : ∀ l m : List Char, l.flatMap unitsOf = m.flatMap unitsOf → l = m := by
    have hne : ∀ c : Char, unitsOf c ≠ [] := by
      intro c
      unfold unitsOf
      split <;> simp
    intro l
    induction l with
    | nil =>
        intro m h
        cases m with
        | nil => rfl
        | cons d m => simp [hne d] at h
    | cons c l ih =>
        intro m h
        cases m with
        | nil => simp [hne c] at h
        | cons d m =>
            obtain ⟨rfl, hlm⟩ := unitsOf_append_inj (by simpa using h)
            rw [ih m hlm]
  intro s t h
  exact String.toList_inj.1 (key _ _ h)

/-- `a` is not after `b`. -/
def Le (a b : String) : Prop := units a ≤ units b

instance : DecidableRel Le := fun a b => inferInstanceAs (Decidable (units a ≤ units b))

theorem Le.trans {a b c : String} (hab : Le a b) (hbc : Le b c) : Le a c := le_trans hab hbc

theorem Le.total (a b : String) : Le a b ∨ Le b a := le_total (units a) (units b)

theorem Le.antisymm {a b : String} (hab : Le a b) (hba : Le b a) : a = b :=
  units_injective (le_antisymm hab hba)

/-! ## Entries in the order of their keys -/

section SortByKey

variable {α β : Type*}

/-- Entries in the order of their keys. -/
def sortByKey (l : List (String × α)) : List (String × α) :=
  l.insertionSort fun a b => Le a.1 b.1

theorem sortByKey_perm (l : List (String × α)) : (sortByKey l).Perm l :=
  List.perm_insertionSort _ l

theorem pairwise_sortByKey (l : List (String × α)) :
    (sortByKey l).Pairwise fun a b => Le a.1 b.1 := by
  have : Std.Total (fun a b : String × α => Le a.1 b.1) := ⟨fun a b => Le.total a.1 b.1⟩
  have : IsTrans (String × α) (fun a b => Le a.1 b.1) := ⟨fun _ _ _ => Le.trans⟩
  exact List.pairwise_insertionSort _ l

/-- Maps with the same entries are put in the same order. -/
theorem sortByKey_congr {l m : List (String × α)} (hl : (l.map Prod.fst).Nodup)
    (h : l.Perm m) : sortByKey l = sortByKey m := by
  have hperm : (sortByKey l).Perm (sortByKey m) :=
    (sortByKey_perm l).trans (h.trans (sortByKey_perm m).symm)
  refine hperm.eq_of_pairwise ?_ (pairwise_sortByKey l) (pairwise_sortByKey m)
  intro a b ha hb hab hba
  have hkey : a.1 = b.1 := Le.antisymm hab hba
  have hal : a ∈ l := (sortByKey_perm l).mem_iff.1 ha
  have hbl : b ∈ l := h.mem_iff.2 ((sortByKey_perm m).mem_iff.1 hb)
  exact List.inj_on_of_nodup_map hl hal hbl hkey

/-- Two maps are put into one list exactly when they have the same entries. -/
theorem sortByKey_eq_iff {l m : List (String × α)} (hl : (l.map Prod.fst).Nodup) :
    sortByKey l = sortByKey m ↔ l.Perm m := by
  constructor
  · intro h
    have hm := sortByKey_perm m
    rw [← h] at hm
    exact (sortByKey_perm l).symm.trans hm
  · exact sortByKey_congr hl

/-- Sorting does not look at the values. -/
theorem sortByKey_map (f : α → β) (l : List (String × α)) :
    sortByKey (l.map fun e => (e.1, f e.2)) = (sortByKey l).map fun e => (e.1, f e.2) := by
  have h := List.map_insertionSort (fun a b : String × α => Le a.1 b.1)
    (fun a b : String × β => Le a.1 b.1) (fun e => (e.1, f e.2)) l (fun _ _ _ _ => Iff.rfl)
  exact h.symm

/-- Sorting what is sorted changes nothing. -/
theorem sortByKey_sortByKey {l : List (String × α)} :
    sortByKey (sortByKey l) = sortByKey l :=
  List.Pairwise.insertionSort_eq (pairwise_sortByKey l)

end SortByKey

end Utf16
