import Mathlib.Algebra.BigOperators.Group.Finset.Piecewise
import Mathlib.Algebra.GroupWithZero.Nat
import Mathlib.Data.List.Nodup
import Mathlib.Data.List.Sort

/-!
# Tables with a primary key

A table is the list of its rows in insertion order. `find` is lookup by primary
key, `save` is insert-or-overwrite by primary key. The section at the end is
about queries: filtering and a stable sort by a column.
-/

namespace Table

variable {κ ρ : Type*} [DecidableEq κ] (key : ρ → κ)

/-- The row with primary key `k`. -/
def find (t : List ρ) (k : κ) : Option ρ := t.find? fun r => decide (key r = k)

/-- Insert `r`, or overwrite the row that has its key. -/
def save (t : List ρ) (r : ρ) : List ρ :=
  if (find key t (key r)).isSome then t.map fun x => if key x = key r then r else x
  else t ++ [r]

/-- Insert `r` unless there is a row with its key. -/
def insertNew (t : List ρ) (r : ρ) : List ρ := if (find key t (key r)).isSome then t else t ++ [r]

/-- No two rows share a primary key. -/
def UniqueKeys (t : List ρ) : Prop := (t.map key).Nodup

variable {key}

omit [DecidableEq κ] in
theorem uniqueKeys_nil : UniqueKeys key [] := List.nodup_nil

/-! ## Lookup -/

theorem find_eq_some {t : List ρ} {k : κ} {r : ρ} (h : find key t k = some r) :
    r ∈ t ∧ key r = k :=
  ⟨List.mem_of_find?_eq_some h, by simpa using List.find?_some h⟩

theorem find_eq_none {t : List ρ} {k : κ} : find key t k = none ↔ ∀ r ∈ t, key r ≠ k := by
  simp [find]

theorem find_isSome {t : List ρ} {k : κ} : (find key t k).isSome ↔ ∃ r ∈ t, key r = k := by
  simp [find]

/-- With unique keys, the rows with the key of a row are that row. -/
theorem filter_key {t : List ρ} (hu : UniqueKeys key t) {r : ρ} (hr : r ∈ t) :
    (t.filter fun x => decide (key x = key r)) = [r] := by
  induction t with
  | nil => cases hr
  | cons x t ih =>
      rcases List.nodup_cons.1 hu with ⟨hx, ht⟩
      rcases List.mem_cons.1 hr with rfl | hr
      · have hrest : (t.filter fun x => decide (key x = key r)) = [] := by
          rw [List.filter_eq_nil_iff]
          intro y hy heq
          exact hx (of_decide_eq_true heq ▸ List.mem_map_of_mem hy)
        rw [List.filter_cons_of_pos (by simp), hrest]
      · have hne : key x ≠ key r := by
          intro heq
          exact hx (heq ▸ List.mem_map_of_mem hr)
        rw [List.filter_cons_of_neg (by simpa using hne), ih ht hr]

/-- With unique keys, lookup finds exactly the rows of the table. -/
theorem find_of_mem {t : List ρ} (hu : UniqueKeys key t) {r : ρ} (hr : r ∈ t) :
    find key t (key r) = some r := by
  unfold find
  rw [← List.head?_filter, filter_key hu hr]
  rfl

theorem find_iff_mem {t : List ρ} (hu : UniqueKeys key t) {r : ρ} {k : κ} :
    find key t k = some r ↔ r ∈ t ∧ key r = k := by
  constructor
  · exact find_eq_some
  · rintro ⟨hr, rfl⟩
    exact find_of_mem hu hr

theorem find_append_singleton (t : List ρ) (r : ρ) (k : κ) :
    find key (t ++ [r]) k = (find key t k).or (if key r = k then some r else none) := by
  unfold find
  rw [List.find?_append]
  congr 1
  by_cases h : key r = k <;> simp [h]

/-! ## Saving -/

theorem save_of_find_none {t : List ρ} {r : ρ} (h : find key t (key r) = none) :
    save key t r = t ++ [r] := by
  simp [save, h]

theorem save_of_find_some {t : List ρ} {r x : ρ} (h : find key t (key r) = some x) :
    save key t r = t.map fun y => if key y = key r then r else y := by
  simp [save, h]

private theorem find_overwrite (t : List ρ) (r : ρ) (k : κ) :
    find key (t.map fun y => if key y = key r then r else y) k =
      (find key t k).map fun y => if key y = key r then r else y := by
  induction t with
  | nil => rfl
  | cons x t ih =>
      by_cases hx : key x = key r
      · by_cases hk : key r = k
        · simp [find, hx, hk]
        · simpa [find, hx, hk] using ih
      · by_cases hk : key x = k
        · have hk' : ¬ k = key r := fun h => hx (hk.trans h)
          simp [find, hk, hk']
        · simpa [find, hx, hk] using ih

/-- What a lookup sees after a save: the saved row at its key, the old row
elsewhere. -/
theorem find_save (t : List ρ) (r : ρ) (k : κ) :
    find key (save key t r) k = if k = key r then some r else find key t k := by
  cases hf : find key t (key r) with
  | none =>
      rw [save_of_find_none hf, find_append_singleton]
      by_cases hk : k = key r
      · subst hk
        simp [hf]
      · have hk' : key r ≠ k := fun h => hk h.symm
        simp [hk, hk']
  | some x =>
      rw [save_of_find_some hf, find_overwrite]
      by_cases hk : k = key r
      · subst hk
        have hx := (find_eq_some hf).2
        simp [hf, hx]
      · rw [if_neg hk]
        cases hf' : find key t k with
        | none => rfl
        | some y =>
            have hy : key y ≠ key r := fun h => hk ((find_eq_some hf').2.symm.trans h)
            simp [hy]

/-- Overwriting keeps the column of keys. -/
theorem map_key_save_of_find_some {t : List ρ} {r x : ρ} (h : find key t (key r) = some x) :
    (save key t r).map key = t.map key := by
  rw [save_of_find_some h, List.map_map]
  apply List.map_congr_left
  intro y _
  by_cases hy : key y = key r <;> simp [hy]

/-- Saving keeps primary keys unique. -/
theorem uniqueKeys_save {t : List ρ} (hu : UniqueKeys key t) (r : ρ) :
    UniqueKeys key (save key t r) := by
  -- a new row has a new key, an overwritten one keeps its place
  cases hf : find key t (key r) with
  | none =>
      rw [save_of_find_none hf]
      unfold UniqueKeys
      rw [List.map_append, List.nodup_append]
      refine ⟨hu, by simp, ?_⟩
      intro a ha b hb
      rcases List.mem_map.1 ha with ⟨x, hx, rfl⟩
      have hb' : b = key r := by simpa using hb
      rw [hb']
      exact find_eq_none.1 hf x hx
  | some x =>
      unfold UniqueKeys
      rw [map_key_save_of_find_some hf]
      exact hu

/-- The rows of a saved table. -/
theorem mem_save {t : List ρ} (hu : UniqueKeys key t) {r x : ρ} :
    x ∈ save key t r ↔ x = r ∨ (x ∈ t ∧ key x ≠ key r) := by
  have hu' := uniqueKeys_save hu r
  have h : x ∈ save key t r ↔ find key (save key t r) (key x) = some x :=
    ⟨find_of_mem hu', fun h => (find_eq_some h).1⟩
  rw [h, find_save]
  -- at the saved key there is the saved row only
  by_cases hk : key x = key r
  · simp only [hk, if_true, Option.some.injEq, ne_eq, not_true_eq_false, and_false, or_false]
    exact eq_comm
  · rw [if_neg hk, find_iff_mem hu]
    constructor
    · rintro ⟨hx, -⟩
      exact Or.inr ⟨hx, hk⟩
    · rintro (rfl | ⟨hx, -⟩)
      · exact absurd rfl hk
      · exact ⟨hx, rfl⟩

/-- A row of a saved table is the saved one or was there. -/
theorem mem_of_mem_save {t : List ρ} {r x : ρ} (h : x ∈ save key t r) : x = r ∨ x ∈ t := by
  unfold save at h
  split at h
  · rcases List.mem_map.1 h with ⟨y, hy, rfl⟩
    split
    · exact Or.inl rfl
    · exact Or.inr hy
  · exact (List.mem_append.1 h).symm.imp_left List.mem_singleton.1

/-- The keys of a saved table. -/
theorem exists_key_save {t : List ρ} {r : ρ} {k : κ} :
    (∃ x ∈ save key t r, key x = k) ↔ k = key r ∨ ∃ x ∈ t, key x = k := by
  rw [← find_isSome, ← find_isSome, find_save]
  by_cases hk : k = key r <;> simp [hk]

/-- Saving adds a row when there is none with its key. -/
theorem length_save (t : List ρ) (r : ρ) :
    (save key t r).length = t.length + if (find key t (key r)).isSome then 0 else 1 := by
  unfold save
  split
  · rw [List.length_map, Nat.add_zero]
  · rw [List.length_append, List.length_singleton]

private theorem map_overwrite_of_not_mem {α : Type*} (f : ρ → α) {t : List ρ} {r : ρ}
    (h : key r ∉ t.map key) :
    (t.map fun y => if key y = key r then r else y).map f = t.map f := by
  rw [List.map_map]
  apply List.map_congr_left
  intro y hy
  have hne : key y ≠ key r := fun heq => h (heq ▸ List.mem_map_of_mem hy)
  rw [Function.comp_apply, if_neg hne]

/-- A sum over the rows changes by what is saved and what it overwrites. -/
theorem sum_save {f : ρ → ℕ} {t : List ρ} (hu : UniqueKeys key t) {r x : ρ}
    (h : find key t (key r) = some x) :
    ((save key t r).map f).sum + f x = (t.map f).sum + f r := by
  rw [save_of_find_some h]
  induction t with
  | nil => cases h
  | cons y t ih =>
      rcases List.nodup_cons.1 hu with ⟨hy, ht⟩
      by_cases hk : key y = key r
      · -- the row that is overwritten; no other row has its key
        have hxy : y = x := by simpa [find, hk] using h
        subst hxy
        rw [List.map_cons, List.map_cons, List.map_cons, if_pos hk, List.sum_cons, List.sum_cons,
          map_overwrite_of_not_mem f (hk ▸ hy)]
        omega
      · have hfind : find key t (key r) = some x := by simpa [find, hk] using h
        have hrest := ih ht hfind
        rw [List.map_cons, List.map_cons, List.map_cons, if_neg hk, List.sum_cons, List.sum_cons]
        omega

/-- The rows, counted by the values of a column. -/
theorem sum_countP_column {col : ρ → κ} {t : List ρ} {ks : List κ} (hks : ks.Nodup)
    (hmem : ∀ r ∈ t, col r ∈ ks) :
    (ks.map fun k => t.countP fun r => decide (col r = k)).sum = t.length := by
  rw [← List.sum_toFinset _ hks]
  induction t with
  | nil => simp
  | cons r t ih =>
      have hr : col r ∈ ks.toFinset := List.mem_toFinset.2 (hmem r List.mem_cons_self)
      have hrest := ih fun r hr => hmem r (List.mem_cons_of_mem _ hr)
      simp only [List.countP_cons, Finset.sum_add_distrib, decide_eq_true_eq, hrest,
        Finset.sum_ite_eq, hr, if_true, List.length_cons]

/-! ## New rows -/

/-- The first row with a key stays. -/
theorem find_insertNew (t : List ρ) (r : ρ) (k : κ) :
    find key (insertNew key t r) k = (find key t k).or (find key [r] k) := by
  unfold insertNew
  split
  · rename_i hold
    by_cases hk : k = key r
    · subst hk
      rcases Option.isSome_iff_exists.1 hold with ⟨x, hx⟩
      rw [hx]
      rfl
    · have hnone : find key [r] k = none :=
        find_eq_none.2 fun x hx => by
          rw [List.mem_singleton.1 hx]
          exact Ne.symm hk
      rw [hnone, Option.or_none]
  · exact List.find?_append ..

/-- Of rows inserted one by one the first with a key stays. -/
theorem find_foldl_insertNew (t rows : List ρ) (k : κ) :
    find key (rows.foldl (insertNew key) t) k = (find key t k).or (find key rows k) := by
  induction rows generalizing t with
  | nil => exact (Option.or_none).symm
  | cons r rows ih =>
      have hsplit : find key ([r] ++ rows) k = (find key [r] k).or (find key rows k) :=
        List.find?_append ..
      rw [List.foldl_cons, ih, find_insertNew, Option.or_assoc, ← hsplit, List.singleton_append]

variable (key) in
theorem exists_foldl_insertNew (t rows : List ρ) :
    ∃ new, new.Sublist rows ∧ rows.foldl (insertNew key) t = t ++ new := by
  induction rows generalizing t with
  | nil => exact ⟨[], List.Sublist.refl _, (List.append_nil _).symm⟩
  | cons r rows ih =>
      rcases ih (insertNew key t r) with ⟨new, hsub, heq⟩
      rw [List.foldl_cons, heq]
      unfold insertNew
      split
      · exact ⟨new, hsub.cons r, rfl⟩
      · exact ⟨r :: new, hsub.cons_cons r, by rw [List.append_assoc, List.singleton_append]⟩

/-- Rows whose keys are there change nothing. -/
theorem foldl_insertNew_of_find {t rows : List ρ}
    (h : ∀ r ∈ rows, (find key t (key r)).isSome = true) : rows.foldl (insertNew key) t = t := by
  induction rows with
  | nil => rfl
  | cons r rows ih =>
      obtain ⟨hr, hrows⟩ := List.forall_mem_cons.1 h
      rw [List.foldl_cons, insertNew, if_pos hr, ih hrows]

/-- A second time nothing is new. -/
theorem foldl_insertNew_twice (t rows : List ρ) :
    rows.foldl (insertNew key) (rows.foldl (insertNew key) t) = rows.foldl (insertNew key) t := by
  refine foldl_insertNew_of_find fun r hr => ?_
  rw [find_foldl_insertNew, Option.isSome_or, Bool.or_eq_true]
  exact Or.inr (find_isSome.2 ⟨r, hr, rfl⟩)

/-! ## Queries -/

section Sorting

variable {ρ : Type*} {r : ρ → ρ → Prop} [DecidableRel r]

/-- Filtering commutes with insertion into a sorted list. -/
theorem filter_orderedInsert (htrans : ∀ a b c, r a b → r b c → r a c) (p : ρ → Bool) (a : ρ) :
    ∀ l : List ρ, l.Pairwise r → (l.orderedInsert r a).filter p =
      if p a then (l.filter p).orderedInsert r a else l.filter p
  | [], _ => by by_cases h : p a <;> simp [h]
  | b :: l, hl => by
      rcases List.pairwise_cons.1 hl with ⟨hb, hl'⟩
      by_cases hab : r a b
      · rw [List.orderedInsert_cons_of_le r l hab]
        by_cases ha : p a
        · -- everything that survives is above `a`
          have hall : ∀ c ∈ (b :: l).filter p, r a c := by
            intro c hc
            rcases List.mem_cons.1 (List.mem_of_mem_filter hc) with rfl | hc'
            · exact hab
            · exact htrans a b c hab (hb c hc')
          rw [if_pos ha, List.filter_cons_of_pos ha]
          cases hf : (b :: l).filter p with
          | nil => rfl
          | cons c m =>
              rw [List.orderedInsert_cons_of_le r m (hall c (by rw [hf]; exact List.mem_cons_self))]
        · rw [if_neg ha, List.filter_cons_of_neg ha]
      · rw [List.orderedInsert_of_not_le r l hab]
        have ih := filter_orderedInsert htrans p a l hl'
        by_cases hpb : p b
        · rw [List.filter_cons_of_pos hpb, List.filter_cons_of_pos hpb, ih]
          by_cases ha : p a
          · rw [if_pos ha, if_pos ha, List.orderedInsert_of_not_le r _ hab]
          · rw [if_neg ha, if_neg ha]
        · rw [List.filter_cons_of_neg hpb, List.filter_cons_of_neg hpb, ih]

/-- A stable sort of the rows that pass a filter is the filter of the sort. -/
theorem insertionSort_filter (htrans : ∀ a b c, r a b → r b c → r a c)
    (htotal : ∀ a b, r a b ∨ r b a) (p : ρ → Bool) (l : List ρ) :
    (l.filter p).insertionSort r = (l.insertionSort r).filter p := by
  have : Std.Total r := ⟨htotal⟩
  have : IsTrans ρ r := ⟨htrans⟩
  induction l with
  | nil => rfl
  | cons a l ih =>
      rw [List.insertionSort_cons,
        filter_orderedInsert htrans p a _ (List.pairwise_insertionSort r l), ← ih]
      by_cases ha : p a
      · rw [if_pos ha, List.filter_cons_of_pos ha, List.insertionSort_cons]
      · rw [if_neg ha, List.filter_cons_of_neg ha]

end Sorting

end Table
