import Mathlib.Data.List.Nodup
import Mathlib.Data.List.Sort
import Mathlib.Data.List.NodupEquivFin

/-!
# Dictionaries and numbered names

A dictionary built from a list of items, where of equal keys the last wins; the
dictionary that numbers a list of names; and when two lists can be numbered alike.
-/

namespace Dict

variable {κ ν : Type*} [DecidableEq κ]

/-- Look a key up in the dictionary of some items: the last item wins. -/
def get (items : List (κ × ν)) (k : κ) : Option ν := items.reverse.lookup k

/-- The dictionary that maps each name to its place in a list. -/
def index (names : List κ) (name : κ) : ℕ := (get names.zipIdx name).getD 0

theorem lookup_eq_some_of_mem {items : List (κ × ν)} {k : κ} {v : ν} (h : (k, v) ∈ items)
    (hu : ∀ w, (k, w) ∈ items → w = v) : items.lookup k = some v := by
  induction items with
  | nil => cases h
  | cons item items ih =>
      rcases item with ⟨k', v'⟩
      by_cases hk : k = k'
      · subst hk
        rw [List.lookup_cons_self, hu v' List.mem_cons_self]
      · have h' : (k, v) ∈ items := by
          rcases List.mem_cons.1 h with heq | h
          · exact absurd (Prod.mk.inj heq).1 hk
          · exact h
        rw [List.lookup_cons, beq_eq_false_iff_ne.2 hk]
        exact ih h' fun w hw => hu w (List.mem_cons_of_mem _ hw)

/-- What is looked up is an item. -/
theorem mem_of_get_eq_some {items : List (κ × ν)} {k : κ} {v : ν} (h : get items k = some v) :
    (k, v) ∈ items := by
  rcases List.lookup_eq_some_iff.1 h with ⟨before, after, heq, -⟩
  have hmem : (k, v) ∈ items.reverse := by
    rw [heq]
    exact List.mem_append_right _ List.mem_cons_self
  exact List.mem_reverse.1 hmem

/-- A key all of whose items agree has their value. -/
theorem get_eq_some_of_mem {items : List (κ × ν)} {k : κ} {v : ν} (h : (k, v) ∈ items)
    (hu : ∀ w, (k, w) ∈ items → w = v) : get items k = some v :=
  lookup_eq_some_of_mem (List.mem_reverse.2 h) fun w hw => hu w (List.mem_reverse.1 hw)

/-- When no key is there twice, the items of the dictionary are what is looked up. -/
theorem get_eq_some_iff {items : List (κ × ν)} (h : (items.map Prod.fst).Nodup) {k : κ} {v : ν} :
    get items k = some v ↔ (k, v) ∈ items := by
  constructor
  · exact mem_of_get_eq_some
  · intro hmem
    apply get_eq_some_of_mem hmem
    intro w hw
    exact congrArg Prod.snd (List.inj_on_of_nodup_map h hw hmem rfl)

/-- Nothing is looked up of a key that no item has. -/
theorem get_eq_none_iff {items : List (κ × ν)} {k : κ} :
    get items k = none ↔ k ∉ items.map Prod.fst := by
  unfold get
  rw [List.lookup_eq_none_iff]
  simp only [List.mem_reverse, List.mem_map, bne_iff_ne]
  constructor
  · rintro h ⟨item, hitem, rfl⟩
    exact h item hitem rfl
  · rintro h item hitem rfl
    exact h ⟨item, hitem, rfl⟩

/-- A dictionary whose values are mapped. -/
theorem get_map_values {μ : Type*} (f : ν → μ) (items : List (κ × ν)) (k : κ) :
    get (items.map fun e => (e.1, f e.2)) k = (get items k).map f := by
  unfold get
  rw [← List.map_reverse]
  induction items.reverse with
  | nil => rfl
  | cons e items ih =>
      rw [List.map_cons, List.lookup_cons, List.lookup_cons, ih]
      cases k == e.1 <;> rfl

omit [DecidableEq κ] in
/-- The keys that are left when items are selected by their keys. -/
theorem mem_filter_keys {items : List (κ × ν)} {q : κ → Bool} {k : κ} :
    k ∈ (items.filter fun item => q item.1).map Prod.fst ↔ k ∈ items.map Prod.fst ∧ q k = true := by
  simp only [List.mem_map, List.mem_filter]
  constructor
  · rintro ⟨item, ⟨hitem, hq⟩, rfl⟩
    exact ⟨⟨item, hitem, rfl⟩, hq⟩
  · rintro ⟨⟨item, hitem, rfl⟩, hq⟩
    exact ⟨item, ⟨hitem, hq⟩, rfl⟩

omit [DecidableEq κ] in
/-- The keys that are left when items are selected by their values. -/
theorem mem_filter_values {items : List (κ × ν)} {q : ν → Bool} {k : κ} :
    k ∈ (items.filter fun e => q e.2).map Prod.fst ↔ ∃ v, (k, v) ∈ items ∧ q v = true := by
  constructor
  · intro h
    rcases List.mem_map.1 h with ⟨e, he, rfl⟩
    rw [List.mem_filter] at he
    exact ⟨e.2, he.1, he.2⟩
  · intro h
    rcases h with ⟨v, hmem, hq⟩
    exact List.mem_map.2 ⟨(k, v), List.mem_filter.2 ⟨hmem, hq⟩, rfl⟩

/-- Without repetitions the number of a name is its place. -/
theorem get_zipIdx {names : List κ} (hnodup : names.Nodup) {name : κ} {i : ℕ}
    (hi : names[i]? = some name) : get names.zipIdx name = some i := by
  refine get_eq_some_of_mem (List.mem_zipIdx_iff_getElem?.2 hi) ?_
  intro k hk
  -- all items of the name have one place, for it occurs once
  have hk' : names[k]? = some name := List.mem_zipIdx_iff_getElem?.1 hk
  rcases List.getElem?_eq_some_iff.1 hk' with ⟨hklt, hkeq⟩
  rcases List.getElem?_eq_some_iff.1 hi with ⟨hilt, hieq⟩
  exact (List.Nodup.getElem_inj_iff hnodup).1 (hkeq.trans hieq.symm)

/-- Without repetitions a name is found at its place and nowhere else. -/
theorem getElem?_eq_some_iff_index {names : List κ} (hnodup : names.Nodup) {name : κ} {i : ℕ} :
    names[i]? = some name ↔ name ∈ names ∧ i = index names name := by
  have hindex : ∀ j, names[j]? = some name → index names name = j := by
    intro j hj
    unfold index
    rw [get_zipIdx hnodup hj, Option.getD_some]
  constructor
  · intro h
    exact ⟨List.mem_of_getElem? h, (hindex i h).symm⟩
  · rintro ⟨hmem, rfl⟩
    rcases List.mem_iff_getElem?.1 hmem with ⟨j, hj⟩
    rwa [hindex j hj]

/-- Two lists whose members have distinct keys, and the same keys, can be numbered
alike. -/
theorem exists_equiv_of_keys {ρ : Type*} (key : ρ → κ) {l m : List ρ} (hl : (l.map key).Nodup)
    (hm : (m.map key).Nodup) (h : ∀ k, k ∈ l.map key ↔ k ∈ m.map key) :
    ∃ e : Fin l.length ≃ Fin m.length, ∀ i, key (m.get (e i)) = key (l.get i) := by
  -- both lists are numbered through the set of their keys
  let el := List.Nodup.getEquiv (l.map key) hl
  let em := List.Nodup.getEquiv (m.map key) hm
  let e := (el.trans (Equiv.subtypeEquivRight h)).trans em.symm
  refine ⟨(finCongr (List.length_map key).symm).trans
    (e.trans (finCongr (List.length_map key))), ?_⟩
  intro i
  have hget : (m.map key).get (e (Fin.cast (List.length_map key).symm i)) =
      (l.map key).get (Fin.cast (List.length_map key).symm i) :=
    congrArg Subtype.val (em.apply_symm_apply _)
  simpa using hget

/-! ## Equality of dictionaries -/

section EqualUpTo

variable {α β : Type*}

omit [DecidableEq κ]

/-- The same keys, with values that are related under each key. -/
def EqualUpTo (R : α → β → Prop) (l : List (κ × α)) (m : List (κ × β)) : Prop :=
  (∀ k, k ∈ l.map Prod.fst ↔ k ∈ m.map Prod.fst) ∧
    ∀ k v w, (k, v) ∈ l → (k, w) ∈ m → R v w

theorem EqualUpTo.imp {R S : α → β → Prop} {l : List (κ × α)} {m : List (κ × β)}
    (h : EqualUpTo R l m) (hRS : ∀ k v w, (k, v) ∈ l → (k, w) ∈ m → R v w → S v w) :
    EqualUpTo S l m :=
  ⟨h.1, fun k v w hv hw => hRS k v w hv hw (h.2 k v w hv hw)⟩

/-- Every entry of one has a counterpart in the other. -/
theorem EqualUpTo.exists_entry {R : α → β → Prop} {l : List (κ × α)} {m : List (κ × β)}
    (h : EqualUpTo R l m) {k : κ} {v : α} (hv : (k, v) ∈ l) : ∃ w, (k, w) ∈ m ∧ R v w := by
  have hk : k ∈ m.map Prod.fst := (h.1 k).1 (List.mem_map_of_mem hv)
  rcases List.mem_map.1 hk with ⟨⟨k', w⟩, hw, rfl⟩
  exact ⟨w, hw, h.2 k' v w hv hw⟩

/-- Without repeated keys, the values of two dictionaries have the same images under
each key exactly when the entries are the same up to their order. -/
theorem perm_map_iff {γ : Type*} {l : List (κ × α)} {m : List (κ × β)} {f : α → γ} {g : β → γ}
    (hl : (l.map Prod.fst).Nodup) (hm : (m.map Prod.fst).Nodup) :
    (l.map fun e => (e.1, f e.2)).Perm (m.map fun e => (e.1, g e.2)) ↔
      EqualUpTo (fun v w => f v = g w) l m := by
  have hl' : (l.map fun e => (e.1, f e.2)).Nodup := by
    apply List.Nodup.of_map Prod.fst
    rw [List.map_map]
    exact hl
  have hm' : (m.map fun e => (e.1, g e.2)).Nodup := by
    apply List.Nodup.of_map Prod.fst
    rw [List.map_map]
    exact hm
  rw [List.perm_ext_iff_of_nodup hl' hm']
  simp only [Prod.forall, List.mem_map, Prod.exists, Prod.mk.injEq]
  constructor
  · intro h
    constructor
    · intro k
      simp only [List.mem_map, Prod.exists, exists_and_right, exists_eq_right]
      constructor
      · intro hk
        rcases hk with ⟨v, hv⟩
        rcases (h k (f v)).1 ⟨k, v, hv, rfl, rfl⟩ with ⟨_, w, hw, rfl, -⟩
        exact ⟨w, hw⟩
      · intro hk
        rcases hk with ⟨w, hw⟩
        rcases (h k (g w)).2 ⟨k, w, hw, rfl, rfl⟩ with ⟨_, v, hv, rfl, -⟩
        exact ⟨v, hv⟩
    · intro k v w hv hw
      rcases (h k (f v)).1 ⟨k, v, hv, rfl, rfl⟩ with ⟨_, w', hw', rfl, hvw⟩
      -- a key has one entry only
      have hsame := List.inj_on_of_nodup_map hm hw' hw rfl
      rw [← hvw, (Prod.mk.inj hsame).2]
  · intro h k z
    constructor
    · intro hz
      rcases hz with ⟨_, v, hv, rfl, rfl⟩
      rcases h.exists_entry hv with ⟨w, hw, hvw⟩
      exact ⟨_, w, hw, rfl, hvw.symm⟩
    · intro hz
      rcases hz with ⟨_, w, hw, rfl, rfl⟩
      have hk := (h.1 _).2 (List.mem_map_of_mem hw)
      rcases List.mem_map.1 hk with ⟨⟨k', v⟩, hv, rfl⟩
      exact ⟨_, v, hv, rfl, h.2 k' v w hv hw⟩

end EqualUpTo

end Dict
