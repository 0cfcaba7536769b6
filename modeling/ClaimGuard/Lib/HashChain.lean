import Mathlib.Data.List.Basic
import Mathlib.Data.List.Infix
import Mathlib.Data.List.Nodup

/-!
# Hash chains

A chain of rows, each carrying the hash of the row before it and its own hash.
Checking a chain recomputes every hash and follows the links from a genesis
value. Three facts are proved: appending a well-linked row keeps a chain, the
last hash commits to the whole chain, and the only rows a chain can lose
unnoticed are its last ones.
-/

/-- What checking a chain of rows reads: the link of a row, its stored hash, and
the hash its content has. -/
structure HashChain (ρ : Type*) (η : Type*) where
  prev : ρ → η
  hash : ρ → η
  recompute : ρ → η

namespace HashChain

variable {ρ η : Type*} [DecidableEq η] (C : HashChain ρ η)

/-- Follow the links from `expected`, recomputing each hash. -/
def verifyFrom (expected : η) : List ρ → Bool
  | [] => true
  | r :: rs =>
      if expected = C.prev r then
        if C.recompute r = C.hash r then verifyFrom (C.hash r) rs else false
      else false

/-- The hash the next row has to carry. -/
def lastHash (genesis : η) (l : List ρ) : η := (l.getLast?.map C.hash).getD genesis

@[simp] theorem verifyFrom_nil (e : η) : C.verifyFrom e [] = true := rfl

theorem verifyFrom_cons {e : η} {r : ρ} {rs : List ρ} :
    C.verifyFrom e (r :: rs) = true ↔
      e = C.prev r ∧ C.recompute r = C.hash r ∧ C.verifyFrom (C.hash r) rs = true := by
  by_cases he : e = C.prev r <;> by_cases hr : C.recompute r = C.hash r <;>
    simp [verifyFrom, he, hr]

omit [DecidableEq η] in
@[simp] theorem lastHash_nil (e : η) : C.lastHash e [] = e := rfl

omit [DecidableEq η] in
@[simp] theorem lastHash_append_singleton (e : η) (l : List ρ) (r : ρ) :
    C.lastHash e (l ++ [r]) = C.hash r := by
  simp [lastHash]

omit [DecidableEq η] in
theorem lastHash_cons (e : η) (r : ρ) (rs : List ρ) :
    C.lastHash e (r :: rs) = C.lastHash (C.hash r) rs := by
  cases rs with
  | nil => rfl
  | cons s rs =>
      unfold lastHash
      rw [List.getLast?_cons_cons, List.getLast?_cons]
      rfl

/-- A chain is extended by a row that links to its last hash. -/
theorem verifyFrom_append {e : η} {l m : List ρ} :
    C.verifyFrom e (l ++ m) = true ↔
      C.verifyFrom e l = true ∧ C.verifyFrom (C.lastHash e l) m = true := by
  induction l generalizing e with
  | nil => simp
  | cons r l ih =>
      rw [List.cons_append, verifyFrom_cons, verifyFrom_cons, ih, lastHash_cons]
      tauto

theorem verifyFrom_append_singleton {e : η} {l : List ρ} {r : ρ} :
    C.verifyFrom e (l ++ [r]) = true ↔
      C.verifyFrom e l = true ∧ C.lastHash e l = C.prev r ∧ C.recompute r = C.hash r := by
  rw [verifyFrom_append, verifyFrom_cons]
  simp

/-- In a chain every stored hash is the hash of the content. -/
theorem recompute_eq_of_mem {e : η} {l : List ρ} (h : C.verifyFrom e l = true) {r : ρ}
    (hr : r ∈ l) : C.recompute r = C.hash r := by
  -- the loop checks every row, whatever it expects of the first
  induction l generalizing e with
  | nil => cases hr
  | cons s l ih =>
      rcases C.verifyFrom_cons.1 h with ⟨-, hs, hl⟩
      rcases List.mem_cons.1 hr with rfl | hr
      · exact hs
      · exact ih hl hr

/-! ## The last hash commits to the chain -/

/-- Two chains from one genesis value with one last hash correspond row by row,
when the content hashes of their rows determine the link and `Same`, and the
genesis value is no content hash. The induction runs backwards from the last row. -/
theorem forall₂_of_lastHash_eq {genesis : η} {Same : ρ → ρ → Prop} {l m : List ρ}
    (hrec : ∀ r ∈ l, ∀ s ∈ m, C.recompute r = C.recompute s → C.prev r = C.prev s ∧ Same r s)
    (hgl : ∀ r ∈ l, C.recompute r ≠ genesis) (hgm : ∀ s ∈ m, C.recompute s ≠ genesis)
    (hl : C.verifyFrom genesis l = true) (hm : C.verifyFrom genesis m = true)
    (hlast : C.lastHash genesis l = C.lastHash genesis m) : List.Forall₂ Same l m := by
  induction l using List.reverseRecOn generalizing m with
  | nil =>
      rcases List.eq_nil_or_concat' m with rfl | ⟨m, s, rfl⟩
      · exact List.Forall₂.nil
      · -- the last hash of the other chain would be the genesis value
        have hs := C.recompute_eq_of_mem hm (r := s) (by simp)
        rw [lastHash_nil, lastHash_append_singleton, ← hs] at hlast
        exact absurd hlast.symm (hgm s (by simp))
  | append_singleton l r ih =>
      have hr := C.recompute_eq_of_mem hl (r := r) (by simp)
      rcases List.eq_nil_or_concat' m with rfl | ⟨m, s, rfl⟩
      · rw [lastHash_nil, lastHash_append_singleton, ← hr] at hlast
        exact absurd hlast (hgl r (by simp))
      · have hs := C.recompute_eq_of_mem hm (r := s) (by simp)
        rw [lastHash_append_singleton, lastHash_append_singleton, ← hr, ← hs] at hlast
        -- the last rows agree, and so the hashes before them do
        obtain ⟨hprev, hsame⟩ := hrec r (by simp) s (by simp) hlast
        rcases C.verifyFrom_append_singleton.1 hl with ⟨hl', hlink, -⟩
        rcases C.verifyFrom_append_singleton.1 hm with ⟨hm', hlink', -⟩
        have hrest := ih
          (fun x hx y hy => hrec x (by simp [hx]) y (by simp [hy]))
          (fun x hx => hgl x (by simp [hx])) (fun y hy => hgm y (by simp [hy]))
          hl' hm' (by rw [hlink, hlink', hprev])
        exact List.rel_append hrest (List.Forall₂.cons hsame List.Forall₂.nil)

/-! ## Losing rows -/

/-- Every link of a chain is its start or the hash of one of its rows. -/
theorem prev_eq_or_mem {e : η} {l : List ρ} (h : C.verifyFrom e l = true) {r : ρ} (hr : r ∈ l) :
    C.prev r = e ∨ C.prev r ∈ l.map C.hash := by
  induction l generalizing e with
  | nil => cases hr
  | cons s l ih =>
      rcases C.verifyFrom_cons.1 h with ⟨he, -, hl⟩
      rcases List.mem_cons.1 hr with rfl | hr
      · exact Or.inl he.symm
      · right
        rcases ih hl hr with hprev | hprev
        · simp [hprev]
        · exact List.mem_cons_of_mem _ hprev

/-- A chain that loses rows is still a chain only when what is left is a prefix:
the row after a lost one links to a hash that is no longer in front of it. -/
theorem prefix_of_sublist {e : η} {l m : List ρ} (hl : C.verifyFrom e l = true)
    (hnodup : (l.map C.hash).Nodup) (he : e ∉ l.map C.hash) (hsub : m.Sublist l)
    (hm : C.verifyFrom e m = true) : m <+: l := by
  induction l generalizing e m with
  | nil => rw [List.sublist_nil.1 hsub]
  | cons r l ih =>
      rcases C.verifyFrom_cons.1 hl with ⟨-, -, hrest⟩
      rcases List.nodup_cons.1 hnodup with ⟨hr, hnodup'⟩
      cases hsub with
      | cons _ hsub =>
          cases m with
          | nil => exact List.nil_prefix
          | cons s m =>
              -- `s` comes after the lost `r`, but links to `e`
              rcases C.verifyFrom_cons.1 hm with ⟨hs, -, -⟩
              have hmem : s ∈ l := hsub.subset List.mem_cons_self
              rcases C.prev_eq_or_mem hrest hmem with h | h
              · exact absurd (by rw [hs, h]; exact List.mem_cons_self) he
              · exact absurd (by rw [hs]; exact List.mem_cons_of_mem _ h) he
      | cons_cons _ hsub =>
          rcases C.verifyFrom_cons.1 hm with ⟨-, -, hm'⟩
          exact List.cons_prefix_cons.2 ⟨rfl, ih hrest hnodup' hr hsub hm'⟩

/-- A prefix of a chain is a chain. -/
theorem verifyFrom_initial {e : η} {l m : List ρ} (hl : C.verifyFrom e l = true)
    (h : m <+: l) : C.verifyFrom e m = true := by
  rcases h with ⟨t, rfl⟩
  exact (C.verifyFrom_append.1 hl).1

/-- A list loses no row before one it keeps exactly when what it keeps is a prefix. -/
theorem filter_prefix_iff (p : ρ → Bool) (l : List ρ) :
    l.filter p <+: l ↔ l.Pairwise fun a b => p b = true → p a = true := by
  induction l with
  | nil => simp
  | cons a l ih =>
      rw [List.pairwise_cons, ← ih]
      by_cases ha : p a = true
      · rw [List.filter_cons_of_pos ha, List.cons_prefix_cons]
        simp [ha]
      · rw [List.filter_cons_of_neg ha]
        constructor
        · intro h
          cases hf : l.filter p with
          | nil =>
              refine ⟨fun b hb hpb => ?_, List.nil_prefix⟩
              exact absurd hpb (List.filter_eq_nil_iff.1 hf b hb)
          | cons b m =>
              -- the first kept row would be the lost `a`
              rw [hf] at h
              rcases List.cons_prefix_cons.1 h with ⟨rfl, -⟩
              have hb : b ∈ l.filter p := by
                rw [hf]
                exact List.mem_cons_self
              exact absurd (List.mem_filter.1 hb).2 ha
        · rintro ⟨hall, -⟩
          have hf : l.filter p = [] := by
            rw [List.filter_eq_nil_iff]
            intro b hb hpb
            exact ha (hall b hb hpb)
          rw [hf]
          exact List.nil_prefix

/-- Changing rows in what the chain does not read goes unnoticed. -/
theorem verifyFrom_map {e : η} {g : ρ → ρ} (l : List ρ) (hprev : ∀ r ∈ l, C.prev (g r) = C.prev r)
    (hhash : ∀ r ∈ l, C.hash (g r) = C.hash r)
    (hrec : ∀ r ∈ l, C.recompute (g r) = C.recompute r) :
    C.verifyFrom e (l.map g) = C.verifyFrom e l := by
  induction l generalizing e with
  | nil => rfl
  | cons r l ih =>
      have hmem : r ∈ r :: l := List.mem_cons_self
      rw [Bool.eq_iff_iff, List.map_cons, verifyFrom_cons, verifyFrom_cons, hprev r hmem,
        hhash r hmem, hrec r hmem, ih (fun x hx => hprev x (List.mem_cons_of_mem _ hx))
          (fun x hx => hhash x (List.mem_cons_of_mem _ hx))
          (fun x hx => hrec x (List.mem_cons_of_mem _ hx))]

end HashChain
