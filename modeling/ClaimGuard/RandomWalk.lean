import Mathlib.Algebra.BigOperators.Field
import Mathlib.Data.List.GetD
import ClaimGuard.Graph
import ClaimGuard.Lib.PageRank

/-!
# The random walk on a weighted graph

A step from a vertex follows an edge at it with a probability proportional to the
weight of the edge. A vertex without edges has no step. The weighted degrees are left
as they are by the walk, for the graph is undirected.
-/

namespace ClaimGuard

open Matrix

namespace Graph

variable {F : Type} [Field F]

/-- The source of an edge. -/
def source (g : Graph F) (eid : ℕ) : ℕ := (g.edges.getD eid (0, 0)).1

/-- The target of an edge. -/
def target (g : Graph F) (eid : ℕ) : ℕ := (g.edges.getD eid (0, 0)).2

/-- The weight of an edge. -/
def weight (g : Graph F) (eid : ℕ) : F := g.weights.getD eid 0

/-- The edge is at the vertex. -/
def Touches (g : Graph F) (u eid : ℕ) : Prop := g.source eid = u ∨ g.target eid = u

/-- The edge joins the two vertices. -/
def Joins (g : Graph F) (u v eid : ℕ) : Prop :=
  (g.source eid = u ∧ g.target eid = v) ∨ (g.source eid = v ∧ g.target eid = u)

instance (g : Graph F) (u eid : ℕ) : Decidable (g.Touches u eid) :=
  inferInstanceAs (Decidable (_ ∨ _))

instance (g : Graph F) (u v eid : ℕ) : Decidable (g.Joins u v eid) :=
  inferInstanceAs (Decidable (_ ∨ _))

/-- The end of an edge that is not `u`. -/
def other (g : Graph F) (u eid : ℕ) : ℕ :=
  if g.source eid = u then g.target eid else g.source eid

/-- The sum of the weights of the edges at a vertex. -/
def strength (g : Graph F) (u : ℕ) : F :=
  ∑ eid ∈ Finset.range g.edges.length, if g.Touches u eid then g.weight eid else 0

/-- The sum of the weights of the edges that join two vertices. -/
def adjacency (g : Graph F) (u v : ℕ) : F :=
  ∑ eid ∈ Finset.range g.edges.length, if g.Joins u v eid then g.weight eid else 0

/-- One step of the walk. -/
def walk (g : Graph F) : Matrix (Fin g.vertices.length) (Fin g.vertices.length) F :=
  fun u v => g.adjacency u v / g.strength u

/-- An edge joins two vertices of the graph, different ones, and its weight is positive. -/
structure PositivelyWeighted [LinearOrder F] (g : Graph F) : Prop where
  weighted : g.weights.length = g.edges.length
  ends : ∀ e ∈ g.edges, e.1 < g.vertices.length ∧ e.2 < g.vertices.length
  loopless : ∀ e ∈ g.edges, e.1 ≠ e.2
  positive : ∀ weight ∈ g.weights, 0 < weight

theorem adjacency_comm (g : Graph F) (u v : ℕ) : g.adjacency u v = g.adjacency v u := by
  unfold adjacency
  apply Finset.sum_congr rfl
  intro eid _
  have hiff : g.Joins u v eid ↔ g.Joins v u eid := or_comm
  simp only [hiff]

namespace PositivelyWeighted

variable [LinearOrder F] {g : Graph F} (h : g.PositivelyWeighted)

include h

theorem edge {eid : ℕ} (heid : eid < g.edges.length) :
    g.source eid < g.vertices.length ∧ g.target eid < g.vertices.length ∧
      g.source eid ≠ g.target eid := by
  have hmem : g.edges.getD eid (0, 0) ∈ g.edges := by
    rw [List.getD_eq_getElem _ _ heid]
    exact List.getElem_mem heid
  exact ⟨(h.ends _ hmem).1, (h.ends _ hmem).2, h.loopless _ hmem⟩

theorem weight_pos {eid : ℕ} (heid : eid < g.edges.length) : 0 < g.weight eid := by
  have hlt : eid < g.weights.length := h.weighted.symm ▸ heid
  unfold weight
  rw [List.getD_eq_getElem _ _ hlt]
  exact h.positive _ (List.getElem_mem hlt)

theorem other_lt (u : ℕ) {eid : ℕ} (heid : eid < g.edges.length) :
    g.other u eid < g.vertices.length := by
  unfold other
  split
  · exact (h.edge heid).2.1
  · exact (h.edge heid).1

/-- From `u` an edge leads to its other end and nowhere else. -/
theorem joins_iff {u v eid : ℕ} (heid : eid < g.edges.length) :
    g.Joins u v eid ↔ g.Touches u eid ∧ v = g.other u eid := by
  have hne := (h.edge heid).2.2
  unfold Joins Touches other
  constructor
  · rintro (⟨rfl, rfl⟩ | ⟨rfl, rfl⟩)
    · exact ⟨Or.inl rfl, (if_pos rfl).symm⟩
    · exact ⟨Or.inr rfl, (if_neg hne).symm⟩
  · rintro ⟨rfl | rfl, rfl⟩
    · exact Or.inl ⟨rfl, (if_pos rfl).symm⟩
    · exact Or.inr ⟨(if_neg hne).symm, rfl⟩

variable [IsStrictOrderedRing F]

theorem adjacency_nonneg (u v : ℕ) : 0 ≤ g.adjacency u v := by
  apply Finset.sum_nonneg
  intro eid heid
  split
  · exact (h.weight_pos (Finset.mem_range.1 heid)).le
  · exact le_refl 0

theorem strength_nonneg (u : ℕ) : 0 ≤ g.strength u := by
  apply Finset.sum_nonneg
  intro eid heid
  split
  · exact (h.weight_pos (Finset.mem_range.1 heid)).le
  · exact le_refl 0

theorem strength_pos_of_touches {u eid : ℕ} (heid : eid < g.edges.length) (ht : g.Touches u eid) :
    0 < g.strength u := by
  refine Finset.sum_pos' (fun eid heid => ?_) ⟨eid, Finset.mem_range.2 heid, ?_⟩
  · split
    · exact (h.weight_pos (Finset.mem_range.1 heid)).le
    · exact le_refl 0
  · rw [if_pos ht]
    exact h.weight_pos heid

omit [IsStrictOrderedRing F] in
/-- What has an edge is a vertex. -/
theorem lt_of_strength_pos {u : ℕ} (hu : 0 < g.strength u) : u < g.vertices.length := by
  rcases Finset.exists_ne_zero_of_sum_ne_zero hu.ne' with ⟨eid, heid, hne⟩
  have ht : g.Touches u eid := by
    by_contra ht
    exact hne (if_neg ht)
  rcases ht with rfl | rfl
  · exact (h.edge (Finset.mem_range.1 heid)).1
  · exact (h.edge (Finset.mem_range.1 heid)).2.1

theorem strength_pos_of_joins {u v eid : ℕ} (heid : eid < g.edges.length) (hj : g.Joins u v eid) :
    0 < g.strength v :=
  h.strength_pos_of_touches heid ((h.joins_iff heid).1 (Or.symm hj)).1

/-- A vertex without edges is joined to nothing. -/
theorem adjacency_eq_zero {u : ℕ} (hu : ¬ 0 < g.strength u) (v : ℕ) : g.adjacency u v = 0 := by
  refine Finset.sum_eq_zero fun eid heid => if_neg fun hj => hu ?_
  have heid' := Finset.mem_range.1 heid
  exact h.strength_pos_of_touches heid' ((h.joins_iff heid').1 hj).1

omit [IsStrictOrderedRing F] in
/-- Every edge at a vertex joins it to one vertex. -/
theorem sum_adjacency (u : ℕ) :
    ∑ v : Fin g.vertices.length, g.adjacency u v = g.strength u := by
  unfold adjacency strength
  rw [Finset.sum_comm]
  apply Finset.sum_congr rfl
  intro eid heid
  have heid' := Finset.mem_range.1 heid
  -- an edge at `u` counts for its other end, any other edge for none
  by_cases ht : g.Touches u eid
  · rw [if_pos ht, Finset.sum_eq_single ⟨g.other u eid, h.other_lt u heid'⟩]
    · exact if_pos ((h.joins_iff heid').2 ⟨ht, rfl⟩)
    · intro v _ hv
      exact if_neg fun hj => hv (Fin.ext ((h.joins_iff heid').1 hj).2)
    · intro hmem
      exact absurd (Finset.mem_univ _) hmem
  · rw [if_neg ht]
    exact Finset.sum_eq_zero fun v _ => if_neg fun hj => ht ((h.joins_iff heid').1 hj).1

theorem substochastic_walk : Substochastic g.walk where
  nonneg u v := div_nonneg (h.adjacency_nonneg u v) (h.strength_nonneg u)
  row_le_one u := by
    calc ∑ v, g.walk u v = (∑ v : Fin g.vertices.length, g.adjacency u v) / g.strength u :=
          (Finset.sum_div _ _ _).symm
      _ = g.strength u / g.strength u := by rw [h.sum_adjacency]
      _ ≤ 1 := div_self_le_one _

/-- The walk leaves the weighted degrees as they are. -/
theorem strength_vecMul_walk :
    (fun v : Fin g.vertices.length => g.strength v) ᵥ* g.walk =
      fun v : Fin g.vertices.length => g.strength v := by
  funext v
  have hterm : ∀ u : Fin g.vertices.length,
      g.strength u * g.walk u v = g.adjacency v u := by
    intro u
    rw [g.adjacency_comm v u]
    -- a vertex without edges contributes nothing on either side
    by_cases hu : 0 < g.strength u
    · exact mul_div_cancel₀ _ hu.ne'
    · unfold walk
      rw [h.adjacency_eq_zero hu, zero_div, mul_zero]
  calc ((fun v : Fin g.vertices.length => g.strength v) ᵥ* g.walk) v
      = ∑ u : Fin g.vertices.length, g.strength u * g.walk u v := rfl
    _ = ∑ u : Fin g.vertices.length, g.adjacency v u := Finset.sum_congr rfl fun u _ => hterm u
    _ = g.strength v := h.sum_adjacency v

end PositivelyWeighted

/-- The entity graph of consistent rows, with positive weights. -/
theorem positivelyWeighted_buildGraph [LinearOrder F] {links : List LinkRow} (hrows : Rows links)
    (claimAttrs : List (String × F × LocalDate)) {idfWeight : ℕ → F}
    (hidf : ∀ entityDegree, 0 < entityDegree → 0 < idfWeight entityDegree) :
    (buildGraph idfWeight links claimAttrs).PositivelyWeighted where
  weighted := by simp [buildGraph]
  ends := by
    rintro ⟨i, j⟩ he
    rcases (simpleBipartite_buildGraph hrows).sides i j he with ⟨u, v, hu, hv, -, -⟩
    exact ⟨(List.getElem?_eq_some_iff.1 hu).1, (List.getElem?_eq_some_iff.1 hv).1⟩
  loopless := by
    rintro ⟨i, j⟩ he heq
    rcases (simpleBipartite_buildGraph hrows).sides i j he with ⟨u, v, hu, hv, hclaim, hentity⟩
    have huv : u = v := Option.some.inj (hu.symm.trans ((show i = j from heq) ▸ hv))
    rw [huv, hentity] at hclaim
    cases hclaim
  positive := by
    intro weight hmem
    rcases List.mem_map.1 hmem with ⟨e, he, rfl⟩
    exact hidf _ (List.count_pos_iff.2 (List.mem_map_of_mem he))

end Graph

end ClaimGuard
