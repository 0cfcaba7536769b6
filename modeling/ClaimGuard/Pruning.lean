import ClaimGuard.Detector

/-!
# Deleting vertices

Where the vertices that are left go when some are deleted, and what is left of the edges.
-/

namespace ClaimGuard

/-- An element is in one of the parts of a list without repetitions only. -/
theorem index_unique_of_nodup_flatten {α : Type} {parts : List (List α)}
    (h : parts.flatten.Nodup) {k l : ℕ} {part part' : List α} {a : α} (hk : parts[k]? = some part)
    (hl : parts[l]? = some part') (ha : a ∈ part) (ha' : a ∈ part') : k = l := by
  have hdisjoint := List.pairwise_iff_getElem.1 (List.nodup_flatten.1 h).2
  rcases List.getElem?_eq_some_iff.1 hk with ⟨hklt, rfl⟩
  rcases List.getElem?_eq_some_iff.1 hl with ⟨hllt, rfl⟩
  rcases lt_trichotomy k l with hlt | heq | hlt
  · exact absurd ha' (List.disjoint_left.1 (hdisjoint k l hklt hllt hlt) ha)
  · exact heq
  · exact absurd ha (List.disjoint_left.1 (hdisjoint l k hllt hklt hlt) ha')

variable {F : Type}

namespace Graph

/-- A claim graph as it is built: simple and bipartite, every entity with its type, and every
edge with its weight. -/
structure ClaimGraph (g : Graph F) : Prop extends g.SimpleBipartite where
  typed : ∀ v ∈ g.vertices, v.kind = .entity → v.entityType ≠ none
  weighted : g.weights.length = g.edges.length

/-- The vertex is a claim. -/
def IsClaim (g : Graph F) (i : ℕ) : Prop := ∃ v, g.vertices[i]? = some v ∧ v.kind = .claim

/-- The vertices that are left. -/
def kept (g : Graph F) (deleted : List ℕ) : List ℕ :=
  (List.range g.vertices.length).filter fun i => !deleted.contains i

/-- Where a vertex that is left goes. -/
def position (g : Graph F) (deleted : List ℕ) (i : ℕ) : ℕ := (g.kept deleted).idxOf i

variable {g : Graph F} {deleted : List ℕ} {i j : ℕ}

theorem mem_kept : i ∈ g.kept deleted ↔ i < g.vertices.length ∧ i ∉ deleted := by
  simp [kept]

theorem nodup_kept : (g.kept deleted).Nodup := List.nodup_range.filter _

theorem lt_of_getElem? {v : Vertex F} (h : g.vertices[i]? = some v) : i < g.vertices.length :=
  (List.getElem?_eq_some_iff.1 h).1

theorem IsClaim.lt (h : g.IsClaim i) : i < g.vertices.length := by
  rcases h with ⟨v, hv, -⟩
  exact lt_of_getElem? hv

theorem not_isClaim_of_entity {v : Vertex F} (hv : g.vertices[i]? = some v)
    (hentity : v.kind = .entity) : ¬ g.IsClaim i := by
  rintro ⟨w, hw, hclaim⟩
  rw [hv, Option.some.injEq] at hw
  rw [hw, hclaim] at hentity
  cases hentity

/-- The places of the vertices with a property. -/
theorem mem_places {p : Vertex F × ℕ → Bool} :
    i ∈ (g.vertices.zipIdx.filter p).map Prod.snd ↔
      ∃ v, g.vertices[i]? = some v ∧ p (v, i) = true := by
  rw [List.mem_map]
  constructor
  · rintro ⟨⟨v, k⟩, hmem, rfl⟩
    rw [List.mem_filter, List.mem_zipIdx_iff_getElem?] at hmem
    exact ⟨v, hmem⟩
  · rintro ⟨v, hv, hp⟩
    exact ⟨(v, i), List.mem_filter.2 ⟨List.mem_zipIdx_iff_getElem?.2 hv, hp⟩, rfl⟩

theorem position_inj (hi : i ∈ g.kept deleted)
    (h : g.position deleted i = g.position deleted j) : i = j :=
  (List.idxOf_inj hi).1 h

theorem vertices_deleteVertices :
    (g.deleteVertices deleted).vertices = (g.kept deleted).filterMap fun i => g.vertices[i]? := rfl

theorem map_getElem?_kept (g : Graph F) (deleted : List ℕ) :
    ((g.deleteVertices deleted).vertices.map some) =
    (g.kept deleted).map fun i => g.vertices[i]? := by
  have hsome : ∀ i ∈ g.kept deleted, (g.vertices[i]?).isSome := by
    intro i hi
    rw [List.getElem?_eq_getElem (mem_kept.1 hi).1]
    rfl
  rw [vertices_deleteVertices]
  generalize g.kept deleted = l at hsome
  induction l with
  | nil => rfl
  | cons i l ih =>
      rcases Option.isSome_iff_exists.1 (hsome i List.mem_cons_self) with ⟨v, hv⟩
      rw [List.filterMap_cons_some hv, List.map_cons, List.map_cons, hv,
        ih fun k hk => hsome k (List.mem_cons_of_mem i hk)]

theorem length_deleteVertices :
    (g.deleteVertices deleted).vertices.length = (g.kept deleted).length := by
  have h := congrArg List.length (map_getElem?_kept g deleted)
  rwa [List.length_map, List.length_map] at h

/-- A vertex that is left is as it was. -/
theorem getElem?_position (hi : i ∈ g.kept deleted) :
    (g.deleteVertices deleted).vertices[g.position deleted i]? = g.vertices[i]? := by
  have hlt := List.idxOf_lt_length_iff.2 hi
  have h := congrArg (fun l => l[g.position deleted i]?)
    (map_getElem?_kept g deleted)
  simp only [List.getElem?_map] at h
  rw [show (g.kept deleted)[g.position deleted i]? = some i by
    rw [position, List.getElem?_eq_getElem hlt, List.getElem_idxOf]] at h
  have hv := List.getElem?_eq_getElem (mem_kept.1 hi).1
  rw [Option.map_some, hv] at h
  rcases Option.map_eq_some_iff.1 h with ⟨v, hv', heq⟩
  rw [hv', heq, hv]

/-- Every vertex was there before. -/
theorem exists_position {k : ℕ} (hk : k < (g.deleteVertices deleted).vertices.length) :
    ∃ i ∈ g.kept deleted, g.position deleted i = k := by
  rw [length_deleteVertices] at hk
  exact ⟨_, List.getElem_mem hk, nodup_kept.idxOf_getElem k hk⟩

section

variable (hw : g.weights.length = g.edges.length)
include hw

theorem edges_deleteVertices : (g.deleteVertices deleted).edges =
    (g.edges.filter fun e =>
      (g.kept deleted).contains e.1 && (g.kept deleted).contains e.2).map fun e =>
        (g.position deleted e.1, g.position deleted e.2) := by
  have hfst : g.weightedEdges.map Prod.fst = g.edges := List.map_fst_zip hw.ge
  conv_rhs => rw [← hfst, List.filter_map, List.map_map]
  rfl

theorem mem_edges_deleteVertices {k l : ℕ} : (k, l) ∈ (g.deleteVertices deleted).edges ↔
    ∃ i j, i ∈ g.kept deleted ∧ j ∈ g.kept deleted ∧ g.position deleted i = k ∧
      g.position deleted j = l ∧ (i, j) ∈ g.edges := by
  rw [edges_deleteVertices hw, List.mem_map]
  constructor
  · rintro ⟨e, he, heq⟩
    rw [List.mem_filter, Bool.and_eq_true, List.contains_iff_mem, List.contains_iff_mem] at he
    rw [Prod.mk.injEq] at heq
    exact ⟨e.1, e.2, he.2.1, he.2.2, heq.1, heq.2, he.1⟩
  · rintro ⟨i, j, hi, hj, rfl, rfl, hmem⟩
    refine ⟨(i, j), ?_, rfl⟩
    rw [List.mem_filter, Bool.and_eq_true, List.contains_iff_mem, List.contains_iff_mem]
    exact ⟨hmem, hi, hj⟩

/-- An edge between vertices that are left is left. -/
theorem mem_edges_position (hi : i ∈ g.kept deleted) (hj : j ∈ g.kept deleted) :
    (g.position deleted i, g.position deleted j) ∈ (g.deleteVertices deleted).edges ↔
      (i, j) ∈ g.edges := by
  rw [mem_edges_deleteVertices hw]
  constructor
  · rintro ⟨i', j', hi', hj', hpi, hpj, hmem⟩
    rwa [position_inj hi' hpi, position_inj hj' hpj] at hmem
  · intro hmem
    exact ⟨i, j, hi, hj, rfl, rfl, hmem⟩

end

theorem isClaim_position (hi : i ∈ g.kept deleted) :
    (g.deleteVertices deleted).IsClaim (g.position deleted i) ↔ g.IsClaim i := by
  unfold IsClaim
  rw [getElem?_position hi]

theorem filterMap_getElem?_range :
    (List.range g.vertices.length).filterMap (fun i => g.vertices[i]?) = g.vertices := by
  apply List.map_injective_iff.2 (Option.some_injective _)
  have h := map_getElem?_kept g []
  have hkept : g.kept [] = List.range g.vertices.length :=
    List.filter_eq_self.2 fun i _ => by simp
  rw [vertices_deleteVertices, hkept] at h
  rw [h]
  apply List.ext_getElem?
  intro k
  rw [List.getElem?_map, List.getElem?_map]
  by_cases hk : k < g.vertices.length
  · rw [List.getElem?_range hk, List.getElem?_eq_getElem hk]
    simp
  · rw [List.getElem?_eq_none (by simpa using hk), List.getElem?_eq_none (by simpa using hk)]
    rfl

theorem sublist_deleteVertices :
    (g.deleteVertices deleted).vertices.Sublist g.vertices := by
  conv_rhs => rw [← filterMap_getElem?_range (g := g)]
  exact List.filter_sublist.filterMap _

/-- A claim graph without some of its vertices is one. -/
theorem ClaimGraph.deleteVertices (hg : g.ClaimGraph) (deleted : List ℕ) :
    (g.deleteVertices deleted).ClaimGraph where
  names := (sublist_deleteVertices.map Vertex.name).nodup hg.names
  edges := by
    rw [edges_deleteVertices hg.weighted]
    refine List.Nodup.map_on ?_ (hg.edges.filter _)
    intro e he e' he' heq
    rw [List.mem_filter, Bool.and_eq_true, List.contains_iff_mem, List.contains_iff_mem] at he
    rw [Prod.mk.injEq] at heq
    exact Prod.ext (position_inj he.2.1 heq.1) (position_inj he.2.2 heq.2)
  sides := by
    intro k l hkl
    rcases (mem_edges_deleteVertices hg.weighted).1 hkl with ⟨i, j, hi, hj, rfl, rfl, hmem⟩
    rw [getElem?_position hi, getElem?_position hj]
    exact hg.sides i j hmem
  typed := fun v hv => hg.typed v (sublist_deleteVertices.subset hv)
  weighted := by simp [Graph.deleteVertices]

end Graph

end ClaimGuard
