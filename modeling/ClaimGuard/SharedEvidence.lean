import Mathlib.Data.List.Perm.Basic
import ClaimGuard.Lib.Double
import ClaimGuard.Narrative
import ClaimGuard.ScoringCache

/-!
# The evidence of shared entities

What the evidence of a claim says of its entities is sound: each piece is about an entity of
the claim, and lists other claims that have it. A piece lists none when the claim is the only
one at the entity, and such a piece comes first.
-/

namespace ClaimGuard

open Floats RoundedFloats

variable {F : Type}

/-! ## The graph library and the weights -/

/-- The edges at a vertex, and its neighbours, in some order. -/
structure Igraph.FindsEdges (ig : Igraph F) : Prop where
  incident : ∀ (g : Graph F) (i : ℕ), g.SimpleBipartite →
    (ig.incident g i).Perm ((List.range g.edges.length).filter fun eid =>
      decide ((g.edges.getD eid (0, 0)).1 = i ∨ (g.edges.getD eid (0, 0)).2 = i))
  neighbors : ∀ (g : Graph F) (i : ℕ), g.SimpleBipartite →
    (ig.neighbors g i).Perm ((g.edges.filter fun e => decide (e.1 = i ∨ e.2 = i)).map fun e =>
      if e.1 = i then e.2 else e.1)

/-- `idf_weight`, over the logarithm of the library. -/
def idfWeight [Floats F] (log : ℕ → F) (entityDegree : ℕ) : F :=
  if 0 < entityDegree then ofRat 1 / log (1 + entityDegree) else ofRat 0

/-- The logarithm is about that of two at two, and at least one from three on. -/
structure IsLog [Floats F] [RoundedFloats F] (log : ℕ → F) : Prop where
  two_pos : 0 < value (log 2)
  two_le : value (log 2) ≤ 4 / 5
  one_le : ∀ n, 3 ≤ n → 1 ≤ value (log n)

/-- An entity of one claim weighs more than any entity that is shared. -/
theorem IsLog.idfWeight_lt {log : ℕ → Double} (hlog : IsLog log) {d : ℕ} (hd : 2 ≤ d) :
    value (idfWeight log d) < value (idfWeight log 1) := by
  have hone := hlog.one_le (1 + d) (by omega)
  have hshared : value (idfWeight log d) ≤ 1 := by
    unfold idfWeight
    rw [if_pos (by omega), value_div _ _ (by linarith), value_one]
    exact nearest_le_one ((div_le_one (by linarith)).2 hone)
  have halone : Binary64.nearest (5 / 4) ≤ value (idfWeight log 1) := by
    unfold idfWeight
    rw [if_pos Nat.one_pos, value_div _ _ hlog.two_pos.ne', value_one]
    apply Binary64.nearest_mono
    rw [le_div_iff₀ hlog.two_pos]
    linarith [hlog.two_le]
  have hquarter : 1 < Binary64.nearest (5 / 4) := by decide +kernel
  exact hshared.trans_lt (hquarter.trans_le halone)

/-! ## What a piece of evidence says -/

/-- The piece shows an edge of the vertex: the entity at its other end, and at most ten other
claims that have the entity, fewer than its degree. -/
def Evidence.Shows (g : Graph F) (i eid : ℕ) : Evidence F → Prop
  | .sharedEntity entityType entityValue entityDegree sharedWithClaimIds =>
      ∃ j entity, g.edges[eid]? = some (i, j) ∧ g.vertices[j]? = some entity ∧
        entity.entityType.map EntityType.name = some entityType ∧
        entity.canonicalValue.map maskEntityValue = some entityValue ∧
        entity.degreeRaw = some entityDegree ∧ sharedWithClaimIds.Nodup ∧
        (∀ id ∈ sharedWithClaimIds, ∃ k claim, (k, j) ∈ g.edges ∧ k ≠ i ∧
          g.vertices[k]? = some claim ∧ claim.name = id.toString) ∧
        sharedWithClaimIds.length + 1 ≤ entityDegree ∧
        sharedWithClaimIds.length ≤ maxNeighborsPerEntity
  | _ => False

/-- At most five pieces, each about an edge of its own, the heaviest first. -/
def SoundEvidence [Floats F] [RoundedFloats F] (g : Graph F) (i : ℕ) (items : List (Evidence F)) :
    Prop :=
  ∃ eids : List ℕ, List.Forall₂ (Evidence.Shows g i) eids items ∧ eids.Nodup ∧
    items.length ≤ maxEvidenceEntities ∧
    eids.Pairwise fun a b => value (g.weights.getD b (ofRat 0)) ≤ value (g.weights.getD a (ofRat 0))

/-- A score of the claim with this name, of the model or of the rules. -/
inductive Graph.Scores [Floats F] (ig : Igraph F) (g : Graph F) (claimId : String) :
    ClaimScore F → Prop
  | model {classifier : RingClassifier F} {score : ClaimScore F}
      (built : buildModelScore ig g (buildFeatureContext ig g) classifier claimId =
        .ok (some score)) : Scores ig g claimId score
  | rules {verdicts : List (String × ClaimVerdict F)} {modelVersion : String}
      {score : ClaimScore F}
      (built : buildScore ig g g.claimIndex verdicts claimId modelVersion = .ok (some score)) :
      Scores ig g claimId score

/-- Every entity of the vertex has another claim. -/
def Graph.SharesEach (g : Graph F) (i : ℕ) : Prop :=
  ∀ j, (i, j) ∈ g.edges → ∃ k, k ≠ i ∧ (k, j) ∈ g.edges

/-! ## The claims at an entity -/

/-- The claims that are linked to the entity. -/
def sharers (links : List LinkRow) (entityId : UUID) : List UUID :=
  (links.filter fun r => decide (r.entityId = entityId)).map LinkRow.claimId

theorem mem_sharers {links : List LinkRow} {claimId entityId : UUID} :
    claimId ∈ sharers links entityId ↔
      ∃ r ∈ links, r.claimId = claimId ∧ r.entityId = entityId := by
  simp only [sharers, List.mem_map, List.mem_filter, decide_eq_true_eq]
  constructor
  · rintro ⟨r, ⟨hr, hentity⟩, hclaim⟩
    exact ⟨r, hr, hclaim, hentity⟩
  · rintro ⟨r, hr, hclaim, hentity⟩
    exact ⟨r, ⟨hr, hentity⟩, hclaim⟩

theorem length_sharers (links : List LinkRow) (entityId : UUID) :
    (sharers links entityId).length = degree links entityId.toString := by
  unfold sharers degree edgesRaw
  rw [List.length_map, List.map_map, List.count, List.countP_map, ← List.countP_eq_length_filter]
  apply List.countP_congr
  intro r _
  rw [decide_eq_true_eq, Function.comp_apply, beq_iff_eq]
  exact ⟨fun h => congrArg UUID.toString h, fun h => UUID.toString_injective h⟩

theorem nodup_sharers {links : List LinkRow} (h : Rows links) (entityId : UUID) :
    (sharers links entityId).Nodup := by
  have hpairs := h.pairs
  refine List.Nodup.map_on ?_ ((List.Nodup.of_map _ hpairs).filter _)
  intro r hr s hs heq
  rw [List.mem_filter, decide_eq_true_eq] at hr hs
  apply List.inj_on_of_nodup_map hpairs hr.1 hs.1
  rw [heq, hr.2, hs.2]

/-! ## Neighbours -/

theorem mapM_readUuid (ids : List UUID) : (ids.map UUID.toString).mapM readUuid = .ok ids := by
  induction ids with
  | nil => rfl
  | cons id ids ih =>
      rw [List.map_cons, List.mapM_cons, readUuid_toString, ih]
      rfl

section

variable {links : List LinkRow} (h : Rows links) {claimAttrs : List (String × F × LocalDate)}
  {weight : ℕ → F} {ig : Igraph F}

include h

/-- The place of a claim is that of no entity. -/
theorem place_claim_ne_entity {r s : LinkRow} (hr : r ∈ links) (hs : s ∈ links) :
    place links r.claimId ≠ place links s.entityId := by
  intro heq
  refine h.apart r hr s hs (place_inj h ?_ ?_ heq)
  · exact List.mem_append_left _ (mem_claimNames.2 ⟨r, hr, rfl⟩)
  · exact List.mem_append_right _ (mem_entityNames.2 ⟨s, hs, rfl⟩)

theorem place_claim_eq_iff {r s : LinkRow} (hr : r ∈ links) (hs : s ∈ links) :
    place links r.claimId = place links s.claimId ↔ r.claimId = s.claimId := by
  refine ⟨place_inj h ?_ ?_, congrArg (place links)⟩
  · exact List.mem_append_left _ (mem_claimNames.2 ⟨r, hr, rfl⟩)
  · exact List.mem_append_left _ (mem_claimNames.2 ⟨s, hs, rfl⟩)

theorem place_entity_eq_iff {r s : LinkRow} (hr : r ∈ links) (hs : s ∈ links) :
    place links r.entityId = place links s.entityId ↔ r.entityId = s.entityId := by
  refine ⟨place_inj h ?_ ?_, congrArg (place links)⟩
  · exact List.mem_append_right _ (mem_entityNames.2 ⟨r, hr, rfl⟩)
  · exact List.mem_append_right _ (mem_entityNames.2 ⟨s, hs, rfl⟩)

/-- The claims at an entity, from its edges. -/
theorem names_of_edges {r : LinkRow} (hr : r ∈ links) :
    ((((buildGraph weight links claimAttrs).edges.filter fun e =>
        decide (e.1 = place links r.entityId ∨ e.2 = place links r.entityId)).map fun e =>
          if e.1 = place links r.entityId then e.2 else e.1).filterMap fun n =>
            (buildGraph weight links claimAttrs).vertices[n]?).map Vertex.name =
      (sharers links r.entityId).map UUID.toString := by
  have hfilter : ((buildGraph weight links claimAttrs).edges.filter fun e =>
      decide (e.1 = place links r.entityId ∨ e.2 = place links r.entityId)) =
        (links.filter fun s => decide (s.entityId = r.entityId)).map fun s =>
          (place links s.claimId, place links s.entityId) := by
    rw [edges_buildGraph, List.filter_map]
    refine congrArg (List.map _) ?_
    apply List.filter_congr
    intro s hs
    rw [Function.comp_apply, decide_eq_decide, ← place_entity_eq_iff h hs hr]
    exact or_iff_right (place_claim_ne_entity h hs hr)
  rw [hfilter, sharers, List.map_map, List.map_map]
  -- the other end of such an edge is a claim, which is at its place
  have hsome : ∀ l : List LinkRow, (∀ s ∈ l, s ∈ links) →
      ((l.map ((fun e : ℕ × ℕ => if e.1 = place links r.entityId then e.2 else e.1) ∘
        fun s => (place links s.claimId, place links s.entityId))).filterMap fun n =>
          (buildGraph weight links claimAttrs).vertices[n]?).map Vertex.name =
        l.map (UUID.toString ∘ LinkRow.claimId) := by
    intro l hl
    induction l with
    | nil => rfl
    | cons s l ih =>
        have hs := hl s List.mem_cons_self
        have hne := place_claim_ne_entity h hs hr
        rw [List.map_cons, Function.comp_apply, if_neg hne,
          List.filterMap_cons_some (vertex_place_claim h hs), List.map_cons, List.map_cons,
          ih fun t ht => hl t (List.mem_cons_of_mem s ht)]
        rfl
  exact hsome _ fun s hs => List.mem_of_mem_filter hs

/-- The names of the neighbours of an entity are those of its claims, in some order. -/
theorem exists_names_neighbors (weight : ℕ → F) (claimAttrs : List (String × F × LocalDate))
    (hig : ig.FindsEdges) {r : LinkRow} (hr : r ∈ links) :
    ∃ ids : List UUID, ids.Perm (sharers links r.entityId) ∧
      ((ig.neighbors (buildGraph weight links claimAttrs) (place links r.entityId)).filterMap
        fun n => (buildGraph weight links claimAttrs).vertices[n]?).map Vertex.name =
          ids.map UUID.toString := by
  have hperm := ((hig.neighbors (buildGraph weight links claimAttrs) (place links r.entityId)
    (simpleBipartite_buildGraph h)).filterMap
      fun n => (buildGraph weight links claimAttrs).vertices[n]?).map Vertex.name
  rw [names_of_edges h hr] at hperm
  have hnames : List.Forall₂ (fun s (id : UUID) => s = id.toString)
      ((sharers links r.entityId).map UUID.toString) (sharers links r.entityId) := by
    rw [List.forall₂_map_left_iff]
    exact List.forall₂_same.2 fun _ _ => rfl
  rcases List.perm_comp_forall₂ hperm hnames with ⟨ids, hids, hids'⟩
  refine ⟨ids, hids', ?_⟩
  rw [← List.forall₂_eq_eq_eq, List.forall₂_map_right_iff]
  exact hids

/-- What the evidence says of the entity of a row. -/
theorem entityEvidence_of_row (weight : ℕ → F) (claimAttrs : List (String × F × LocalDate))
    (hig : ig.FindsEdges) {r : LinkRow} (hr : r ∈ links) :
    ∃ ids : List UUID, ids.Perm (sharers links r.entityId) ∧
      entityEvidence ig (buildGraph weight links claimAttrs) r.claimId.toString
        (place links r.entityId) =
          .ok (.sharedEntity r.entityType.name (maskEntityValue r.canonicalValue)
            (degree links r.entityId.toString)
            ((ids.filter fun id => decide (id ≠ r.claimId)).take maxNeighborsPerEntity)) := by
  rcases exists_names_neighbors h weight claimAttrs hig hr with ⟨ids, hperm, hnames⟩
  refine ⟨ids, hperm, ?_⟩
  have hfilter : (ids.map UUID.toString).filter (fun name => decide (name ≠ r.claimId.toString)) =
      (ids.filter fun id => decide (id ≠ r.claimId)).map UUID.toString := by
    rw [List.filter_map]
    refine congrArg (List.map _) ?_
    apply List.filter_congr
    intro id _
    rw [Function.comp_apply, decide_eq_decide, UUID.toString_injective.ne_iff]
  unfold entityEvidence
  rw [vertex_place_entity h hr, entityVertex_eq h hr]
  simp only [hnames, hfilter]
  rw [← List.map_take, mapM_readUuid]
  rfl

/-! ## Pieces -/

/-- The claims at an entity but one of them. -/
theorem length_others {r : LinkRow} (hr : r ∈ links) {ids : List UUID}
    (hids : ids.Perm (sharers links r.entityId)) :
    (ids.filter fun id => decide (id ≠ r.claimId)).length + 1 =
      degree links r.entityId.toString := by
  have hnodup := hids.nodup_iff.2 (nodup_sharers h r.entityId)
  have hmem := hids.mem_iff.2 (mem_sharers.2 ⟨r, hr, rfl, rfl⟩)
  have herase : (ids.filter fun id => decide (id ≠ r.claimId)) = ids.erase r.claimId := by
    rw [hnodup.erase_eq_filter]
    apply List.filter_congr
    intro id _
    by_cases heq : id = r.claimId <;> simp [heq]
  rw [herase, List.length_erase_add_one hmem, hids.length_eq, length_sharers]

/-- Another claim has the entity exactly when its degree is not one. -/
theorem exists_other_iff {r : LinkRow} (hr : r ∈ links) :
    (∃ k, k ≠ place links r.claimId ∧
      (k, place links r.entityId) ∈ (buildGraph weight links claimAttrs).edges) ↔
        2 ≤ degree links r.entityId.toString := by
  have hothers := length_others h hr (List.Perm.refl _)
  constructor
  · rintro ⟨k, hk, hedge⟩
    rcases mem_edges_iff.1 hedge with ⟨s, hs, rfl, hentity⟩
    have hmem : s.claimId ∈ (sharers links r.entityId).filter fun id =>
        decide (id ≠ r.claimId) := by
      rw [List.mem_filter, decide_eq_true_eq, ← (place_claim_eq_iff h hs hr).ne]
      exact ⟨mem_sharers.2 ⟨s, hs, rfl, (place_entity_eq_iff h hs hr).1 hentity⟩, hk⟩
    have hpos := List.length_pos_of_mem hmem
    omega
  · intro hdegree
    rcases List.exists_mem_of_length_pos (show 0 < ((sharers links r.entityId).filter fun id =>
      decide (id ≠ r.claimId)).length by omega) with ⟨id, hid⟩
    rw [List.mem_filter, decide_eq_true_eq] at hid
    rcases mem_sharers.1 hid.1 with ⟨s, hs, rfl, hentity⟩
    refine ⟨place links s.claimId, (place_claim_eq_iff h hs hr).not.2 hid.2, ?_⟩
    exact mem_edges_iff.2 ⟨s, hs, rfl, congrArg (place links) hentity⟩

/-- The evidence of an edge of a claim. -/
theorem exists_evidence_of_edge (hig : ig.FindsEdges) (weight : ℕ → F)
    (claimAttrs : List (String × F × LocalDate)) {eid : ℕ} {r : LinkRow}
    (hr : links[eid]? = some r) :
    ∃ item, entityEvidence ig (buildGraph weight links claimAttrs) r.claimId.toString
        ((buildGraph weight links claimAttrs).otherEnd (place links r.claimId) eid) = .ok item ∧
      item.Shows (buildGraph weight links claimAttrs) (place links r.claimId) eid ∧
      (item.mentions ≠ [] ↔ 2 ≤ degree links r.entityId.toString) := by
  have hmem := List.mem_of_getElem? hr
  have hedge : (buildGraph weight links claimAttrs).edges[eid]? =
      some (place links r.claimId, place links r.entityId) := by
    rw [edges_buildGraph, List.getElem?_map, hr, Option.map_some]
  have hend : (buildGraph weight links claimAttrs).otherEnd (place links r.claimId) eid =
      place links r.entityId := by
    unfold Graph.otherEnd
    rw [List.getD_eq_getElem?_getD, hedge]
    exact if_pos rfl
  rcases entityEvidence_of_row h weight claimAttrs hig hmem with
    ⟨ids, hperm, heq⟩
  have hlength := length_others h hmem hperm
  rw [hend]
  refine ⟨_, heq, ?_, ?_⟩
  · refine ⟨place links r.entityId, _, hedge, vertex_place_entity h hmem,
      ?_, ?_, ?_, ?_, ?_, ?_, ?_⟩
    · rw [entityVertex_eq h hmem]
      rfl
    · rw [entityVertex_eq h hmem]
      rfl
    · rfl
    · have hnodup := hperm.nodup_iff.2 (nodup_sharers h r.entityId)
      exact (hnodup.filter _).sublist (List.take_sublist _ _)
    · intro id hid
      have hid := List.mem_of_mem_take hid
      rw [List.mem_filter, decide_eq_true_eq] at hid
      rcases mem_sharers.1 (hperm.mem_iff.1 hid.1) with ⟨s, hs, rfl, hentity⟩
      refine ⟨place links s.claimId, _, ?_, (place_claim_eq_iff h hs hmem).not.2 hid.2,
        vertex_place_claim h hs, rfl⟩
      exact mem_edges_iff.2 ⟨s, hs, rfl, congrArg (place links) hentity⟩
    · rw [List.length_take]
      omega
    · exact List.length_take_le _ _
  · show List.take _ _ ≠ [] ↔ _
    rw [← List.length_pos_iff, List.length_take]
    unfold maxNeighborsPerEntity
    omega

/-- The edges at a claim are those of its rows. -/
theorem mem_incident_iff (hig : ig.FindsEdges) (weight : ℕ → F)
    (claimAttrs : List (String × F × LocalDate)) {r : LinkRow} (hr : r ∈ links) {eid : ℕ} :
    eid ∈ ig.incident (buildGraph weight links claimAttrs) (place links r.claimId) ↔
      ∃ s, links[eid]? = some s ∧ s.claimId = r.claimId := by
  rw [(hig.incident _ _ (simpleBipartite_buildGraph h)).mem_iff, List.mem_filter, List.mem_range,
    decide_eq_true_eq, edges_buildGraph, List.length_map, List.getD_eq_getElem?_getD,
    List.getElem?_map]
  constructor
  · rintro ⟨hlt, hends⟩
    have hget := List.getElem?_eq_getElem hlt
    have hs := List.getElem_mem hlt
    rw [hget, Option.map_some, Option.getD_some] at hends
    rcases hends with hclaim | hentity
    · exact ⟨_, hget, (place_claim_eq_iff h hs hr).1 hclaim⟩
    · exact absurd hentity.symm (place_claim_ne_entity h hr hs)
  · rintro ⟨s, hs, hclaim⟩
    refine ⟨(List.getElem?_eq_some_iff.1 hs).1, Or.inl ?_⟩
    rw [hs, ← hclaim]
    rfl

theorem nodup_incident (hig : ig.FindsEdges) (weight : ℕ → F)
    (claimAttrs : List (String × F × LocalDate)) (i : ℕ) :
    (ig.incident (buildGraph weight links claimAttrs) i).Nodup :=
  (hig.incident _ _ (simpleBipartite_buildGraph h)).nodup_iff.2 (List.nodup_range.filter _)

omit h in
theorem weight_of_row [Floats F] {eid : ℕ} {r : LinkRow} (hr : links[eid]? = some r) :
    (buildGraph weight links claimAttrs).weights.getD eid (ofRat 0) =
      weight (degree links r.entityId.toString) := by
  rw [weights_buildGraph, List.getD_eq_getElem?_getD, List.getElem?_map, hr]
  rfl

end

/-! ## The evidence -/

/-- The edges in the order of the evidence. -/
theorem pairwise_heaviest [Floats F] [RoundedFloats F] (w : ℕ → F) (eids : List ℕ) :
    (eids.insertionSort fun a b => le (w b) (w a) = true).Pairwise
      fun a b => value (w b) ≤ value (w a) := by
  have htotal : Std.Total fun a b : ℕ => le (w b) (w a) = true := by
    constructor
    intro a b
    rw [le_iff, le_iff]
    exact le_total _ _
  have htrans : IsTrans ℕ fun a b => le (w b) (w a) = true := by
    constructor
    intro a b c hab hbc
    rw [le_iff] at hab hbc ⊢
    exact hbc.trans hab
  exact (List.pairwise_insertionSort (fun a b => le (w b) (w a) = true) eids).imp
    (le_iff _ _).1

/-- The edges at the claim of a row, heaviest first, and a piece for each of the first five. -/
structure EvidenceOf (log : ℕ → Double) (links : List LinkRow)
    (claimAttrs : List (String × Double × LocalDate)) (r : LinkRow) (eids : List ℕ)
    (items : List (Evidence Double)) : Prop where
  nodup : eids.Nodup
  mem_iff : ∀ eid, eid ∈ eids ↔ ∃ s, links[eid]? = some s ∧ s.claimId = r.claimId
  sorted : eids.Pairwise fun a b =>
    value ((buildGraph (idfWeight log) links claimAttrs).weights.getD b (ofRat 0)) ≤
      value ((buildGraph (idfWeight log) links claimAttrs).weights.getD a (ofRat 0))
  shown : List.Forall₂ (fun eid item =>
    item.Shows (buildGraph (idfWeight log) links claimAttrs) (place links r.claimId) eid ∧
      ∃ s, links[eid]? = some s ∧ s.claimId = r.claimId ∧
        (item.mentions ≠ [] ↔ 2 ≤ degree links s.entityId.toString))
    (eids.take maxEvidenceEntities) items

theorem EvidenceOf.sound {log : ℕ → Double} {links : List LinkRow}
    {claimAttrs : List (String × Double × LocalDate)} {r : LinkRow} {eids : List ℕ}
    {items : List (Evidence Double)} (hevidence : EvidenceOf log links claimAttrs r eids items) :
    SoundEvidence (buildGraph (idfWeight log) links claimAttrs) (place links r.claimId) items := by
  refine ⟨eids.take maxEvidenceEntities, hevidence.shown.imp fun _ _ h => h.1,
    hevidence.nodup.sublist (List.take_sublist _ _), ?_,
    hevidence.sorted.sublist (List.take_sublist _ _)⟩
  rw [← hevidence.shown.length_eq]
  exact List.length_take_le _ _

section

variable {links : List LinkRow} (h : Rows links)
  (claimAttrs : List (String × Double × LocalDate)) {log : ℕ → Double} {ig : Igraph Double}
  (hig : ig.FindsEdges)

include h hig

theorem exists_evidence (log : ℕ → Double) {r : LinkRow} (hr : r ∈ links) :
    ∃ eids items, EvidenceOf log links claimAttrs r eids items ∧
      sharedEntityEvidence ig (buildGraph (idfWeight log) links claimAttrs)
        (place links r.claimId) r.claimId.toString = .ok items := by
  let w := fun eid => (buildGraph (idfWeight log) links claimAttrs).weights.getD eid (ofRat 0)
  let eids := (ig.incident (buildGraph (idfWeight log) links claimAttrs)
    (place links r.claimId)).insertionSort fun a b => le (w b) (w a) = true
  have hperm := List.perm_insertionSort (fun a b => le (w b) (w a) = true)
    (ig.incident (buildGraph (idfWeight log) links claimAttrs) (place links r.claimId))
  have hmem : ∀ eid, eid ∈ eids ↔ ∃ s, links[eid]? = some s ∧ s.claimId = r.claimId :=
    fun eid => hperm.mem_iff.trans (mem_incident_iff h hig _ _ hr)
  have hpieces : ∀ eid ∈ eids.take maxEvidenceEntities, ∃ item,
      entityEvidence ig (buildGraph (idfWeight log) links claimAttrs) r.claimId.toString
        ((buildGraph (idfWeight log) links claimAttrs).otherEnd (place links r.claimId) eid) =
          .ok item ∧
        item.Shows (buildGraph (idfWeight log) links claimAttrs) (place links r.claimId) eid ∧
          ∃ s, links[eid]? = some s ∧ s.claimId = r.claimId ∧
            (item.mentions ≠ [] ↔ 2 ≤ degree links s.entityId.toString) := by
    intro eid heid
    rcases (hmem eid).1 (List.mem_of_mem_take heid) with ⟨s, hs, hclaim⟩
    rcases exists_evidence_of_edge h hig (idfWeight log) claimAttrs hs with
      ⟨item, hitem, hshows, hmentions⟩
    rw [hclaim] at hitem hshows
    exact ⟨item, hitem, hshows, s, hs, hclaim, hmentions⟩
  rcases Results.exists_mapM_eq_ok hpieces with ⟨items, hitems, hforall⟩
  refine ⟨eids, items, ⟨hperm.nodup_iff.2 (nodup_incident h hig _ _ _), hmem,
    pairwise_heaviest w _, hforall⟩, ?_⟩
  have hlt : place links r.claimId <
      (buildGraph (idfWeight log) links claimAttrs).vertices.length :=
    (List.getElem?_eq_some_iff.1 (vertex_place_claim h hr)).1
  unfold sharedEntityEvidence
  rw [if_neg (not_le.2 hlt)]
  exact hitems

omit hig in
/-- A score of a claim shows the evidence of its vertex. -/
theorem filter_of_scores {r : LinkRow} {items : List (Evidence Double)}
    (hitems : sharedEntityEvidence ig (buildGraph (idfWeight log) links claimAttrs)
      (place links r.claimId) r.claimId.toString = .ok items) {score : ClaimScore Double}
    (hscore : (buildGraph (idfWeight log) links claimAttrs).Scores ig r.claimId.toString score) :
    score.explanation.evidence.filter Evidence.isShared = items := by
  have htaken : score.claimId = r.claimId ∧
      TakenFrom ig (buildGraph (idfWeight log) links claimAttrs) score := by
    cases hscore with
    | model built => exact takenFrom_of_buildModelScore built
    | rules built => exact takenFrom_of_buildScore built
  rcases htaken with ⟨hid, claimIndex, v, shared, hv, hname, hshared, hfilter⟩
  have hplace : claimIndex = place links r.claimId := by
    rw [((getElem?_vertices h).1 hv).2, hname, hid]
    rfl
  rw [hid, hplace, hitems, Except.ok.injEq] at hshared
  rw [hfilter, hshared]

omit h hig in
/-- The heaviest edge is that of an entity of one claim, when there is one. -/
theorem degree_head_lt (hlog : IsLog log) {head : ℕ} {eids : List ℕ}
    (hsorted : (head :: eids).Pairwise fun a b =>
      value ((buildGraph (idfWeight log) links claimAttrs).weights.getD b (ofRat 0)) ≤
        value ((buildGraph (idfWeight log) links claimAttrs).weights.getD a (ofRat 0)))
    {eid : ℕ} (heid : eid ∈ head :: eids) {r s : LinkRow} (hr : links[eid]? = some r)
    (hs : links[head]? = some s) (hdegree : degree links r.entityId.toString = 1) :
    degree links s.entityId.toString < 2 := by
  by_contra hshared
  have hlt := hlog.idfWeight_lt (not_lt.1 hshared)
  rcases List.mem_cons.1 heid with rfl | hmem
  · rw [hr, Option.some.injEq] at hs
    rw [← hs] at hshared
    omega
  · have hle := (List.pairwise_cons.1 hsorted).1 eid hmem
    rw [weight_of_row hr, weight_of_row hs, hdegree] at hle
    exact absurd hlt (not_lt.2 hle)

omit hig in
/-- When no piece is empty, each entity of the claim has another claim: otherwise the first edge
would be that of an entity of one claim. -/
theorem two_le_degree_of_nonempty (hlog : IsLog log) {r : LinkRow} {eids : List ℕ}
    {items : List (Evidence Double)} (hevidence : EvidenceOf log links claimAttrs r eids items)
    (hnonempty : ∀ item ∈ items, item.mentions ≠ []) {s : LinkRow} (hs : s ∈ links)
    (hclaim : s.claimId = r.claimId) : 2 ≤ degree links s.entityId.toString := by
  by_contra hdegree
  have halone := length_others h hs (List.Perm.refl _)
  have hone : degree links s.entityId.toString = 1 := by omega
  rcases List.mem_iff_getElem?.1 hs with ⟨eid, heid⟩
  have hmem := (hevidence.mem_iff eid).2 ⟨s, heid, hclaim⟩
  have hsorted := hevidence.sorted
  have hshown := hevidence.shown
  cases eids with
  | nil => cases hmem
  | cons head eids =>
      cases hshown with
      | cons hhead _ =>
          rcases hhead.2 with ⟨t, ht, -, hmentions⟩
          have hlt := degree_head_lt claimAttrs hlog hsorted hmem heid ht hone
          exact absurd (hmentions.1 (hnonempty _ List.mem_cons_self)) (not_le.2 hlt)

/-- The evidence of a claim is sound, whatever scores it. No piece is empty exactly when each
entity of the claim has another claim. -/
theorem sharedEvidence_nonempty_iff (hlog : IsLog log) {i : ℕ} {v : Vertex Double}
    (hv : (buildGraph (idfWeight log) links claimAttrs).vertices[i]? = some v)
    (hclaim : v.kind = .claim) :
    ∃ items, sharedEntityEvidence ig (buildGraph (idfWeight log) links claimAttrs) i v.name =
        .ok items ∧
      SoundEvidence (buildGraph (idfWeight log) links claimAttrs) i items ∧
      (∀ score, (buildGraph (idfWeight log) links claimAttrs).Scores ig v.name score →
        score.explanation.evidence.filter Evidence.isShared = items) ∧
      ((∀ item ∈ items, item.mentions ≠ []) ↔
        (buildGraph (idfWeight log) links claimAttrs).SharesEach i) := by
  rcases (getElem?_vertices h).1 hv with ⟨hmem, hi⟩
  obtain ⟨r, hr, rfl⟩ : ∃ r ∈ links, v = claimVertex claimAttrs r.claimId.toString := by
    rcases mem_vertices.1 hmem with hvertex | ⟨r, -, rfl⟩
    · exact hvertex
    · cases hclaim
  obtain rfl : i = place links r.claimId := hi
  rcases exists_evidence h claimAttrs hig log hr with ⟨eids, items, hevidence, hitems⟩
  refine ⟨items, hitems, hevidence.sound,
    fun score hscore => filter_of_scores h claimAttrs hitems hscore, ?_⟩
  constructor
  · intro hnonempty j hedge
    rcases mem_edges_iff.1 hedge with ⟨s, hs, hplace, rfl⟩
    rw [← hplace, exists_other_iff h hs]
    exact two_le_degree_of_nonempty h claimAttrs hlog hevidence hnonempty hs
      ((place_claim_eq_iff h hs hr).1 hplace)
  · intro hshares item hitem
    rcases Results.exists_of_forall₂ hevidence.shown hitem with
      ⟨eid, -, -, s, hs, hsclaim, hmentions⟩
    have hs := List.mem_of_getElem? hs
    apply hmentions.2
    rw [← exists_other_iff h hs, hsclaim]
    apply hshares
    exact mem_edges_iff.2 ⟨s, hs, congrArg (place links) hsclaim, rfl⟩

end

namespace Sample

/-- The logarithm up to four. -/
def log (n : ℕ) : Double :=
  ofRat (if n = 2 then 6931471805599453 / 10 ^ 16 else if n = 3 then 10986122886681098 / 10 ^ 16
    else 13862943611198906 / 10 ^ 16)

/-- Two claims with one phone; the second has an address of its own. -/
def phonePair : List LinkRow :=
  [⟨⟨1⟩, ⟨3⟩, .phone, "+919876500011"⟩, ⟨⟨2⟩, ⟨3⟩, .phone, "+919876500011"⟩,
    ⟨⟨2⟩, ⟨4⟩, .address, "lane mg road"⟩]

/-- Their amounts and dates. -/
def amounts : List (String × Double × LocalDate) :=
  [(UUID.toString ⟨1⟩, ofRat 40000, ⟨20000⟩), (UUID.toString ⟨2⟩, ofRat 52000, ⟨20003⟩)]

theorem isLog_log : IsLog log := by
  refine ⟨by decide +kernel, by decide +kernel, ?_⟩
  intro n hn
  unfold log
  rw [if_neg (show n ≠ 2 by omega)]
  by_cases hthree : n = 3
  · rw [if_pos hthree]
    decide +kernel
  · rw [if_neg hthree]
    decide +kernel

theorem findsEdges_ig [Floats F] : (ig : Igraph F).FindsEdges :=
  ⟨fun _ _ _ => List.Perm.refl _, fun _ _ _ => List.Perm.refl _⟩

theorem rows_phonePair : Rows phonePair :=
  ⟨by decide, by decide, by decide⟩

end Sample

theorem sharedEvidence_nonempty_iff_phonePair :
    ∃ items, sharedEntityEvidence Sample.ig
        (buildGraph (idfWeight Sample.log) Sample.phonePair Sample.amounts)
        (place Sample.phonePair ⟨1⟩) (UUID.toString ⟨1⟩) = .ok items ∧
      (∀ item ∈ items, item.mentions ≠ []) := by
  have hmem : (⟨⟨1⟩, ⟨3⟩, .phone, "+919876500011"⟩ : LinkRow) ∈ Sample.phonePair :=
    List.mem_cons_self
  rcases sharedEvidence_nonempty_iff Sample.rows_phonePair Sample.amounts Sample.findsEdges_ig
    Sample.isLog_log (vertex_place_claim Sample.rows_phonePair hmem) rfl with
    ⟨items, hitems, -, -, hnonempty⟩
  refine ⟨items, hitems, hnonempty.2 ?_⟩
  -- the phone is the only entity of the first claim, and the second claim has it too
  intro j hedge
  rcases mem_edges_iff.1 hedge with ⟨s, hs, hplace, rfl⟩
  rw [← hplace, exists_other_iff Sample.rows_phonePair hs, ← length_sharers]
  have htwo : ∀ s ∈ Sample.phonePair, s.claimId = ⟨1⟩ →
      2 ≤ (sharers Sample.phonePair s.entityId).length := by decide
  exact htwo s hs ((place_claim_eq_iff Sample.rows_phonePair hs hmem).1 hplace)

/-- A claim with a phone of its own. -/
def Sample.lonePhone : List LinkRow := [⟨⟨1⟩, ⟨3⟩, .phone, "+919876500011"⟩]

/-- The graph of that claim. -/
def Sample.loneGraph : Graph Double :=
  buildGraph (idfWeight Sample.log) Sample.lonePhone [(UUID.toString ⟨1⟩, ofRat 40000, ⟨20000⟩)]

/-- The phone of a claim that shares nothing is shown as evidence, with no other claim. -/
theorem lone_phone_shown :
    Rows Sample.lonePhone ∧
      Sample.loneGraph.vertices.map (fun v => (v.name, v.kind)) =
        [(UUID.toString ⟨1⟩, .claim), (UUID.toString ⟨3⟩, .entity)] ∧
      sharedEntityEvidence Sample.ig Sample.loneGraph 0 (UUID.toString ⟨1⟩) =
        .ok [.sharedEntity "PHONE" "+9*********11" 1 []] :=
  ⟨⟨by decide, by decide, by decide⟩, rfl, rfl⟩

end ClaimGuard
