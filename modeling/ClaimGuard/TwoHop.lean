import ClaimGuard.RareRings
import ClaimGuard.SharedEvidence

/-!
# Two hops and components

Claims that are two hops away are in one component with the claim, once the graph is pruned:
the feature rows skip an entity by its stored degree and the first rung by its degree in the
graph, and for a graph that is built the two are the same.
-/

namespace ClaimGuard

open Floats

variable {F : Type}

/-! ## Degrees -/

/-- The stored degree of every entity is its degree. -/
def Graph.RawDegrees (g : Graph F) : Prop :=
  ∀ e v, g.vertices[e]? = some v → v.kind = .entity → v.degreeRaw = some (g.degreeAt e)

section

variable {links : List LinkRow} (h : Rows links) (idfWeight : ℕ → F)
  (claimAttrs : List (String × F × LocalDate))

include h

/-- A graph that is built is a claim graph. -/
theorem claimGraph_buildGraph : (buildGraph idfWeight links claimAttrs).ClaimGraph where
  toSimpleBipartite := simpleBipartite_buildGraph h
  typed := by
    intro v hv hentity
    rcases mem_vertices.1 hv with ⟨r, -, rfl⟩ | ⟨r, hr, rfl⟩
    · cases hentity
    · rw [entityVertex_eq h hr]
      simp
  weighted := by simp [buildGraph]

/-- The edges at an entity are the links to it. -/
theorem degreeAt_place_entity {r : LinkRow} (hr : r ∈ links) :
    (buildGraph idfWeight links claimAttrs).degreeAt (place links r.entityId) =
      degree links r.entityId.toString := by
  have hfirst : ((buildGraph idfWeight links claimAttrs).edges.map Prod.fst).count
      (place links r.entityId) = 0 := by
    rw [List.count_eq_zero, edges_buildGraph, List.map_map]
    intro hmem
    rcases List.mem_map.1 hmem with ⟨s, hs, hplace⟩
    exact place_claim_ne_entity h hs hr hplace
  have hsecond : ((buildGraph idfWeight links claimAttrs).edges.map Prod.snd).count
      (place links r.entityId) = (sharers links r.entityId).length := by
    unfold sharers
    rw [edges_buildGraph, List.map_map, List.count, List.countP_map, List.length_map,
      ← List.countP_eq_length_filter]
    apply List.countP_congr
    intro s hs
    rw [decide_eq_true_eq, ← place_entity_eq_iff h hs hr]
    exact beq_iff_eq
  unfold Graph.degreeAt
  rw [hfirst, hsecond, Nat.zero_add, length_sharers]

theorem rawDegrees_buildGraph : (buildGraph idfWeight links claimAttrs).RawDegrees := by
  intro e v hv hentity
  rcases (getElem?_vertices h).1 hv with ⟨hmem, rfl⟩
  rcases mem_vertices.1 hmem with ⟨r, -, rfl⟩ | ⟨r, hr, rfl⟩
  · cases hentity
  · have hdegree := degreeAt_place_entity h idfWeight claimAttrs hr
    unfold place at hdegree
    rw [entityVertex_eq h hr, hdegree]

end

/-! ## The claims two hops away -/

/-- `two_hop_claims` of a claim at a vertex. -/
def twoHopOf (ig : Igraph F) (g : Graph F) (claimId : String) (claimIndex : ℕ) : List String :=
  twoHopClaims ig g claimId ((ig.incident g claimIndex).map (g.otherEnd claimIndex))

section

variable {ig : Igraph F} {g : Graph F} {i e : ℕ}

/-- The other ends of the edges at a claim are its entities. -/
theorem edge_of_mem_incident (hedges : ig.FindsEdges) (hg : g.ClaimGraph) (hi : g.IsClaim i)
    (he : e ∈ (ig.incident g i).map (g.otherEnd i)) : (i, e) ∈ g.edges := by
  rcases List.mem_map.1 he with ⟨eid, heid, rfl⟩
  rw [(hedges.incident g i hg.toSimpleBipartite).mem_iff, List.mem_filter, List.mem_range,
    decide_eq_true_eq] at heid
  rcases heid with ⟨hlt, hends⟩
  have hmem := List.getElem_mem hlt
  have hget : g.edges.getD eid (0, 0) = g.edges[eid] := by
    rw [List.getD_eq_getElem?_getD, List.getElem?_eq_getElem hlt, Option.getD_some]
  rw [hget] at hends
  unfold Graph.otherEnd
  simp only [hget]
  rcases hends with hfirst | hsecond
  · rw [if_pos hfirst, ← hfirst]
    exact hmem
  · -- the second end of an edge is an entity
    exact absurd (hsecond ▸ hi) (Graph.not_isClaim_of_edge hg hmem)

theorem edge_of_mem_neighbors (hedges : ig.FindsEdges) (hg : g.ClaimGraph) {k : ℕ}
    (he : ¬ g.IsClaim e) (hk : k ∈ ig.neighbors g e) : (k, e) ∈ g.edges := by
  rw [(hedges.neighbors g e hg.toSimpleBipartite).mem_iff] at hk
  rcases List.mem_map.1 hk with ⟨⟨a, b⟩, hmem, hend⟩
  rw [List.mem_filter, decide_eq_true_eq] at hmem
  rcases hmem with ⟨hedge, hends⟩
  have hne : a ≠ e := by
    intro heq
    exact he (heq ▸ Graph.isClaim_of_edge hg hedge)
  simp only [hne, if_false, false_or] at hend hends
  rw [← hend, ← hends]
  exact hedge

theorem mem_twoHopClaims {claimId name : String} {entityIndices : List ℕ} :
    name ∈ twoHopClaims ig g claimId entityIndices ↔ name ≠ claimId ∧
      ∃ e ∈ entityIndices, ∃ entity, g.vertices[e]? = some entity ∧
        entity.degreeRaw.getD 0 ≤ degreeThreshold defaultDegreeThresholds entity.entityType ∧
        name ∈ g.claimMembers (ig.neighbors g e) := by
  unfold twoHopClaims
  rw [List.mem_filter, List.mem_dedup, List.mem_flatMap, decide_eq_true_eq, and_comm]
  refine and_congr_right fun _ => exists_congr fun e => and_congr_right fun _ => ?_
  cases hentity : g.vertices[e]? with
  | none => simp
  | some entity =>
      by_cases hhub : degreeThreshold defaultDegreeThresholds entity.entityType <
          entity.degreeRaw.getD 0
      · simp [hhub]
      · simp [hhub, not_lt.1 hhub]

/-- A claim that is counted is another claim at an entity that is not pruned. -/
theorem exists_reaches_of_twoHop (hedges : ig.FindsEdges) (hg : g.ClaimGraph)
    (hraw : g.RawDegrees) (hi : g.IsClaim i) {claimId name : String}
    (hname : name ∈ twoHopOf ig g claimId i) :
    name ≠ claimId ∧ ∃ j w, g.vertices[j]? = some w ∧ w.kind = .claim ∧ w.name = name ∧
      g.Reaches i j := by
  rcases mem_twoHopClaims.1 hname with ⟨hne, e, he, entity, hentity, hrare, hmember⟩
  have hedge := edge_of_mem_incident hedges hg hi he
  rcases hg.sides i e hedge with ⟨-, v, -, hv, -, hkind⟩
  obtain rfl : entity = v := Option.some.inj (hentity.symm.trans hv)
  have hkept : e ∈ g.kept (g.highDegree defaultDegreeThresholds) := by
    refine Graph.mem_kept.2 ⟨Graph.lt_of_getElem? hv, ?_⟩
    intro hmem
    rcases Graph.mem_highDegree.1 hmem with ⟨u, hu, -, hlt⟩
    obtain rfl : entity = u := Option.some.inj (hv.symm.trans hu)
    -- the stored degree is the degree
    rw [hraw e entity hv hkind, Option.getD_some] at hrare
    omega
  rcases Graph.mem_claimMembers.1 hmember with ⟨j, hj, w, hw, hclaim, hwname⟩
  have hback := edge_of_mem_neighbors hedges hg (Graph.not_isClaim_of_edge hg hedge) hj
  exact ⟨hne, j, w, hw, hclaim, hwname, Graph.reaches_of_common hg hkept hedge hback⟩

end

theorem nodup_twoHopOf (ig : Igraph F) (g : Graph F) (claimId : String) (claimIndex : ℕ) :
    (twoHopOf ig g claimId claimIndex).Nodup := (List.nodup_dedup _).filter _

/-! ## Rings and their sizes -/

/-- The component size of a claim, of the analytics that the rows share. -/
def componentSizeOf (ctx : FeatureContext F) (claimId : String) : ℕ :=
  ((Dict.get ctx.componentOf claimId).map fun componentId =>
    (Dict.get ctx.componentSize componentId).getD 1).getD 1

section

variable [Floats F] {ig : Igraph F} {g : Graph F}

/-- The two features of the row. -/
theorem get_twoHopClaimCount (ctx : FeatureContext F) (claimId : String) (claimIndex : ℕ) :
    Dict.get (graphFeatures ig ctx claimId claimIndex) "two_hop_claim_count" =
      some (ofRat (twoHopOf ig ctx.g claimId claimIndex).length) := rfl

theorem get_componentSize (ctx : FeatureContext F) (claimId : String) (claimIndex : ℕ) :
    Dict.get (graphFeatures ig ctx claimId claimIndex) "component_size" =
      some (ofRat (componentSizeOf ctx claimId)) := rfl

/-- A claim of no ring has the default size. -/
theorem componentSizeOf_of_not_inRing {claimId : String}
    (hnone : ¬ ∃ ring, InRing ig g claimId ring) :
    componentSizeOf (buildFeatureContext ig g) claimId = 1 := by
  have hget : Dict.get (buildFeatureContext ig g).componentOf claimId = none := by
    apply Dict.get_eq_none_iff.2
    intro hkey
    rcases List.mem_map.1 hkey with ⟨item, hitem, rfl⟩
    exact hnone ⟨item.2, hitem⟩
  unfold componentSizeOf
  rw [hget]
  rfl

/-- The size of a claim of a ring is the number of claims of the ring. -/
theorem componentSizeOf_of_inRing (hcomponents : ig.FindsComponents) (hg : g.ClaimGraph)
    {claimId ring : String} (hring : InRing ig g claimId ring) :
    componentSizeOf (buildFeatureContext ig g) claimId =
      ((rung1Components ig g defaultDegreeThresholds defaultMinRingSize).map Prod.snd).count
        ring := by
  have hpruned := hg.deleteVertices (g.highDegree defaultDegreeThresholds)
  have hkeys : ((rung1Components ig g defaultDegreeThresholds defaultMinRingSize).map
      Prod.fst).Nodup :=
    nodup_keys_rung1Components hg.names (hcomponents.perm _ hpruned.inRange)
  have hget : Dict.get (buildFeatureContext ig g).componentOf claimId = some ring :=
    (Dict.get_eq_some_iff hkeys).2 hring
  have hsize : Dict.get (buildFeatureContext ig g).componentSize ring =
      some (((rung1Components ig g defaultDegreeThresholds defaultMinRingSize).map
        Prod.snd).count ring) := by
    apply Dict.get_eq_some_of_mem
    · exact List.mem_map.2 ⟨ring, List.mem_dedup.2 (List.mem_map_of_mem hring), rfl⟩
    · intro size hmem
      rcases List.mem_map.1 hmem with ⟨ring', -, heq⟩
      rcases Prod.mk.inj heq with ⟨rfl, rfl⟩
      rfl
  unfold componentSizeOf
  rw [hget, Option.map_some, hsize]
  rfl

end

/-- Different names of one ring are counted in its size. -/
theorem length_le_count_ring {items : List (String × String)} {names : List String} {ring : String}
    (hnodup : names.Nodup) (h : ∀ name ∈ names, (name, ring) ∈ items) :
    names.length ≤ (items.map Prod.snd).count ring := by
  have hsubset : names.map (fun name => (name, ring)) ⊆ items := by
    intro item hitem
    rcases List.mem_map.1 hitem with ⟨name, hname, rfl⟩
    exact h name hname
  have hpairs : (names.map fun name => (name, ring)).Nodup :=
    hnodup.map fun a b hab => (Prod.mk.inj hab).1
  rcases List.subperm_of_subset hpairs hsubset with ⟨sub, hperm, hsub⟩
  have hcount := (hsub.map Prod.snd).count_le ring
  have hrings : (names.map fun name => (name, ring)).map Prod.snd =
      List.replicate names.length ring := by
    rw [List.map_map, List.eq_replicate_iff, List.length_map]
    refine ⟨rfl, ?_⟩
    intro x hx
    rcases List.mem_map.1 hx with ⟨name, -, rfl⟩
    rfl
  rwa [(hperm.map Prod.snd).count_eq, hrings, List.count_replicate_self] at hcount

/-! ## The two features together -/

section

variable {ig : Igraph F} {g : Graph F} (hedges : ig.FindsEdges)
  (hcomponents : ig.FindsComponents) (hg : g.ClaimGraph) (hraw : g.RawDegrees) {i : ℕ}
  {v : Vertex F} (hv : g.vertices[i]? = some v) (hclaim : v.kind = .claim)

include hedges hcomponents hg hraw hv hclaim

/-- Two claims two hops away make a ring. -/
theorem exists_inRing_of_twoHop (htwo : 2 ≤ (twoHopOf ig g v.name i).length) :
    ∃ ring, InRing ig g v.name ring := by
  have hi : g.IsClaim i := ⟨v, hv, hclaim⟩
  rw [exists_inRing_iff hcomponents hg hv hclaim]
  have hfinite : {j | g.IsClaim j ∧ g.Reaches i j}.Finite := by
    apply (Set.finite_lt_nat g.vertices.length).subset
    intro j hj
    exact hj.1.lt
  have hnodup := nodup_twoHopOf ig g v.name i
  rcases List.length_eq_two.1 (by simpa using htwo :
    ((twoHopOf ig g v.name i).take 2).length = 2) with ⟨a, b, hab⟩
  have hmem : ∀ name ∈ [a, b], name ∈ twoHopOf ig g v.name i :=
    fun name hname => List.mem_of_mem_take (hab ▸ hname)
  have hne : a ≠ b := by
    have htake := hnodup.sublist (List.take_sublist 2 _)
    rw [hab] at htake
    simpa using htake
  rcases exists_reaches_of_twoHop hedges hg hraw hi (hmem a (by simp)) with
    ⟨hav, j, w, hj, hjclaim, rfl, hreachj⟩
  rcases exists_reaches_of_twoHop hedges hg hraw hi (hmem b (by simp)) with
    ⟨hbv, k, u, hk, hkclaim, rfl, hreachk⟩
  -- different names are at different vertices
  have hdiffer : ∀ {p q : ℕ} {x y : Vertex F}, g.vertices[p]? = some x → g.vertices[q]? = some y →
      x.name ≠ y.name → p ≠ q := by
    intro p q x y hx hy hxy heq
    rw [heq, hy, Option.some.injEq] at hx
    exact hxy (congrArg Vertex.name hx.symm)
  apply (Set.two_lt_ncard_iff hfinite).2
  exact ⟨i, j, k, ⟨hi, .refl⟩, ⟨⟨w, hj, hjclaim⟩, hreachj⟩, ⟨⟨u, hk, hkclaim⟩, hreachk⟩,
    hdiffer hv hj hav.symm, hdiffer hv hk hbv.symm, hdiffer hj hk hne⟩

/-- A claim that is counted is in the component of the claim. -/
theorem mem_component_of_twoHop {component : List ℕ}
    (hmem : component ∈ ig.connectedComponents (pruneHighDegreeEntities g defaultDegreeThresholds))
    (hin : v.name ∈ (pruneHighDegreeEntities g defaultDegreeThresholds).claimMembers component)
    {name : String} (hname : name ∈ twoHopOf ig g v.name i) :
    name ∈ (pruneHighDegreeEntities g defaultDegreeThresholds).claimMembers component := by
  have hi : g.IsClaim i := ⟨v, hv, hclaim⟩
  rcases exists_reaches_of_twoHop hedges hg hraw hi hname with
    ⟨-, j, w, hj, hjclaim, rfl, hreaches⟩
  have hjc : g.IsClaim j := ⟨w, hj, hjclaim⟩
  have hpruned := (hg.deleteVertices (g.highDegree defaultDegreeThresholds)).inRange
  have hkept := hjc.mem_kept (Graph.not_isClaim_of_mem_highDegree defaultDegreeThresholds)
  have hlt := ((Graph.isClaim_position hkept).2 hjc).lt
  rw [mem_claimMembers_component hcomponents hg hmem hv hclaim] at hin
  rw [mem_claimMembers_component hcomponents hg hmem hj hjclaim]
  apply (hcomponents.connected _ hpruned component hmem _ hin _ hlt).2
  exact (Graph.connected_position_iff hg hi hjc).2 hreaches

/-- So it is in the ring of the claim. -/
theorem inRing_of_twoHop {ring name : String} (hring : InRing ig g v.name ring)
    (hname : name ∈ twoHopOf ig g v.name i) : InRing ig g name ring := by
  unfold InRing at hring ⊢
  rw [rung1Components_eq, mem_partItems] at hring ⊢
  rcases hring with ⟨k, component, hk, hsize, hin, hring⟩
  refine ⟨k, component, hk, hsize, ?_, hring⟩
  exact mem_component_of_twoHop hedges hcomponents hg hraw hv hclaim (List.mem_of_getElem? hk) hin
    hname

/-- The ring has the claim and all that are counted. -/
theorem length_twoHopOf_lt [Floats F] {ring : String} (hring : InRing ig g v.name ring) :
    (twoHopOf ig g v.name i).length + 1 ≤
      componentSizeOf (buildFeatureContext ig g) v.name := by
  have hi : g.IsClaim i := ⟨v, hv, hclaim⟩
  rw [componentSizeOf_of_inRing hcomponents hg hring, ← List.length_cons (a := v.name)]
  apply length_le_count_ring
  · refine List.nodup_cons.2 ⟨?_, nodup_twoHopOf ig g v.name i⟩
    intro hself
    exact (exists_reaches_of_twoHop hedges hg hraw hi hself).1 rfl
  · intro name hname
    rcases List.mem_cons.1 hname with rfl | hname
    · exact hring
    · exact inRing_of_twoHop hedges hcomponents hg hraw hv hclaim hring hname

end

/-- In a graph that is built, the claims that a row counts two hops away are in the component
of its claim, once the graph is pruned. So two of them make a ring, which the component size
counts with them; and a claim with the default size has at most one. -/
theorem twoHop_agrees_with_components [Floats F] {ig : Igraph F} (hedges : ig.FindsEdges)
    (hcomponents : ig.FindsComponents) {links : List LinkRow} (h : Rows links) (idfWeight : ℕ → F)
    (claimAttrs : List (String × F × LocalDate)) {i : ℕ} {v : Vertex F}
    (hv : (buildGraph idfWeight links claimAttrs).vertices[i]? = some v)
    (hclaim : v.kind = .claim) :
    let g := buildGraph idfWeight links claimAttrs
    let row := graphFeatures ig (buildFeatureContext ig g) v.name i
    let twoHop := twoHopOf ig g v.name i
    let size := componentSizeOf (buildFeatureContext ig g) v.name
    let pruned := pruneHighDegreeEntities g defaultDegreeThresholds
    Dict.get row "two_hop_claim_count" = some (ofRat twoHop.length) ∧
      Dict.get row "component_size" = some (ofRat size) ∧
      (∃ component ∈ ig.connectedComponents pruned, v.name ∈ pruned.claimMembers component ∧
        ∀ name ∈ twoHop, name ∈ pruned.claimMembers component) ∧
      (2 ≤ twoHop.length → (∃ ring, InRing ig g v.name ring) ∧ twoHop.length + 1 ≤ size) ∧
      ((¬ ∃ ring, InRing ig g v.name ring) → size = 1) ∧
      (size = 1 → twoHop.length ≤ 1) := by
  have hg := claimGraph_buildGraph h idfWeight claimAttrs
  have hraw := rawDegrees_buildGraph h idfWeight claimAttrs
  have hlarge : 2 ≤ (twoHopOf ig (buildGraph idfWeight links claimAttrs) v.name i).length →
      (∃ ring, InRing ig (buildGraph idfWeight links claimAttrs) v.name ring) ∧
        (twoHopOf ig (buildGraph idfWeight links claimAttrs) v.name i).length + 1 ≤
          componentSizeOf (buildFeatureContext ig (buildGraph idfWeight links claimAttrs))
            v.name := by
    intro htwo
    rcases exists_inRing_of_twoHop hedges hcomponents hg hraw hv hclaim htwo with ⟨ring, hring⟩
    exact ⟨⟨ring, hring⟩, length_twoHopOf_lt hedges hcomponents hg hraw hv hclaim hring⟩
  refine ⟨get_twoHopClaimCount _ _ _, get_componentSize _ _ _, ?_, hlarge,
    componentSizeOf_of_not_inRing, ?_⟩
  · rcases exists_mem_component hcomponents hg ⟨v, hv, hclaim⟩ with ⟨component, hmem, hin⟩
    have hname := (mem_claimMembers_component hcomponents hg hmem hv hclaim).2 hin
    refine ⟨component, hmem, hname, ?_⟩
    intro name htwo
    exact mem_component_of_twoHop hedges hcomponents hg hraw hv hclaim hmem hname htwo
  · intro hone
    by_contra hmany
    have hsize := (hlarge (by omega)).2
    omega

/-! ## A sample -/

namespace Sample

/-- Three claims with one phone. -/
def phoneTrio : List LinkRow :=
  [⟨⟨1⟩, ⟨9⟩, .phone, "+919876500011"⟩, ⟨⟨2⟩, ⟨9⟩, .phone, "+919876500011"⟩,
    ⟨⟨3⟩, ⟨9⟩, .phone, "+919876500011"⟩]

/-- The graph of these claims. -/
def trioGraph : Graph Exact := buildGraph (fun _ => ⟨1⟩) phoneTrio []

theorem rows_phoneTrio : Rows phoneTrio := ⟨by decide, by decide, by decide⟩

theorem findsEdges_componentsIg [Floats F] : (componentsIg : Igraph F).FindsEdges :=
  ⟨fun _ _ _ => .refl _, fun _ _ _ => .refl _⟩

end Sample

/-- The first claim has two claims two hops away, and so a ring of three. -/
theorem twoHop_trio :
    (twoHopOf Sample.componentsIg Sample.trioGraph (UUID.toString ⟨1⟩) 0).length = 2 ∧
      (∃ ring, InRing Sample.componentsIg Sample.trioGraph (UUID.toString ⟨1⟩) ring) ∧
      3 ≤ componentSizeOf (buildFeatureContext Sample.componentsIg Sample.trioGraph)
        (UUID.toString ⟨1⟩) := by
  have htwo : (twoHopOf Sample.componentsIg Sample.trioGraph (UUID.toString ⟨1⟩) 0).length = 2 := by
    decide
  have hagrees := (twoHop_agrees_with_components Sample.findsEdges_componentsIg
    Sample.findsComponents_componentsIg Sample.rows_phoneTrio (fun _ => (⟨1⟩ : Sample.Exact)) []
    (i := 0) (v := claimVertex [] (UUID.toString ⟨1⟩)) rfl rfl).2.2.2.1
  have hring := hagrees htwo.ge
  refine ⟨htwo, hring.1, ?_⟩
  have hsize := hring.2
  have hsize' : (twoHopOf Sample.componentsIg Sample.trioGraph (UUID.toString ⟨1⟩) 0).length + 1 ≤
      componentSizeOf (buildFeatureContext Sample.componentsIg Sample.trioGraph)
        (UUID.toString ⟨1⟩) := hsize
  omega

end ClaimGuard
