import Mathlib.Data.Set.Card
import Mathlib.Logic.Relation
import ClaimGuard.Rungs

/-!
# Rings through rare phones and shops

The first rung on a claim graph: a ring is a class of at least three claims that reach one
another through phones and shops of degree at most fifty. An address that is not pruned is
at one claim only, and leads nowhere.
-/

namespace ClaimGuard

variable {F : Type}

namespace Graph

/-- The vertices are the ends of an edge. -/
def Joined (g : Graph F) (i j : ℕ) : Prop := (i, j) ∈ g.edges ∨ (j, i) ∈ g.edges

/-- There is a path between the vertices. -/
def Connected (g : Graph F) : ℕ → ℕ → Prop := Relation.ReflTransGen g.Joined

/-- Every edge is between vertices. -/
def InRange (g : Graph F) : Prop :=
  ∀ e ∈ g.edges, e.1 < g.vertices.length ∧ e.2 < g.vertices.length

/-- A phone or a shop of degree at most fifty. -/
def RareEntity (g : Graph F) (e : ℕ) : Prop :=
  ∃ v, g.vertices[e]? = some v ∧ v.kind = .entity ∧
    (v.entityType = some .phone ∨ v.entityType = some .shop) ∧ g.degreeAt e ≤ 50

/-- The claims share a rare phone or shop. -/
def SharesRare (g : Graph F) (i j : ℕ) : Prop :=
  ∃ e, g.RareEntity e ∧ (i, e) ∈ g.edges ∧ (j, e) ∈ g.edges

/-- There is a path between the claims whose entities are rare phones and shops. -/
def Reaches (g : Graph F) : ℕ → ℕ → Prop := Relation.ReflTransGen g.SharesRare

/-- The addresses of the graph. -/
def addresses (g : Graph F) : List ℕ :=
  (g.vertices.zipIdx.filter fun v =>
    decide (v.1.kind = .entity) && decide (v.1.entityType = some .address)).map Prod.snd

end Graph

/-- The components are those of the graph: each vertex is in one, once, with the vertices it
is connected to. -/
structure Igraph.FindsComponents (ig : Igraph F) : Prop where
  perm : ∀ g : Graph F, g.InRange →
    (ig.connectedComponents g).flatten.Perm (List.range g.vertices.length)
  connected : ∀ g : Graph F, g.InRange → ∀ component ∈ ig.connectedComponents g,
    ∀ i ∈ component, ∀ j < g.vertices.length, j ∈ component ↔ g.Connected i j

/-! ## What is pruned -/

namespace Graph

variable {g : Graph F} {i j e : ℕ}

theorem ClaimGraph.inRange (hg : g.ClaimGraph) : g.InRange := by
  intro e he
  rcases hg.sides e.1 e.2 he with ⟨u, v, hu, hv, -, -⟩
  exact ⟨lt_of_getElem? hu, lt_of_getElem? hv⟩

theorem isClaim_of_edge (hg : g.ClaimGraph) (h : (i, e) ∈ g.edges) : g.IsClaim i := by
  rcases hg.sides i e h with ⟨u, v, hu, -, hclaim, -⟩
  exact ⟨u, hu, hclaim⟩

theorem not_isClaim_of_edge (hg : g.ClaimGraph) (h : (i, e) ∈ g.edges) : ¬ g.IsClaim e := by
  rcases hg.sides i e h with ⟨u, v, -, hv, -, hentity⟩
  exact not_isClaim_of_entity hv hentity

/-- The vertices that `_prune_high_degree_entities` deletes. -/
def highDegree (g : Graph F) (degreeThresholds : List (EntityType × ℕ)) : List ℕ :=
  (g.vertices.zipIdx.filter fun v => decide (v.1.kind = .entity) &&
    decide (degreeThreshold degreeThresholds v.1.entityType < g.degreeAt v.2)).map Prod.snd

theorem mem_highDegree {degreeThresholds : List (EntityType × ℕ)} :
    i ∈ g.highDegree degreeThresholds ↔ ∃ v, g.vertices[i]? = some v ∧ v.kind = .entity ∧
      degreeThreshold degreeThresholds v.entityType < g.degreeAt i := by
  unfold highDegree
  simp only [mem_places, Bool.and_eq_true, decide_eq_true_eq]

theorem mem_addresses : i ∈ g.addresses ↔ ∃ v, g.vertices[i]? = some v ∧ v.kind = .entity ∧
    v.entityType = some .address := by
  unfold addresses
  simp only [mem_places, Bool.and_eq_true, decide_eq_true_eq]

/-- A claim is never pruned. -/
theorem IsClaim.mem_kept (h : g.IsClaim i) {deleted : List ℕ}
    (hdeleted : ∀ i ∈ deleted, ¬ g.IsClaim i) : i ∈ g.kept deleted :=
  Graph.mem_kept.2 ⟨h.lt, fun hmem => hdeleted i hmem h⟩

theorem not_isClaim_of_mem_highDegree (degreeThresholds : List (EntityType × ℕ)) :
    ∀ i ∈ g.highDegree degreeThresholds, ¬ g.IsClaim i := by
  intro i hi
  rcases mem_highDegree.1 hi with ⟨v, hv, hentity, -⟩
  exact not_isClaim_of_entity hv hentity

/-- An entity that two claims are at has degree two. -/
theorem two_le_degreeAt {c d : ℕ} (hne : c ≠ d) (hc : (c, e) ∈ g.edges) (hd : (d, e) ∈ g.edges) :
    2 ≤ g.degreeAt e := by
  have hnodup : [(c, e), (d, e)].Nodup := by simpa using hne
  have hsubset : [(c, e), (d, e)] ⊆ g.edges := by
    intro x hx
    rcases List.mem_cons.1 hx with rfl | hx
    · exact hc
    · exact List.mem_singleton.1 hx ▸ hd
  have hcount := (List.subperm_of_subset hnodup hsubset).countP_le fun x => x.2 == e
  have htwo : [(c, e), (d, e)].countP (fun x => x.2 == e) = 2 := by simp
  have hdegree : (g.edges.map Prod.snd).count e = g.edges.countP fun x => x.2 == e := by
    rw [List.count, List.countP_map]
    rfl
  unfold degreeAt
  omega

/-- The claims at an entity that is not pruned reach each other. -/
theorem reaches_of_common (hg : g.ClaimGraph) {c d : ℕ}
    (hkept : e ∈ g.kept (g.highDegree defaultDegreeThresholds)) (hc : (c, e) ∈ g.edges)
    (hd : (d, e) ∈ g.edges) : g.Reaches c d := by
  by_cases hne : c = d
  · rw [hne]
    exact .refl
  · have htwo := two_le_degreeAt hne hc hd
    rcases hg.sides c e hc with ⟨-, v, -, hv, -, hentity⟩
    have hle : g.degreeAt e ≤ degreeThreshold defaultDegreeThresholds v.entityType := by
      rw [← not_lt]
      intro hlt
      exact (mem_kept.1 hkept).2 (mem_highDegree.2 ⟨v, hv, hentity, hlt⟩)
    apply Relation.ReflTransGen.single
    cases htype : v.entityType with
    | none => exact absurd htype (hg.typed v (List.mem_of_getElem? hv) hentity)
    | some entityType =>
        rw [htype] at hle
        cases entityType with
        | phone => exact ⟨e, ⟨v, hv, hentity, Or.inl htype, hle⟩, hc, hd⟩
        | shop => exact ⟨e, ⟨v, hv, hentity, Or.inr htype, hle⟩, hc, hd⟩
        | address =>
            -- an address with two claims is pruned
            have hone : g.degreeAt e ≤ 1 := hle
            omega

/-! ## Paths -/

/-- A vertex that a claim is connected to once the graph is pruned: a claim it reaches, or an
entity at such a claim. -/
theorem reaches_of_connected (hg : g.ClaimGraph) (hi : g.IsClaim i) {k : ℕ}
    (h : (pruneHighDegreeEntities g defaultDegreeThresholds).Connected
      (g.position (g.highDegree defaultDegreeThresholds) i) k) :
    ∃ j ∈ g.kept (g.highDegree defaultDegreeThresholds),
      g.position (g.highDegree defaultDegreeThresholds) j = k ∧
        (g.IsClaim j ∧ g.Reaches i j ∨
          ¬ g.IsClaim j ∧ ∃ c, (c, j) ∈ g.edges ∧ g.Reaches i c) := by
  induction h with
  | refl =>
      exact ⟨i, hi.mem_kept (not_isClaim_of_mem_highDegree _), rfl, Or.inl ⟨hi, .refl⟩⟩
  | tail _ hjoined ih =>
      rcases ih with ⟨j, hj, rfl, hcase⟩
      rcases hjoined with hedge | hedge
      · rcases (mem_edges_deleteVertices hg.weighted).1 hedge with ⟨a, b, ha, hb, hpa, rfl, hmem⟩
        obtain rfl := position_inj ha hpa
        refine ⟨b, hb, rfl, Or.inr ⟨not_isClaim_of_edge hg hmem, a, hmem, ?_⟩⟩
        rcases hcase with ⟨-, hreaches⟩ | ⟨hentity, -⟩
        · exact hreaches
        · exact absurd (isClaim_of_edge hg hmem) hentity
      · rcases (mem_edges_deleteVertices hg.weighted).1 hedge with ⟨a, b, ha, hb, rfl, hpb, hmem⟩
        obtain rfl := position_inj hb hpb
        refine ⟨a, ha, rfl, Or.inl ⟨isClaim_of_edge hg hmem, ?_⟩⟩
        rcases hcase with ⟨hclaim, -⟩ | ⟨-, c, hc, hreaches⟩
        · exact absurd hclaim (not_isClaim_of_edge hg hmem)
        · exact hreaches.trans (reaches_of_common hg hb hc hmem)

/-- Claims are connected in the pruned graph just where they reach each other. -/
theorem connected_position_iff (hg : g.ClaimGraph) (hi : g.IsClaim i) (hj : g.IsClaim j) :
    (pruneHighDegreeEntities g defaultDegreeThresholds).Connected
      (g.position (g.highDegree defaultDegreeThresholds) i)
      (g.position (g.highDegree defaultDegreeThresholds) j) ↔ g.Reaches i j := by
  constructor
  · intro h
    rcases reaches_of_connected hg hi h with ⟨j', hj', hpos, hcase⟩
    obtain rfl := position_inj hj' hpos
    rcases hcase with ⟨-, hreaches⟩ | ⟨hentity, -⟩
    · exact hreaches
    · exact absurd hj hentity
  · intro h
    clear hj
    induction h with
    | refl => exact .refl
    | tail _ hshares ih =>
        rcases hshares with ⟨e, ⟨v, hv, hentity, htype, hdegree⟩, hc, hd⟩
        have hkept : e ∈ g.kept (g.highDegree defaultDegreeThresholds) := by
          refine mem_kept.2 ⟨lt_of_getElem? hv, ?_⟩
          intro hmem
          rcases mem_highDegree.1 hmem with ⟨w, hw, -, hlt⟩
          rw [hv, Option.some.injEq] at hw
          have hfifty : degreeThreshold defaultDegreeThresholds w.entityType = 50 := by
            rw [← hw]
            rcases htype with htype | htype <;> rw [htype] <;> rfl
          omega
        have hedge : ∀ {c : ℕ}, (c, e) ∈ g.edges →
            (g.position (g.highDegree defaultDegreeThresholds) c,
              g.position (g.highDegree defaultDegreeThresholds) e) ∈
              (pruneHighDegreeEntities g defaultDegreeThresholds).edges := fun hmem =>
          (mem_edges_position hg.weighted ((isClaim_of_edge hg hmem).mem_kept
            (not_isClaim_of_mem_highDegree _)) hkept).2 hmem
        exact (ih.tail (Or.inl (hedge hc))).tail (Or.inr (hedge hd))

/-! ## The claims of a component -/

/-- Each claim among the members counts once. -/
theorem length_claimMembers {members : List ℕ} (hnodup : members.Nodup) :
    (g.claimMembers members).length = {i | i ∈ members ∧ g.IsClaim i}.ncard := by
  induction members with
  | nil => simp [claimMembers]
  | cons i members ih =>
      obtain ⟨hi, hnodup⟩ := List.nodup_cons.1 hnodup
      have hcons : g.claimMembers (i :: members) =
          g.claimMembers [i] ++ g.claimMembers members := by
        rw [claimMembers, ← List.singleton_append, List.filterMap_append, List.filterMap_append]
        rfl
      have hfinite : {k | k ∈ members ∧ g.IsClaim k}.Finite :=
        members.finite_toSet.subset fun k hk => hk.1
      rw [hcons, List.length_append, ih hnodup]
      by_cases hclaim : g.IsClaim i
      · have hone : (g.claimMembers [i]).length = 1 := by
          rcases hclaim with ⟨v, hv, hkind⟩
          simp [claimMembers, hv, hkind]
        have hset : {k | k ∈ i :: members ∧ g.IsClaim k} =
            insert i {k | k ∈ members ∧ g.IsClaim k} := by
          ext k
          simp only [List.mem_cons, Set.mem_ofPred_eq, Set.mem_insert_iff]
          constructor
          · rintro ⟨rfl | hk, hkclaim⟩
            · exact Or.inl rfl
            · exact Or.inr ⟨hk, hkclaim⟩
          · rintro (rfl | ⟨hk, hkclaim⟩)
            · exact ⟨Or.inl rfl, hclaim⟩
            · exact ⟨Or.inr hk, hkclaim⟩
        rw [hone, hset, Set.ncard_insert_of_notMem (fun h => hi h.1) hfinite]
        omega
      · have hzero : g.claimMembers [i] = [] := by
          rw [List.eq_nil_iff_forall_not_mem]
          intro name hname
          rcases mem_claimMembers.1 hname with ⟨k, hk, v, hv, hkind, -⟩
          exact hclaim ⟨v, List.mem_singleton.1 hk ▸ hv, hkind⟩
        have hset : {k | k ∈ i :: members ∧ g.IsClaim k} =
            {k | k ∈ members ∧ g.IsClaim k} := by
          ext k
          simp only [List.mem_cons, Set.mem_ofPred_eq]
          constructor
          · rintro ⟨rfl | hk, hkclaim⟩
            · exact absurd hkclaim hclaim
            · exact ⟨hk, hkclaim⟩
          · rintro ⟨hk, hkclaim⟩
            exact ⟨Or.inr hk, hkclaim⟩
        rw [hzero, hset, List.length_nil, Nat.zero_add]

end Graph

/-! ## Rings -/

section

variable {ig : Igraph F} {g : Graph F}

/-- The claim is in the ring, as the first rung finds rings by default. -/
def InRing (ig : Igraph F) (g : Graph F) (name ring : String) : Prop :=
  (name, ring) ∈ rung1Components ig g defaultDegreeThresholds defaultMinRingSize

theorem eq_of_name_eq (hg : g.ClaimGraph) {i j : ℕ} {u v : Vertex F}
    (hu : g.vertices[i]? = some u) (hv : g.vertices[j]? = some v) (hname : u.name = v.name) :
    i = j := by
  have hlt : i < (g.vertices.map Vertex.name).length := by
    rw [List.length_map]
    exact Graph.lt_of_getElem? hu
  apply (List.getElem?_inj hlt hg.names).1
  rw [List.getElem?_map, List.getElem?_map, hu, hv, Option.map_some, Option.map_some, hname]

section

variable (hig : ig.FindsComponents) (hg : g.ClaimGraph) {i : ℕ} {component : List ℕ}
  (hmem : component ∈ ig.connectedComponents (pruneHighDegreeEntities g defaultDegreeThresholds))

include hig hg hmem

theorem lt_of_mem_component {a : ℕ} (ha : a ∈ component) :
    a < (pruneHighDegreeEntities g defaultDegreeThresholds).vertices.length := by
  have hpruned := hg.deleteVertices (g.highDegree defaultDegreeThresholds)
  exact List.mem_range.1 ((hig.perm _ hpruned.inRange).subset (List.mem_flatten_of_mem hmem ha))

theorem mem_claimMembers_component {v : Vertex F} (hv : g.vertices[i]? = some v)
    (hclaim : v.kind = .claim) :
    v.name ∈ (pruneHighDegreeEntities g defaultDegreeThresholds).claimMembers component ↔
      g.position (g.highDegree defaultDegreeThresholds) i ∈ component := by
  have hi : g.IsClaim i := ⟨v, hv, hclaim⟩
  have hkept := hi.mem_kept (Graph.not_isClaim_of_mem_highDegree defaultDegreeThresholds)
  rw [Graph.mem_claimMembers]
  constructor
  · rintro ⟨a, ha, w, hw, -, heq⟩
    rcases Graph.exists_position (lt_of_mem_component hig hg hmem ha) with ⟨j, hj, rfl⟩
    have hw' := (Graph.getElem?_position hj).symm.trans hw
    rwa [eq_of_name_eq hg hv hw' heq.symm]
  · intro ha
    exact ⟨_, ha, v, (Graph.getElem?_position hkept).trans hv, hclaim, rfl⟩

/-- The claims of a component are at the positions of those that a claim of it reaches. -/
theorem length_claimMembers_component (hi : g.IsClaim i)
    (ha : g.position (g.highDegree defaultDegreeThresholds) i ∈ component) :
    ((pruneHighDegreeEntities g defaultDegreeThresholds).claimMembers component).length =
      {j | g.IsClaim j ∧ g.Reaches i j}.ncard := by
  have hpruned := hg.deleteVertices (g.highDegree defaultDegreeThresholds)
  have hkept : ∀ {j}, g.IsClaim j → j ∈ g.kept (g.highDegree defaultDegreeThresholds) :=
    fun hj => hj.mem_kept (Graph.not_isClaim_of_mem_highDegree _)
  have hnodup : component.Nodup := by
    have hflat := (hig.perm _ hpruned.inRange).nodup_iff.2 List.nodup_range
    exact (List.nodup_flatten.1 hflat).1 component hmem
  have himage : {a | a ∈ component ∧
        (pruneHighDegreeEntities g defaultDegreeThresholds).IsClaim a} =
      g.position (g.highDegree defaultDegreeThresholds) ''
        {j | g.IsClaim j ∧ g.Reaches i j} := by
    ext a
    simp only [Set.mem_ofPred_eq, Set.mem_image]
    constructor
    · rintro ⟨hacomp, haclaim⟩
      have hlt := lt_of_mem_component hig hg hmem hacomp
      rcases Graph.exists_position hlt with ⟨j, hj, rfl⟩
      have hjclaim := (Graph.isClaim_position hj).1 haclaim
      refine ⟨j, ⟨hjclaim, ?_⟩, rfl⟩
      rw [← Graph.connected_position_iff hg hi hjclaim]
      exact (hig.connected _ hpruned.inRange component hmem _ ha _ hlt).1 hacomp
    · rintro ⟨j, ⟨hjclaim, hreaches⟩, rfl⟩
      have hjpruned := (Graph.isClaim_position (hkept hjclaim)).2 hjclaim
      refine ⟨?_, hjpruned⟩
      rw [hig.connected _ hpruned.inRange component hmem _ ha _ hjpruned.lt]
      exact (Graph.connected_position_iff hg hi hjclaim).2 hreaches
  rw [Graph.length_claimMembers hnodup, himage]
  apply Set.InjOn.ncard_image
  intro a ha b hb heq
  exact Graph.position_inj (hkept ha.1) heq

end

/-- A claim is in the ring of its component, if enough claims reach it. -/
theorem inRing_iff (hig : ig.FindsComponents) (hg : g.ClaimGraph) {i : ℕ} {v : Vertex F}
    (hv : g.vertices[i]? = some v) (hclaim : v.kind = .claim) {ring : String} :
    InRing ig g v.name ring ↔ ∃ (k : ℕ) (component : List ℕ),
      (ig.connectedComponents (pruneHighDegreeEntities g defaultDegreeThresholds))[k]? =
          some component ∧
        g.position (g.highDegree defaultDegreeThresholds) i ∈ component ∧
        3 ≤ {j | g.IsClaim j ∧ g.Reaches i j}.ncard ∧ ring = ringOf (component, k) := by
  have hi : g.IsClaim i := ⟨v, hv, hclaim⟩
  unfold InRing
  rw [rung1Components_eq, mem_partItems]
  refine exists_congr fun k => exists_congr fun component => ?_
  refine and_congr_right fun hcomponent => ?_
  have hmem := List.mem_of_getElem? hcomponent
  have hsize := length_claimMembers_component hig hg hmem hi
  rw [mem_claimMembers_component hig hg hmem hv hclaim]
  constructor
  · rintro ⟨hthree, ha, hring⟩
    exact ⟨ha, hsize ha ▸ hthree, hring⟩
  · rintro ⟨ha, hthree, hring⟩
    exact ⟨(hsize ha).symm ▸ hthree, ha, hring⟩

/-- Every claim is in a component of the pruned graph. -/
theorem exists_mem_component (hig : ig.FindsComponents) (hg : g.ClaimGraph) {i : ℕ}
    (hi : g.IsClaim i) :
    ∃ component ∈ ig.connectedComponents (pruneHighDegreeEntities g defaultDegreeThresholds),
      g.position (g.highDegree defaultDegreeThresholds) i ∈ component := by
  have hpruned : (pruneHighDegreeEntities g defaultDegreeThresholds).InRange :=
    (hg.deleteVertices (g.highDegree defaultDegreeThresholds)).inRange
  have hkept := hi.mem_kept (Graph.not_isClaim_of_mem_highDegree defaultDegreeThresholds)
  have hlt := ((Graph.isClaim_position hkept).2 hi).lt
  rcases List.mem_flatten.1 ((hig.perm _ hpruned).symm.subset (List.mem_range.2 hlt)) with
    ⟨component, hcomponent, hmem⟩
  exact ⟨component, hcomponent, hmem⟩

/-- A claim is in a ring just where at least three claims reach it. -/
theorem exists_inRing_iff (hig : ig.FindsComponents) (hg : g.ClaimGraph) {i : ℕ} {v : Vertex F}
    (hv : g.vertices[i]? = some v) (hclaim : v.kind = .claim) :
    (∃ ring, InRing ig g v.name ring) ↔ 3 ≤ {j | g.IsClaim j ∧ g.Reaches i j}.ncard := by
  constructor
  · rintro ⟨ring, hring⟩
    rcases (inRing_iff hig hg hv hclaim).1 hring with ⟨k, component, -, -, hthree, -⟩
    exact hthree
  · intro hthree
    rcases exists_mem_component hig hg ⟨v, hv, hclaim⟩ with ⟨component, hcomponent, hmem⟩
    rcases List.getElem?_of_mem hcomponent with ⟨k, hk⟩
    exact ⟨_, (inRing_iff hig hg hv hclaim).2 ⟨k, component, hk, hmem, hthree, rfl⟩⟩

/-- Two claims in rings are in the same just where they reach each other. -/
theorem inRing_eq_iff (hig : ig.FindsComponents) (hg : g.ClaimGraph) {i j : ℕ} {u v : Vertex F}
    (hu : g.vertices[i]? = some u) (hv : g.vertices[j]? = some v) (huclaim : u.kind = .claim)
    (hvclaim : v.kind = .claim) {ring ring' : String} (hring : InRing ig g u.name ring)
    (hring' : InRing ig g v.name ring') : ring = ring' ↔ g.Reaches i j := by
  have hpruned : (pruneHighDegreeEntities g defaultDegreeThresholds).InRange :=
    (hg.deleteVertices (g.highDegree defaultDegreeThresholds)).inRange
  have hi : g.IsClaim i := ⟨u, hu, huclaim⟩
  have hj : g.IsClaim j := ⟨v, hv, hvclaim⟩
  rcases (inRing_iff hig hg hu huclaim).1 hring with ⟨k, component, hk, hmem, -, rfl⟩
  rcases (inRing_iff hig hg hv hvclaim).1 hring' with ⟨l, component', hl, hmem', -, rfl⟩
  rw [← Graph.connected_position_iff hg hi hj]
  have hkept := hj.mem_kept (Graph.not_isClaim_of_mem_highDegree defaultDegreeThresholds)
  have hjlt := ((Graph.isClaim_position hkept).2 hj).lt
  rw [← hig.connected _ hpruned component (List.mem_of_getElem? hk) _ hmem _ hjlt]
  constructor
  · intro heq
    rw [ringOf_injective heq, hl, Option.some.injEq] at hk
    rwa [← hk]
  · intro hmem''
    -- a vertex is in one component only
    have hflat := (hig.perm _ hpruned).nodup_iff.2 List.nodup_range
    rw [index_unique_of_nodup_flatten hflat hk hl hmem'' hmem']
    rfl

end

/-! ## Without the addresses -/

namespace Graph

variable {g : Graph F} {deleted : List ℕ} {i j e : ℕ}

/-- An entity keeps its degree as long as no claim is deleted. -/
theorem degreeAt_position (hg : g.ClaimGraph) (hdeleted : ∀ i ∈ deleted, ¬ g.IsClaim i)
    (he : e ∈ g.kept deleted) (hentity : ¬ g.IsClaim e) :
    (g.deleteVertices deleted).degreeAt (g.position deleted e) = g.degreeAt e := by
  have hfirst : ∀ {h : Graph F} {k : ℕ}, (∀ x ∈ h.edges, x.1 ≠ k) →
      h.degreeAt k = h.edges.countP fun x => x.2 == k := by
    intro h k hk
    have hzero : (h.edges.map Prod.fst).count k = 0 := by
      rw [List.count_eq_zero]
      intro hmem
      rcases List.mem_map.1 hmem with ⟨x, hx, heq⟩
      exact hk x hx heq
    unfold degreeAt
    rw [hzero, Nat.zero_add, List.count, List.countP_map]
    rfl
  have hg' := hg.deleteVertices deleted
  rw [hfirst, hfirst, edges_deleteVertices hg.weighted, List.countP_map, List.countP_filter]
  · apply List.countP_congr
    intro x hx
    simp only [Bool.and_eq_true, List.contains_iff_mem, Function.comp_apply, beq_iff_eq]
    constructor
    · rintro ⟨hpos, -, hx₂⟩
      exact position_inj hx₂ hpos
    · rintro rfl
      exact ⟨rfl, (isClaim_of_edge hg hx).mem_kept hdeleted, he⟩
  · intro x hx heq
    exact hentity (heq ▸ isClaim_of_edge hg hx)
  · intro x hx heq
    have hclaim := isClaim_of_edge hg' hx
    rw [heq, isClaim_position he] at hclaim
    exact hentity hclaim

theorem not_isClaim_of_mem_addresses : ∀ i ∈ g.addresses, ¬ g.IsClaim i := by
  intro i hi
  rcases mem_addresses.1 hi with ⟨v, hv, hentity, -⟩
  exact not_isClaim_of_entity hv hentity

theorem rareEntity_position (hg : g.ClaimGraph) (he : e ∈ g.kept g.addresses) :
    (g.deleteVertices g.addresses).RareEntity (g.position g.addresses e) ↔ g.RareEntity e := by
  unfold RareEntity
  rw [getElem?_position he]
  refine exists_congr fun v => and_congr_right fun hv => and_congr_right fun hentity => ?_
  have hclaim := not_isClaim_of_entity hv hentity
  rw [degreeAt_position hg not_isClaim_of_mem_addresses he hclaim]

/-- A rare phone or shop is no address. -/
theorem RareEntity.mem_kept (h : g.RareEntity e) : e ∈ g.kept g.addresses := by
  rcases h with ⟨v, hv, -, htype, -⟩
  refine Graph.mem_kept.2 ⟨lt_of_getElem? hv, ?_⟩
  intro hmem
  rcases mem_addresses.1 hmem with ⟨w, hw, -, haddress⟩
  rw [hv, Option.some.injEq] at hw
  rw [hw, haddress] at htype
  rcases htype with htype | htype
  all_goals exact absurd htype (by decide)

theorem sharesRare_position (hg : g.ClaimGraph) (hi : g.IsClaim i) (hj : g.IsClaim j) :
    (g.deleteVertices g.addresses).SharesRare (g.position g.addresses i)
      (g.position g.addresses j) ↔ g.SharesRare i j := by
  have hi' := hi.mem_kept not_isClaim_of_mem_addresses
  have hj' := hj.mem_kept not_isClaim_of_mem_addresses
  constructor
  · rintro ⟨k, hrare, hik, hjk⟩
    rcases exists_position ((hg.deleteVertices g.addresses).inRange _ hik).2 with ⟨e, he, rfl⟩
    exact ⟨e, (rareEntity_position hg he).1 hrare, (mem_edges_position hg.weighted hi' he).1 hik,
      (mem_edges_position hg.weighted hj' he).1 hjk⟩
  · rintro ⟨e, hrare, hie, hje⟩
    have he := hrare.mem_kept
    exact ⟨_, (rareEntity_position hg he).2 hrare, (mem_edges_position hg.weighted hi' he).2 hie,
      (mem_edges_position hg.weighted hj' he).2 hje⟩

/-- What a claim reaches without the addresses is what it reaches. -/
theorem reaches_position (hg : g.ClaimGraph) (hi : g.IsClaim i) {k : ℕ} :
    (g.deleteVertices g.addresses).Reaches (g.position g.addresses i) k ↔
      ∃ j, g.IsClaim j ∧ g.position g.addresses j = k ∧ g.Reaches i j := by
  constructor
  · intro h
    induction h with
    | refl => exact ⟨i, hi, rfl, .refl⟩
    | @tail _ c _ hshares ih =>
        rcases ih with ⟨j, hj, rfl, hreaches⟩
        have hclaim : (g.deleteVertices g.addresses).IsClaim c := by
          rcases hshares with ⟨e, -, -, hedge⟩
          exact isClaim_of_edge (hg.deleteVertices g.addresses) hedge
        rcases exists_position hclaim.lt with ⟨l, hl, rfl⟩
        have hlclaim := (isClaim_position hl).1 hclaim
        exact ⟨l, hlclaim, rfl, hreaches.tail ((sharesRare_position hg hj hlclaim).1 hshares)⟩
  · rintro ⟨j, hj, rfl, hreaches⟩
    induction hreaches with
    | refl => exact .refl
    | @tail c _ _ hshares ih =>
        have hmid : g.IsClaim c := by
          rcases hshares with ⟨e, -, hedge, -⟩
          exact isClaim_of_edge hg hedge
        exact (ih hmid).tail ((sharesRare_position hg hmid hj).2 hshares)

end Graph

section

variable {ig : Igraph F} {g : Graph F}

/-- As many claims are reached without the addresses. -/
theorem ncard_reaches_position (hg : g.ClaimGraph) {i : ℕ} (hi : g.IsClaim i) :
    {k | (g.deleteVertices g.addresses).IsClaim k ∧
        (g.deleteVertices g.addresses).Reaches (g.position g.addresses i) k}.ncard =
      {j | g.IsClaim j ∧ g.Reaches i j}.ncard := by
  have hkept : ∀ {j}, g.IsClaim j → j ∈ g.kept g.addresses :=
    fun hj => hj.mem_kept Graph.not_isClaim_of_mem_addresses
  have himage : {k | (g.deleteVertices g.addresses).IsClaim k ∧
        (g.deleteVertices g.addresses).Reaches (g.position g.addresses i) k} =
      g.position g.addresses '' {j | g.IsClaim j ∧ g.Reaches i j} := by
    ext k
    simp only [Set.mem_ofPred_eq, Set.mem_image, Graph.reaches_position hg hi]
    constructor
    · rintro ⟨-, j, hj, hpos, hreaches⟩
      exact ⟨j, ⟨hj, hreaches⟩, hpos⟩
    · rintro ⟨j, ⟨hj, hreaches⟩, rfl⟩
      exact ⟨(Graph.isClaim_position (hkept hj)).2 hj, j, hj, rfl, hreaches⟩
  rw [himage]
  apply Set.InjOn.ncard_image
  intro a ha b hb heq
  exact Graph.position_inj (hkept ha.1) heq

/-- The first rung is connectivity through rare phones and shops: a claim is in a ring just
where at least three claims reach it, two claims in rings are in the same just where they reach
each other, and the addresses have no part in it. -/
theorem rung1_rare_rings (hig : ig.FindsComponents) (hg : g.ClaimGraph) {i j : ℕ}
    {u v : Vertex F} (hu : g.vertices[i]? = some u) (hv : g.vertices[j]? = some v)
    (huclaim : u.kind = .claim) (hvclaim : v.kind = .claim) :
    ((∃ ring, InRing ig g u.name ring) ↔ 3 ≤ {k | g.IsClaim k ∧ g.Reaches i k}.ncard) ∧
    (∀ ring ring', InRing ig g u.name ring → InRing ig g v.name ring' →
      (ring = ring' ↔ g.Reaches i j)) ∧
    ((∃ ring, InRing ig (g.deleteVertices g.addresses) u.name ring) ↔
      ∃ ring, InRing ig g u.name ring) ∧
    ((∃ ring, InRing ig (g.deleteVertices g.addresses) u.name ring ∧
        InRing ig (g.deleteVertices g.addresses) v.name ring) ↔
      ∃ ring, InRing ig g u.name ring ∧ InRing ig g v.name ring) := by
  have hg' := hg.deleteVertices g.addresses
  have hi : g.IsClaim i := ⟨u, hu, huclaim⟩
  have hj : g.IsClaim j := ⟨v, hv, hvclaim⟩
  have hkept : ∀ {j}, g.IsClaim j → j ∈ g.kept g.addresses :=
    fun hj => hj.mem_kept Graph.not_isClaim_of_mem_addresses
  have hu' := (Graph.getElem?_position (hkept hi)).trans hu
  have hv' := (Graph.getElem?_position (hkept hj)).trans hv
  have hsame : ∀ {i : ℕ} {u : Vertex F}, g.vertices[i]? = some u → u.kind = .claim →
      ((∃ ring, InRing ig (g.deleteVertices g.addresses) u.name ring) ↔
        ∃ ring, InRing ig g u.name ring) := by
    intro i u hu huclaim
    have hi : g.IsClaim i := ⟨u, hu, huclaim⟩
    rw [exists_inRing_iff hig hg' ((Graph.getElem?_position (hkept hi)).trans hu) huclaim,
      ncard_reaches_position hg hi, exists_inRing_iff hig hg hu huclaim]
  have hreaches : (g.deleteVertices g.addresses).Reaches (g.position g.addresses i)
      (g.position g.addresses j) ↔ g.Reaches i j := by
    rw [Graph.reaches_position hg hi]
    constructor
    · rintro ⟨k, hk, hpos, hreaches⟩
      rwa [← Graph.position_inj (hkept hk) hpos]
    · intro hreaches
      exact ⟨j, hj, rfl, hreaches⟩
  refine ⟨exists_inRing_iff hig hg hu huclaim,
    fun ring ring' => inRing_eq_iff hig hg hu hv huclaim hvclaim, hsame hu huclaim, ?_⟩
  constructor
  · rintro ⟨ring, hring, hring'⟩
    rcases (hsame hu huclaim).1 ⟨ring, hring⟩ with ⟨r, hr⟩
    rcases (hsame hv hvclaim).1 ⟨ring, hring'⟩ with ⟨r', hr'⟩
    have hreach := hreaches.1 ((inRing_eq_iff hig hg' hu' hv' huclaim hvclaim hring hring').1 rfl)
    rw [← (inRing_eq_iff hig hg hu hv huclaim hvclaim hr hr').2 hreach] at hr'
    exact ⟨r, hr, hr'⟩
  · rintro ⟨ring, hring, hring'⟩
    rcases (hsame hu huclaim).2 ⟨ring, hring⟩ with ⟨r, hr⟩
    rcases (hsame hv hvclaim).2 ⟨ring, hring'⟩ with ⟨r', hr'⟩
    have hreach := hreaches.2 ((inRing_eq_iff hig hg hu hv huclaim hvclaim hring hring').1 rfl)
    rw [← (inRing_eq_iff hig hg' hu' hv' huclaim hvclaim hr hr').2 hreach] at hr'
    exact ⟨r, hr, hr'⟩

end

/-! ## A sample ring -/

namespace Sample

open Classical in
/-- The classes of connected vertices. -/
noncomputable def components (g : Graph F) : List (List ℕ) :=
  ((List.range g.vertices.length).map fun i =>
    (List.range g.vertices.length).filter fun j => decide (g.Connected i j)).dedup

/-- A graph library that finds them. -/
noncomputable def componentsIg [Floats F] : Igraph F :=
  { ig with connectedComponents := components }

theorem connected_symm {g : Graph F} {i j : ℕ} (h : g.Connected i j) : g.Connected j i := by
  induction h with
  | refl => exact .refl
  | tail _ hjoined ih => exact .head hjoined.symm ih

theorem mem_components_iff {g : Graph F} {component : List ℕ} (h : component ∈ components g)
    {i : ℕ} (hi : i ∈ component) (j : ℕ) :
    j ∈ component ↔ j < g.vertices.length ∧ g.Connected i j := by
  rcases List.mem_map.1 (List.mem_dedup.1 h) with ⟨k, -, rfl⟩
  simp only [List.mem_filter, List.mem_range, decide_eq_true_eq] at hi ⊢
  refine and_congr_right fun _ => ⟨fun h => (connected_symm hi.2).trans h, hi.2.trans⟩

/-- Each vertex is in one class, once. -/
theorem perm_components (g : Graph F) :
    (components g).flatten.Perm (List.range g.vertices.length) := by
  have hnodup : ∀ component ∈ components g, component.Nodup := by
    intro component hcomponent
    rcases List.mem_map.1 (List.mem_dedup.1 hcomponent) with ⟨k, -, rfl⟩
    exact List.nodup_range.filter _
  have hflat : (components g).flatten.Nodup := by
    refine List.nodup_flatten.2 ⟨hnodup, ?_⟩
    refine (List.nodup_dedup _).imp_of_mem ?_
    intro c d hc hd hne
    -- classes that meet are the same list
    rcases List.mem_map.1 (List.mem_dedup.1 hc) with ⟨k, -, rfl⟩
    rcases List.mem_map.1 (List.mem_dedup.1 hd) with ⟨l, -, rfl⟩
    rw [List.disjoint_left]
    intro a hk hl
    simp only [List.mem_filter, List.mem_range, decide_eq_true_eq] at hk hl
    have hkl := hk.2.trans (connected_symm hl.2)
    apply hne
    apply List.filter_congr
    intro b _
    exact decide_eq_decide.2 ⟨(connected_symm hkl).trans, hkl.trans⟩
  refine (List.perm_ext_iff_of_nodup hflat List.nodup_range).2 fun i => ?_
  rw [List.mem_flatten]
  constructor
  · rintro ⟨component, hcomponent, hi⟩
    exact List.mem_range.2 ((mem_components_iff hcomponent hi i).1 hi).1
  · intro hi
    refine ⟨_, List.mem_dedup.2 (List.mem_map_of_mem hi), ?_⟩
    simp only [List.mem_filter, decide_eq_true_eq]
    exact ⟨hi, .refl⟩

theorem findsComponents_componentsIg [Floats F] :
    (componentsIg : Igraph F).FindsComponents where
  perm g _ := perm_components g
  connected := by
    intro g _ component hcomponent i hi j hj
    rw [mem_components_iff hcomponent hi j]
    exact and_iff_right hj

/-- Three claims with one phone, and a claim that shares an address with one of them. -/
def ringGraph : Graph Exact where
  vertices :=
    [⟨"c1", .claim, none, none, none, none, none⟩, ⟨"c2", .claim, none, none, none, none, none⟩,
      ⟨"c3", .claim, none, none, none, none, none⟩, ⟨"c4", .claim, none, none, none, none, none⟩,
      ⟨"phone", .entity, some .phone, none, none, none, none⟩,
      ⟨"address", .entity, some .address, none, none, none, none⟩]
  edges := [(0, 4), (1, 4), (2, 4), (2, 5), (3, 5)]
  weights := [⟨1⟩, ⟨1⟩, ⟨1⟩, ⟨1⟩, ⟨1⟩]

theorem claimGraph_ringGraph : ringGraph.ClaimGraph where
  names := by decide
  edges := by decide
  sides := by
    have hall : ∀ e ∈ ringGraph.edges, (ringGraph.vertices[e.1]?).map Vertex.kind = some .claim ∧
        (ringGraph.vertices[e.2]?).map Vertex.kind = some .entity := by decide
    intro i j hij
    rcases Option.map_eq_some_iff.1 (hall _ hij).1 with ⟨u, hu, hclaim⟩
    rcases Option.map_eq_some_iff.1 (hall _ hij).2 with ⟨v, hv, hentity⟩
    exact ⟨u, v, hu, hv, hclaim, hentity⟩
  typed := by decide
  weighted := by decide

end Sample

/-- The first two claims of the sample. -/
theorem rung1_rare_rings_sample :
    ((∃ ring, InRing Sample.componentsIg Sample.ringGraph "c1" ring) ↔
      3 ≤ {k | Sample.ringGraph.IsClaim k ∧ Sample.ringGraph.Reaches 0 k}.ncard) ∧
    (∀ ring ring', InRing Sample.componentsIg Sample.ringGraph "c1" ring →
      InRing Sample.componentsIg Sample.ringGraph "c2" ring' →
      (ring = ring' ↔ Sample.ringGraph.Reaches 0 1)) ∧
    ((∃ ring, InRing Sample.componentsIg
        (Sample.ringGraph.deleteVertices Sample.ringGraph.addresses) "c1" ring) ↔
      ∃ ring, InRing Sample.componentsIg Sample.ringGraph "c1" ring) ∧
    ((∃ ring, InRing Sample.componentsIg
          (Sample.ringGraph.deleteVertices Sample.ringGraph.addresses) "c1" ring ∧
        InRing Sample.componentsIg
          (Sample.ringGraph.deleteVertices Sample.ringGraph.addresses) "c2" ring) ↔
      ∃ ring, InRing Sample.componentsIg Sample.ringGraph "c1" ring ∧
        InRing Sample.componentsIg Sample.ringGraph "c2" ring) :=
  rung1_rare_rings Sample.findsComponents_componentsIg Sample.claimGraph_ringGraph
    (i := 0) (j := 1) (u := ⟨"c1", .claim, none, none, none, none, none⟩)
    (v := ⟨"c2", .claim, none, none, none, none, none⟩) rfl rfl rfl rfl

end ClaimGuard
