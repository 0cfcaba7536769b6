import ClaimGuard.Lib.Calendar
import ClaimGuard.Lib.Dict
import ClaimGuard.Repository

/-!
# The entity graph

`build_graph`: the bipartite graph of claims and entities the detector runs on, from
the rows of two queries. Floating-point numbers are a parameter: an amount becomes
one by `float`, and an edge is weighted by `idf_weight` of a degree.
-/

namespace ClaimGuard

/-- A row of `_fetch_links`. -/
structure LinkRow where
  claimId : UUID
  entityId : UUID
  entityType : EntityType
  canonicalValue : String

/-- A claim is dated on or before the cutoff, when there is one. -/
def isWithin (asOf : Option LocalDate) (claim : Claim) : Bool :=
  match asOf with
  | none => true
  | some date => decide (claim.incidentDate.Le date)

/-- The row of a link: it joins its entity and its claim, if that is within the
cutoff. -/
def linkRow (db : Db) (asOf : Option LocalDate) (l : ClaimEntityLink) : Option LinkRow :=
  match Table.find ResolvedEntity.id db.entities l.id.entityId, db.findById l.id.claimId with
  | some e, some c =>
      if isWithin asOf c then
        some ⟨l.id.claimId, l.id.entityId, e.entityType, e.canonicalValue⟩
      else none
  | _, _ => none

/-- `_fetch_links`, in the order of the table; the query asks for none. -/
def fetchLinks (db : Db) (asOf : Option LocalDate) : List LinkRow :=
  db.claimEntities.filterMap (linkRow db asOf)

/-- `date.toordinal()`: the first of January of the year 1 is day 1. -/
def LocalDate.toordinal (date : LocalDate) : ℤ := date.epochDay + 719163

/-- A date that Python has: its year is from 1 to 9999. -/
def LocalDate.InRange (date : LocalDate) : Prop :=
  1 ≤ date.toordinal ∧ date.toordinal ≤ Calendar.maxOrdinal

instance (date : LocalDate) : Decidable date.InRange :=
  inferInstanceAs (Decidable (1 ≤ date.toordinal ∧ date.toordinal ≤ Calendar.maxOrdinal))

/-- Every date that the second query selects is one that the driver can give to Python. -/
def Db.Readable (db : Db) (asOf : Option LocalDate) : Prop :=
  ∀ claim ∈ db.claims, isWithin asOf claim = true → claim.incidentDate.InRange

instance (db : Db) (asOf : Option LocalDate) : Decidable (db.Readable asOf) :=
  inferInstanceAs (Decidable (∀ claim ∈ db.claims, _))

variable {F : Type}

/-- `_fetch_claim_attributes`, of dates that can be read. -/
def fetchClaimAttributes (float : BigDecimal → F) (db : Db) (asOf : Option LocalDate) :
    List (String × F × LocalDate) :=
  (db.claims.filter (isWithin asOf)).map fun c =>
    (c.id.toString, float c.claimAmount, c.incidentDate)

/-- The attribute `kind`. -/
inductive VertexKind where
  | claim
  | entity
deriving DecidableEq

/-- A vertex with its attributes. -/
structure Vertex (F : Type) where
  name : String
  kind : VertexKind
  entityType : Option EntityType
  canonicalValue : Option String
  degreeRaw : Option ℕ
  claimAmount : Option F
  incidentDate : Option LocalDate
deriving DecidableEq

/-- A graph: edges are pairs of places in the list of vertices, each with a weight. -/
structure Graph (F : Type) where
  vertices : List (Vertex F)
  edges : List (ℕ × ℕ)
  weights : List F

/-- `edges_raw`. -/
def edgesRaw (links : List LinkRow) : List (String × String) :=
  links.map fun r => (r.claimId.toString, r.entityId.toString)

/-- The items of `entity_meta`. -/
def entityMeta (links : List LinkRow) : List (String × EntityType × String) :=
  links.map fun r => (r.entityId.toString, r.entityType, r.canonicalValue)

/-- `degree`: how many of these edges touch the entity. -/
def degree (links : List LinkRow) (name : String) : ℕ := ((edgesRaw links).map Prod.snd).count name

/-- `sorted` of a set of names. -/
def sortedNames (names : List String) : List String := names.dedup.insertionSort (· ≤ ·)

/-- `claim_names`. -/
def claimNames (links : List LinkRow) : List String := sortedNames ((edgesRaw links).map Prod.fst)

/-- `entity_names`. -/
def entityNames (links : List LinkRow) : List String :=
  sortedNames ((entityMeta links).map Prod.fst)

/-- A claim vertex. -/
def claimVertex (claimAttrs : List (String × F × LocalDate)) (name : String) : Vertex F where
  name := name
  kind := .claim
  entityType := none
  canonicalValue := none
  degreeRaw := none
  claimAmount := (Dict.get claimAttrs name).map Prod.fst
  incidentDate := (Dict.get claimAttrs name).map Prod.snd

/-- An entity vertex. -/
def entityVertex (links : List LinkRow) (name : String) : Vertex F where
  name := name
  kind := .entity
  entityType := (Dict.get (entityMeta links) name).map Prod.fst
  canonicalValue := (Dict.get (entityMeta links) name).map Prod.snd
  degreeRaw := some (degree links name)
  claimAmount := none
  incidentDate := none

/-- `build_graph`, from the rows of its queries. -/
def buildGraph (idfWeight : ℕ → F) (links : List LinkRow)
    (claimAttrs : List (String × F × LocalDate)) : Graph F :=
  -- claims come first, and an edge refers to the places of its two names
  let allNames := claimNames links ++ entityNames links
  { vertices := (claimNames links).map (claimVertex claimAttrs) ++
      (entityNames links).map (entityVertex links)
    edges := (edgesRaw links).map fun e => (Dict.index allNames e.1, Dict.index allNames e.2)
    weights := (edgesRaw links).map fun e => idfWeight (degree links e.2) }

namespace Graph

/-- The edges with their weights. -/
def weightedEdges (g : Graph F) : List ((ℕ × ℕ) × F) := g.edges.zip g.weights

/-- Two vertices that an edge joins, in either direction. -/
def Adjacent (g : Graph F) (u v : Vertex F) : Prop :=
  ∃ i j, ((i, j) ∈ g.edges ∨ (j, i) ∈ g.edges) ∧ g.vertices[i]? = some u ∧ g.vertices[j]? = some v

/-- A simple bipartite graph: vertices have distinct names, there are no parallel
edges, and each edge joins a claim and an entity. -/
structure SimpleBipartite (g : Graph F) : Prop where
  names : (g.vertices.map Vertex.name).Nodup
  edges : g.edges.Nodup
  sides : ∀ i j, (i, j) ∈ g.edges → ∃ u v, g.vertices[i]? = some u ∧ g.vertices[j]? = some v ∧
    u.kind = .claim ∧ v.kind = .entity

end Graph

/-- A vertex without the id of its entity. -/
def Vertex.withoutEntityId (v : Vertex F) : Vertex F :=
  match v.kind with
  | .claim => v
  | .entity => { v with name := "" }

/-- Vertices that agree so far agree on everything but the name of an entity. -/
theorem Vertex.withoutEntityId_eq {u v : Vertex F} (h : u.withoutEntityId = v.withoutEntityId) :
    u.kind = v.kind ∧ (v.kind = .claim → u.name = v.name) ∧ u.entityType = v.entityType ∧
      u.canonicalValue = v.canonicalValue ∧ u.degreeRaw = v.degreeRaw := by
  rcases u with ⟨name, kind, entityType, canonicalValue, degreeRaw, claimAmount, incidentDate⟩
  obtain ⟨name', kind', entityType', canonicalValue', degreeRaw', claimAmount', incidentDate'⟩ := v
  cases kind <;> cases kind' <;> simp_all [Vertex.withoutEntityId]

/-- The same graph up to the ids of the entities and the order of the vertices. -/
def Graph.SameUpToEntityIds (g g' : Graph F) : Prop :=
  ∃ e : Fin g.vertices.length ≃ Fin g'.vertices.length,
    (∀ i, (g'.vertices.get (e i)).withoutEntityId = (g.vertices.get i).withoutEntityId) ∧
      ∀ (i j : Fin g.vertices.length) (weight : F),
        (((i : ℕ), (j : ℕ)), weight) ∈ g.weightedEdges ↔
          (((e i : ℕ), (e j : ℕ)), weight) ∈ g'.weightedEdges

/-! ## Names -/

@[simp] theorem mem_sortedNames {names : List String} {name : String} :
    name ∈ sortedNames names ↔ name ∈ names := by
  unfold sortedNames
  rw [(List.perm_insertionSort _ _).mem_iff, List.mem_dedup]

theorem nodup_sortedNames (names : List String) : (sortedNames names).Nodup :=
  (List.perm_insertionSort _ _).nodup_iff.2 names.nodup_dedup

theorem mem_claimNames {links : List LinkRow} {name : String} :
    name ∈ claimNames links ↔ ∃ r ∈ links, r.claimId.toString = name := by
  simp [claimNames, edgesRaw]

theorem mem_entityNames {links : List LinkRow} {name : String} :
    name ∈ entityNames links ↔ ∃ r ∈ links, r.entityId.toString = name := by
  simp [entityNames, entityMeta]

/-- The attributes of a claim within the cutoff, from the rows in any order. -/
theorem get_claimAttributes {float : BigDecimal → F} {db : Db}
    (hids : Table.UniqueKeys Claim.id db.claims) {asOf : Option LocalDate}
    {claimAttrs : List (String × F × LocalDate)}
    (hattrs : claimAttrs.Perm (fetchClaimAttributes float db asOf)) {claim : Claim}
    (hclaim : claim ∈ db.claims) (hwithin : isWithin asOf claim = true) :
    Dict.get claimAttrs claim.id.toString =
      some (float claim.claimAmount, claim.incidentDate) := by
  refine Dict.get_eq_some_of_mem (hattrs.mem_iff.2
    (List.mem_map_of_mem (List.mem_filter.2 ⟨hclaim, hwithin⟩))) ?_
  intro attrs hmem
  rcases List.mem_map.1 (hattrs.mem_iff.1 hmem) with ⟨c, hc, heq⟩
  rcases Prod.mk.inj heq with ⟨hname, rfl⟩
  rw [List.inj_on_of_nodup_map hids (List.mem_filter.1 hc).1 hclaim
    (UUID.toString_injective hname)]

/-! ## Rows of a consistent database -/

/-- The rows of a join: ids of claims and entities apart, an entity has one type and
value, and a pair of ids is there once. -/
structure Rows (links : List LinkRow) : Prop where
  apart : ∀ r ∈ links, ∀ s ∈ links, r.claimId ≠ s.entityId
  described : ∀ r ∈ links, ∀ s ∈ links, r.entityId = s.entityId →
    r.entityType = s.entityType ∧ r.canonicalValue = s.canonicalValue
  pairs : (links.map fun r => (r.claimId, r.entityId)).Nodup

/-- When ids of claims and entities are apart, no name is there twice. -/
theorem nodup_allNames {links : List LinkRow}
    (hapart : ∀ r ∈ links, ∀ s ∈ links, r.claimId ≠ s.entityId) :
    (claimNames links ++ entityNames links).Nodup := by
  apply (nodup_sortedNames _).append (nodup_sortedNames _)
  intro name hclaim hentity
  -- an id that is on both sides would be one of a claim and of an entity
  rcases mem_claimNames.1 hclaim with ⟨r, hr, rfl⟩
  rcases mem_entityNames.1 hentity with ⟨s, hs, heq⟩
  exact hapart r hr s hs (UUID.toString_injective heq).symm

/-- The names of the vertices. -/
theorem vertices_names {links : List LinkRow} {claimAttrs : List (String × F × LocalDate)}
    {idfWeight : ℕ → F} : (buildGraph idfWeight links claimAttrs).vertices.map Vertex.name =
      claimNames links ++ entityNames links := by
  simp [buildGraph, claimVertex, entityVertex, Function.comp_def]

/-- The place of an id among the vertices. -/
def place (links : List LinkRow) (id : UUID) : ℕ :=
  Dict.index (claimNames links ++ entityNames links) id.toString

section

variable {links : List LinkRow} {claimAttrs : List (String × F × LocalDate)} {idfWeight : ℕ → F}

theorem edges_buildGraph : (buildGraph idfWeight links claimAttrs).edges =
    links.map fun r => (place links r.claimId, place links r.entityId) := by
  simp only [buildGraph, edgesRaw, List.map_map, Function.comp_def, place]

/-- An edge is that of a row. -/
theorem mem_edges_iff {i j : ℕ} : (i, j) ∈ (buildGraph idfWeight links claimAttrs).edges ↔
    ∃ r ∈ links, place links r.claimId = i ∧ place links r.entityId = j := by
  simp only [edges_buildGraph, List.mem_map, Prod.mk.injEq]

theorem weights_buildGraph : (buildGraph idfWeight links claimAttrs).weights =
    links.map fun r => idfWeight (degree links r.entityId.toString) := by
  simp only [buildGraph, edgesRaw, List.map_map, Function.comp_def]

/-- The claim vertices. -/
theorem filter_claim_vertices :
    ((buildGraph idfWeight links claimAttrs).vertices.filter fun v => decide (v.kind = .claim)) =
      (claimNames links).map (claimVertex claimAttrs) := by
  have hclaims : ((claimNames links).map (claimVertex claimAttrs)).filter
      (fun v => decide (v.kind = .claim)) = (claimNames links).map (claimVertex claimAttrs) := by
    rw [List.filter_eq_self]
    intro v hv
    rcases List.mem_map.1 hv with ⟨name, -, rfl⟩
    rfl
  have hentities : ((entityNames links).map (entityVertex links : String → Vertex F)).filter
      (fun v => decide (v.kind = .claim)) = [] := by
    rw [List.filter_eq_nil_iff]
    intro v hv
    rcases List.mem_map.1 hv with ⟨name, -, rfl⟩
    simp [entityVertex]
  unfold buildGraph
  rw [List.filter_append, hclaims, hentities, List.append_nil]

variable (h : Rows links)

include h

/-- The dictionary of entities has the row's type and value. -/
theorem entityVertex_eq {r : LinkRow} (hr : r ∈ links) :
    (entityVertex links r.entityId.toString : Vertex F) =
      { name := r.entityId.toString
        kind := .entity
        entityType := some r.entityType
        canonicalValue := some r.canonicalValue
        degreeRaw := some (degree links r.entityId.toString)
        claimAmount := none
        incidentDate := none } := by
  have hget : Dict.get (entityMeta links) r.entityId.toString =
      some (r.entityType, r.canonicalValue) := by
    refine Dict.get_eq_some_of_mem (List.mem_map_of_mem hr) ?_
    rintro ⟨entityType, value⟩ hmem
    rcases List.mem_map.1 hmem with ⟨s, hs, heq⟩
    rcases Prod.mk.inj heq with ⟨hname, hrest⟩
    rcases h.described s hs r hr (UUID.toString_injective hname) with ⟨htype, hvalue⟩
    rw [← hrest, htype, hvalue]
  simp only [entityVertex, hget, Option.map_some]

/-- A name of the graph is the place of its vertex. -/
theorem getElem?_vertices {i : ℕ} {v : Vertex F} :
    (buildGraph idfWeight links claimAttrs).vertices[i]? = some v ↔
      v ∈ (buildGraph idfWeight links claimAttrs).vertices ∧
        i = Dict.index (claimNames links ++ entityNames links) v.name := by
  -- names are distinct, so a vertex is at the place of its name
  have hplace : ∀ j, (buildGraph idfWeight links claimAttrs).vertices[j]? = some v →
      j = Dict.index (claimNames links ++ entityNames links) v.name := by
    intro j hj
    refine ((Dict.getElem?_eq_some_iff_index (nodup_allNames h.apart)).1 ?_).2
    rw [← vertices_names, List.getElem?_map, hj, Option.map_some]
  constructor
  · intro hi
    exact ⟨List.mem_of_getElem? hi, hplace i hi⟩
  · rintro ⟨hmem, rfl⟩
    rcases List.mem_iff_getElem?.1 hmem with ⟨j, hj⟩
    rwa [← hplace j hj]

omit h in
theorem mem_vertices {v : Vertex F} :
    v ∈ (buildGraph idfWeight links claimAttrs).vertices ↔
      (∃ r ∈ links, v = claimVertex claimAttrs r.claimId.toString) ∨
        ∃ r ∈ links, v = entityVertex links r.entityId.toString := by
  have hclaims : v ∈ (claimNames links).map (claimVertex claimAttrs) ↔
      ∃ r ∈ links, v = claimVertex claimAttrs r.claimId.toString := by
    constructor
    · intro hv
      rcases List.mem_map.1 hv with ⟨name, hname, rfl⟩
      rcases mem_claimNames.1 hname with ⟨r, hr, rfl⟩
      exact ⟨r, hr, rfl⟩
    · rintro ⟨r, hr, rfl⟩
      exact List.mem_map_of_mem (mem_claimNames.2 ⟨r, hr, rfl⟩)
  have hentities : v ∈ (entityNames links).map (entityVertex links) ↔
      ∃ r ∈ links, v = entityVertex links r.entityId.toString := by
    constructor
    · intro hv
      rcases List.mem_map.1 hv with ⟨name, hname, rfl⟩
      rcases mem_entityNames.1 hname with ⟨r, hr, rfl⟩
      exact ⟨r, hr, rfl⟩
    · rintro ⟨r, hr, rfl⟩
      exact List.mem_map_of_mem (mem_entityNames.2 ⟨r, hr, rfl⟩)
  simp only [buildGraph, List.mem_append, hclaims, hentities]

/-- An edge joins the vertices of the claim and the entity of a row. -/
theorem mem_weightedEdges {i j : ℕ} {weight : F} :
    ((i, j), weight) ∈ (buildGraph idfWeight links claimAttrs).weightedEdges ↔
      ∃ r ∈ links,
        (buildGraph idfWeight links claimAttrs).vertices[i]? =
          some (claimVertex claimAttrs r.claimId.toString) ∧
        (buildGraph idfWeight links claimAttrs).vertices[j]? =
          some (entityVertex links r.entityId.toString) ∧
        weight = idfWeight (degree links r.entityId.toString) := by
  have hzip : (buildGraph idfWeight links claimAttrs).weightedEdges = links.map fun r =>
      ((Dict.index (claimNames links ++ entityNames links) r.claimId.toString,
        Dict.index (claimNames links ++ entityNames links) r.entityId.toString),
        idfWeight (degree links r.entityId.toString)) := by
    simp only [Graph.weightedEdges, buildGraph, edgesRaw, List.map_map, List.zip_map',
      Function.comp_def]
  rw [hzip, List.mem_map]
  refine exists_congr fun r => and_congr_right fun hr => ?_
  rw [getElem?_vertices h, getElem?_vertices h, mem_vertices, mem_vertices]
  simp only [Prod.mk.injEq]
  constructor
  · rintro ⟨⟨rfl, rfl⟩, rfl⟩
    exact ⟨⟨Or.inl ⟨r, hr, rfl⟩, rfl⟩, ⟨Or.inr ⟨r, hr, rfl⟩, rfl⟩, rfl⟩
  · rintro ⟨⟨-, hi⟩, ⟨-, hj⟩, hweight⟩
    exact ⟨⟨hi.symm, hj.symm⟩, hweight.symm⟩

omit h in
theorem mem_edges {i j : ℕ} :
    (i, j) ∈ (buildGraph idfWeight links claimAttrs).edges ↔
      ∃ weight, ((i, j), weight) ∈ (buildGraph idfWeight links claimAttrs).weightedEdges := by
  have hedges : (buildGraph idfWeight links claimAttrs).edges =
      (buildGraph idfWeight links claimAttrs).weightedEdges.map Prod.fst := by
    simp only [Graph.weightedEdges, buildGraph, edgesRaw, List.map_map, List.zip_map',
      Function.comp_def]
  rw [hedges, List.mem_map]
  constructor
  · rintro ⟨⟨-, weight⟩, hmem, rfl⟩
    exact ⟨weight, hmem⟩
  · rintro ⟨weight, hmem⟩
    exact ⟨_, hmem, rfl⟩

/-- Ids of the graph are the same when their places are. -/
theorem place_inj {a b : UUID} (ha : a.toString ∈ claimNames links ++ entityNames links)
    (hb : b.toString ∈ claimNames links ++ entityNames links)
    (hab : place links a = place links b) : a = b := by
  have hnodup := nodup_allNames h.apart
  have ha' := (Dict.getElem?_eq_some_iff_index hnodup).2 ⟨ha, rfl⟩
  have hb' := (Dict.getElem?_eq_some_iff_index hnodup).2 ⟨hb, rfl⟩
  unfold place at hab
  rw [hab, hb', Option.some.injEq] at ha'
  exact UUID.toString_injective ha'.symm

theorem vertex_place_claim {r : LinkRow} (hr : r ∈ links) :
    (buildGraph idfWeight links claimAttrs).vertices[place links r.claimId]? =
      some (claimVertex claimAttrs r.claimId.toString) :=
  (getElem?_vertices h).2 ⟨mem_vertices.2 (Or.inl ⟨r, hr, rfl⟩), rfl⟩

theorem vertex_place_entity {r : LinkRow} (hr : r ∈ links) :
    (buildGraph idfWeight links claimAttrs).vertices[place links r.entityId]? =
      some (entityVertex links r.entityId.toString) :=
  (getElem?_vertices h).2 ⟨mem_vertices.2 (Or.inr ⟨r, hr, rfl⟩), rfl⟩

/-- The graph is simple and bipartite. -/
theorem simpleBipartite_buildGraph :
    (buildGraph idfWeight links claimAttrs).SimpleBipartite := by
  refine ⟨?_, ?_, ?_⟩
  · rw [vertices_names]
    exact nodup_allNames h.apart
  · have hedges : (buildGraph idfWeight links claimAttrs).edges =
        (links.map fun r => (r.claimId, r.entityId)).map fun p =>
          (place links p.1, place links p.2) := by
      rw [edges_buildGraph, List.map_map]
      rfl
    rw [hedges]
    refine List.Nodup.map_on ?_ h.pairs
    -- two rows with one edge have the same pair of ids
    have hnames : ∀ p ∈ links.map (fun r => (r.claimId, r.entityId)),
        p.1.toString ∈ claimNames links ++ entityNames links ∧
          p.2.toString ∈ claimNames links ++ entityNames links := by
      intro p hp
      rcases List.mem_map.1 hp with ⟨r, hr, rfl⟩
      exact ⟨List.mem_append_left _ (mem_claimNames.2 ⟨r, hr, rfl⟩),
        List.mem_append_right _ (mem_entityNames.2 ⟨r, hr, rfl⟩)⟩
    intro p hp q hq heq
    rcases Prod.mk.inj heq with ⟨h₁, h₂⟩
    exact Prod.ext (place_inj h (hnames p hp).1 (hnames q hq).1 h₁)
      (place_inj h (hnames p hp).2 (hnames q hq).2 h₂)
  · intro i j hedge
    rcases mem_edges.1 hedge with ⟨weight, hedge⟩
    rcases (mem_weightedEdges h).1 hedge with ⟨r, -, hi, hj, -⟩
    exact ⟨_, _, hi, hj, rfl, rfl⟩

end

end ClaimGuard
