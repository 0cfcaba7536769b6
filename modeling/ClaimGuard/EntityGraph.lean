import ClaimGuard.Graph
import ClaimGuard.Resolution

/-!
# What the entity graph means

The graph of a database reached by intake and backlog passes, in terms of the raw
fields of its claims: which claims are in it, which of them share an entity, and how
many claims an entity has. None of this mentions the order in which the claims were
resolved.
-/

namespace ClaimGuard

open EntityService

variable {F : Type}

/-- The claim is linked and within the cutoff. -/
def Db.isInGraph (db : Db) (asOf : Option LocalDate) (claim : Claim) : Bool :=
  (db.claimEntities.any fun l => decide (l.id.claimId = claim.id)) && isWithin asOf claim

/-- The claims of the graph that have the entity's value. -/
def Db.claimsWith (env : Env) (db : Db) (asOf : Option LocalDate) (entityType : EntityType)
    (value : String) : List Claim :=
  db.claims.filter fun c =>
    db.isInGraph asOf c && decide (canonicalValue env c entityType = some value)

/-- The graph of a database, with the rows of the first query in some order. -/
abbrev graphOf (idfWeight : ℕ → F) (float : BigDecimal → F) (db : Db) (asOf : Option LocalDate)
    (links : List LinkRow) : Graph F :=
  buildGraph idfWeight links (fetchClaimAttributes float db asOf)

/-- What `build_graph` returns: the driver raises on a date that Python does not have. -/
def returnedGraph (idfWeight : ℕ → F) (float : BigDecimal → F) (db : Db)
    (asOf : Option LocalDate) (links : List LinkRow) : Option (Graph F) :=
  if db.Readable asOf then some (graphOf idfWeight float db asOf links) else none

theorem isInGraph_iff {db : Db} {asOf : Option LocalDate} {claim : Claim} :
    db.isInGraph asOf claim = true ↔ db.IsLinked claim.id ∧ isWithin asOf claim = true := by
  simp [Db.isInGraph, Db.IsLinked]

/-! ## The rows of the query -/

section

variable {env : Env} {db : Db} (hr : db.Resolved env) {asOf : Option LocalDate}

include hr

theorem find_entity_of_mem {id : UUID} {entityType : EntityType} {value : String}
    (href : (id, entityType, value) ∈ db.refs) :
    ∃ e, Table.find ResolvedEntity.id db.entities id = some e ∧ e.entityType = entityType ∧
      e.canonicalValue = value := by
  rcases List.mem_map.1 href with ⟨e, he, heq⟩
  have hids : Table.UniqueKeys ResolvedEntity.id db.entities := by
    have := hr.entityIds
    unfold Db.refs at this
    rw [List.map_map] at this
    exact this
  obtain ⟨rfl, htype, hvalue⟩ : e.id = id ∧ e.entityType = entityType ∧
      e.canonicalValue = value := by
    simpa [ResolvedEntity.ref] using heq
  exact ⟨e, Table.find_of_mem hids he, htype, hvalue⟩

/-- The query gives a row for each claim of the graph and each entity one of its
fields normalizes to. -/
theorem mem_fetchLinks {r : LinkRow} :
    r ∈ fetchLinks db asOf ↔ ∃ claim ∈ db.claims, db.isInGraph asOf claim = true ∧
      r.claimId = claim.id ∧ (r.entityId, r.entityType, r.canonicalValue) ∈ db.refs ∧
      canonicalValue env claim r.entityType = some r.canonicalValue := by
  unfold fetchLinks
  rw [List.mem_filterMap]
  constructor
  · rintro ⟨l, hl, hrow⟩
    unfold linkRow at hrow
    split at hrow
    · rename_i e c he hc
      split at hrow
      · rename_i hwithin
        cases hrow
        rcases Table.find_eq_some he with ⟨hemem, heid⟩
        rcases Table.find_eq_some hc with ⟨hcmem, hcid⟩
        have href : (l.id.entityId, e.entityType, e.canonicalValue) ∈ db.refs := by
          rw [← heid]
          exact List.mem_map_of_mem hemem
        -- a link is sound, and its ids determine the claim and the entity it joins
        rcases hr.sound l hl with ⟨c', hc', r, hr', hlid, hvalue⟩
        rw [hlid] at hcid href
        obtain rfl : c = c' := List.inj_on_of_nodup_map hr.claimIds hcmem hc' hcid
        have hsame := List.inj_on_of_nodup_map hr.entityIds href hr' rfl
        refine ⟨c, hcmem, isInGraph_iff.2 ⟨⟨l, hl, by rw [hlid]⟩, hwithin⟩, by rw [hlid],
          by rw [hlid]; exact href, ?_⟩
        rw [← hsame] at hvalue
        exact hvalue
      · cases hrow
    · cases hrow
  · rintro ⟨claim, hclaim, hin, hcid, href, hvalue⟩
    rcases isInGraph_iff.1 hin with ⟨hlinked, hwithin⟩
    -- a resolved claim has the link, and one entity has this type and value
    rcases hr.complete claim hclaim hlinked _ _ hvalue with ⟨id, href', l, hl, hlid⟩
    have hid : (id, r.entityType, r.canonicalValue) =
        (r.entityId, r.entityType, r.canonicalValue) :=
      List.inj_on_of_nodup_map hr.entityKeys href' href rfl
    rcases Prod.mk.inj hid with ⟨rfl, -⟩
    rcases find_entity_of_mem hr href with ⟨e, he, htype, hval⟩
    refine ⟨l, hl, ?_⟩
    have hc : db.findById claim.id = some claim := Table.find_of_mem hr.claimIds hclaim
    unfold linkRow
    rw [hlid]
    simp only [he, hc, hwithin, if_true, htype, hval]
    rw [← hcid]

/-- The same of its rows in any order. -/
theorem mem_links {links : List LinkRow} (hlinks : links.Perm (fetchLinks db asOf)) {r : LinkRow} :
    r ∈ links ↔ ∃ claim ∈ db.claims, db.isInGraph asOf claim = true ∧
      r.claimId = claim.id ∧ (r.entityId, r.entityType, r.canonicalValue) ∈ db.refs ∧
      canonicalValue env claim r.entityType = some r.canonicalValue :=
  hlinks.mem_iff.trans (mem_fetchLinks hr)

omit hr in
/-- The ids of a row are those of its link. -/
theorem row_ids {l : ClaimEntityLink} {r : LinkRow}
    (h : linkRow db asOf l = some r) : (r.claimId, r.entityId) = (l.id.claimId, l.id.entityId) := by
  unfold linkRow at h
  split at h
  · split at h <;> cases h
    rfl
  · cases h

/-- The rows of the query, in any order. -/
theorem rows_of_perm {links : List LinkRow} (hlinks : links.Perm (fetchLinks db asOf)) :
    Rows links := by
  refine ⟨?_, ?_, ?_⟩
  · intro r h s h'
    rcases (mem_links hr hlinks).1 h with ⟨claim, hclaim, -, hcid, -⟩
    rcases (mem_links hr hlinks).1 h' with ⟨-, -, -, -, href, -⟩
    rw [hcid]
    exact hr.apart claim hclaim _ href
  · intro r h s h' heq
    rcases (mem_links hr hlinks).1 h with ⟨-, -, -, -, href, -⟩
    rcases (mem_links hr hlinks).1 h' with ⟨-, -, -, -, href', -⟩
    have hsame := List.inj_on_of_nodup_map hr.entityIds href href' heq
    simp only [Prod.mk.injEq] at hsame
    exact hsame.2
  · rw [(hlinks.map _).nodup_iff, List.Nodup, List.pairwise_map, fetchLinks,
      List.pairwise_filterMap]
    have hids := hr.linkIds
    unfold Table.UniqueKeys at hids
    rw [List.Nodup, List.pairwise_map] at hids
    apply hids.imp_of_mem
    intro l l' hl hl' hne r hrow r' hrow' heq
    apply hne
    -- the entity of a link determines its role
    rcases hr.sound l hl with ⟨c, -, e, he, hlid, -⟩
    rcases hr.sound l' hl' with ⟨c', -, e', he', hlid', -⟩
    rw [row_ids hrow, row_ids hrow', hlid, hlid', Prod.mk.injEq] at heq
    have hsame : e = e' := List.inj_on_of_nodup_map hr.entityIds he he' heq.2
    have hclaims : c.id = c'.id := heq.1
    rw [hlid, hlid', hsame, hclaims]

/-! ## The vertices -/

/-- The attributes of a claim of the graph. -/
theorem claimVertex_eq (float : BigDecimal → F) {claim : Claim} (hclaim : claim ∈ db.claims)
    (hwithin : isWithin asOf claim = true) :
    claimVertex (fetchClaimAttributes float db asOf) claim.id.toString =
      { name := claim.id.toString
        kind := .claim
        entityType := none
        canonicalValue := none
        degreeRaw := none
        claimAmount := some (float claim.claimAmount)
        incidentDate := some claim.incidentDate } := by
  have hget := get_claimAttributes hr.claimIds
    (List.Perm.refl (fetchClaimAttributes float db asOf)) hclaim hwithin
  simp only [claimVertex, hget, Option.map_some]

/-- The degree of an entity is the number of claims of the graph with its value. -/
theorem degree_eq {links : List LinkRow} (hlinks : links.Perm (fetchLinks db asOf)) {r : LinkRow}
    (h : r ∈ links) :
    degree links r.entityId.toString =
      (db.claimsWith env asOf r.entityType r.canonicalValue).length := by
  have hrows := rows_of_perm hr hlinks
  rcases (mem_links hr hlinks).1 h with ⟨-, -, -, -, href, -⟩
  -- the rows of the entity, by their claims
  have hcount : degree links r.entityId.toString =
      ((links.filter fun s => decide (s.entityId = r.entityId)).map LinkRow.claimId).length := by
    rw [List.length_map, degree, edgesRaw, List.map_map, List.count_eq_length_filter,
      List.filter_map, List.length_map]
    refine congrArg List.length (List.filter_congr fun s _ => ?_)
    rw [Bool.eq_iff_iff]
    simp only [Function.comp_apply, beq_iff_eq, decide_eq_true_eq]
    exact UUID.toString_injective.eq_iff
  -- a claim has one row with the entity
  have hperm : ((links.filter fun s => decide (s.entityId = r.entityId)).map LinkRow.claimId).Perm
      ((db.claimsWith env asOf r.entityType r.canonicalValue).map Claim.id) := by
    refine (List.perm_ext_iff_of_nodup ?_ ?_).2 ?_
    · rw [List.Nodup, List.pairwise_map]
      have hpairs := hrows.pairs
      rw [List.Nodup, List.pairwise_map] at hpairs
      apply (hpairs.filter _).imp_of_mem
      intro s t hs ht hne heq
      have hs' := of_decide_eq_true (List.mem_filter.1 hs).2
      have ht' := of_decide_eq_true (List.mem_filter.1 ht).2
      exact hne (by rw [heq, hs', ht'])
    · exact hr.claimIds.sublist (List.filter_sublist.map _)
    · intro id
      simp only [List.mem_map, List.mem_filter, decide_eq_true_eq, Db.claimsWith, Bool.and_eq_true]
      constructor
      · rintro ⟨s, ⟨hs, heq⟩, rfl⟩
        rcases (mem_links hr hlinks).1 hs with ⟨claim, hclaim, hin, hcid, -, hvalue⟩
        rcases hrows.described s hs r h heq with ⟨htype, hval⟩
        exact ⟨claim, ⟨hclaim, hin, by rw [← htype, ← hval]; exact hvalue⟩, hcid.symm⟩
      · rintro ⟨claim, ⟨hclaim, hin, hvalue⟩, rfl⟩
        exact ⟨⟨claim.id, r.entityId, r.entityType, r.canonicalValue⟩,
          ⟨(mem_links hr hlinks).2 ⟨claim, hclaim, hin, rfl, href, hvalue⟩, rfl⟩, rfl⟩
  rw [hcount, hperm.length_eq, List.length_map]

/-! ## The graph -/

variable {idfWeight : ℕ → F} {float : BigDecimal → F} {links : List LinkRow}
  (hlinks : links.Perm (fetchLinks db asOf))

/-- The vertex of a claim. -/
def vertexOfClaim (float : BigDecimal → F) (claim : Claim) : Vertex F where
  name := claim.id.toString
  kind := .claim
  entityType := none
  canonicalValue := none
  degreeRaw := none
  claimAmount := some (float claim.claimAmount)
  incidentDate := some claim.incidentDate

/-- The vertex of an entity that has some claims of the graph. -/
def vertexOfEntity (env : Env) (db : Db) (asOf : Option LocalDate)
    (ref : UUID × EntityType × String) : Vertex F where
  name := ref.1.toString
  kind := .entity
  entityType := some ref.2.1
  canonicalValue := some ref.2.2
  degreeRaw := some (db.claimsWith env asOf ref.2.1 ref.2.2).length
  claimAmount := none
  incidentDate := none

/-- The claim of one vertex has the value of the other. -/
def Joins (env : Env) (db : Db) (asOf : Option LocalDate) (u x : Vertex F) : Prop :=
  ∃ claim ∈ db.claims, db.isInGraph asOf claim = true ∧ u.kind = .claim ∧
    u.name = claim.id.toString ∧ ∃ entityType value, x.kind = .entity ∧
      x.entityType = some entityType ∧ x.canonicalValue = some value ∧
      canonicalValue env claim entityType = some value

include hlinks

/-- The claims of the graph, and the entities they have. -/
theorem mem_vertices_iff {v : Vertex F} :
    v ∈ (graphOf idfWeight float db asOf links).vertices ↔
      (∃ claim ∈ db.claims, db.isInGraph asOf claim = true ∧ v = vertexOfClaim float claim) ∨
        ∃ ref ∈ db.refs, db.claimsWith env asOf ref.2.1 ref.2.2 ≠ [] ∧
          v = vertexOfEntity env db asOf ref := by
  have hrows := rows_of_perm hr hlinks
  rw [mem_vertices]
  refine or_congr ?_ ?_
  · constructor
    · rintro ⟨r, h, rfl⟩
      rcases (mem_links hr hlinks).1 h with ⟨claim, hclaim, hin, hcid, -⟩
      refine ⟨claim, hclaim, hin, ?_⟩
      rw [hcid, claimVertex_eq hr float hclaim (isInGraph_iff.1 hin).2]
      rfl
    · rintro ⟨claim, hclaim, hin, rfl⟩
      -- a claim of the graph has at least its address
      rcases isInGraph_iff.1 hin with ⟨hlinked, hwithin⟩
      obtain ⟨value, haddress⟩ : ∃ value, canonicalValue env claim .address = some value :=
        ⟨_, canonicalValue_address env claim⟩
      rcases hr.complete claim hclaim hlinked .address _ haddress with ⟨id, href, -⟩
      have h : (⟨claim.id, id, .address, value⟩ : LinkRow) ∈ links :=
        (mem_links hr hlinks).2 ⟨claim, hclaim, hin, rfl, href, haddress⟩
      refine ⟨_, h, ?_⟩
      rw [claimVertex_eq hr float hclaim hwithin]
      rfl
  · constructor
    · rintro ⟨r, h, rfl⟩
      rcases (mem_links hr hlinks).1 h with ⟨claim, hclaim, hin, -, href, hvalue⟩
      refine ⟨_, href, ?_, ?_⟩
      · exact List.ne_nil_of_mem (List.mem_filter.2 ⟨hclaim, by simp [hin, hvalue]⟩)
      · rw [entityVertex_eq hrows h, degree_eq hr hlinks h]
        rfl
    · rintro ⟨⟨id, entityType, value⟩, href, hsome, rfl⟩
      rcases List.exists_mem_of_ne_nil _ hsome with ⟨claim, hmem⟩
      rcases List.mem_filter.1 hmem with ⟨hclaim, hin⟩
      rw [Bool.and_eq_true, decide_eq_true_eq] at hin
      have h : (⟨claim.id, id, entityType, value⟩ : LinkRow) ∈ links :=
        (mem_links hr hlinks).2 ⟨claim, hclaim, hin.1, rfl, href, hin.2⟩
      refine ⟨_, h, ?_⟩
      rw [entityVertex_eq hrows h, degree_eq hr hlinks h]
      rfl

/-- The vertex with the name of a claim is that claim's, and the claim is in the graph. -/
theorem eq_vertexOfClaim {u : Vertex F} {claim : Claim}
    (hu : u ∈ (graphOf idfWeight float db asOf links).vertices) (hkind : u.kind = .claim)
    (hclaim : claim ∈ db.claims) (hname : u.name = claim.id.toString) :
    u = vertexOfClaim float claim ∧ db.isInGraph asOf claim = true := by
  rcases (mem_vertices_iff hr hlinks).1 hu with ⟨c, hc, hin, rfl⟩ | ⟨ref, -, -, rfl⟩
  · obtain rfl : c = claim :=
      List.inj_on_of_nodup_map hr.claimIds hc hclaim (UUID.toString_injective hname)
    exact ⟨rfl, hin⟩
  · cases hkind

/-- Any other vertex is that of an entity. -/
theorem eq_vertexOfEntity {x : Vertex F}
    (hx : x ∈ (graphOf idfWeight float db asOf links).vertices) (hkind : x.kind = .entity) :
    ∃ ref ∈ db.refs, x = vertexOfEntity env db asOf ref := by
  rcases (mem_vertices_iff hr hlinks).1 hx with ⟨c, -, -, rfl⟩ | ⟨ref, href, -, rfl⟩
  · cases hkind
  · exact ⟨ref, href, rfl⟩

/-- An edge joins a claim and an entity whose value it has. -/
theorem mem_weightedEdges_iff {i j : ℕ} {weight : F} :
    ((i, j), weight) ∈ (graphOf idfWeight float db asOf links).weightedEdges ↔
      ∃ u x, (graphOf idfWeight float db asOf links).vertices[i]? = some u ∧
        (graphOf idfWeight float db asOf links).vertices[j]? = some x ∧
        Joins env db asOf u x ∧ x.degreeRaw.map idfWeight = some weight := by
  have hrows := rows_of_perm hr hlinks
  rw [mem_weightedEdges hrows]
  constructor
  · rintro ⟨r, h, hi, hj, rfl⟩
    rcases (mem_links hr hlinks).1 h with ⟨claim, hclaim, hin, hcid, href, hvalue⟩
    have hx := entityVertex_eq (F := F) hrows h
    refine ⟨_, _, hi, hj, ⟨claim, hclaim, hin, rfl, by rw [← hcid]; rfl, r.entityType,
      r.canonicalValue, rfl, ?_, ?_, hvalue⟩, ?_⟩ <;> rw [hx]
    rfl
  · rintro ⟨u, x, hi, hj, ⟨claim, hclaim, hin, hkind, hname, entityType, value, hxkind, htype, hval,
      hvalue⟩, hweight⟩
    have hu := (eq_vertexOfClaim hr hlinks (List.mem_of_getElem? hi) hkind hclaim hname).1
    obtain ⟨⟨id, T, v⟩, href, hx⟩ :=
      eq_vertexOfEntity hr hlinks (List.mem_of_getElem? hj) hxkind
    rw [hx] at htype hval hweight
    obtain rfl : T = entityType := Option.some.inj htype
    obtain rfl : v = value := Option.some.inj hval
    have h : (⟨claim.id, id, T, v⟩ : LinkRow) ∈ links :=
      (mem_links hr hlinks).2 ⟨claim, hclaim, hin, rfl, href, hvalue⟩
    have hclaimVertex := claimVertex_eq hr float hclaim (isInGraph_iff.1 hin).2
    have hentityVertex := entityVertex_eq (F := F) hrows h
    rw [degree_eq hr hlinks h] at hentityVertex
    refine ⟨_, h, ?_, ?_, ?_⟩
    · rw [hi, hu, hclaimVertex]
      rfl
    · rw [hj, hx, hentityVertex]
      rfl
    · rw [degree_eq hr hlinks h]
      exact (Option.some.inj hweight).symm

/-- A vertex that a claim joins has a degree, and so the edge a weight. -/
theorem exists_weight {u x : Vertex F}
    (hx : x ∈ (graphOf idfWeight float db asOf links).vertices)
    (hjoins : Joins env db asOf u x) : ∃ weight, x.degreeRaw.map idfWeight = some weight := by
  rcases hjoins with ⟨-, -, -, -, -, -, -, hkind, -⟩
  rcases eq_vertexOfEntity hr hlinks hx hkind with ⟨ref, -, rfl⟩
  exact ⟨_, rfl⟩

/-- The ends of an edge join. -/
theorem joins_of_mem_edges {i j : ℕ} {u x : Vertex F}
    (hmem : (i, j) ∈ (graphOf idfWeight float db asOf links).edges)
    (hi : (graphOf idfWeight float db asOf links).vertices[i]? = some u)
    (hj : (graphOf idfWeight float db asOf links).vertices[j]? = some x) :
    Joins env db asOf u x := by
  rcases mem_edges.1 hmem with ⟨weight, hmem⟩
  rcases (mem_weightedEdges_iff hr hlinks).1 hmem with ⟨u', x', hi', hj', hjoins, -⟩
  rw [hi] at hi'
  rw [hj] at hj'
  cases hi'
  cases hj'
  exact hjoins

/-- Vertices that join are the ends of an edge. -/
theorem exists_edge_of_joins {u x : Vertex F}
    (hu : u ∈ (graphOf idfWeight float db asOf links).vertices)
    (hx : x ∈ (graphOf idfWeight float db asOf links).vertices) (hjoins : Joins env db asOf u x) :
    ∃ i j, (i, j) ∈ (graphOf idfWeight float db asOf links).edges ∧
      (graphOf idfWeight float db asOf links).vertices[i]? = some u ∧
      (graphOf idfWeight float db asOf links).vertices[j]? = some x := by
  rcases List.mem_iff_getElem?.1 hu with ⟨i, hi⟩
  rcases List.mem_iff_getElem?.1 hx with ⟨j, hj⟩
  rcases exists_weight hr hlinks hx hjoins with ⟨weight, hweight⟩
  have hmem : ((i, j), weight) ∈ (graphOf idfWeight float db asOf links).weightedEdges :=
    (mem_weightedEdges_iff hr hlinks).2 ⟨u, x, hi, hj, hjoins, hweight⟩
  exact ⟨i, j, mem_edges.2 ⟨weight, hmem⟩, hi, hj⟩

/-- Two vertices are adjacent when one joins the other. -/
theorem adjacent_iff {u x : Vertex F}
    (hu : u ∈ (graphOf idfWeight float db asOf links).vertices)
    (hx : x ∈ (graphOf idfWeight float db asOf links).vertices) :
    (graphOf idfWeight float db asOf links).Adjacent u x ↔
      Joins env db asOf u x ∨ Joins env db asOf x u := by
  constructor
  · rintro ⟨i, j, hij | hji, hi, hj⟩
    · exact Or.inl (joins_of_mem_edges hr hlinks hij hi hj)
    · exact Or.inr (joins_of_mem_edges hr hlinks hji hj hi)
  · rintro (hjoins | hjoins)
    · rcases exists_edge_of_joins hr hlinks hu hx hjoins with ⟨i, j, hmem, hi, hj⟩
      exact ⟨i, j, Or.inl hmem, hi, hj⟩
    · rcases exists_edge_of_joins hr hlinks hx hu hjoins with ⟨i, j, hmem, hi, hj⟩
      exact ⟨j, i, Or.inr hmem, hj, hi⟩

omit hlinks in
/-- What an adjacent entity says of a claim's field. -/
theorem canonicalValue_of_joins {u x : Vertex F} {claim : Claim} {entityType : EntityType}
    (hclaim : claim ∈ db.claims) (hkind : u.kind = .claim) (hname : u.name = claim.id.toString)
    (htype : x.entityType = some entityType)
    (hjoins : Joins env db asOf u x ∨ Joins env db asOf x u) :
    ∃ value, x.canonicalValue = some value ∧
      canonicalValue env claim entityType = some value := by
  rcases hjoins with ⟨d, hd, -, -, hdname, T, value, -, hT, hvalue, hcanon⟩ |
    ⟨-, -, -, -, -, -, -, hentity, -⟩
  · rw [hname] at hdname
    obtain rfl : claim = d :=
      List.inj_on_of_nodup_map hr.claimIds hclaim hd (UUID.toString_injective hdname)
    rw [htype] at hT
    cases hT
    exact ⟨value, hvalue, hcanon⟩
  · -- a claim is no entity
    rw [hkind] at hentity
    cases hentity

/-- Claims share an entity of a type exactly when their fields normalize alike. -/
theorem shares_iff {u u' : Vertex F} {claim claim' : Claim} (hclaim : claim ∈ db.claims)
    (hclaim' : claim' ∈ db.claims)
    (hu : u ∈ (graphOf idfWeight float db asOf links).vertices)
    (hu' : u' ∈ (graphOf idfWeight float db asOf links).vertices)
    (hkind : u.kind = .claim) (hkind' : u'.kind = .claim) (hname : u.name = claim.id.toString)
    (hname' : u'.name = claim'.id.toString) (entityType : EntityType) :
    (∃ x ∈ (graphOf idfWeight float db asOf links).vertices,
        x.entityType = some entityType ∧
        (graphOf idfWeight float db asOf links).Adjacent u x ∧
        (graphOf idfWeight float db asOf links).Adjacent u' x) ↔
      ∃ value, canonicalValue env claim entityType = some value ∧
        canonicalValue env claim' entityType = some value := by
  constructor
  · rintro ⟨x, hx, htype, hadj, hadj'⟩
    obtain ⟨value, hvalue, hcanon⟩ := canonicalValue_of_joins hr hclaim hkind hname htype
      ((adjacent_iff hr hlinks hu hx).1 hadj)
    obtain ⟨value', hvalue', hcanon'⟩ := canonicalValue_of_joins hr hclaim' hkind' hname' htype
      ((adjacent_iff hr hlinks hu' hx).1 hadj')
    rw [hvalue] at hvalue'
    cases hvalue'
    exact ⟨value, hcanon, hcanon'⟩
  · rintro ⟨value, hcanon, hcanon'⟩
    have hclaimIn := (eq_vertexOfClaim hr hlinks hu hkind hclaim hname).2
    have hclaimIn' := (eq_vertexOfClaim hr hlinks hu' hkind' hclaim' hname').2
    obtain ⟨id, href, -⟩ :=
      hr.complete claim hclaim (isInGraph_iff.1 hclaimIn).1 entityType value hcanon
    -- the entity of the common value is in the graph, for a claim of the graph has it
    have hx : vertexOfEntity env db asOf (id, entityType, value) ∈
        (graphOf idfWeight float db asOf links).vertices := by
      refine (mem_vertices_iff hr hlinks).2 (Or.inr ⟨_, href, ?_, rfl⟩)
      exact List.ne_nil_of_mem (List.mem_filter.2 ⟨hclaim, by simp [hclaimIn, hcanon]⟩)
    refine ⟨_, hx, rfl, (adjacent_iff hr hlinks hu hx).2 (Or.inl ?_),
      (adjacent_iff hr hlinks hu' hx).2 (Or.inl ?_)⟩
    · exact ⟨claim, hclaim, hclaimIn, hkind, hname, entityType, value, rfl, rfl, rfl, hcanon⟩
    · exact ⟨claim', hclaim', hclaimIn', hkind', hname', entityType, value, rfl, rfl, rfl, hcanon'⟩

/-- Two vertices of the graph that differ in the id of an entity at most are the same. -/
theorem nodup_withoutEntityId :
    ((graphOf idfWeight float db asOf links).vertices.map Vertex.withoutEntityId).Nodup := by
  have hsimple : (graphOf idfWeight float db asOf links).SimpleBipartite :=
    simpleBipartite_buildGraph (rows_of_perm hr hlinks)
  refine List.Nodup.map_on ?_ (List.Nodup.of_map _ hsimple.names)
  intro u hu v hv heq
  rcases (mem_vertices_iff hr hlinks).1 hu with ⟨c, hc, -, rfl⟩ | ⟨ref, href, -, rfl⟩ <;>
    rcases (mem_vertices_iff hr hlinks).1 hv with ⟨d, hd, -, rfl⟩ | ⟨ref', href', -, rfl⟩
  · exact heq
  · exact absurd (Vertex.withoutEntityId_eq heq).1 VertexKind.noConfusion
  · exact absurd (Vertex.withoutEntityId_eq heq).1 VertexKind.noConfusion
  -- no two entities have one type and value
  · rcases Vertex.withoutEntityId_eq heq with ⟨-, -, htype, hvalue, -⟩
    replace htype := Option.some.inj htype
    replace hvalue := Option.some.inj hvalue
    rw [List.inj_on_of_nodup_map hr.entityKeys href href' (Prod.ext htype hvalue)]

end

/-! ## Other orders of resolution -/

section

variable {env : Env} {db db' : Db} {asOf : Option LocalDate}

/-- The same claims are in the table and the same are resolved. -/
structure SameResolved (db db' : Db) : Prop where
  claims : ∀ claim, claim ∈ db.claims ↔ claim ∈ db'.claims
  linked : ∀ id, db.IsLinked id ↔ db'.IsLinked id

theorem SameResolved.symm (h : SameResolved db db') : SameResolved db' db :=
  ⟨fun claim => (h.claims claim).symm, fun id => (h.linked id).symm⟩

theorem SameResolved.isInGraph (h : SameResolved db db') (claim : Claim) :
    db'.isInGraph asOf claim = db.isInGraph asOf claim := by
  rw [Bool.eq_iff_iff, isInGraph_iff, isInGraph_iff, h.linked]

/-- The claims with a value are the same, in another order. -/
theorem SameResolved.claimsWith_perm (h : SameResolved db db') (hr : db.Resolved env)
    (hr' : db'.Resolved env) (asOf : Option LocalDate) (entityType : EntityType) (value : String) :
    (db'.claimsWith env asOf entityType value).Perm (db.claimsWith env asOf entityType value) := by
  have hperm : db'.claims.Perm db.claims :=
    (List.perm_ext_iff_of_nodup (List.Nodup.of_map _ hr'.claimIds)
      (List.Nodup.of_map _ hr.claimIds)).2 fun claim => (h.claims claim).symm
  unfold Db.claimsWith
  have hsame : (fun c => db'.isInGraph asOf c && decide (canonicalValue env c entityType =
      some value)) = fun c => db.isInGraph asOf c && decide (canonicalValue env c entityType =
      some value) := by
    funext c
    rw [h.isInGraph]
  rw [hsame]
  exact hperm.filter _

/-- Every vertex has its counterpart in the other graph. -/
theorem SameResolved.exists_vertex (h : SameResolved db db') (hr : db.Resolved env)
    (hr' : db'.Resolved env) {idfWeight : ℕ → F} {float : BigDecimal → F}
    {links links' : List LinkRow} (hlinks : links.Perm (fetchLinks db asOf))
    (hlinks' : links'.Perm (fetchLinks db' asOf)) {v : Vertex F}
    (hv : v ∈ (graphOf idfWeight float db asOf links).vertices) :
    ∃ v' ∈ (graphOf idfWeight float db' asOf links').vertices,
      v'.withoutEntityId = v.withoutEntityId := by
  rcases (mem_vertices_iff hr hlinks).1 hv with ⟨c, hc, hin, rfl⟩ | ⟨⟨id, T, value⟩, -, hsome, rfl⟩
  · refine ⟨vertexOfClaim float c, (mem_vertices_iff hr' hlinks').2 (Or.inl ⟨c, ?_, ?_, rfl⟩), rfl⟩
    · exact (h.claims c).1 hc
    · rwa [h.isInGraph]
  -- an entity is in the graph when some claim has its value, under whatever id
  · have hperm := h.claimsWith_perm hr hr' asOf T value
    rcases List.exists_mem_of_ne_nil _ hsome with ⟨claim, hmem⟩
    rcases List.mem_filter.1 (hperm.mem_iff.2 hmem) with ⟨hclaim, hin⟩
    rw [Bool.and_eq_true, decide_eq_true_eq] at hin
    obtain ⟨id', href', -⟩ :=
      hr'.complete claim hclaim (isInGraph_iff.1 hin.1).1 T value hin.2
    refine ⟨vertexOfEntity env db' asOf (id', T, value), (mem_vertices_iff hr' hlinks').2
      (Or.inr ⟨_, href', ?_, rfl⟩), ?_⟩
    · exact List.ne_nil_of_mem (hperm.mem_iff.2 hmem)
    · simp only [Vertex.withoutEntityId, vertexOfEntity, hperm.length_eq]

/-- Whom a vertex joins does not depend on the id of an entity. -/
theorem SameResolved.joins (h : SameResolved db db') {u x u' x' : Vertex F}
    (hu : u'.withoutEntityId = u.withoutEntityId) (hx : x'.withoutEntityId = x.withoutEntityId)
    (hjoins : Joins env db asOf u x) : Joins env db' asOf u' x' := by
  rcases hjoins with ⟨claim, hclaim, hin, hkind, hname, T, value, hxkind, htype, hval, hcanon⟩
  rcases Vertex.withoutEntityId_eq hu with ⟨hukind, huname, -, -, -⟩
  rcases Vertex.withoutEntityId_eq hx with ⟨hxkind', -, hxtype, hxval, -⟩
  exact ⟨claim, (h.claims claim).1 hclaim, by rwa [h.isInGraph], by rw [hukind, hkind],
    by rw [huname hkind, hname], T, value, by rw [hxkind', hxkind], by rw [hxtype, htype],
    by rw [hxval, hval], hcanon⟩

/-- The graph is the same up to the ids of its entities, whatever order the claims
were resolved in. -/
theorem SameResolved.sameUpToEntityIds (h : SameResolved db db') (hr : db.Resolved env)
    (hr' : db'.Resolved env) {idfWeight : ℕ → F} {float : BigDecimal → F}
    {links links' : List LinkRow} (hlinks : links.Perm (fetchLinks db asOf))
    (hlinks' : links'.Perm (fetchLinks db' asOf)) :
    (graphOf idfWeight float db asOf links).SameUpToEntityIds
      (graphOf idfWeight float db' asOf links') := by
  classical
  have hkeys : ∀ k,
      k ∈ (graphOf idfWeight float db asOf links).vertices.map Vertex.withoutEntityId ↔
        k ∈ (graphOf idfWeight float db' asOf links').vertices.map Vertex.withoutEntityId := by
    intro k
    constructor
    · intro hk
      rcases List.mem_map.1 hk with ⟨v, hv, rfl⟩
      rcases h.exists_vertex hr hr' hlinks hlinks' hv with ⟨v', hv', heq⟩
      exact List.mem_map.2 ⟨v', hv', heq⟩
    · intro hk
      rcases List.mem_map.1 hk with ⟨v, hv, rfl⟩
      rcases h.symm.exists_vertex hr' hr hlinks' hlinks hv with ⟨v', hv', heq⟩
      exact List.mem_map.2 ⟨v', hv', heq⟩
  -- vertices are told apart without the ids, so they can be matched
  obtain ⟨e, he⟩ := Dict.exists_equiv_of_keys Vertex.withoutEntityId
    (nodup_withoutEntityId hr hlinks) (nodup_withoutEntityId hr' hlinks') hkeys
  refine ⟨e, he, ?_⟩
  intro i j weight
  have hget : ∀ k, (graphOf idfWeight float db asOf links).vertices[(k : Fin _).1]? =
      some ((graphOf idfWeight float db asOf links).vertices.get k) :=
    fun k => List.getElem?_eq_getElem k.2
  have hget' : ∀ k, (graphOf idfWeight float db' asOf links').vertices[(k : Fin _).1]? =
      some ((graphOf idfWeight float db' asOf links').vertices.get k) :=
    fun k => List.getElem?_eq_getElem k.2
  have hdegree := (Vertex.withoutEntityId_eq (he j)).2.2.2.2
  rw [mem_weightedEdges_iff hr hlinks, mem_weightedEdges_iff hr' hlinks']
  simp only [hget, hget', Option.some.injEq]
  constructor
  · rintro ⟨u, x, rfl, rfl, hjoins, hweight⟩
    exact ⟨_, _, rfl, rfl, h.joins (he i) (he j) hjoins, by rw [hdegree]; exact hweight⟩
  · rintro ⟨u, x, rfl, rfl, hjoins, hweight⟩
    exact ⟨_, _, rfl, rfl, h.symm.joins (he i).symm (he j).symm hjoins,
      by rw [← hdegree]; exact hweight⟩

end

/-- Databases of the same claims are readable together. -/
theorem SameResolved.readable {db db' : Db} (h : SameResolved db db') {asOf : Option LocalDate}
    (hreadable : db.Readable asOf) : db'.Readable asOf :=
  fun claim hclaim => hreadable claim ((h.claims claim).2 hclaim)

/-- The entity graph of every database that intake and backlog passes reach, in any
order, when its dates can be read: it is simple and bipartite, its claims are the linked ones
within the cutoff, claims share an entity of a type exactly when their raw fields normalize
alike, an entity's degree is the number of its claims, and other orders of resolution give
the same graph up to the ids of the entities. -/
theorem entity_graph_meaning (env : Env) (idfWeight : ℕ → F) (float : BigDecimal → F) (s : Intake)
    (h : (resolving env).Reachable s) (asOf : Option LocalDate) (links : List LinkRow)
    (hlinks : links.Perm (fetchLinks s.db asOf))
    (hdates : ∀ claim ∈ s.db.claims, isWithin asOf claim = true → claim.incidentDate.InRange) :
    ∃ g, returnedGraph idfWeight float s.db asOf links = some g ∧ g.SimpleBipartite ∧
      (∀ name, (∃ v ∈ g.vertices, v.kind = .claim ∧ v.name = name) ↔
        ∃ claim ∈ s.db.claims, s.db.IsLinked claim.id ∧ isWithin asOf claim = true ∧
          claim.id.toString = name) ∧
      (∀ u ∈ g.vertices, ∀ u' ∈ g.vertices,
        ∀ claim ∈ s.db.claims, ∀ claim' ∈ s.db.claims, u.kind = .claim → u'.kind = .claim →
          u.name = claim.id.toString → u'.name = claim'.id.toString → ∀ entityType,
          (∃ x ∈ g.vertices, x.entityType = some entityType ∧ g.Adjacent u x ∧ g.Adjacent u' x) ↔
            ∃ value, canonicalValue env claim entityType = some value ∧
              canonicalValue env claim' entityType = some value) ∧
      (∀ x ∈ g.vertices, x.kind = .entity →
        ∃ entityType value, x.entityType = some entityType ∧ x.canonicalValue = some value ∧
          x.degreeRaw = some (s.db.claimsWith env asOf entityType value).length) ∧
      ∀ (s' : Intake) (links' : List LinkRow), (resolving env).Reachable s' →
        links'.Perm (fetchLinks s'.db asOf) → SameResolved s.db s'.db →
        ∃ g', returnedGraph idfWeight float s'.db asOf links' = some g' ∧
          g.SameUpToEntityIds g' := by
  have hr := resolved_of_reachable h
  refine ⟨graphOf idfWeight float s.db asOf links, if_pos hdates,
    simpleBipartite_buildGraph (rows_of_perm hr hlinks), ?_, ?_, ?_, ?_⟩
  · intro name
    constructor
    · rintro ⟨v, hv, hkind, rfl⟩
      rcases (mem_vertices_iff hr hlinks).1 hv with ⟨c, hc, hin, rfl⟩ | ⟨ref, -, -, rfl⟩
      · rcases isInGraph_iff.1 hin with ⟨hlinked, hwithin⟩
        exact ⟨c, hc, hlinked, hwithin, rfl⟩
      · cases hkind
    · rintro ⟨claim, hclaim, hlinked, hwithin, rfl⟩
      exact ⟨vertexOfClaim float claim, (mem_vertices_iff hr hlinks).2
        (Or.inl ⟨claim, hclaim, isInGraph_iff.2 ⟨hlinked, hwithin⟩, rfl⟩), rfl, rfl⟩
  · intro u hu u' hu' claim hclaim claim' hclaim' hkind hkind' hname hname' entityType
    exact shares_iff hr hlinks hclaim hclaim' hu hu' hkind hkind' hname hname' entityType
  · intro x hx hkind
    rcases eq_vertexOfEntity hr hlinks hx hkind with ⟨⟨id, T, v⟩, -, rfl⟩
    exact ⟨T, v, rfl, rfl, rfl⟩
  · intro s' links' h' hlinks' hsame
    exact ⟨_, if_pos (hsame.readable hdates),
      hsame.sameUpToEntityIds hr (resolved_of_reachable h') hlinks hlinks'⟩

namespace Sample

/-- A second claim with the same phone, loaded in bulk. -/
def loadedClaim : Claim where
  id := ⟨6⟩
  claimantName := "Ravi"
  policyNumber := "P-2"
  claimAmount := ⟨990000, 2⟩
  incidentDate := ⟨20460⟩
  claimantPhone := "+919876500011"
  claimantAddress := "7 Hill St"
  repairShopName := none
  status := .submitted

/-- One claim through intake, one through a backlog pass. -/
def resolution : List IntakeStep :=
  [.createClaim request draws, .bulkLoad loadedClaim, .startBacklog 0,
    .resolveNext 0 ⟨fun | .phone => ⟨7⟩ | .address => ⟨8⟩ | .shop => ⟨9⟩, fun _ => now⟩]

/-- Where the pass ends. -/
def resolved : Intake :=
  ((resolving env).run ⟨Db.empty, fun _ => none⟩ resolution).getD ⟨Db.empty, fun _ => none⟩

theorem reachable_resolved : (resolving env).Reachable resolved := by
  have hsome : ((resolving env).run ⟨Db.empty, fun _ => none⟩ resolution).isSome = true := by
    decide +kernel
  exact ⟨⟨Db.empty, fun _ => none⟩, resolution, ⟨rfl, rfl, rfl, fun _ => rfl⟩,
    (Option.getD_of_ne_none (Option.isSome_iff_ne_none.1 hsome) _).symm⟩

theorem readable_resolved : ∀ claim ∈ resolved.db.claims, isWithin none claim = true →
    claim.incidentDate.InRange := by
  decide +kernel

end Sample

/-- The two claims of the sample share the phone and nothing else; in the place of
floating-point numbers are whole ones. -/
theorem entity_graph_meaning_resolved :
    ∃ g : Graph ℕ, returnedGraph id (fun amount => amount.unscaled.natAbs) Sample.resolved.db none
        (fetchLinks Sample.resolved.db none) = some g ∧ g.SimpleBipartite ∧
      g.edges = [(0, 2), (0, 3), (1, 2), (1, 4)] ∧
      g.vertices.map Vertex.degreeRaw = [none, none, some 2, some 1, some 1] := by
  obtain ⟨g, hg, hsimple, -⟩ := entity_graph_meaning Sample.env id
    (fun amount => amount.unscaled.natAbs) Sample.resolved Sample.reachable_resolved none _
    (List.Perm.refl _) Sample.readable_resolved
  have hshape : (returnedGraph id (fun amount => amount.unscaled.natAbs) Sample.resolved.db none
      (fetchLinks Sample.resolved.db none)).map (fun g => (g.edges, g.vertices.map Vertex.degreeRaw))
      = some ([(0, 2), (0, 3), (1, 2), (1, 4)], [none, none, some 2, some 1, some 1]) := by
    decide +kernel
  rw [hg, Option.map_some, Option.some.injEq, Prod.mk.injEq] at hshape
  exact ⟨g, hg, hsimple, hshape.1, hshape.2⟩

end ClaimGuard
