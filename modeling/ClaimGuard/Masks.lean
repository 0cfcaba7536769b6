import ClaimGuard.Provenance

/-!
# What a score can tell about a value

Phones, addresses and shop names leave the scoring service under a mask only. So two
databases whose entities look alike under their masks give the same scores with the same
explanations, whatever the claimants typed; names and policy numbers are not read at all.
-/

namespace ClaimGuard

open Floats

/-! ## Masks -/

/-- A masked value: the first two and the last two characters, if there are more than four. -/
theorem toList_maskEntityValue (rawValue : String) : (maskEntityValue rawValue).toList =
    if rawValue.toList.length ≤ 4 then List.replicate rawValue.toList.length '*'
    else rawValue.toList.take 2 ++ List.replicate (rawValue.toList.length - 4) '*' ++
      rawValue.toList.drop (rawValue.toList.length - 2) := by
  unfold maskEntityValue
  simp only
  split <;> exact String.toList_ofList

theorem length_maskEntityValue (rawValue : String) :
    (maskEntityValue rawValue).toList.length = rawValue.toList.length := by
  rw [toList_maskEntityValue]
  split
  · exact List.length_replicate
  · simp only [List.length_append, List.length_take, List.length_replicate, List.length_drop]
    omega

/-- A mask is its own mask. -/
theorem maskEntityValue_idem (rawValue : String) :
    maskEntityValue (maskEntityValue rawValue) = maskEntityValue rawValue := by
  apply String.toList_inj.1
  rw [toList_maskEntityValue (maskEntityValue rawValue), length_maskEntityValue,
    toList_maskEntityValue]
  generalize rawValue.toList = chars
  by_cases hshort : chars.length ≤ 4
  · rw [if_pos hshort, if_pos hshort]
  · rw [if_neg hshort, if_neg hshort]
    have hfirst : (chars.take 2).length = 2 := by
      rw [List.length_take]
      omega
    have hmiddle : (chars.take 2 ++ List.replicate (chars.length - 4) '*').length =
        chars.length - 2 := by
      rw [List.length_append, hfirst, List.length_replicate]
      omega
    -- the ends are what the ends were
    have htake : (chars.take 2 ++ List.replicate (chars.length - 4) '*' ++
        chars.drop (chars.length - 2)).take 2 = chars.take 2 := by
      rw [List.append_assoc, List.take_left' hfirst]
    rw [List.drop_left' hmiddle, htake]

/-- Four characters of a value at most are not a star. -/
theorem countP_maskEntityValue_le (rawValue : String) :
    (maskEntityValue rawValue).toList.countP (fun c => decide (c ≠ '*')) ≤ 4 := by
  have hstars : ∀ n, (List.replicate n '*').countP (fun c => decide (c ≠ '*')) = 0 := by
    intro n
    rw [List.countP_replicate]
    rfl
  rw [toList_maskEntityValue]
  generalize rawValue.toList = chars
  split
  · rw [hstars]
    omega
  · rw [List.countP_append, List.countP_append, hstars]
    have hfirst := (chars.take 2).countP_le_length (p := fun c => decide (c ≠ '*'))
    have hlast := (chars.drop (chars.length - 2)).countP_le_length
      (p := fun c => decide (c ≠ '*'))
    rw [List.length_take] at hfirst
    rw [List.length_drop] at hlast
    omega

/-- A character of a mask is a star or one of the value. -/
theorem mem_of_mem_maskEntityValue {rawValue : String} {c : Char}
    (h : c ∈ (maskEntityValue rawValue).toList) : c = '*' ∨ c ∈ rawValue.toList := by
  rw [toList_maskEntityValue] at h
  split at h
  · exact Or.inl (List.eq_of_mem_replicate h)
  · rw [List.mem_append, List.mem_append] at h
    rcases h with (hfirst | hstar) | hlast
    · exact Or.inr (List.mem_of_mem_take hfirst)
    · exact Or.inl (List.eq_of_mem_replicate hstar)
    · exact Or.inr (List.mem_of_mem_drop hlast)

/-! ## Masked graphs -/

section

variable {F : Type}

/-- The vertex with its value masked. -/
def Vertex.masked (v : Vertex F) : Vertex F :=
  { v with canonicalValue := v.canonicalValue.map maskEntityValue }

/-- The graph with all its values masked. -/
def Graph.masked (g : Graph F) : Graph F := { g with vertices := g.vertices.map Vertex.masked }

/-- The graph library does not look at the values. -/
structure Igraph.IgnoresValues (ig : Igraph F) : Prop where
  incident : ∀ g : Graph F, ig.incident g.masked = ig.incident g
  neighbors : ∀ g : Graph F, ig.neighbors g.masked = ig.neighbors g
  connectedComponents : ∀ g : Graph F, ig.connectedComponents g.masked = ig.connectedComponents g
  findPartition : ∀ g : Graph F, ig.findPartition g.masked = ig.findPartition g
  personalizedPagerank : ∀ g : Graph F,
    ig.personalizedPagerank g.masked = ig.personalizedPagerank g

namespace Graph

variable (g : Graph F)

@[simp] theorem vertices_masked : g.masked.vertices = g.vertices.map Vertex.masked := rfl

@[simp] theorem edges_masked : g.masked.edges = g.edges := rfl

@[simp] theorem weights_masked : g.masked.weights = g.weights := rfl

@[simp] theorem otherEnd_masked : g.masked.otherEnd = g.otherEnd := rfl

theorem getElem?_masked (i : ℕ) :
    g.masked.vertices[i]? = (g.vertices[i]?).map Vertex.masked := by
  rw [vertices_masked, List.getElem?_map]

/-- What is kept of a masked graph is masked. -/
theorem deleteVertices_masked (deleted : List ℕ) :
    g.masked.deleteVertices deleted = (g.deleteVertices deleted).masked := by
  unfold deleteVertices masked weightedEdges
  simp only [List.length_map, List.getElem?_map, Graph.mk.injEq, and_true]
  rw [List.map_filterMap]

theorem claimMembers_masked (members : List ℕ) :
    g.masked.claimMembers members = g.claimMembers members := by
  unfold claimMembers
  simp only [getElem?_masked]
  rw [← List.map_filterMap, List.filterMap_map]
  rfl

theorem claimVertexNames_masked : g.masked.claimVertexNames = g.claimVertexNames := by
  unfold claimVertexNames
  rw [vertices_masked, List.filter_map, List.map_map]
  rfl

theorem nameToIndex_masked : g.masked.nameToIndex = g.nameToIndex := by
  unfold nameToIndex
  rw [vertices_masked, List.zipIdx_map, List.map_map]
  rfl

theorem claimIndex_masked : g.masked.claimIndex = g.claimIndex := by
  unfold claimIndex
  rw [vertices_masked, List.zipIdx_map, List.filter_map, List.map_map]
  rfl

theorem pruneHighDegreeEntities_masked (degreeThresholds : List (EntityType × ℕ)) :
    pruneHighDegreeEntities g.masked degreeThresholds =
      (pruneHighDegreeEntities g degreeThresholds).masked := by
  unfold pruneHighDegreeEntities
  rw [deleteVertices_masked, vertices_masked, List.zipIdx_map, List.filter_map, List.map_map]
  rfl

end Graph

end

/-! ## Scores of a masked graph -/

section

variable {F : Type} [Floats F] {ig : Igraph F} (hig : ig.IgnoresValues) (g : Graph F)

include hig

omit [Floats F] in
theorem rung1Components_masked (degreeThresholds : List (EntityType × ℕ)) (minRingSize : ℕ) :
    rung1Components ig g.masked degreeThresholds minRingSize =
      rung1Components ig g degreeThresholds minRingSize := by
  unfold rung1Components
  simp only [Graph.pruneHighDegreeEntities_masked, hig.connectedComponents,
    Graph.claimMembers_masked]

theorem rung2Leiden_masked (resolution : F) (minRingSize : ℕ) :
    rung2Leiden ig g.masked resolution minRingSize = rung2Leiden ig g resolution minRingSize := by
  have hmembers : ∀ part : List ℕ, (part.filterMap fun i => g.masked.vertices[i]?) =
      (part.filterMap fun i => g.vertices[i]?).map Vertex.masked := by
    intro part
    simp only [Graph.getElem?_masked]
    rw [List.map_filterMap]
  unfold rung2Leiden
  simp only [hig.findPartition, hmembers, List.filter_map, List.countP_map, List.map_map,
    List.length_map]
  rfl

theorem rung3Ppr_masked (seedClaimIds : List String) :
    rung3Ppr ig g.masked seedClaimIds = rung3Ppr ig g seedClaimIds := by
  unfold rung3Ppr
  simp only [hig.personalizedPagerank, Graph.vertices_masked, List.zip_map_left,
    List.filterMap_map]
  rfl

theorem detect_masked : detect ig g.masked = detect ig g := by
  unfold detect detectWith rankedVerdicts
  simp only [rung1Components_masked hig, rung2Leiden_masked hig, rung3Ppr_masked hig,
    Graph.claimVertexNames_masked]

/-- The context of the rows has the graph, and is the same in the rest. -/
theorem buildFeatureContext_masked : buildFeatureContext ig g.masked =
    { buildFeatureContext ig g with g := g.masked } := by
  unfold buildFeatureContext
  simp only [rung1Components_masked hig, rung2Leiden_masked hig, rung3Ppr_masked hig,
    Graph.nameToIndex_masked]

omit [Floats F] in
theorem twoHopClaims_masked (claimId : String) (entityIndices : List ℕ) :
    twoHopClaims ig g.masked claimId entityIndices = twoHopClaims ig g claimId entityIndices := by
  unfold twoHopClaims
  simp only [Graph.getElem?_masked, hig.neighbors, Graph.claimMembers_masked]
  congr 3
  funext i
  cases g.vertices[i]? <;> rfl

theorem extractFeatures_masked (claimId : String) :
    extractFeatures ig (buildFeatureContext ig g.masked) claimId =
      extractFeatures ig (buildFeatureContext ig g) claimId := by
  rw [buildFeatureContext_masked hig]
  have hgraph : (buildFeatureContext ig g).g = g := rfl
  generalize buildFeatureContext ig g = ctx at hgraph ⊢
  subst hgraph
  unfold extractFeatures
  cases Dict.get ctx.nameToIndex claimId with
  | none => rfl
  | some claimIndex =>
      have hdegrees : ∀ entityIndices : List ℕ,
          ((entityIndices.filterMap fun i => (ctx.g.vertices[i]?).map Vertex.masked).map
            fun v => v.degreeRaw.getD 0) =
          (entityIndices.filterMap fun i => ctx.g.vertices[i]?).map fun v => v.degreeRaw.getD 0 := by
        intro entityIndices
        rw [← List.map_filterMap, List.map_map]
        rfl
      have hdate : ∀ index : Option ℕ,
          ((index.bind fun i => (ctx.g.vertices[i]?).map Vertex.masked).bind
            Vertex.incidentDate) =
          (index.bind fun i => ctx.g.vertices[i]?).bind Vertex.incidentDate := by
        intro index
        cases index with
        | none => rfl
        | some i => cases h : ctx.g.vertices[i]? <;> simp [h, Vertex.masked]
      have hrow : graphFeatures ig { ctx with g := ctx.g.masked } claimId claimIndex =
          graphFeatures ig ctx claimId claimIndex := by
        unfold graphFeatures
        simp only [hig.incident, Graph.otherEnd_masked, Graph.weights_masked,
          twoHopClaims_masked hig, Graph.getElem?_masked, hdegrees, hdate]
      simp only [Graph.getElem?_masked, hrow]
      cases ctx.g.vertices[claimIndex]? <;> rfl

omit [Floats F] in
theorem entityEvidence_masked (claimId : String) (entityIndex : ℕ) :
    entityEvidence ig g.masked claimId entityIndex = entityEvidence ig g claimId entityIndex := by
  have hnames : ∀ neighbors : List ℕ,
      ((neighbors.filterMap fun n => (g.vertices[n]?).map Vertex.masked).map Vertex.name) =
        (neighbors.filterMap fun n => g.vertices[n]?).map Vertex.name := by
    intro neighbors
    rw [← List.map_filterMap, List.map_map]
    rfl
  unfold entityEvidence
  simp only [Graph.getElem?_masked, hig.neighbors, hnames]
  cases g.vertices[entityIndex]? with
  | none => rfl
  | some entity =>
      -- a value that is masked already shows the same mask
      cases hvalue : entity.canonicalValue with
      | none => simp [Vertex.masked, hvalue]
      | some value =>
          simp only [Option.map_some, Vertex.masked, hvalue]
          cases entity.entityType <;> cases entity.degreeRaw <;> simp [maskEntityValue_idem]

theorem sharedEntityEvidence_masked (claimIndex : ℕ) (claimId : String) :
    sharedEntityEvidence ig g.masked claimIndex claimId =
      sharedEntityEvidence ig g claimIndex claimId := by
  unfold sharedEntityEvidence
  simp only [Graph.vertices_masked, List.length_map, Graph.weights_masked, hig.incident,
    Graph.otherEnd_masked, entityEvidence_masked hig]

/-- A claim has the same score in the masked graph. -/
theorem scoreOne_masked {sc : Scoring F} (hsc : sc.ig = ig) (claimId : UUID) :
    scoreOne sc (Cache.of sc g.masked) claimId = scoreOne sc (Cache.of sc g) claimId := by
  subst hsc
  unfold scoreOne Cache.of refresh
  cases sc.classifier with
  | some classifier =>
      simp only [Bool.not_true, Bool.false_eq_true, if_false, buildModelScore, scoreClaim,
        extractFeatures_masked hig, sharedEntityEvidence_masked hig]
      simp only [buildFeatureContext_masked hig]
  | none =>
      simp only [Bool.not_true, Bool.false_eq_true, if_false, buildScore, detect_masked hig,
        Graph.claimIndex_masked, sharedEntityEvidence_masked hig]

end

/-! ## Databases that look alike -/

/-- The row with its value masked. -/
def LinkRow.masked (r : LinkRow) : LinkRow :=
  { r with canonicalValue := maskEntityValue r.canonicalValue }

/-- The databases have claims with the same ids, amounts and dates, and their links go to
entities of the same ids and types whose values look alike. -/
structure Db.LooksLike (db db' : Db) : Prop where
  claims : db.claims.map (fun c => (c.id, c.claimAmount, c.incidentDate)) =
    db'.claims.map fun c => (c.id, c.claimAmount, c.incidentDate)
  links : db.claimEntities.map ClaimEntityLink.id = db'.claimEntities.map ClaimEntityLink.id
  entities : db.entities.map (fun e => (e.id, e.entityType, maskEntityValue e.canonicalValue)) =
    db'.entities.map fun e => (e.id, e.entityType, maskEntityValue e.canonicalValue)

section

variable {F : Type}

/-- The graph of masked rows is the masked graph. -/
theorem buildGraph_masked (idfWeight : ℕ → F) (rows : List LinkRow)
    (claimAttrs : List (String × F × LocalDate)) :
    buildGraph idfWeight (rows.map LinkRow.masked) claimAttrs =
      (buildGraph idfWeight rows claimAttrs).masked := by
  have hedges : edgesRaw (rows.map LinkRow.masked) = edgesRaw rows := by
    unfold edgesRaw
    rw [List.map_map]
    rfl
  have hmeta : entityMeta (rows.map LinkRow.masked) =
      (entityMeta rows).map fun e => (e.1, e.2.1, maskEntityValue e.2.2) := by
    unfold entityMeta
    rw [List.map_map, List.map_map]
    rfl
  have hclaims : claimNames (rows.map LinkRow.masked) = claimNames rows := by
    unfold claimNames
    rw [hedges]
  have hentities : entityNames (rows.map LinkRow.masked) = entityNames rows := by
    unfold entityNames
    rw [hmeta, List.map_map]
    rfl
  have hdegree : ∀ name, degree (rows.map LinkRow.masked) name = degree rows name := by
    intro name
    unfold degree
    rw [hedges]
  have hget : ∀ name, Dict.get (entityMeta (rows.map LinkRow.masked)) name =
      (Dict.get (entityMeta rows) name).map fun e => (e.1, maskEntityValue e.2) := by
    intro name
    rw [hmeta]
    exact Dict.get_map_values (fun e : EntityType × String => (e.1, maskEntityValue e.2)) _ _
  have hvertex : entityVertex (F := F) (rows.map LinkRow.masked) = fun name =>
      (entityVertex rows name).masked := by
    funext name
    unfold entityVertex Vertex.masked
    simp only [hget, hdegree, Option.map_map]
    rfl
  have hclaim : ∀ name, (claimVertex claimAttrs name).masked = claimVertex claimAttrs name :=
    fun name => rfl
  unfold buildGraph Graph.masked
  simp only [hedges, hclaims, hentities, hdegree, List.map_append, List.map_map,
    Function.comp_def, hvertex, hclaim]

variable {db db' : Db} (h : db.LooksLike db') (asOf : Option LocalDate)

include h

theorem Db.LooksLike.fetchClaimAttributes (float : BigDecimal → F) :
    ClaimGuard.fetchClaimAttributes float db asOf =
      ClaimGuard.fetchClaimAttributes float db' asOf := by
  have hread : ∀ db : Db, ClaimGuard.fetchClaimAttributes float db asOf =
      ((db.claims.map fun c => (c.id, c.claimAmount, c.incidentDate)).filter fun c =>
        asOf.all fun date => decide (c.2.2.Le date)).map fun c =>
          (c.1.toString, float c.2.1, c.2.2) := by
    intro db
    unfold ClaimGuard.fetchClaimAttributes
    rw [List.filter_map, List.map_map]
    cases asOf <;> rfl
  rw [hread, hread, h.claims]

/-- The queries answer alike. -/
theorem Db.LooksLike.fetchLinks : (ClaimGuard.fetchLinks db asOf).map LinkRow.masked =
    (ClaimGuard.fetchLinks db' asOf).map LinkRow.masked := by
  -- what the join reads of the three tables
  have hread : ∀ db : Db, (ClaimGuard.fetchLinks db asOf).map LinkRow.masked =
      (db.claimEntities.map ClaimEntityLink.id).filterMap fun id =>
        ((db.entities.map fun e => (e.id, e.entityType, maskEntityValue e.canonicalValue)).find?
            fun e => decide (e.1 = id.entityId)).bind fun e =>
          ((db.claims.map fun c => (c.id, c.claimAmount, c.incidentDate)).find?
              fun c => decide (c.1 = id.claimId)).bind fun c =>
            if asOf.all (fun date => decide (c.2.2.Le date)) then
              some ⟨id.claimId, id.entityId, e.2.1, e.2.2⟩
            else none := by
    intro db
    unfold ClaimGuard.fetchLinks
    rw [List.map_filterMap, List.filterMap_map]
    congr 1
    funext l
    unfold linkRow Db.findById Table.find
    simp only [List.find?_map, Function.comp_def]
    cases db.entities.find? (fun e => decide (e.id = l.id.entityId)) <;>
      cases db.claims.find? (fun c => decide (c.id = l.id.claimId)) <;> try rfl
    rename_i e c
    cases asOf with
    | none => rfl
    | some date => by_cases hle : c.incidentDate.Le date <;> simp [isWithin, LinkRow.masked, hle]
  rw [hread, hread, h.claims, h.links, h.entities]

/-- To every order of the rows of one there is the same of the other. -/
theorem Db.LooksLike.exists_rows {rows : List LinkRow}
    (hrows : rows.Perm (ClaimGuard.fetchLinks db asOf)) :
    ∃ rows' : List LinkRow, rows'.Perm (ClaimGuard.fetchLinks db' asOf) ∧
      rows.map LinkRow.masked = rows'.map LinkRow.masked := by
  have hforall : List.Forall₂ (fun r r' : LinkRow => r.masked = r'.masked)
      (ClaimGuard.fetchLinks db asOf) (ClaimGuard.fetchLinks db' asOf) := by
    have hmasked := h.fetchLinks asOf
    rw [← List.forall₂_eq_eq_eq, List.forall₂_map_left_iff, List.forall₂_map_right_iff] at hmasked
    exact hmasked
  rcases List.perm_comp_forall₂ hrows hforall with ⟨rows', hsame, hperm⟩
  refine ⟨rows', hperm, ?_⟩
  rw [← List.forall₂_eq_eq_eq, List.forall₂_map_left_iff, List.forall₂_map_right_iff]
  exact hsame

end

/-- Scores and their explanations tell nothing of names and policy numbers, and of a phone, an
address or a shop only its mask: whatever order the rows of one database come in, the rows of
one that looks like it can come so that every claim has the same score, or none, or the same
error. -/
theorem scores_see_masks (svc : Services) (hig : svc.sc.ig.IgnoresValues) (db db' : Db)
    (h : db.LooksLike db') (rows : List LinkRow) (hrows : rows.Perm (fetchLinks db none)) :
    ∃ rows' : List LinkRow, rows'.Perm (fetchLinks db' none) ∧ ∀ claimId,
      scoreOne svc.sc (Cache.of svc.sc (svc.graph db rows)) claimId =
        scoreOne svc.sc (Cache.of svc.sc (svc.graph db' rows')) claimId := by
  rcases h.exists_rows none hrows with ⟨rows', hrows', hmasked⟩
  have hgraph : (svc.graph db rows).masked = (svc.graph db' rows').masked := by
    unfold Services.graph graphOf
    rw [← buildGraph_masked, ← buildGraph_masked, hmasked, h.fetchClaimAttributes none svc.float]
  refine ⟨rows', hrows', fun claimId => ?_⟩
  rw [← scoreOne_masked hig (svc.graph db rows) rfl, hgraph, scoreOne_masked hig _ rfl]

namespace Sample

theorem ignoresValues_ig : (ig : Igraph Double).IgnoresValues where
  incident _ := rfl
  neighbors _ := rfl
  connectedComponents g := by
    show [List.range g.masked.vertices.length] = [List.range g.vertices.length]
    rw [Graph.vertices_masked, List.length_map]
  findPartition g := by
    funext resolution seed
    show [List.range g.masked.vertices.length] = [List.range g.vertices.length]
    rw [Graph.vertices_masked, List.length_map]
  personalizedPagerank g := by
    funext seeds damping
    show g.masked.vertices.map _ = g.vertices.map _
    rw [Graph.vertices_masked, List.map_map, List.length_map]
    rfl

/-- Another name, policy and phone, and an address that normalizes to other words of the same
lengths and ends. -/
def lookalikeRequest : ClaimRequest :=
  { request with
    claimantName := "Ravi"
    policyNumber := "P-77"
    claimantPhone := "+919123499911"
    claimantAddress := "12 MX Rd" }

/-- The database of such a claim. -/
def lookalike : Db := serve env Db.empty (.createClaim lookalikeRequest draws)

theorem looksLike_lookalike : created.LooksLike lookalike :=
  ⟨by decide +kernel, by decide +kernel, by decide +kernel⟩

end Sample

/-- The claims of the two requests. -/
theorem scores_see_masks_lookalike : Sample.created.claims ≠ Sample.lookalike.claims ∧
    ∃ rows' : List LinkRow, rows'.Perm (fetchLinks Sample.lookalike none) ∧ ∀ claimId,
      scoreOne Sample.services.sc (Cache.of Sample.services.sc
          (Sample.services.graph Sample.created (fetchLinks Sample.created none))) claimId =
        scoreOne Sample.services.sc (Cache.of Sample.services.sc
          (Sample.services.graph Sample.lookalike rows')) claimId :=
  ⟨by decide +kernel, scores_see_masks Sample.services Sample.ignoresValues_ig _ _
    Sample.looksLike_lookalike _ (List.Perm.refl _)⟩

end ClaimGuard
