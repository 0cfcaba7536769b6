import ClaimGuard.Detector

/-!
# The feature rows

A row of numbers for each claim of the graph, from the claim's own attributes and from
the analytics that are shared by all rows.
-/

namespace ClaimGuard

variable {F : Type} [Floats F]

open Floats

/-- `TABULAR_FEATURES`. -/
def tabularFeatureNames : List String := ["claim_amount", "day_of_week", "is_weekend"]

/-- `GRAPH_FEATURES`. -/
def graphFeatureNames : List String :=
  ["entity_degree_min", "entity_degree_mean", "entity_degree_max", "idf_weighted_degree",
    "one_hop_entity_count", "two_hop_claim_count", "claimants_per_entity_1hop",
    "claimants_per_entity_2hop", "burstiness_2hop", "component_size", "leiden_community_size",
    "leiden_suspiciousness", "ppr_score"]

/-- `ALL_FEATURES`. -/
def allFeatures : List String := tabularFeatureNames ++ graphFeatureNames

/-- A row: the items of its dictionary. -/
abbrev FeatureRow (F : Type) := List (String × F)

/-- The computations that the rows share. -/
structure FeatureContext (F : Type) where
  g : Graph F
  nameToIndex : List (String × ℕ)
  componentOf : List (String × String)
  componentSize : List (String × ℕ)
  leidenVerdicts : List (String × ClaimVerdict F)
  pprScores : List (String × F)

/-- The items of `{v["name"]: v.index for v in g.vs}`. -/
def Graph.nameToIndex (g : Graph F) : List (String × ℕ) :=
  g.vertices.zipIdx.map fun v => (v.1.name, v.2)

/-- `build_feature_context`. -/
def buildFeatureContext (ig : Igraph F) (g : Graph F) : FeatureContext F :=
  let rung1 := rung1Components ig g defaultDegreeThresholds defaultMinRingSize
  let leidenVerdicts := rung2Leiden ig g defaultLeidenResolution defaultMinRingSize
  let seeds := (rung1.map Prod.fst ++
    (leidenVerdicts.filter fun e => le flagAt e.2.fraudScore).map Prod.fst).dedup
  { g := g
    nameToIndex := g.nameToIndex
    componentOf := rung1
    componentSize := (rung1.map Prod.snd).dedup.map fun ringId =>
      (ringId, (rung1.map Prod.snd).count ringId)
    leidenVerdicts := leidenVerdicts
    pprScores := rung3Ppr ig g seeds }

/-- `date.weekday()`: Monday is 0. -/
def LocalDate.weekday (date : LocalDate) : ℕ := ((date.epochDay + 3) % 7).toNat

/-- `_tabular_features`. -/
def tabularFeatures (claim : Vertex F) : FeatureRow F :=
  let amount := claim.claimAmount.getD (ofRat 0)
  let weekday := (claim.incidentDate.map LocalDate.weekday).getD 0
  [("claim_amount", if truth amount then amount else ofRat 0),
    ("day_of_week", ofRat weekday),
    ("is_weekend", if 5 ≤ weekday then ofRat 1 else ofRat 0)]

/-- `two_hop_claims`: the other claims of the entities that are not hubs. -/
def twoHopClaims (ig : Igraph F) (g : Graph F) (claimId : String) (entityIndices : List ℕ) :
    List String :=
  let near := entityIndices.flatMap fun i =>
    match g.vertices[i]? with
    | none => []
    | some entity =>
        if degreeThreshold defaultDegreeThresholds entity.entityType < entity.degreeRaw.getD 0 then
          []
        else g.claimMembers (ig.neighbors g i)
  near.dedup.filter fun name => decide (name ≠ claimId)

/-- `_graph_features`. -/
def graphFeatures (ig : Igraph F) (ctx : FeatureContext F) (claimId : String) (claimIndex : ℕ) :
    FeatureRow F :=
  let g := ctx.g
  let incidentEids := ig.incident g claimIndex
  let entityIndices := incidentEids.map (g.otherEnd claimIndex)
  let degreesRaw :=
    (entityIndices.filterMap fun i => g.vertices[i]?).map fun v => v.degreeRaw.getD 0
  -- a claim without entities
  let degrees := if degreesRaw.isEmpty then [0] else degreesRaw
  let weightedDegree := Floats.sum (incidentEids.filterMap fun eid => g.weights[eid]?)
  let twoHop := twoHopClaims ig g claimId entityIndices
  let ratio1hop := if entityIndices.isEmpty then ofRat 0
    else claimantsPerEntityRatio 1 entityIndices.length
  let ratio2hop := if entityIndices.isEmpty then ofRat 0
    else claimantsPerEntityRatio (twoHop.length + 1) entityIndices.length
  let twoHopDates := (claimId :: twoHop).map fun name =>
    ((Dict.get ctx.nameToIndex name).bind fun i => g.vertices[i]?).bind Vertex.incidentDate
  let componentSize := ((Dict.get ctx.componentOf claimId).map fun componentId =>
    (Dict.get ctx.componentSize componentId).getD 1).getD 1
  let leidenVerdict := Dict.get ctx.leidenVerdicts claimId
  [("entity_degree_min", ofRat ((degrees.min?).getD 0 : ℕ)),
    ("entity_degree_mean", ofRat ((degrees.sum : ℕ) / (degrees.length : ℕ))),
    ("entity_degree_max", ofRat ((degrees.max?).getD 0 : ℕ)),
    ("idf_weighted_degree", weightedDegree),
    ("one_hop_entity_count", ofRat entityIndices.length),
    ("two_hop_claim_count", ofRat twoHop.length),
    ("claimants_per_entity_1hop", ratio1hop),
    ("claimants_per_entity_2hop", ratio2hop),
    ("burstiness_2hop", burstiness twoHopDates),
    ("component_size", ofRat componentSize),
    ("leiden_community_size",
      ofRat ((leidenVerdict.map fun v => v.communityClaimIds.length).getD 1 : ℕ)),
    ("leiden_suspiciousness", (leidenVerdict.map ClaimVerdict.fraudScore).getD (ofRat 0)),
    ("ppr_score", (Dict.get ctx.pprScores claimId).getD (ofRat 0))]

/-- `extract_features`. -/
def extractFeatures (ig : Igraph F) (ctx : FeatureContext F) (claimId : String) :
    Option (FeatureRow F) :=
  match Dict.get ctx.nameToIndex claimId with
  | none => none
  | some claimIndex =>
      match ctx.g.vertices[claimIndex]? with
      | none => none
      | some v =>
          if v.kind ≠ .claim then none
          else some (tabularFeatures v ++ graphFeatures ig ctx claimId claimIndex)

/-- `extract_features_bulk`: the items of its result. -/
def extractFeaturesBulk (ig : Igraph F) (g : Graph F) : List (String × Option (FeatureRow F)) :=
  let ctx := buildFeatureContext ig g
  (g.vertices.filter fun v => decide (v.kind = .claim)).map fun v =>
    (v.name, extractFeatures ig ctx v.name)

end ClaimGuard
