import ClaimGuard.Graph
import ClaimGuard.Lib.RoundedFloats

/-!
# The ring detector

The rungs that look for rings in the entity graph, from connected components to
personalized PageRank, and the verdict they come to on each claim. The graph library is
a parameter.
-/

namespace ClaimGuard

variable {F : Type}

/-! ## The graph library -/

/-- What igraph and leidenalg compute of a graph: the edges at a vertex and its
neighbours in their order, the connected components, the Leiden partition for a
resolution and a seed, and the personalized PageRank for a restart set. -/
structure Igraph (F : Type) where
  incident : Graph F → ℕ → List ℕ
  neighbors : Graph F → ℕ → List ℕ
  connectedComponents : Graph F → List (List ℕ)
  findPartition : Graph F → F → ℕ → List (List ℕ)
  personalizedPagerank : Graph F → Finset String → F → List F

namespace Graph

/-- `Graph.degree`. -/
def degreeAt (g : Graph F) (i : ℕ) : ℕ :=
  (g.edges.map Prod.fst).count i + (g.edges.map Prod.snd).count i

/-- `Graph.delete_vertices`: the vertices that are left move up, and an edge goes with
either of its ends. -/
def deleteVertices (g : Graph F) (deleted : List ℕ) : Graph F :=
  let kept := (List.range g.vertices.length).filter fun i => !deleted.contains i
  let edges := g.weightedEdges.filter fun e => kept.contains e.1.1 && kept.contains e.1.2
  { vertices := kept.filterMap fun i => g.vertices[i]?
    edges := edges.map fun e => (kept.idxOf e.1.1, kept.idxOf e.1.2)
    weights := edges.map Prod.snd }

/-- The end of an edge that is not the vertex. -/
def otherEnd (g : Graph F) (u eid : ℕ) : ℕ :=
  let edge := g.edges.getD eid (0, 0)
  if edge.1 = u then edge.2 else edge.1

/-- The names of the claims among some vertices. -/
def claimMembers (g : Graph F) (members : List ℕ) : List String :=
  (members.filterMap fun i => g.vertices[i]?).filterMap fun v =>
    if v.kind = .claim then some v.name else none

end Graph

/-! ## The first rung -/

/-- `DEFAULT_DEGREE_THRESHOLDS`. -/
def defaultDegreeThresholds : List (EntityType × ℕ) := [(.phone, 50), (.address, 1), (.shop, 50)]

/-- `FALLBACK_DEGREE_THRESHOLD`. -/
def fallbackDegreeThreshold : ℕ := 50

/-- `DEFAULT_MIN_RING_SIZE`. -/
def defaultMinRingSize : ℕ := 3

/-- The threshold of an entity type. -/
def degreeThreshold (degreeThresholds : List (EntityType × ℕ)) (entityType : Option EntityType) :
    ℕ :=
  (entityType.bind (Dict.get degreeThresholds)).getD fallbackDegreeThreshold

/-- `_prune_high_degree_entities`. -/
def pruneHighDegreeEntities (g : Graph F) (degreeThresholds : List (EntityType × ℕ)) : Graph F :=
  g.deleteVertices ((g.vertices.zipIdx.filter fun v => decide (v.1.kind = .entity) &&
    decide (degreeThreshold degreeThresholds v.1.entityType < g.degreeAt v.2)).map Prod.snd)

/-- `rung1_components`: the items of its result. -/
def rung1Components (ig : Igraph F) (g : Graph F) (degreeThresholds : List (EntityType × ℕ))
    (minRingSize : ℕ) : List (String × String) :=
  let pruned := pruneHighDegreeEntities g degreeThresholds
  (ig.connectedComponents pruned).zipIdx.flatMap fun component =>
    let claimMembers := pruned.claimMembers component.1
    if minRingSize ≤ claimMembers.length then
      claimMembers.map fun claimId => (claimId, "kcore-" ++ toString component.2)
    else []

/-! ## The second rung -/

/-- A claim's verdict: its score, the rung that gave it, and its ring. -/
structure ClaimVerdict (F : Type) where
  fraudScore : F
  rung : String
  ringId : Option String
  communityClaimIds : List String

variable [Floats F]

open Floats

/-- `_claimants_per_entity_ratio`. -/
def claimantsPerEntityRatio (claimCount entityCount : ℕ) : F :=
  if entityCount = 0 then ofRat 0 else ofRat (claimCount / entityCount)

/-- `BURSTINESS_WINDOW_DAYS`. -/
def burstinessWindowDays : ℤ := 14

/-- `_burstiness`. -/
def burstiness (dates : List (Option LocalDate)) : F :=
  let validDates := (dates.filterMap id).insertionSort fun a b => a.epochDay ≤ b.epochDay
  if validDates.length < 2 then ofRat 0
  else
    let best := validDates.foldl (fun best start =>
      Nat.max best (validDates.countP fun d =>
        decide (0 ≤ d.epochDay - start.epochDay) &&
          decide (d.epochDay - start.epochDay ≤ burstinessWindowDays))) 1
    ofRat (best / validDates.length)

/-- `_suspiciousness`. -/
def suspiciousness (claimantsPerEntity burstiness : F) : F :=
  let ratioScore := Floats.min (ofRat 1)
    (Floats.max (ofRat 0) ((claimantsPerEntity - ofRat 1) / ofRat 4))
  Floats.round (Floats.min (ofRat 1)
    (ofRat (85 / 100) * ratioScore + ofRat (15 / 100) * burstiness)) 4

/-- `DEFAULT_LEIDEN_RESOLUTION`. -/
def defaultLeidenResolution : F := ofRat (12 / 10)

/-- `rung2_leiden`: the items of its result. -/
def rung2Leiden (ig : Igraph F) (g : Graph F) (resolution : F) (minRingSize : ℕ) :
    List (String × ClaimVerdict F) :=
  -- the seed is pinned
  (ig.findPartition g resolution 42).zipIdx.flatMap fun community =>
    let members := community.1.filterMap fun i => g.vertices[i]?
    let claims := members.filter fun v => decide (v.kind = .claim)
    let entityCount := members.countP fun v => decide (v.kind = .entity)
    if claims.length < minRingSize then []
    else
      let claimMembers := claims.map Vertex.name
      let verdict : ClaimVerdict F :=
        { fraudScore := suspiciousness (claimantsPerEntityRatio claimMembers.length entityCount)
            (burstiness (claims.map Vertex.incidentDate))
          rung := "leiden_community"
          ringId := some ("leiden-" ++ toString community.2)
          communityClaimIds := claimMembers }
      claimMembers.map fun claimId => (claimId, verdict)

/-! ## The third rung -/

/-- `rung3_ppr`: the items of its result. -/
def rung3Ppr (ig : Igraph F) (g : Graph F) (seedClaimIds : List String) : List (String × F) :=
  if seedClaimIds.isEmpty then []
  else
    let pagerank := ig.personalizedPagerank g seedClaimIds.toFinset (ofRat (85 / 100))
    let top := pagerank.tail.foldl Floats.max (pagerank.headD (ofRat 0))
    let maxScore := if truth top then top else ofRat 1
    (g.vertices.zip pagerank).filterMap fun v =>
      if v.1.kind = .claim ∧ v.1.name ∉ seedClaimIds then some (v.1.name, v.2 / maxScore) else none

/-! ## The ladder -/

/-- `FLAG_AT`. -/
def flagAt : F := ofRat (75 / 100)

/-- `REVIEW_AT`. -/
def reviewAt : F := ofRat (40 / 100)

/-- The verdict of the first two rungs on a claim: the higher of their scores. -/
def candidate (rung1 : List (String × String)) (rung2 : List (String × ClaimVerdict F))
    (claimId : String) : Option (ClaimVerdict F) :=
  let first := (Dict.get rung1 claimId).map fun ringId =>
    { fraudScore := ofRat (9 / 10), rung := "k_core", ringId := some ringId
      communityClaimIds := (rung1.filter fun e => decide (e.2 = ringId)).map Prod.fst }
  match first, Dict.get rung2 claimId with
  | none, second => second
  | some v, none => some v
  -- of equal ones the first
  | some v, some w => some (if lt v.fraudScore w.fraudScore then w else v)

/-- The names of the claims, in the order of the vertices. -/
def Graph.claimVertexNames (g : Graph F) : List String :=
  (g.vertices.filter fun v => decide (v.kind = .claim)).map Vertex.name

/-- The verdicts of the first two rungs, by claim. -/
def rankedVerdicts (ig : Igraph F) (g : Graph F) (degreeThresholds : List (EntityType × ℕ))
    (resolution : F) (minRingSize : ℕ) : List (String × ClaimVerdict F) :=
  let rung1 := rung1Components ig g degreeThresholds minRingSize
  let rung2 := rung2Leiden ig g resolution minRingSize
  (sortedNames g.claimVertexNames).filterMap fun claimId =>
    (candidate rung1 rung2 claimId).map fun verdict => (claimId, verdict)

/-- The claims whose verdict is a flag already. -/
def seedClaimIds (verdicts : List (String × ClaimVerdict F)) : List String :=
  (verdicts.filter fun e => le flagAt e.2.fraudScore).map Prod.fst

/-- `detect`: the items of its result. -/
def detectWith (ig : Igraph F) (g : Graph F) (degreeThresholds : List (EntityType × ℕ))
    (resolution : F) (minRingSize : ℕ) : List (String × ClaimVerdict F) :=
  let ranked := rankedVerdicts ig g degreeThresholds resolution minRingSize
  let near := ((rung3Ppr ig g (seedClaimIds ranked)).filter fun e =>
    decide (e.1 ∉ ranked.map Prod.fst) && lt (ofRat (5 / 100)) e.2).map fun e =>
      (e.1, { fraudScore := Floats.round e.2 4, rung := "ppr", ringId := none
              communityClaimIds := [] : ClaimVerdict F })
  let rest := (g.claimVertexNames.filter fun name =>
    decide (name ∉ (ranked ++ near).map Prod.fst)).map fun name =>
      (name, { fraudScore := ofRat 0, rung := "none", ringId := none
               communityClaimIds := [] : ClaimVerdict F })
  ranked ++ near ++ rest

/-- `detect` with its default arguments. -/
def detect (ig : Igraph F) (g : Graph F) : List (String × ClaimVerdict F) :=
  detectWith ig g defaultDegreeThresholds defaultLeidenResolution defaultMinRingSize

namespace Sample

/-- Numbers that are never rounded but on demand. -/
structure Exact where
  value : ℚ
deriving DecidableEq

/-- The digits of `x` with `n` decimals. -/
def decimals (x : ℚ) (n : ℕ) : ℕ := Binary64.roundHalfEven (x * 10 ^ n)

instance : Floats Exact where
  add a b := ⟨a.value + b.value⟩
  sub a b := ⟨a.value - b.value⟩
  mul a b := ⟨a.value * b.value⟩
  div a b := ⟨a.value / b.value⟩
  neg a := ⟨-a.value⟩
  ofRat q := ⟨q⟩
  lt a b := decide (a.value < b.value)
  le a b := decide (a.value ≤ b.value)
  abs a := ⟨|a.value|⟩
  round a n := ⟨decimals a.value n / 10 ^ n⟩
  sum l := ⟨(l.map Exact.value).sum⟩
  format a n := toString (decimals a.value n / 10 ^ n) ++ "." ++
    String.ofList (Text.fixed 10 n (decimals a.value n))

/-- The graph library, as it works on a graph that is connected. -/
def ig : Igraph F where
  incident g i := (List.range g.edges.length).filter fun eid =>
    decide ((g.edges.getD eid (0, 0)).1 = i ∨ (g.edges.getD eid (0, 0)).2 = i)
  neighbors g i := (g.edges.filter fun e => decide (e.1 = i ∨ e.2 = i)).map fun e =>
    if e.1 = i then e.2 else e.1
  connectedComponents g := [List.range g.vertices.length]
  findPartition g _ _ := [List.range g.vertices.length]
  personalizedPagerank g _ _ := g.vertices.map fun _ => ofRat (1 / g.vertices.length)

end Sample

end ClaimGuard
