import ClaimGuard.Features
import ClaimGuard.Lib.Results
import ClaimGuard.ScoringModels

/-!
# Scores with their evidence

A claim's position in the graph as the evidence a reviewer reads: the entities it shares,
the rarest first, and what drove the score. The trained model and the rule-based
detector each have a function that builds the whole score.
-/

namespace ClaimGuard

variable {F : Type}

/-- What can go wrong while the cache is filled or a claim is scored. -/
inductive ScoringError where
  /-- `build_graph` raised. -/
  | graph
  /-- `build_feature_context` or `detect` raised. -/
  | analytics
  /-- An attribute of `None` was asked for. -/
  | absent
  /-- A vertex or one of its attributes is not there. -/
  | lookup
  /-- A field of the result is not valid. -/
  | validation
deriving DecidableEq, Repr

/-- `MAX_EVIDENCE_ENTITIES`. -/
def maxEvidenceEntities : ℕ := 5

/-- `MAX_NEIGHBORS_PER_ENTITY`. -/
def maxNeighborsPerEntity : ℕ := 10

/-- `MAX_SHAP_FEATURES`. -/
def maxShapFeatures : ℕ := 5

/-- `mask_entity_value`. -/
def maskEntityValue (rawValue : String) : String :=
  let chars := rawValue.toList
  if chars.length ≤ 4 then String.ofList (List.replicate chars.length '*')
  else
    String.ofList (chars.take 2 ++ List.replicate (chars.length - 4) '*' ++
      chars.drop (chars.length - 2))

/-- A printed id, as the result holds it. -/
def readUuid (s : String) : Except ScoringError UUID :=
  match UUID.parse? s with
  | none => throw .validation
  | some id => pure id

/-- The evidence of one entity: the other claims that have it. -/
def entityEvidence (ig : Igraph F) (g : Graph F) (claimId : String) (entityIndex : ℕ) :
    Except ScoringError (Evidence F) :=
  match g.vertices[entityIndex]? with
  | none => throw .lookup
  | some entity =>
      let neighborNames := ((((ig.neighbors g entityIndex).filterMap fun n => g.vertices[n]?).map
        Vertex.name).filter fun name => decide (name ≠ claimId)).take maxNeighborsPerEntity
      match entity.entityType, entity.canonicalValue, entity.degreeRaw with
      | some entityType, some value, some degree => do
          let ids ← neighborNames.mapM readUuid
          pure (.sharedEntity entityType.name (maskEntityValue value) degree ids)
      | _, _, _ => throw .lookup

variable [Floats F]

open Floats

/-- `_shared_entity_evidence`. -/
def sharedEntityEvidence (ig : Igraph F) (g : Graph F) (claimIndex : ℕ) (claimId : String) :
    Except ScoringError (List (Evidence F)) :=
  if g.vertices.length ≤ claimIndex then throw .lookup
  else
    let weight := fun eid => g.weights.getD eid (ofRat 0)
    let incidentEdgeIds := ((ig.incident g claimIndex).insertionSort fun a b =>
      le (weight b) (weight a) = true).take maxEvidenceEntities
    incidentEdgeIds.mapM fun eid => entityEvidence ig g claimId (g.otherEnd claimIndex eid)

/-- `_decision_hint`. -/
def decisionHint (score flagAt reviewAt : F) : DecisionHint :=
  if le flagAt score then .flag else if le reviewAt score then .review else .clear

/-- The result, once its claim id and its score are valid. -/
def claimScore (claimId modelVersion : String) (fraudScore : F) (hint : DecisionHint)
    (ringId : Option String) (rung : String) (explanation : Explanation F) :
    Except ScoringError (ClaimScore F) := do
  let id ← readUuid claimId
  if le (ofRat 0) fraudScore && le fraudScore (ofRat 1) then
    pure { claimId := id
           modelVersion := modelVersion
           fraudScore := fraudScore
           decisionHint := hint
           ringId := ringId
           rung := rung
           explanation := explanation }
  else throw .validation

/-! ## The trained model -/

/-- The loaded model: a probability and the attributions for a row, and its thresholds. -/
structure RingClassifier (F : Type) where
  predictProba : List F → F
  shapValues : List F → List F
  modelVersion : String
  flagThreshold : F
  reviewThreshold : F

/-- The attribution of one feature. -/
structure FeatureContribution (F : Type) where
  feature : String
  featureValue : F
  shapValue : F

/-- `score_claim`. -/
def scoreClaim (ig : Igraph F) (classifier : RingClassifier F) (ctx : FeatureContext F)
    (claimId : String) : Option (F × List (FeatureContribution F)) :=
  match extractFeatures ig ctx claimId with
  | none => none
  | some features =>
      let value := fun name => (Dict.get features name).getD (ofRat 0)
      let row := allFeatures.map value
      let ranked := ((allFeatures.zip (classifier.shapValues row)).insertionSort fun a b =>
        le (-Floats.abs a.2) (-Floats.abs b.2) = true).take maxShapFeatures
      some (classifier.predictProba row, ranked.map fun e => ⟨e.1, value e.1, e.2⟩)

/-- `_feature_contribution_evidence`. -/
def featureContributionEvidence (contributions : List (FeatureContribution F)) :
    List (Evidence F) :=
  contributions.map fun c => .featureContribution c.feature c.featureValue c.shapValue

/-- The summary of a score of the model. -/
def modelSummary (probability : F) (evidence : List (Evidence F))
    (contributions : List (FeatureContribution F)) : String :=
  if evidence.isEmpty then "No shared entities with any other claim."
  else
    "Fraud probability " ++ Floats.format probability 2 ++ " from the trained ring classifier" ++
      (match contributions.head? with
        | none => ""
        | some c => " (driven mainly by " ++ c.feature ++ ")") ++ "."

/-- `build_model_score`. -/
def buildModelScore (ig : Igraph F) (g : Graph F) (ctx : FeatureContext F)
    (classifier : RingClassifier F) (claimId : String) :
    Except ScoringError (Option (ClaimScore F)) :=
  -- the index is that of the context, the vertex is taken from the graph
  match Dict.get ctx.nameToIndex claimId with
  | none => pure none
  | some claimIndex =>
      match scoreClaim ig classifier ctx claimId with
      | none => pure none
      | some (probability, contributions) => do
          let shared ← sharedEntityEvidence ig g claimIndex claimId
          let evidence := shared ++ featureContributionEvidence contributions
          let ringId := match Dict.get ctx.componentOf claimId with
            | some ringId => some ringId
            | none => (Dict.get ctx.leidenVerdicts claimId).bind ClaimVerdict.ringId
          let score ← claimScore claimId classifier.modelVersion (Floats.round probability 4)
            (decisionHint probability classifier.flagThreshold classifier.reviewThreshold) ringId
            "xgboost"
            { summary := modelSummary probability evidence contributions
              evidence := evidence
              thresholds := ⟨classifier.flagThreshold, classifier.reviewThreshold⟩ }
          pure (some score)

/-! ## The rule-based detector -/

/-- The evidence of a verdict's community. -/
def communityEvidence (verdict : ClaimVerdict F) : List (Evidence F) :=
  if verdict.communityClaimIds.isEmpty then []
  else [.ringMetric "community_size" (ofRat verdict.communityClaimIds.length) (ofRat 1)]

/-- The summary of a verdict. -/
def verdictSummary (verdict : ClaimVerdict F) (evidence : List (Evidence F)) : String :=
  if verdict.rung = "none" ∨ evidence.isEmpty then "No shared entities with any other claim."
  else
    match verdict.ringId with
    | some ringId =>
        "Part of a " ++ toString verdict.communityClaimIds.length ++ "-claim cluster (" ++ ringId ++
          ") detected via " ++ verdict.rung ++ "."
    | none => "Elevated risk via proximity to a flagged cluster (rung: " ++ verdict.rung ++ ")."

/-- `build_score`. -/
def buildScore (ig : Igraph F) (g : Graph F) (nameToIndex : List (String × ℕ))
    (verdicts : List (String × ClaimVerdict F)) (claimId modelVersion : String) :
    Except ScoringError (Option (ClaimScore F)) :=
  match Dict.get verdicts claimId, Dict.get nameToIndex claimId with
  | some verdict, some claimIndex => do
      let shared ← sharedEntityEvidence ig g claimIndex claimId
      let evidence := shared ++ communityEvidence verdict
      let score ← claimScore claimId modelVersion verdict.fraudScore
        (decisionHint verdict.fraudScore flagAt reviewAt) verdict.ringId verdict.rung
        { summary := verdictSummary verdict evidence
          evidence := evidence
          thresholds := ⟨flagAt, reviewAt⟩ }
      pure (some score)
  | _, _ => pure none

/-! ## Where the evidence is taken from -/

/-- The evidence of a shared entity. -/
def Evidence.isShared : Evidence F → Bool
  | .sharedEntity _ _ _ _ => true
  | _ => false

/-- The shared entities of the score are those of the vertex of the graph that has the
claim's id for its name. -/
def TakenFrom (ig : Igraph F) (g : Graph F) (score : ClaimScore F) : Prop :=
  ∃ claimIndex v shared, g.vertices[claimIndex]? = some v ∧ v.name = score.claimId.toString ∧
    sharedEntityEvidence ig g claimIndex score.claimId.toString = .ok shared ∧
    score.explanation.evidence.filter Evidence.isShared = shared

end ClaimGuard
