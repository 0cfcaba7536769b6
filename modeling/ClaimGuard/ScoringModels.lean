import ClaimGuard.Lib.Uuid

/-!
# The scoring contract

What the scoring service says about a claim: a score, and the evidence for it. `F` is
the type of floating-point numbers. The time of scoring is left out.
-/

namespace ClaimGuard

/-- A piece of evidence. -/
inductive Evidence (F : Type) where
  | sharedEntity (entityType entityValue : String) (entityDegree : ℕ)
      (sharedWithClaimIds : List UUID)
  | ringMetric (metric : String) (value baseline : F)
  | featureContribution (feature : String) (featureValue shapValue : F)

/-- The cutoffs the hint was derived from. -/
structure Thresholds (F : Type) where
  flagAt : F
  reviewAt : F

/-- Why a claim got the score it did. -/
structure Explanation (F : Type) where
  summary : String
  evidence : List (Evidence F)
  thresholds : Thresholds F

/-- `decision_hint`. -/
inductive DecisionHint where
  | clear
  | review
  | flag
deriving DecidableEq, Repr

/-- The scoring result of one claim. -/
structure ClaimScore (F : Type) where
  claimId : UUID
  modelVersion : String
  fraudScore : F
  decisionHint : DecisionHint
  ringId : Option String
  rung : String
  explanation : Explanation F

end ClaimGuard
