import ClaimGuard.Explain
import ClaimGuard.Lib.Double

/-!
# Decisions and the scores they are reported with

The hint of a rule-based score is decided from the score that is reported. The hint of a
model score is decided from the probability before it is rounded to four decimals, and the
two can stand on different sides of a threshold.
-/

namespace ClaimGuard

variable {F : Type} [Floats F]

open Floats RoundedFloats

/-- The hint is the one that the reported score and the reported thresholds decide. -/
def ClaimScore.HintAgrees (score : ClaimScore F) : Prop :=
  (score.decisionHint = .flag ↔
    le score.explanation.thresholds.flagAt score.fraudScore = true) ∧
  (score.decisionHint = .review ↔
    le score.explanation.thresholds.reviewAt score.fraudScore = true ∧
      lt score.fraudScore score.explanation.thresholds.flagAt = true) ∧
  (score.decisionHint = .clear ↔
    lt score.fraudScore score.explanation.thresholds.reviewAt = true)

/-! ## What a score is made of -/

/-- A valid result carries its score, its hint and its thresholds. -/
theorem carried_of_claimScore {claimId modelVersion : String} {fraudScore : F}
    {hint : DecisionHint} {ringId : Option String} {rung : String} {explanation : Explanation F}
    {score : ClaimScore F}
    (h : claimScore claimId modelVersion fraudScore hint ringId rung explanation = .ok score) :
    score.fraudScore = fraudScore ∧ score.decisionHint = hint ∧
      score.explanation = explanation := by
  unfold claimScore at h
  rcases Results.bind_eq_ok.1 h with ⟨id, -, h⟩
  rw [Results.test_eq_ok] at h
  rcases Results.pure_eq_ok.1 h.2 with rfl
  exact ⟨rfl, rfl, rfl⟩

/-- A score of the model: the probability is rounded for the report, not for the hint. -/
theorem reported_of_buildModelScore {ig : Igraph F} {g : Graph F} {ctx : FeatureContext F}
    {classifier : RingClassifier F} {claimId : String} {score : ClaimScore F}
    (h : buildModelScore ig g ctx classifier claimId = .ok (some score)) {probability : F}
    {contributions : List (FeatureContribution F)}
    (hscored : scoreClaim ig classifier ctx claimId = some (probability, contributions)) :
    score.fraudScore = Floats.round probability 4 ∧
      score.decisionHint =
        decisionHint probability classifier.flagThreshold classifier.reviewThreshold ∧
      score.explanation.thresholds = ⟨classifier.flagThreshold, classifier.reviewThreshold⟩ := by
  unfold buildModelScore at h
  split at h
  · cases h
  · rw [hscored] at h
    simp only [Results.bind_eq_ok, Results.pure_eq_ok, Option.some.injEq] at h
    rcases h with ⟨shared, -, score', hscore, rfl⟩
    obtain ⟨hfraud, hhint, hexplanation⟩ := carried_of_claimScore hscore
    exact ⟨hfraud, hhint, congrArg Explanation.thresholds hexplanation⟩

/-- A score of the detector: the hint is decided from the score of the verdict. -/
theorem reported_of_buildScore {ig : Igraph F} {g : Graph F} {nameToIndex : List (String × ℕ)}
    {verdicts : List (String × ClaimVerdict F)} {claimId modelVersion : String}
    {score : ClaimScore F}
    (h : buildScore ig g nameToIndex verdicts claimId modelVersion = .ok (some score)) :
    score.decisionHint = decisionHint score.fraudScore flagAt reviewAt ∧
      score.explanation.thresholds = ⟨flagAt, reviewAt⟩ := by
  unfold buildScore at h
  split at h
  · simp only [Results.bind_eq_ok, Results.pure_eq_ok, Option.some.injEq] at h
    rcases h with ⟨shared, -, score', hscore, rfl⟩
    obtain ⟨hfraud, hhint, hexplanation⟩ := carried_of_claimScore hscore
    exact ⟨hfraud ▸ hhint, congrArg Explanation.thresholds hexplanation⟩
  · cases h

/-! ## Decisions -/

section

variable [RoundedFloats F]

theorem decisionHint_eq_flag {score flagAt reviewAt : F} :
    decisionHint score flagAt reviewAt = .flag ↔ value flagAt ≤ value score := by
  rw [← le_iff]
  unfold decisionHint
  split_ifs with hflag hreview <;> simp [hflag]

/-- Under thresholds in order, a claim is cleared exactly below the lower one. -/
theorem decisionHint_eq_clear {score flagAt reviewAt : F} (h : value reviewAt ≤ value flagAt) :
    decisionHint score flagAt reviewAt = .clear ↔ value score < value reviewAt := by
  unfold decisionHint
  split_ifs with hflag hreview
  · rw [le_iff] at hflag
    exact iff_of_false (by simp) (not_lt.2 (h.trans hflag))
  · rw [le_iff] at hreview
    exact iff_of_false (by simp) (not_lt.2 hreview)
  · rw [Bool.not_eq_true, le_eq_false_iff] at hreview
    exact iff_of_true rfl hreview

theorem decisionHint_eq_review {score flagAt reviewAt : F} (h : value reviewAt ≤ value flagAt) :
    decisionHint score flagAt reviewAt = .review ↔
      value reviewAt ≤ value score ∧ value score < value flagAt := by
  have hflag : decisionHint score flagAt reviewAt = .flag ↔ value flagAt ≤ value score :=
    decisionHint_eq_flag
  have hclear : decisionHint score flagAt reviewAt = .clear ↔ value score < value reviewAt :=
    decisionHint_eq_clear h
  rw [← not_lt, ← hclear, ← not_le, ← hflag]
  cases decisionHint score flagAt reviewAt <;> simp

/-- A hint decided from one number agrees with the report of another exactly when no
threshold stands between them. -/
theorem hintAgrees_iff {score : ClaimScore F} {decided flagAt reviewAt : F}
    (hhint : score.decisionHint = decisionHint decided flagAt reviewAt)
    (hthresholds : score.explanation.thresholds = ⟨flagAt, reviewAt⟩)
    (h : value reviewAt ≤ value flagAt) :
    score.HintAgrees ↔ (value flagAt ≤ value decided ↔ value flagAt ≤ value score.fraudScore) ∧
      (value reviewAt ≤ value decided ↔ value reviewAt ≤ value score.fraudScore) := by
  unfold ClaimScore.HintAgrees
  rw [hhint, hthresholds, decisionHint_eq_flag, decisionHint_eq_clear h, decisionHint_eq_review h,
    le_iff, le_iff, lt_iff, lt_iff]
  constructor
  · rintro ⟨hflag, -, hclear⟩
    exact ⟨hflag, by rw [← not_lt, hclear, not_lt]⟩
  · rintro ⟨hflag, hreview⟩
    refine ⟨hflag, and_congr hreview ?_, ?_⟩
    · rw [← not_le, hflag, not_le]
    · rw [← not_le, hreview, not_le]

/-- The probability reaches the threshold exactly when it reaches the midpoint below the
first four-decimal number that does. -/
def ClearOf (probability threshold : F) : Prop :=
  ∀ n, FirstAtLeast 4 threshold n → (value threshold ≤ value probability ↔
    AtMidpoint 4 probability n)

theorem clearOf_iff {probability threshold : F} (hprobability : 0 ≤ value probability) :
    ClearOf probability threshold ↔ (value threshold ≤ value probability ↔
      value threshold ≤ value (Floats.round probability 4)) := by
  constructor
  · intro h
    rcases exists_firstAtLeast 4 threshold with ⟨n, hn⟩
    exact (h n hn).trans (le_round_iff hn hprobability).symm
  · intro h n hn
    exact h.trans (le_round_iff hn hprobability)

/-- The fixed thresholds are in order. -/
theorem reviewAt_le_flagAt : value (reviewAt : F) ≤ value (flagAt : F) := by
  unfold reviewAt flagAt
  rw [value_ofRat, value_ofRat]
  exact nearest_mono (by norm_num)

end

/-- The hint agrees with the reported score: on the model path exactly for a probability
that is clear of both thresholds, on the rule-based path always. -/
theorem hint_agrees_iff [RoundedFloats F] (ig : Igraph F) (g : Graph F) (claimId : String)
    (score : ClaimScore F) :
    (∀ (ctx : FeatureContext F) (classifier : RingClassifier F) (probability : F)
        (contributions : List (FeatureContribution F)),
      scoreClaim ig classifier ctx claimId = some (probability, contributions) →
      0 ≤ value probability → value probability ≤ 1 →
      value classifier.reviewThreshold ≤ value classifier.flagThreshold →
      buildModelScore ig g ctx classifier claimId = .ok (some score) →
      (score.HintAgrees ↔ ClearOf probability classifier.flagThreshold ∧
        ClearOf probability classifier.reviewThreshold)) ∧
    ∀ (nameToIndex : List (String × ℕ)) (verdicts : List (String × ClaimVerdict F))
        (modelVersion : String),
      buildScore ig g nameToIndex verdicts claimId modelVersion = .ok (some score) →
      score.HintAgrees := by
  constructor
  · intro ctx classifier probability contributions hscored hnonneg _ horder hscore
    obtain ⟨hfraud, hhint, hthresholds⟩ := reported_of_buildModelScore hscore hscored
    rw [hintAgrees_iff hhint hthresholds horder, clearOf_iff hnonneg, clearOf_iff hnonneg, hfraud]
  · intro nameToIndex verdicts modelVersion hscore
    obtain ⟨hhint, hthresholds⟩ := reported_of_buildScore hscore
    rw [hintAgrees_iff hhint hthresholds reviewAt_le_flagAt]
    exact ⟨Iff.rfl, Iff.rfl⟩

namespace Sample

/-- A claim with an address of its own. -/
def addressGraph : Graph Double where
  vertices :=
    [⟨(⟨1⟩ : UUID).toString, .claim, none, none, none, some (.ofRat 12500), some ⟨20454⟩⟩,
      ⟨(⟨2⟩ : UUID).toString, .entity, some .address, some "12 lake road", some 1, none, none⟩]
  edges := [(0, 1)]
  weights := [.ofRat (144 / 100)]

/-- A model with the thresholds of the detector that gives every claim one probability. -/
def constantModel (probability : ℚ) : RingClassifier Double where
  predictProba _ := .ofRat probability
  shapValues row := row
  modelVersion := "xgboost-1"
  flagThreshold := .ofRat (75 / 100)
  reviewThreshold := .ofRat (40 / 100)

theorem scoreClaim_constantModel (probability : ℚ) : ∃ contributions,
    scoreClaim ig (constantModel probability) (buildFeatureContext ig addressGraph)
      (⟨1⟩ : UUID).toString = some (.ofRat probability, contributions) := by
  have hfeatures : (extractFeatures ig (buildFeatureContext ig addressGraph)
      (⟨1⟩ : UUID).toString).isSome = true := by decide +kernel
  rcases Option.isSome_iff_exists.1 hfeatures with ⟨features, hfeatures⟩
  unfold scoreClaim
  rw [hfeatures]
  exact ⟨_, rfl⟩

end Sample

/-- A probability far above both thresholds. -/
theorem hint_agrees_iff_constantModel : ∃ score,
    buildModelScore Sample.ig Sample.addressGraph
        (buildFeatureContext Sample.ig Sample.addressGraph) (Sample.constantModel (9 / 10))
        (⟨1⟩ : UUID).toString = .ok (some score) ∧ score.HintAgrees := by
  rcases Results.exists_of_isSome (x := buildModelScore Sample.ig Sample.addressGraph
    (buildFeatureContext Sample.ig Sample.addressGraph) (Sample.constantModel (9 / 10))
    (⟨1⟩ : UUID).toString) (by decide +kernel) with ⟨score, hscore⟩
  rcases Sample.scoreClaim_constantModel (9 / 10) with ⟨contributions, hscored⟩
  refine ⟨score, hscore, ?_⟩
  -- four decimals are enough for this probability
  have hclear : ∀ threshold, ClearOf (Double.ofRat (9 / 10)) threshold := by
    intro threshold
    have hround : value (Floats.round (Double.ofRat (9 / 10)) 4) =
        value (Double.ofRat (9 / 10)) := by decide +kernel
    apply (clearOf_iff (by decide +kernel)).2
    rw [hround]
  exact ((hint_agrees_iff Sample.ig Sample.addressGraph _ score).1 _ _ _ contributions hscored
    (by decide +kernel) (by decide +kernel) (by decide +kernel) hscore).2
    ⟨hclear _, hclear _⟩

/-- A probability of 0.74996 is reported as 0.75, the threshold of a flag, next to a hint to
review. -/
theorem reported_flag_hinted_review : ¬ ∀ (g : Graph Double)
    (ctx : FeatureContext Double) (classifier : RingClassifier Double)
    (claimId : String) (probability : Double)
    (contributions : List (FeatureContribution Double)) (score : ClaimScore Double),
    scoreClaim Sample.ig classifier ctx claimId = some (probability, contributions) →
    0 ≤ value probability → value probability ≤ 1 →
    value classifier.reviewThreshold ≤ value classifier.flagThreshold →
    buildModelScore Sample.ig g ctx classifier claimId = .ok (some score) → score.HintAgrees := by
  intro hall
  rcases Results.exists_of_isSome (x := buildModelScore Sample.ig Sample.addressGraph
    (buildFeatureContext Sample.ig Sample.addressGraph) (Sample.constantModel (74996 / 100000))
    (⟨1⟩ : UUID).toString) (by decide +kernel) with ⟨score, hscore⟩
  rcases Sample.scoreClaim_constantModel (74996 / 100000) with ⟨contributions, hscored⟩
  have hagrees := hall _ _ _ _ _ contributions score hscored (by decide +kernel)
    (by decide +kernel) (by decide +kernel) hscore
  obtain ⟨hfraud, hhint, hthresholds⟩ := reported_of_buildModelScore hscore hscored
  rw [hintAgrees_iff hhint hthresholds (by decide +kernel), hfraud] at hagrees
  exact absurd (hagrees.1.2 (by decide +kernel)) (by decide +kernel)

end ClaimGuard
