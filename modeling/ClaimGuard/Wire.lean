import ClaimGuard.DecisionAgreement
import ClaimGuard.Lib.FloatRepr
import ClaimGuard.Lib.JsonWriters
import ClaimGuard.Runs
import ClaimGuard.ScoringCache
import ClaimGuard.Verdicts

/-!
# The `claim.scored` record

A score on its way between the services: the consumer dumps it to a tree, writes the
tree as ASCII JSON, and the listener reads the text back into a generic tree and picks
fields from it. The listener trusts no types: a missing field ends the delivery with an
exception, and a text that is not JSON is dropped.
-/

namespace ClaimGuard

open ClaimService

/-! ## The sending side -/

/-- The literal of a hint. -/
def DecisionHint.name : DecisionHint → String
  | .clear => "CLEAR"
  | .review => "REVIEW"
  | .flag => "FLAG"

section

variable {F : Type} (repr : F → Numeral)

/-- `model_dump` of a piece of evidence. -/
def Evidence.modelDump : Evidence F → JsonText
  | .sharedEntity entityType entityValue entityDegree sharedWithClaimIds =>
      .obj [("type", .str "SHARED_ENTITY"), ("entity_type", .str entityType),
        ("entity_value", .str entityValue), ("entity_degree", .num (Numeral.ofInt entityDegree)),
        ("shared_with_claim_ids", .arr (sharedWithClaimIds.map fun id => .str id.toString))]
  | .ringMetric metric value baseline =>
      .obj [("type", .str "RING_METRIC"), ("metric", .str metric), ("value", .num (repr value)),
        ("baseline", .num (repr baseline))]
  | .featureContribution feature featureValue shapValue =>
      .obj [("type", .str "FEATURE_CONTRIBUTION"), ("feature", .str feature),
        ("feature_value", .num (repr featureValue)), ("shap_value", .num (repr shapValue))]

/-- `model_dump` of an explanation. -/
def Explanation.modelDump (explanation : Explanation F) : JsonText :=
  .obj [("summary", .str explanation.summary),
    ("evidence", .arr (explanation.evidence.map (Evidence.modelDump repr))),
    ("thresholds", .obj [("flag_at", .num (repr explanation.thresholds.flagAt)),
      ("review_at", .num (repr explanation.thresholds.reviewAt))])]

/-- `model_dump(mode="json")` of a score, with the time it was made. -/
def ClaimScore.modelDump (scoredAt : String) (score : ClaimScore F) : JsonText :=
  .obj [("claim_id", .str score.claimId.toString), ("model_version", .str score.modelVersion),
    ("scored_at", .str scoredAt), ("fraud_score", .num (repr score.fraudScore)),
    ("decision_hint", .str score.decisionHint.name),
    ("ring_id", match score.ringId with
      | none => .null
      | some ringId => .str ringId),
    ("rung", .str score.rung), ("explanation", score.explanation.modelDump repr)]

/-- `_serialize`: the characters of a record. -/
def serialize (value : JsonText) : List Char := JsonText.ascii.write value

end

/-! ## The receiving side -/

/-- `new BigDecimal(String)`, of a numeral. -/
def decimalOfNumeral (n : Numeral) : BigDecimal :=
  ⟨if n.neg then -(n.mantissa : ℤ) else n.mantissa, n.scale - n.exp⟩

/-- What ends the delivery of a record with an exception. -/
inductive ListenerError where
  | nullPointer (field : String)
  | illegalArgument (text : String)
  | numberFormat
  | service (failure : Failure)

namespace JsonNode

/-- `JsonNode.get`. -/
def get (node : Json) (field : String) : Option Json :=
  match node with
  | .obj fields => fields.lookup field
  | _ => none

/-- A call on the field that is there, or on `null`. -/
def require (node : Json) (field : String) : Except ListenerError Json :=
  match get node field with
  | some value => pure value
  | none => throw (.nullPointer field)

/-- `JsonNode.asText`. -/
def asText : Json → String
  | .null => "null"
  | .bool true => "true"
  | .bool false => "false"
  | .int z => String.ofList (Text.decimalInt z)
  | .double (.finite neg m) => String.ofList (Binary64.toNumeral neg m).text
  | .double (.infinite true) => "-Infinity"
  | .double (.infinite false) => "Infinity"
  | .str s => s
  | .arr _ => ""
  | .obj _ => ""

@[simp] theorem asText_str (s : String) : asText (.str s) = s := rfl

theorem require_of_get {node value : Json} {field : String} (h : get node field = some value) :
    require node field = .ok value := by
  unfold require
  rw [h]
  rfl

/-- `JsonNode.decimalValue`: a node that is no number has the value zero. -/
def decimalValue : Json → Except ListenerError BigDecimal
  | .int z => pure ⟨z, 0⟩
  | .double (.finite neg m) => pure (decimalOfNumeral (Binary64.toNumeral neg m))
  | .double (.infinite _) => throw .numberFormat
  | _ => pure ⟨0, 0⟩

/-- `JsonNode.toString`. -/
def toString (node : Json) : List Char := JsonText.compact.write (CanonicalJson.toText node)

end JsonNode

/-- A string that is to be parsed as JSON. -/
def RawJson.ofString (s : List Char) : RawJson :=
  match JsonText.read s with
  | some t => .text t
  | none => .malformed (String.ofList s)

namespace ScoringResultConsumer

open JsonNode

/-- The fields `onClaimScored` picks from a record, as the arguments of `applyScore`. -/
structure ScoredRecord where
  claimId : UUID
  fraudScore : BigDecimal
  decisionHint : String
  ringId : Option String
  explanationJson : Option RawJson
  modelVersion : String

/-- The fields of a record, in the order in which they are read. -/
def fieldsOf (node : Json) : Except ListenerError ScoredRecord := do
  let id ← require node "claim_id"
  let claimId ← match UUID.parse? (asText id) with
    | some claimId => pure claimId
    | none => throw (.illegalArgument (asText id))
  let modelVersion ← require node "model_version"
  let score ← require node "fraud_score"
  let fraudScore ← decimalValue score
  let hint ← require node "decision_hint"
  let ringId := match get node "ring_id" with
    | none | some .null => none
    | some ringId => some (asText ringId)
  let explanationJson := (get node "explanation").map fun e => RawJson.ofString (toString e)
  pure ⟨claimId, fraudScore, asText hint, ringId, explanationJson, asText modelVersion⟩

/-- `applyScore` on the fields of a record. -/
def apply (env : Env) (db : Db) (record : ScoredRecord) (now : Instant) : Except Failure Db :=
  applyScore env db record.claimId (some record.fraudScore) (some record.decisionHint)
    record.ringId record.explanationJson (some record.modelVersion) now

/-- `onClaimScored`: the database after a delivery, or the exception it ends with. -/
def onClaimScored (env : Env) (db : Db) (payload : List Char) (now : Instant) :
    Except ListenerError Db :=
  -- a text without a value is a missing node, of which every field is null
  if JsonText.skipSpace payload = [] then throw (.nullPointer "claim_id")
  else
    match JsonText.readFirst payload with
    | none => pure db
    | some t => do
        let record ← fieldsOf (CanonicalJson.parse t)
        match apply env db record now with
        | .ok db => pure db
        | .error failure => throw (.service failure)

/-- A delivery does nothing, or what one `applyScore` does. -/
theorem onClaimScored_ok {env : Env} {db db' : Db} {payload : List Char} {now : Instant}
    (h : onClaimScored env db payload now = .ok db') :
    db' = db ∨ ∃ t record, JsonText.readFirst payload = some t ∧
      fieldsOf (CanonicalJson.parse t) = .ok record ∧ apply env db record now = .ok db' := by
  unfold onClaimScored at h
  rw [Results.guard_eq_ok] at h
  obtain ⟨-, h⟩ := h
  cases hread : JsonText.readFirst payload with
  | none =>
      rw [hread] at h
      exact Or.inl (Results.pure_eq_ok.1 h).symm
  | some t =>
      rw [hread] at h
      rcases Results.bind_eq_ok.1 h with ⟨record, hfields, h⟩
      cases happly : apply env db record now with
      | error failure =>
          rw [happly] at h
          cases h
      | ok db₁ =>
          rw [happly] at h
          rcases Results.pure_eq_ok.1 h with rfl
          exact Or.inr ⟨t, record, rfl, hfields, happly⟩

end ScoringResultConsumer

/-! ## What is sent is what is applied -/

theorem value_decimalOfNumeral {n : Numeral} (h : n.neg = false) :
    (decimalOfNumeral n).value = n.magnitude := by
  unfold decimalOfNumeral BigDecimal.value Numeral.magnitude
  rw [h]
  simp

theorem readFirst_serialize (t : JsonText) : JsonText.readFirst (serialize t) = some t :=
  JsonText.Writer.readFirst_write JsonText.ascii t

theorem skipSpace_serialize (t : JsonText) : JsonText.skipSpace (serialize t) ≠ [] := by
  rcases JsonText.ascii.head_write t with ⟨c, l, hl, hspace, -⟩
  rw [serialize, hl, JsonText.Writer.skipSpace_cons hspace]
  simp

/-- The text of a node is parsed to the tree it was written from. -/
theorem ofString_toString (node : Json) :
    RawJson.ofString (JsonNode.toString node) = .text (CanonicalJson.toText node) := by
  unfold RawJson.ofString JsonNode.toString
  rw [JsonText.Writer.read_write]

namespace ScoringResultConsumer

open JsonNode CanonicalJson

/-- The fields of a dumped score are those of the score. -/
theorem fieldsOf_modelDump {F : Type} (repr : F → Numeral) (scoredAt : String)
    (score : ClaimScore F) {fraudScore : BigDecimal}
    (hscore : decimalValue (parseNumeral (repr score.fraudScore)) = .ok fraudScore) :
    fieldsOf (parse (score.modelDump repr scoredAt)) = .ok
      { claimId := score.claimId
        fraudScore := fraudScore
        decisionHint := score.decisionHint.name
        ringId := score.ringId
        explanationJson := some (.text (toText (parse (score.explanation.modelDump repr))))
        modelVersion := score.modelVersion } := by
  have hnode : parse (score.modelDump repr scoredAt) =
      .obj [("claim_id", .str score.claimId.toString), ("model_version", .str score.modelVersion),
        ("scored_at", .str scoredAt), ("fraud_score", parseNumeral (repr score.fraudScore)),
        ("decision_hint", .str score.decisionHint.name),
        ("ring_id", match score.ringId with
          | none => .null
          | some ringId => .str ringId),
        ("rung", .str score.rung), ("explanation", parse (score.explanation.modelDump repr))] := by
    unfold ClaimScore.modelDump
    rw [parse, linkedMap_of_nodup (by simp [parseFields])]
    cases score.ringId <;> simp [parseFields, parse]
  generalize parse (score.modelDump repr scoredAt) = node at hnode
  have hid : JsonNode.get node "claim_id" = some (.str score.claimId.toString) := by
    simp [hnode, JsonNode.get]
  have hversion : JsonNode.get node "model_version" = some (.str score.modelVersion) := by
    simp [hnode, JsonNode.get, List.lookup_cons]
  have hfraud : JsonNode.get node "fraud_score" = some (parseNumeral (repr score.fraudScore)) := by
    simp [hnode, JsonNode.get, List.lookup_cons]
  have hhint : JsonNode.get node "decision_hint" = some (.str score.decisionHint.name) := by
    simp [hnode, JsonNode.get, List.lookup_cons]
  have hring : JsonNode.get node "ring_id" = some (match score.ringId with
      | none => .null
      | some ringId => .str ringId) := by
    simp [hnode, JsonNode.get, List.lookup_cons]
  have hexplanation : JsonNode.get node "explanation" =
      some (parse (score.explanation.modelDump repr)) := by
    simp [hnode, JsonNode.get, List.lookup_cons]
  unfold fieldsOf
  simp only [require_of_get hid, require_of_get hversion, require_of_get hfraud,
    require_of_get hhint, hring, hexplanation, asText_str, UUID.parse?_toString, hscore,
    ofString_toString, bind, Except.bind, pure, Except.pure, Option.map_some]
  cases score.ringId <;> rfl

/-- A double of four decimals crosses as the double it is, and the column keeps exactly
its four decimals. -/
theorem decimalValue_repr {x : Double} {k : ℕ} (hk : k ≤ 10 ^ 4)
    (hx : x.value = Binary64.nearest (k / 10 ^ 4)) :
    ∃ d, decimalValue (parseNumeral x.repr) = .ok d ∧ d.numeric 5 4 = some ⟨k, 4⟩ := by
  have hkq : (k : ℚ) ≤ 10 ^ 4 := by exact_mod_cast hk
  have hvalue₀ : 0 ≤ x.value := by
    rw [hx]
    exact Binary64.nearest_nonneg (by positivity)
  have hvalue₁ : x.value ≤ 1 := by
    have hone : Binary64.nearest 1 = 1 := by
      have h := Binary64.nearest_natCast (n := 1) (by norm_num)
      rwa [Nat.cast_one] at h
    rw [hx]
    calc Binary64.nearest ((k : ℚ) / 10 ^ 4) ≤ Binary64.nearest 1 :=
          Binary64.nearest_mono ((div_le_one (by norm_num)).2 hkq)
      _ = 1 := hone
  rcases Double.exists_repr hvalue₀ hvalue₁ with ⟨m, hm, hrepr⟩
  have hparse : parseNumeral x.repr = .double (.finite false m) := by
    unfold parseNumeral Binary64.ofDecimal
    rw [hrepr, Binary64.isInteger_repr, Binary64.round_magnitude_repr, Binary64.repr_neg]
    rfl
  refine ⟨decimalOfNumeral (Binary64.toNumeral false m), by rw [hparse]; rfl, ?_⟩
  -- what Java prints for the double rounds to it, so it is near the four decimals
  have hv := value_decimalOfNumeral (Binary64.toNumeral_neg false m)
  generalize decimalOfNumeral (Binary64.toNumeral false m) = d at hv
  have hv₀ : 0 ≤ d.value := by
    rw [hv]
    unfold Numeral.magnitude
    positivity
  have hround : Binary64.nearest d.value = Binary64.nearest (k / 10 ^ 4) := by
    rw [hv] at hv₀ ⊢
    rw [← Binary64.value_of_round hv₀ (Binary64.round_magnitude_toNumeral false m), hm, hx]
  have hlow : (k : ℚ) - 1 / 2 ≤ d.value * 10 ^ 4 := by
    by_contra hlt
    rw [not_le] at hlt
    have hlt' := Binary64.nearest_lt_nearest (q := d.value) (r := k / 10 ^ 4) hv₀
      ((div_le_iff₀ (by norm_num)).2 (by linarith)) (by rw [le_div_iff₀ (by norm_num)]; linarith)
    exact absurd hround hlt'.ne
  have hhigh : d.value * 10 ^ 4 < k + 1 / 2 := by
    by_contra hge
    rw [not_lt] at hge
    have hlt := Binary64.nearest_lt_nearest (q := k / 10 ^ 4) (r := k / 10 ^ 4 + 1 / 20000)
      (by positivity) (by
        have : (k : ℚ) / 10 ^ 4 ≤ 1 := (div_le_one (by norm_num)).2 hkq
        linarith) le_rfl
    have hle := Binary64.nearest_mono (show (k : ℚ) / 10 ^ 4 + 1 / 20000 ≤ d.value by linarith)
    exact absurd hround (hlt.trans_le hle).ne'
  have hrounded : BigDecimal.roundHalfAway (d.value * 10 ^ 4) = k := by
    unfold BigDecimal.roundHalfAway
    rw [if_pos (by positivity), Int.floor_eq_iff]
    push_cast
    constructor <;> linarith
  unfold BigDecimal.numeric
  simp only [hrounded, Int.natAbs_natCast]
  rw [if_pos (by omega)]
  rfl

end ScoringResultConsumer

/-! ## The decimals of a score -/

/-- The double nearest to a number of four decimals. -/
def FourDecimals (x : Double) : Prop := ∃ k : ℤ, x.value = Binary64.nearest ((k : ℚ) / 10 ^ 4)

theorem fourDecimals_round (x : Double) : FourDecimals (Floats.round x 4) := by
  by_cases hx : x.value < 0
  · refine ⟨-(Binary64.roundHalfEven (|x.value| * 10 ^ 4) : ℤ), ?_⟩
    show Binary64.nearest (if x.value < 0 then _ else _) = _
    rw [if_pos hx]
    push_cast
    rw [neg_div]
  · refine ⟨(Binary64.roundHalfEven (|x.value| * 10 ^ 4) : ℤ), ?_⟩
    show Binary64.nearest (if x.value < 0 then _ else _) = _
    rw [if_neg hx]
    push_cast
    rfl

theorem fourDecimals_ofRat {q : ℚ} (k : ℤ) (hq : q = k / 10 ^ 4) :
    FourDecimals (Floats.ofRat q) := ⟨k, by rw [← hq]; rfl⟩

/-- Of the unit interval there are ten thousand and one. -/
theorem FourDecimals.exists_nat {x : Double} (h : FourDecimals x) (h₀ : 0 ≤ x.value)
    (h₁ : x.value ≤ 1) : ∃ k : ℕ, k ≤ 10 ^ 4 ∧ x.value = Binary64.nearest (k / 10 ^ 4) := by
  rcases h with ⟨k, hk⟩
  have hone : Binary64.nearest 1 = 1 := by
    have h := Binary64.nearest_natCast (n := 1) (by norm_num)
    rwa [Nat.cast_one] at h
  have hnonneg : 0 ≤ k := by
    by_contra hneg
    have hle : (k : ℚ) / 10 ^ 4 ≤ -(1 / 10 ^ 4) := by
      have : (k : ℚ) ≤ -1 := by exact_mod_cast (by omega : k ≤ -1)
      linarith
    have hlt := Binary64.nearest_lt_nearest (q := 0) (r := 1 / 10 ^ 4) le_rfl (by norm_num)
      (by norm_num)
    have hmono := Binary64.nearest_mono hle
    rw [Binary64.nearest_zero] at hlt
    rw [← hk, Binary64.nearest_neg] at hmono
    linarith
  have hle : k ≤ 10 ^ 4 := by
    by_contra hgt
    have hge : (10001 : ℚ) / 10 ^ 4 ≤ (k : ℚ) / 10 ^ 4 := by
      have : (10001 : ℚ) ≤ k := by exact_mod_cast (by omega : 10001 ≤ k)
      linarith
    have hlt := Binary64.nearest_lt_nearest (q := 1) (r := (10001 : ℚ) / 10 ^ 4)
      (by norm_num) (by norm_num) (by norm_num)
    have hmono := Binary64.nearest_mono hge
    rw [hone] at hlt
    rw [← hk] at hmono
    linarith
  refine ⟨k.toNat, by omega, ?_⟩
  have hcast : ((k.toNat : ℕ) : ℚ) = (k : ℚ) := by exact_mod_cast Int.toNat_of_nonneg hnonneg
  rw [hk, hcast]

/-- Every verdict of the detector has a score of four decimals. -/
theorem fourDecimals_of_mem_detect {ig : Igraph Double} {g : Graph Double} {claimId : String}
    {verdict : ClaimVerdict Double} (h : (claimId, verdict) ∈ detect ig g) :
    FourDecimals verdict.fraudScore := by
  unfold detect at h
  rw [detectWith_eq] at h
  rcases List.mem_append.1 h with h | h
  · rcases List.mem_append.1 h with h | h
    · -- one of the first two rungs gave it
      rcases (candidate_eq_some (mem_rankedVerdicts.1 h).2).1 with ⟨ringId, -, rfl⟩ | hsecond
      · exact fourDecimals_ofRat 9000 (by norm_num)
      · have hmem := Dict.mem_of_get_eq_some hsecond
        rw [rung2Leiden_eq] at hmem
        rcases mem_partItems.1 hmem with ⟨k, community, -, -, -, rfl⟩
        exact fourDecimals_round _
    · rcases mem_nearVerdicts.1 h with ⟨score, -, -, -, rfl⟩
      exact fourDecimals_round _
  · rcases mem_clearVerdicts.1 h with ⟨-, -, rfl⟩
    exact fourDecimals_ofRat 0 (by norm_num)

/-- A valid score is within the unit interval. -/
theorem mem_unit_of_claimScore {id modelVersion : String} {fraudScore : Double}
    {hint : DecisionHint} {ringId : Option String} {rung : String}
    {explanation : Explanation Double} {score : ClaimScore Double}
    (h : claimScore id modelVersion fraudScore hint ringId rung explanation = .ok score) :
    score.fraudScore = fraudScore ∧ 0 ≤ fraudScore.value ∧ fraudScore.value ≤ 1 := by
  unfold claimScore at h
  rcases Results.bind_eq_ok.1 h with ⟨uuid, -, h⟩
  rw [Results.test_eq_ok, Bool.and_eq_true, RoundedFloats.le_iff, RoundedFloats.le_iff,
    RoundedFloats.value_zero, RoundedFloats.value_one] at h
  obtain ⟨⟨hnonneg, hle⟩, hscore⟩ := h
  rw [← Results.pure_eq_ok.1 hscore]
  exact ⟨rfl, hnonneg, hle⟩

/-- A score that is made from a cache of one graph is a valid one of four decimals. -/
theorem exists_claimScore_of_scoreOne {sc : Scoring Double} {cache : Cache Double}
    {claimId : UUID} {score : ClaimScore Double} (hcache : cache.FromOne sc)
    (h : scoreOne sc cache claimId = .ok (some score)) :
    ∃ modelVersion fraudScore hint ringId rung explanation,
      claimScore claimId.toString modelVersion fraudScore hint ringId rung explanation =
        .ok score ∧ FourDecimals fraudScore := by
  unfold scoreOne at h
  cases hclassifier : sc.classifier with
  | some classifier =>
      simp only [hclassifier] at h
      split at h
      · unfold buildModelScore at h
        split at h
        · cases h
        · split at h
          · cases h
          · simp only [Results.bind_eq_ok, Results.pure_eq_ok, Option.some.injEq] at h
            rcases h with ⟨shared, -, score', hscore, rfl⟩
            exact ⟨_, _, _, _, _, _, hscore, fourDecimals_round _⟩
      · cases h
  | none =>
      simp only [hclassifier] at h
      split at h
      · rename_i verdicts nameToIndex g hverdicts hindex hgraph
        -- the verdicts are those of the detector
        have hdetect : verdicts = detect sc.ig g := by
          rcases hcache with rfl | ⟨g', hgraph', -, hanalytics⟩
          · cases hgraph
          · unfold Cache.HasAnalytics at hanalytics
            rw [hclassifier] at hanalytics
            rw [hgraph, Option.some.injEq] at hgraph'
            rw [hverdicts, ← hgraph', Option.some.injEq] at hanalytics
            exact hanalytics.1
        unfold buildScore at h
        split at h
        · rename_i verdict claimIndex hverdict _
          simp only [Results.bind_eq_ok, Results.pure_eq_ok, Option.some.injEq] at h
          rcases h with ⟨shared, -, score', hscore, rfl⟩
          rw [hdetect] at hverdict
          exact ⟨_, _, _, _, _, _, hscore,
            fourDecimals_of_mem_detect (Dict.mem_of_get_eq_some hverdict)⟩
        · cases h
      · cases h

/-- The record of a score with four decimals is applied as that score. -/
theorem onClaimScored_serialize (env : Env) (db : Db) (now : Instant) (scoredAt : String)
    {score : ClaimScore Double} {k : ℕ} (hk : k ≤ 10 ^ 4)
    (hvalue : score.fraudScore.value = Binary64.nearest (k / 10 ^ 4)) :
    ∃ fraudScore : BigDecimal, fraudScore.numeric 5 4 = some ⟨k, 4⟩ ∧
      ScoringResultConsumer.onClaimScored env db
          (serialize (score.modelDump Double.repr scoredAt)) now =
        (applyScore env db score.claimId (some fraudScore) (some score.decisionHint.name)
          score.ringId (some (.text (CanonicalJson.toText
            (CanonicalJson.parse (score.explanation.modelDump Double.repr)))))
          (some score.modelVersion) now).mapError .service := by
  rcases ScoringResultConsumer.decimalValue_repr hk hvalue with ⟨d, hd, hnumeric⟩
  refine ⟨d, hnumeric, ?_⟩
  have hfields := ScoringResultConsumer.fieldsOf_modelDump Double.repr scoredAt score hd
  unfold ScoringResultConsumer.onClaimScored
  rw [if_neg (skipSpace_serialize _), readFirst_serialize]
  simp only [hfields, bind, Except.bind, ScoringResultConsumer.apply]
  generalize applyScore env db _ _ _ _ _ _ now = result
  cases result <;> rfl

/-- The score of a claim that is made from a cache of one graph has four decimals. -/
theorem exists_decimals_of_scoreOne {sc : Scoring Double} {cache : Cache Double}
    {claimId : UUID} {score : ClaimScore Double} (hcache : cache.FromOne sc)
    (h : scoreOne sc cache claimId = .ok (some score)) :
    score.claimId = claimId ∧ ∃ k : ℕ, k ≤ 10 ^ 4 ∧
      score.fraudScore.value = Binary64.nearest (k / 10 ^ 4) := by
  rcases exists_claimScore_of_scoreOne hcache h with
    ⟨modelVersion, fraudScore, hint, ringId, rung, explanation, hclaim, hfour⟩
  obtain ⟨heq, hnonneg, hle⟩ := mem_unit_of_claimScore hclaim
  rcases hfour.exists_nat hnonneg hle with ⟨k, hk, hvalue⟩
  rw [← heq] at hvalue
  exact ⟨(claimScore_ok hclaim).1, k, hk, hvalue⟩

/-- The record of a score that the scoring service makes is applied by the claims service
as that score: to the same claim, with the same hint, ring and model version and the
explanation that was dumped; and of its number the column keeps exactly the four decimals
it has. -/
theorem scored_record_round_trip (env : Env) (db : Db) (now : Instant) (scoredAt : String)
    (sc : Scoring Double) (cache : Cache Double) (claimId : UUID) (score : ClaimScore Double)
    (hcache : cache.FromOne sc) (hscore : scoreOne sc cache claimId = .ok (some score)) :
    ∃ (k : ℕ) (fraudScore : BigDecimal), k ≤ 10 ^ 4 ∧
      score.fraudScore.value = Binary64.nearest (k / 10 ^ 4) ∧
      fraudScore.numeric 5 4 = some ⟨k, 4⟩ ∧
      ScoringResultConsumer.onClaimScored env db
          (serialize (score.modelDump Double.repr scoredAt)) now =
        (applyScore env db claimId (some fraudScore) (some score.decisionHint.name) score.ringId
          (some (.text (CanonicalJson.toText
            (CanonicalJson.parse (score.explanation.modelDump Double.repr)))))
          (some score.modelVersion) now).mapError .service := by
  obtain ⟨rfl, k, hk, hvalue⟩ := exists_decimals_of_scoreOne hcache hscore
  rcases onClaimScored_serialize env db now scoredAt hk hvalue with ⟨d, hnumeric, happlied⟩
  exact ⟨k, d, hk, hvalue, hnumeric, happlied⟩

namespace Sample

/-- The scoring service without a model. -/
def ruleBased : Scoring Double := ⟨ig, none⟩

/-- Three claims with one phone. -/
def sharedPhones : Graph Double where
  vertices :=
    [⟨(⟨1⟩ : UUID).toString, .claim, none, none, none, some (.ofRat 125), some ⟨20454⟩⟩,
      ⟨(⟨6⟩ : UUID).toString, .claim, none, none, none, some (.ofRat 9900), some ⟨20460⟩⟩,
      ⟨(⟨7⟩ : UUID).toString, .claim, none, none, none, some (.ofRat 480), some ⟨20461⟩⟩,
      ⟨(⟨2⟩ : UUID).toString, .entity, some .phone, some "+919876500011", some 3, none, none⟩]
  edges := [(0, 3), (1, 3), (2, 3)]
  weights := List.replicate 3 (.ofRat (144 / 100))

/-- The scoring service with a model, its cache filled from the ring. -/
def modelBased : Scoring Double := ⟨ig, some (constantModel (8732 / 10000))⟩

def sharedPhonesCache : Cache Double := (refresh modelBased Cache.empty ⟨some sharedPhones, true⟩).1

theorem fromOne_sharedPhonesCache : sharedPhonesCache.FromOne modelBased :=
  Or.inr ⟨sharedPhones, refresh_completes rfl rfl⟩

end Sample

/-- A score of four decimals with a ring, sent and applied to the sample claim. -/
theorem scored_record_round_trip_ring : ∃ score : ClaimScore Double,
    scoreOne Sample.modelBased Sample.sharedPhonesCache ⟨1⟩ = .ok (some score) ∧
      score.decisionHint = .flag ∧ score.ringId = some "kcore-0" ∧
      score.fraudScore.value = Binary64.nearest (8732 / 10 ^ 4) ∧
      ∃ (k : ℕ) (fraudScore : BigDecimal), k ≤ 10 ^ 4 ∧
        score.fraudScore.value = Binary64.nearest (k / 10 ^ 4) ∧
        fraudScore.numeric 5 4 = some ⟨k, 4⟩ ∧
        ScoringResultConsumer.onClaimScored Sample.env Sample.created
            (serialize (score.modelDump Double.repr "2026-01-02T03:04:06Z")) Sample.now =
          (applyScore Sample.env Sample.created ⟨1⟩ (some fraudScore)
            (some score.decisionHint.name) score.ringId
            (some (.text (CanonicalJson.toText
              (CanonicalJson.parse (score.explanation.modelDump Double.repr)))))
            (some score.modelVersion) Sample.now).mapError .service := by
  have hscored : ((scoreOne Sample.modelBased Sample.sharedPhonesCache ⟨1⟩).toOption.join).any
      (fun score => decide (score.decisionHint = .flag ∧ score.ringId = some "kcore-0" ∧
        score.fraudScore.value = Binary64.nearest (8732 / 10 ^ 4))) = true := by
    decide +kernel
  rcases (Option.any_eq_true _ _).1 hscored with ⟨score, hjoin, hfields⟩
  obtain ⟨hhint, hring, hvalue⟩ := of_decide_eq_true hfields
  have hscore := Results.eq_ok_of_join hjoin
  exact ⟨score, hscore, hhint, hring, hvalue,
    scored_record_round_trip Sample.env Sample.created Sample.now _ Sample.modelBased
      Sample.sharedPhonesCache ⟨1⟩ score Sample.fromOne_sharedPhonesCache hscore⟩

end ClaimGuard
