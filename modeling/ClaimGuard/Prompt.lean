import ClaimGuard.ErasedValues
import ClaimGuard.LastingEvidence
import ClaimGuard.Masks
import ClaimGuard.Rungs

/-!
# The prompt of a narrative

What the local model is told about a claim: a line for each fact, with no claimant's words
in it but the ends of masked values. No value that a claimant types adds a line.
-/

namespace ClaimGuard

open ClaimService Words

/-! ## Numbers -/

/-- `f"{x:.0f}"`. -/
def formatWhole (x : Double) : String :=
  (if x.value < 0 then "-" else "") ++ toString (Binary64.roundHalfEven |x.value|)

/-- `f"{x:+.nf}"`. -/
def formatSigned (x : Double) (n : ℕ) : String :=
  (if x.value < 0 then "" else "+") ++ Floats.format x n

/-! ## The prompt -/

/-- `item.metric.replace("_", " ")`. -/
def metricName (metric : String) : String :=
  String.ofList (metric.toList.map fun c => if c = '_' then ' ' else c)

/-- The line of a piece of evidence. -/
def evidenceLine : Evidence Double → String
  | .sharedEntity entityType entityValue entityDegree sharedWithClaimIds =>
      "- Shares a " ++ entityType ++ " (" ++ entityValue ++ ") with " ++
        toString sharedWithClaimIds.length ++ " other claim(s); that entity appears on " ++
        toString entityDegree ++ " claims total."
  | .featureContribution feature featureValue shapValue =>
      let direction := if 0 ≤ shapValue.value then "toward fraud" else "toward clean"
      "- Model feature '" ++ feature ++ "' = " ++ Floats.format featureValue 2 ++
        ", pushed the score " ++ direction ++ " (weight " ++ formatSigned shapValue 3 ++ ")."
  | .ringMetric metric value baseline =>
      "- " ++ metricName metric ++ ": " ++ formatWhole value ++ " (baseline " ++
        formatWhole baseline ++ ")."

/-- `_evidence_lines`. -/
def evidenceLines (score : ClaimScore Double) : List String :=
  score.explanation.evidence.map evidenceLine

/-- What stands for the evidence when there is none. -/
def noEvidenceLine : String := "- No shared entities or model features available."

/-- What the model is asked for. -/
def promptInstructions : String :=
  "You are writing a short note for a human fraud investigator. " ++
    "Use ONLY the facts below - do not invent claim IDs, names, dates, or numbers " ++
    "that are not given here. Write 2-3 plain sentences, no bullet points."

/-- `score.ring_id or 'none detected'`. -/
def ringLabel (ringId : Option String) : String :=
  match ringId with
  | none => "none detected"
  | some ringId => if ringId.isEmpty then "none detected" else ringId

/-- `_build_prompt`. -/
def buildPrompt (score : ClaimScore Double) : String :=
  let joined := String.intercalate "\n" (evidenceLines score)
  let evidenceBlock := if joined.isEmpty then noEvidenceLine else joined
  promptInstructions ++ "\n\n" ++
    "Claim: " ++ score.claimId.toString ++ "\n" ++
    "Fraud score: " ++ Floats.format score.fraudScore 2 ++ " (" ++ score.decisionHint.name ++ ")\n" ++
    "Ring: " ++ ringLabel score.ringId ++ "\n" ++
    "Evidence:\n" ++ evidenceBlock ++ "\n"

/-! ## Plain texts -/

/-- A printable character of ASCII. -/
def isPlainChar (c : Char) : Bool := 32 ≤ c.toNat && c.toNat ≤ 126

/-- The characters are printable ones: the text is one line, and any column takes it. -/
def Plain (s : String) : Prop := ∀ c ∈ s.toList, isPlainChar c = true

instance (s : String) : Decidable (Plain s) :=
  List.decidableBAll (fun c => isPlainChar c = true) s.toList

@[simp] theorem plain_append {s t : String} : Plain (s ++ t) ↔ Plain s ∧ Plain t := by
  unfold Plain
  simp only [String.toList_append, List.mem_append, or_imp, forall_and]

theorem Plain.newline {s : String} (h : Plain s) : '\n' ∉ s.toList := by
  intro hmem
  exact absurd (h _ hmem) (by decide)

theorem Plain.isText {s : String} (h : Plain s) : Db.isText s = true := by
  unfold Db.isText
  rw [Bool.not_eq_true', List.contains_eq_mem, decide_eq_false_iff_not]
  intro hmem
  exact absurd (h _ hmem) (by decide)

theorem plain_of_isDigit {s : String} (h : ∀ c ∈ s.toList, c.isDigit = true) : Plain s := by
  intro c hc
  have hdigit := h c hc
  simp only [Char.isDigit, Bool.and_eq_true, decide_eq_true_eq, UInt32.le_iff_toNat_le] at hdigit
  unfold isPlainChar
  rw [Bool.and_eq_true, decide_eq_true_eq, decide_eq_true_eq]
  exact ⟨le_trans (by decide) hdigit.1, le_trans hdigit.2 (by decide)⟩

theorem plain_toString (n : ℕ) : Plain (toString n) := by
  apply plain_of_isDigit
  intro c hc
  rw [show (toString n).toList = Text.decimal n from Nat.toList_repr] at hc
  exact Text.isDigit_of_mem_decimal hc

theorem plain_format (x : Double) (n : ℕ) : Plain (Floats.format x n) := by
  show Plain ((if x.value < 0 then "-" else "") ++ toString _ ++ "." ++ String.ofList _)
  simp only [plain_append, plain_toString, and_true]
  refine ⟨⟨?_, by decide⟩, ?_⟩
  · split <;> decide
  · apply plain_of_isDigit
    intro c hc
    rw [String.toList_ofList] at hc
    exact Text.isDigit_of_mem_fixed hc

theorem plain_formatWhole (x : Double) : Plain (formatWhole x) := by
  unfold formatWhole
  rw [plain_append]
  refine ⟨?_, plain_toString _⟩
  split <;> decide

theorem plain_formatSigned (x : Double) (n : ℕ) : Plain (formatSigned x n) := by
  unfold formatSigned
  rw [plain_append]
  refine ⟨?_, plain_format _ _⟩
  split <;> decide

/-- The text starts a line of the list. -/
def IsBullet (s : String) : Prop := ['-', ' '] <+: s.toList

instance (s : String) : Decidable (IsBullet s) := inferInstanceAs (Decidable (_ <+: _))

theorem IsBullet.append {s : String} (h : IsBullet s) (t : String) : IsBullet (s ++ t) := by
  unfold IsBullet
  rw [String.toList_append]
  exact h.trans (List.prefix_append _ _)

/-! ## What a piece of evidence shows -/

/-- A character of a value that is masked: a digit or a plus of a phone, or what the
normalizers leave. -/
def isValueChar (c : Char) : Bool := isShopChar c || c == ' ' || c == '+'

theorem isPlainChar_of_isValueChar {c : Char} (h : isValueChar c = true) :
    isPlainChar c = true := by
  unfold isValueChar at h
  rw [Bool.or_eq_true, Bool.or_eq_true, beq_iff_eq, beq_iff_eq, isShopChar_iff] at h
  unfold isPlainChar
  rw [Bool.and_eq_true, decide_eq_true_eq, decide_eq_true_eq]
  rcases h with (hshop | rfl) | rfl
  · omega
  · decide
  · decide

/-- What a piece shows of the values of claims is four characters of each at most, besides
the stars. -/
def Evidence.Discloses : Evidence Double → Prop
  | .sharedEntity entityType entityValue _ _ => (∃ T : EntityType, entityType = T.name) ∧
      entityValue.toList.countP (fun c => decide (c ≠ '*')) ≤ 4 ∧
      ∀ c ∈ entityValue.toList, c = '*' ∨ isValueChar c = true
  | .ringMetric metric _ _ => metric = "community_size"
  | .featureContribution feature _ _ => feature ∈ allFeatures

/-- The characters of a canonical value. -/
theorem isValueChar_of_canonicalValue {env : Env}
    (hphone : ∀ raw value, env.normalizePhone raw = some value →
      ∀ c ∈ value.toList, c = '+' ∨ c.isDigit = true)
    {claim : Claim} {entityType : EntityType} {value : String}
    (h : canonicalValue env claim entityType = some value) :
    ∀ c ∈ value.toList, isValueChar c = true := by
  have hjoined : ∀ {p : Char → Bool} {ws : List (List Char)},
      (∀ c, p c = true → isShopChar c = true) → (∀ w ∈ ws, IsWord p w) →
      ∀ c ∈ [' '].intercalate ws, isValueChar c = true := by
    intro p ws hp hws c hc
    unfold isValueChar
    rcases of_mem_intercalate_singleton hc with rfl | ⟨w, hw, hmem⟩
    · rfl
    · rw [hp c ((hws w hw).2 c hmem)]
      rfl
  cases entityType with
  | phone =>
      intro c hc
      unfold isValueChar
      rcases hphone _ _ h c hc with rfl | hdigit
      · rfl
      · have hshop : isShopChar c = true := by
          rw [isShopChar_iff]
          simp only [Char.isDigit, Bool.and_eq_true, decide_eq_true_eq, UInt32.le_iff_toNat_le]
            at hdigit
          exact Or.inr (Or.inl hdigit)
        rw [hshop]
        rfl
  | address =>
      rw [canonicalValue_address, Option.some.injEq] at h
      rw [← h, toList_normalizeAddress]
      refine hjoined (fun c hc => ?_) isWord_of_sortedTokens
      unfold isShopChar
      rw [hc]
      rfl
  | shop =>
      rcases Option.bind_eq_some_iff.1 h with ⟨name, -, hname⟩
      split at hname
      · cases hname
      · rw [← Option.some.inj hname, toList_normalizeShop]
        exact hjoined (fun c hc => hc) fun w => isWord_of_mem

/-- The names of the features are plain. -/
theorem plain_of_mem_allFeatures {feature : String} (h : feature ∈ allFeatures) :
    Plain feature := by
  have hall : ∀ name ∈ allFeatures, Plain name := by decide +kernel
  exact hall feature h

/-- The text of a piece that discloses no more is a line. -/
theorem plain_evidenceLine {e : Evidence Double} (h : e.Discloses) :
    Plain (evidenceLine e) ∧ IsBullet (evidenceLine e) := by
  cases e with
  | sharedEntity entityType entityValue entityDegree sharedWithClaimIds =>
      obtain ⟨⟨T, rfl⟩, -, hchars⟩ := h
      have htype : Plain T.name := by cases T <;> simp [Plain, isPlainChar, EntityType.name]
      have hvalue : Plain entityValue := by
        intro c hc
        rcases hchars c hc with rfl | hvalue
        · rfl
        · exact isPlainChar_of_isValueChar hvalue
      unfold evidenceLine
      refine ⟨?_, (((((((IsBullet.append (by simp [IsBullet]) _).append _).append _).append _).append
        _).append _).append _).append _⟩
      simp only [plain_append, plain_toString, htype, hvalue, and_true]
      decide +kernel
  | ringMetric metric value baseline =>
      rcases (h : metric = "community_size") with rfl
      unfold evidenceLine
      refine ⟨?_, (((((IsBullet.append (by simp [IsBullet]) _).append _).append _).append _).append
        _).append _⟩
      simp only [plain_append, plain_formatWhole, and_true]
      simp [Plain, isPlainChar, metricName]
  | featureContribution feature featureValue shapValue =>
      have hfeature : Plain feature := plain_of_mem_allFeatures h
      unfold evidenceLine
      refine ⟨?_, (((((((IsBullet.append (by simp [IsBullet]) _).append _).append _).append _).append
        _).append _).append _).append _⟩
      simp only [plain_append, plain_format, plain_formatSigned, hfeature,
        and_true]
      split <;> decide +kernel

/-! ## What a score shows -/

section

variable {ig : Igraph Double} {g : Graph Double}

theorem plain_of_mem_rung1 {claimId ring : String} {degreeThresholds : List (EntityType × ℕ)}
    {minRingSize : ℕ} (h : (claimId, ring) ∈ rung1Components ig g degreeThresholds minRingSize) :
    Plain ring := by
  rw [rung1Components_eq] at h
  rcases mem_partItems.1 h with ⟨k, part, -, -, -, rfl⟩
  unfold ringOf
  exact plain_append.2 ⟨by decide +kernel, plain_toString k⟩

theorem plain_of_mem_rung2 {claimId : String} {verdict : ClaimVerdict Double} {minRingSize : ℕ}
    {resolution : Double} (h : (claimId, verdict) ∈ rung2Leiden ig g resolution minRingSize) :
    Plain verdict.rung ∧ ∀ ring ∈ verdict.ringId, Plain ring := by
  rw [rung2Leiden_eq] at h
  rcases mem_partItems.1 h with ⟨k, part, -, -, -, rfl⟩
  refine ⟨(by decide +kernel : Plain "leiden_community"), ?_⟩
  intro ring hring
  rw [← Option.some.inj hring]
  exact plain_append.2 ⟨by decide +kernel, plain_toString k⟩

theorem plain_of_mem_detect {claimId : String} {verdict : ClaimVerdict Double}
    (h : (claimId, verdict) ∈ detect ig g) :
    Plain verdict.rung ∧ ∀ ring ∈ verdict.ringId, Plain ring := by
  unfold detect at h
  rw [detectWith_eq, List.mem_append, List.mem_append] at h
  rcases h with (hranked | hnear) | hclear
  · rcases (candidate_eq_some (mem_rankedVerdicts.1 hranked).2).1 with ⟨ringId, hring, rfl⟩ | hsecond
    · refine ⟨(by decide +kernel : Plain "k_core"), ?_⟩
      intro ring hmem
      rw [← Option.some.inj hmem]
      exact plain_of_mem_rung1 (Dict.mem_of_get_eq_some hring)
    · exact plain_of_mem_rung2 (Dict.mem_of_get_eq_some hsecond)
  · rcases mem_nearVerdicts.1 hnear with ⟨score, -, -, -, rfl⟩
    exact ⟨(by decide +kernel : Plain "ppr"), by rintro ring ⟨⟩⟩
  · rcases mem_clearVerdicts.1 hclear with ⟨-, -, rfl⟩
    exact ⟨(by decide +kernel : Plain "none"), by rintro ring ⟨⟩⟩

/-- The features of a score are those of the rows. -/
theorem mem_allFeatures_of_scoreClaim {classifier : RingClassifier Double}
    {ctx : FeatureContext Double} {claimId : String} {probability : Double}
    {contributions : List (FeatureContribution Double)}
    (h : scoreClaim ig classifier ctx claimId = some (probability, contributions)) :
    ∀ c ∈ contributions, c.feature ∈ allFeatures := by
  unfold scoreClaim at h
  split at h
  · cases h
  · rcases Prod.mk.inj (Option.some.inj h) with ⟨-, rfl⟩
    intro c hc
    rcases List.mem_map.1 hc with ⟨e, he, rfl⟩
    have hzip := (List.perm_insertionSort _ _).mem_iff.1 (List.mem_of_mem_take he)
    exact (List.of_mem_zip hzip).1

theorem plain_modelSummary {probability : Double} {evidence : List (Evidence Double)}
    {contributions : List (FeatureContribution Double)}
    (h : ∀ c ∈ contributions, c.feature ∈ allFeatures) :
    Plain (modelSummary probability evidence contributions) := by
  unfold modelSummary
  split
  · decide +kernel
  · simp only [plain_append, plain_format, and_true]
    refine ⟨⟨by decide +kernel, ?_⟩, by decide +kernel⟩
    split
    · decide +kernel
    · rename_i c hc
      simp only [plain_append, plain_of_mem_allFeatures (h c (List.mem_of_mem_head? hc)), and_true]
      decide +kernel

theorem plain_verdictSummary {verdict : ClaimVerdict Double} {evidence : List (Evidence Double)}
    (h : Plain verdict.rung ∧ ∀ ring ∈ verdict.ringId, Plain ring) :
    Plain (verdictSummary verdict evidence) := by
  unfold verdictSummary
  split
  · decide +kernel
  · split
    · rename_i ringId hring
      simp only [plain_append, plain_toString, h.1, h.2 ringId hring, and_true]
      decide +kernel
    · simp only [plain_append, h.1, and_true]
      decide +kernel

/-- `model_version` of the service. -/
def Scoring.modelVersion (sc : Scoring Double) : String :=
  match sc.classifier with
  | some classifier => classifier.modelVersion
  | none => ruleBasedModelVersion

/-- What a score shows apart from the shared entities. -/
structure Shown (sc : Scoring Double) (score : ClaimScore Double) : Prop where
  modelVersion : score.modelVersion = sc.modelVersion
  ringId : ∀ ring ∈ score.ringId, Plain ring
  summary : Plain score.explanation.summary
  others : ∀ e ∈ score.explanation.evidence, e.isShared = false → e.Discloses

theorem shown_of_scoreOne {sc : Scoring Double} {claimId : UUID} {score : ClaimScore Double}
    (h : scoreOne sc (Cache.of sc g) claimId = .ok (some score)) : Shown sc score := by
  have hothers : ∀ {i : ℕ} {shared rest : List (Evidence Double)},
      sharedEntityEvidence sc.ig g i claimId.toString = .ok shared →
      (∀ e ∈ rest, e.Discloses) → ∀ e ∈ shared ++ rest, e.isShared = false → e.Discloses := by
    intro i shared rest hshared hrest e he hother
    rcases List.mem_append.1 he with hmem | hmem
    · rw [← filter_sharedEntityEvidence hshared] at hmem
      rw [(List.mem_filter.1 hmem).2] at hother
      cases hother
    · exact hrest e hmem
  unfold scoreOne Cache.of refresh at h
  cases hclassifier : sc.classifier with
  | some classifier =>
      simp only [hclassifier] at h
      change buildModelScore sc.ig g (buildFeatureContext sc.ig g) classifier claimId.toString = _
        at h
      unfold buildModelScore at h
      split at h
      · cases h
      · split at h
        · cases h
        · rename_i probability contributions hscored
          simp only [Results.bind_eq_ok, Results.pure_eq_ok, Option.some.injEq] at h
          rcases h with ⟨shared, hshared, score', hscore, rfl⟩
          have hfeatures := mem_allFeatures_of_scoreClaim hscored
          rcases claimScore_eq hscore with ⟨id, rfl⟩
          refine ⟨?_, ?_, plain_modelSummary hfeatures, hothers hshared ?_⟩
          · unfold Scoring.modelVersion
            rw [hclassifier]
          · -- a ring of the first rung, else of the second
            intro ring hring
            split at hring
            · rename_i ringId hget
              rw [← Option.some.inj hring]
              exact plain_of_mem_rung1 (Dict.mem_of_get_eq_some hget)
            · rcases Option.bind_eq_some_iff.1 hring with ⟨verdict, hget, hverdict⟩
              exact (plain_of_mem_rung2 (Dict.mem_of_get_eq_some hget)).2 ring hverdict
          · intro e he
            rcases List.mem_map.1 he with ⟨c, hc, rfl⟩
            exact hfeatures c hc
  | none =>
      simp only [hclassifier] at h
      change buildScore sc.ig g g.claimIndex (detect sc.ig g) claimId.toString
        ruleBasedModelVersion = _ at h
      unfold buildScore at h
      split at h
      · rename_i verdict index hverdict hindex
        simp only [Results.bind_eq_ok, Results.pure_eq_ok, Option.some.injEq] at h
        rcases h with ⟨shared, hshared, score', hscore, rfl⟩
        have hplain := plain_of_mem_detect (Dict.mem_of_get_eq_some hverdict)
        rcases claimScore_eq hscore with ⟨id, rfl⟩
        refine ⟨?_, hplain.2, plain_verdictSummary hplain, hothers hshared ?_⟩
        · unfold Scoring.modelVersion
          rw [hclassifier]
        · intro e he
          unfold communityEvidence at he
          split at he
          · cases he
          · rw [List.mem_singleton.1 he]
            rfl
      · cases h

end

/-- No piece of a score discloses more than its mask. -/
theorem discloses_of_scoreOne {svc : Services} {db : Db} (hr : db.Resolved svc.env)
    {rows : List LinkRow} (hrows : rows.Perm (fetchLinks db none)) (hig : svc.sc.ig.FindsEdges)
    (hphone : ∀ raw value, svc.env.normalizePhone raw = some value →
      ∀ c ∈ value.toList, c = '+' ∨ c.isDigit = true)
    {claimId : UUID} {score : ClaimScore Double} (hapart : ∀ r ∈ db.refs, claimId ≠ r.1)
    (h : scoreOne svc.sc (Cache.of svc.sc (svc.graph db rows)) claimId = .ok (some score)) :
    ∀ e ∈ score.explanation.evidence, e.Discloses := by
  have hholds := holdsIn_of_scoreOne hr hrows hig hapart h
  intro e he
  cases e with
  | sharedEntity entityType entityValue entityDegree sharedWithClaimIds =>
      rcases hholds _ he with ⟨T, value, htype, rfl, ⟨c, -, -, hvalue⟩, -⟩
      refine ⟨⟨T, htype⟩, countP_maskEntityValue_le value, ?_⟩
      intro d hd
      rcases mem_of_mem_maskEntityValue hd with hstar | hmem
      · exact Or.inl hstar
      · exact Or.inr (isValueChar_of_canonicalValue hphone hvalue d hmem)
  | ringMetric metric value baseline => exact (shown_of_scoreOne h).others _ he rfl
  | featureContribution feature featureValue shapValue =>
      exact (shown_of_scoreOne h).others _ he rfl

/-! ## The lines of a prompt -/

/-- The facts of a prompt. -/
def promptFacts (score : ClaimScore Double) : List String :=
  if score.explanation.evidence.isEmpty then [noEvidenceLine] else evidenceLines score

/-- All its lines. -/
def promptLines (score : ClaimScore Double) : List String :=
  [promptInstructions, "", "Claim: " ++ score.claimId.toString,
    "Fraud score: " ++ Floats.format score.fraudScore 2 ++ " (" ++ score.decisionHint.name ++ ")",
    "Ring: " ++ ringLabel score.ringId, "Evidence:"] ++ promptFacts score ++ [""]

theorem promptFacts_ne_nil (score : ClaimScore Double) : promptFacts score ≠ [] := by
  unfold promptFacts evidenceLines
  cases score.explanation.evidence <;> simp

/-- A list of bullets is not an empty text. -/
theorem intercalate_evidenceLines (score : ClaimScore Double)
    (h : ∀ e ∈ score.explanation.evidence, e.Discloses) :
    (if (String.intercalate "\n" (evidenceLines score)).isEmpty then noEvidenceLine
      else String.intercalate "\n" (evidenceLines score)) =
      String.intercalate "\n" (promptFacts score) := by
  unfold promptFacts evidenceLines
  cases hevidence : score.explanation.evidence with
  | nil => simp
  | cons e evidence =>
      rw [hevidence] at h
      rcases (plain_evidenceLine (h e List.mem_cons_self)).2 with ⟨rest, hrest⟩
      have hne : (String.intercalate "\n" ((e :: evidence).map evidenceLine)).isEmpty = false := by
        rw [← Bool.not_eq_true, String.isEmpty_iff, ← String.toList_inj, String.toList_intercalate,
          List.map_cons, List.map_cons]
        intro hnil
        cases hcase : (evidence.map evidenceLine).map String.toList with
        | nil => simp [hcase, ← hrest] at hnil
        | cons l ls => simp [hcase, ← hrest, List.intercalate_cons_cons] at hnil
      rw [hne]
      rfl

/-- The prompt is its lines. -/
theorem buildPrompt_eq (score : ClaimScore Double)
    (h : ∀ e ∈ score.explanation.evidence, e.Discloses) :
    buildPrompt score = String.intercalate "\n" (promptLines score) := by
  have hne := promptFacts_ne_nil score
  unfold buildPrompt promptLines
  simp only [intercalate_evidenceLines score h]
  apply String.toList_inj.1
  rw [String.intercalate_append_of_ne_nil (by simp) (by simp),
    String.intercalate_append_of_ne_nil (by simp) hne]
  simp only [String.toList_append, String.intercalate_cons_cons, String.intercalate_singleton]
  simp

theorem plain_uuid (id : UUID) : Plain id.toString := fun _ hc =>
  UUID.of_mem_toString (p := fun c => isPlainChar c = true) (by decide) (by decide) hc

/-- Every line of a prompt is one. -/
theorem plain_of_mem_promptLines {score : ClaimScore Double}
    (hring : ∀ ring ∈ score.ringId, Plain ring)
    (h : ∀ e ∈ score.explanation.evidence, e.Discloses) :
    ∀ line ∈ promptLines score, Plain line := by
  have hhint : Plain score.decisionHint.name := by
    cases score.decisionHint <;> simp [Plain, isPlainChar, DecisionHint.name]
  have hlabel : Plain (ringLabel score.ringId) := by
    unfold ringLabel
    cases hid : score.ringId with
    | none => decide +kernel
    | some ring =>
        simp only
        split
        · decide +kernel
        · exact hring ring hid
  have hfacts : ∀ line ∈ promptFacts score, Plain line := by
    intro line hline
    unfold promptFacts at hline
    split at hline
    · rw [List.mem_singleton.1 hline]
      simp [Plain, isPlainChar, noEvidenceLine]
    · rcases List.mem_map.1 hline with ⟨e, he, rfl⟩
      exact (plain_evidenceLine (h e he)).1
  have hinstructions : Plain promptInstructions := by
    unfold promptInstructions
    simp only [plain_append]
    decide +kernel
  intro line hline
  unfold promptLines at hline
  simp only [List.cons_append, List.nil_append, List.mem_cons, List.mem_append,
    List.not_mem_nil, or_false] at hline
  rcases hline with rfl | rfl | rfl | rfl | rfl | rfl | hfact | rfl
  · exact hinstructions
  · decide +kernel
  · exact plain_append.2 ⟨by decide +kernel, plain_uuid _⟩
  · simp only [plain_append, plain_format, hhint, and_true]
    decide +kernel
  · exact plain_append.2 ⟨by decide +kernel, hlabel⟩
  · decide +kernel
  · exact hfacts line hfact
  · decide +kernel

/-- Nothing that a claimant types changes the form of a prompt. In every state of every run
the prompt of a score has the lines of its form and one bullet for each piece of evidence, or
the one that stands for none, and no piece shows more of a value than its mask: four
characters at most, of those that normalized values have. -/
theorem prompt_form (svc : Services) (hig : svc.sc.ig.FindsEdges)
    (hphone : ∀ raw value, svc.env.normalizePhone raw = some value →
      ∀ c ∈ value.toList, c = '+' ∨ c.isDigit = true)
    (s₀ s : System) (events : List SystemEvent) (hinit : (pipeline svc).init s₀)
    (hrun : (pipeline svc).run s₀ events = some s) (rows : List LinkRow)
    (hrows : rows.Perm (fetchLinks s.db none)) (claim : Claim) (hclaim : claim ∈ s.db.claims)
    (score : ClaimScore Double)
    (hscore : scoreOne svc.sc (Cache.of svc.sc (svc.graph s.db rows)) claim.id =
      .ok (some score)) :
    (buildPrompt score).toList.splitOn '\n' = (promptLines score).map String.toList ∧
      (∀ line ∈ evidenceLines score, IsBullet line) ∧
      ∀ e ∈ score.explanation.evidence, e.Discloses := by
  have hr := (System.inv_of_run (System.inv_of_init hinit) hrun).resolved
  have hring := (shown_of_scoreOne hscore).ringId
  have hdiscloses := discloses_of_scoreOne hr hrows hig hphone (hr.apart claim hclaim) hscore
  refine ⟨?_, ?_, hdiscloses⟩
  · rw [buildPrompt_eq score hdiscloses, String.toList_intercalate]
    apply List.splitOn_intercalate
    · intro line hline
      rcases List.mem_map.1 hline with ⟨text, htext, rfl⟩
      exact (plain_of_mem_promptLines hring hdiscloses text htext).newline
    · simp [promptLines]
  · intro line hline
    rcases List.mem_map.1 hline with ⟨e, he, rfl⟩
    exact (plain_evidenceLine (hdiscloses e he)).2

namespace Sample

/-- Phones that are in the international format already. -/
def dialing : Services :=
  { services with
    env := { storing with
      normalizePhone := fun raw =>
        if raw.toList.all fun c => c == '+' || c.isDigit then some raw else none } }

theorem phone_dialing : ∀ raw value, dialing.env.normalizePhone raw = some value →
    ∀ c ∈ value.toList, c = '+' ∨ c.isDigit = true := by
  intro raw value h c hc
  have h : (if raw.toList.all fun c => c == '+' || c.isDigit then some raw else none) =
    some value := h
  split at h
  · rename_i hall
    rw [← Option.some.inj h] at hc
    have hchar := List.all_eq_true.1 hall c hc
    rwa [Bool.or_eq_true, beq_iff_eq] at hchar
  · cases h

/-- A score of the first claim. -/
theorem exists_created_score : ∃ s claim score,
    (pipeline dialing).run stopped (scoringRun.take 1) = some s ∧ claim ∈ s.db.claims ∧
      scoreOne dialing.sc (Cache.of dialing.sc (dialing.graph s.db (fetchLinks s.db none)))
        claim.id = .ok (some score) := by
  have h : (((pipeline dialing).run stopped (scoringRun.take 1)).any fun s =>
      s.db.claims.any fun claim => (scoreOne dialing.sc
        (Cache.of dialing.sc (dialing.graph s.db (fetchLinks s.db none)))
        claim.id).toOption.join.isSome) = true := by
    decide +kernel
  rcases (Option.any_eq_true _ _).1 h with ⟨s, hrun, hany⟩
  rcases List.any_eq_true.1 hany with ⟨claim, hclaim, hscored⟩
  rcases Results.exists_of_isSome hscored with ⟨score, hscore⟩
  exact ⟨s, claim, score, hrun, hclaim, hscore⟩

end Sample

/-- The prompt of the sample score. -/
theorem prompt_form_created : ∃ score : ClaimScore Double,
    (buildPrompt score).toList.splitOn '\n' = (promptLines score).map String.toList ∧
      (∀ line ∈ evidenceLines score, IsBullet line) ∧
      ∀ e ∈ score.explanation.evidence, e.Discloses := by
  rcases Sample.exists_created_score with ⟨s, claim, score, hrun, hclaim, hscore⟩
  exact ⟨score, prompt_form Sample.dialing Sample.findsEdges_ig Sample.phone_dialing
    Sample.stopped s _ Sample.stopped_init hrun _ (List.Perm.refl _) claim hclaim score hscore⟩

end ClaimGuard
