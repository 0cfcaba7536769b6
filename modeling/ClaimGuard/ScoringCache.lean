import ClaimGuard.Explain
import ClaimGuard.Lib.Lts

/-!
# The scoring cache

`refresh` and `score_claims` over the cache of the process. A refresh assigns the graph
and its index before the analytics run: when these fail, the new graph stands next to
what was computed from the old one, or next to nothing.
-/

namespace ClaimGuard

variable {F : Type}

/-- The cache: four fields, each of which may be absent. -/
structure Cache (F : Type) where
  graph : Option (Graph F)
  nameToIndex : Option (List (String × ℕ))
  verdicts : Option (List (String × ClaimVerdict F))
  featureContext : Option (FeatureContext F)

/-- The cache at the start of the process. -/
def Cache.empty : Cache F := ⟨none, none, none, none⟩

/-- What does not change while the process runs: the graph library and the model, when one
is trained. -/
structure Scoring (F : Type) where
  ig : Igraph F
  classifier : Option (RingClassifier F)

/-- How the steps of a refresh end: `build_graph` returns a graph or raises, and the
analytics return or raise. -/
structure Attempt (F : Type) where
  built : Option (Graph F)
  completes : Bool

/-- The items of `{v["name"]: v.index for v in g.vs if v["kind"] == "claim"}`. -/
def Graph.claimIndex (g : Graph F) : List (String × ℕ) :=
  (g.vertices.zipIdx.filter fun v => decide (v.1.kind = .claim)).map fun v => (v.1.name, v.2)

/-- The length of a dictionary, from its items. -/
def dictLength {ν : Type} (items : List (String × ν)) : ℕ := (items.map Prod.fst).dedup.length

/-- `RULE_BASED_MODEL_VERSION`. -/
def ruleBasedModelVersion : String := "ring-detector-0.1.0"

variable [Floats F]

/-- `refresh`: the cache after it, and what it returns or raises. -/
def refresh (sc : Scoring F) (cache : Cache F) (attempt : Attempt F) :
    Cache F × Except ScoringError ℕ :=
  match attempt.built with
  | none => (cache, throw .graph)
  | some g =>
      let cache := { cache with graph := some g, nameToIndex := some g.claimIndex }
      -- what follows may raise, and the two fields stay assigned
      if !attempt.completes then (cache, throw .analytics)
      else
        match sc.classifier with
        | some _ =>
            ({ cache with
                featureContext := some (buildFeatureContext sc.ig g)
                verdicts := none }, pure (dictLength g.claimIndex))
        | none =>
            ({ cache with
                verdicts := some (detect sc.ig g)
                featureContext := none }, pure (dictLength (detect sc.ig g)))

/-- The score of one claim, from the cache as it is. -/
def scoreOne (sc : Scoring F) (cache : Cache F) (claimId : UUID) :
    Except ScoringError (Option (ClaimScore F)) :=
  match sc.classifier with
  | some classifier =>
      match cache.featureContext, cache.graph with
      | some ctx, some g => buildModelScore sc.ig g ctx classifier claimId.toString
      | _, _ => throw .absent
  | none =>
      match cache.verdicts, cache.nameToIndex, cache.graph with
      | some verdicts, some nameToIndex, some g =>
          buildScore sc.ig g nameToIndex verdicts claimId.toString ruleBasedModelVersion
      | _, _, _ => throw .absent

/-- The loop of `score_claims`. -/
def scoreAll (sc : Scoring F) (cache : Cache F) :
    List UUID → Except ScoringError (List (ClaimScore F))
  | [] => pure []
  | claimId :: claimIds => do
      let score ← scoreOne sc cache claimId
      let results ← scoreAll sc cache claimIds
      pure (score.toList ++ results)

/-- `score_claims`: the cache after it, and what it returns or raises. An empty cache is
filled first. -/
def scoreClaims (sc : Scoring F) (cache : Cache F) (attempt : Attempt F) (claimIds : List UUID) :
    Cache F × Except ScoringError (List (ClaimScore F)) :=
  match cache.graph with
  | some _ => (cache, scoreAll sc cache claimIds)
  | none =>
      match refresh sc cache attempt with
      | (cache, .error e) => (cache, throw e)
      | (cache, .ok _) => (cache, scoreAll sc cache claimIds)

/-! ## Runs -/

/-- A request to the scoring service, with how a refresh in it would end. -/
inductive ScoringRequest (F : Type) where
  | refresh (attempt : Attempt F)
  | scoreClaims (attempt : Attempt F) (claimIds : List UUID)

/-- The cache after a request. -/
def respond (sc : Scoring F) (cache : Cache F) : ScoringRequest F → Cache F
  | .refresh attempt => (ClaimGuard.refresh sc cache attempt).1
  | .scoreClaims attempt claimIds => (ClaimGuard.scoreClaims sc cache attempt claimIds).1

/-- The process, started with an empty cache. -/
def scoring (sc : Scoring F) : Lts (Cache F) (ScoringRequest F) where
  init cache := cache = Cache.empty
  step cache request := some (respond sc cache request)

/-- The analytics in the cache are those of the graph. -/
def Cache.HasAnalytics (sc : Scoring F) (cache : Cache F) (g : Graph F) : Prop :=
  match sc.classifier with
  | some _ => cache.featureContext = some (buildFeatureContext sc.ig g) ∧ cache.verdicts = none
  | none => cache.verdicts = some (detect sc.ig g) ∧ cache.featureContext = none

/-- All fields of the cache are absent, or all come from one graph. -/
def Cache.FromOne (sc : Scoring F) (cache : Cache F) : Prop :=
  cache = Cache.empty ∨ ∃ g, cache.graph = some g ∧ cache.nameToIndex = some g.claimIndex ∧
    cache.HasAnalytics sc g

/-- The refresh builds no graph, or completes its analytics, or builds a graph whose
analytics are in the cache already. -/
def Attempt.Safe (sc : Scoring F) (cache : Cache F) (attempt : Attempt F) : Prop :=
  ∀ g, attempt.built = some g → attempt.completes = true ∨ cache.HasAnalytics sc g

/-- Every refresh in the request is safe. -/
def SafeRequest (sc : Scoring F) (cache : Cache F) : ScoringRequest F → Prop
  | .refresh attempt => attempt.Safe sc cache
  | .scoreClaims attempt _ => cache.graph = none → attempt.Safe sc cache

/-- Scoring asks no attribute of an absent context, and takes the evidence of each score
from the vertex of its claim. -/
def SoundScores (sc : Scoring F) (cache : Cache F)
    (result : Except ScoringError (List (ClaimScore F))) : Prop :=
  result ≠ .error .absent ∧ ∀ scores, result = .ok scores → ∀ score ∈ scores,
    ∃ g, cache.graph = some g ∧ TakenFrom sc.ig g score

/-- The request leaves a cache that comes from one graph, and its scores are sound. -/
def SoundRequest (sc : Scoring F) (cache : Cache F) : ScoringRequest F → Prop
  | .refresh attempt => (ClaimGuard.refresh sc cache attempt).1.FromOne sc
  | .scoreClaims attempt claimIds =>
      (ClaimGuard.scoreClaims sc cache attempt claimIds).1.FromOne sc ∧
        SoundScores sc (ClaimGuard.scoreClaims sc cache attempt claimIds).1
          (ClaimGuard.scoreClaims sc cache attempt claimIds).2

/-! ## Indices -/

omit [Floats F] in
/-- An index of a dictionary of names is that of a vertex with the name. -/
theorem vertex_of_get {g : Graph F} {p : Vertex F × ℕ → Bool} {name : String} {i : ℕ}
    (h : Dict.get ((g.vertices.zipIdx.filter p).map fun v => (v.1.name, v.2)) name = some i) :
    ∃ v, g.vertices[i]? = some v ∧ v.name = name := by
  rcases List.mem_map.1 (Dict.mem_of_get_eq_some h) with ⟨⟨v, j⟩, hmem, heq⟩
  rcases Prod.mk.inj heq with ⟨rfl, rfl⟩
  exact ⟨v, List.mem_zipIdx_iff_getElem?.1 (List.mem_of_mem_filter hmem), rfl⟩

omit [Floats F] in
theorem vertex_of_claimIndex {g : Graph F} {name : String} {i : ℕ}
    (h : Dict.get g.claimIndex name = some i) : ∃ v, g.vertices[i]? = some v ∧ v.name = name :=
  vertex_of_get h

omit [Floats F] in
theorem vertex_of_nameToIndex {g : Graph F} {name : String} {i : ℕ}
    (h : Dict.get g.nameToIndex name = some i) : ∃ v, g.vertices[i]? = some v ∧ v.name = name := by
  refine vertex_of_get (p := fun _ => true) ?_
  rw [List.filter_true]
  exact h

/-! ## Scores -/

omit [Floats F] in
theorem readUuid_toString (id : UUID) : readUuid id.toString = .ok id := by
  unfold readUuid
  rw [UUID.parse?_toString]
  rfl

theorem claimScore_ok {id : UUID} {modelVersion : String} {fraudScore : F} {hint : DecisionHint}
    {ringId : Option String} {rung : String} {explanation : Explanation F} {score : ClaimScore F}
    (h : claimScore id.toString modelVersion fraudScore hint ringId rung explanation = .ok score) :
    score.claimId = id ∧ score.explanation = explanation := by
  unfold claimScore at h
  rw [readUuid_toString] at h
  simp only [bind, Except.bind, Results.test_eq_ok, Results.pure_eq_ok] at h
  rcases h with ⟨-, rfl⟩
  exact ⟨rfl, rfl⟩

/-- Every piece of evidence of an entity is a shared entity. -/
theorem filter_sharedEntityEvidence {ig : Igraph F} {g : Graph F} {claimIndex : ℕ}
    {claimId : String} {shared : List (Evidence F)}
    (h : sharedEntityEvidence ig g claimIndex claimId = .ok shared) :
    shared.filter Evidence.isShared = shared := by
  unfold sharedEntityEvidence at h
  rw [Results.guard_eq_ok] at h
  apply List.filter_eq_self.2
  intro e he
  rcases Results.exists_of_mapM_eq_ok h.2 he with ⟨eid, -, hentity⟩
  unfold entityEvidence at hentity
  split at hentity
  · cases hentity
  · split at hentity
    · rcases Results.bind_eq_ok.1 hentity with ⟨ids, -, hids⟩
      rw [← Results.pure_eq_ok.1 hids]
      rfl
    · cases hentity

/-- The evidence is that of the vertex, when the result carries it in front of evidence of
other kinds. -/
theorem takenFrom_of_claimScore {ig : Igraph F} {g : Graph F} {claimIndex : ℕ} {v : Vertex F}
    {id : UUID} {shared rest : List (Evidence F)} {modelVersion : String} {fraudScore : F}
    {hint : DecisionHint} {ringId : Option String} {rung summary : String}
    {thresholds : Thresholds F} {score : ClaimScore F}
    (hv : g.vertices[claimIndex]? = some v) (hname : v.name = id.toString)
    (hshared : sharedEntityEvidence ig g claimIndex id.toString = .ok shared)
    (hrest : ∀ e ∈ rest, e.isShared = false)
    (h : claimScore id.toString modelVersion fraudScore hint ringId rung
      ⟨summary, shared ++ rest, thresholds⟩ = .ok score) :
    score.claimId = id ∧ TakenFrom ig g score := by
  rcases claimScore_ok h with ⟨hid, hexplanation⟩
  refine ⟨hid, claimIndex, v, shared, hv, by rw [hid]; exact hname, by rw [hid]; exact hshared, ?_⟩
  have hnone : rest.filter Evidence.isShared = [] := by
    rw [List.filter_eq_nil_iff]
    intro e he
    rw [hrest e he]
    exact Bool.false_ne_true
  rw [hexplanation, List.filter_append, hnone, List.append_nil]
  exact filter_sharedEntityEvidence hshared

/-- A score of the model, from a context of the same graph. -/
theorem takenFrom_of_buildModelScore {ig : Igraph F} {g : Graph F} {classifier : RingClassifier F}
    {id : UUID} {score : ClaimScore F}
    (h : buildModelScore ig g (buildFeatureContext ig g) classifier id.toString =
      .ok (some score)) : score.claimId = id ∧ TakenFrom ig g score := by
  unfold buildModelScore at h
  split at h
  · cases h
  · rename_i claimIndex hindex
    rcases vertex_of_nameToIndex hindex with ⟨v, hv, hname⟩
    split at h
    · cases h
    · rename_i probability contributions _
      simp only [Results.bind_eq_ok, Results.pure_eq_ok, Option.some.injEq] at h
      rcases h with ⟨shared, hshared, score', hscore, rfl⟩
      refine takenFrom_of_claimScore hv hname hshared ?_ hscore
      intro e he
      rcases List.mem_map.1 he with ⟨c, -, rfl⟩
      rfl

/-- A score of the detector, from an index of the same graph. -/
theorem takenFrom_of_buildScore {ig : Igraph F} {g : Graph F}
    {verdicts : List (String × ClaimVerdict F)} {id : UUID} {modelVersion : String}
    {score : ClaimScore F}
    (h : buildScore ig g g.claimIndex verdicts id.toString modelVersion = .ok (some score)) :
    score.claimId = id ∧ TakenFrom ig g score := by
  unfold buildScore at h
  split at h
  · rename_i verdict claimIndex _ hindex
    rcases vertex_of_claimIndex hindex with ⟨v, hv, hname⟩
    simp only [Results.bind_eq_ok, Results.pure_eq_ok, Option.some.injEq] at h
    rcases h with ⟨shared, hshared, score', hscore, rfl⟩
    refine takenFrom_of_claimScore hv hname hshared ?_ hscore
    intro e he
    unfold communityEvidence at he
    split at he
    · cases he
    · rw [List.mem_singleton.1 he]
      rfl
  · cases h

/-! ## Absent contexts -/

/-- The computation asks no attribute of `None`. -/
def NeverAbsent {α : Type} (x : Except ScoringError α) : Prop := x ≠ .error .absent

section

variable {α β : Type}

theorem neverAbsent_pure (a : α) : NeverAbsent (pure a : Except ScoringError α) := by
  intro h
  cases h

theorem neverAbsent_throw {e : ScoringError} (he : e ≠ .absent) :
    NeverAbsent (throw e : Except ScoringError α) :=
  fun h => he (Except.error.inj h)

theorem neverAbsent_bind {x : Except ScoringError α} {f : α → Except ScoringError β}
    (hx : NeverAbsent x) (hf : ∀ a, NeverAbsent (f a)) : NeverAbsent (x >>= f) := by
  intro h
  rcases Results.bind_eq_error.1 h with hx' | ⟨a, -, hfa⟩
  · exact hx hx'
  · exact hf a hfa

theorem neverAbsent_mapM {f : α → Except ScoringError β} (hf : ∀ a, NeverAbsent (f a))
    (l : List α) : NeverAbsent (l.mapM f) := by
  intro h
  rcases Results.exists_of_mapM_eq_error h with ⟨a, -, he⟩
  exact hf a he

end

omit [Floats F] in
theorem neverAbsent_readUuid (s : String) : NeverAbsent (readUuid s) := by
  unfold readUuid
  split
  · exact neverAbsent_throw (by simp)
  · exact neverAbsent_pure _

omit [Floats F] in
theorem neverAbsent_entityEvidence (ig : Igraph F) (g : Graph F) (claimId : String) (i : ℕ) :
    NeverAbsent (entityEvidence ig g claimId i) := by
  unfold entityEvidence
  split
  · exact neverAbsent_throw (by simp)
  · split
    · apply neverAbsent_bind (neverAbsent_mapM neverAbsent_readUuid _)
      intro ids
      exact neverAbsent_pure _
    · exact neverAbsent_throw (by simp)

theorem neverAbsent_sharedEntityEvidence (ig : Igraph F) (g : Graph F) (i : ℕ) (claimId : String) :
    NeverAbsent (sharedEntityEvidence ig g i claimId) := by
  unfold sharedEntityEvidence
  split
  · exact neverAbsent_throw (by simp)
  · exact neverAbsent_mapM (fun eid => neverAbsent_entityEvidence ig g claimId _) _

theorem neverAbsent_claimScore (claimId modelVersion : String) (fraudScore : F)
    (hint : DecisionHint) (ringId : Option String) (rung : String) (explanation : Explanation F) :
    NeverAbsent (claimScore claimId modelVersion fraudScore hint ringId rung explanation) := by
  unfold claimScore
  apply neverAbsent_bind (neverAbsent_readUuid claimId)
  intro id
  split
  · exact neverAbsent_pure _
  · exact neverAbsent_throw (by simp)

theorem neverAbsent_buildModelScore (ig : Igraph F) (g : Graph F) (ctx : FeatureContext F)
    (classifier : RingClassifier F) (claimId : String) :
    NeverAbsent (buildModelScore ig g ctx classifier claimId) := by
  unfold buildModelScore
  split
  · exact neverAbsent_pure _
  · split
    · exact neverAbsent_pure _
    · apply neverAbsent_bind (neverAbsent_sharedEntityEvidence ig g _ claimId)
      intro shared
      apply neverAbsent_bind (neverAbsent_claimScore _ _ _ _ _ _ _)
      intro score
      exact neverAbsent_pure _

theorem neverAbsent_buildScore (ig : Igraph F) (g : Graph F) (nameToIndex : List (String × ℕ))
    (verdicts : List (String × ClaimVerdict F)) (claimId modelVersion : String) :
    NeverAbsent (buildScore ig g nameToIndex verdicts claimId modelVersion) := by
  unfold buildScore
  split
  · apply neverAbsent_bind (neverAbsent_sharedEntityEvidence ig g _ claimId)
    intro shared
    apply neverAbsent_bind (neverAbsent_claimScore _ _ _ _ _ _ _)
    intro score
    exact neverAbsent_pure _
  · exact neverAbsent_pure _

/-! ## A cache that comes from one graph -/

section

variable {sc : Scoring F} {cache : Cache F} {g : Graph F}

/-- The score of one claim, from such a cache. -/
theorem scoreOne_sound (hgraph : cache.graph = some g)
    (hindex : cache.nameToIndex = some g.claimIndex) (hanalytics : cache.HasAnalytics sc g)
    (claimId : UUID) : NeverAbsent (scoreOne sc cache claimId) ∧
      ∀ score, scoreOne sc cache claimId = .ok (some score) → TakenFrom sc.ig g score := by
  unfold scoreOne
  unfold Cache.HasAnalytics at hanalytics
  cases hclassifier : sc.classifier with
  | some classifier =>
      rw [hclassifier] at hanalytics
      simp only [hanalytics.1, hgraph]
      exact ⟨neverAbsent_buildModelScore _ _ _ _ _,
        fun score h => (takenFrom_of_buildModelScore h).2⟩
  | none =>
      rw [hclassifier] at hanalytics
      simp only [hanalytics.1, hindex, hgraph]
      exact ⟨neverAbsent_buildScore _ _ _ _ _ _, fun score h => (takenFrom_of_buildScore h).2⟩

/-- The scores of a batch, from such a cache. -/
theorem soundScores_scoreAll (hgraph : cache.graph = some g)
    (hindex : cache.nameToIndex = some g.claimIndex) (hanalytics : cache.HasAnalytics sc g)
    (claimIds : List UUID) : SoundScores sc cache (scoreAll sc cache claimIds) := by
  induction claimIds with
  | nil =>
      constructor
      · exact neverAbsent_pure _
      · intro scores h score hscore
        rw [← Results.pure_eq_ok.1 h] at hscore
        exact absurd hscore List.not_mem_nil
  | cons claimId claimIds ih =>
      obtain ⟨hnever, htaken⟩ := scoreOne_sound hgraph hindex hanalytics claimId
      constructor
      · apply neverAbsent_bind hnever
        intro one
        apply neverAbsent_bind ih.1
        intro results
        exact neverAbsent_pure _
      · intro scores h score hscore
        simp only [scoreAll, Results.bind_eq_ok, Results.pure_eq_ok] at h
        rcases h with ⟨one, hone, results, hresults, rfl⟩
        rcases List.mem_append.1 hscore with hmem | hmem
        · rw [Option.mem_toList.1 hmem] at hone
          exact ⟨g, hgraph, htaken score hone⟩
        · exact ih.2 results hresults score hmem

/-- A refresh that completes fills the cache from its graph. -/
theorem refresh_completes {attempt : Attempt F} (hbuilt : attempt.built = some g)
    (hcompletes : attempt.completes = true) :
    (refresh sc cache attempt).1.graph = some g ∧
      (refresh sc cache attempt).1.nameToIndex = some g.claimIndex ∧
      (refresh sc cache attempt).1.HasAnalytics sc g := by
  unfold refresh Cache.HasAnalytics
  cases hclassifier : sc.classifier with
  | some classifier => simp [hbuilt, hcompletes]
  | none => simp [hbuilt, hcompletes]

/-- A refresh whose analytics fail replaces the graph and its index only. -/
theorem refresh_fails {attempt : Attempt F} (hbuilt : attempt.built = some g)
    (hfails : attempt.completes = false) :
    (refresh sc cache attempt).1 =
      { cache with graph := some g, nameToIndex := some g.claimIndex } := by
  unfold refresh
  rw [hbuilt]
  simp [hfails]

theorem refresh_raises {attempt : Attempt F} (hbuilt : attempt.built = none) :
    (refresh sc cache attempt).1 = cache := by
  unfold refresh
  rw [hbuilt]

/-- A refresh keeps the cache from one graph exactly when it is safe. -/
theorem fromOne_refresh_iff (h : cache.FromOne sc) (attempt : Attempt F) :
    (refresh sc cache attempt).1.FromOne sc ↔ attempt.Safe sc cache := by
  unfold Attempt.Safe
  cases hbuilt : attempt.built with
  | none =>
      rw [refresh_raises hbuilt]
      simp [h]
  | some g =>
      simp only [Option.some.injEq, forall_eq']
      cases hcompletes : attempt.completes with
      | true => exact iff_of_true (Or.inr ⟨g, refresh_completes hbuilt hcompletes⟩) (Or.inl rfl)
      | false =>
          -- the graph is the new one, so the analytics have to be its own
          rw [refresh_fails hbuilt hcompletes]
          simp only [Bool.false_eq_true, false_or]
          constructor
          · rintro (hempty | ⟨g', hgraph, -, hanalytics⟩)
            · exact absurd (congrArg Cache.graph hempty) (by simp [Cache.empty])
            · obtain rfl : g = g' := Option.some.inj hgraph
              exact hanalytics
          · intro hanalytics
            exact Or.inr ⟨g, rfl, rfl, hanalytics⟩

/-- Scoring from a cache that has a graph. -/
theorem scoreClaims_of_graph {attempt : Attempt F} {claimIds : List UUID}
    (hgraph : cache.graph = some g) :
    scoreClaims sc cache attempt claimIds = (cache, scoreAll sc cache claimIds) := by
  unfold scoreClaims
  rw [hgraph]

/-- Scoring from a cache without a graph. -/
theorem scoreClaims_of_none (sc : Scoring F) (attempt : Attempt F) (claimIds : List UUID)
    (hgraph : cache.graph = none) :
    (scoreClaims sc cache attempt claimIds).1 = (refresh sc cache attempt).1 ∧
      ((∃ e, (refresh sc cache attempt).2 = .error e ∧
          (scoreClaims sc cache attempt claimIds).2 = .error e) ∨
        ((∃ n, (refresh sc cache attempt).2 = .ok n) ∧ (scoreClaims sc cache attempt claimIds).2 =
          scoreAll sc (refresh sc cache attempt).1 claimIds)) := by
  unfold scoreClaims
  rw [hgraph]
  simp only
  rcases refresh sc cache attempt with ⟨cache', result⟩
  cases result with
  | error e => exact ⟨rfl, Or.inl ⟨e, rfl, rfl⟩⟩
  | ok n => exact ⟨rfl, Or.inr ⟨⟨n, rfl⟩, rfl⟩⟩

/-- A refresh that returns has built a graph and completed its analytics. -/
theorem completes_of_refresh {attempt : Attempt F} {n : ℕ}
    (h : (refresh sc cache attempt).2 = .ok n) :
    ∃ g, attempt.built = some g ∧ attempt.completes = true := by
  unfold refresh at h
  cases hbuilt : attempt.built with
  | none =>
      rw [hbuilt] at h
      cases h
  | some g =>
      cases hcompletes : attempt.completes with
      | true => exact ⟨g, rfl, rfl⟩
      | false =>
          rw [hbuilt, hcompletes] at h
          cases h

theorem neverAbsent_refresh (attempt : Attempt F) :
    NeverAbsent (refresh sc cache attempt).2 := by
  unfold refresh
  cases attempt.built with
  | none => exact neverAbsent_throw (by simp)
  | some g =>
      cases attempt.completes with
      | false => exact neverAbsent_throw (by simp)
      | true =>
          cases sc.classifier with
          | some classifier => exact neverAbsent_pure _
          | none => exact neverAbsent_pure _

/-- A request is sound exactly when its refresh is safe. -/
theorem soundRequest_iff (h : cache.FromOne sc) (request : ScoringRequest F) :
    SoundRequest sc cache request ↔ SafeRequest sc cache request := by
  cases request with
  | refresh attempt => exact fromOne_refresh_iff h attempt
  | scoreClaims attempt claimIds =>
      simp only [SoundRequest, SafeRequest]
      cases hgraph : cache.graph with
      | some g =>
          rw [scoreClaims_of_graph hgraph]
          refine iff_of_true ⟨h, ?_⟩ (fun hnone => absurd hnone (by simp))
          rcases h with rfl | ⟨g', hgraph', hindex, hanalytics⟩
          · cases hgraph
          · exact soundScores_scoreAll hgraph' hindex hanalytics claimIds
      | none =>
          obtain ⟨hcache, hresult⟩ := scoreClaims_of_none sc attempt claimIds hgraph
          rw [hcache, fromOne_refresh_iff h attempt]
          simp only [true_implies]
          apply and_iff_left
          rcases hresult with ⟨e, hrefresh, hscores⟩ | ⟨⟨n, hrefresh⟩, hscores⟩
          · rw [hscores]
            constructor
            · intro habsent
              obtain rfl : e = .absent := Except.error.inj habsent
              exact neverAbsent_refresh attempt hrefresh
            · intro scores hok
              cases hok
          · -- the refresh completed, so the scores are taken from its graph
            rw [hscores]
            rcases completes_of_refresh hrefresh with ⟨g, hbuilt, hcompletes⟩
            obtain ⟨hgraph', hindex, hanalytics⟩ := refresh_completes hbuilt hcompletes
            exact soundScores_scoreAll hgraph' hindex hanalytics claimIds

/-- A safe request keeps the cache from one graph. -/
theorem fromOne_respond (h : cache.FromOne sc) {request : ScoringRequest F}
    (hsafe : SafeRequest sc cache request) : (respond sc cache request).FromOne sc := by
  have hsound := (soundRequest_iff h request).2 hsafe
  cases request with
  | refresh attempt => exact hsound
  | scoreClaims attempt claimIds => exact hsound.1

end

/-- Along every run from a cache that is empty or comes from one graph: each request
leaves the cache so and its scores sound, exactly when every refresh that builds a graph
completes its analytics or finds them in the cache. -/
theorem sound_iff_safe (sc : Scoring F) (cache : Cache F) (requests : List (ScoringRequest F))
    (h : cache.FromOne sc) :
    (scoring sc).Along (SoundRequest sc) cache requests ↔
      (scoring sc).Along (SafeRequest sc) cache requests := by
  refine Lts.along_congr (I := Cache.FromOne sc) (fun s l hs => soundRequest_iff hs l) ?_ h
  intro s l s' hs hsafe hstep
  rcases Option.some.inj hstep with rfl
  exact fromOne_respond hs hsafe

namespace Sample

/-- A claim with its phone, which no other claim has. -/
def phoneGraph : Graph Exact where
  vertices :=
    [⟨(⟨1⟩ : UUID).toString, .claim, none, none, none, some ⟨12500⟩, some ⟨20454⟩⟩,
      ⟨(⟨2⟩ : UUID).toString, .entity, some .phone, some "+919876500011", some 1, none, none⟩]
  edges := [(0, 1)]
  weights := [⟨144 / 100⟩]

/-- A process without a trained model. -/
def untrained : Scoring Exact := ⟨ig, none⟩

end Sample

/-- A refresh that completes, then a score, then a refresh that builds no graph. -/
theorem sound_iff_safe_completed :
    (scoring Sample.untrained).Along (SoundRequest Sample.untrained) Cache.empty
      [.refresh ⟨some Sample.phoneGraph, true⟩, .scoreClaims ⟨none, false⟩ [⟨1⟩],
        .refresh ⟨none, false⟩] := by
  refine (sound_iff_safe Sample.untrained Cache.empty _ (Or.inl rfl)).2 ⟨?_, ?_⟩
  · intro g _
    exact Or.inl rfl
  · rintro s hs
    rcases Option.some.inj hs with rfl
    refine ⟨fun hnone => ?_, ?_⟩
    · cases hnone
    · intro s' _
      refine ⟨fun g hg => ?_, fun _ _ => trivial⟩
      cases hg

/-- The first refresh builds its graph and then fails, and scoring asks for the verdicts
that are not there. -/
theorem failed_refresh_absent : ¬ ∀ (sc : Scoring Sample.Exact) (cache : Cache Sample.Exact)
    (requests : List (ScoringRequest Sample.Exact)), cache.FromOne sc →
    (scoring sc).Along (SoundRequest sc) cache requests := by
  intro hall
  have hrun := hall Sample.untrained Cache.empty
    [.refresh ⟨some Sample.phoneGraph, false⟩, .scoreClaims ⟨none, false⟩ [⟨1⟩]] (Or.inl rfl)
  have hscore := (hrun.2 _ rfl).1
  exact hscore.2.1 rfl

end ClaimGuard
