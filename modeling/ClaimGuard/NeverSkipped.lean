import ClaimGuard.LastingEvidence

/-!
# No submitted claim is skipped

The consumer has two ways out of a message without a score: an exception, which ends it,
and a claim without a vertex, which it skips with a warning. For a record of the topic
neither is taken when the refresh completes, however old the cache is: the claim of a
record has its links, and every claim of a graph has a valid score.
-/

namespace ClaimGuard

open ClaimService Floats RoundedFloats

/-! ## Scores of a graph -/

section

variable {F : Type} [Floats F] [RoundedFloats F] {ig : Igraph F} {g : Graph F}

/-- A verdict of the detector has a score in the unit interval. -/
theorem mem_unit_of_mem_detect (hig : ig.Answers) (hnames : (g.vertices.map Vertex.name).Nodup)
    {claimId : String} {verdict : ClaimVerdict F} (h : (claimId, verdict) ∈ detect ig g) :
    0 ≤ value verdict.fraudScore ∧ value verdict.fraudScore ≤ 1 := by
  unfold detect at h
  rw [detectWith_eq, List.mem_append, List.mem_append] at h
  rcases h with (hranked | hnear) | hclear
  · exact (soundVerdict_of_candidate hig hnames (mem_rankedVerdicts.1 hranked).2).score
  · rcases mem_nearVerdicts.1 hnear with ⟨score, hscore, -, -, rfl⟩
    obtain ⟨hnonneg, hle⟩ := rung3Ppr_mem_unit hig hscore
    exact ⟨value_round_nonneg 4 hnonneg, value_round_le_one 4 hnonneg hle⟩
  · rcases mem_clearVerdicts.1 hclear with ⟨-, -, rfl⟩
    simp

/-- A score in the unit interval is valid. -/
theorem exists_claimScore (claimId : UUID) (modelVersion : String) {fraudScore : F}
    (hint : DecisionHint) (ringId : Option String) (rung : String) (explanation : Explanation F)
    (h : 0 ≤ value fraudScore ∧ value fraudScore ≤ 1) :
    ∃ score, claimScore claimId.toString modelVersion fraudScore hint ringId rung explanation =
      .ok score := by
  unfold claimScore
  rw [readUuid_toString]
  have hvalid : (le (ofRat 0) fraudScore && le fraudScore (ofRat 1)) = true := by
    rw [Bool.and_eq_true, le_iff, le_iff, value_zero, value_one]
    exact h
  simp only [bind, Except.bind, hvalid, if_true]
  exact ⟨_, rfl⟩

end

section

variable {F : Type} {g : Graph F} (hnames : (g.vertices.map Vertex.name).Nodup)

include hnames

/-- A dictionary of some of the vertices finds them. -/
theorem get_of_vertex {p : Vertex F × ℕ → Bool} {i : ℕ} {v : Vertex F}
    (hv : g.vertices[i]? = some v) (hp : p (v, i) = true) :
    Dict.get ((g.vertices.zipIdx.filter p).map fun v => (v.1.name, v.2)) v.name = some i := by
  refine Dict.get_eq_some_of_mem (List.mem_map.2 ⟨(v, i), List.mem_filter.2 ⟨?_, hp⟩, rfl⟩) ?_
  · exact List.mem_zipIdx_iff_getElem?.2 hv
  · intro j hj
    rcases List.mem_map.1 hj with ⟨⟨u, k⟩, hmem, heq⟩
    rcases Prod.mk.inj heq with ⟨hname, rfl⟩
    have hu := List.mem_zipIdx_iff_getElem?.1 (List.mem_of_mem_filter hmem)
    -- names are distinct, so the places are the same
    have hk : (g.vertices.map Vertex.name)[k]? = some v.name := by
      rw [List.getElem?_map, hu, Option.map_some, hname]
    have hi : (g.vertices.map Vertex.name)[i]? = some v.name := by
      rw [List.getElem?_map, hv, Option.map_some]
    exact (List.getElem?_inj (List.getElem?_eq_some_iff.1 hk).1 hnames).1 (hk.trans hi.symm)

end

/-! ## What the scoring service answers -/

/-- What the scoring service runs with does what it says: the graph library answers, and a
trained model gives probabilities. -/
structure Scoring.Works (sc : Scoring Double) : Prop where
  edges : sc.ig.FindsEdges
  answers : sc.ig.Answers
  probability : ∀ classifier, sc.classifier = some classifier →
    ∀ row, 0 ≤ value (classifier.predictProba row) ∧ value (classifier.predictProba row) ≤ 1

section

variable {svc : Services} {db : Db} (hr : db.Resolved svc.env) {rows : List LinkRow}
  (hrows : rows.Perm (fetchLinks db none))

include hr hrows

theorem nodup_names_graph : ((svc.graph db rows).vertices.map Vertex.name).Nodup :=
  (simpleBipartite_buildGraph (rows_of_perm hr hrows)).names

/-- A claim of the graph has a score. -/
theorem exists_scoreOne (hsc : svc.sc.Works) {r : LinkRow} (hmem : r ∈ rows) :
    ∃ score, scoreOne svc.sc (Cache.of svc.sc (svc.graph db rows)) r.claimId = .ok (some score) := by
  have hsound := rows_of_perm hr hrows
  have hnames := nodup_names_graph hr hrows
  have hv : (svc.graph db rows).vertices[place rows r.claimId]? = some (claimVertex
      (fetchClaimAttributes svc.float db none) r.claimId.toString) := vertex_place_claim hsound hmem
  rcases exists_evidence hsound (fetchClaimAttributes svc.float db none) hsc.edges svc.log hmem with
    ⟨-, items, -, hitems⟩
  have hshared : sharedEntityEvidence svc.sc.ig (svc.graph db rows) (place rows r.claimId)
    r.claimId.toString = .ok items := hitems
  unfold scoreOne Cache.of refresh
  cases hclassifier : svc.sc.classifier with
  | some classifier =>
      have hindex : Dict.get (buildFeatureContext svc.sc.ig (svc.graph db rows)).nameToIndex
          r.claimId.toString = some (place rows r.claimId) := by
        have hget := get_of_vertex hnames (p := fun _ => true) hv rfl
        rwa [List.filter_true] at hget
      have hfeatures : ∃ features, extractFeatures svc.sc.ig
          (buildFeatureContext svc.sc.ig (svc.graph db rows)) r.claimId.toString = some features := by
        unfold extractFeatures
        rw [hindex]
        simp only [buildFeatureContext, hv]
        exact ⟨_, rfl⟩
      rcases hfeatures with ⟨features, hfeatures⟩
      simp only [Bool.not_true, Bool.false_eq_true, if_false, buildModelScore, scoreClaim, hindex,
        hfeatures, hshared, bind, Except.bind]
      generalize hp : classifier.predictProba _ = probability
      have hunit : 0 ≤ value probability ∧ value probability ≤ 1 := by
        rw [← hp]
        exact hsc.probability classifier hclassifier _
      rcases exists_claimScore r.claimId classifier.modelVersion _ _ _ _
        ⟨value_round_nonneg 4 hunit.1, value_round_le_one 4 hunit.1 hunit.2⟩ with ⟨score, hscore⟩
      rw [hscore]
      exact ⟨score, rfl⟩
  | none =>
      have hindex : Dict.get (svc.graph db rows).claimIndex r.claimId.toString =
          some (place rows r.claimId) := get_of_vertex hnames hv rfl
      have hclaim : r.claimId.toString ∈ (svc.graph db rows).claimVertexNames :=
        Graph.mem_claimVertexNames.2 ⟨_, List.mem_of_getElem? hv, rfl, rfl⟩
      -- every claim has a verdict
      have hkeys : r.claimId.toString ∈ (detect svc.sc.ig (svc.graph db rows)).map Prod.fst :=
        (keys_detectWith hnames).mem_iff.2 hclaim
      cases hverdict : Dict.get (detect svc.sc.ig (svc.graph db rows)) r.claimId.toString with
      | none => exact absurd hkeys (Dict.get_eq_none_iff.1 hverdict)
      | some verdict =>
          simp only [Bool.not_true, Bool.false_eq_true, if_false, buildScore, hverdict, hindex,
            hshared, bind, Except.bind]
          rcases exists_claimScore r.claimId ruleBasedModelVersion _ _ _ _
            (mem_unit_of_mem_detect hsc.answers hnames (Dict.mem_of_get_eq_some hverdict)) with
            ⟨score, hscore⟩
          rw [hscore]
          exact ⟨score, rfl⟩

/-- A claim that is not in the graph has none. -/
theorem scoreOne_eq_none {claimId : UUID} (hapart : ∀ r ∈ db.refs, claimId ≠ r.1)
    (hnone : ∀ r ∈ rows, r.claimId ≠ claimId) :
    scoreOne svc.sc (Cache.of svc.sc (svc.graph db rows)) claimId = .ok none := by
  -- no vertex has its name
  have hvertex : ∀ (i : ℕ) (v : Vertex Double), (svc.graph db rows).vertices[i]? = some v →
      v.name ≠ claimId.toString := by
    intro i v hv hname
    rcases mem_vertices.1 (List.mem_of_getElem? hv) with ⟨r, hmem, rfl⟩ | ⟨r, hmem, rfl⟩
    · exact hnone r hmem (UUID.toString_injective hname)
    · rcases (mem_links hr hrows).1 hmem with ⟨-, -, -, -, href, -⟩
      exact hapart _ href (UUID.toString_injective hname).symm
  unfold scoreOne Cache.of refresh
  cases hclassifier : svc.sc.classifier with
  | some classifier =>
      cases hindex : Dict.get (svc.graph db rows).nameToIndex claimId.toString with
      | some i =>
          rcases vertex_of_nameToIndex hindex with ⟨v, hv, hname⟩
          exact absurd hname (hvertex i v hv)
      | none => simp [buildModelScore, buildFeatureContext, hindex]
  | none =>
      cases hindex : Dict.get (svc.graph db rows).claimIndex claimId.toString with
      | some i =>
          rcases vertex_of_claimIndex hindex with ⟨v, hv, hname⟩
          exact absurd hname (hvertex i v hv)
      | none => simp [buildScore, hindex]

/-- A linked claim has a row in the graph. -/
theorem exists_row_of_isLinked {claimId : UUID} (hlinked : db.IsLinked claimId) :
    ∃ r ∈ rows, r.claimId = claimId := by
  rcases hlinked with ⟨l, hl, rfl⟩
  rcases hr.sound l hl with ⟨c, hc, ref, href, hid, hvalue⟩
  have hlinked : db.IsLinked c.id := ⟨l, hl, by rw [hid]⟩
  refine ⟨⟨c.id, ref.1, ref.2.1, ref.2.2⟩, ?_, by rw [hid]⟩
  exact (mem_links hr hrows).2 ⟨c, hc, isInGraph_iff.2 ⟨hlinked, rfl⟩, rfl, href, hvalue⟩

end

/-! ## Messages -/

/-- A completed refresh leaves the cache of its graph. -/
theorem exists_refresh (sc : Scoring Double) (cache : Cache Double) (g : Graph Double) :
    ∃ n, refresh sc cache ⟨some g, true⟩ = (Cache.of sc g, .ok n) := by
  have hn : ∃ n, (refresh sc cache ⟨some g, true⟩).2 = .ok n := by
    unfold refresh
    cases sc.classifier <;> exact ⟨_, rfl⟩
  rcases hn with ⟨n, hn⟩
  exact ⟨n, Prod.ext (refresh_eq_of rfl hn) hn⟩

/-- The fallback on the cache of an older graph, of a claim that is linked now: it ends with
the score of the claim in that graph or in the new one. -/
theorem exists_score_with_fallback {svc : Services} (hsc : svc.sc.Works) {db db' : Db}
    (hr : db.Resolved svc.env) (hr' : db'.Resolved svc.env) (hwithin : db.Within db')
    {rows rows' : List LinkRow} (hrows : rows.Perm (fetchLinks db none))
    (hrows' : rows'.Perm (fetchLinks db' none)) {claimId : UUID} (hlinked : db'.IsLinked claimId)
    (filling second : Attempt Double) :
    ∃ g ∈ [svc.graph db rows, svc.graph db' rows'], ∃ score : ClaimScore Double,
      scoreOne svc.sc (Cache.of svc.sc g) claimId = .ok (some score) ∧
      scoreWithRefreshFallback svc.sc (Cache.of svc.sc (svc.graph db rows)) filling
        ⟨some (svc.graph db' rows'), true⟩ second claimId =
          (Cache.of svc.sc g, .ok (some score)) := by
  unfold scoreWithRefreshFallback
  rw [scoreClaims_of_graph (Cache.graph_of _ _), scoreAll_singleton]
  by_cases hold : ∃ r ∈ rows, r.claimId = claimId
  · rcases hold with ⟨r, hmem, rfl⟩
    rcases exists_scoreOne hr hrows hsc hmem with ⟨score, hscore⟩
    rw [hscore]
    exact ⟨_, by simp, score, hscore, rfl⟩
  · -- the claim is newer than the graph: the refreshed one has it
    have hnone : ∀ r ∈ rows, r.claimId ≠ claimId := fun r hmem heq => hold ⟨r, hmem, heq⟩
    rw [scoreOne_eq_none hr hrows (hwithin.apart hr' hlinked) hnone]
    rcases exists_row_of_isLinked hr' hrows' hlinked with ⟨r, hmem, rfl⟩
    rcases exists_scoreOne hr' hrows' hsc hmem with ⟨score, hscore⟩
    rcases exists_refresh svc.sc (Cache.of svc.sc (svc.graph db rows)) (svc.graph db' rows') with
      ⟨n, hrefresh⟩
    refine ⟨svc.graph db' rows', by simp, score, hscore, ?_⟩
    simp only [Except.map, Option.toList_none, hrefresh]
    rw [scoreClaims_of_graph (Cache.graph_of _ _), scoreAll_singleton, hscore]
    rfl

/-- A consumer that holds the graph of an older database publishes a score for a record of a
claim that is linked now. -/
theorem exists_consumed {svc : Services} (hsc : svc.sc.Works)
    (hjsonb : ∀ text stored, svc.env.jsonb text = some stored → JsonbReturns text stored)
    {s : System} {db : Db} (hr : db.Resolved svc.env) (hr' : s.db.Resolved svc.env)
    (hwithin : db.Within s.db) {old rows : List LinkRow} (hold : old.Perm (fetchLinks db none))
    (hrows : rows.Perm (fetchLinks s.db none)) {consumer n : ℕ}
    (hcache : s.consumers consumer = some (Cache.of svc.sc (svc.graph db old)))
    {record : OutboxRecord} (hrecord : s.deployment.topic[n]? = some record)
    (htopic : record.topic = claimSubmittedTopic) {claimId : UUID}
    (hpayload : svc.env.jsonb (OutboxService.claimSubmittedPayload claimId) = some record.payload)
    (hlinked : s.db.IsLinked claimId) (scoredAt : String) :
    ∃ g ∈ [svc.graph db old, svc.graph s.db rows], ∃ score : ClaimScore Double,
      scoreOne svc.sc (Cache.of svc.sc g) claimId = .ok (some score) ∧
      (pipeline svc).step s (.consume consumer n rows true scoredAt true) =
        some { s.setConsumer consumer (some (Cache.of svc.sc g)) with
          scored := s.scored ++ [serialize (score.modelDump Double.repr scoredAt)] } := by
  rcases exists_score_with_fallback hsc hr hr' hwithin hold hrows hlinked
    ⟨some (svc.graph s.db rows), true⟩ ⟨some (svc.graph s.db rows), true⟩ with
    ⟨g, hg, score, hone, hscore⟩
  refine ⟨g, hg, score, hone, ?_⟩
  have hguard : (decide (record.topic = claimSubmittedTopic) &&
      rows.isPerm (fetchLinks s.db none)) = true := by
    rw [Bool.and_eq_true, decide_eq_true_eq, List.isPerm_iff]
    exact ⟨htopic, hrows⟩
  simp only [pipeline, System.step, hcache, hrecord, hguard, if_true, System.onMessage,
    claimIdOf_of_jsonbReturns (hjsonb _ _ hpayload), hscore]

/-- The same of a reachable state, whichever graph the consumer holds. -/
theorem System.exists_consumed_of_reachable {svc : Services}
    (hjsonb : ∀ text stored, svc.env.jsonb text = some stored → JsonbReturns text stored)
    (hsc : svc.sc.Works) {s : System} (hs : (pipeline svc).Reachable s) {consumer n : ℕ}
    {cache : Cache Double} (hcache : s.consumers consumer = some cache) {record : OutboxRecord}
    (hrecord : s.deployment.topic[n]? = some record) {rows : List LinkRow}
    (hrows : rows.Perm (fetchLinks s.db none)) (scoredAt : String) :
    ∃ (next : Cache Double) (score : ClaimScore Double),
      record.key = score.claimId.toString ∧ s.db.IsSubmitted score.claimId ∧
      (pipeline svc).step s (.consume consumer n rows true scoredAt true) =
        some { s.setConsumer consumer (some next) with
          scored := s.scored ++ [serialize (score.modelDump Double.repr scoredAt)] } := by
  rcases hs with ⟨s₀, events, hinit, hrun⟩
  have hinv := System.inv_of_run (System.inv_of_init hinit) hrun
  rcases (System.history_of_run hjsonb hinit hrun).consumers consumer cache hcache with
    ⟨t, old, ⟨before, ⟨after, rfl⟩, ht⟩, hperm, rfl⟩
  have hinv' := System.inv_of_run (System.inv_of_init hinit) ht
  rw [Lts.run_append, ht, Option.bind_some] at hrun
  have hwithin := System.within_of_run hinv' hrun
  rcases hinv.carries.topic record (List.mem_of_getElem? hrecord) with
    ⟨claimId, hsubmitted, htopic, hkey, hpayload⟩
  rcases exists_consumed hsc hjsonb hinv'.resolved hinv.resolved hwithin hperm hrows hcache hrecord
    htopic hpayload hsubmitted.linked scoredAt with ⟨g, -, score, hone, hstep⟩
  rcases scoreOne_claimId hone with rfl
  exact ⟨_, score, hkey, hsubmitted, hstep⟩

/-- In every state of every run, a consumer that takes a record of `claim.submitted`, and can
refresh where it has to, goes on and publishes a score of the record's claim: it neither
stops nor skips the claim, whichever graph it holds. -/
theorem records_are_scored (svc : Services)
    (hjsonb : ∀ text stored, svc.env.jsonb text = some stored → JsonbReturns text stored)
    (hsc : svc.sc.Works) (s₀ s : System) (events : List SystemEvent)
    (hinit : (pipeline svc).init s₀) (hrun : (pipeline svc).run s₀ events = some s)
    (consumer n : ℕ) (cache : Cache Double) (hcache : s.consumers consumer = some cache)
    (record : OutboxRecord) (hrecord : s.deployment.topic[n]? = some record)
    (rows : List LinkRow) (hrows : rows.Perm (fetchLinks s.db none)) (scoredAt : String) :
    ∃ (next : Cache Double) (score : ClaimScore Double),
      record.key = score.claimId.toString ∧ s.db.IsSubmitted score.claimId ∧
      (pipeline svc).step s (.consume consumer n rows true scoredAt true) =
        some { s.setConsumer consumer (some next) with
          scored := s.scored ++ [serialize (score.modelDump Double.repr scoredAt)] } :=
  System.exists_consumed_of_reachable hjsonb hsc ⟨s₀, events, hinit, hrun⟩ hcache hrecord hrows
    scoredAt

namespace Sample

/-- A consumer that started on empty tables, and a claim that was published since. -/
def announcing : List SystemEvent :=
  [.startConsumer 0 [] true, .publishing (.createClaim request draws true),
    .publishing (.readPending 0), .publishing (.send 0 .acknowledged)]

theorem works_ruleBased : ruleBased.Works :=
  ⟨findsEdges_ig, answers_ig, fun classifier h => by cases h⟩

theorem exists_announced : ∃ s cache record,
    (pipeline services).run stopped announcing = some s ∧ s.consumers 0 = some cache ∧
      s.deployment.topic[0]? = some record := by
  have h : (((pipeline services).run stopped announcing).any fun s =>
      (s.consumers 0).isSome && (s.deployment.topic[0]?).isSome) = true := by
    decide +kernel
  rcases (Option.any_eq_true _ _).1 h with ⟨s, hrun, hboth⟩
  rw [Bool.and_eq_true, Option.isSome_iff_exists, Option.isSome_iff_exists] at hboth
  rcases hboth with ⟨⟨cache, hcache⟩, record, hrecord⟩
  exact ⟨s, cache, record, hrun, hcache, hrecord⟩

end Sample

/-- The record of the sample, which is newer than the cache of its consumer. -/
theorem records_are_scored_announcing : ∃ s cache record,
    (pipeline Sample.services).run Sample.stopped Sample.announcing = some s ∧
      s.consumers 0 = some cache ∧ s.deployment.topic[0]? = some record ∧
      ∃ (next : Cache Double) (score : ClaimScore Double),
        record.key = score.claimId.toString ∧ s.db.IsSubmitted score.claimId ∧
        (pipeline Sample.services).step s
            (.consume 0 0 (fetchLinks s.db none) true "2026-01-02T03:04:06Z" true) =
          some { s.setConsumer 0 (some next) with
            scored := s.scored ++
              [serialize (score.modelDump Double.repr "2026-01-02T03:04:06Z")] } := by
  rcases Sample.exists_announced with ⟨s, cache, record, hrun, hcache, hrecord⟩
  exact ⟨s, cache, record, hrun, hcache, hrecord, records_are_scored Sample.services
    Sample.jsonb_storing Sample.works_ruleBased Sample.stopped s Sample.announcing
    Sample.stopped_init hrun 0 0 cache hcache record hrecord _ (List.Perm.refl _) _⟩

end ClaimGuard
