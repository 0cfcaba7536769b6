import ClaimGuard.RungDominance

/-!
# The seeds of the third rung

The feature rows and the detector propagate from the same claims: one takes the claims of the
rings and of the communities above the threshold, the other the claims whose merged verdict
is above it.
-/

namespace ClaimGuard

open Floats RoundedFloats

variable {F : Type} [Floats F]

/-- The seeds that `build_feature_context` passes on. -/
def featureSeeds (ig : Igraph F) (g : Graph F) : List String :=
  ((rung1Components ig g defaultDegreeThresholds defaultMinRingSize).map Prod.fst ++
    ((rung2Leiden ig g defaultLeidenResolution defaultMinRingSize).filter fun e =>
      le (ofRat (75 / 100)) e.2.fraudScore).map Prod.fst).dedup

/-- The seeds that `detect` passes on by default. -/
def detectSeeds (ig : Igraph F) (g : Graph F) : List String :=
  seedClaimIds
    (rankedVerdicts ig g defaultDegreeThresholds defaultLeidenResolution defaultMinRingSize)

/-- What the feature rows have of the third rung. -/
theorem pprScores_buildFeatureContext (ig : Igraph F) (g : Graph F) :
    (buildFeatureContext ig g).pprScores = rung3Ppr ig g (featureSeeds ig g) := rfl

/-! ## The claims of the first two rungs -/

section

variable {ig : Igraph F} {g : Graph F} {degreeThresholds : List (EntityType × ℕ)} {resolution : F}
  {minRingSize : ℕ} {name : String}

omit [Floats F] in
/-- The first rung has items for claims of the graph only. -/
theorem mem_claimVertexNames_of_rung1
    (h : name ∈ (rung1Components ig g degreeThresholds minRingSize).map Prod.fst) :
    name ∈ g.claimVertexNames := by
  rcases List.mem_map.1 h with ⟨item, hitem, rfl⟩
  rw [rung1Components_eq] at hitem
  rcases mem_partItems.1 hitem with ⟨k, part, -, -, hmember, -⟩
  rcases Graph.mem_claimMembers.1 hmember with ⟨i, -, v, hv, hclaim, hname⟩
  have hvertex := Graph.sublist_deleteVertices.subset (List.mem_of_getElem? hv)
  exact Graph.mem_claimVertexNames.2 ⟨v, hvertex, hclaim, hname⟩

theorem mem_claimVertexNames_of_rung2
    (h : name ∈ (rung2Leiden ig g resolution minRingSize).map Prod.fst) :
    name ∈ g.claimVertexNames := by
  rcases List.mem_map.1 h with ⟨item, hitem, rfl⟩
  rw [rung2Leiden_eq] at hitem
  rcases mem_partItems.1 hitem with ⟨k, part, -, -, hmember, -⟩
  rcases Graph.mem_claimMembers.1 hmember with ⟨i, -, v, hv, hclaim, hname⟩
  exact Graph.mem_claimVertexNames.2 ⟨v, List.mem_of_getElem? hv, hclaim, hname⟩

/-- A claim is in one community at most. -/
theorem nodup_keys_rung2Leiden
    (hpartition : (ig.findPartition g resolution 42).flatten.Perm (List.range g.vertices.length))
    (hnames : g.claimVertexNames.Nodup) :
    ((rung2Leiden ig g resolution minRingSize).map Prod.fst).Nodup := by
  rw [rung2Leiden_eq]
  exact sublist_keys_partItems.nodup
    ((Graph.perm_flatMap_claimMembers hpartition).nodup_iff.2 hnames)

end

/-! ## Seeds -/

section

variable [RoundedFloats F] {ig : Igraph F} {g : Graph F}

/-- A merged verdict is above the threshold exactly when the first rung covers the claim or its
community is above it. -/
theorem flagAt_le_candidate_iff {rung1 : List (String × String)}
    {rung2 : List (String × ClaimVerdict F)} {claimId : String} {verdict : ClaimVerdict F}
    (h : candidate rung1 rung2 claimId = some verdict) :
    le flagAt verdict.fraudScore = true ↔ claimId ∈ rung1.map Prod.fst ∨
      ∃ other, Dict.get rung2 claimId = some other ∧ le flagAt other.fraudScore = true := by
  obtain ⟨hcase, hfirst, hsecond⟩ := candidate_eq_some h
  constructor
  · intro hflag
    rcases hcase with ⟨ringId, hring, -⟩ | hget
    · exact Or.inl (List.mem_map.2 ⟨_, Dict.mem_of_get_eq_some hring, rfl⟩)
    · exact Or.inr ⟨verdict, hget, hflag⟩
  · intro hcovered
    rw [le_iff]
    rcases hcovered with hring | ⟨other, hget, hflag⟩
    · -- a ring scores above the threshold
      have hnine : value (flagAt : F) ≤ value (ofRat (9 / 10) : F) := by
        unfold flagAt
        rw [value_ofRat, value_ofRat]
        exact nearest_mono (by norm_num)
      exact hnine.trans (hfirst hring)
    · exact ((le_iff _ _).1 hflag).trans (hsecond other hget)

omit [RoundedFloats F] in
theorem mem_featureSeeds {name : String} : name ∈ featureSeeds ig g ↔
    name ∈ (rung1Components ig g defaultDegreeThresholds defaultMinRingSize).map Prod.fst ∨
      ∃ verdict, (name, verdict) ∈ rung2Leiden ig g defaultLeidenResolution defaultMinRingSize ∧
        le flagAt verdict.fraudScore = true := by
  unfold featureSeeds
  rw [List.mem_dedup, List.mem_append]
  exact or_congr_right
    (Dict.mem_filter_values (q := fun v : ClaimVerdict F => le flagAt v.fraudScore))

omit [RoundedFloats F] in
theorem mem_detectSeeds {name : String} : name ∈ detectSeeds ig g ↔
    ∃ verdict, (name, verdict) ∈ rankedVerdicts ig g defaultDegreeThresholds
        defaultLeidenResolution defaultMinRingSize ∧ le flagAt verdict.fraudScore = true := by
  unfold detectSeeds seedClaimIds
  exact Dict.mem_filter_values (q := fun v : ClaimVerdict F => le flagAt v.fraudScore)

/-- The two have the same seeds. -/
theorem mem_featureSeeds_iff
    (hpartition : (ig.findPartition g defaultLeidenResolution 42).flatten.Perm
      (List.range g.vertices.length))
    (hnames : g.claimVertexNames.Nodup) (name : String) :
    name ∈ featureSeeds ig g ↔ name ∈ detectSeeds ig g := by
  have hkeys : ((rung2Leiden ig g defaultLeidenResolution defaultMinRingSize).map
      Prod.fst).Nodup := nodup_keys_rung2Leiden hpartition hnames
  rw [mem_featureSeeds, mem_detectSeeds]
  constructor
  · intro h
    have hcovered : name ∈ g.claimVertexNames ∧
        candidate (rung1Components ig g defaultDegreeThresholds defaultMinRingSize)
          (rung2Leiden ig g defaultLeidenResolution defaultMinRingSize) name ≠ none := by
      rcases h with hring | ⟨verdict, hmem, -⟩
      · refine ⟨mem_claimVertexNames_of_rung1 hring, ?_⟩
        intro hnone
        exact (candidate_eq_none_iff.1 hnone).1 hring
      · have hkey := List.mem_map_of_mem (f := Prod.fst) hmem
        refine ⟨mem_claimVertexNames_of_rung2 hkey, ?_⟩
        intro hnone
        exact (candidate_eq_none_iff.1 hnone).2 hkey
    rcases Option.ne_none_iff_exists'.1 hcovered.2 with ⟨verdict, hverdict⟩
    refine ⟨verdict, mem_rankedVerdicts.2 ⟨hcovered.1, hverdict⟩, ?_⟩
    rw [flagAt_le_candidate_iff hverdict]
    exact h.imp_right fun ⟨other, hmem, hflag⟩ =>
      ⟨other, (Dict.get_eq_some_iff hkeys).2 hmem, hflag⟩
  · intro h
    rcases h with ⟨verdict, hmem, hflag⟩
    rw [flagAt_le_candidate_iff (mem_rankedVerdicts.1 hmem).2] at hflag
    exact hflag.imp_right fun ⟨other, hget, hother⟩ =>
      ⟨other, Dict.mem_of_get_eq_some hget, hother⟩

end

/-! ## What is propagated -/

section

variable {ig : Igraph F} {g : Graph F}

/-- The third rung depends on its seeds as a set. -/
theorem rung3Ppr_congr {seeds seeds' : List String} (h : ∀ name, name ∈ seeds ↔ name ∈ seeds') :
    rung3Ppr ig g seeds = rung3Ppr ig g seeds' := by
  have hset : seeds.toFinset = seeds'.toFinset := by
    ext name
    rw [List.mem_toFinset, List.mem_toFinset, h]
  have hempty : seeds.isEmpty = seeds'.isEmpty := by
    rw [Bool.eq_iff_iff, List.isEmpty_iff, List.isEmpty_iff, List.eq_nil_iff_forall_not_mem,
      List.eq_nil_iff_forall_not_mem]
    exact forall_congr' fun name => not_congr (h name)
  unfold rung3Ppr
  simp only [hset, hempty, h]

/-- A seed has no item. -/
theorem get_rung3Ppr_seed {seeds : List String} {name : String}
    (h : name ∈ seeds ∨ seeds = []) : Dict.get (rung3Ppr ig g seeds) name = none := by
  apply Dict.get_eq_none_iff.2
  intro hkey
  rcases List.mem_map.1 hkey with ⟨item, hitem, rfl⟩
  rcases h with hseed | rfl
  · exact (exists_of_mem_rung3Ppr hitem).2.1 hseed
  · cases hitem

/-- Any other claim has one, as long as there are seeds. -/
theorem exists_get_rung3Ppr {seeds : List String} {i : ℕ} {v : Vertex F}
    (hpagerank : (ig.personalizedPagerank g seeds.toFinset (ofRat (85 / 100))).length =
      g.vertices.length)
    (hv : g.vertices[i]? = some v) (hclaim : v.kind = .claim) (hseed : v.name ∉ seeds)
    (hne : seeds ≠ []) : ∃ score, Dict.get (rung3Ppr ig g seeds) v.name = some score := by
  have hlt := Graph.lt_of_getElem? hv
  have hx := List.getElem?_eq_getElem (hpagerank ▸ hlt)
  have hzip : (v, (ig.personalizedPagerank g seeds.toFinset (ofRat (85 / 100)))[i]) ∈
      g.vertices.zip (ig.personalizedPagerank g seeds.toFinset (ofRat (85 / 100))) := by
    apply List.mem_of_getElem? (i := i)
    rw [List.getElem?_zip_eq_some]
    exact ⟨hv, hx⟩
  rw [← Option.ne_none_iff_exists']
  intro hnone
  apply Dict.get_eq_none_iff.1 hnone
  unfold rung3Ppr
  rw [if_neg (by simpa using hne)]
  exact List.mem_map.2 ⟨(v.name, _),
    List.mem_filterMap.2 ⟨_, hzip, if_pos ⟨hclaim, hseed⟩⟩, rfl⟩

end

omit [Floats F] in
/-- The claims of a graph that is built have different names. -/
theorem nodup_claimVertexNames_buildGraph (idfWeight : ℕ → F) (links : List LinkRow)
    (claimAttrs : List (String × F × LocalDate)) :
    (buildGraph idfWeight links claimAttrs).claimVertexNames.Nodup := by
  have hnames : (buildGraph idfWeight links claimAttrs).claimVertexNames = claimNames links := by
    unfold Graph.claimVertexNames
    rw [filter_claim_vertices, List.map_map]
    exact List.map_id _
  rw [hnames]
  exact nodup_sortedNames _

/-- The feature of the row. -/
theorem get_pprScore (ig : Igraph F) (ctx : FeatureContext F) (claimId : String)
    (claimIndex : ℕ) : Dict.get (graphFeatures ig ctx claimId claimIndex) "ppr_score" =
      some ((Dict.get ctx.pprScores claimId).getD (ofRat 0)) := rfl

/-- The feature rows and the detector propagate from the same seeds. So the feature of a claim
that is no seed is the score the detector sees for it, and a seed has neither. -/
theorem same_seeds [RoundedFloats F] {ig : Igraph F} {g : Graph F}
    (hpartition : (ig.findPartition g defaultLeidenResolution 42).flatten.Perm
      (List.range g.vertices.length))
    (hpagerank : ∀ seeds, (ig.personalizedPagerank g seeds (ofRat (85 / 100))).length =
      g.vertices.length)
    (hnames : g.claimVertexNames.Nodup) :
    (featureSeeds ig g).toFinset = (detectSeeds ig g).toFinset ∧
    (buildFeatureContext ig g).pprScores = rung3Ppr ig g (detectSeeds ig g) ∧
    ∀ i v, g.vertices[i]? = some v → v.kind = .claim →
      (v.name ∉ detectSeeds ig g → detectSeeds ig g ≠ [] →
        ∃ score, Dict.get (rung3Ppr ig g (detectSeeds ig g)) v.name = some score ∧
          Dict.get (graphFeatures ig (buildFeatureContext ig g) v.name i) "ppr_score" =
            some score) ∧
      (v.name ∈ detectSeeds ig g ∨ detectSeeds ig g = [] →
        Dict.get (rung3Ppr ig g (detectSeeds ig g)) v.name = none ∧
          Dict.get (buildFeatureContext ig g).pprScores v.name = none ∧
          Dict.get (graphFeatures ig (buildFeatureContext ig g) v.name i) "ppr_score" =
            some (ofRat 0)) := by
  have hsame := mem_featureSeeds_iff hpartition hnames
  have hscores : (buildFeatureContext ig g).pprScores = rung3Ppr ig g (detectSeeds ig g) := by
    rw [pprScores_buildFeatureContext, rung3Ppr_congr hsame]
  refine ⟨?_, hscores, ?_⟩
  · ext name
    rw [List.mem_toFinset, List.mem_toFinset, hsame]
  · intro i v hv hclaim
    rw [get_pprScore, hscores]
    constructor
    · intro hseed hne
      rcases exists_get_rung3Ppr (hpagerank _) hv hclaim hseed hne with ⟨score, hscore⟩
      refine ⟨score, hscore, ?_⟩
      rw [hscore, Option.getD_some]
    · intro hseed
      have hnone : Dict.get (rung3Ppr ig g (detectSeeds ig g)) v.name = none :=
        get_rung3Ppr_seed hseed
      refine ⟨hnone, hnone, ?_⟩
      rw [hnone, Option.getD_none]

/-- A claim of the ring is a seed, and its neighbour has the score that the detector sees. -/
theorem same_seeds_ringAndNeighbours :
    Dict.get (graphFeatures Sample.neighbourIg
        (buildFeatureContext Sample.neighbourIg Sample.ringAndNeighbours) "r1" 0) "ppr_score" =
      some (ofRat 0) ∧
    ∃ score, Dict.get Sample.propagated "x1" = some score ∧
      Dict.get (graphFeatures Sample.neighbourIg
        (buildFeatureContext Sample.neighbourIg Sample.ringAndNeighbours) "x1" 3) "ppr_score" =
          some score := by
  have hpartition : (Sample.neighbourIg.findPartition Sample.ringAndNeighbours
      defaultLeidenResolution 42).flatten.Perm
        (List.range Sample.ringAndNeighbours.vertices.length) := by
    decide
  have hsame := (same_seeds hpartition (fun _ => rfl)
    (Graph.nodup_claimVertexNames Sample.nodup_names_ringAndNeighbours)).2.2
  have hring : "r1" ∈ detectSeeds Sample.neighbourIg Sample.ringAndNeighbours := by
    decide +kernel
  have hnear : "x1" ∉ detectSeeds Sample.neighbourIg Sample.ringAndNeighbours := by
    decide +kernel
  constructor
  · exact ((hsame 0 (Sample.plainClaim "r1") rfl rfl).2 (Or.inl hring)).2.2
  · exact (hsame 3 (Sample.plainClaim "x1") rfl rfl).1 hnear (List.ne_nil_of_mem hring)

end ClaimGuard
