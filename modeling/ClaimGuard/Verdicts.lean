import ClaimGuard.Explain
import ClaimGuard.Lib.Double
import ClaimGuard.Rungs

/-!
# The verdicts of the detector

Every claim has one verdict, whatever partitions and PageRank vectors the graph library
comes to: its score is a share, its ring is one it is in, and the rung it names is the
strongest that has something to say about it.
-/

namespace ClaimGuard

open Floats RoundedFloats

variable {F : Type} [Floats F] [RoundedFloats F]

/-- The components and the communities are partitions of the vertices, and PageRank gives each
vertex a number that is not negative. -/
structure Igraph.Answers (ig : Igraph F) : Prop where
  components : ∀ g : Graph F,
    (ig.connectedComponents g).flatten.Perm (List.range g.vertices.length)
  partition : ∀ (g : Graph F) (resolution : F) (seed : ℕ),
    (ig.findPartition g resolution seed).flatten.Perm (List.range g.vertices.length)
  pagerank : ∀ (g : Graph F) (seeds : Finset String) (damping : F),
    (ig.personalizedPagerank g seeds damping).length = g.vertices.length ∧
      ∀ x ∈ ig.personalizedPagerank g seeds damping, 0 ≤ value x

/-! ## Scores -/

/-- A suspiciousness is a share, whatever the ratio. -/
theorem suspiciousness_mem_unit (ratio : F) {burstiness : F} (h : 0 ≤ value burstiness) :
    0 ≤ value (suspiciousness ratio burstiness) ∧ value (suspiciousness ratio burstiness) ≤ 1 := by
  unfold suspiciousness
  have hratio : 0 ≤ value (Floats.min (ofRat 1)
      (Floats.max (ofRat 0) ((ratio - ofRat 1) / ofRat 4)) : F) := by
    rw [value_min, value_max, value_one, value_zero]
    exact le_min zero_le_one (le_max_left _ _)
  have hnonneg : 0 ≤ value (Floats.min (ofRat 1)
      (ofRat (85 / 100) * Floats.min (ofRat 1)
        (Floats.max (ofRat 0) ((ratio - ofRat 1) / ofRat 4)) +
        ofRat (15 / 100) * burstiness) : F) := by
    rw [value_min, value_one]
    refine le_min zero_le_one ?_
    rw [value_add, value_mul, value_mul, value_ofRat, value_ofRat]
    have hfirst : 0 ≤ nearest F (85 / 100) := nearest_nonneg (by norm_num)
    have hsecond : 0 ≤ nearest F (15 / 100) := nearest_nonneg (by norm_num)
    exact nearest_nonneg (add_nonneg (nearest_nonneg (mul_nonneg hfirst hratio))
      (nearest_nonneg (mul_nonneg hsecond h)))
  refine ⟨value_round_nonneg 4 hnonneg, value_round_le_one 4 hnonneg ?_⟩
  rw [value_min, value_one]
  exact min_le_left _ _

theorem burstiness_nonneg (dates : List (Option LocalDate)) : 0 ≤ value (burstiness dates : F) := by
  unfold burstiness
  simp only
  split
  · rw [value_zero]
  · rw [value_ofRat]
    exact nearest_nonneg (by positivity)

theorem value_le_foldl_max (l : List F) (a : F) :
    value a ≤ value (l.foldl Floats.max a) ∧ ∀ x ∈ l, value x ≤ value (l.foldl Floats.max a) := by
  induction l generalizing a with
  | nil => exact ⟨le_rfl, fun x hx => absurd hx List.not_mem_nil⟩
  | cons b l ih =>
      obtain ⟨hhead, htail⟩ := ih (Floats.max a b)
      rw [value_max] at hhead
      refine ⟨(le_max_left _ _).trans hhead, ?_⟩
      intro x hx
      rcases List.mem_cons.1 hx with rfl | hx
      · exact (le_max_right _ _).trans hhead
      · exact htail x hx

/-! ## The third rung -/

/-- What the third rung propagates is a share. -/
theorem rung3Ppr_mem_unit {ig : Igraph F} (hig : ig.Answers) {g : Graph F} {seeds : List String}
    {name : String} {score : F} (h : (name, score) ∈ rung3Ppr ig g seeds) :
    0 ≤ value score ∧ value score ≤ 1 := by
  rcases exists_of_mem_rung3Ppr h with ⟨-, -, pagerank, heq, x, hx, rfl⟩
  have hnonneg := (hig.pagerank g seeds.toFinset (ofRat (85 / 100))).2
  rw [← heq] at hnonneg
  have hle : value x ≤ value (pagerank.tail.foldl Floats.max (pagerank.headD (ofRat 0))) := by
    cases pagerank with
    | nil => exact absurd hx List.not_mem_nil
    | cons y l =>
        rcases List.mem_cons.1 hx with rfl | hx
        · exact (value_le_foldl_max l _).1
        · exact (value_le_foldl_max l y).2 x hx
  split_ifs with htruth
  · -- the highest is not zero, and not negative
    have hne : value (pagerank.tail.foldl Floats.max (pagerank.headD (ofRat 0))) ≠ 0 := by
      intro hzero
      rw [truth_eq_false_iff.2 hzero] at htruth
      exact Bool.noConfusion htruth
    exact value_div_mem_unit (hnonneg x hx) hle
      (lt_of_le_of_ne ((hnonneg x hx).trans hle) hne.symm)
  · rw [Bool.not_eq_true, truth_eq_false_iff] at htruth
    refine value_div_mem_unit (hnonneg x hx) ?_ ?_
    · rw [value_one]
      exact (hle.trans htruth.le).trans zero_le_one
    · rw [value_one]
      exact zero_lt_one

/-! ## The first two rungs together -/

section

variable {rung1 : List (String × String)} {rung2 : List (String × ClaimVerdict F)}
  {claimId : String} {verdict : ClaimVerdict F}

/-- The verdict is that of one of the rungs, and its score is not below that of the other. -/
theorem candidate_eq_some (h : candidate rung1 rung2 claimId = some verdict) :
    ((∃ ringId, Dict.get rung1 claimId = some ringId ∧ verdict = kcoreVerdict rung1 ringId) ∨
      Dict.get rung2 claimId = some verdict) ∧
    (claimId ∈ rung1.map Prod.fst → value (ofRat (9 / 10) : F) ≤ value verdict.fraudScore) ∧
    ∀ other, Dict.get rung2 claimId = some other →
      value other.fraudScore ≤ value verdict.fraudScore := by
  have hkey : claimId ∈ rung1.map Prod.fst → Dict.get rung1 claimId ≠ none := by
    intro hmem hnone
    exact Dict.get_eq_none_iff.1 hnone hmem
  unfold candidate at h
  cases hfirst : Dict.get rung1 claimId with
  | none =>
      simp only [hfirst, Option.map_none] at h
      refine ⟨Or.inr h, fun hmem => absurd hfirst (hkey hmem), ?_⟩
      intro other hother
      rw [h, Option.some.injEq] at hother
      rw [hother]
  | some ringId =>
      simp only [hfirst, Option.map_some] at h
      cases hsecond : Dict.get rung2 claimId with
      | none =>
          simp only [hsecond] at h
          have hverdict : verdict = kcoreVerdict rung1 ringId := (Option.some.inj h).symm
          refine ⟨Or.inl ⟨ringId, rfl, hverdict⟩, ?_, by simp⟩
          intro _
          rw [hverdict]
          exact le_rfl
      | some w =>
          simp only [hsecond] at h
          have hmax := Option.some.inj h
          split at hmax
          · rename_i hlt
            rw [lt_iff] at hlt
            rw [← hmax]
            refine ⟨Or.inr rfl, fun _ => hlt.le, ?_⟩
            intro other hother
            rw [Option.some.inj hother]
          · rename_i hle
            rw [Bool.not_eq_true, lt_eq_false_iff] at hle
            rw [← hmax]
            refine ⟨Or.inl ⟨ringId, rfl, rfl⟩, fun _ => le_rfl, ?_⟩
            intro other hother
            rw [← Option.some.inj hother]
            exact hle

end

/-! ## Verdicts of the rungs -/

section

variable {ig : Igraph F} {g : Graph F} {degreeThresholds : List (EntityType × ℕ)} {resolution : F}
  {minRingSize : ℕ}

/-- The claims of a ring are those of its component. -/
theorem kcoreVerdict_community (hig : ig.Answers) (hnames : (g.vertices.map Vertex.name).Nodup)
    {claimId ringId : String}
    (h : (claimId, ringId) ∈ rung1Components ig g degreeThresholds minRingSize) :
    claimId ∈ (kcoreVerdict (rung1Components ig g degreeThresholds minRingSize) ringId :
        ClaimVerdict F).communityClaimIds ∧
      (kcoreVerdict (rung1Components ig g degreeThresholds minRingSize) ringId :
        ClaimVerdict F).communityClaimIds.Nodup ∧
      minRingSize ≤ (kcoreVerdict (rung1Components ig g degreeThresholds minRingSize) ringId :
        ClaimVerdict F).communityClaimIds.length := by
  refine ⟨?_, ?_, ?_⟩
  · refine List.mem_map.2 ⟨(claimId, ringId), ?_, rfl⟩
    simpa using h
  · exact (List.filter_sublist.map Prod.fst).nodup
      (nodup_keys_rung1Components hnames (hig.components _))
  · rcases mem_partItems.1 (rung1Components_eq ▸ h) with ⟨k, part, hpart, hsize, -, rfl⟩
    -- the items of the component are in the dictionary, and all have its number
    have hsublist := (sublist_partItems ringOf hpart hsize).filter fun e =>
      decide (e.2 = ringOf (part, k))
    rw [List.filter_eq_self.2 (by simp)] at hsublist
    have hlength := hsublist.length_le
    rw [List.length_map] at hlength
    refine hsize.trans (hlength.trans ?_)
    exact (List.length_map _).ge

/-- What holds of a verdict on a claim. -/
structure SoundVerdict (ig : Igraph F) (g : Graph F) (degreeThresholds : List (EntityType × ℕ))
    (resolution : F) (minRingSize : ℕ) (claimId : String) (verdict : ClaimVerdict F) : Prop where
  score : 0 ≤ value verdict.fraudScore ∧ value verdict.fraudScore ≤ 1
  ring : verdict.ringId ≠ none ↔ verdict.rung = "k_core" ∨ verdict.rung = "leiden_community"
  community : verdict.ringId ≠ none → claimId ∈ verdict.communityClaimIds ∧
    verdict.communityClaimIds.Nodup ∧ minRingSize ≤ verdict.communityClaimIds.length
  flagged : claimId ∈ (rung1Components ig g degreeThresholds minRingSize).map Prod.fst →
    decisionHint verdict.fraudScore flagAt reviewAt = .flag
  near : verdict.rung = "ppr" →
    claimId ∉ (rung1Components ig g degreeThresholds minRingSize).map Prod.fst ∧
      claimId ∉ (rung2Leiden ig g resolution minRingSize).map Prod.fst
  clear : verdict.rung = "none" →
    claimId ∉ (rung1Components ig g degreeThresholds minRingSize).map Prod.fst ∧
      claimId ∉ (rung2Leiden ig g resolution minRingSize).map Prod.fst ∧
      ∀ score, (claimId, score) ∈ rung3Ppr ig g
          (seedClaimIds (rankedVerdicts ig g degreeThresholds resolution minRingSize)) →
        value score ≤ value (ofRat (5 / 100) : F)

theorem decisionHint_of_ring {score : F} (h : value (ofRat (9 / 10) : F) ≤ value score) :
    decisionHint score flagAt reviewAt = .flag := by
  unfold decisionHint
  refine if_pos ((le_iff _ _).2 (le_trans ?_ h))
  unfold flagAt
  rw [value_ofRat, value_ofRat]
  exact nearest_mono (by norm_num)

/-- A verdict of the first two rungs. -/
theorem soundVerdict_of_candidate (hig : ig.Answers)
    (hnames : (g.vertices.map Vertex.name).Nodup) {claimId : String} {verdict : ClaimVerdict F}
    (h : candidate (rung1Components ig g degreeThresholds minRingSize)
      (rung2Leiden ig g resolution minRingSize) claimId = some verdict) :
    SoundVerdict ig g degreeThresholds resolution minRingSize claimId verdict := by
  obtain ⟨hcase, hfirst, -⟩ := candidate_eq_some h
  have hflagged := fun hmem => decisionHint_of_ring (hfirst hmem)
  rcases hcase with ⟨ringId, hring, rfl⟩ | hsecond
  · have hmem := Dict.mem_of_get_eq_some hring
    refine ⟨?_, ?_, fun _ => kcoreVerdict_community hig hnames hmem, hflagged, ?_, ?_⟩
    · unfold kcoreVerdict
      simp only
      rw [value_ofRat]
      exact ⟨nearest_nonneg (by norm_num), nearest_le_one (by norm_num)⟩
    · simp [kcoreVerdict]
    · intro hrung
      exact absurd hrung (by simp [kcoreVerdict])
    · intro hrung
      exact absurd hrung (by simp [kcoreVerdict])
  · have hmem := Dict.mem_of_get_eq_some hsecond
    rw [rung2Leiden_eq] at hmem
    rcases mem_partItems.1 hmem with ⟨k, part, hpart, hsize, hname, rfl⟩
    refine ⟨suspiciousness_mem_unit _ (burstiness_nonneg _), ?_, ?_, hflagged, ?_, ?_⟩
    · simp [communityVerdict]
    · intro _
      refine ⟨hname, ?_, hsize⟩
      have hall := (Graph.perm_flatMap_claimMembers (hig.partition g resolution 42)).nodup_iff.2
        (Graph.nodup_claimVertexNames hnames)
      exact (List.nodup_flatMap.1 hall).1 part (List.mem_of_getElem? hpart)
    · intro hrung
      exact absurd hrung (by simp [communityVerdict])
    · intro hrung
      exact absurd hrung (by simp [communityVerdict])

/-- Every claim has one verdict, and it is sound. -/
theorem detect_sound (hig : ig.Answers) (hnames : (g.vertices.map Vertex.name).Nodup)
    (degreeThresholds : List (EntityType × ℕ)) (resolution : F) (minRingSize : ℕ) :
    ((detectWith ig g degreeThresholds resolution minRingSize).map Prod.fst).Perm
        g.claimVertexNames ∧
      ∀ claimId verdict, (claimId, verdict) ∈ detectWith ig g degreeThresholds resolution
          minRingSize →
        SoundVerdict ig g degreeThresholds resolution minRingSize claimId verdict := by
  refine ⟨keys_detectWith hnames, ?_⟩
  intro claimId verdict h
  rw [detectWith_eq, List.mem_append, List.mem_append] at h
  rcases h with (hranked | hnear) | hclear
  · exact soundVerdict_of_candidate hig hnames (mem_rankedVerdicts.1 hranked).2
  · rcases mem_nearVerdicts.1 hnear with ⟨score, hscore, hnew, -, rfl⟩
    obtain ⟨hnonneg, hle⟩ := rung3Ppr_mem_unit hig hscore
    have hcovered := not_covered (exists_of_mem_rung3Ppr hscore).1 hnew
    exact ⟨⟨value_round_nonneg 4 hnonneg, value_round_le_one 4 hnonneg hle⟩, by simp, by simp,
      fun hmem => absurd hmem hcovered.1, fun _ => hcovered, by simp⟩
  · rcases mem_clearVerdicts.1 hclear with ⟨hclaim, hnew, rfl⟩
    rw [List.map_append, List.mem_append, not_or] at hnew
    have hcovered := not_covered hclaim hnew.1
    refine ⟨⟨by simp, by simp⟩, by simp, by simp, fun hmem => absurd hmem hcovered.1, by simp, ?_⟩
    intro _
    refine ⟨hcovered.1, hcovered.2, ?_⟩
    -- a score above the bound would have given it a verdict
    intro score hscore
    rw [← lt_eq_false_iff, ← Bool.not_eq_true]
    intro hlt
    exact hnew.2 (List.mem_map.2 ⟨_, mem_nearVerdicts.2 ⟨score, hscore, hnew.1, hlt, rfl⟩, rfl⟩)

end

namespace Sample

theorem answers_ig : (ig : Igraph F).Answers where
  components := by
    intro g
    show ([List.range g.vertices.length]).flatten.Perm _
    rw [List.flatten_singleton]
  partition := by
    intro g _ _
    show ([List.range g.vertices.length]).flatten.Perm _
    rw [List.flatten_singleton]
  pagerank := by
    intro g seeds damping
    refine ⟨List.length_map _, ?_⟩
    intro x hx
    rcases List.mem_map.1 hx with ⟨v, -, rfl⟩
    rw [value_ofRat]
    exact nearest_nonneg (by positivity)

def plainClaim (name : String) : Vertex F := ⟨name, .claim, none, none, none, none, none⟩

def plainEntity (name : String) (entityType : EntityType) : Vertex F :=
  ⟨name, .entity, some entityType, none, none, none, none⟩

/-- Three claims with one phone, and a claim that shares an address with one of them and
another address with two more, each of the three with a phone of its own. -/
def ringAndNeighbours : Graph Double where
  vertices :=
    ["r1", "r2", "r3", "x1", "x2", "x3"].map plainClaim ++
      [plainEntity "ring-phone" .phone, plainEntity "address-1" .address,
        plainEntity "address-2" .address, plainEntity "phone-1" .phone,
        plainEntity "phone-2" .phone, plainEntity "phone-3" .phone]
  edges :=
    [(0, 6), (1, 6), (2, 6), (2, 7), (3, 7), (3, 8), (4, 8), (5, 8), (3, 9), (4, 10), (5, 11)]
  weights := List.replicate 11 (ofRat 1)

theorem nodup_names_ringAndNeighbours :
    (ringAndNeighbours.vertices.map Vertex.name).Nodup := by
  decide

end Sample

namespace Sample

/-- A claim that was filed on a day. -/
def filedClaim (name : String) (day : ℤ) : Vertex F :=
  ⟨name, .claim, none, none, none, none, some ⟨day⟩⟩

/-- Three claims with one phone and one shop, a claim that shares an address with one of them,
and three claims of one week with one address and a phone each. -/
def threeRungs : Graph Double where
  vertices :=
    ["r1", "r2", "r3", "n1"].map plainClaim ++
      [filedClaim "x1" 20454, filedClaim "x2" 20456, filedClaim "x3" 20459] ++
      [plainEntity "ring-phone" .phone, plainEntity "ring-shop" .shop,
        plainEntity "address-1" .address, plainEntity "address-2" .address,
        plainEntity "address-3" .address, plainEntity "address-4" .address,
        plainEntity "phone-1" .phone, plainEntity "phone-2" .phone, plainEntity "phone-3" .phone,
        plainEntity "phone-4" .phone]
  edges :=
    [(0, 7), (0, 8), (0, 11), (1, 7), (1, 8), (1, 12), (2, 7), (2, 8), (2, 9), (3, 9), (3, 13),
      (4, 10), (4, 14), (5, 10), (5, 15), (6, 10), (6, 16)]
  weights := List.replicate 17 (ofRat 1)

theorem nodup_names_threeRungs : (threeRungs.vertices.map Vertex.name).Nodup := by
  decide

/-- What the graph library answers on a graph of one size; on any other, one part. -/
def partsAt (size : ℕ) (parts : List (List ℕ)) (g : Graph F) : List (List ℕ) :=
  if g.vertices.length = size then parts else [List.range g.vertices.length]

omit [Floats F] [RoundedFloats F] in
theorem perm_partsAt {size : ℕ} {parts : List (List ℕ)}
    (h : parts.flatten.Perm (List.range size)) (g : Graph F) :
    (partsAt size parts g).flatten.Perm (List.range g.vertices.length) := by
  unfold partsAt
  split
  · rename_i hsize
    rw [hsize]
    exact h
  · rw [List.flatten_singleton]

/-- The graph library on that graph and on the pruned one: the components, the partition of
the highest modularity at the default resolution, and PageRank from the ring to six places. -/
def threeRungsIg : Igraph Double :=
  { ig with
    connectedComponents := partsAt 15 [[0, 1, 2, 7, 8, 9, 10], [3, 11], [4, 12], [5, 13], [6, 14]]
    findPartition := fun g _ _ =>
      partsAt 17 [[0, 1, 2, 7, 8, 11, 12], [4, 5, 6, 10, 14, 15, 16], [3, 9, 13]] g
    personalizedPagerank := fun g _ _ =>
      if g.vertices.length = 17 then
        [171483, 171483, 156451, 41123, 0, 0, 0, 141502, 141502, 61805, 0, 48587, 48587, 17477,
          0, 0, 0].map fun millionths : ℕ => ofRat (millionths / 10 ^ 6)
      else g.vertices.map fun _ => ofRat (1 / g.vertices.length) }

theorem answers_threeRungsIg : threeRungsIg.Answers where
  components := perm_partsAt (by decide)
  partition := fun g _ _ => perm_partsAt (by decide) g
  pagerank := by
    intro g seeds damping
    simp only [threeRungsIg]
    split
    · rename_i hsize
      refine ⟨by rw [hsize]; rfl, ?_⟩
      intro x hx
      rcases List.mem_map.1 hx with ⟨millionths, -, rfl⟩
      rw [value_ofRat]
      exact nearest_nonneg (by positivity)
    · refine ⟨List.length_map _, ?_⟩
      intro x hx
      rcases List.mem_map.1 hx with ⟨v, -, rfl⟩
      rw [value_ofRat]
      exact nearest_nonneg (by positivity)

end Sample

/-- The verdicts on the sample, of every rung. -/
theorem detect_sound_threeRungs :
    (detectWith Sample.threeRungsIg Sample.threeRungs defaultDegreeThresholds
        defaultLeidenResolution defaultMinRingSize).map (fun v => (v.1, v.2.rung)) =
      [("r1", "k_core"), ("r2", "k_core"), ("r3", "k_core"), ("x1", "leiden_community"),
        ("x2", "leiden_community"), ("x3", "leiden_community"), ("n1", "ppr")] ∧
    ((detectWith Sample.threeRungsIg Sample.threeRungs defaultDegreeThresholds
        defaultLeidenResolution defaultMinRingSize).map Prod.fst).Perm
      Sample.threeRungs.claimVertexNames ∧
    ∀ claimId verdict, (claimId, verdict) ∈ detectWith Sample.threeRungsIg Sample.threeRungs
        defaultDegreeThresholds defaultLeidenResolution defaultMinRingSize →
      SoundVerdict Sample.threeRungsIg Sample.threeRungs defaultDegreeThresholds
        defaultLeidenResolution defaultMinRingSize claimId verdict :=
  ⟨by decide +kernel, detect_sound Sample.answers_threeRungsIg Sample.nodup_names_threeRungs _ _
    defaultMinRingSize⟩

end ClaimGuard
