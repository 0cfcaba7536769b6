import ClaimGuard.Verdicts

/-!
# Weaker and stronger rungs

A verdict is never below what the first two rungs say of the claim. The third rung fills in
the claims they leave: what it propagates to the others is not merged.
-/

namespace ClaimGuard

open Floats RoundedFloats

variable {F : Type} [Floats F] [RoundedFloats F]

/-- The score of a claim's verdict is not below what the first rung gives it, what the second
rung gives it, and, if neither covers it, what the third rung propagates to it. -/
theorem detect_dominates {ig : Igraph F} {g : Graph F}
    (hnames : (g.vertices.map Vertex.name).Nodup)
    {degreeThresholds : List (EntityType × ℕ)} {resolution : F} {minRingSize : ℕ}
    {claimId : String} {verdict : ClaimVerdict F}
    (h : (claimId, verdict) ∈ detectWith ig g degreeThresholds resolution minRingSize) :
    (claimId ∈ (rung1Components ig g degreeThresholds minRingSize).map Prod.fst →
      value (ofRat (9 / 10) : F) ≤ value verdict.fraudScore) ∧
    (∀ second, Dict.get (rung2Leiden ig g resolution minRingSize) claimId = some second →
      value second.fraudScore ≤ value verdict.fraudScore) ∧
    (claimId ∉ (rung1Components ig g degreeThresholds minRingSize).map Prod.fst →
      claimId ∉ (rung2Leiden ig g resolution minRingSize).map Prod.fst →
      ∀ score, (claimId, score) ∈ rung3Ppr ig g
          (seedClaimIds (rankedVerdicts ig g degreeThresholds resolution minRingSize)) →
        lt (ofRat (5 / 100)) score = true →
        value (Floats.round score 4) ≤ value verdict.fraudScore) := by
  have hkey : ∀ second, Dict.get (rung2Leiden ig g resolution minRingSize) claimId = some second →
      claimId ∈ (rung2Leiden ig g resolution minRingSize).map Prod.fst := by
    intro second hsecond
    exact List.mem_map.2 ⟨_, Dict.mem_of_get_eq_some hsecond, rfl⟩
  rw [detectWith_eq, List.mem_append, List.mem_append] at h
  rcases h with (hranked | hnear) | hclear
  · have hcandidate := (mem_rankedVerdicts.1 hranked).2
    obtain ⟨-, hfirst, hsecond⟩ := candidate_eq_some hcandidate
    refine ⟨hfirst, hsecond, ?_⟩
    intro hfirst hsecond
    rw [candidate_eq_none_iff.2 ⟨hfirst, hsecond⟩] at hcandidate
    exact absurd hcandidate (by simp)
  · rcases mem_nearVerdicts.1 hnear with ⟨score, hscore, hnew, -, rfl⟩
    obtain ⟨hfirst, hsecond⟩ := not_covered (exists_of_mem_rung3Ppr hscore).1 hnew
    refine ⟨fun hmem => absurd hmem hfirst, fun w hw => absurd (hkey w hw) hsecond, ?_⟩
    intro _ _ other hother _
    -- the third rung has one score for a claim
    have heq := List.inj_on_of_nodup_map (nodup_keys_rung3Ppr hnames) hscore hother rfl
    rw [(Prod.mk.inj heq).2]
  · rcases mem_clearVerdicts.1 hclear with ⟨hclaim, hnew, rfl⟩
    rw [List.map_append, List.mem_append, not_or] at hnew
    obtain ⟨hfirst, hsecond⟩ := not_covered hclaim hnew.1
    refine ⟨fun hmem => absurd hmem hfirst, fun w hw => absurd (hkey w hw) hsecond, ?_⟩
    intro _ _ score hscore hlt
    exact absurd (List.mem_map.2 ⟨_, mem_nearVerdicts.2 ⟨score, hscore, hnew.1, hlt, rfl⟩, rfl⟩)
      hnew.2

namespace Sample

/-- The graph library on the sample: the ring is a community, and so are its neighbours, to
which a fifth of the highest PageRank spreads, here to six places. -/
def neighbourIg : Igraph Double :=
  { ig with
    connectedComponents := fun _ => [[0, 1, 2, 6], [3, 7], [4, 8], [5, 9]]
    findPartition := fun _ _ _ => [[0, 1, 2, 6], [3, 4, 5, 7, 8, 9, 10, 11]]
    personalizedPagerank := fun _ _ _ =>
      [137627, 137627, 177191, 62769, 12663, 12663, 309272, 93091, 28548, 17785, 5382, 5382].map
        fun millionths : ℕ => ofRat (millionths / 10 ^ 6) }

/-- What the third rung propagates on the sample. -/
def propagated : List (String × Double) :=
  rung3Ppr neighbourIg ringAndNeighbours (seedClaimIds (rankedVerdicts neighbourIg
    ringAndNeighbours defaultDegreeThresholds defaultLeidenResolution defaultMinRingSize))

end Sample

/-- A claim of each rung of the sample: none is below what its rung says. -/
theorem detect_dominates_threeRungs :
    (∃ verdict, ("r1", verdict) ∈ detectWith Sample.threeRungsIg Sample.threeRungs
        defaultDegreeThresholds defaultLeidenResolution defaultMinRingSize ∧
      value (ofRat (9 / 10) : Double) ≤ value verdict.fraudScore) ∧
    (∃ verdict second, ("x1", verdict) ∈ detectWith Sample.threeRungsIg Sample.threeRungs
        defaultDegreeThresholds defaultLeidenResolution defaultMinRingSize ∧
      Dict.get (rung2Leiden Sample.threeRungsIg Sample.threeRungs defaultLeidenResolution
        defaultMinRingSize) "x1" = some second ∧
      0 < value second.fraudScore ∧ value second.fraudScore ≤ value verdict.fraudScore) ∧
    ∃ verdict score, ("n1", verdict) ∈ detectWith Sample.threeRungsIg Sample.threeRungs
        defaultDegreeThresholds defaultLeidenResolution defaultMinRingSize ∧
      ("n1", score) ∈ rung3Ppr Sample.threeRungsIg Sample.threeRungs
        (seedClaimIds (rankedVerdicts Sample.threeRungsIg Sample.threeRungs
          defaultDegreeThresholds defaultLeidenResolution defaultMinRingSize)) ∧
      0 < value (Floats.round score 4) ∧
      value (Floats.round score 4) ≤ value verdict.fraudScore := by
  have hdominates := fun claimId verdict (h : (claimId, verdict) ∈ detectWith Sample.threeRungsIg
      Sample.threeRungs defaultDegreeThresholds defaultLeidenResolution defaultMinRingSize) =>
    detect_dominates Sample.nodup_names_threeRungs h
  refine ⟨?_, ?_, ?_⟩
  · have hsome : (Dict.get (detectWith Sample.threeRungsIg Sample.threeRungs
        defaultDegreeThresholds defaultLeidenResolution defaultMinRingSize) "r1").isSome = true := by
      decide +kernel
    rcases Option.isSome_iff_exists.1 hsome with ⟨verdict, hverdict⟩
    have hmem := Dict.mem_of_get_eq_some hverdict
    exact ⟨verdict, hmem, (hdominates "r1" verdict hmem).1 (by decide +kernel)⟩
  · have hsome : ((Dict.get (detectWith Sample.threeRungsIg Sample.threeRungs
        defaultDegreeThresholds defaultLeidenResolution defaultMinRingSize) "x1").isSome &&
        (Dict.get (rung2Leiden Sample.threeRungsIg Sample.threeRungs defaultLeidenResolution
          defaultMinRingSize) "x1").any fun second => decide (0 < value second.fraudScore)) =
        true := by
      decide +kernel
    rw [Bool.and_eq_true, Option.isSome_iff_exists, Option.any_eq_true] at hsome
    rcases hsome with ⟨⟨verdict, hverdict⟩, second, hsecond, hpositive⟩
    have hmem := Dict.mem_of_get_eq_some hverdict
    exact ⟨verdict, second, hmem, hsecond, of_decide_eq_true hpositive,
      (hdominates "x1" verdict hmem).2.1 second hsecond⟩
  · have hsome : ((Dict.get (detectWith Sample.threeRungsIg Sample.threeRungs
        defaultDegreeThresholds defaultLeidenResolution defaultMinRingSize) "n1").isSome &&
        (Dict.get (rung3Ppr Sample.threeRungsIg Sample.threeRungs
          (seedClaimIds (rankedVerdicts Sample.threeRungsIg Sample.threeRungs
            defaultDegreeThresholds defaultLeidenResolution defaultMinRingSize))) "n1").any
          fun score => lt (ofRat (5 / 100)) score && decide (0 < value (Floats.round score 4))) =
        true := by
      decide +kernel
    rw [Bool.and_eq_true, Option.isSome_iff_exists, Option.any_eq_true] at hsome
    rcases hsome with ⟨⟨verdict, hverdict⟩, score, hscore, hboth⟩
    rw [Bool.and_eq_true, decide_eq_true_eq] at hboth
    have hmem := Dict.mem_of_get_eq_some hverdict
    have hscored := Dict.mem_of_get_eq_some hscore
    exact ⟨verdict, score, hmem, hscored, hboth.2, (hdominates "n1" verdict hmem).2.2
      (by decide +kernel) (by decide +kernel) score hscored hboth.1⟩

/-- A claim of an unsuspicious community next to a ring: its community's score stands, though
the third rung propagates more to it. -/
theorem neighbour_not_dominated :
    (Sample.neighbourIg.findPartition Sample.ringAndNeighbours defaultLeidenResolution
        42).flatten.Perm (List.range Sample.ringAndNeighbours.vertices.length) ∧
      ∃ score verdict, Dict.get Sample.propagated "x1" = some score ∧
        lt (ofRat (5 / 100)) score = true ∧
        ("x1", verdict) ∈ detect Sample.neighbourIg Sample.ringAndNeighbours ∧
        value verdict.fraudScore < value (Floats.round score 4) := by
  have hscore : (Dict.get Sample.propagated "x1").map (fun score =>
      (lt (ofRat (5 / 100)) score, value (Floats.round score 4))) =
      some (true, value (ofRat (203 / 1000) : Double)) := by decide +kernel
  have hverdict : (Dict.get (detect Sample.neighbourIg Sample.ringAndNeighbours) "x1").map
      (fun verdict => value verdict.fraudScore) = some 0 := by decide +kernel
  rcases Option.map_eq_some_iff.1 hscore with ⟨score, hs, hpair⟩
  rcases Option.map_eq_some_iff.1 hverdict with ⟨verdict, hv, hzero⟩
  rw [Prod.mk.injEq] at hpair
  refine ⟨by decide, score, verdict, hs, hpair.1, Dict.mem_of_get_eq_some hv, ?_⟩
  rw [hzero, hpair.2]
  decide +kernel

end ClaimGuard
