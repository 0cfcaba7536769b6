import ClaimGuard.Lib.Text
import ClaimGuard.Pruning

/-!
# The items of the rungs

What each rung of the detector has an item for: the claims of the components and of the
communities that have enough of them, each claim once, and the claims the third rung gives a
share of the highest PageRank.
-/

namespace ClaimGuard

variable {F : Type}

/-! ## The claims among some vertices -/

namespace Graph

variable {g : Graph F}

theorem mem_claimMembers {members : List ℕ} {name : String} : name ∈ g.claimMembers members ↔
    ∃ i ∈ members, ∃ v, g.vertices[i]? = some v ∧ v.kind = .claim ∧ v.name = name := by
  simp only [claimMembers, List.mem_filterMap]
  constructor
  · rintro ⟨v, ⟨i, hi, hv⟩, hname⟩
    split at hname
    · exact ⟨i, hi, v, hv, by assumption, Option.some.inj hname⟩
    · exact absurd hname (by simp)
  · rintro ⟨i, hi, v, hv, hclaim, hname⟩
    exact ⟨v, ⟨i, hi, hv⟩, by rw [if_pos hclaim, hname]⟩

theorem mem_claimVertexNames {name : String} : name ∈ g.claimVertexNames ↔
    ∃ v ∈ g.vertices, v.kind = .claim ∧ v.name = name := by
  simp only [claimVertexNames, List.mem_map, List.mem_filter, decide_eq_true_eq]
  exact exists_congr fun v => and_assoc

theorem claimMembers_eq (g : Graph F) (members : List ℕ) : g.claimMembers members =
    ((members.filterMap fun i => g.vertices[i]?).filter fun v =>
      decide (v.kind = .claim)).map Vertex.name := by
  unfold claimMembers
  generalize members.filterMap (fun i => g.vertices[i]?) = l
  induction l with
  | nil => rfl
  | cons v l ih =>
      by_cases hclaim : v.kind = .claim
      · simp [hclaim, ih]
      · simp [hclaim, ih]

theorem claimMembers_range :
    g.claimMembers (List.range g.vertices.length) = g.claimVertexNames := by
  rw [claimMembers_eq, filterMap_getElem?_range]
  rfl

/-- A partition of the vertices has each claim once. -/
theorem perm_flatMap_claimMembers {parts : List (List ℕ)}
    (h : parts.flatten.Perm (List.range g.vertices.length)) :
    (parts.flatMap g.claimMembers).Perm g.claimVertexNames := by
  have hflat : ∀ parts : List (List ℕ),
      parts.flatMap g.claimMembers = g.claimMembers parts.flatten := by
    intro parts
    induction parts with
    | nil => rfl
    | cons part parts ih =>
        rw [List.flatMap_cons, ih, List.flatten_cons]
        unfold claimMembers
        rw [List.filterMap_append, List.filterMap_append]
  rw [hflat, ← claimMembers_range]
  exact (h.filterMap _).filterMap _

theorem nodup_claimVertexNames (hnames : (g.vertices.map Vertex.name).Nodup) :
    g.claimVertexNames.Nodup :=
  (List.filter_sublist.map Vertex.name).nodup hnames

end Graph

/-! ## The parts with enough claims -/

section

variable {ν : Type} {names : List ℕ → List String} {value : List ℕ × ℕ → ν} {minRingSize : ℕ}
  {parts : List (List ℕ)}

/-- The names of every part that has enough of them, each with what the part gives. -/
def partItems (names : List ℕ → List String) (value : List ℕ × ℕ → ν) (minRingSize : ℕ)
    (parts : List (List ℕ)) : List (String × ν) :=
  parts.zipIdx.flatMap fun part =>
    if minRingSize ≤ (names part.1).length then (names part.1).map fun name => (name, value part)
    else []

theorem mem_partItems {name : String} {x : ν} :
    (name, x) ∈ partItems names value minRingSize parts ↔
      ∃ (k : ℕ) (part : List ℕ), parts[k]? = some part ∧ minRingSize ≤ (names part).length ∧
        name ∈ names part ∧ x = value (part, k) := by
  unfold partItems
  rw [List.mem_flatMap]
  constructor
  · rintro ⟨⟨part, k⟩, hmem, hitem⟩
    simp only at hitem
    split at hitem
    · rcases List.mem_map.1 hitem with ⟨name', hname, heq⟩
      rw [Prod.mk.injEq] at heq
      exact ⟨k, part, List.mem_zipIdx_iff_getElem?.1 hmem, by assumption, heq.1 ▸ hname,
        heq.2.symm⟩
    · exact absurd hitem List.not_mem_nil
  · rintro ⟨k, part, hpart, hsize, hname, rfl⟩
    refine ⟨(part, k), List.mem_zipIdx_iff_getElem?.2 hpart, ?_⟩
    simp only
    rw [if_pos hsize]
    exact List.mem_map.2 ⟨name, hname, rfl⟩

theorem keys_names (ns : List String) (x : ν) :
    (ns.map fun name => (name, x)).map Prod.fst = ns := by
  rw [List.map_map]
  exact List.map_id ns

/-- The keys are names of the parts, in their order. -/
theorem sublist_keys_partItems :
    ((partItems names value minRingSize parts).map Prod.fst).Sublist (parts.flatMap names) := by
  have hparts : ∀ l : List (List ℕ × ℕ), ((l.flatMap fun part =>
      if minRingSize ≤ (names part.1).length then (names part.1).map fun name => (name, value part)
      else []).map Prod.fst).Sublist ((l.map Prod.fst).flatMap names) := by
    intro l
    induction l with
    | nil => exact List.Sublist.refl _
    | cons part l ih =>
        rw [List.flatMap_cons, List.map_append, List.map_cons, List.flatMap_cons]
        refine List.Sublist.append ?_ ih
        split
        · rw [keys_names]
        · exact List.nil_sublist _
  have h := hparts parts.zipIdx
  rwa [List.zipIdx_map_fst] at h

/-- All names of a part that has enough of them are there with what it gives. -/
theorem sublist_partItems (value : List ℕ × ℕ → ν) {k : ℕ} {part : List ℕ}
    (hpart : parts[k]? = some part) (hsize : minRingSize ≤ (names part).length) :
    ((names part).map fun name => (name, value (part, k))).Sublist
      (partItems names value minRingSize parts) := by
  have hmem : (part, k) ∈ parts.zipIdx := List.mem_zipIdx_iff_getElem?.2 hpart
  have h := List.sublist_flatten_of_mem (List.mem_map_of_mem (f := fun part : List ℕ × ℕ =>
    if minRingSize ≤ (names part.1).length then (names part.1).map fun name => (name, value part)
    else []) hmem)
  simp only at h
  rw [if_pos hsize] at h
  exact h

end

/-! ## The first rung -/

section

variable {ig : Igraph F} {g : Graph F} {degreeThresholds : List (EntityType × ℕ)} {minRingSize : ℕ}

/-- What the first rung gives a component: its number. -/
def ringOf (component : List ℕ × ℕ) : String := "kcore-" ++ toString component.2

/-- Rings are told apart by the numbers of their components. -/
theorem ringOf_injective {k l : ℕ} {component component' : List ℕ}
    (h : ringOf (component, k) = ringOf (component', l)) : k = l := by
  have hlist := congrArg String.toList h
  unfold ringOf at hlist
  rw [String.toList_append, String.toList_append, List.append_cancel_left_eq] at hlist
  have hrepr : ∀ n : ℕ, (toString n).toList = Text.decimal n := fun _ => Nat.toList_repr
  rw [hrepr, hrepr] at hlist
  exact Text.decimal_injective hlist

theorem rung1Components_eq : rung1Components ig g degreeThresholds minRingSize =
    partItems (pruneHighDegreeEntities g degreeThresholds).claimMembers ringOf minRingSize
      (ig.connectedComponents (pruneHighDegreeEntities g degreeThresholds)) := rfl

/-- A claim is in one ring at most. -/
theorem nodup_keys_rung1Components (hnames : (g.vertices.map Vertex.name).Nodup)
    (hcomponents :
      (ig.connectedComponents (pruneHighDegreeEntities g degreeThresholds)).flatten.Perm
        (List.range (pruneHighDegreeEntities g degreeThresholds).vertices.length)) :
    ((rung1Components ig g degreeThresholds minRingSize).map Prod.fst).Nodup := by
  have hpruned : ((pruneHighDegreeEntities g degreeThresholds).vertices.map Vertex.name).Nodup :=
    (Graph.sublist_deleteVertices.map Vertex.name).nodup hnames
  rw [rung1Components_eq]
  exact sublist_keys_partItems.nodup ((Graph.perm_flatMap_claimMembers hcomponents).nodup_iff.2
    (Graph.nodup_claimVertexNames hpruned))

end

/-! ## The second rung -/

section

variable [Floats F] {ig : Igraph F} {g : Graph F} {resolution : F} {minRingSize : ℕ}

/-- What the second rung gives a community. -/
def communityVerdict (g : Graph F) (community : List ℕ × ℕ) : ClaimVerdict F where
  fraudScore := suspiciousness
    (claimantsPerEntityRatio (g.claimMembers community.1).length
      ((community.1.filterMap fun i => g.vertices[i]?).countP fun v => decide (v.kind = .entity)))
    (burstiness (((community.1.filterMap fun i => g.vertices[i]?).filter fun v =>
      decide (v.kind = .claim)).map Vertex.incidentDate))
  rung := "leiden_community"
  ringId := some ("leiden-" ++ toString community.2)
  communityClaimIds := g.claimMembers community.1

theorem rung2Leiden_eq : rung2Leiden ig g resolution minRingSize =
    partItems g.claimMembers (communityVerdict g) minRingSize
      (ig.findPartition g resolution 42) := by
  unfold rung2Leiden partItems
  congr 1
  funext community
  simp only [communityVerdict, Graph.claimMembers_eq, List.length_map]
  by_cases hsize : minRingSize ≤ ((community.1.filterMap fun i => g.vertices[i]?).filter fun v =>
      decide (v.kind = .claim)).length
  · rw [if_neg (not_lt.2 hsize), if_pos hsize]
  · rw [if_pos (not_le.1 hsize), if_neg hsize]

end

/-! ## The third rung -/

section

variable [Floats F] {ig : Igraph F} {g : Graph F} {seeds : List String}

open Floats

/-- An item of the third rung: a claim that is no seed, and its share of the highest PageRank,
or of one if that is zero. -/
theorem exists_of_mem_rung3Ppr {name : String} {score : F}
    (h : (name, score) ∈ rung3Ppr ig g seeds) : name ∈ g.claimVertexNames ∧ name ∉ seeds ∧
      ∃ pagerank, pagerank = ig.personalizedPagerank g seeds.toFinset (ofRat (85 / 100)) ∧
        ∃ x ∈ pagerank, score = x /
          if truth (pagerank.tail.foldl Floats.max (pagerank.headD (ofRat 0))) then
            pagerank.tail.foldl Floats.max (pagerank.headD (ofRat 0))
          else ofRat 1 := by
  unfold rung3Ppr at h
  split at h
  · exact absurd h List.not_mem_nil
  · simp only [List.mem_filterMap] at h
    rcases h with ⟨⟨v, x⟩, hmem, hitem⟩
    split at hitem
    · rename_i hclaim
      have heq := Option.some.inj hitem
      rw [Prod.mk.injEq] at heq
      obtain ⟨rfl, rfl⟩ := heq
      obtain ⟨hv, hx⟩ := List.of_mem_zip hmem
      exact ⟨Graph.mem_claimVertexNames.2 ⟨v, hv, hclaim.1, rfl⟩, hclaim.2, _, rfl, x, hx, rfl⟩
    · exact absurd hitem (by simp)

theorem nodup_keys_rung3Ppr (hnames : (g.vertices.map Vertex.name).Nodup) :
    ((rung3Ppr ig g seeds).map Prod.fst).Nodup := by
  have hzip : ∀ (vertices : List (Vertex F)) (pagerank : List F) (maxScore : F),
      (((vertices.zip pagerank).filterMap fun v =>
        if v.1.kind = .claim ∧ v.1.name ∉ seeds then some (v.1.name, v.2 / maxScore)
        else none).map Prod.fst).Sublist (vertices.map Vertex.name) := by
    intro vertices pagerank maxScore
    induction vertices generalizing pagerank with
    | nil => exact List.nil_sublist _
    | cons v vertices ih =>
        cases pagerank with
        | nil => exact List.nil_sublist _
        | cons x pagerank =>
            rw [List.zip_cons_cons, List.filterMap_cons]
            split
            · rename_i hnone
              exact (ih pagerank).trans (List.sublist_cons_self _ _)
            · rename_i item hitem
              split at hitem
              · rw [← Option.some.inj hitem]
                exact (ih pagerank).cons_cons v.name
              · exact absurd hitem (by simp)
  unfold rung3Ppr
  split
  · exact List.nodup_nil
  · exact (hzip _ _ _).nodup hnames

end

/-! ## The first two rungs together -/

section

variable [Floats F]

open Floats

/-- The verdict of the first rung on a claim of a ring. -/
def kcoreVerdict (rung1 : List (String × String)) (ringId : String) : ClaimVerdict F where
  fraudScore := ofRat (9 / 10)
  rung := "k_core"
  ringId := some ringId
  communityClaimIds := (rung1.filter fun e => decide (e.2 = ringId)).map Prod.fst

theorem candidate_eq_none_iff {rung1 : List (String × String)}
    {rung2 : List (String × ClaimVerdict F)} {claimId : String} :
    candidate rung1 rung2 claimId = none ↔
      claimId ∉ rung1.map Prod.fst ∧ claimId ∉ rung2.map Prod.fst := by
  rw [← Dict.get_eq_none_iff, ← Dict.get_eq_none_iff]
  unfold candidate
  cases Dict.get rung1 claimId <;> cases Dict.get rung2 claimId <;> simp

variable {ig : Igraph F} {g : Graph F} {degreeThresholds : List (EntityType × ℕ)} {resolution : F}
  {minRingSize : ℕ}

theorem mem_rankedVerdicts {claimId : String} {verdict : ClaimVerdict F} :
    (claimId, verdict) ∈ rankedVerdicts ig g degreeThresholds resolution minRingSize ↔
      claimId ∈ g.claimVertexNames ∧
        candidate (rung1Components ig g degreeThresholds minRingSize)
          (rung2Leiden ig g resolution minRingSize) claimId = some verdict := by
  unfold rankedVerdicts sortedNames
  simp only [List.mem_filterMap, List.mem_insertionSort, List.mem_dedup]
  constructor
  · rintro ⟨name, hname, hverdict⟩
    rcases Option.map_eq_some_iff.1 hverdict with ⟨v, hv, heq⟩
    rw [Prod.mk.injEq] at heq
    rw [← heq.1, ← heq.2]
    exact ⟨hname, hv⟩
  · rintro ⟨hname, hverdict⟩
    exact ⟨claimId, hname, by rw [hverdict]; rfl⟩

/-- A claim has a verdict already when one of the first two rungs covers it. -/
theorem mem_keys_rankedVerdicts {claimId : String} :
    claimId ∈ (rankedVerdicts ig g degreeThresholds resolution minRingSize).map Prod.fst ↔
      claimId ∈ g.claimVertexNames ∧
        (claimId ∈ (rung1Components ig g degreeThresholds minRingSize).map Prod.fst ∨
          claimId ∈ (rung2Leiden ig g resolution minRingSize).map Prod.fst) := by
  have hcovered : (∃ verdict, candidate (rung1Components ig g degreeThresholds minRingSize)
        (rung2Leiden ig g resolution minRingSize) claimId = some verdict) ↔
      claimId ∈ (rung1Components ig g degreeThresholds minRingSize).map Prod.fst ∨
        claimId ∈ (rung2Leiden ig g resolution minRingSize).map Prod.fst := by
    rw [← Option.ne_none_iff_exists', Ne, candidate_eq_none_iff, not_and_or, not_not, not_not]
  rw [← hcovered]
  constructor
  · intro hkey
    rcases List.mem_map.1 hkey with ⟨e, he, rfl⟩
    have hmem := mem_rankedVerdicts.1 he
    exact ⟨hmem.1, e.2, hmem.2⟩
  · rintro ⟨hname, verdict, hverdict⟩
    exact List.mem_map.2 ⟨_, mem_rankedVerdicts.2 ⟨hname, hverdict⟩, rfl⟩

/-- A claim without a verdict so far is in neither of the first two rungs. -/
theorem not_covered {claimId : String} (hclaim : claimId ∈ g.claimVertexNames)
    (hnew : claimId ∉
      (rankedVerdicts ig g degreeThresholds resolution minRingSize).map Prod.fst) :
    claimId ∉ (rung1Components ig g degreeThresholds minRingSize).map Prod.fst ∧
      claimId ∉ (rung2Leiden ig g resolution minRingSize).map Prod.fst := by
  rw [mem_keys_rankedVerdicts, not_and, not_or] at hnew
  exact hnew hclaim

theorem nodup_keys_rankedVerdicts :
    ((rankedVerdicts ig g degreeThresholds resolution minRingSize).map Prod.fst).Nodup := by
  have hsublist : ∀ (names : List String) (f : String → Option (ClaimVerdict F)),
      ((names.filterMap fun claimId => (f claimId).map fun verdict => (claimId, verdict)).map
        Prod.fst).Sublist names := by
    intro names f
    induction names with
    | nil => exact List.nil_sublist _
    | cons name names ih =>
        cases hf : f name with
        | none =>
            rw [List.filterMap_cons_none (by rw [hf]; rfl)]
            exact ih.trans (List.sublist_cons_self _ _)
        | some verdict =>
            rw [List.filterMap_cons_some (b := (name, verdict)) (by rw [hf]; rfl), List.map_cons]
            exact ih.cons_cons name
  exact (hsublist _ _).nodup (nodup_sortedNames _)

/-! ## The merged verdicts -/

/-- The verdicts the third rung adds. -/
def nearVerdicts (ig : Igraph F) (g : Graph F) (ranked : List (String × ClaimVerdict F)) :
    List (String × ClaimVerdict F) :=
  ((rung3Ppr ig g (seedClaimIds ranked)).filter fun e =>
    decide (e.1 ∉ ranked.map Prod.fst) && lt (ofRat (5 / 100)) e.2).map fun e =>
      (e.1, { fraudScore := Floats.round e.2 4, rung := "ppr", ringId := none
              communityClaimIds := [] : ClaimVerdict F })

/-- The verdicts on the claims that are left. -/
def clearVerdicts (g : Graph F) (verdicts : List (String × ClaimVerdict F)) :
    List (String × ClaimVerdict F) :=
  (g.claimVertexNames.filter fun name => decide (name ∉ verdicts.map Prod.fst)).map fun name =>
    (name, { fraudScore := ofRat 0, rung := "none", ringId := none
             communityClaimIds := [] : ClaimVerdict F })

theorem detectWith_eq : detectWith ig g degreeThresholds resolution minRingSize =
    rankedVerdicts ig g degreeThresholds resolution minRingSize ++
      nearVerdicts ig g (rankedVerdicts ig g degreeThresholds resolution minRingSize) ++
      clearVerdicts g (rankedVerdicts ig g degreeThresholds resolution minRingSize ++
        nearVerdicts ig g (rankedVerdicts ig g degreeThresholds resolution minRingSize)) := rfl

theorem mem_nearVerdicts {ranked : List (String × ClaimVerdict F)} {claimId : String}
    {verdict : ClaimVerdict F} : (claimId, verdict) ∈ nearVerdicts ig g ranked ↔
      ∃ score, (claimId, score) ∈ rung3Ppr ig g (seedClaimIds ranked) ∧
        claimId ∉ ranked.map Prod.fst ∧ lt (ofRat (5 / 100)) score = true ∧
        verdict = ⟨Floats.round score 4, "ppr", none, []⟩ := by
  unfold nearVerdicts
  simp only [List.mem_map (f := fun e : String × F => _), List.mem_filter, Bool.and_eq_true,
    decide_eq_true_eq]
  constructor
  · rintro ⟨e, ⟨he, hnew, hlt⟩, heq⟩
    rw [Prod.mk.injEq] at heq
    obtain ⟨rfl, rfl⟩ := heq
    exact ⟨e.2, he, hnew, hlt, rfl⟩
  · rintro ⟨score, he, hnew, hlt, rfl⟩
    exact ⟨(claimId, score), ⟨he, hnew, hlt⟩, rfl⟩

theorem mem_clearVerdicts {verdicts : List (String × ClaimVerdict F)} {claimId : String}
    {verdict : ClaimVerdict F} : (claimId, verdict) ∈ clearVerdicts g verdicts ↔
      claimId ∈ g.claimVertexNames ∧ claimId ∉ verdicts.map Prod.fst ∧
        verdict = ⟨ofRat 0, "none", none, []⟩ := by
  unfold clearVerdicts
  rw [List.mem_map]
  simp only [List.mem_filter, decide_eq_true_eq, Prod.mk.injEq]
  constructor
  · rintro ⟨name, ⟨hname, hnew⟩, rfl, rfl⟩
    exact ⟨hname, hnew, rfl⟩
  · rintro ⟨hname, hnew, rfl⟩
    exact ⟨claimId, ⟨hname, hnew⟩, rfl, rfl⟩

/-- The third rung adds claims that have no verdict yet. -/
theorem keys_nearVerdicts (ig : Igraph F) (ranked : List (String × ClaimVerdict F))
    (hnames : (g.vertices.map Vertex.name).Nodup) :
    ((nearVerdicts ig g ranked).map Prod.fst).Nodup ∧
      ∀ name ∈ (nearVerdicts ig g ranked).map Prod.fst,
        name ∈ g.claimVertexNames ∧ name ∉ ranked.map Prod.fst := by
  constructor
  · have hkeys : (nearVerdicts ig g ranked).map Prod.fst =
        ((rung3Ppr ig g (seedClaimIds ranked)).filter fun e =>
          decide (e.1 ∉ ranked.map Prod.fst) && lt (ofRat (5 / 100)) e.2).map Prod.fst := by
      unfold nearVerdicts
      rw [List.map_map]
      rfl
    rw [hkeys]
    exact (List.filter_sublist.map Prod.fst).nodup (nodup_keys_rung3Ppr hnames)
  · intro name hname
    rcases List.mem_map.1 hname with ⟨e, he, rfl⟩
    rcases mem_nearVerdicts.1 he with ⟨score, hscore, hnew, -, -⟩
    exact ⟨(exists_of_mem_rung3Ppr hscore).1, hnew⟩

theorem keys_clearVerdicts (verdicts : List (String × ClaimVerdict F)) :
    (clearVerdicts g verdicts).map Prod.fst =
      g.claimVertexNames.filter fun name => decide (name ∉ verdicts.map Prod.fst) := by
  unfold clearVerdicts
  exact keys_names _ _

/-- Every claim has one verdict, and nothing else has any. -/
theorem keys_detectWith (hnames : (g.vertices.map Vertex.name).Nodup) :
    ((detectWith ig g degreeThresholds resolution minRingSize).map Prod.fst).Perm
      g.claimVertexNames := by
  have hclaims := Graph.nodup_claimVertexNames hnames
  obtain ⟨hnear, hnew⟩ := keys_nearVerdicts ig
    (rankedVerdicts ig g degreeThresholds resolution minRingSize) hnames
  have hfirst : ((rankedVerdicts ig g degreeThresholds resolution minRingSize ++
      nearVerdicts ig g (rankedVerdicts ig g degreeThresholds resolution minRingSize)).map
        Prod.fst).Nodup := by
    rw [List.map_append, List.nodup_append']
    refine ⟨nodup_keys_rankedVerdicts, hnear, ?_⟩
    exact List.disjoint_right.2 fun name hname => (hnew name hname).2
  rw [detectWith_eq, List.map_append, keys_clearVerdicts]
  rw [List.perm_ext_iff_of_nodup ?_ hclaims]
  · intro name
    rw [List.mem_append, List.mem_filter, decide_eq_true_eq]
    by_cases hmem : name ∈ (rankedVerdicts ig g degreeThresholds resolution minRingSize ++
        nearVerdicts ig g (rankedVerdicts ig g degreeThresholds resolution minRingSize)).map
          Prod.fst
    · refine iff_of_true (Or.inl hmem) ?_
      rw [List.map_append, List.mem_append] at hmem
      rcases hmem with hmem | hmem
      · exact (mem_keys_rankedVerdicts.1 hmem).1
      · exact (hnew name hmem).1
    · constructor
      · rintro (hkey | ⟨hname, -⟩)
        · exact absurd hkey hmem
        · exact hname
      · intro hname
        exact Or.inr ⟨hname, hmem⟩
  · rw [List.nodup_append']
    refine ⟨hfirst, hclaims.filter _, ?_⟩
    intro name hname hrest
    rw [List.mem_filter, decide_eq_true_eq] at hrest
    exact hrest.2 hname

end

end ClaimGuard
