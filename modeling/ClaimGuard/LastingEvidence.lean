import ClaimGuard.Provenance

/-!
# Evidence that lasts

An explanation names claims that share an entity. The row that keeps it is never
rewritten, while the claims go on: so what it says has to stay true. It does, for claims
keep their fields and links are never removed; only the number of sharing claims grows.
-/

namespace ClaimGuard

open ClaimService

/-! ## A score and its graph -/

section

variable {sc : Scoring Double} {g : Graph Double}

/-- A score from the cache of a graph is one of the graph. -/
theorem scores_of_scoreOne {claimId : UUID} {score : ClaimScore Double}
    (h : scoreOne sc (Cache.of sc g) claimId = .ok (some score)) :
    g.Scores sc.ig claimId.toString score := by
  unfold scoreOne Cache.of refresh at h
  cases hclassifier : sc.classifier with
  | some classifier =>
      simp only [hclassifier] at h
      exact .model h
  | none =>
      simp only [hclassifier] at h
      exact .rules h

end

section

variable {F : Type} [Floats F] {claimId modelVersion : String} {fraudScore : F}
  {hint : DecisionHint} {ringId : Option String} {rung : String} {explanation : Explanation F}
  {score : ClaimScore F}

/-- The fields of a valid result. -/
theorem claimScore_eq
    (h : claimScore claimId modelVersion fraudScore hint ringId rung explanation = .ok score) :
    ∃ id, score = ⟨id, modelVersion, fraudScore, hint, ringId, rung, explanation⟩ := by
  unfold claimScore at h
  rcases Results.bind_eq_ok.1 h with ⟨id, -, h⟩
  rw [Results.test_eq_ok] at h
  exact ⟨id, (Results.pure_eq_ok.1 h.2).symm⟩

theorem ringId_of_claimScore
    (h : claimScore claimId modelVersion fraudScore hint ringId rung explanation = .ok score) :
    score.ringId = ringId := by
  rcases claimScore_eq h with ⟨id, rfl⟩
  rfl

end

section

variable {svc : Services} {db : Db} (hr : db.Resolved svc.env) {rows : List LinkRow}
  (hrows : rows.Perm (fetchLinks db none))

include hr hrows

/-- A claim that has a score in the graph has a row in it. -/
theorem exists_row_of_scoreOne {claimId : UUID} {score : ClaimScore Double}
    (hapart : ∀ r ∈ db.refs, claimId ≠ r.1)
    (h : scoreOne svc.sc (Cache.of svc.sc (svc.graph db rows)) claimId = .ok (some score)) :
    ∃ r ∈ rows, r.claimId = claimId := by
  have htaken : score.claimId = claimId ∧ TakenFrom svc.sc.ig (svc.graph db rows) score := by
    cases scores_of_scoreOne h with
    | model built => exact takenFrom_of_buildModelScore built
    | rules built => exact takenFrom_of_buildScore built
  rcases htaken with ⟨rfl, i, v, shared, hv, hname, -, -⟩
  -- the vertex is that of a claim, for no entity has the id
  rcases mem_vertices.1 (List.mem_of_getElem? hv) with ⟨r, hmem, rfl⟩ | ⟨r, hmem, rfl⟩
  · exact ⟨r, hmem, UUID.toString_injective hname⟩
  · rcases (mem_links hr hrows).1 hmem with ⟨-, -, -, -, href, -⟩
    exact absurd (UUID.toString_injective hname).symm (hapart _ href)

/-- The ends of an edge are a claim and an entity that it has. -/
theorem exists_claim_of_edge {i j : ℕ} {u entity : Vertex Double}
    (hedge : (i, j) ∈ (svc.graph db rows).edges)
    (hi : (svc.graph db rows).vertices[i]? = some u)
    (hj : (svc.graph db rows).vertices[j]? = some entity) :
    ∃ claim ∈ db.claims, db.isInGraph none claim = true ∧ u.name = claim.id.toString ∧
      ∃ entityType value, entity.entityType = some entityType ∧
        entity.canonicalValue = some value ∧ canonicalValue svc.env claim entityType = some value ∧
        entity.degreeRaw = some (db.claimsWith svc.env none entityType value).length := by
  rcases joins_of_mem_edges hr hrows hedge hi hj with
    ⟨claim, hclaim, hin, -, hname, entityType, value, hkind, htype, hvalue, hcanonical⟩
  rcases eq_vertexOfEntity hr hrows (List.mem_of_getElem? hj) hkind with ⟨ref, -, rfl⟩
  rcases Option.some.inj htype with rfl
  rcases Option.some.inj hvalue with rfl
  exact ⟨claim, hclaim, hin, hname, _, _, rfl, rfl, hcanonical, rfl⟩

end

/-! ## What a piece says -/

/-- What the piece says of the claim is so: it has an entity whose value is masked like
this, so have the other claims that are named, and no fewer claims than were counted. -/
def Evidence.HoldsIn (env : Env) (db : Db) (claimId : UUID) : Evidence Double → Prop
  | .sharedEntity entityType entityValue entityDegree sharedWithClaimIds =>
      ∃ (T : EntityType) (value : String), entityType = T.name ∧
        entityValue = maskEntityValue value ∧
        (∃ claim ∈ db.claims, claim.id = claimId ∧ canonicalValue env claim T = some value) ∧
        sharedWithClaimIds.Nodup ∧ (∀ id ∈ sharedWithClaimIds, id ≠ claimId ∧
          ∃ other ∈ db.claims, other.id = id ∧ canonicalValue env other T = some value) ∧
        sharedWithClaimIds.length + 1 ≤ entityDegree ∧
        entityDegree ≤ (db.claimsWith env none T value).length
  | _ => True

/-- The claims with a value only become more. -/
theorem length_claimsWith_le {env : Env} {db db' : Db} (hr : db.Resolved env)
    (h : db.Within db') (entityType : EntityType) (value : String) :
    (db.claimsWith env none entityType value).length ≤
      (db'.claimsWith env none entityType value).length := by
  have hlength : ∀ claims : List Claim, claims.length = (claims.map Claim.id).length :=
    fun claims => (List.length_map Claim.id).symm
  rw [hlength, hlength (db'.claimsWith env none entityType value)]
  have hnodup : ((db.claimsWith env none entityType value).map Claim.id).Nodup :=
    hr.claimIds.sublist (List.filter_sublist.map _)
  refine (List.subperm_of_subset hnodup ?_).length_le
  intro id hid
  rcases List.mem_map.1 hid with ⟨claim, hmem, rfl⟩
  rcases List.mem_filter.1 hmem with ⟨hclaim, hhas⟩
  rw [Bool.and_eq_true, decide_eq_true_eq] at hhas
  rcases h.claims claim hclaim with ⟨status, hclaim'⟩
  refine List.mem_map.2 ⟨_, List.mem_filter.2 ⟨hclaim', ?_⟩, rfl⟩
  rw [Bool.and_eq_true, decide_eq_true_eq, canonicalValue_status, isInGraph_iff]
  exact ⟨⟨h.isLinked hr (isInGraph_iff.1 hhas.1).1, rfl⟩, hhas.2⟩

/-- What holds goes on to hold. -/
theorem Evidence.HoldsIn.mono {env : Env} {db db' : Db} {claimId : UUID} {e : Evidence Double}
    (he : e.HoldsIn env db claimId) (hr : db.Resolved env) (h : db.Within db') :
    e.HoldsIn env db' claimId := by
  have hhas : ∀ (id : UUID) (T : EntityType) (value : String),
      (∃ claim ∈ db.claims, claim.id = id ∧ canonicalValue env claim T = some value) →
      ∃ claim ∈ db'.claims, claim.id = id ∧ canonicalValue env claim T = some value := by
    rintro id T value ⟨claim, hclaim, hid, hvalue⟩
    rcases h.claims claim hclaim with ⟨status, hclaim'⟩
    exact ⟨_, hclaim', hid, by rwa [canonicalValue_status]⟩
  cases e with
  | sharedEntity entityType entityValue entityDegree sharedWithClaimIds =>
      rcases he with ⟨T, value, htype, hmask, hclaim, hnodup, hothers, hlength, hdegree⟩
      refine ⟨T, value, htype, hmask, hhas _ _ _ hclaim, hnodup, ?_, hlength,
        hdegree.trans (length_claimsWith_le hr h T value)⟩
      intro id hid
      exact ⟨(hothers id hid).1, hhas _ _ _ (hothers id hid).2⟩
  | ringMetric metric value baseline => trivial
  | featureContribution feature featureValue shapValue => trivial

/-- What an explanation says holds in the database it was made from. -/
theorem holdsIn_of_scoreOne {svc : Services} {db : Db} (hr : db.Resolved svc.env)
    {rows : List LinkRow} (hrows : rows.Perm (fetchLinks db none)) (hig : svc.sc.ig.FindsEdges)
    {claimId : UUID} {score : ClaimScore Double} (hapart : ∀ r ∈ db.refs, claimId ≠ r.1)
    (h : scoreOne svc.sc (Cache.of svc.sc (svc.graph db rows)) claimId = .ok (some score)) :
    ∀ e ∈ score.explanation.evidence, e.HoldsIn svc.env db claimId := by
  have hsound := rows_of_perm hr hrows
  rcases exists_row_of_scoreOne hr hrows hapart h with ⟨r, hmem, rfl⟩
  rcases exists_evidence hsound (fetchClaimAttributes svc.float db none) hig svc.log hmem with
    ⟨eids, items, hevidence, hitems⟩
  have hfilter := filter_of_scores hsound _ hitems (scores_of_scoreOne h)
  intro e he
  cases e with
  | ringMetric metric value baseline => trivial
  | featureContribution feature featureValue shapValue => trivial
  | sharedEntity entityType entityValue entityDegree sharedWithClaimIds =>
      have hitem : Evidence.sharedEntity entityType entityValue entityDegree sharedWithClaimIds ∈
          items := by
        rw [← hfilter]
        exact List.mem_filter.2 ⟨he, rfl⟩
      rcases Results.exists_of_forall₂ hevidence.shown hitem with ⟨eid, -, hshows, -⟩
      obtain ⟨j, entity, hedge, hj, htype, hmask, hdegree, hnodup, hothers, hlength, -⟩ := hshows
      have hplace : (svc.graph db rows).vertices[place rows r.claimId]? = some (claimVertex
          (fetchClaimAttributes svc.float db none) r.claimId.toString) :=
        vertex_place_claim hsound hmem
      -- the entity of the edge is the one the piece is about
      obtain ⟨claim, hclaim, -, hname, T, value, hT, hvalue, hcanonical, hcount⟩ :=
        exists_claim_of_edge hr hrows (List.mem_of_getElem? hedge) hplace hj
      have hid : r.claimId = claim.id := UUID.toString_injective hname
      rw [hT, Option.map_some, Option.some.injEq] at htype
      rw [hvalue, Option.map_some, Option.some.injEq] at hmask
      rw [hcount, Option.some.injEq] at hdegree
      refine ⟨T, value, htype.symm, hmask.symm, ⟨claim, hclaim, hid.symm, hcanonical⟩, hnodup, ?_,
        hlength, hdegree.ge⟩
      intro id hmember
      rcases hothers id hmember with ⟨k, u, hother, hne, hk, hu⟩
      obtain ⟨other, hotherMem, -, hname', T', value', hT', hvalue', hcanonical', -⟩ :=
        exists_claim_of_edge hr hrows hother hk hj
      rw [hT, Option.some.injEq] at hT'
      rw [hvalue, Option.some.injEq] at hvalue'
      subst hT' hvalue'
      rw [hu] at hname'
      have hid' : id = other.id := UUID.toString_injective hname'
      refine ⟨?_, other, hotherMem, hid'.symm, hcanonical'⟩
      -- another vertex has another name
      rintro rfl
      apply hne
      rw [((getElem?_vertices hsound).1 hk).2, hu]
      rfl

/-- What the explanation of a score in a trail says is so, and stays so: in every later state
of the run the claim has each of the entities shown, the claims named beside it are others
that have it too, and at least as many claims as were counted have it. -/
theorem explanations_stay_true (svc : Services)
    (hjsonb : ∀ text stored, svc.env.jsonb text = some stored → JsonbReturns text stored)
    (hig : svc.sc.ig.FindsEdges) (s₀ s : System) (events : List SystemEvent)
    (hinit : (pipeline svc).init s₀) (hrun : (pipeline svc).run s₀ events = some s)
    (row : ClaimAuditEvent) (hrow : row ∈ s.db.auditEvents) (htype : row.eventType = .fraudScored) :
    ∃ score : ClaimScore Double, row.Records svc.env score ∧
      ∀ e ∈ score.explanation.evidence, ∀ later s', (pipeline svc).run s later = some s' →
        e.HoldsIn svc.env s'.db row.claimId := by
  rcases (System.history_of_run hjsonb hinit hrun).rows row hrow htype with
    ⟨t, score, ⟨before, ⟨after, rfl⟩, ht⟩, ⟨rows, hperm, hscore⟩, hrecords, hsubmitted⟩
  rw [← hrecords.claimId] at hscore hsubmitted
  have hinv := System.inv_of_run (System.inv_of_init hinit) ht
  -- from the state the graph was built in to the one the trail is read in
  rw [Lts.run_append, ht, Option.bind_some] at hrun
  have hwithin := System.within_of_run hinv hrun
  have hinv' := System.inv_of_run hinv hrun
  have hapart := hwithin.apart hinv'.resolved hsubmitted.linked
  refine ⟨score, hrecords, fun e he later s' hlater => ?_⟩
  have hholds := holdsIn_of_scoreOne hinv.resolved hperm hig hapart hscore e he
  exact hholds.mono hinv.resolved (hwithin.trans (System.within_of_run hinv' hlater))

namespace Sample

/-- A request with the phone of the first one. -/
def sharingRequest : ClaimRequest :=
  { request with claimantName := "Ravi", claimantAddress := "7 Hill St" }

def secondDraws : CreateDraws where
  claimId := ⟨11⟩
  link := ⟨fun | .phone => ⟨12⟩ | .address => ⟨13⟩ | .shop => ⟨14⟩, fun _ => now⟩
  occurredAt := now
  outboxId := ⟨15⟩
  createdAt := now

def thirdDraws : CreateDraws where
  claimId := ⟨21⟩
  link := ⟨fun | .phone => ⟨22⟩ | .address => ⟨23⟩ | .shop => ⟨24⟩, fun _ => now⟩
  occurredAt := now
  outboxId := ⟨25⟩
  createdAt := now

/-- Two claims with one phone. -/
def twoSharing : Db := serve env created (.createClaim sharingRequest secondDraws)

/-- The first of two claims with one phone is scored, and then a third comes. -/
def sharingRun : List SystemEvent :=
  [.publishing (.createClaim request draws true),
    .publishing (.createClaim sharingRequest secondDraws true), .publishing (.readPending 0),
    .publishing (.send 0 .acknowledged), .startConsumer 0 (fetchLinks twoSharing none) true,
    .consume 0 0 (fetchLinks twoSharing none) true "2026-01-02T03:04:06Z" true, .deliver 0 now,
    .publishing (.createClaim sharingRequest thirdDraws true)]

/-- The row has the score of a claim, with the id of another one in its explanation. -/
def namesOther (row : ClaimAuditEvent) (claimId other : UUID) : Bool :=
  decide (row.eventType = .fraudScored ∧ row.claimId = claimId) &&
    row.explanationJson.any fun text => decide (other.toString.toList <:+: serialize text)

/-- The explanation names the claim that was there, and there are three at the end. -/
theorem exists_scored_sharing : ∃ s, (pipeline services).run stopped sharingRun = some s ∧
    s.db.claims.length = 3 ∧ ∃ row ∈ s.db.auditEvents, namesOther row ⟨1⟩ ⟨11⟩ = true := by
  have h : (((pipeline services).run stopped sharingRun).any fun s =>
      decide (s.db.claims.length = 3) && s.db.auditEvents.any (namesOther · ⟨1⟩ ⟨11⟩)) = true := by
    decide +kernel
  rcases (Option.any_eq_true _ _).1 h with ⟨s, hrun, hboth⟩
  rw [Bool.and_eq_true, decide_eq_true_eq, List.any_eq_true] at hboth
  exact ⟨s, hrun, hboth⟩

end Sample

/-- The explanation of the sample names a claim with the same phone, and stays true when a
third one comes. -/
theorem explanations_stay_true_sharing : ∃ s row,
    (pipeline Sample.services).run Sample.stopped Sample.sharingRun = some s ∧
      s.db.claims.length = 3 ∧ row ∈ s.db.auditEvents ∧ Sample.namesOther row ⟨1⟩ ⟨11⟩ = true ∧
      ∃ score : ClaimScore Double, row.Records Sample.services.env score ∧
        ∀ e ∈ score.explanation.evidence, ∀ later s',
          (pipeline Sample.services).run s later = some s' →
            e.HoldsIn Sample.services.env s'.db row.claimId := by
  rcases Sample.exists_scored_sharing with ⟨s, hrun, hlength, row, hrow, hnames⟩
  have htype : row.eventType = .fraudScored := by
    rw [Sample.namesOther, Bool.and_eq_true, decide_eq_true_eq] at hnames
    exact hnames.1.1
  exact ⟨s, row, hrun, hlength, hrow, hnames, explanations_stay_true Sample.services
    Sample.jsonb_storing Sample.findsEdges_ig Sample.stopped s Sample.sharingRun
    Sample.stopped_init hrun row hrow htype⟩

end ClaimGuard
