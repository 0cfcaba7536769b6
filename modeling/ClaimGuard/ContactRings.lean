import ClaimGuard.NeverSkipped
import ClaimGuard.TwoHop

/-!
# Rings in the terms of the claims

The rings of the first rung, said without the graph: claims are tied when they have one
phone or one repair shop, as it is normalized, and no more than fifty claims have it. Three
claims that are tied, over whatever chain, are a ring, and a detector without a model flags
each of them.
-/

namespace ClaimGuard

open ClaimService Floats RoundedFloats

/-- The claim is one of the graph. -/
def Db.InGraph (db : Db) (claim : Claim) : Prop :=
  claim ∈ db.claims ∧ db.isInGraph none claim = true

/-- The claims have one phone or one shop, which is not a common one. -/
def Db.SharesContact (env : Env) (db : Db) (c d : Claim) : Prop :=
  ∃ entityType value, (entityType = .phone ∨ entityType = .shop) ∧
    c ∈ db.claimsWith env none entityType value ∧ d ∈ db.claimsWith env none entityType value ∧
    (db.claimsWith env none entityType value).length ≤ 50

/-- There is a chain of such claims from one to the other. -/
def Db.Tied (env : Env) (db : Db) : Claim → Claim → Prop :=
  Relation.ReflTransGen (db.SharesContact env)

theorem Db.mem_claimsWith {env : Env} {db : Db} {claim : Claim} {entityType : EntityType}
    {value : String} : claim ∈ db.claimsWith env none entityType value ↔
      db.InGraph claim ∧ canonicalValue env claim entityType = some value := by
  unfold claimsWith InGraph
  rw [List.mem_filter, Bool.and_eq_true, decide_eq_true_eq, and_assoc]

theorem Db.Tied.inGraph {env : Env} {db : Db} {c d : Claim} (hc : db.InGraph c)
    (h : db.Tied env c d) : db.InGraph d := by
  induction h with
  | refl => exact hc
  | tail _ hshares _ =>
      rcases hshares with ⟨entityType, value, -, -, hd, -⟩
      exact (Db.mem_claimsWith.1 hd).1

/-! ## From the graph to the claims -/

section

variable {F : Type} {env : Env} {db : Db} (hr : db.Resolved env) {rows : List LinkRow}
  (hrows : rows.Perm (fetchLinks db none)) {idfWeight : ℕ → F} {float : BigDecimal → F}

include hr hrows

/-- A claim of the graph has a row: everyone has an address. -/
theorem exists_row_of_inGraph {claim : Claim} (hclaim : db.InGraph claim) :
    ∃ r ∈ rows, r.claimId = claim.id := by
  have haddress := canonicalValue_address env claim
  rcases hr.complete claim hclaim.1 (isInGraph_iff.1 hclaim.2).1 .address _ haddress with
    ⟨id, href, -⟩
  exact ⟨⟨claim.id, id, .address, _⟩,
    (mem_links hr hrows).2 ⟨claim, hclaim.1, hclaim.2, rfl, href, haddress⟩, rfl⟩

/-- The vertex at the place of a claim. -/
theorem vertex_place_of_inGraph {claim : Claim} (hclaim : db.InGraph claim) :
    (graphOf idfWeight float db none rows).vertices[place rows claim.id]? =
      some (vertexOfClaim float claim) := by
  rcases exists_row_of_inGraph hr hrows hclaim with ⟨r, hmem, hid⟩
  have hvertex : (graphOf idfWeight float db none rows).vertices[place rows r.claimId]? =
      some (claimVertex (fetchClaimAttributes float db none) r.claimId.toString) :=
    vertex_place_claim (rows_of_perm hr hrows) hmem
  rw [hid, claimVertex_eq hr float hclaim.1 (isInGraph_iff.1 hclaim.2).2] at hvertex
  exact hvertex

/-- The claims of the graph are at the places of the claims. -/
theorem isClaim_iff_inGraph {i : ℕ} : (graphOf idfWeight float db none rows).IsClaim i ↔
    ∃ claim, db.InGraph claim ∧ place rows claim.id = i := by
  constructor
  · rintro ⟨v, hv, hkind⟩
    rcases (getElem?_vertices (rows_of_perm hr hrows)).1 hv with ⟨hmem, rfl⟩
    rcases (mem_vertices_iff hr hrows).1 hmem with ⟨claim, hclaim, hin, rfl⟩ | ⟨ref, -, -, rfl⟩
    · exact ⟨claim, ⟨hclaim, hin⟩, rfl⟩
    · cases hkind
  · rintro ⟨claim, hclaim, rfl⟩
    exact ⟨_, vertex_place_of_inGraph hr hrows hclaim, rfl⟩

theorem place_inj_of_inGraph {c d : Claim} (hc : db.InGraph c) (hd : db.InGraph d)
    (h : place rows c.id = place rows d.id) : c = d := by
  have hname : ∀ {claim : Claim}, db.InGraph claim →
      claim.id.toString ∈ claimNames rows ++ entityNames rows := by
    intro claim hclaim
    rcases exists_row_of_inGraph hr hrows hclaim with ⟨r, hmem, hid⟩
    exact List.mem_append_left _ (mem_claimNames.2 ⟨r, hmem, by rw [hid]⟩)
  exact List.inj_on_of_nodup_map hr.claimIds hc.1 hd.1
    (place_inj (rows_of_perm hr hrows) (hname hc) (hname hd) h)

/-- The entity of a row is rare just where the claims with its value are few. -/
theorem rareEntity_iff {r : LinkRow} (hmem : r ∈ rows) :
    (graphOf idfWeight float db none rows).RareEntity (place rows r.entityId) ↔
      (r.entityType = .phone ∨ r.entityType = .shop) ∧
        (db.claimsWith env none r.entityType r.canonicalValue).length ≤ 50 := by
  have hsound := rows_of_perm hr hrows
  have hvertex : (graphOf idfWeight float db none rows).vertices[place rows r.entityId]? =
      some (entityVertex rows r.entityId.toString) :=
    vertex_place_entity hsound hmem
  have hdegree := degreeAt_place_entity hsound idfWeight (fetchClaimAttributes float db none) hmem
  rw [degree_eq hr hrows hmem] at hdegree
  unfold Graph.RareEntity
  rw [hdegree, hvertex, entityVertex_eq hsound hmem]
  simp

/-- Claims share a rare phone or shop of the graph just where they share a contact. -/
theorem sharesRare_place_iff {c d : Claim} (hc : db.InGraph c) (hd : db.InGraph d) :
    (graphOf idfWeight float db none rows).SharesRare (place rows c.id) (place rows d.id) ↔
      db.SharesContact env c d := by
  constructor
  · rintro ⟨e, hrare, hce, hde⟩
    rcases mem_edges_iff.1 hce with ⟨r, hmem, hrc, rfl⟩
    rcases mem_edges_iff.1 hde with ⟨s, hmem', hsd, hentity⟩
    have hsound := rows_of_perm hr hrows
    -- the rows are those of the claims, and of one entity
    rcases (mem_links hr hrows).1 hmem with ⟨c', hc', hin, hid, -, hvalue⟩
    rcases (mem_links hr hrows).1 hmem' with ⟨d', hd', hin', hid', -, hvalue'⟩
    rw [hid] at hrc
    rw [hid'] at hsd
    obtain rfl := place_inj_of_inGraph hr hrows ⟨hc', hin⟩ hc hrc
    obtain rfl := place_inj_of_inGraph hr hrows ⟨hd', hin'⟩ hd hsd
    have hsame := (place_entity_eq_iff hsound hmem' hmem).1 hentity
    obtain ⟨htype, hval⟩ := hsound.described s hmem' r hmem hsame
    rw [htype, hval] at hvalue'
    obtain ⟨hcontact, hfew⟩ := (rareEntity_iff hr hrows hmem).1 hrare
    exact ⟨r.entityType, r.canonicalValue, hcontact, Db.mem_claimsWith.2 ⟨hc, hvalue⟩,
      Db.mem_claimsWith.2 ⟨hd, hvalue'⟩, hfew⟩
  · rintro ⟨entityType, value, hcontact, hcw, hdw, hfew⟩
    have hvalue := (Db.mem_claimsWith.1 hcw).2
    have hvalue' := (Db.mem_claimsWith.1 hdw).2
    rcases hr.complete c hc.1 (isInGraph_iff.1 hc.2).1 entityType value hvalue with
      ⟨id, href, -⟩
    have hrow : ∀ {claim : Claim}, db.InGraph claim →
        canonicalValue env claim entityType = some value →
        (⟨claim.id, id, entityType, value⟩ : LinkRow) ∈ rows := fun hclaim hv =>
      (mem_links hr hrows).2 ⟨_, hclaim.1, hclaim.2, rfl, href, hv⟩
    refine ⟨place rows id, (rareEntity_iff hr hrows (hrow hc hvalue)).2 ⟨hcontact, hfew⟩, ?_, ?_⟩
    · exact mem_edges_iff.2 ⟨_, hrow hc hvalue, rfl, rfl⟩
    · exact mem_edges_iff.2 ⟨_, hrow hd hvalue', rfl, rfl⟩

/-- What a claim reaches are the places of the claims it is tied to. -/
theorem reaches_place_iff {c : Claim} (hc : db.InGraph c) {k : ℕ} :
    (graphOf idfWeight float db none rows).Reaches (place rows c.id) k ↔
      ∃ d, db.Tied env c d ∧ place rows d.id = k := by
  constructor
  · intro h
    induction h with
    | refl => exact ⟨c, .refl, rfl⟩
    | @tail _ k _ hshares ih =>
        rcases ih with ⟨d, htied, rfl⟩
        have hclaim : (graphOf idfWeight float db none rows).IsClaim k := by
          rcases hshares with ⟨e, -, -, hedge⟩
          exact Graph.isClaim_of_edge
            (claimGraph_buildGraph (rows_of_perm hr hrows) idfWeight _) hedge
        rcases (isClaim_iff_inGraph hr hrows).1 hclaim with ⟨d', hd', rfl⟩
        exact ⟨d', htied.tail ((sharesRare_place_iff hr hrows (htied.inGraph hc) hd').1 hshares),
          rfl⟩
  · rintro ⟨d, htied, rfl⟩
    induction htied with
    | refl => exact .refl
    | tail hbefore hshares ih =>
        have hmid := Db.Tied.inGraph hc hbefore
        have hend := Db.Tied.inGraph hc (hbefore.tail hshares)
        exact ih.tail ((sharesRare_place_iff hr hrows hmid hend).2 hshares)

/-- As many claims are reached as are tied. -/
theorem ncard_reaches_place {c : Claim} (hc : db.InGraph c) :
    {k | (graphOf idfWeight float db none rows).IsClaim k ∧
        (graphOf idfWeight float db none rows).Reaches (place rows c.id) k}.ncard =
      {d | db.Tied env c d}.ncard := by
  have himage : {k | (graphOf idfWeight float db none rows).IsClaim k ∧
        (graphOf idfWeight float db none rows).Reaches (place rows c.id) k} =
      (fun d : Claim => place rows d.id) '' {d | db.Tied env c d} := by
    ext k
    simp only [Set.mem_ofPred_eq, Set.mem_image, reaches_place_iff hr hrows hc]
    refine ⟨fun h => h.2, fun h => ⟨?_, h⟩⟩
    rcases h with ⟨d, htied, rfl⟩
    exact (isClaim_iff_inGraph hr hrows).2 ⟨d, htied.inGraph hc, rfl⟩
  rw [himage]
  apply Set.InjOn.ncard_image
  intro a ha b hb heq
  exact place_inj_of_inGraph hr hrows (Db.Tied.inGraph hc ha) (Db.Tied.inGraph hc hb) heq

end

/-! ## The score of a ring -/

section

variable {F : Type} [Floats F] [RoundedFloats F] {ig : Igraph F} {g : Graph F}

/-- A claim of a ring is flagged, with a ring. -/
theorem flagged_of_inRing (hig : ig.Answers) (hnames : (g.vertices.map Vertex.name).Nodup)
    {claimId ring : String} {verdict : ClaimVerdict F} (hring : InRing ig g claimId ring)
    (h : (claimId, verdict) ∈ detect ig g) :
    decisionHint verdict.fraudScore flagAt reviewAt = .flag ∧ verdict.ringId ≠ none := by
  have hkey := List.mem_map_of_mem (f := Prod.fst) hring
  unfold detect at h
  rw [detectWith_eq, List.mem_append, List.mem_append] at h
  rcases h with (hranked | hnear) | hclear
  · have hcandidate := (mem_rankedVerdicts.1 hranked).2
    have hsound := soundVerdict_of_candidate hig hnames hcandidate
    refine ⟨hsound.flagged hkey, hsound.ring.2 ?_⟩
    rcases (candidate_eq_some hcandidate).1 with ⟨ringId, -, rfl⟩ | hsecond
    · exact Or.inl rfl
    · have hmem := Dict.mem_of_get_eq_some hsecond
      rw [rung2Leiden_eq] at hmem
      rcases mem_partItems.1 hmem with ⟨k, part, -, -, -, rfl⟩
      exact Or.inr rfl
  · rcases mem_nearVerdicts.1 hnear with ⟨score, hscore, hnew, -, -⟩
    exact absurd hkey (not_covered (exists_of_mem_rung3Ppr hscore).1 hnew).1
  · rcases mem_clearVerdicts.1 hclear with ⟨hclaim, hnew, -⟩
    rw [List.map_append, List.mem_append, not_or] at hnew
    exact absurd hkey (not_covered hclaim hnew.1).1

omit [RoundedFloats F] in
/-- A score of the detector is that of the claim's verdict. -/
theorem verdict_of_buildScore {nameToIndex : List (String × ℕ)}
    {verdicts : List (String × ClaimVerdict F)} {claimId modelVersion : String}
    {score : ClaimScore F}
    (h : buildScore ig g nameToIndex verdicts claimId modelVersion = .ok (some score)) :
    ∃ verdict, (claimId, verdict) ∈ verdicts ∧ score.ringId = verdict.ringId ∧
      score.decisionHint = decisionHint verdict.fraudScore flagAt reviewAt := by
  unfold buildScore at h
  split at h
  · rename_i verdict index hverdict hindex
    simp only [Results.bind_eq_ok, Results.pure_eq_ok, Option.some.injEq] at h
    rcases h with ⟨shared, -, score', hscore, rfl⟩
    exact ⟨verdict, Dict.mem_of_get_eq_some hverdict, ringId_of_claimScore hscore,
      (carried_of_claimScore hscore).2.1⟩
  · cases h

end

/-- In every state of every run, when all dates can be read, the rings of the entity graph are
those of the claims themselves: a claim is in one just where three claims are tied to it,
through phones and shops that normalize alike and that no more than fifty claims have, and two
claims are in the same just where they are tied. Without a trained model such a claim has a
score, a flag with a ring. -/
theorem contact_rings (svc : Services) (hsc : svc.sc.Works)
    (hcomponents : svc.sc.ig.FindsComponents) (s₀ s : System) (events : List SystemEvent)
    (hinit : (pipeline svc).init s₀) (hrun : (pipeline svc).run s₀ events = some s)
    (hdates : ∀ claim ∈ s.db.claims, claim.incidentDate.InRange) (rows : List LinkRow)
    (hrows : rows.Perm (fetchLinks s.db none)) (c d : Claim) (hc : s.db.InGraph c)
    (hd : s.db.InGraph d) :
    ∃ g, svc.buildGraph s.db rows = some g ∧
      ((∃ ring, InRing svc.sc.ig g c.id.toString ring) ↔
        3 ≤ {e | s.db.Tied svc.env c e}.ncard) ∧
      (∀ ring ring', InRing svc.sc.ig g c.id.toString ring →
        InRing svc.sc.ig g d.id.toString ring' → (ring = ring' ↔ s.db.Tied svc.env c d)) ∧
      (svc.sc.classifier = none → 3 ≤ {e | s.db.Tied svc.env c e}.ncard →
        ∃ score, scoreOne svc.sc (Cache.of svc.sc g) c.id = .ok (some score) ∧
          score.decisionHint = .flag ∧ score.ringId ≠ none) := by
  have hr := (System.inv_of_run (System.inv_of_init hinit) hrun).resolved
  have hg : (svc.graph s.db rows).ClaimGraph := claimGraph_buildGraph (rows_of_perm hr hrows) _ _
  have hvertex : ∀ {claim : Claim}, s.db.InGraph claim →
      (svc.graph s.db rows).vertices[place rows claim.id]? = some (vertexOfClaim svc.float claim) :=
    fun hclaim => vertex_place_of_inGraph hr hrows hclaim
  have hexists : (∃ ring, InRing svc.sc.ig (svc.graph s.db rows) c.id.toString ring) ↔
      3 ≤ {e | s.db.Tied svc.env c e}.ncard := by
    rw [← ncard_reaches_place hr hrows hc]
    exact exists_inRing_iff hcomponents hg (hvertex hc) rfl
  refine ⟨_, svc.buildGraph_eq rows hdates, hexists, ?_, ?_⟩
  · intro ring ring' hring hring'
    rw [inRing_eq_iff hcomponents hg (hvertex hc) (hvertex hd) rfl rfl hring hring']
    refine (reaches_place_iff hr hrows hc).trans ⟨?_, fun htied => ⟨d, htied, rfl⟩⟩
    rintro ⟨e, htied, hplace⟩
    rwa [← place_inj_of_inGraph hr hrows (htied.inGraph hc) hd hplace]
  · intro hrules hthree
    rcases hexists.2 hthree with ⟨ring, hring⟩
    rcases exists_row_of_inGraph hr hrows hc with ⟨r, hmem, hid⟩
    rcases exists_scoreOne hr hrows hsc hmem with ⟨score, hscore⟩
    rw [hid] at hscore
    refine ⟨score, hscore, ?_⟩
    have hbuilt := hscore
    unfold scoreOne Cache.of refresh at hbuilt
    simp only [hrules] at hbuilt
    rcases verdict_of_buildScore hbuilt with ⟨verdict, hverdict, hringId, hhint⟩
    obtain ⟨hflag, hsome⟩ := flagged_of_inRing hsc.answers hg.names hring hverdict
    exact ⟨hhint.trans hflag, hringId ▸ hsome⟩

namespace Sample

/-- The ids of the `n`-th claim. -/
def drawsOf (n : ℕ) : CreateDraws where
  claimId := ⟨10 * n + 1⟩
  link := ⟨fun | .phone => ⟨10 * n + 2⟩ | .address => ⟨10 * n + 3⟩ | .shop => ⟨10 * n + 4⟩,
    fun _ => now⟩
  occurredAt := now
  outboxId := ⟨10 * n + 5⟩
  createdAt := now

/-- Three claims with one phone. -/
def trioRun : List SystemEvent :=
  (List.range 3).map fun n => .publishing (.createClaim request (drawsOf n) true)

/-- A detector that finds the components. -/
noncomputable def trioServices : Services :=
  ⟨storing, { ruleBased with ig := componentsIg }, log, fun amount => Floats.ofRat amount.value⟩

theorem works_trioServices : trioServices.sc.Works where
  edges := findsEdges_componentsIg
  answers := ⟨perm_components, answers_ig.partition, answers_ig.pagerank⟩
  probability := fun classifier h => by cases h

/-- The three claims have the phone. -/
theorem exists_trio : ∃ s, (pipeline trioServices).run stopped trioRun = some s ∧
    (s.db.claimsWith storing none .phone "+919876500011").map Claim.id = [⟨1⟩, ⟨11⟩, ⟨21⟩] ∧
    ∀ claim ∈ s.db.claims, claim.incidentDate.InRange := by
  have h : (((pipeline trioServices).run stopped trioRun).any fun s =>
      decide ((s.db.claimsWith storing none .phone "+919876500011").map Claim.id =
        [⟨1⟩, ⟨11⟩, ⟨21⟩]) && decide (∀ claim ∈ s.db.claims, claim.incidentDate.InRange)) =
        true := by
    decide +kernel
  rcases (Option.any_eq_true _ _).1 h with ⟨s, hrun, hboth⟩
  rw [Bool.and_eq_true, decide_eq_true_eq, decide_eq_true_eq] at hboth
  exact ⟨s, hrun, hboth⟩

/-- So they are tied. -/
theorem tied_trio : ∃ s c, (pipeline trioServices).run stopped trioRun = some s ∧
    (∀ claim ∈ s.db.claims, claim.incidentDate.InRange) ∧
    s.db.InGraph c ∧ 3 ≤ {e | s.db.Tied storing c e}.ncard := by
  rcases exists_trio with ⟨s, hrun, hids, hdates⟩
  obtain ⟨c, d, e, hclaims⟩ := List.length_eq_three.1 (by simpa using congrArg List.length hids)
  rw [hclaims] at hids
  simp only [List.map_cons, List.map_nil, List.cons.injEq, and_true] at hids
  obtain ⟨hc, hd, he⟩ := hids
  have hmem : ∀ claim ∈ [c, d, e],
      claim ∈ s.db.claimsWith storing none .phone "+919876500011" := fun claim h => hclaims ▸ h
  have hin := (Db.mem_claimsWith.1 (hmem c (by simp))).1
  have htied : ∀ claim ∈ [c, d, e], s.db.Tied storing c claim := fun claim h =>
    .single ⟨.phone, "+919876500011", Or.inl rfl, hmem c (by simp), hmem claim h, by simp [hclaims]⟩
  have hfinite : {e | s.db.Tied storing c e}.Finite :=
    s.db.claims.finite_toSet.subset fun e htied => (Db.Tied.inGraph hin htied).1
  refine ⟨s, c, hrun, hdates, hin, (Set.two_lt_ncard_iff hfinite).2 ⟨c, d, e, htied c (by simp),
    htied d (by simp), htied e (by simp), ?_, ?_, ?_⟩⟩ <;>
  · intro heq
    simp_all

end Sample

/-- The first claim of the three. -/
theorem contact_rings_trio : ∃ s c g, (pipeline Sample.trioServices).run Sample.stopped
      Sample.trioRun = some s ∧ s.db.InGraph c ∧
    Sample.trioServices.buildGraph s.db (fetchLinks s.db none) = some g ∧
    (∃ ring, InRing Sample.trioServices.sc.ig g c.id.toString ring) ∧
    ∃ score, scoreOne Sample.trioServices.sc (Cache.of Sample.trioServices.sc g) c.id =
        .ok (some score) ∧
      score.decisionHint = .flag ∧ score.ringId ≠ none := by
  rcases Sample.tied_trio with ⟨s, c, hrun, hdates, hc, hthree⟩
  obtain ⟨g, hg, hrings, -, hscore⟩ := contact_rings Sample.trioServices Sample.works_trioServices
    Sample.findsComponents_componentsIg Sample.stopped s Sample.trioRun Sample.stopped_init hrun
    hdates _ (List.Perm.refl _) c c hc hc
  exact ⟨s, c, g, hrun, hc, hg, hrings.2 hthree, hscore rfl hthree⟩

end ClaimGuard
