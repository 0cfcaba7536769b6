import ClaimGuard.Resolution
import ClaimGuard.Runs

/-!
# The HTTP endpoints

What each endpoint that writes checks, and the call of the service it makes with the
actor of the request. An auditor can make no transition, but the other two endpoints
do not look at the role: the auditor's request is read-only when it fails on its own.
-/

namespace ClaimGuard

open AuditService ClaimService

/-! ## Requests -/

/-- The principal of a request with a valid bearer token. -/
structure AuthenticatedActor where
  username : String
  role : ActorRole

/-- The body of a request to create a claim: what the client leaves out is null. -/
structure ClaimBody where
  claimantName : Option String
  policyNumber : Option String
  claimAmount : Option BigDecimal
  incidentDate : Option LocalDate
  claimantPhone : Option String
  claimantAddress : Option String
  repairShopName : Option String

/-- The body of a request to move a claim. -/
structure TransitionBody where
  toStatus : Option ClaimStatus
  reason : Option String

/-- The body of a request to record a narrative. -/
structure NarrativeBody where
  narrative : Option String
  grounded : Option Bool
  modelVersion : Option String

/-- A request to one of the endpoints that write, its body read, with what the service
draws while it handles it. -/
inductive HttpRequest where
  | createClaim (body : ClaimBody) (draws : CreateDraws)
  | transition (claimId : UUID) (body : TransitionBody) (now : Instant)
  | recordNarrative (claimId : UUID) (body : NarrativeBody) (now : Instant)

/-- Why a request does not reach the service. -/
inductive Rejection where
  | unauthorized (detail : String)
  | validationFailed
deriving DecidableEq, Repr

/-! ## Validation -/

/-- `@NotBlank`: not null, and some character is left after `trim()`. -/
def notBlank (value : Option String) : Option String :=
  value.filter fun s => s.toList.any fun c => decide (0x20 < c.toNat)

/-- `@Positive`, and `@NotNull`. -/
def positive (value : Option BigDecimal) : Option BigDecimal :=
  value.filter fun d => decide (0 < d.unscaled)

/-- `@Valid` on a `ClaimRequest`. -/
def ClaimBody.validate (body : ClaimBody) : Option ClaimRequest := do
  let claimantName ← notBlank body.claimantName
  let policyNumber ← notBlank body.policyNumber
  let claimAmount ← positive body.claimAmount
  let incidentDate ← body.incidentDate
  let claimantPhone ← notBlank body.claimantPhone
  let claimantAddress ← notBlank body.claimantAddress
  pure { claimantName, policyNumber, claimAmount, incidentDate, claimantPhone, claimantAddress,
         repairShopName := body.repairShopName }

/-- `@Valid` on a `TransitionRequest`: the status is there. -/
def TransitionBody.validate (body : TransitionBody) : Option (ClaimStatus × Option String) := do
  let toStatus ← body.toStatus
  pure (toStatus, body.reason)

/-- `@Valid` on a `NarrativeAuditRequest`. -/
def NarrativeBody.validate (body : NarrativeBody) : Option (String × Bool × String) := do
  let narrative ← notBlank body.narrative
  let grounded ← body.grounded
  let modelVersion ← notBlank body.modelVersion
  pure (narrative, grounded, modelVersion)

/-! ## The controller -/

namespace ClaimController

/-- What the filter chain answers when a protected endpoint is called without a valid
token. -/
def unauthorized : Rejection :=
  .unauthorized "A valid Bearer token is required for this request."

/-- `createClaim`: open to everyone. -/
def createClaim (body : ClaimBody) (draws : CreateDraws) : Except Rejection Call :=
  match body.validate with
  | none => throw .validationFailed
  | some request => pure (.createClaim request draws)

/-- `transition`: the one endpoint that needs an authenticated actor. -/
def transition (authentication : Option AuthenticatedActor) (claimId : UUID)
    (body : TransitionBody) (now : Instant) : Except Rejection Call :=
  match authentication with
  | none => throw unauthorized
  | some actor =>
      match body.validate with
      | none => throw .validationFailed
      | some (toStatus, reason) =>
          pure (.onClaim claimId (.transition toStatus reason actor.username actor.role) now)

/-- `recordNarrative`: open to everyone, in the name of the actor if there is one. -/
def recordNarrative (authentication : Option AuthenticatedActor) (claimId : UUID)
    (body : NarrativeBody) (now : Instant) : Except Rejection Call :=
  match body.validate with
  | none => throw .validationFailed
  | some (narrative, grounded, modelVersion) =>
      let actor := authentication.getD ⟨"anonymous", .system⟩
      pure (.onClaim claimId
        (.narrative (some narrative) grounded (some modelVersion) actor.username actor.role) now)

/-- The endpoint of a request. -/
def handle (authentication : Option AuthenticatedActor) : HttpRequest → Except Rejection Call
  | .createClaim body draws => createClaim body draws
  | .transition claimId body now => transition authentication claimId body now
  | .recordNarrative claimId body now => recordNarrative authentication claimId body now

end ClaimController

/-- What the service receives: a request, made anonymously or by an actor, or a score. -/
inductive Input where
  | http (authentication : Option AuthenticatedActor) (request : HttpRequest)
  | applyScore (claimId : UUID) (fraudScore : Option BigDecimal)
      (decisionHint ringId : Option String) (explanationJson : Option RawJson)
      (modelVersion : Option String) (now : Instant)

/-- The database after an input: a rejected request leaves it alone. -/
def receive (env : Env) (db : Db) : Input → Db
  | .http authentication request =>
      match ClaimController.handle authentication request with
      | .error _ => db
      | .ok call => serve env db call
  | .applyScore claimId fraudScore decisionHint ringId explanationJson modelVersion now =>
      serve env db
        (.onClaim claimId (.score fraudScore decisionHint ringId explanationJson modelVersion) now)

/-- The service behind its endpoints, started on a database with no claims. -/
def api (env : Env) : Lts Db Input where
  init db := db.claims = [] ∧ db.auditEvents = []
  step db input := some (receive env db input)

/-! ## Who acts -/

/-- The role an operation is made in. -/
def Op.actorRole : Op → ActorRole
  | .transition _ _ _ actorRole => actorRole
  | .score _ _ _ _ _ => .system
  | .narrative _ _ _ _ actorRole => actorRole

/-- An event records the role of its operation. -/
theorem decideOp_actorRole {op : Op} {claim : Claim} {decision : Decision}
    (h : decideOp op claim = .ok decision) : decision.entry.actorRole = op.actorRole := by
  cases op with
  | transition toStatus reason actorId actorRole =>
      simp only [decideOp, decideTransition, Results.guard_eq_ok, Results.pure_eq_ok] at h
      rcases h with ⟨-, -, -, rfl⟩
      simp only [Op.actorRole]
  | score fraudScore decisionHint ringId explanationJson modelVersion =>
      rcases Results.pure_eq_ok.1 h with rfl
      simp only [decideScore, Op.actorRole]
  | narrative narrative grounded modelVersion actorId actorRole =>
      rcases Results.pure_eq_ok.1 h with rfl
      simp only [decideNarrative, Op.actorRole]

/-- An auditor makes no transition. -/
theorem decideOp_transition_auditor {toStatus : ClaimStatus} {reason : Option String}
    {actorId : String} {claim : Claim} {decision : Decision} :
    decideOp (.transition toStatus reason actorId .auditor) claim ≠ .ok decision := by
  intro h
  simp only [decideOp, decideTransition, Results.guard_eq_ok] at h
  rcases h with ⟨-, hallowed, -⟩
  rw [ClaimTransitions.isAllowed_auditor] at hallowed
  exact hallowed rfl

/-! ## What an auditor's request does -/

/-- A request that nothing stops, made by the actor: a claim that passes validation, that
the columns hold and whose phone is accepted, or a narrative that passes validation and
that the columns hold, for an existing claim. -/
def Unstopped (env : Env) (db : Db) (actor : AuthenticatedActor) : HttpRequest → Prop
  | .createClaim body draws => ∃ request, body.validate = some request ∧
      (Db.claimTexts (claimOf draws.claimId request)).all Db.isText = true ∧
      Db.isDate request.incidentDate = true ∧
      (request.claimAmount.numeric 14 2).isSome ∧ (env.normalizePhone request.claimantPhone).isSome
  | .transition _ _ _ => False
  | .recordNarrative claimId body _ => ∃ narrative grounded modelVersion,
      body.validate = some (narrative, grounded, modelVersion) ∧ (db.findById claimId).isSome ∧
      Db.isText actor.username = true ∧ Db.isText modelVersion = true ∧
      (env.jsonb (narrativeJson (some narrative) grounded)).isSome

/-- No auditor's request is unstopped. -/
def AuditorStopped (env : Env) (db : Db) : Input → Prop
  | .http (some actor) request => actor.role = .auditor → ¬ Unstopped env db actor request
  | _ => True

/-- An input that an auditor makes. -/
def Input.byAuditor : Input → Prop
  | .http (some actor) _ => actor.role = .auditor
  | _ => False

/-- The claims and the audit trails are as they were. -/
def SameRecords (db db' : Db) : Prop :=
  db'.claims = db.claims ∧ db'.auditEvents = db.auditEvents

/-- A claim that was created passed the checks of its columns and its phone. -/
theorem checks_of_createClaim {env : Env} {db db' : Db} {request : ClaimRequest}
    {draws : CreateDraws} (h : createClaim env db request draws = .ok db') :
    (Db.claimTexts (claimOf draws.claimId request)).all Db.isText = true ∧
      Db.isDate request.incidentDate = true ∧ (request.claimAmount.numeric 14 2).isSome ∧
      (env.normalizePhone request.claimantPhone).isSome := by
  unfold createClaim at h
  rcases Results.bind_eq_ok.1 h with ⟨db₁, hinsert, h⟩
  rcases Results.bind_eq_ok.1 h with ⟨db₂, hresolve, -⟩
  rcases normalizePhone_of_resolveAndLink hresolve with ⟨phone, hphone, -⟩
  unfold Db.insertClaim at hinsert
  rw [Results.test_eq_ok, Results.test_eq_ok] at hinsert
  refine ⟨hinsert.1, hinsert.2.1, ?_, Option.isSome_of_eq_some hphone⟩
  cases hamount : request.claimAmount.numeric 14 2 with
  | none => simp [claimOf, hamount] at hinsert
  | some amount => rfl

/-- A narrative that was recorded is of an existing claim, and the columns hold it. -/
theorem checks_of_recordNarrative {env : Env} {db db' : Db} {claimId : UUID} {narrative : String}
    {grounded : Bool} {modelVersion actorId : String} {actorRole : ActorRole} {now : Instant}
    (h : recordNarrative env db claimId (some narrative) grounded (some modelVersion) actorId
      actorRole now = .ok db') :
    (db.findById claimId).isSome ∧ Db.isText actorId = true ∧ Db.isText modelVersion = true ∧
      (env.jsonb (narrativeJson (some narrative) grounded)).isSome := by
  obtain ⟨claim, decision, event, row, hclaim, hdecide, hevent, hrow, -⟩ := perform_ok h
  rcases Results.pure_eq_ok.1 hdecide with rfl
  rcases nextEvent_ok hevent with ⟨json, hjson, rfl⟩
  rcases Results.pure_eq_ok.1 hjson with rfl
  have hstored := (Db.storeAuditEvent_ok hrow).2.1
  unfold Db.storeAuditEvent at hrow
  rw [Results.test_eq_ok] at hrow
  have htexts := hrow.1
  simp only [Db.auditTexts, sealEvent, draftEvent, decideNarrative, Option.toList_none,
    Option.toList_some, List.append_nil, List.nil_append, List.all_cons, List.all_nil,
    Bool.and_eq_true] at htexts
  refine ⟨Option.isSome_of_eq_some hclaim, htexts.1, htexts.2.1, ?_⟩
  cases hjsonb : env.jsonb (narrativeJson (some narrative) grounded) with
  | none => simp [sealEvent, draftEvent, Db.storeOption, hjsonb] at hstored
  | some json => rfl

/-- An auditor's call that commits was not stopped. -/
theorem unstopped_of_execute {env : Env} {db db' : Db} {actor : AuthenticatedActor}
    {request : HttpRequest} {call : Call} (hrole : actor.role = .auditor)
    (hcall : ClaimController.handle (some actor) request = .ok call)
    (h : execute env db call = .ok db') : Unstopped env db actor request := by
  cases request with
  | createClaim body draws =>
      simp only [ClaimController.handle, ClaimController.createClaim] at hcall
      cases hvalid : body.validate with
      | none => simp [hvalid] at hcall
      | some request =>
          simp only [hvalid, Results.pure_eq_ok] at hcall
          subst hcall
          exact ⟨request, hvalid, checks_of_createClaim h⟩
  | transition claimId body now =>
      simp only [ClaimController.handle, ClaimController.transition] at hcall
      cases hvalid : body.validate with
      | none => simp [hvalid] at hcall
      | some valid =>
          simp only [hvalid, Results.pure_eq_ok] at hcall
          subst hcall
          rw [hrole] at h
          -- the transition map has no entry for an auditor
          obtain ⟨claim, decision, -, -, -, hdecide, -⟩ := perform_ok h
          exact absurd hdecide decideOp_transition_auditor
  | recordNarrative claimId body now =>
      simp only [ClaimController.handle, ClaimController.recordNarrative] at hcall
      cases hvalid : body.validate with
      | none => simp [hvalid] at hcall
      | some valid =>
          rcases valid with ⟨narrative, grounded, modelVersion⟩
          simp only [hvalid, Results.pure_eq_ok] at hcall
          subst hcall
          exact ⟨narrative, grounded, modelVersion, hvalid, checks_of_recordNarrative h⟩

/-- A stopped request of an auditor changes nothing. -/
theorem sameRecords_of_stopped {env : Env} {db : Db} {input : Input} (hauditor : input.byAuditor)
    (hstopped : AuditorStopped env db input) : SameRecords db (receive env db input) := by
  cases input with
  | applyScore => exact hauditor.elim
  | http authentication request =>
      cases authentication with
      | none => exact hauditor.elim
      | some actor =>
          simp only [receive]
          cases hcall : ClaimController.handle (some actor) request with
          | error rejection => exact ⟨rfl, rfl⟩
          | ok call =>
              simp only [serve]
              cases hexec : execute env db call with
              | error failure => exact ⟨rfl, rfl⟩
              | ok db' =>
                  exact absurd (unstopped_of_execute hauditor hcall hexec) (hstopped hauditor)

/-- A call that an endpoint makes is made in the role of its actor. -/
theorem actorRole_of_handle {authentication : Option AuthenticatedActor} {request : HttpRequest}
    {claimId : UUID} {op : Op} {now : Instant}
    (h : ClaimController.handle authentication request = .ok (.onClaim claimId op now)) :
    op.actorRole = (authentication.map AuthenticatedActor.role).getD .system := by
  cases request with
  | createClaim body draws =>
      simp only [ClaimController.handle, ClaimController.createClaim] at h
      split at h <;> cases h
  | transition claimId body now =>
      simp only [ClaimController.handle, ClaimController.transition] at h
      split at h
      · cases h
      · split at h <;> cases h
        rfl
  | recordNarrative claimId body now =>
      simp only [ClaimController.handle, ClaimController.recordNarrative] at h
      split at h <;> cases h
      cases authentication <;> rfl

/-- What an input that no auditor makes does. -/
theorem effect_of_receive {env : Env} {db : Db} {input : Input} (hc : Consistent db)
    (h : ¬ input.byAuditor) :
    ClaimEffect env (fun op => op.actorRole ≠ .auditor) db (receive env db input) := by
  cases input with
  | applyScore claimId fraudScore decisionHint ringId explanationJson modelVersion now =>
      apply effect_of_serve hc
      intro id op now heq
      cases heq
      simp [Op.actorRole]
  | http authentication request =>
      simp only [receive]
      cases hcall : ClaimController.handle authentication request with
      | error rejection => exact .unchanged rfl rfl
      | ok call =>
          apply effect_of_serve hc
          rintro id op now rfl
          rw [actorRole_of_handle hcall]
          cases authentication with
          | none => simp
          | some actor => exact h

/-! ## Runs -/

/-- What holds along a run in which every auditor is stopped. -/
structure AuditorReadOnly (db : Db) : Prop where
  consistent : Consistent db
  noEvent : ∀ e ∈ db.auditEvents, e.actorRole ≠ .auditor

/-- An event that is appended was not made by an auditor when its operation was not. -/
theorem ClaimEffect.noEvent {env : Env} {db db' : Db}
    (h : ClaimEffect env (fun op => op.actorRole ≠ .auditor) db db')
    (hnone : ∀ e ∈ db.auditEvents, e.actorRole ≠ .auditor) :
    ∀ e ∈ db'.auditEvents, e.actorRole ≠ .auditor := by
  cases h with
  | unchanged hclaims hevents => rwa [hevents]
  | loaded claim hnew hstatus hclaims hevents => rwa [hevents]
  | created claim event row now hnew hstatus hevent hrow hclaims hevents =>
      intro e he
      rw [hevents] at he
      rcases List.mem_append.1 he with he | he
      · exact hnone e he
      · rw [List.mem_singleton.1 he, (nextRow_of_stored hevent hrow).actorRole_eq]
        simp [createdEntry]
  | appended claim op decision event row now hop hclaim hdecide hevent hrow hdup hclaims hevents =>
      intro e he
      rw [hevents] at he
      rcases List.mem_append.1 he with he | he
      · exact hnone e he
      · rw [List.mem_singleton.1 he, (nextRow_of_stored hevent hrow).actorRole_eq,
          decideOp_actorRole hdecide]
        exact hop

/-- One input of a run. -/
theorem AuditorReadOnly.receive {env : Env} {db : Db} {input : Input} (h : AuditorReadOnly db)
    (hstopped : AuditorStopped env db input) : AuditorReadOnly (receive env db input) := by
  by_cases hauditor : input.byAuditor
  · obtain ⟨hclaims, hevents⟩ := sameRecords_of_stopped hauditor hstopped
    have heffect : ClaimEffect env (fun _ => True) db (ClaimGuard.receive env db input) :=
      .unchanged hclaims hevents
    refine ⟨heffect.consistent h.consistent, ?_⟩
    rw [hevents]
    exact h.noEvent
  · have heffect : ClaimEffect env (fun op => op.actorRole ≠ .auditor) db
        (ClaimGuard.receive env db input) := effect_of_receive h.consistent hauditor
    exact ⟨heffect.consistent h.consistent, heffect.noEvent h.noEvent⟩

/-- In every run of requests and scores in which no auditor's request is unstopped: no
auditor's request changes a claim or appends an event, and no event that a run leads to is
an auditor's. -/
theorem auditor_readOnly (env : Env) (db₀ db : Db) (inputs : List Input)
    (hinit : (api env).init db₀) (hrun : (api env).run db₀ inputs = some db)
    (hstopped : (api env).Along (AuditorStopped env) db₀ inputs) :
    (api env).Along (fun db input => input.byAuditor → SameRecords db (receive env db input))
        db₀ inputs ∧
      ∀ e ∈ db.auditEvents, e.actorRole ≠ .auditor := by
  constructor
  · exact hstopped.imp fun _ _ h hauditor => sameRecords_of_stopped hauditor h
  · have hreadOnly : AuditorReadOnly db₀ := by
      refine ⟨consistent_of_init hinit.1 hinit.2, ?_⟩
      simp [hinit.2]
    refine (Lts.run_invariant_along (I := AuditorReadOnly) ?_ hreadOnly hstopped hrun).noEvent
    intro s input s' hs hP hstep
    rcases Option.some.inj hstep with rfl
    exact hs.receive hP

namespace Sample

def auditor : AuthenticatedActor := ⟨"auditor1", .auditor⟩

/-- The sample claim, submitted without a token. -/
def submit : Input :=
  .http none (.createClaim
    { claimantName := some "Asha", policyNumber := some "P-1", claimAmount := some ⟨12500, 2⟩,
      incidentDate := some ⟨20454⟩, claimantPhone := some "+919876500011",
      claimantAddress := some "12 MG Rd", repairShopName := none } draws)

/-- The auditor tries to move the claim. -/
def auditorMoves : Input :=
  .http (some auditor) (.transition ⟨1⟩ ⟨some .underReview, none⟩ now)

/-- The auditor records a narrative of the claim. -/
def auditorNarrates : Input :=
  .http (some auditor) (.recordNarrative ⟨1⟩
    ⟨some "The phone is shared with two claims.", some true, some "ollama:llama3.2:3b"⟩ now)

/-- The database after the auditor recorded the narrative. -/
def narrated : Db := receive env (receive env Db.empty submit) auditorNarrates

/-- The trail of the claim ends with an event of the auditor. -/
theorem narrated_auditor : ∃ e ∈ narrated.auditEvents, e.actorRole = .auditor := by
  have hroles : narrated.auditEvents.map ClaimAuditEvent.actorRole = [.system, .auditor] := by
    decide +kernel
  have hmem : ActorRole.auditor ∈ narrated.auditEvents.map ClaimAuditEvent.actorRole := by
    rw [hroles]
    simp
  simpa using hmem

end Sample

/-- An auditor who may not move the claim leaves it and its trail as they were. -/
theorem auditor_readOnly_moves :
    (api Sample.env).Along
        (fun db input => input.byAuditor → SameRecords db (receive Sample.env db input))
        Db.empty [Sample.submit, Sample.auditorMoves] ∧
      ∀ e ∈ (receive Sample.env (receive Sample.env Db.empty Sample.submit)
        Sample.auditorMoves).auditEvents, e.actorRole ≠ .auditor := by
  refine auditor_readOnly Sample.env Db.empty _ [Sample.submit, Sample.auditorMoves] ⟨rfl, rfl⟩ rfl
    ⟨trivial, fun db _ => ⟨?_, fun _ _ => trivial⟩⟩
  intro hrole hunstopped
  exact hunstopped

/-- An auditor's narrative becomes an event of the trail. -/
theorem auditor_narrates : ¬ ∀ (db₀ db : Db) (inputs : List Input), (api Sample.env).init db₀ →
    (api Sample.env).run db₀ inputs = some db →
    (api Sample.env).Along
        (fun db input => input.byAuditor → SameRecords db (receive Sample.env db input))
        db₀ inputs ∧
      ∀ e ∈ db.auditEvents, e.actorRole ≠ .auditor := by
  intro hall
  rcases Sample.narrated_auditor with ⟨e, he, hrole⟩
  exact (hall Db.empty Sample.narrated [Sample.submit, Sample.auditorNarrates] ⟨rfl, rfl⟩ rfl).2
    e he hrole

end ClaimGuard
