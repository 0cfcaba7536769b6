import ClaimGuard.AuditService
import ClaimGuard.EntityService
import ClaimGuard.Workflow

/-!
# The claim service

Claim intake, workflow transitions, scoring results and narratives. What a
transaction decides from the claim row it has locked is a function of its own,
because the interleaved model needs it apart from the reads and writes around it.
-/

namespace ClaimGuard

/-- What `createClaim` draws: identifiers and instants. -/
structure CreateDraws where
  claimId : UUID
  link : LinkDraws
  occurredAt : Instant
  outboxId : UUID
  createdAt : Instant

/-- What a transaction on a claim decides: the claim it saves, if any, and the
audit entry it appends. -/
structure Decision where
  saved : Option Claim
  entry : AuditEntry

/-- The operations on an existing claim. -/
inductive Op where
  | transition (toStatus : ClaimStatus) (reason : Option String) (actorId : String)
      (actorRole : ActorRole)
  | score (fraudScore : Option BigDecimal) (decisionHint ringId : Option String)
      (explanationJson : Option RawJson) (modelVersion : Option String)
  | narrative (narrative : Option String) (grounded : Bool) (modelVersion : Option String)
      (actorId : String) (actorRole : ActorRole)

namespace ClaimService

/-- `INTAKE_ACTOR_ID`. -/
def intakeActorId : String := "intake-system"

/-- `SCORING_ACTOR_ID`. -/
def scoringActorId : String := "scoring-service"

/-- `CLAIM_SUBMITTED_TOPIC`. -/
def claimSubmittedTopic : String := "claim.submitted"

/-- The failure of a lookup. -/
def claimNotFound (claimId : UUID) : Failure :=
  .responseStatus .notFound ("Claim not found: " ++ claimId.toString)

/-- The claim a request asks for, in its initial status. -/
def claimOf (id : UUID) (request : ClaimRequest) : Claim where
  id := id
  claimantName := request.claimantName
  policyNumber := request.policyNumber
  claimAmount := request.claimAmount
  incidentDate := request.incidentDate
  claimantPhone := request.claimantPhone
  claimantAddress := request.claimantAddress
  repairShopName := request.repairShopName
  status := .submitted

/-- The first entry of a claim's trail. -/
def createdEntry (status : ClaimStatus) : AuditEntry where
  eventType := .claimCreated
  fromStatus := none
  toStatus := some status
  actorId := intakeActorId
  actorRole := .system
  reason := none
  fraudScore := none
  ringId := none
  explanationJson := none
  modelVersion := none

/-- `createClaim`: the claim, its entity links, its first audit event and its
outbox row, in one transaction. -/
def createClaim (env : Env) (db : Db) (request : ClaimRequest) (draws : CreateDraws) :
    Except Failure Db := do
  let claim := claimOf draws.claimId request
  let db ← db.insertClaim claim
  let db ← EntityService.resolveAndLink env draws.link db claim
  let db ← AuditService.append env db claim.id (createdEntry claim.status) draws.occurredAt
  OutboxService.enqueue env db draws.outboxId claim.id claimSubmittedTopic
    (OutboxService.claimSubmittedPayload claim.id) draws.createdAt

/-- What `transitionStatus` decides: the pair must be a transition (409), the role
must be allowed to make it (403), and an override needs a reason (400). -/
def decideTransition (claim : Claim) (toStatus : ClaimStatus) (reason : Option String)
    (actorId : String) (actorRole : ActorRole) : Except Failure Decision :=
  let fromStatus := claim.status
  let isOverride := ClaimTransitions.requiresReason fromStatus toStatus
  if !ClaimTransitions.isDefined fromStatus toStatus then
    throw (.responseStatus .conflict
      ("No such transition: " ++ fromStatus.name ++ " -> " ++ toStatus.name))
  else if !ClaimTransitions.isAllowed fromStatus toStatus actorRole then
    throw (.responseStatus .forbidden
      (actorRole.name ++ " may not perform " ++ fromStatus.name ++ " -> " ++ toStatus.name))
  else if isOverride && (reason.map isBlank).getD true then
    throw (.responseStatus .badRequest
      ("A reason is required to override " ++ fromStatus.name ++ " -> " ++ toStatus.name))
  else
    pure
      { saved := some { claim with status := toStatus }
        entry :=
          { eventType := if isOverride then .humanOverride else .statusChanged
            fromStatus := some fromStatus
            toStatus := some toStatus
            actorId := actorId
            actorRole := actorRole
            reason := reason
            fraudScore := none
            ringId := none
            explanationJson := none
            modelVersion := none } }

/-- What `applyScore` decides: it moves the claim only where the system may, and
records the score either way. -/
def decideScore (claim : Claim) (fraudScore : Option BigDecimal)
    (decisionHint ringId : Option String) (explanationJson : Option RawJson)
    (modelVersion : Option String) : Decision :=
  let fromStatus := claim.status
  let targetStatus := if decisionHint = some "FLAG" then ClaimStatus.flagged else .underReview
  -- a claim that people have moved stays where it is
  let moves := ClaimTransitions.isAllowed fromStatus targetStatus .system
  { saved := if moves then some { claim with status := targetStatus } else none
    entry :=
      { eventType := .fraudScored
        fromStatus := some fromStatus
        toStatus := some (if moves then targetStatus else fromStatus)
        actorId := scoringActorId
        actorRole := .system
        reason := none
        fraudScore := fraudScore
        ringId := ringId
        explanationJson := explanationJson
        modelVersion := modelVersion } }

/-- The explanation of a narrative: a map with two entries, as JSON. -/
def narrativeJson (narrative : Option String) (grounded : Bool) : JsonText :=
  .obj [("narrative", match narrative with
      | none => .null
      | some s => .str s),
    ("grounded", .bool grounded)]

/-- What `recordNarrative` decides: never a transition. -/
def decideNarrative (claim : Claim) (narrative : Option String) (grounded : Bool)
    (modelVersion : Option String) (actorId : String) (actorRole : ActorRole) : Decision where
  saved := none
  entry :=
    { eventType := .narrativeGenerated
      fromStatus := some claim.status
      toStatus := some claim.status
      actorId := actorId
      actorRole := actorRole
      reason := none
      fraudScore := none
      ringId := none
      explanationJson := some (.text (narrativeJson narrative grounded))
      modelVersion := modelVersion }

/-- What an operation decides from the claim row it has locked. -/
def decideOp (op : Op) (claim : Claim) : Except Failure Decision :=
  match op with
  | .transition toStatus reason actorId actorRole =>
      decideTransition claim toStatus reason actorId actorRole
  | .score fraudScore decisionHint ringId explanationJson modelVersion =>
      pure (decideScore claim fraudScore decisionHint ringId explanationJson modelVersion)
  | .narrative narrative grounded modelVersion actorId actorRole =>
      pure (decideNarrative claim narrative grounded modelVersion actorId actorRole)

/-- What a decision does to the claim and says about it: its entry goes from the
claim's status to the status the claim is saved with. -/
theorem decideOp_ok {op : Op} {claim : Claim} {decision : Decision}
    (h : decideOp op claim = .ok decision) :
    ∃ toStatus, decision.entry.fromStatus = some claim.status ∧
      decision.entry.toStatus = some toStatus ∧
      (decision.saved = some { claim with status := toStatus } ∨
        decision.saved = none ∧ toStatus = claim.status) := by
  cases op with
  | transition toStatus reason actorId actorRole =>
      simp only [decideOp, decideTransition, Results.guard_eq_ok, Results.pure_eq_ok] at h
      rcases h with ⟨-, -, -, rfl⟩
      exact ⟨toStatus, rfl, rfl, Or.inl rfl⟩
  | score fraudScore decisionHint ringId explanationJson modelVersion =>
      rcases Results.pure_eq_ok.1 h with rfl
      refine ⟨_, rfl, rfl, ?_⟩
      unfold decideScore
      simp only
      -- whichever status the hint asks for, the claim moves to it or stays
      generalize (if decisionHint = some "FLAG" then ClaimStatus.flagged else .underReview) = target
      cases ClaimTransitions.isAllowed claim.status target .system with
      | true => exact Or.inl rfl
      | false => exact Or.inr ⟨rfl, rfl⟩
  | narrative narrative grounded modelVersion actorId actorRole =>
      rcases Results.pure_eq_ok.1 h with rfl
      exact ⟨claim.status, rfl, rfl, Or.inr ⟨rfl, rfl⟩⟩

/-- The entry of a decision goes from the claim's status to the status after it; a decision
that saves nothing records the status that the claim has. -/
theorem decideOp_statuses {op : Op} {claim : Claim} {decision : Decision}
    (h : decideOp op claim = .ok decision) :
    decision.entry.fromStatus = some claim.status ∧
      decision.entry.toStatus = some (decision.saved.getD claim).status := by
  rcases decideOp_ok h with ⟨toStatus, hfrom, hto, hsaved | ⟨hsaved, hsame⟩⟩
  · exact ⟨hfrom, by rw [hto, hsaved]; rfl⟩
  · exact ⟨hfrom, by rw [hto, hsaved, hsame]; rfl⟩

/-- The claim row of a decision, written. -/
def save (db : Db) (saved : Option Claim) : Db :=
  match saved with
  | none => db
  | some claim => db.saveClaim claim

theorem auditEvents_save (db : Db) (saved : Option Claim) :
    (save db saved).auditEvents = db.auditEvents := by
  cases saved <;> rfl

/-- The transaction of an operation from the locked read on: find the claim,
decide, save it, append the event. -/
def perform (env : Env) (db : Db) (claimId : UUID) (op : Op) (now : Instant) :
    Except Failure Db :=
  match db.findById claimId with
  | none => throw (claimNotFound claimId)
  | some claim => do
      let decision ← decideOp op claim
      AuditService.append env (save db decision.saved) claimId decision.entry now

/-- What a performed operation did: it found the claim, decided, and put the
stored form of the next event on top of the trail. -/
theorem perform_ok {env : Env} {db db' : Db} {claimId : UUID} {op : Op} {now : Instant}
    (h : perform env db claimId op now = .ok db') :
    ∃ claim decision event row, db.findById claimId = some claim ∧
      decideOp op claim = .ok decision ∧
      AuditService.nextEvent env claimId (db.findFirstByClaimIdOrderBySeqDesc claimId)
        decision.entry now = .ok event ∧
      Db.storeAuditEvent env event = .ok row ∧ db.isDuplicateScore event = false ∧
      db' = { save db decision.saved with auditEvents := db.auditEvents ++ [row] } := by
  unfold perform at h
  cases hfind : db.findById claimId with
  | none => simp [hfind] at h
  | some claim =>
      simp only [hfind] at h
      rcases Results.bind_eq_ok.1 h with ⟨decision, hdecide, h⟩
      rcases Results.bind_eq_ok.1 h with ⟨event, hevent, h⟩
      rcases Db.insertAuditEvent_ok h with ⟨row, hrow, -, -, hdup, hdb⟩
      -- saving the claim leaves the audit table alone
      have haudit := auditEvents_save db decision.saved
      have hsame : (save db decision.saved).isDuplicateScore event = db.isDuplicateScore event := by
        unfold Db.isDuplicateScore Db.existsByClaimIdAndModelVersionAndEventType
        rw [haudit]
      rw [Db.findFirst_congr haudit] at hevent
      rw [hsame] at hdup
      rw [haudit] at hdb
      exact ⟨claim, decision, event, row, rfl, hdecide, hevent, hrow, hdup, hdb⟩

/-- What a created claim brings: a claim row in its initial status, the stored
form of its first event, and an unsent outbox row. -/
theorem createClaim_ok {env : Env} {db db' : Db} {request : ClaimRequest} {draws : CreateDraws}
    (h : createClaim env db request draws = .ok db') :
    ∃ claim event row payload db₁ db₂, db.findById claim.id = none ∧
      claim.id = draws.claimId ∧ claim.status = .submitted ∧
      (∃ amount, claim = { claimOf draws.claimId request with claimAmount := amount }) ∧
      db₁ = { db with claims := db.claims ++ [claim] } ∧
      EntityService.resolveAndLink env draws.link db₁ (claimOf draws.claimId request) = .ok db₂ ∧
      AuditService.nextEvent env claim.id (db.findFirstByClaimIdOrderBySeqDesc claim.id)
        (createdEntry .submitted) draws.occurredAt = .ok event ∧
      Db.storeAuditEvent env event = .ok row ∧
      env.jsonb (OutboxService.claimSubmittedPayload claim.id) = some payload ∧
      db' = { db₂ with
        auditEvents := db.auditEvents ++ [row]
        outbox := Table.save OutboxEvent.id db.outbox
          ⟨draws.outboxId, claim.id, claimSubmittedTopic, payload,
            env.timestamptz draws.createdAt, none⟩ } := by
  unfold createClaim at h
  rcases Results.bind_eq_ok.1 h with ⟨db₁, hinsert, h⟩
  rcases Results.bind_eq_ok.1 h with ⟨db₂, hresolve, h⟩
  rcases Results.bind_eq_ok.1 h with ⟨db₃, happend, henqueue⟩
  rcases Db.insertClaim_ok hinsert with ⟨amount, hnew, hdb₁⟩
  rcases EntityService.sameBeyondEntities_resolveAndLink hresolve with ⟨-, haudit, houtbox⟩
  rcases Results.bind_eq_ok.1 happend with ⟨event, hevent, happend⟩
  rcases Db.insertAuditEvent_ok happend with ⟨row, hrow, -, -, -, hdb₃⟩
  rcases OutboxService.enqueue_ok henqueue with ⟨payload, hpayload, hdb'⟩
  -- the insert and the entity links leave the audit table and the outbox alone
  have haudit' : db₂.auditEvents = db.auditEvents := by rw [haudit, hdb₁]
  have houtbox' : db₂.outbox = db.outbox := by rw [houtbox, hdb₁]
  rw [Db.findFirst_congr haudit'] at hevent
  refine ⟨{ claimOf draws.claimId request with claimAmount := amount }, event, row, payload, db₁,
    db₂, hnew, rfl, rfl, ⟨amount, rfl⟩, hdb₁, hresolve, hevent, hrow, hpayload, ?_⟩
  rw [hdb', hdb₃, haudit', houtbox']

/-- `transitionStatus`. -/
def transitionStatus (env : Env) (db : Db) (claimId : UUID) (toStatus : ClaimStatus)
    (reason : Option String) (actorId : String) (actorRole : ActorRole) (now : Instant) :
    Except Failure Db :=
  perform env db claimId (.transition toStatus reason actorId actorRole) now

/-- `applyScore`: nothing when this claim already has a score of this model
version, otherwise the score is recorded. -/
def applyScore (env : Env) (db : Db) (claimId : UUID) (fraudScore : Option BigDecimal)
    (decisionHint ringId : Option String) (explanationJson : Option RawJson)
    (modelVersion : Option String) (now : Instant) : Except Failure Db :=
  -- the check of the consumer, ahead of the lock
  if db.existsByClaimIdAndModelVersionAndEventType claimId modelVersion .fraudScored then pure db
  else
    perform env db claimId (.score fraudScore decisionHint ringId explanationJson modelVersion) now

/-- `recordNarrative`. -/
def recordNarrative (env : Env) (db : Db) (claimId : UUID) (narrative : Option String)
    (grounded : Bool) (modelVersion : Option String) (actorId : String) (actorRole : ActorRole)
    (now : Instant) : Except Failure Db :=
  perform env db claimId (.narrative narrative grounded modelVersion actorId actorRole) now

end ClaimService

end ClaimGuard
