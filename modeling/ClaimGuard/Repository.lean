import ClaimGuard.CanonicalJson
import ClaimGuard.EntityResolution
import ClaimGuard.Lib.Results
import ClaimGuard.Lib.Table

/-!
# The database and its repositories

The tables, the queries of the repositories and the writes with the constraints
of the schema. A write either gives the next database or the constraint it
violates, and then its transaction rolls back.
-/

namespace ClaimGuard

/-- What the services get from outside: the SHA-256 digest of a string's UTF-8
bytes, the phone library (`none` when it cannot parse), what a `jsonb` column
gives back for a text (`none` when it refuses it), and what a `timestamptz`
column gives back for an instant. -/
structure Env where
  digest : String → BitVec 256
  normalizePhone : String → Option String
  jsonb : JsonText → Option JsonText
  timestamptz : Instant → Instant

/-- The committed database. -/
structure Db where
  claims : List Claim
  auditEvents : List ClaimAuditEvent
  entities : List ResolvedEntity
  claimEntities : List ClaimEntityLink
  outbox : List OutboxEvent

namespace Db

/-- A database with no rows. -/
def empty : Db := ⟨[], [], [], [], []⟩

/-- A `TEXT` column refuses the null character. -/
def isText (s : String) : Bool := !s.toList.contains (Char.ofNat 0)

/-- A `DATE` column takes the days from Julian day 0 to the end of the year 5874897. -/
def isDate (date : LocalDate) : Bool :=
  decide (-2440588 ≤ date.epochDay ∧ date.epochDay < 2145042906)

/-! ## Claims -/

/-- `ClaimRepository.findById`, and `findByIdForUpdate` once the lock is held. -/
def findById (db : Db) (id : UUID) : Option Claim := Table.find Claim.id db.claims id

/-- The text columns of a claim. -/
def claimTexts (claim : Claim) : List String :=
  [claim.claimantName, claim.policyNumber, claim.claimantPhone, claim.claimantAddress] ++
    claim.repairShopName.toList

/-- `INSERT INTO claims`, with the amount as `NUMERIC(14, 2)`. -/
def insertClaim (db : Db) (claim : Claim) : Except Failure Db :=
  if (claimTexts claim).all isText then
    if isDate claim.incidentDate then
      match claim.claimAmount.numeric 14 2 with
      | none => throw (.dataIntegrity (.numericOverflow "claim_amount"))
      | some amount =>
          if (db.findById claim.id).isSome then throw (.dataIntegrity (.primaryKey "claims"))
          else pure { db with claims := db.claims ++ [{ claim with claimAmount := amount }] }
    else throw (.dataIntegrity (.dateOverflow "incident_date"))
  else throw (.dataIntegrity (.text "claims"))

/-- What an inserted claim looks like: new, and rounded in its amount only. -/
theorem insertClaim_ok {db db' : Db} {claim : Claim} (h : db.insertClaim claim = .ok db') :
    ∃ amount, db.findById claim.id = none ∧
      db' = { db with claims := db.claims ++ [{ claim with claimAmount := amount }] } := by
  unfold insertClaim at h
  rw [Results.test_eq_ok, Results.test_eq_ok] at h
  rcases h with ⟨-, -, h⟩
  cases hamount : claim.claimAmount.numeric 14 2 with
  | none => simp [hamount] at h
  | some amount =>
      simp only [hamount, Results.guard_eq_ok, Results.pure_eq_ok] at h
      rcases h with ⟨hnew, hdb⟩
      exact ⟨amount, by simpa using hnew, hdb.symm⟩

/-- `ClaimRepository.save` of a claim that was read before: `UPDATE claims`. -/
def saveClaim (db : Db) (claim : Claim) : Db :=
  { db with claims := Table.save Claim.id db.claims claim }

/-- `ClaimRepository.findIdsWithoutEntityLinks`. -/
def findIdsWithoutEntityLinks (db : Db) : List UUID :=
  (db.claims.filter fun c => !db.claimEntities.any fun l => decide (l.id.claimId = c.id)).map
    Claim.id

/-! ## Audit events -/

/-- The audit rows of one claim, in the order of the table. -/
def eventsOf (db : Db) (claimId : UUID) : List ClaimAuditEvent :=
  db.auditEvents.filter fun e => decide (e.claimId = claimId)

/-- `ClaimAuditEventRepository.findByClaimIdOrderBySeq`. -/
def findByClaimIdOrderBySeq (db : Db) (claimId : UUID) : List ClaimAuditEvent :=
  (db.eventsOf claimId).insertionSort fun a b => a.seq ≤ b.seq

/-- `ClaimAuditEventRepository.findFirstByClaimIdOrderBySeqDesc`. -/
def findFirstByClaimIdOrderBySeqDesc (db : Db) (claimId : UUID) : Option ClaimAuditEvent :=
  ((db.eventsOf claimId).insertionSort fun a b => b.seq ≤ a.seq).head?

/-- The latest event of a claim depends on the audit table only. -/
theorem findFirst_congr {db db' : Db} (h : db'.auditEvents = db.auditEvents) (claimId : UUID) :
    db'.findFirstByClaimIdOrderBySeqDesc claimId = db.findFirstByClaimIdOrderBySeqDesc claimId := by
  unfold findFirstByClaimIdOrderBySeqDesc eventsOf
  rw [h]

/-- `ClaimAuditEventRepository.existsByClaimIdAndModelVersionAndEventType`. A null
model version is compared with `IS NULL`. -/
def existsByClaimIdAndModelVersionAndEventType (db : Db) (claimId : UUID)
    (modelVersion : Option String) (eventType : AuditEventType) : Bool :=
  db.auditEvents.any fun e =>
    decide (e.claimId = claimId ∧ e.modelVersion = modelVersion ∧ e.eventType = eventType)

/-- The text columns of an audit row. -/
def auditTexts (event : ClaimAuditEvent) : List String :=
  event.actorId :: (event.reason.toList ++ event.ringId.toList ++ event.modelVersion.toList)

/-- An optional column: a null is stored as a null. -/
def storeOption {α : Type} (store : α → Option α) : Option α → Option (Option α)
  | none => some none
  | some a => (store a).map some

/-- What the columns of `claim_audit_events` keep of a row: the score as
`NUMERIC(5, 4)`, the explanation as `jsonb`, the instant as `timestamptz`. -/
def storeAuditEvent (env : Env) (event : ClaimAuditEvent) : Except Failure ClaimAuditEvent :=
  if (auditTexts event).all isText then
    match storeOption (BigDecimal.numeric 5 4) event.fraudScore with
    | none => throw (.dataIntegrity (.numericOverflow "fraud_score"))
    | some fraudScore =>
        match storeOption env.jsonb event.explanationJson with
        | none => throw (.dataIntegrity (.json "explanation_json"))
        | some explanationJson =>
            pure { event with
              fraudScore := fraudScore
              explanationJson := explanationJson
              occurredAt := env.timestamptz event.occurredAt }
  else throw (.dataIntegrity (.text "claim_audit_events"))

/-- Every column but the score, the explanation and the instant comes back as it
was written. -/
theorem storeAuditEvent_ok {env : Env} {event row : ClaimAuditEvent}
    (h : storeAuditEvent env event = .ok row) :
    storeOption (BigDecimal.numeric 5 4) event.fraudScore = some row.fraudScore ∧
      storeOption env.jsonb event.explanationJson = some row.explanationJson ∧
      row = { event with
        fraudScore := row.fraudScore
        explanationJson := row.explanationJson
        occurredAt := env.timestamptz event.occurredAt } := by
  unfold storeAuditEvent at h
  rw [Results.test_eq_ok] at h
  rcases h with ⟨-, h⟩
  -- the row was stored, so both columns took their values
  cases hscore : storeOption (BigDecimal.numeric 5 4) event.fraudScore with
  | none => simp [hscore] at h
  | some score =>
      cases hjson : storeOption env.jsonb event.explanationJson with
      | none => simp [hscore, hjson] at h
      | some json =>
          simp only [hscore, hjson, Results.pure_eq_ok] at h
          subst h
          exact ⟨rfl, rfl, rfl⟩

/-- Rejected by the index `claim_audit_events_fraud_scored_dedup`: nulls are
distinct in it. -/
def isDuplicateScore (db : Db) (event : ClaimAuditEvent) : Bool :=
  decide (event.eventType = .fraudScored) && event.modelVersion.isSome &&
    db.existsByClaimIdAndModelVersionAndEventType event.claimId event.modelVersion .fraudScored

/-- `INSERT INTO claim_audit_events`. -/
def insertAuditEvent (env : Env) (db : Db) (event : ClaimAuditEvent) : Except Failure Db := do
  let row ← storeAuditEvent env event
  if (db.findById event.claimId).isNone then
    throw (.dataIntegrity (.foreignKey "claim_id"))
  else if (db.eventsOf event.claimId).any (fun e => decide (e.seq = event.seq)) then
    throw (.dataIntegrity (.unique "claim_audit_events_claim_id_seq_key"))
  else if db.isDuplicateScore event then
    throw (.dataIntegrity (.unique "claim_audit_events_fraud_scored_dedup"))
  else
    pure { db with auditEvents := db.auditEvents ++ [row] }

/-- What an inserted audit row looks like: the stored form of an event of an
existing claim, at a new place, not a repeated score. -/
theorem insertAuditEvent_ok {env : Env} {db db' : Db} {event : ClaimAuditEvent}
    (h : db.insertAuditEvent env event = .ok db') :
    ∃ row, storeAuditEvent env event = .ok row ∧ (db.findById event.claimId).isSome ∧
      (∀ e ∈ db.eventsOf event.claimId, e.seq ≠ event.seq) ∧ db.isDuplicateScore event = false ∧
      db' = { db with auditEvents := db.auditEvents ++ [row] } := by
  unfold insertAuditEvent at h
  rcases Results.bind_eq_ok.1 h with ⟨row, hrow, h⟩
  simp only [Results.guard_eq_ok, Results.pure_eq_ok] at h
  rcases h with ⟨hclaim, hseq, hdup, hdb⟩
  refine ⟨row, hrow, ?_, ?_, by simpa using hdup, hdb.symm⟩
  · cases hfind : db.findById event.claimId <;> simp_all
  · intro e he heq
    exact hseq (List.any_eq_true.2 ⟨e, he, by simpa using heq⟩)

/-! ## Entities and links -/

/-- `ResolvedEntityRepository.findByEntityTypeAndCanonicalValue`. -/
def findEntity (db : Db) (entityType : EntityType) (canonicalValue : String) :
    Option ResolvedEntity :=
  Table.find (fun e : ResolvedEntity => (e.entityType, e.canonicalValue)) db.entities
    (entityType, canonicalValue)

/-- `ResolvedEntityRepository.upsert`: insert, or on a conflict of
`(entity_type, canonical_value)` count one more claim, returning the id of the
row. -/
def upsert (env : Env) (db : Db) (id : UUID) (entityType : EntityType) (canonicalValue : String)
    (firstSeenAt : Instant) : Except Failure (Db × UUID) :=
  match db.findEntity entityType canonicalValue with
  | some e =>
      pure ({ db with
        entities := Table.save (fun e : ResolvedEntity => (e.entityType, e.canonicalValue))
          db.entities { e with claimCount := e.claimCount + 1 } }, e.id)
  | none =>
      if isText canonicalValue then
        if db.entities.any (fun e => decide (e.id = id)) then
          throw (.dataIntegrity (.primaryKey "entities"))
        else
          pure ({ db with
            entities := db.entities ++
              [⟨id, entityType, canonicalValue, 1, env.timestamptz firstSeenAt⟩] }, id)
      else throw (.dataIntegrity (.text "entities"))

/-- An upsert counts one more at the row it finds, or appends a row with the drawn id. -/
theorem upsert_cases {env : Env} {db db' : Db} {id id' : UUID} {entityType : EntityType}
    {canonicalValue : String} {firstSeenAt : Instant}
    (h : db.upsert env id entityType canonicalValue firstSeenAt = .ok (db', id')) :
    (∃ e, db.findEntity entityType canonicalValue = some e ∧ id' = e.id ∧
      db' = { db with
        entities := Table.save (fun e : ResolvedEntity => (e.entityType, e.canonicalValue))
          db.entities { e with claimCount := e.claimCount + 1 } }) ∨
    (db.findEntity entityType canonicalValue = none ∧ id' = id ∧ (∀ e ∈ db.entities, e.id ≠ id) ∧
      db' = { db with
        entities := db.entities ++
          [⟨id, entityType, canonicalValue, 1, env.timestamptz firstSeenAt⟩] }) := by
  unfold upsert at h
  cases hfind : db.findEntity entityType canonicalValue with
  | some e =>
      rw [hfind] at h
      rcases Prod.mk.inj (Results.pure_eq_ok.1 h) with ⟨rfl, rfl⟩
      exact Or.inl ⟨e, rfl, rfl, rfl⟩
  | none =>
      rw [hfind] at h
      rcases Results.test_eq_ok.1 h with ⟨-, h⟩
      rcases Results.guard_eq_ok.1 h with ⟨hid, h⟩
      rcases Prod.mk.inj (Results.pure_eq_ok.1 h) with ⟨rfl, rfl⟩
      refine Or.inr ⟨rfl, rfl, ?_, rfl⟩
      intro e he heq
      exact hid (List.any_eq_true.2 ⟨e, he, decide_eq_true heq⟩)

/-- `ClaimEntityLinkRepository.save`: a link that exists is overwritten. -/
def saveLink (db : Db) (link : ClaimEntityLink) : Except Failure Db :=
  if isText link.rawValue then
    if (db.findById link.id.claimId).isNone then
      throw (.dataIntegrity (.foreignKey "claim_id"))
    else if db.entities.all (fun e => decide (e.id ≠ link.id.entityId)) then
      throw (.dataIntegrity (.foreignKey "entity_id"))
    else
      pure { db with claimEntities := Table.save ClaimEntityLink.id db.claimEntities link }
  else throw (.dataIntegrity (.text "claim_entities"))

theorem saveLink_ok {db db' : Db} {link : ClaimEntityLink} (h : db.saveLink link = .ok db') :
    db' = { db with claimEntities := Table.save ClaimEntityLink.id db.claimEntities link } := by
  unfold saveLink at h
  rcases Results.test_eq_ok.1 h with ⟨-, h⟩
  rcases Results.guard_eq_ok.1 h with ⟨-, h⟩
  rcases Results.guard_eq_ok.1 h with ⟨-, h⟩
  exact (Results.pure_eq_ok.1 h).symm

/-! ## Outbox -/

/-- `OutboxEventRepository.save`: the id is assigned by the caller, so a row with
that id would be overwritten. -/
def saveOutboxEvent (env : Env) (db : Db) (event : OutboxEvent) : Except Failure Db :=
  match env.jsonb event.payload with
  | none => throw (.dataIntegrity (.json "payload"))
  | some payload =>
      pure { db with
        outbox := Table.save OutboxEvent.id db.outbox
          { event with payload := payload, createdAt := env.timestamptz event.createdAt } }

/-- `OutboxEventRepository.findBySentAtIsNullOrderByCreatedAtAsc`. -/
def findBySentAtIsNullOrderByCreatedAtAsc (db : Db) : List OutboxEvent :=
  (db.outbox.filter fun e => e.sentAt.isNone).insertionSort fun a b => a.createdAt.Le b.createdAt

/-- `OutboxEventRepository.markSent`. -/
def markSent (env : Env) (db : Db) (id : UUID) (sentAt : Instant) : Db :=
  { db with
    outbox := db.outbox.map fun e =>
      if e.id = id then { e with sentAt := some (env.timestamptz sentAt) } else e }

end Db

end ClaimGuard
