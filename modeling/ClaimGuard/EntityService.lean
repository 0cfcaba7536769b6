import ClaimGuard.Repository

/-!
# Entity resolution and the outbox

`EntityService.resolveAndLink` with the backlog pass, and `OutboxService.enqueue`.
Every identifier and instant an operation draws is an argument.
-/

namespace ClaimGuard

/-- The `UUID.randomUUID()` and `Instant.now()` of one link, for each entity type. -/
structure LinkDraws where
  entityId : EntityType → UUID
  firstSeenAt : EntityType → Instant

namespace EntityService

/-- The role a claim references an entity of a type in. -/
def role : EntityType → String
  | .phone => "CLAIMANT_PHONE"
  | .address => "CLAIMANT_ADDRESS"
  | .shop => "REPAIR_SHOP"

theorem role_injective : Function.Injective role := by
  intro a b h
  cases a <;> cases b <;> first | rfl | exact absurd h (by decide)

/-- `PhoneNormalizer.normalize`, which throws when the library cannot parse. -/
def normalizePhone (env : Env) (rawPhone : String) : Except Failure String :=
  match env.normalizePhone rawPhone with
  | some canonical => pure canonical
  | none => throw (.illegalArgument ("Could not parse phone number: " ++ rawPhone))

/-- `link`: upsert the canonical entity and record the claim's link to it. -/
def link (env : Env) (draws : LinkDraws) (db : Db) (claim : Claim) (entityType : EntityType)
    (rawValue canonicalValue : String) : Except Failure Db := do
  let (db, entityId) ← db.upsert env (draws.entityId entityType) entityType canonicalValue
    (draws.firstSeenAt entityType)
  db.saveLink ⟨⟨claim.id, entityId, role entityType⟩, rawValue⟩

/-- `resolveAndLink`: phone, address and, when there is one, repair shop. -/
def resolveAndLink (env : Env) (draws : LinkDraws) (db : Db) (claim : Claim) :
    Except Failure Db := do
  -- a phone that cannot be parsed ends the transaction before any link
  let phone ← normalizePhone env claim.claimantPhone
  let db ← link env draws db claim .phone claim.claimantPhone phone
  let db ← link env draws db claim .address claim.claimantAddress
    (normalizeAddress claim.claimantAddress)
  match claim.repairShopName with
  | none => pure db
  | some repairShopName =>
      if isBlank repairShopName then pure db
      else link env draws db claim .shop repairShopName (normalizeShop repairShopName)

/-- One transaction of `resolveBacklog`: resolve the claim if it still exists. -/
def resolveOne (env : Env) (draws : LinkDraws) (db : Db) (claimId : UUID) : Except Failure Db :=
  match db.findById claimId with
  | none => pure db
  | some claim => resolveAndLink env draws db claim

/-! ## Frames -/

/-- Two databases that differ in their entities and links at most. -/
def SameBeyondEntities (db db' : Db) : Prop :=
  db'.claims = db.claims ∧ db'.auditEvents = db.auditEvents ∧ db'.outbox = db.outbox

theorem SameBeyondEntities.trans {db db' db'' : Db} (h : SameBeyondEntities db db')
    (h' : SameBeyondEntities db' db'') : SameBeyondEntities db db'' :=
  ⟨h'.1.trans h.1, h'.2.1.trans h.2.1, h'.2.2.trans h.2.2⟩

theorem sameBeyondEntities_upsert {env : Env} {db db' : Db} {id id' : UUID}
    {entityType : EntityType} {canonicalValue : String} {firstSeenAt : Instant}
    (h : db.upsert env id entityType canonicalValue firstSeenAt = .ok (db', id')) :
    SameBeyondEntities db db' := by
  rcases Db.upsert_cases h with ⟨e, -, -, rfl⟩ | ⟨-, -, -, rfl⟩
  · exact ⟨rfl, rfl, rfl⟩
  · exact ⟨rfl, rfl, rfl⟩

theorem sameBeyondEntities_saveLink {db db' : Db} {link : ClaimEntityLink}
    (h : db.saveLink link = .ok db') : SameBeyondEntities db db' := by
  rcases Db.saveLink_ok h with rfl
  exact ⟨rfl, rfl, rfl⟩

theorem sameBeyondEntities_link {env : Env} {draws : LinkDraws} {db db' : Db} {claim : Claim}
    {entityType : EntityType} {rawValue canonicalValue : String}
    (h : link env draws db claim entityType rawValue canonicalValue = .ok db') :
    SameBeyondEntities db db' := by
  rcases Results.bind_eq_ok.1 h with ⟨⟨db₁, id⟩, hupsert, hlink⟩
  exact (sameBeyondEntities_upsert hupsert).trans (sameBeyondEntities_saveLink hlink)

/-- Resolving a claim touches entities and links only. -/
theorem sameBeyondEntities_resolveAndLink {env : Env} {draws : LinkDraws} {db db' : Db}
    {claim : Claim} (h : resolveAndLink env draws db claim = .ok db') :
    SameBeyondEntities db db' := by
  rcases Results.bind_eq_ok.1 h with ⟨phone, -, h⟩
  rcases Results.bind_eq_ok.1 h with ⟨db₁, h₁, h⟩
  rcases Results.bind_eq_ok.1 h with ⟨db₂, h₂, h⟩
  have hlinked := (sameBeyondEntities_link h₁).trans (sameBeyondEntities_link h₂)
  split at h
  · rcases Results.pure_eq_ok.1 h with rfl
    exact hlinked
  · split at h
    · rcases Results.pure_eq_ok.1 h with rfl
      exact hlinked
    · exact hlinked.trans (sameBeyondEntities_link h)

end EntityService

namespace OutboxService

/-- `ClaimSubmittedEvent` as JSON. -/
def claimSubmittedPayload (claimId : UUID) : JsonText :=
  .obj [("claim_id", .str claimId.toString)]

/-- `enqueue`: queue a payload for a topic. -/
def enqueue (env : Env) (db : Db) (id aggregateId : UUID) (topic : String) (payload : JsonText)
    (now : Instant) : Except Failure Db :=
  db.saveOutboxEvent env ⟨id, aggregateId, topic, payload, now, none⟩

/-- Queueing adds one unsent row and touches nothing else. -/
theorem enqueue_ok {env : Env} {db db' : Db} {id aggregateId : UUID} {topic : String}
    {payload : JsonText} {now : Instant}
    (h : enqueue env db id aggregateId topic payload now = .ok db') :
    ∃ stored, env.jsonb payload = some stored ∧
      db' = { db with
        outbox := Table.save OutboxEvent.id db.outbox
          ⟨id, aggregateId, topic, stored, env.timestamptz now, none⟩ } := by
  unfold enqueue Db.saveOutboxEvent at h
  cases hjson : env.jsonb payload with
  | none => simp [hjson] at h
  | some stored =>
      simp only [hjson, Results.pure_eq_ok] at h
      exact ⟨stored, rfl, h.symm⟩

end OutboxService

end ClaimGuard
