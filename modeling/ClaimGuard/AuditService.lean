import ClaimGuard.Lib.HashChain
import ClaimGuard.Repository

/-!
# The audit service

`AuditService`: the field list that gets hashed, appending one event to a claim's
chain, and recomputing the chain.
-/

namespace ClaimGuard

/-- The arguments of `AuditService.append` after the claim id. -/
structure AuditEntry where
  eventType : AuditEventType
  fromStatus : Option ClaimStatus
  toStatus : Option ClaimStatus
  actorId : String
  actorRole : ActorRole
  reason : Option String
  fraudScore : Option BigDecimal
  ringId : Option String
  explanationJson : Option RawJson
  modelVersion : Option String

namespace AuditService

/-- `GENESIS_HASH`: 64 zero characters, standing in for "no previous event". -/
def genesisHash : String := String.ofList (List.replicate 64 '0')

/-- A nullable string as a map value. -/
def jsonString : Option String → Json
  | none => .null
  | some s => .str s

/-- `fieldsFor`: the one field list that gets hashed, by `append` and by `verify`. -/
def fieldsFor (e : ClaimAuditEvent) : List (String × Json) :=
  [("claimId", .str e.claimId.toString),
    ("seq", .int e.seq),
    ("eventType", .str e.eventType.name),
    ("fromStatus", jsonString (e.fromStatus.map ClaimStatus.name)),
    ("toStatus", jsonString (e.toStatus.map ClaimStatus.name)),
    ("actorId", .str e.actorId),
    ("actorRole", .str e.actorRole.name),
    ("reason", jsonString e.reason),
    ("fraudScore",
      -- at the scale of the column, so that the value read back is printed alike
      jsonString (e.fraudScore.map fun s => String.ofList (s.setScale 4).toPlainString)),
    ("ringId", jsonString e.ringId),
    -- the parsed tree, for the column does not keep the text
    ("explanationJson", (e.explanationJson.map CanonicalJson.parse).getD .null),
    ("modelVersion", jsonString e.modelVersion),
    ("occurredAt", .str e.occurredAt.toString),
    ("prevHash", .str e.prevHash)]

/-- `sha256`: the digest as 64 lower case hexadecimal digits. -/
def sha256 (env : Env) (input : String) : String :=
  String.ofList (Text.fixed 16 64 (env.digest input).toNat)

/-- The string a row's hash is taken of. -/
def hashedText (e : ClaimAuditEvent) : String :=
  e.prevHash ++ CanonicalJson.canonicalize (fieldsFor e)

/-- The hash a row's content has. -/
def rowHash (env : Env) (e : ClaimAuditEvent) : String := sha256 env (hashedText e)

/-- The string of an explanation, parsed; `CanonicalJson.parse` throws on anything
that is not JSON. -/
def parseExplanation : Option RawJson → Except Failure (Option JsonText)
  | none => pure none
  | some (.text t) => pure (some t)
  | some (.malformed _) => throw (.illegalState "Failed to parse JSON for canonicalization")

/-- The event `append` builds on top of the previous one, before its hash. -/
def draftEvent (claimId : UUID) (previous : Option ClaimAuditEvent) (entry : AuditEntry)
    (explanationJson : Option JsonText) (now : Instant) : ClaimAuditEvent where
  claimId := claimId
  seq := match previous with
    | none => 1
    | some p => p.seq + 1
  eventType := entry.eventType
  fromStatus := entry.fromStatus
  toStatus := entry.toStatus
  actorId := entry.actorId
  actorRole := entry.actorRole
  reason := entry.reason
  fraudScore := entry.fraudScore
  ringId := entry.ringId
  explanationJson := explanationJson
  modelVersion := entry.modelVersion
  occurredAt := now.truncatedToMillis
  prevHash := match previous with
    | none => genesisHash
    | some p => p.hash
  hash := ""

/-- A row with the hash its content has. -/
def sealEvent (env : Env) (event : ClaimAuditEvent) : ClaimAuditEvent :=
  { event with hash := rowHash env event }

/-- The event `append` writes. -/
def nextEvent (env : Env) (claimId : UUID) (previous : Option ClaimAuditEvent) (entry : AuditEntry)
    (now : Instant) : Except Failure ClaimAuditEvent :=
  match parseExplanation entry.explanationJson with
  | .error failure => .error failure
  | .ok explanationJson =>
      .ok (sealEvent env (draftEvent claimId previous entry explanationJson now))

/-- The hash of a row does not cover the hash itself. -/
theorem rowHash_sealEvent (env : Env) (event : ClaimAuditEvent) :
    rowHash env (sealEvent env event) = rowHash env event := by
  -- the hash is no hashed field
  have hfields : fieldsFor (sealEvent env event) = fieldsFor event := by
    simp only [fieldsFor, sealEvent]
  have hprev : (sealEvent env event).prevHash = event.prevHash := by
    simp only [sealEvent]
  simp only [rowHash, hashedText, hfields, hprev]

/-- The written event: a sealed draft. -/
theorem nextEvent_ok {env : Env} {claimId : UUID} {previous : Option ClaimAuditEvent}
    {entry : AuditEntry} {now : Instant} {event : ClaimAuditEvent}
    (h : nextEvent env claimId previous entry now = .ok event) :
    ∃ explanationJson, parseExplanation entry.explanationJson = .ok explanationJson ∧
      event = sealEvent env (draftEvent claimId previous entry explanationJson now) := by
  unfold nextEvent at h
  cases hjson : parseExplanation entry.explanationJson with
  | error failure =>
      rw [hjson] at h
      cases h
  | ok explanationJson =>
      rw [hjson] at h
      exact ⟨explanationJson, rfl, (Except.ok.inj h).symm⟩

/-- `append`: one event on top of the claim's latest one. -/
def append (env : Env) (db : Db) (claimId : UUID) (entry : AuditEntry) (now : Instant) :
    Except Failure Db := do
  -- callers that move a claim hold the lock on its row, so this is still the latest event
  let event ← nextEvent env claimId (db.findFirstByClaimIdOrderBySeqDesc claimId) entry now
  db.insertAuditEvent env event

/-- The chain `verify` walks: `prevHash` links to `hash`, which is recomputed. -/
def chain (env : Env) : HashChain ClaimAuditEvent String where
  prev := ClaimAuditEvent.prevHash
  hash := ClaimAuditEvent.hash
  recompute := rowHash env

@[simp] theorem chain_prev (env : Env) (e : ClaimAuditEvent) : (chain env).prev e = e.prevHash := by
  simp only [chain]

@[simp] theorem chain_hash (env : Env) (e : ClaimAuditEvent) : (chain env).hash e = e.hash := by
  simp only [chain]

@[simp] theorem chain_recompute (env : Env) (e : ClaimAuditEvent) :
    (chain env).recompute e = rowHash env e := by
  simp only [chain]

/-- The loop of `verify` over the rows it read. -/
def verifyRows (env : Env) (events : List ClaimAuditEvent) : Bool :=
  (chain env).verifyFrom genesisHash events

/-- `verify`. -/
def verify (env : Env) (db : Db) (claimId : UUID) : Bool :=
  verifyRows env (db.findByClaimIdOrderBySeq claimId)

end AuditService

end ClaimGuard
