import ClaimGuard.Lib.BigDecimal
import ClaimGuard.Lib.Instant
import ClaimGuard.Lib.JsonText
import ClaimGuard.Lib.Uuid

/-!
# The domain model

The enumerations, entities and table rows of the claims service. Columns that no
modelled function reads are left out: the timestamps and the version counter of a
claim, and the surrogate id of an audit row.
-/

namespace ClaimGuard

/-! ## Enumerations -/

/-- The lifecycle a claim moves through. -/
inductive ClaimStatus where
  | submitted
  | underReview
  | flagged
  | approved
  | denied
deriving DecidableEq, Repr

/-- Who can act on a claim. `system` is never a person. -/
inductive ActorRole where
  | adjuster
  | investigator
  | auditor
  | system
deriving DecidableEq, Repr

/-- What kind of thing happened to a claim. -/
inductive AuditEventType where
  | claimCreated
  | statusChanged
  | fraudScored
  | humanOverride
  | narrativeGenerated
deriving DecidableEq, Repr

/-- The kinds of real-world thing a claim can reference. -/
inductive EntityType where
  | phone
  | address
  | shop
deriving DecidableEq, Repr

/-- `Enum.name()`. -/
def ClaimStatus.name : ClaimStatus → String
  | .submitted => "SUBMITTED"
  | .underReview => "UNDER_REVIEW"
  | .flagged => "FLAGGED"
  | .approved => "APPROVED"
  | .denied => "DENIED"

/-- `Enum.name()`. -/
def ActorRole.name : ActorRole → String
  | .adjuster => "ADJUSTER"
  | .investigator => "INVESTIGATOR"
  | .auditor => "AUDITOR"
  | .system => "SYSTEM"

/-- `Enum.name()`. -/
def AuditEventType.name : AuditEventType → String
  | .claimCreated => "CLAIM_CREATED"
  | .statusChanged => "STATUS_CHANGED"
  | .fraudScored => "FRAUD_SCORED"
  | .humanOverride => "HUMAN_OVERRIDE"
  | .narrativeGenerated => "NARRATIVE_GENERATED"

/-- `Enum.name()`. -/
def EntityType.name : EntityType → String
  | .phone => "PHONE"
  | .address => "ADDRESS"
  | .shop => "SHOP"

theorem ClaimStatus.name_injective : Function.Injective ClaimStatus.name := by
  intro a b h
  cases a <;> cases b <;> first | rfl | (revert h; decide)

theorem ActorRole.name_injective : Function.Injective ActorRole.name := by
  intro a b h
  cases a <;> cases b <;> first | rfl | (revert h; decide)

theorem AuditEventType.name_injective : Function.Injective AuditEventType.name := by
  intro a b h
  cases a <;> cases b <;> first | rfl | (revert h; decide)

/-! ## Values -/

/-- A calendar date, by its day number. -/
structure LocalDate where
  epochDay : ℤ
deriving DecidableEq, Repr

/-- The date is on or before `other`. -/
def LocalDate.Le (date other : LocalDate) : Prop := date.epochDay ≤ other.epochDay

instance : DecidableRel LocalDate.Le := fun a b =>
  inferInstanceAs (Decidable (a.epochDay ≤ b.epochDay))

/-- What a string that is meant to hold JSON holds: a JSON text, or something the
parser rejects. -/
inductive RawJson where
  | text (t : JsonText)
  | malformed (s : String)

/-- `Character.isWhitespace`: the Unicode space characters except the no-break
ones, and the control characters that separate. -/
def isWhitespace (c : Char) : Bool :=
  (0x9 ≤ c.toNat && c.toNat ≤ 0xD) || (0x1C ≤ c.toNat && c.toNat ≤ 0x20) || c.toNat == 0x1680 ||
    (0x2000 ≤ c.toNat && c.toNat ≤ 0x200A && c.toNat != 0x2007) || c.toNat == 0x2028 ||
    c.toNat == 0x2029 || c.toNat == 0x205F || c.toNat == 0x3000

/-- `String.isBlank()`. -/
def isBlank (s : String) : Bool := s.toList.all isWhitespace

/-! ## Rows -/

/-- A row of `claims`. -/
structure Claim where
  id : UUID
  claimantName : String
  policyNumber : String
  claimAmount : BigDecimal
  incidentDate : LocalDate
  claimantPhone : String
  claimantAddress : String
  repairShopName : Option String
  status : ClaimStatus
deriving DecidableEq

/-- A row of `claim_audit_events`. `seq` is unbounded here: a trail of `2^31`
events is outside the model. -/
structure ClaimAuditEvent where
  claimId : UUID
  seq : ℤ
  eventType : AuditEventType
  fromStatus : Option ClaimStatus
  toStatus : Option ClaimStatus
  actorId : String
  actorRole : ActorRole
  reason : Option String
  fraudScore : Option BigDecimal
  ringId : Option String
  explanationJson : Option JsonText
  modelVersion : Option String
  occurredAt : Instant
  prevHash : String
  hash : String

/-- A row of `entities`. -/
structure ResolvedEntity where
  id : UUID
  entityType : EntityType
  canonicalValue : String
  claimCount : ℕ
  firstSeenAt : Instant
deriving DecidableEq

/-- The primary key of `claim_entities`. -/
structure ClaimEntityLinkId where
  claimId : UUID
  entityId : UUID
  role : String
deriving DecidableEq

/-- A row of `claim_entities`. -/
structure ClaimEntityLink where
  id : ClaimEntityLinkId
  rawValue : String
deriving DecidableEq

/-- A row of `outbox`. -/
structure OutboxEvent where
  id : UUID
  aggregateId : UUID
  topic : String
  payload : JsonText
  createdAt : Instant
  sentAt : Option Instant

/-- What a client sends to create a claim. -/
structure ClaimRequest where
  claimantName : String
  policyNumber : String
  claimAmount : BigDecimal
  incidentDate : LocalDate
  claimantPhone : String
  claimantAddress : String
  repairShopName : Option String
deriving DecidableEq

/-! ## Failures -/

/-- The response statuses the services choose. -/
inductive HttpStatus where
  | badRequest
  | forbidden
  | notFound
  | conflict
deriving DecidableEq, Repr

/-- The constraints of the schema a write can violate. -/
inductive Violation where
  | primaryKey (table : String)
  | foreignKey (column : String)
  | unique (index : String)
  | numericOverflow (column : String)
  | dateOverflow (column : String)
  | text (table : String)
  | json (column : String)
deriving DecidableEq, Repr

/-- How an operation ends when it throws; its transaction is rolled back. -/
inductive Failure where
  | responseStatus (status : HttpStatus) (reason : String)
  | illegalArgument (message : String)
  | illegalState (message : String)
  | dataIntegrity (violation : Violation)
deriving DecidableEq, Repr

end ClaimGuard
