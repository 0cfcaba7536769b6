import ClaimGuard.Lib.Lts
import ClaimGuard.Trail

/-!
# Runs of the service

The service as a step system: a database and the calls it serves one after the
other, each as a transaction that commits as a whole or leaves the database as it
was.
-/

namespace ClaimGuard

open ClaimService

/-- A call of the service, with everything it draws. -/
inductive Call where
  | createClaim (request : ClaimRequest) (draws : CreateDraws)
  | onClaim (claimId : UUID) (op : Op) (now : Instant)

/-- The transaction of a call. -/
def execute (env : Env) (db : Db) : Call → Except Failure Db
  | .createClaim request draws => createClaim env db request draws
  | .onClaim claimId (.transition toStatus reason actorId actorRole) now =>
      transitionStatus env db claimId toStatus reason actorId actorRole now
  | .onClaim claimId (.score fraudScore decisionHint ringId explanationJson modelVersion) now =>
      applyScore env db claimId fraudScore decisionHint ringId explanationJson modelVersion now
  | .onClaim claimId (.narrative narrative grounded modelVersion actorId actorRole) now =>
      recordNarrative env db claimId narrative grounded modelVersion actorId actorRole now

/-- The database after a call: a transaction that throws is rolled back. -/
def serve (env : Env) (db : Db) (call : Call) : Db :=
  match execute env db call with
  | .ok db' => db'
  | .error _ => db

/-- The service, started on a database with no claims. -/
def service (env : Env) : Lts Db Call where
  init db := db.claims = [] ∧ db.auditEvents = []
  step db call := some (serve env db call)

/-- Operations a call may carry: transitions are made by people. -/
def Op.byPeople : Op → Bool
  | .transition _ _ _ actorRole => decide (actorRole ≠ .system)
  | _ => true

/-- Calls whose transitions are made by people. -/
def Call.byPeople : Call → Bool
  | .createClaim _ _ => true
  | .onClaim _ op _ => op.byPeople

/-- An operation on a claim does nothing, or what `perform` does. -/
theorem execute_onClaim {env : Env} {db db' : Db} {claimId : UUID} {op : Op} {now : Instant}
    (h : execute env db (.onClaim claimId op now) = .ok db') :
    db' = db ∨ perform env db claimId op now = .ok db' := by
  cases op with
  | transition => exact Or.inr h
  | narrative => exact Or.inr h
  -- only a score may be skipped
  | score fraudScore decisionHint ringId explanationJson modelVersion =>
      simp only [execute, applyScore] at h
      split at h
      · exact Or.inl (Results.pure_eq_ok.1 h).symm
      · exact Or.inr h

/-- What a served call does. -/
theorem effect_of_serve {env : Env} {ok : Op → Prop} {db : Db} {call : Call}
    (hc : Consistent db) (hok : ∀ claimId op now, call = .onClaim claimId op now → ok op) :
    ClaimEffect env ok db (serve env db call) := by
  unfold serve
  cases hexec : execute env db call with
  | error failure => exact .unchanged rfl rfl
  | ok db' =>
      cases call with
      | createClaim request draws => exact .of_createClaim hc hexec
      | onClaim claimId op now =>
          rcases execute_onClaim hexec with rfl | hperform
          · exact .unchanged rfl rfl
          · exact .of_perform hc (hok claimId op now rfl) hperform

theorem consistent_of_init {db : Db} (hclaims : db.claims = []) (hevents : db.auditEvents = []) :
    Consistent db where
  uniqueIds := by
    rw [hclaims]
    exact Table.uniqueKeys_nil
  owned := by simp [hevents]
  numbered := by simp [Db.eventsOf, hevents, numbers]

/-- Invariants of the service, for each claim with its trail: what a created claim
has and an appended event keeps holds of every claim in every reachable state. -/
theorem forall_claims_of_reachable {env : Env} {guard : Call → Bool} {A : Op → Prop}
    {P : Claim → List ClaimAuditEvent → Prop}
    (hok : ∀ claimId op now, guard (.onClaim claimId op now) = true → A op)
    (hcreated : ∀ claim event row now, claim.status = .submitted →
      AuditService.nextEvent env claim.id none (createdEntry .submitted) now = .ok event →
      Db.storeAuditEvent env event = .ok row → P claim [row])
    (happended : ∀ claim trail op decision event row now, A op →
      decideOp op claim = .ok decision →
      AuditService.nextEvent env claim.id trail.getLast? decision.entry now = .ok event →
      Db.storeAuditEvent env event = .ok row → P claim trail →
      P (decision.saved.getD claim) (trail ++ [row]))
    (hloaded : ∀ claim, claim.status = .submitted → P claim [])
    {db : Db} (h : ((service env).restrict guard).Reachable db) :
    Consistent db ∧ ∀ claim ∈ db.claims, P claim (db.eventsOf claim.id) := by
  refine h.invariant (I := fun db => Consistent db ∧ ∀ claim ∈ db.claims,
    P claim (db.eventsOf claim.id)) ?_ ?_
  · intro db hinit
    refine ⟨consistent_of_init hinit.1 hinit.2, ?_⟩
    intro claim hclaim
    rw [hinit.1] at hclaim
    cases hclaim
  · intro db call db' hinv hstep
    rcases Lts.restrict_step_eq_some.1 hstep with ⟨hguard, hstep⟩
    rcases Option.some.inj hstep with rfl
    -- one step, whatever the call: what it does to the claims and their trails
    have heffect : ClaimEffect env A db (serve env db call) := by
      apply effect_of_serve hinv.1
      rintro claimId op now rfl
      exact hok claimId op now hguard
    refine ⟨heffect.consistent hinv.1, ?_⟩
    refine heffect.forall_claims (P := P) hinv.1 (fun _ _ hP => hP) ?_ ?_ ?_ hinv.2
    · intro claim event row now _ hstatus _ _ hevent hrow
      exact hcreated claim event row now hstatus hevent hrow
    · intro claim _ hstatus _ _
      exact hloaded claim hstatus
    · intro claim op decision event row now hop _ hdecide hevent hrow _ hP
      exact happended claim _ op decision event row now hop hdecide hevent hrow hP

/-! ## A sample call -/

namespace Sample

/-- Outside pieces that behave as the real ones on the sample: the digest is that
of the text of the created event below. -/
def env : Env where
  digest _ := 0xcdeb1a42745f9eee6a66681dd60bdd835b034362f58c6b27dc4b71fa61668e05
  normalizePhone rawPhone := some rawPhone
  jsonb text := some text
  timestamptz instant := instant

/-- 2026-01-02T03:04:05.678Z. -/
def now : Instant where
  year := 2026
  month := 1
  day := 2
  hour := 3
  minute := 4
  second := 5
  nano := 678000000
  date_valid := by decide
  time_valid := by decide

def request : ClaimRequest where
  claimantName := "Asha"
  policyNumber := "P-1"
  claimAmount := ⟨12500, 2⟩
  incidentDate := ⟨20454⟩
  claimantPhone := "+919876500011"
  claimantAddress := "12 MG Rd"
  repairShopName := none

def draws : CreateDraws where
  claimId := ⟨1⟩
  link := ⟨fun | .phone => ⟨2⟩ | .address => ⟨3⟩ | .shop => ⟨4⟩, fun _ => now⟩
  occurredAt := now
  outboxId := ⟨5⟩
  createdAt := now

/-- The database with the one claim of the sample. -/
def created : Db := serve env Db.empty (.createClaim request draws)

/-- An explanation with the members of its objects in the order that a `jsonb` column keeps. -/
def explanation : JsonText :=
  .obj [("summary", .str "Top factor: claim_amount"),
    ("evidence", .arr [.obj [("type", .str "feature_contribution"), ("feature", .str "claim_amount"),
      ("shap_value", .num ⟨false, 6931, 4, none⟩), ("feature_value", .num ⟨false, 1250, 1, none⟩)]])]

/-- A score of the sample claim, with an explanation. -/
def scoring : Call :=
  .onClaim ⟨1⟩ (.score (some ⟨9137, 4⟩) (some "FLAG") (some "ring-1") (some (.text explanation))
    (some "v1")) now

/-- A narrative of that score. -/
def narrating : Call :=
  .onClaim ⟨1⟩ (.narrative (some "The amount is unusual.") true (some "qwen2.5") "ivy"
    .investigator) now

/-- The event a claim is created with, before its hash. -/
def firstDraft : ClaimAuditEvent :=
  AuditService.draftEvent ⟨1⟩ none (createdEntry .submitted) none now

/-- The event of its score, before the hash. -/
def scoringDraft : ClaimAuditEvent :=
  AuditService.draftEvent ⟨1⟩ (some { firstDraft with
      hash := "cdeb1a42745f9eee6a66681dd60bdd835b034362f58c6b27dc4b71fa61668e05" })
    { eventType := .fraudScored
      fromStatus := some .submitted
      toStatus := some .flagged
      actorId := scoringActorId
      actorRole := .system
      reason := none
      fraudScore := some ⟨9137, 4⟩
      ringId := some "ring-1"
      explanationJson := none
      modelVersion := some "v1" } (some explanation) now

/-- The outside pieces of the scored and narrated claim: the digests are those of its texts. -/
def auditEnv : Env :=
  { env with
    digest := fun text =>
      if text = AuditService.hashedText firstDraft then
        0xcdeb1a42745f9eee6a66681dd60bdd835b034362f58c6b27dc4b71fa61668e05
      else if text = AuditService.hashedText scoringDraft then
        0xd45454af55fa8a228c9da668653c959192d71e97ec994cfb65316783def0d07a
      else 0xf5cf9b083c292d3e4f1cdcdc9dcc1db66de6b4e5950816015777f0c75ef87c16 }

/-- The database with the one claim, scored and narrated. -/
def scoredAndNarrated : Db :=
  serve auditEnv (serve auditEnv (serve auditEnv Db.empty (.createClaim request draws)) scoring)
    narrating

theorem created_init : (service env).init Db.empty := ⟨rfl, rfl⟩

end Sample

end ClaimGuard
