import ClaimGuard.EntityGraph
import ClaimGuard.Jsonb
import ClaimGuard.OutboxPublisher
import ClaimGuard.SharedEvidence
import ClaimGuard.Wire

/-!
# The pipeline

The claims service with its publishers, the two topics, and the scoring consumers
behind them: a claim is created with its outbox row, the row is published, a consumer
scores the claim from its cached graph or refreshes it, and the listener applies the
score. Every record may be delivered late, in any order and any number of times, every
process may stop between any two steps, and people act on claims meanwhile. Which records are
read and which refreshes complete is left to the events here; `ClaimGuard.ConsumerGroups`
says what the topics' groups can read, and that no refresh completes on a date that Python
does not have.
-/

namespace ClaimGuard

open ClaimService

deriving instance DecidableEq for LinkRow

/-! ## The consumer -/

section

variable {F : Type} [Floats F]

/-- `_score_with_refresh_fallback`, with how each refresh in it would end: the one that
fills an empty cache, its own, and the one of the second lookup. -/
def scoreWithRefreshFallback (sc : Scoring F) (cache : Cache F) (filling own second : Attempt F)
    (claimId : UUID) : Cache F × Except ScoringError (Option (ClaimScore F)) :=
  match scoreClaims sc cache filling [claimId] with
  | (cache, .error e) => (cache, throw e)
  | (cache, .ok (score :: _)) => (cache, pure (some score))
  | (cache, .ok []) =>
      match refresh sc cache own with
      | (cache, .error e) => (cache, throw e)
      | (cache, .ok _) =>
          match scoreClaims sc cache second [claimId] with
          | (cache, .error e) => (cache, throw e)
          | (cache, .ok results) => (cache, pure results.head?)

end

/-- `uuid.UUID(message.value["claim_id"])`. -/
def claimIdOf (value : JsonText) : Option UUID :=
  match value with
  | .obj fields =>
      match Dict.get fields "claim_id" with
      | some (.str claimId) => UUID.parse? claimId
      | _ => none
  | _ => none

/-! ## The processes -/

/-- What the processes run with: the claims service's surroundings, the scoring service's
model, the logarithm of the weights and the conversion of amounts. -/
structure Services where
  env : Env
  sc : Scoring Double
  log : ℕ → Double
  float : BigDecimal → Double

/-- The graph of a database whose dates can be read, with the rows of the first query in some
order. -/
def Services.graph (svc : Services) (db : Db) (rows : List LinkRow) : Graph Double :=
  graphOf (idfWeight svc.log) svc.float db none rows

/-- What `build_graph` returns on a database. -/
def Services.buildGraph (svc : Services) (db : Db) (rows : List LinkRow) :
    Option (Graph Double) :=
  returnedGraph (idfWeight svc.log) svc.float db none rows

/-- It returns the graph when all dates can be read. -/
theorem Services.buildGraph_eq (svc : Services) {db : Db} (rows : List LinkRow)
    (h : ∀ claim ∈ db.claims, claim.incidentDate.InRange) :
    svc.buildGraph db rows = some (svc.graph db rows) :=
  if_pos fun claim hclaim _ => h claim hclaim

/-- The claims service with its publishers and the `claim.submitted` topic, the running
backlog passes, the caches of the running consumers, and the `claim.scored` topic. -/
structure System where
  deployment : Deployment
  passes : ℕ → Option (List UUID)
  consumers : ℕ → Option (Cache Double)
  scored : List (List Char)

/-- The call is one of the bulk loader or of a backlog pass. -/
def IntakeStep.isBacklog : IntakeStep → Bool
  | .createClaim _ _ => false
  | _ => true

/-- The operation is the one of the listener. -/
def Op.isScore : Op → Bool
  | .score _ _ _ _ _ => true
  | _ => false

/-- A step of the whole system. -/
inductive SystemEvent where
  | publishing (event : Event)
  | backlog (call : IntakeStep)
  | onClaim (claimId : UUID) (op : Op) (now : Instant)
  | startConsumer (consumer : ℕ) (rows : List LinkRow) (completes : Bool)
  | consume (consumer n : ℕ) (rows : List LinkRow) (completes : Bool) (scoredAt : String)
      (accepted : Bool)
  | stopConsumer (consumer : ℕ)
  | deliver (n : ℕ) (now : Instant)

namespace System

/-- The committed database. -/
abbrev db (s : System) : Db := s.deployment.db

/-- The database after a transaction. -/
def setDb (s : System) (db : Db) : System := { s with deployment := { s.deployment with db := db } }

/-- A consumer with its next cache, or stopped. -/
def setConsumer (s : System) (consumer : ℕ) (cache : Option (Cache Double)) : System :=
  { s with consumers := Function.update s.consumers consumer cache }

/-- The ids an intake draws are new, also among those of the entities. -/
def admits (env : Env) (s : System) : Event → Bool
  | .createClaim request draws _ =>
      (Intake.step env ⟨s.db, s.passes⟩ (.createClaim request draws)).isSome
  | _ => true

/-- The loop body of `main`: an exception ends the process. -/
def onMessage (svc : Services) (s : System) (consumer : ℕ) (cache : Cache Double)
    (value : JsonText) (attempt : Attempt Double) (scoredAt : String) (accepted : Bool) : System :=
  match claimIdOf value with
  | none => s.setConsumer consumer none
  | some claimId =>
      match scoreWithRefreshFallback svc.sc cache attempt attempt attempt claimId with
      | (_, .error _) => s.setConsumer consumer none
      | (cache, .ok none) => s.setConsumer consumer (some cache)
      | (cache, .ok (some score)) =>
          -- nobody looks at the future of the send: a lost record is lost
          if accepted then
            { s.setConsumer consumer (some cache) with
              scored := s.scored ++ [serialize (score.modelDump Double.repr scoredAt)] }
          else s.setConsumer consumer (some cache)

/-- One step. A consumer takes a message in one step: the topics say nothing of when. Where
`completes` holds, its refreshes complete. -/
def step (svc : Services) (s : System) : SystemEvent → Option System
  | .publishing event =>
      if s.admits svc.env event then
        (Deployment.step svc.env s.deployment event).map fun d => { s with deployment := d }
      else none
  | .backlog call =>
      if call.isBacklog then
        (Intake.step svc.env ⟨s.db, s.passes⟩ call).map fun i =>
          { s.setDb i.db with passes := i.passes }
      else none
  | .onClaim claimId op now =>
      -- people never have the role of the system
      if op.isScore || !op.byPeople then none
      else some (s.setDb (serve svc.env s.db (.onClaim claimId op now)))
  | .startConsumer consumer rows completes =>
      if rows.isPerm (fetchLinks s.db none) then
        match refresh svc.sc Cache.empty ⟨some (svc.graph s.db rows), completes⟩ with
        | (_, .error _) => some (s.setConsumer consumer none)
        | (cache, .ok _) => some (s.setConsumer consumer (some cache))
      else none
  | .consume consumer n rows completes scoredAt accepted =>
      match s.consumers consumer, s.deployment.topic[n]? with
      | some cache, some record =>
          if record.topic = claimSubmittedTopic && rows.isPerm (fetchLinks s.db none) then
            some (s.onMessage svc consumer cache record.payload
              ⟨some (svc.graph s.db rows), completes⟩ scoredAt accepted)
          else none
      | _, _ => none
  | .stopConsumer consumer => some (s.setConsumer consumer none)
  | .deliver n now =>
      match s.scored[n]? with
      | some payload =>
          match ScoringResultConsumer.onClaimScored svc.env s.db payload now with
          | .ok db => some (s.setDb db)
          | .error _ => some s
      | none => none

end System

/-- The system, started on empty tables with no process running. -/
def pipeline (svc : Services) : Lts System SystemEvent where
  init s := s.deployment.db = Db.empty ∧ s.deployment.topic = [] ∧ s.deployment.onTheWay = [] ∧
    (∀ publisher, s.deployment.ticks publisher = none) ∧ (∀ pass, s.passes pass = none) ∧
    (∀ consumer, s.consumers consumer = none) ∧ s.scored = []
  step := System.step svc

/-! ## What a step does to the database -/

/-- The operation that a delivered record asks for. -/
def ScoringResultConsumer.ScoredRecord.op (record : ScoredRecord) : Op :=
  .score (some record.fraudScore) (some record.decisionHint) record.ringId record.explanationJson
    (some record.modelVersion)

/-- The listener takes the operation on the claim from the payload. -/
def ScoringResultConsumer.Asks (payload : List Char) (claimId : UUID) (op : Op) : Prop :=
  ∃ t record, JsonText.readFirst payload = some t ∧
    fieldsOf (CanonicalJson.parse t) = .ok record ∧ claimId = record.claimId ∧ op = record.op

/-- An operation that a step may perform: one that people call, or the one that a delivered
record asks for. -/
def System.Asks (s : System) (event : SystemEvent) (claimId : UUID) (op : Op) : Prop :=
  (op.isScore = false ∧ op.byPeople = true) ∨ ∃ n now payload, event = .deliver n now ∧
    s.scored[n]? = some payload ∧ ScoringResultConsumer.Asks payload claimId op

/-- What a step does to the database: to claims, links and trails nothing, or what an
intake, a step of a backlog pass or an operation on a claim does. -/
inductive DbStep (env : Env) (asks : UUID → Op → Prop) (db db' : Db) : Prop where
  | outbox (hlinks : SameLinks db db') (hevents : db'.auditEvents = db.auditEvents)
      (hrecords : ∀ row' ∈ db'.outbox, ∃ row ∈ db.outbox, row'.record = row.record)
  | created (request : ClaimRequest) (draws : CreateDraws) (passes : ℕ → Option (List UUID))
      (hstep : Intake.step env ⟨db, passes⟩ (.createClaim request draws) = some ⟨db', passes⟩)
      (h : createClaim env db request draws = .ok db')
  | backlog (call : IntakeStep) (passes passes' : ℕ → Option (List UUID))
      (hcall : call.isBacklog = true)
      (h : Intake.step env ⟨db, passes⟩ call = some ⟨db', passes'⟩)
  | performed (claimId : UUID) (op : Op) (now : Instant) (hasks : asks claimId op)
      (h : perform env db claimId op now = .ok db')

theorem DbStep.refl (env : Env) (asks : UUID → Op → Prop) (db : Db) : DbStep env asks db db :=
  .outbox ⟨rfl, rfl, rfl⟩ rfl fun row h => ⟨row, h, rfl⟩

/-- An intake that commits is a step of the intake. -/
theorem intakeStep_of_createClaim {env : Env} {s : Intake} {db : Db} {request : ClaimRequest}
    {draws : CreateDraws} (hadmits : (Intake.step env s (.createClaim request draws)).isSome)
    (h : createClaim env s.db request draws = .ok db) :
    Intake.step env s (.createClaim request draws) = some ⟨db, s.passes⟩ := by
  simp only [Intake.step, h] at hadmits ⊢
  split at hadmits
  · rename_i hfresh
    rw [if_pos hfresh]
  · cases hadmits

/-- A publisher's step marks a row at most; an intake creates its claim or nothing. -/
theorem dbStep_of_publishing {svc : Services} {s : System} {event : Event} {d : Deployment}
    (hadmits : s.admits svc.env event = true)
    (h : Deployment.step svc.env s.deployment event = some d) :
    DbStep svc.env (s.Asks (.publishing event)) s.db d.db := by
  cases event with
  | createClaim request draws commits =>
      simp only [Deployment.step] at h
      split at h
      · split at h <;> cases h
        · rename_i hcreate
          exact .created request draws s.passes (intakeStep_of_createClaim hadmits hcreate) hcreate
        · exact .refl _ _ _
      · cases h
  | readPending publisher =>
      simp only [Deployment.step] at h
      split at h <;> cases h
      exact .refl _ _ _
  | send publisher outcome =>
      simp only [Deployment.step] at h
      split at h <;> cases h
      cases outcome <;> exact .refl _ _ _
  | lateAccept n =>
      simp only [Deployment.step] at h
      split at h <;> cases h
      exact .refl _ _ _
  | markSent publisher now commits =>
      simp only [Deployment.step] at h
      split at h <;> cases h
      cases commits with
      | false => exact .refl _ _ _
      | true =>
          refine .outbox ⟨rfl, rfl, rfl⟩ rfl fun row' hrow' => ?_
          rcases mem_markSent hrow' with ⟨row, hrow, heq, -⟩
          exact ⟨row, hrow, by rw [heq]; rfl⟩
  | finish publisher =>
      simp only [Deployment.step] at h
      split at h <;> cases h
      exact .refl _ _ _
  | crash publisher =>
      cases h
      exact .refl _ _ _

theorem dbStep_of_onClaim {svc : Services} {s : System} {claimId : UUID} {op : Op} {now : Instant}
    (hop : op.isScore = false) (hpeople : op.byPeople = true) :
    DbStep svc.env (s.Asks (.onClaim claimId op now)) s.db
      (serve svc.env s.db (.onClaim claimId op now)) := by
  unfold serve
  cases hexec : execute svc.env s.db (.onClaim claimId op now) with
  | error failure => exact .refl _ _ _
  | ok db =>
      rcases execute_onClaim hexec with rfl | hperform
      · exact .refl _ _ _
      · exact .performed claimId op now (Or.inl ⟨hop, hpeople⟩) hperform

theorem dbStep_of_delivery {svc : Services} {s : System} {n : ℕ} {payload : List Char}
    {now : Instant} {db : Db} (hpayload : s.scored[n]? = some payload)
    (h : ScoringResultConsumer.onClaimScored svc.env s.db payload now = .ok db) :
    DbStep svc.env (s.Asks (.deliver n now)) s.db db := by
  rcases ScoringResultConsumer.onClaimScored_ok h with rfl | ⟨t, record, hread, hfields, happly⟩
  · exact .refl _ _ _
  · unfold ScoringResultConsumer.apply at happly
    have hexecute : execute svc.env s.db (.onClaim record.claimId record.op now) = .ok db := happly
    rcases execute_onClaim hexecute with rfl | hperform
    · exact .refl _ _ _
    · exact .performed record.claimId record.op now
        (Or.inr ⟨n, now, payload, rfl, hpayload, t, record, hread, hfields, rfl, rfl⟩) hperform

@[simp] theorem System.db_setConsumer (s : System) (consumer : ℕ) (cache : Option (Cache Double)) :
    (s.setConsumer consumer cache).db = s.db := rfl

/-- A message leaves the claims service alone. -/
theorem System.deployment_onMessage (svc : Services) (s : System) (consumer : ℕ)
    (cache : Cache Double) (value : JsonText) (attempt : Attempt Double) (scoredAt : String)
    (accepted : Bool) :
    (s.onMessage svc consumer cache value attempt scoredAt accepted).deployment = s.deployment := by
  unfold System.onMessage
  split
  · rfl
  · split
    · rfl
    · rfl
    · split <;> rfl

@[simp] theorem System.db_onMessage (svc : Services) (s : System) (consumer : ℕ)
    (cache : Cache Double) (value : JsonText) (attempt : Attempt Double) (scoredAt : String)
    (accepted : Bool) :
    (s.onMessage svc consumer cache value attempt scoredAt accepted).db = s.db :=
  congrArg Deployment.db (s.deployment_onMessage svc consumer cache value attempt scoredAt accepted)

/-- What one step of the system does to the database. -/
theorem System.dbStep {svc : Services} {s s' : System} {event : SystemEvent}
    (h : System.step svc s event = some s') : DbStep svc.env (s.Asks event) s.db s'.db := by
  cases event with
  | publishing event =>
      simp only [System.step] at h
      split at h
      · rename_i hadmits
        rcases Option.map_eq_some_iff.1 h with ⟨d, hd, rfl⟩
        exact dbStep_of_publishing hadmits hd
      · cases h
  | backlog call =>
      simp only [System.step] at h
      split at h
      · rename_i hcall
        rcases Option.map_eq_some_iff.1 h with ⟨i, hi, rfl⟩
        exact .backlog call s.passes i.passes hcall hi
      · cases h
  | onClaim claimId op now =>
      simp only [System.step] at h
      split at h <;> cases h
      rename_i hop
      rw [Bool.or_eq_true, not_or, Bool.not_eq_true, Bool.not_eq_true, Bool.not_eq_false'] at hop
      exact dbStep_of_onClaim hop.1 hop.2
  | startConsumer consumer rows completes =>
      simp only [System.step] at h
      split at h
      · split at h <;> cases h <;> exact .refl _ _ _
      · cases h
  | consume consumer n rows completes scoredAt accepted =>
      simp only [System.step] at h
      split at h
      · split at h <;> cases h
        rw [System.db_onMessage]
        exact .refl _ _ _
      · cases h
  | stopConsumer consumer =>
      cases h
      exact .refl _ _ _
  | deliver n now =>
      simp only [System.step] at h
      split at h
      · rename_i payload hpayload
        split at h <;> cases h
        · rename_i db hdelivered
          exact dbStep_of_delivery hpayload hdelivered
        · exact .refl _ _ _
      · cases h

/-! ## What stays -/

/-- Nothing is taken back: a claim keeps all but its status, entities and links stay, and
events are only appended. -/
structure Db.Within (db db' : Db) : Prop where
  claims : ∀ claim ∈ db.claims, ∃ status, { claim with status := status } ∈ db'.claims
  refs : ∀ r ∈ db.refs, r ∈ db'.refs
  links : ∀ id entityType value, db.HasLink id entityType value → db'.HasLink id entityType value
  events : db.auditEvents <+: db'.auditEvents

theorem Db.Within.refl (db : Db) : db.Within db :=
  ⟨fun claim h => ⟨claim.status, h⟩, fun _ h => h, fun _ _ _ h => h, List.prefix_refl _⟩

theorem Db.Within.trans {db db' db'' : Db} (h : db.Within db') (h' : db'.Within db'') :
    db.Within db'' := by
  refine ⟨?_, fun r hr => h'.refs r (h.refs r hr),
    fun id T v hl => h'.links id T v (h.links id T v hl), h.events.trans h'.events⟩
  intro claim hclaim
  rcases h.claims claim hclaim with ⟨status, hmem⟩
  rcases h'.claims _ hmem with ⟨status', hmem'⟩
  exact ⟨status', hmem'⟩

/-- The status of a claim is in no canonical value. -/
theorem canonicalValue_status (env : Env) (claim : Claim) (status : ClaimStatus)
    (entityType : EntityType) :
    canonicalValue env { claim with status := status } entityType =
      canonicalValue env claim entityType := by
  cases entityType <;> rfl

/-- Claims, entities and links are only added. -/
structure Db.Keeps (db db' : Db) : Prop where
  claims : ∀ claim ∈ db.claims, claim ∈ db'.claims
  refs : ∀ r ∈ db.refs, r ∈ db'.refs
  links : ∀ id entityType value, db.HasLink id entityType value → db'.HasLink id entityType value

theorem Db.Keeps.trans {db db' db'' : Db} (h : db.Keeps db') (h' : db'.Keeps db'') :
    db.Keeps db'' :=
  ⟨fun c hc => h'.claims c (h.claims c hc), fun r hr => h'.refs r (h.refs r hr),
    fun id T v hl => h'.links id T v (h.links id T v hl)⟩

theorem Db.Keeps.of_same {db db' : Db} (hclaims : ∀ claim ∈ db.claims, claim ∈ db'.claims)
    (hentities : db'.entities = db.entities) (hlinks : db'.claimEntities = db.claimEntities) :
    db.Keeps db' := by
  have hrefs : db'.refs = db.refs := by rw [Db.refs, Db.refs, hentities]
  refine ⟨hclaims, by rw [hrefs]; exact fun _ h => h, fun id T v hl => ?_⟩
  unfold Db.HasLink at *
  rwa [hrefs, hlinks]

theorem Db.Keeps.refl (db : Db) : db.Keeps db := .of_same (fun _ h => h) rfl rfl

/-- One link only adds. -/
theorem refs_of_foldlM {env : Env} {draws : LinkDraws} {claim : Claim}
    (fields : List (EntityType × String × String)) {db db' : Db}
    (hkeys : (db.refs.map Prod.snd).Nodup)
    (h : fields.foldlM (fun db f => EntityService.link env draws db claim f.1 f.2.1 f.2.2) db =
      .ok db') : ∀ r ∈ db.refs, r ∈ db'.refs := by
  induction fields generalizing db with
  | nil =>
      rcases Results.pure_eq_ok.1 h with rfl
      exact fun _ hr => hr
  | cons f fields ih =>
      rw [List.foldlM_cons] at h
      rcases Results.bind_eq_ok.1 h with ⟨db₁, hfirst, hrest⟩
      rcases link_ok hkeys hfirst with ⟨id, -, hupserted, -⟩
      intro r hr
      exact ih (hupserted.nodup_keys hkeys) hrest r (hupserted.keep hr)

/-- Resolving a claim only adds. -/
theorem keeps_of_resolveAndLink {env : Env} {draws : LinkDraws} {db db' : Db} {claim : Claim}
    (hr : db.Resolved env) (hclaim : claim ∈ db.claims)
    (hfresh : ∀ c ∈ db.claims, ∀ entityType, c.id ≠ draws.entityId entityType)
    (h : EntityService.resolveAndLink env draws db claim = .ok db') : db.Keeps db' := by
  have hlinks := (links_of_resolveAndLink hr.toLinkTables hclaim hfresh h).1
  rcases normalizePhone_of_resolveAndLink h with ⟨phone, -, hfields⟩
  exact ⟨fun c hc => hlinks.claims ▸ hc, refs_of_foldlM _ hr.entityKeys hfields, hlinks.keep⟩

/-- An intake step only adds. -/
theorem keeps_of_intake {env : Env} {s s' : Intake} {call : IntakeStep} (hr : s.db.Resolved env)
    (h : Intake.step env s call = some s') : s.db.Keeps s'.db := by
  have hinsert : ∀ {db db' : Db} {claim : Claim}, Inserted db db' claim → db.Keeps db' :=
    fun hi => .of_same (fun c hc => hi.mem.2 (Or.inl hc)) hi.entities hi.claimEntities
  cases call with
  | createClaim request draws =>
      rcases Intake.step_createClaim h with
        rfl | ⟨db₁, db₂, claim, hinserted, hfresh, hresolve, hsame⟩
      · exact .refl _
      · have hkeeps := keeps_of_resolveAndLink (hr.insert hinserted)
          (hinserted.mem.2 (Or.inr rfl)) hfresh hresolve
        exact ((hinsert hinserted).trans hkeeps).trans
          (.of_same (fun c hc => hsame.claims ▸ hc) hsame.entities hsame.claimEntities)
  | bulkLoad claim =>
      rcases Intake.step_bulkLoad h with rfl | ⟨amount, hinserted⟩
      · exact .refl _
      · exact hinsert hinserted
  | startBacklog pass =>
      rw [Intake.step_startBacklog h]
      exact .refl _
  | resolveNext pass draws =>
      rcases Intake.step_resolveNext h with ⟨-, hdb⟩ | ⟨claimId, claimIds, -, hfresh, hone⟩
      · rw [hdb]
        exact .refl _
      · rcases hone with hresolve | ⟨hdb, -⟩
        · unfold EntityService.resolveOne at hresolve
          split at hresolve
          · rw [← Results.pure_eq_ok.1 hresolve]
            exact .refl _
          · rename_i claim hclaim
            exact keeps_of_resolveAndLink hr (Table.find_eq_some hclaim).1 hfresh hresolve
        · rw [hdb]
          exact .refl _

/-- A bulk load and a backlog pass write no event and queue nothing. -/
theorem sameTrails_of_backlog {env : Env} {s s' : Intake} {call : IntakeStep}
    (hcall : call.isBacklog = true) (h : Intake.step env s call = some s') :
    s'.db.auditEvents = s.db.auditEvents ∧ s'.db.outbox = s.db.outbox := by
  cases call with
  | createClaim request draws => cases hcall
  | bulkLoad claim =>
      simp only [Intake.step] at h
      split at h
      · split at h <;> cases h
        · rename_i db hinsert
          rcases Db.insertClaim_ok hinsert with ⟨amount, -, rfl⟩
          exact ⟨rfl, rfl⟩
        · exact ⟨rfl, rfl⟩
      · cases h
  | startBacklog pass =>
      rw [Intake.step_startBacklog h]
      exact ⟨rfl, rfl⟩
  | resolveNext pass draws =>
      rcases Intake.step_resolveNext h with ⟨-, hdb⟩ | ⟨claimId, claimIds, -, -, hone⟩
      · rw [hdb]
        exact ⟨rfl, rfl⟩
      · rcases hone with hresolve | ⟨hdb, -⟩
        · unfold EntityService.resolveOne at hresolve
          split at hresolve
          · rw [← Results.pure_eq_ok.1 hresolve]
            exact ⟨rfl, rfl⟩
          · rcases EntityService.sameBeyondEntities_resolveAndLink hresolve with ⟨-, h₁, h₂⟩
            exact ⟨h₁, h₂⟩
        · rw [hdb]
          exact ⟨rfl, rfl⟩

/-- The rows of the claims after an operation: those there were, up to their status. -/
theorem claims_of_perform {env : Env} {db db' : Db} {claimId : UUID} {op : Op} {now : Instant}
    (hids : Table.UniqueKeys Claim.id db.claims) (h : perform env db claimId op now = .ok db') :
    Table.UniqueKeys Claim.id db'.claims ∧
      (∀ claim ∈ db.claims, ∃ status, { claim with status := status } ∈ db'.claims) ∧
      ∀ claim ∈ db'.claims, ∃ old ∈ db.claims, ∃ status, claim = { old with status := status } := by
  rcases perform_ok h with ⟨claim, decision, event, row, hclaim, hdecide, -, -, -, rfl⟩
  rcases Table.find_eq_some hclaim with ⟨hmem, -⟩
  rcases decideOp_ok hdecide with ⟨toStatus, -, -, hsaved | ⟨hsaved, -⟩⟩
  · rw [hsaved]
    have hsave := fun x => Table.mem_save hids (r := { claim with status := toStatus }) (x := x)
    refine ⟨Table.uniqueKeys_save hids _, ?_, ?_⟩
    · intro c hc
      by_cases hid : c.id = claim.id
      · obtain rfl : c = claim := List.inj_on_of_nodup_map hids hc hmem hid
        exact ⟨toStatus, (hsave _).2 (Or.inl rfl)⟩
      · exact ⟨c.status, (hsave _).2 (Or.inr ⟨hc, hid⟩)⟩
    · intro c hc
      rcases (hsave c).1 hc with rfl | ⟨hold, -⟩
      · exact ⟨claim, hmem, toStatus, rfl⟩
      · exact ⟨c, hold, c.status, rfl⟩
  · rw [hsaved]
    exact ⟨hids, fun c hc => ⟨c.status, hc⟩, fun c hc => ⟨c, hc, c.status, rfl⟩⟩

/-- An operation writes one event, and no entity, link or outbox row. -/
theorem sameLinks_of_perform {env : Env} {db db' : Db} {claimId : UUID} {op : Op} {now : Instant}
    (h : perform env db claimId op now = .ok db') :
    db'.entities = db.entities ∧ db'.claimEntities = db.claimEntities ∧ db'.outbox = db.outbox ∧
      ∃ row, db'.auditEvents = db.auditEvents ++ [row] := by
  rcases perform_ok h with ⟨claim, decision, event, row, -, -, -, -, -, rfl⟩
  cases decision.saved <;> exact ⟨rfl, rfl, rfl, row, rfl⟩

/-- An operation keeps resolved claims resolved. -/
theorem Db.Resolved.perform {env : Env} {db db' : Db} {claimId : UUID} {op : Op} {now : Instant}
    (hr : db.Resolved env) (h : ClaimService.perform env db claimId op now = .ok db') :
    db'.Resolved env := by
  obtain ⟨hids, hkeep, horigin⟩ := claims_of_perform hr.claimIds h
  obtain ⟨hentities, hlinks, -, -⟩ := sameLinks_of_perform h
  have hrefs : db'.refs = db.refs := by rw [Db.refs, Db.refs, hentities]
  refine ⟨⟨hids, by rw [hrefs]; exact hr.entityIds, by rw [hrefs]; exact hr.entityKeys,
    by rw [hlinks]; exact hr.linkIds, ?_, ?_⟩, ?_⟩
  · intro l hl
    rw [hlinks] at hl
    rcases hr.sound l hl with ⟨c, hc, r, hr', hid, hvalue⟩
    rcases hkeep c hc with ⟨status, hc'⟩
    exact ⟨_, hc', r, by rwa [hrefs], hid, by rwa [canonicalValue_status]⟩
  · intro c hc r hmem
    rw [hrefs] at hmem
    rcases horigin c hc with ⟨old, hold, status, rfl⟩
    exact hr.apart old hold r hmem
  · intro c hc hlinked entityType value hvalue
    rcases horigin c hc with ⟨old, hold, status, rfl⟩
    rw [canonicalValue_status] at hvalue
    unfold Db.IsLinked at hlinked
    rw [hlinks] at hlinked
    have hkeeps : ({ db with claims := db'.claims } : Db).Keeps db' :=
      .of_same (fun _ h => h) hentities hlinks
    exact hkeeps.links _ _ _ (hr.complete old hold hlinked entityType value hvalue)

section

variable {env : Env} {asks : UUID → Op → Prop} {db db' : Db}

/-- No step leaves a claim half resolved. -/
theorem DbStep.resolved (h : DbStep env asks db db') (hr : db.Resolved env) :
    db'.Resolved env := by
  cases h with
  | outbox hlinks hevents hrecords => exact hr.congr hlinks
  | created request draws passes hstep h => exact Db.Resolved.step (s := ⟨db, passes⟩) hr hstep
  | backlog call passes passes' hcall h => exact Db.Resolved.step (s := ⟨db, passes⟩) hr h
  | performed claimId op now hasks h => exact hr.perform h

/-- Additions take nothing back. -/
theorem Db.Keeps.within (h : db.Keeps db') (hevents : db.auditEvents <+: db'.auditEvents) :
    db.Within db' :=
  ⟨fun c hc => ⟨c.status, h.claims c hc⟩, h.refs, h.links, hevents⟩

/-- No step takes anything back. -/
theorem DbStep.within (h : DbStep env asks db db') (hr : db.Resolved env) : db.Within db' := by
  cases h with
  | outbox hlinks hevents hrecords =>
      exact (Db.Keeps.of_same (fun c hc => hlinks.claims ▸ hc) hlinks.entities
        hlinks.claimEntities).within (by rw [hevents])
  | created request draws passes hstep h =>
      refine (keeps_of_intake (s := ⟨db, passes⟩) hr hstep).within ?_
      obtain ⟨claim, event, row, payload, db₁, db₂, -, -, -, -, -, -, -, -, -, hdb'⟩ :=
        createClaim_ok h
      rw [hdb']
      exact List.prefix_append _ _
  | backlog call passes passes' hcall h =>
      refine (keeps_of_intake (s := ⟨db, passes⟩) hr h).within ?_
      rw [(sameTrails_of_backlog hcall h).1]
  | performed claimId op now hasks h =>
      obtain ⟨hentities, hlinks, -, row, hevents⟩ := sameLinks_of_perform h
      have hkeeps : ({ db with claims := db'.claims } : Db).Keeps db' :=
        .of_same (fun _ h => h) hentities hlinks
      refine ⟨(claims_of_perform hr.claimIds h).2.1, hkeeps.refs, hkeeps.links, ?_⟩
      rw [hevents]
      exact List.prefix_append _ _

/-- A new event is the first of a claim's trail or the one of an operation. -/
theorem DbStep.mem_events (h : DbStep env asks db db') {row : ClaimAuditEvent}
    (hrow : row ∈ db'.auditEvents) :
    row ∈ db.auditEvents ∨ row.eventType = .claimCreated ∨
      ∃ claimId op claim decision event previous now, asks claimId op ∧
        db.findById claimId = some claim ∧ decideOp op claim = .ok decision ∧
        AuditService.nextEvent env claimId previous decision.entry now = .ok event ∧
        Db.storeAuditEvent env event = .ok row := by
  cases h with
  | outbox hlinks hevents hrecords => exact Or.inl (hevents ▸ hrow)
  | created request draws passes hstep h =>
      obtain ⟨claim, event, row', payload, db₁, db₂, -, -, -, -, -, -, hevent, hstored, -, rfl⟩ :=
        createClaim_ok h
      rcases List.mem_append.1 hrow with hold | hnew
      · exact Or.inl hold
      · rw [List.mem_singleton.1 hnew]
        exact Or.inr (Or.inl (nextRow_of_stored hevent hstored).eventType_eq)
  | backlog call passes passes' hcall h =>
      rw [(sameTrails_of_backlog hcall h).1] at hrow
      exact Or.inl hrow
  | performed claimId op now hasks h =>
      rcases perform_ok h with ⟨claim, decision, event, row', hclaim, hdecide, hevent, hstored, -,
        rfl⟩
      rcases List.mem_append.1 hrow with hold | hnew
      · exact Or.inl hold
      · rw [List.mem_singleton.1 hnew]
        exact Or.inr (Or.inr ⟨claimId, op, claim, decision, event, _, now, hasks, hclaim, hdecide,
          hevent, hstored⟩)

end

end ClaimGuard
