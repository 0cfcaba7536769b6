import ClaimGuard.Runs

/-!
# The outbox and its publishers

Intake queues a row in the transaction that creates the claim; any number of
publishers read the pending rows, send them to the broker one by one and mark the
rows whose send was acknowledged. A send may fail before or after the broker
accepted it, or be accepted later; a mark may fail; a publisher may crash between
any two steps. Three stores are related over all of it: the claims, the outbox and
the topic.
-/

namespace ClaimGuard

open ClaimService

/-- A record in the broker: its topic, key and payload. -/
structure OutboxRecord where
  topic : String
  key : String
  payload : JsonText

/-- What `publishPending` sends for a row. -/
def OutboxEvent.record (event : OutboxEvent) : OutboxRecord :=
  ⟨event.topic, event.aggregateId.toString, event.payload⟩

/-- How a send ends: acknowledged in time, or with an exception after the broker
accepted the record, before it did, or while the record is still on its way. -/
inductive SendOutcome where
  | acknowledged
  | failedAfterAccept
  | failedBeforeAccept
  | timedOut

/-- The row to be marked after a send: an exception goes on to the next row. -/
def acknowledgedBy (event : OutboxEvent) : SendOutcome → Option OutboxEvent
  | .acknowledged => some event
  | _ => none

/-- A run of `publishPending`: the rows it read, those it has tried to send, the row
whose send was acknowledged and that is to be marked, and the rows still to come. -/
structure Tick where
  pending : List OutboxEvent
  attempted : List OutboxEvent
  acknowledged : Option OutboxEvent
  rest : List OutboxEvent

/-- The committed database, the records the broker accepted and those on their way,
the running ticks, the ticks that came to their end, and the claims whose creation
was rolled back. -/
structure Deployment where
  db : Db
  topic : List OutboxRecord
  onTheWay : List OutboxRecord
  ticks : ℕ → Option Tick
  ended : List Tick
  rolledBack : List UUID

/-- A step: an intake that commits or rolls back as a whole, or a step of a
publisher or of the broker. -/
inductive Event where
  | createClaim (request : ClaimRequest) (draws : CreateDraws) (commits : Bool)
  | readPending (publisher : ℕ)
  | send (publisher : ℕ) (outcome : SendOutcome)
  | lateAccept (n : ℕ)
  | markSent (publisher : ℕ) (now : Instant) (commits : Bool)
  | finish (publisher : ℕ)
  | crash (publisher : ℕ)

namespace Deployment

/-- Random identifiers are drawn once. -/
def isFresh (s : Deployment) (draws : CreateDraws) : Bool :=
  (s.db.findById draws.claimId).isNone && !s.rolledBack.contains draws.claimId &&
    s.db.outbox.all fun e => decide (e.id ≠ draws.outboxId)

/-- A tick in its next state. -/
def setTick (s : Deployment) (publisher : ℕ) (tick : Tick) : Deployment :=
  { s with ticks := Function.update s.ticks publisher (some tick) }

/-- The publisher is idle again. -/
def clearTick (s : Deployment) (publisher : ℕ) : Deployment :=
  { s with ticks := Function.update s.ticks publisher none }

/-- What a send does to the records. -/
def accept (s : Deployment) (record : OutboxRecord) : SendOutcome → Deployment
  | .acknowledged | .failedAfterAccept => { s with topic := s.topic ++ [record] }
  | .failedBeforeAccept => s
  | .timedOut => { s with onTheWay := s.onTheWay ++ [record] }

/-- One step. -/
def step (env : Env) (s : Deployment) : Event → Option Deployment
  | .createClaim request draws commits =>
      if s.isFresh draws then
        match createClaim env s.db request draws, commits with
        | .ok db, true => some { s with db := db }
        | _, _ => some { s with rolledBack := draws.claimId :: s.rolledBack }
      else none
  | .readPending publisher =>
      match s.ticks publisher with
      | some _ => none
      | none =>
          -- one query for the whole tick: rows queued later wait for the next one
          let pending := s.db.findBySentAtIsNullOrderByCreatedAtAsc
          some (s.setTick publisher ⟨pending, [], none, pending⟩)
  | .send publisher outcome =>
      match s.ticks publisher with
      | some ⟨pending, attempted, none, event :: rest⟩ =>
          some ((s.accept event.record outcome).setTick publisher
            ⟨pending, attempted ++ [event], acknowledgedBy event outcome, rest⟩)
      | _ => none
  | .lateAccept n =>
      match s.onTheWay[n]? with
      | some record =>
          some { s with topic := s.topic ++ [record], onTheWay := s.onTheWay.eraseIdx n }
      | none => none
  | .markSent publisher now commits =>
      match s.ticks publisher with
      | some ⟨pending, attempted, some event, rest⟩ =>
          some { s.setTick publisher ⟨pending, attempted, none, rest⟩ with
            db := if commits then s.db.markSent env event.id now else s.db }
      | _ => none
  | .finish publisher =>
      match s.ticks publisher with
      | some ⟨pending, attempted, none, []⟩ =>
          some { s.clearTick publisher with ended := ⟨pending, attempted, none, []⟩ :: s.ended }
      | _ => none
  -- what was sent and not yet marked stays pending
  | .crash publisher => some (s.clearTick publisher)

end Deployment

/-- The intake and its publishers, started on empty tables. -/
def publishing (env : Env) : Lts Deployment Event where
  init s := s.db.claims = [] ∧ s.db.outbox = [] ∧ s.ended = [] ∧ s.rolledBack = [] ∧
    ∀ publisher, s.ticks publisher = none
  step := Deployment.step env

/-! ## The outbox table -/

/-- The outbox rows of a claim. -/
def Db.outboxOf (db : Db) (claimId : UUID) : List OutboxEvent :=
  db.outbox.filter fun e => decide (e.aggregateId = claimId)

/-- The outbox belongs to the claims: rows have distinct ids and each carries the
id of a claim, and each claim has one row. -/
structure Db.Queued (env : Env) (db : Db) : Prop where
  uniqueIds : Table.UniqueKeys OutboxEvent.id db.outbox
  owned : ∀ row ∈ db.outbox, (db.findById row.aggregateId).isSome ∧
    row.topic = claimSubmittedTopic ∧
    env.jsonb (OutboxService.claimSubmittedPayload row.aggregateId) = some row.payload
  one : ∀ id, (db.findById id).isSome → (db.outboxOf id).length = 1

/-- A committed claim has one outbox row, which carries its id. -/
theorem Db.Queued.exists_row {env : Env} {db : Db} (hq : db.Queued env) {claim : Claim}
    (hclaim : claim ∈ db.claims) :
    ∃ row ∈ db.outbox, db.outboxOf claim.id = [row] ∧ row.topic = claimSubmittedTopic ∧
      env.jsonb (OutboxService.claimSubmittedPayload claim.id) = some row.payload := by
  have hexists : (db.findById claim.id).isSome := Table.find_isSome.2 ⟨claim, hclaim, rfl⟩
  rcases List.length_eq_one_iff.1 (hq.one claim.id hexists) with ⟨row, hrow⟩
  have hmem : row ∈ db.outbox ∧ row.aggregateId = claim.id := by
    have : row ∈ db.outboxOf claim.id := by simp [hrow]
    simpa [Db.outboxOf] using this
  rcases hq.owned row hmem.1 with ⟨-, htopic, hpayload⟩
  rw [hmem.2] at hpayload
  exact ⟨row, hmem.1, hrow, htopic, hpayload⟩

/-- A created claim brings a claim row and an unsent outbox row. -/
theorem createClaim_queues {env : Env} {db db' : Db} {request : ClaimRequest} {draws : CreateDraws}
    (h : createClaim env db request draws = .ok db')
    (hfresh : ∀ e ∈ db.outbox, e.id ≠ draws.outboxId) :
    ∃ claim row, claim.id = draws.claimId ∧ db.findById claim.id = none ∧
      db'.claims = db.claims ++ [claim] ∧ db'.outbox = db.outbox ++ [row] ∧
      row.id = draws.outboxId ∧ row.aggregateId = claim.id ∧ row.topic = claimSubmittedTopic ∧
      env.jsonb (OutboxService.claimSubmittedPayload claim.id) = some row.payload ∧
      row.sentAt = none := by
  obtain ⟨claim, event, row, payload, db₁, db₂, hnew, hid, -, -, hdb₁, hresolve, -, -, hpayload,
    hdb'⟩ := createClaim_ok h
  rcases EntityService.sameBeyondEntities_resolveAndLink hresolve with ⟨hclaims, -, -⟩
  refine ⟨claim, ⟨draws.outboxId, claim.id, claimSubmittedTopic, payload,
    env.timestamptz draws.createdAt, none⟩, hid, hnew, ?_, ?_, rfl, rfl, rfl, hpayload, rfl⟩
  · rw [hdb', hclaims, hdb₁]
  · rw [hdb']
    exact Table.save_of_find_none (Table.find_eq_none.2 hfresh)

/-- Creating a claim keeps the outbox. -/
theorem Db.Queued.createClaim {env : Env} {db db' : Db} {request : ClaimRequest}
    {draws : CreateDraws} (hq : db.Queued env)
    (h : ClaimService.createClaim env db request draws = .ok db')
    (hfresh : ∀ e ∈ db.outbox, e.id ≠ draws.outboxId) : db'.Queued env := by
  obtain ⟨claim, row, -, hnew, hclaims, houtbox, hrowId, howner, htopic, hpayload, -⟩ :=
    createClaim_queues h hfresh
  have hnone : ∀ e ∈ db.outbox, e.aggregateId ≠ claim.id := by
    intro e he heq
    have hexists := (hq.owned e he).1
    rw [heq, hnew] at hexists
    cases hexists
  refine ⟨?_, ?_, ?_⟩
  · have hsave := Table.uniqueKeys_save hq.uniqueIds row
    rwa [Table.save_of_find_none (Table.find_eq_none.2 (by rwa [hrowId])), ← houtbox] at hsave
  · intro e he
    rw [houtbox] at he
    rw [findById_append hclaims]
    rcases List.mem_append.1 he with he | he
    · rcases hq.owned e he with ⟨hexists, hrest⟩
      exact ⟨by rw [Option.isSome_or, hexists, Bool.true_or], hrest⟩
    · rw [List.mem_singleton.1 he, howner]
      exact ⟨by simp, htopic, hpayload⟩
  · intro id hid
    unfold Db.outboxOf
    rw [houtbox, List.filter_append]
    by_cases heq : claim.id = id
    -- the new claim has no row but the one queued with it
    · have hold : (db.outbox.filter fun e => decide (e.aggregateId = id)) = [] := by
        rw [List.filter_eq_nil_iff]
        intro e he hmatch
        exact hnone e he (by rw [of_decide_eq_true hmatch, heq])
      rw [hold]
      simp [howner, heq]
    · rw [findById_append hclaims, if_neg heq, Option.or_none] at hid
      have hone := hq.one id hid
      unfold Db.outboxOf at hone
      simp [howner, heq, hone]

/-- The row `markSent` leaves for a row. -/
theorem mem_markSent {env : Env} {db : Db} {id : UUID} {now : Instant} {row' : OutboxEvent}
    (h : row' ∈ (db.markSent env id now).outbox) :
    ∃ row ∈ db.outbox, row' = { row with sentAt := row'.sentAt } ∧
      (row.id = id ∨ row'.sentAt = row.sentAt) := by
  -- marking maps over the table and changes `sentAt` at most
  rcases List.mem_map.1 h with ⟨row, hrow, rfl⟩
  refine ⟨row, hrow, ?_, ?_⟩
  · split <;> rfl
  · split
    · rename_i hid
      exact Or.inl hid
    · exact Or.inr rfl

/-- Every row is left, and only the time it was sent may change. -/
theorem mem_markSent_of_mem {env : Env} {db : Db} {id : UUID} {now : Instant} {row : OutboxEvent}
    (h : row ∈ db.outbox) :
    ∃ row' ∈ (db.markSent env id now).outbox, row' = { row with sentAt := row'.sentAt } := by
  refine ⟨_, List.mem_map_of_mem h, ?_⟩
  split <;> rfl

/-- Marking a row changes no id. -/
theorem uniqueKeys_markSent {env : Env} {db : Db} (h : Table.UniqueKeys OutboxEvent.id db.outbox)
    (id : UUID) (now : Instant) :
    Table.UniqueKeys OutboxEvent.id (db.markSent env id now).outbox := by
  have hkeys : (db.markSent env id now).outbox.map OutboxEvent.id =
      db.outbox.map OutboxEvent.id := by
    unfold Db.markSent
    rw [List.map_map]
    apply List.map_congr_left
    intro e _
    simp only [Function.comp_apply]
    split <;> rfl
  unfold Table.UniqueKeys
  rw [hkeys]
  exact h

/-- Marking a row keeps the outbox. -/
theorem Db.Queued.markSent {env : Env} {db : Db} (hq : db.Queued env) (id : UUID) (now : Instant) :
    (db.markSent env id now).Queued env := by
  refine ⟨uniqueKeys_markSent hq.uniqueIds id now, ?_, ?_⟩
  · intro row' hrow'
    rcases mem_markSent hrow' with ⟨row, hrow, heq, -⟩
    rw [heq]
    exact hq.owned row hrow
  · intro claimId hclaim
    have hone := hq.one claimId hclaim
    unfold Db.outboxOf Db.markSent at *
    have howner : ((fun e : OutboxEvent => decide (e.aggregateId = claimId)) ∘ fun e =>
        if e.id = id then { e with sentAt := some (env.timestamptz now) } else e) =
        fun e => decide (e.aggregateId = claimId) := by
      funext e
      simp only [Function.comp_apply]
      split <;> rfl
    rw [List.filter_map, List.length_map, howner, hone]

/-! ## The invariant of a deployment -/

/-- The record of a row the publisher read is that of a row in the table. -/
def Db.Knows (db : Db) (event : OutboxEvent) : Prop :=
  ∃ row ∈ db.outbox, row.id = event.id ∧ row.record = event.record

/-- The rows a tick read are in the table, it has tried the ones before the rest,
and a row it is about to mark was accepted by the broker. -/
structure Tick.Sound (db : Db) (topic : List OutboxRecord) (tick : Tick) : Prop where
  known : ∀ e ∈ tick.pending, db.Knows e
  tried : tick.attempted ++ tick.rest = tick.pending
  accepted : ∀ e, tick.acknowledged = some e → e ∈ tick.pending ∧ e.record ∈ topic

/-- The outbox belongs to the claims, a row marked as sent was accepted, and ticks
are sound; a tick that came to its end has tried every row it read. -/
structure Deployment.Inv (env : Env) (s : Deployment) : Prop where
  queued : s.db.Queued env
  delivered : ∀ row ∈ s.db.outbox, row.sentAt.isSome → row.record ∈ s.topic
  ticks : ∀ publisher tick, s.ticks publisher = some tick → tick.Sound s.db s.topic
  ended : ∀ tick ∈ s.ended, tick.attempted = tick.pending
  rolledBack : ∀ id ∈ s.rolledBack, s.db.findById id = none

/-- A tick stays sound when rows are queued or marked and records accepted. -/
theorem Tick.Sound.mono {db db' : Db} {topic topic' : List OutboxRecord} {tick : Tick}
    (h : tick.Sound db topic) (hdb : ∀ e, db.Knows e → db'.Knows e)
    (htopic : ∀ r ∈ topic, r ∈ topic') : tick.Sound db' topic' :=
  ⟨fun e he => hdb e (h.known e he), h.tried,
    fun e he => ⟨(h.accepted e he).1, htopic _ (h.accepted e he).2⟩⟩

theorem knows_markSent {env : Env} {db : Db} {id : UUID} {now : Instant} {event : OutboxEvent}
    (h : db.Knows event) : (db.markSent env id now).Knows event := by
  rcases h with ⟨row, hrow, hid, hrecord⟩
  rcases mem_markSent_of_mem hrow with ⟨row', hrow', heq⟩
  refine ⟨row', hrow', ?_, ?_⟩
  · rw [heq]
    exact hid
  · rw [heq]
    exact hrecord

/-- Marking a row whose record was accepted leaves only accepted rows marked. -/
theorem delivered_markSent {env : Env} {db : Db} {topic : List OutboxRecord} {event : OutboxEvent}
    {now : Instant} (hids : Table.UniqueKeys OutboxEvent.id db.outbox) (hknown : db.Knows event)
    (haccepted : event.record ∈ topic)
    (h : ∀ row ∈ db.outbox, row.sentAt.isSome → row.record ∈ topic) :
    ∀ row ∈ (db.markSent env event.id now).outbox, row.sentAt.isSome → row.record ∈ topic := by
  intro row' hrow' hsent
  rcases mem_markSent hrow' with ⟨row, hrow, heq, hcases⟩
  have hrecord : row'.record = row.record := by
    rw [heq]
    rfl
  rw [hrecord]
  rcases hcases with hid | hsame
  · -- the marked row is the one whose record was sent
    rcases hknown with ⟨known, hmem, hknownId, hknownRecord⟩
    have : row = known :=
      List.inj_on_of_nodup_map hids hrow hmem (by rw [hid, hknownId])
    rwa [this, hknownRecord]
  · exact h row hrow (by rwa [← hsame])

/-- Claims stay, rows and records are only added or marked, and whatever is new
among the ticks is sound. -/
structure Deployment.Grows (s s' : Deployment) : Prop where
  claims : s'.db.claims = s.db.claims
  rolledBack : s'.rolledBack = s.rolledBack
  knows : ∀ e, s.db.Knows e → s'.db.Knows e
  topic : ∀ r ∈ s.topic, r ∈ s'.topic
  ticks : ∀ publisher tick, s'.ticks publisher = some tick →
    s.ticks publisher = some tick ∨ tick.Sound s'.db s'.topic
  ended : ∀ tick ∈ s'.ended, tick ∈ s.ended ∨ tick.attempted = tick.pending

/-- What grows keeps the invariant, when the tables and the topic still agree. -/
theorem Deployment.Inv.grow {env : Env} {s s' : Deployment} (hinv : s.Inv env) (h : s.Grows s')
    (hqueued : s'.db.Queued env)
    (hdelivered : ∀ row ∈ s'.db.outbox, row.sentAt.isSome → row.record ∈ s'.topic) :
    s'.Inv env := by
  refine ⟨hqueued, hdelivered, ?_, ?_, ?_⟩
  · intro publisher tick htick
    rcases h.ticks publisher tick htick with hold | hsound
    · exact (hinv.ticks publisher tick hold).mono h.knows h.topic
    · exact hsound
  · intro tick htick
    rcases h.ended tick htick with hold | htried
    · exact hinv.ended tick hold
    · exact htried
  · intro id hid
    rw [h.rolledBack] at hid
    rw [findById_congr h.claims]
    exact hinv.rolledBack id hid

/-- A tick in the place of another. -/
theorem ticks_setTick {db : Db} {topic : List OutboxRecord} {ticks : ℕ → Option Tick}
    {publisher : ℕ} {next : Option Tick} (hnext : ∀ tick, next = some tick → tick.Sound db topic) :
    ∀ other tick, Function.update ticks publisher next other = some tick →
      ticks other = some tick ∨ tick.Sound db topic := by
  intro other tick htick
  by_cases hother : other = publisher
  · subst hother
    rw [Function.update_self] at htick
    exact Or.inr (hnext tick htick)
  · rw [Function.update_of_ne hother] at htick
    exact Or.inl htick

/-- An intake keeps the invariant. -/
theorem Deployment.Inv.createClaim {env : Env} {s : Deployment} {db : Db} {request : ClaimRequest}
    {draws : CreateDraws} (hinv : s.Inv env) (hfresh : s.isFresh draws = true)
    (h : ClaimService.createClaim env s.db request draws = .ok db) :
    Deployment.Inv env { s with db := db } := by
  simp only [Deployment.isFresh, Bool.and_eq_true, List.all_eq_true, decide_eq_true_eq] at hfresh
  rcases hfresh with ⟨⟨-, hnot⟩, houtboxId⟩
  obtain ⟨claim, row, hid, -, hclaims, houtbox, -, -, -, -, hsentAt⟩ :=
    createClaim_queues h houtboxId
  refine ⟨hinv.queued.createClaim h houtboxId, ?_, ?_, hinv.ended, ?_⟩
  · intro e he hsent
    have he' : e ∈ s.db.outbox ++ [row] := by rwa [← houtbox]
    rcases List.mem_append.1 he' with he | he
    · exact hinv.delivered e he hsent
    · rw [List.mem_singleton.1 he, hsentAt] at hsent
      cases hsent
  · intro publisher tick htick
    refine (hinv.ticks publisher tick htick).mono ?_ fun _ h => h
    rintro e ⟨known, hmem, hknown⟩
    exact ⟨known, by rw [houtbox]; exact List.mem_append_left _ hmem, hknown⟩
  · intro id hrolled
    show db.findById id = none
    have hne : claim.id ≠ id := by
      rintro rfl
      rw [hid] at hrolled
      simp [hrolled] at hnot
    rw [findById_append hclaims, if_neg hne, Option.or_none]
    exact hinv.rolledBack id hrolled

/-- A creation that is rolled back keeps the invariant. -/
theorem Deployment.Inv.rollBack {env : Env} {s : Deployment} {draws : CreateDraws}
    (hinv : s.Inv env) (hfresh : s.isFresh draws = true) :
    Deployment.Inv env { s with rolledBack := draws.claimId :: s.rolledBack } := by
  simp only [Deployment.isFresh, Bool.and_eq_true, Option.isNone_iff_eq_none] at hfresh
  refine ⟨hinv.queued, hinv.delivered, hinv.ticks, hinv.ended, ?_⟩
  intro id hrolled
  rcases List.mem_cons.1 hrolled with rfl | hrolled
  · exact hfresh.1.1
  · exact hinv.rolledBack id hrolled

/-- A tick starts sound: the rows it reads are in the table. -/
theorem sound_readPending (db : Db) (topic : List OutboxRecord) :
    Tick.Sound db topic ⟨db.findBySentAtIsNullOrderByCreatedAtAsc, [], none,
      db.findBySentAtIsNullOrderByCreatedAtAsc⟩ := by
  refine ⟨?_, rfl, fun e he => by cases he⟩
  intro e he
  have hmem := (List.perm_insertionSort _ _).mem_iff.1 he
  exact ⟨e, (List.mem_filter.1 hmem).1, rfl, rfl⟩

/-- A send takes nothing from the topic. -/
theorem Deployment.topic_accept (s : Deployment) (record : OutboxRecord) (outcome : SendOutcome) :
    ∀ r ∈ s.topic, r ∈ (s.accept record outcome).topic := by
  intro r hr
  cases outcome <;> simp [Deployment.accept, hr]

/-- A tick stays sound over a send, however it ends. -/
theorem Tick.Sound.send {s : Deployment} {pending attempted rest : List OutboxEvent}
    {event : OutboxEvent}
    (h : Tick.Sound s.db s.topic ⟨pending, attempted, none, event :: rest⟩)
    (outcome : SendOutcome) :
    Tick.Sound s.db (s.accept event.record outcome).topic
      ⟨pending, attempted ++ [event], acknowledgedBy event outcome, rest⟩ := by
  refine ⟨h.known, by simpa using h.tried, ?_⟩
  intro e he
  -- only an acknowledged send leaves a row to be marked
  cases outcome with
  | acknowledged =>
      obtain rfl : event = e := Option.some.inj he
      refine ⟨?_, by simp [Deployment.accept]⟩
      show event ∈ pending
      have htried : attempted ++ event :: rest = pending := h.tried
      simp [← htried]
  | _ => cases he

/-- A send keeps the invariant, however it ends. -/
theorem Deployment.Inv.send {env : Env} {s : Deployment} (hinv : s.Inv env) {publisher : ℕ}
    {pending attempted rest : List OutboxEvent} {event : OutboxEvent}
    (htick : s.ticks publisher = some ⟨pending, attempted, none, event :: rest⟩)
    (outcome : SendOutcome) :
    ((s.accept event.record outcome).setTick publisher
      ⟨pending, attempted ++ [event], acknowledgedBy event outcome, rest⟩).Inv env := by
  have hsound := hinv.ticks publisher _ htick
  have hsame : (s.accept event.record outcome).db = s.db ∧
      (s.accept event.record outcome).ticks = s.ticks ∧
      (s.accept event.record outcome).ended = s.ended ∧
      (s.accept event.record outcome).rolledBack = s.rolledBack := by
    cases outcome <;> exact ⟨rfl, rfl, rfl, rfl⟩
  rcases hsame with ⟨hdb, hticks, hended, hrolled⟩
  -- the topic only grows, whatever becomes of the record
  have htopic := s.topic_accept event.record outcome
  have hnext := hsound.send outcome
  have hgrows : s.Grows ((s.accept event.record outcome).setTick publisher
      ⟨pending, attempted ++ [event], acknowledgedBy event outcome, rest⟩) := by
    refine ⟨congrArg Db.claims hdb, hrolled, ?_, htopic, ?_, ?_⟩
    · intro e he
      rwa [← hdb] at he
    · simp only [Deployment.setTick, hdb, hticks]
      apply ticks_setTick
      rintro tick ⟨⟩
      exact hnext
    · intro tick hmem
      exact Or.inl (hended ▸ hmem)
  refine hinv.grow hgrows ?_ ?_
  · show (s.accept event.record outcome).db.Queued env
    rw [hdb]
    exact hinv.queued
  · intro row hrow hsent
    have hrow' : row ∈ s.db.outbox := by rw [← hdb]; exact hrow
    exact htopic _ (hinv.delivered row hrow' hsent)

/-- Marking keeps the invariant, whether the update commits or not. -/
theorem Deployment.Inv.markSent {env : Env} {s : Deployment} (hinv : s.Inv env) {publisher : ℕ}
    {pending attempted rest : List OutboxEvent} {event : OutboxEvent}
    (htick : s.ticks publisher = some ⟨pending, attempted, some event, rest⟩) (now : Instant)
    (commits : Bool) :
    Deployment.Inv env { s.setTick publisher ⟨pending, attempted, none, rest⟩ with
      db := if commits then s.db.markSent env event.id now else s.db } := by
  have hsound := hinv.ticks publisher _ htick
  rcases hsound.accepted event rfl with ⟨hpending, haccepted⟩
  have hnext : ∀ db, (∀ e, s.db.Knows e → db.Knows e) →
      Tick.Sound db s.topic ⟨pending, attempted, none, rest⟩ := by
    intro db hknows
    exact ⟨fun e he => hknows e (hsound.known e he), hsound.tried, fun e he => by cases he⟩
  -- a mark that is lost leaves the row pending
  cases commits with
  | false =>
      refine hinv.grow ⟨rfl, rfl, fun _ h => h, fun _ h => h, ?_, fun _ h => Or.inl h⟩ hinv.queued
        hinv.delivered
      apply ticks_setTick
      rintro tick ⟨⟩
      exact hnext s.db fun _ h => h
  | true =>
      refine hinv.grow ⟨rfl, rfl, fun _ h => knows_markSent h, fun _ h => h, ?_,
        fun _ h => Or.inl h⟩
        (hinv.queued.markSent event.id now)
        (delivered_markSent hinv.queued.uniqueIds (hsound.known event hpending) haccepted
          hinv.delivered)
      apply ticks_setTick
      rintro tick ⟨⟩
      exact hnext _ fun _ h => knows_markSent h

/-- A publisher that becomes idle keeps the invariant. -/
theorem Deployment.Inv.clearTick {env : Env} {s : Deployment} (hinv : s.Inv env) (publisher : ℕ)
    {ended : List Tick} (hended : ∀ tick ∈ ended, tick ∈ s.ended ∨ tick.attempted = tick.pending) :
    Deployment.Inv env { s.clearTick publisher with ended := ended } := by
  refine hinv.grow ⟨rfl, rfl, fun _ h => h, fun _ h => h, ?_, hended⟩ hinv.queued hinv.delivered
  apply ticks_setTick
  rintro tick ⟨⟩

/-- Every step keeps the invariant. -/
theorem Deployment.Inv.step {env : Env} {s s' : Deployment} {event : Event} (hinv : s.Inv env)
    (h : Deployment.step env s event = some s') : s'.Inv env := by
  cases event with
  | createClaim request draws commits =>
      simp only [Deployment.step] at h
      split at h
      · rename_i hfresh
        split at h <;> cases h
        · rename_i hcreate
          exact hinv.createClaim hfresh hcreate
        · exact hinv.rollBack hfresh
      · cases h
  | readPending publisher =>
      simp only [Deployment.step] at h
      split at h <;> cases h
      refine hinv.grow ⟨rfl, rfl, fun _ h => h, fun _ h => h, ?_, fun _ h => Or.inl h⟩ hinv.queued
        hinv.delivered
      apply ticks_setTick
      rintro tick ⟨⟩
      exact sound_readPending s.db s.topic
  | send publisher outcome =>
      simp only [Deployment.step] at h
      split at h <;> cases h
      rename_i htick
      exact hinv.send htick outcome
  | lateAccept n =>
      simp only [Deployment.step] at h
      split at h <;> cases h
      refine hinv.grow ⟨rfl, rfl, fun _ h => h, fun r hr => List.mem_append_left _ hr,
        fun _ _ h => Or.inl h, fun _ h => Or.inl h⟩ hinv.queued ?_
      intro row hrow hsent
      exact List.mem_append_left _ (hinv.delivered row hrow hsent)
  | markSent publisher now commits =>
      simp only [Deployment.step] at h
      split at h <;> cases h
      rename_i htick
      exact hinv.markSent htick now commits
  | finish publisher =>
      simp only [Deployment.step] at h
      split at h <;> cases h
      rename_i htick
      have htried := (hinv.ticks publisher _ htick).tried
      apply hinv.clearTick publisher
      intro tick hmem
      rcases List.mem_cons.1 hmem with rfl | hmem
      · exact Or.inr (by simpa using htried)
      · exact Or.inl hmem
  | crash publisher =>
      cases h
      exact hinv.clearTick publisher fun _ hmem => Or.inl hmem

theorem Deployment.inv_of_reachable {env : Env} {s : Deployment}
    (h : (publishing env).Reachable s) : s.Inv env := by
  refine h.invariant (I := fun s => s.Inv env) ?_ fun _ _ _ hinv hstep => hinv.step hstep
  rintro s ⟨hclaims, houtbox, hended, hrolled, hticks⟩
  refine ⟨⟨?_, ?_, ?_⟩, ?_, ?_, ?_, ?_⟩
  · rw [houtbox]
    exact Table.uniqueKeys_nil
  · simp [houtbox]
  · intro id hid
    simp [Db.findById, hclaims, Table.find] at hid
  · simp [houtbox]
  · intro publisher tick htick
    simp [hticks] at htick
  · simp [hended]
  · simp [hrolled]

/-! ## A tick to its end -/

/-- What happens to one row of a tick: how its send ends and whether its mark
commits. -/
structure RowOutcome where
  send : SendOutcome
  now : Instant
  commits : Bool

/-- The steps of a publisher for one row. -/
def rowEvents (publisher : ℕ) (outcome : RowOutcome) : List Event :=
  .send publisher outcome.send :: match outcome.send with
    | .acknowledged => [.markSent publisher outcome.now outcome.commits]
    | _ => []

/-- The steps of a publisher for the rows still to come. -/
def tickEvents (publisher : ℕ) (outcomes : List RowOutcome) : List Event :=
  outcomes.flatMap (rowEvents publisher) ++ [.finish publisher]

/-- The mark a running tick still owes to the row it sent last. -/
def Tick.owed (tick : Tick) (publisher : ℕ) (now : Instant) (commits : Bool) : List Event :=
  match tick.acknowledged with
  | none => []
  | some _ => [.markSent publisher now commits]

/-- The steps for one row bring the tick to the next row, whatever happens to it. -/
theorem run_rowEvents (env : Env) {s : Deployment} {publisher : ℕ} (outcome : RowOutcome)
    {pending attempted rest : List OutboxEvent} {event : OutboxEvent}
    (htick : s.ticks publisher = some ⟨pending, attempted, none, event :: rest⟩) :
    ∃ s', (publishing env).run s (rowEvents publisher outcome) = some s' ∧
      s'.ticks publisher = some ⟨pending, attempted ++ [event], none, rest⟩ ∧
      s'.ended = s.ended := by
  have hsend : (publishing env).step s (.send publisher outcome.send) =
      some ((s.accept event.record outcome.send).setTick publisher
        ⟨pending, attempted ++ [event], acknowledgedBy event outcome.send, rest⟩) := by
    simp only [publishing, Deployment.step, htick]
  unfold rowEvents
  rw [Lts.run_cons, hsend, Option.bind_some]
  rcases outcome with ⟨send, now, commits⟩
  -- an acknowledged row is marked first, any other outcome goes on at once
  cases send with
  | acknowledged =>
      have hmark : ∀ t : Deployment, t.ticks publisher =
          some ⟨pending, attempted ++ [event], some event, rest⟩ →
          (publishing env).run t [.markSent publisher now commits] =
            some { t.setTick publisher ⟨pending, attempted ++ [event], none, rest⟩ with
              db := if commits then t.db.markSent env event.id now else t.db } := by
        intro t ht
        simp only [Lts.run_cons, publishing, Deployment.step, ht, Option.bind_some, Lts.run_nil]
      refine ⟨_, hmark _ ?_, ?_, rfl⟩
      · simp [Deployment.setTick, acknowledgedBy]
      · simp [Deployment.setTick]
  | _ =>
      refine ⟨_, rfl, ?_, rfl⟩
      simp [Deployment.setTick, acknowledgedBy]

/-- A tick tries every row it still has to come, whatever happens to each. -/
theorem run_tickEvents (env : Env) {s : Deployment} {publisher : ℕ} (outcomes : List RowOutcome)
    {pending attempted rest : List OutboxEvent}
    (htick : s.ticks publisher = some ⟨pending, attempted, none, rest⟩)
    (hlen : outcomes.length = rest.length) :
    ∃ s', (publishing env).run s (tickEvents publisher outcomes) = some s' ∧
      s'.ended = ⟨pending, attempted ++ rest, none, []⟩ :: s.ended := by
  -- over the rows still to come; the ones tried so far grow with each
  induction rest generalizing s attempted outcomes with
  | nil =>
      rcases List.length_eq_zero_iff.1 hlen with rfl
      have hfinish : (publishing env).run s (tickEvents publisher []) =
          some { s.clearTick publisher with
            ended := ⟨pending, attempted, none, []⟩ :: s.ended } := by
        simp only [tickEvents, List.flatMap_nil, List.nil_append, Lts.run_cons, publishing,
          Deployment.step, htick, Option.bind_some, Lts.run_nil]
      exact ⟨_, hfinish, by rw [List.append_nil]⟩
  | cons event rest ih =>
      rcases List.exists_cons_of_length_eq_add_one hlen with ⟨outcome, outcomes, rfl⟩
      rcases run_rowEvents env outcome htick with ⟨s₁, hrun, htick₁, hended₁⟩
      obtain ⟨s', hrest, hended⟩ := ih outcomes htick₁ (by simpa using hlen)
      refine ⟨s', ?_, ?_⟩
      · unfold tickEvents at hrest ⊢
        rw [List.flatMap_cons, List.append_assoc, Lts.run_append, hrun]
        exact hrest
      · rw [hended, hended₁, List.append_assoc, List.singleton_append]

/-- A running tick comes to its end, whatever happens to the mark it owes and to the
rows still to come, and has then tried every row it read. -/
theorem run_tick (env : Env) {s : Deployment} {publisher : ℕ} {tick : Tick}
    (htick : s.ticks publisher = some tick) (htried : tick.attempted ++ tick.rest = tick.pending)
    (now : Instant) (commits : Bool) (outcomes : List RowOutcome)
    (hlen : outcomes.length = tick.rest.length) :
    ∃ s', (publishing env).run s
        (tick.owed publisher now commits ++ tickEvents publisher outcomes) = some s' ∧
      s'.ended = ⟨tick.pending, tick.pending, none, []⟩ :: s.ended := by
  rcases tick with ⟨pending, attempted, acknowledged, rest⟩
  simp only at htried hlen
  cases acknowledged with
  | none =>
      have hrun := run_tickEvents env outcomes htick hlen
      rw [htried] at hrun
      exact hrun
  | some event =>
      have hmark : (publishing env).step s (.markSent publisher now commits) =
          some { s.setTick publisher ⟨pending, attempted, none, rest⟩ with
            db := if commits then s.db.markSent env event.id now else s.db } := by
        simp only [publishing, Deployment.step, htick]
      have htick' : ({ s.setTick publisher ⟨pending, attempted, none, rest⟩ with
          db := if commits then s.db.markSent env event.id now else s.db } : Deployment).ticks
            publisher = some ⟨pending, attempted, none, rest⟩ := by
        simp [Deployment.setTick]
      rcases run_tickEvents env outcomes htick' hlen with ⟨s', hrun, hended⟩
      simp only [Tick.owed, List.singleton_append, Lts.run_cons]
      rw [hmark, Option.bind_some]
      exact ⟨s', hrun, by rw [hended, htried]; rfl⟩

/-- In every run of intakes, publishers and failures: each committed claim has one
outbox row, pending or delivered; each row carries the id of a committed claim and
no row the id of a creation that was rolled back; a row is marked as sent only if
its record was accepted; and a tick that does not crash tries every row it read,
whatever happens to any of them. -/
theorem outbox_never_loses (env : Env) (s : Deployment) (h : (publishing env).Reachable s) :
    (∀ claim ∈ s.db.claims, ∃ row, s.db.outboxOf claim.id = [row] ∧
        row.topic = claimSubmittedTopic ∧
        env.jsonb (OutboxService.claimSubmittedPayload claim.id) = some row.payload ∧
        (row ∈ s.db.findBySentAtIsNullOrderByCreatedAtAsc ∨ row.record ∈ s.topic)) ∧
      (∀ row ∈ s.db.outbox, ∃ claim ∈ s.db.claims, claim.id = row.aggregateId) ∧
      (∀ id ∈ s.rolledBack, s.db.outboxOf id = []) ∧
      (∀ row ∈ s.db.outbox, row.sentAt.isSome → row.record ∈ s.topic) ∧
      (∀ tick ∈ s.ended, tick.attempted = tick.pending) ∧
      ∀ publisher tick, s.ticks publisher = some tick →
        ∀ (now : Instant) (commits : Bool) (outcomes : List RowOutcome),
          outcomes.length = tick.rest.length →
          ∃ s', (publishing env).run s
              (tick.owed publisher now commits ++ tickEvents publisher outcomes) = some s' ∧
            s'.ended = ⟨tick.pending, tick.pending, none, []⟩ :: s.ended := by
  have hinv := Deployment.inv_of_reachable h
  refine ⟨?_, ?_, ?_, hinv.delivered, hinv.ended, ?_⟩
  · intro claim hclaim
    rcases hinv.queued.exists_row hclaim with ⟨row, hmem, hrow, htopic, hpayload⟩
    refine ⟨row, hrow, htopic, hpayload, ?_⟩
    -- the row is pending or marked, and a marked one was accepted
    cases hsent : row.sentAt with
    | none =>
        refine Or.inl ((List.perm_insertionSort _ _).mem_iff.2 (List.mem_filter.2 ⟨hmem, ?_⟩))
        simp [hsent]
    | some sentAt => exact Or.inr (hinv.delivered row hmem (by simp [hsent]))
  · intro row hrow
    exact Table.find_isSome.1 (hinv.queued.owned row hrow).1
  · intro id hid
    rw [Db.outboxOf, List.filter_eq_nil_iff]
    intro row hrow hmatch
    have hexists := (hinv.queued.owned row hrow).1
    rw [of_decide_eq_true hmatch, hinv.rolledBack id hid] at hexists
    cases hexists
  · intro publisher tick htick now commits outcomes hlen
    exact run_tick env htick (hinv.ticks publisher tick htick).tried now commits outcomes hlen

namespace Sample

/-- Two publishers hold the same row; one send fails after the broker accepted it
and one mark is lost, so the row is sent again and then marked. -/
def overlapping : List Event :=
  [.createClaim request draws true, .readPending 0, .readPending 1, .send 0 .acknowledged,
    .send 1 .failedAfterAccept, .markSent 0 now false, .finish 1, .finish 0, .readPending 0,
    .send 0 .acknowledged, .markSent 0 now true, .finish 0]

/-- Empty tables and idle publishers. -/
def unpublished : Deployment := ⟨Db.empty, [], [], fun _ => none, [], []⟩

/-- Where the overlapping ticks end. -/
def published : Deployment := ((publishing env).run unpublished overlapping).getD unpublished

theorem run_overlapping : (publishing env).run unpublished overlapping = some published := by
  have hsome : ((publishing env).run unpublished overlapping).isSome = true := by decide +kernel
  exact (Option.getD_of_ne_none (Option.isSome_iff_ne_none.1 hsome) unpublished).symm

end Sample

/-- The row of the sample is marked in the end, and its record was accepted. -/
theorem outbox_never_loses_overlapping :
    (Sample.published.db.outbox.map fun row => row.sentAt.isSome) = [true] ∧
      ∀ row ∈ Sample.published.db.outbox, row.sentAt.isSome →
        row.record ∈ Sample.published.topic := by
  have hreach : (publishing Sample.env).Reachable Sample.published :=
    ⟨Sample.unpublished, Sample.overlapping, ⟨rfl, rfl, rfl, rfl, fun _ => rfl⟩,
      Sample.run_overlapping⟩
  exact ⟨by decide +kernel, (outbox_never_loses Sample.env Sample.published hreach).2.2.2.1⟩

end ClaimGuard
