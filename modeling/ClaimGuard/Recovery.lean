import ClaimGuard.NeverSkipped
import ClaimGuard.Prompt

/-!
# Steps towards a score

What the parts of the pipeline can do for a submitted claim from any state: the outbox
announces it, a tick without failures brings what is pending to the topic, a score is stored
that the columns take, whatever became of the claim since it was computed, and a claim with a
score has left its initial status.
-/

namespace ClaimGuard

open ClaimService

/-! ## What is announced -/

/-- Every claim that the API created has its row in the outbox, a row marked as sent was
accepted, and the publishers know what they send. -/
structure Deployment.Announces (s : Deployment) : Prop where
  uniqueIds : Table.UniqueKeys OutboxEvent.id s.db.outbox
  announced : ∀ row ∈ s.db.auditEvents, row.eventType = .claimCreated →
    ∃ e ∈ s.db.outbox, e.aggregateId = row.claimId
  delivered : ∀ e ∈ s.db.outbox, e.sentAt.isSome → e.record ∈ s.topic
  ticks : ∀ publisher tick, s.ticks publisher = some tick → tick.Sound s.db s.topic

/-- A created claim is announced. -/
theorem Deployment.Announces.createClaim {env : Env} {s : Deployment} {db : Db}
    {request : ClaimRequest} {draws : CreateDraws} (ha : s.Announces)
    (hfresh : s.isFresh draws = true)
    (h : ClaimService.createClaim env s.db request draws = .ok db) :
    Deployment.Announces { s with db := db } := by
  simp only [Deployment.isFresh, Bool.and_eq_true, List.all_eq_true, decide_eq_true_eq] at hfresh
  obtain ⟨claim, row, hid, -, -, houtbox, hrowId, howner, -, -, hsentAt⟩ :=
    createClaim_queues h hfresh.2
  obtain ⟨claim', event, audit, payload, db₁, db₂, -, hid', -, -, -, -, hevent, hstored, -, hdb⟩ :=
    createClaim_ok h
  have hevents : db.auditEvents = s.db.auditEvents ++ [audit] := by rw [hdb]
  have hnext := nextRow_of_stored hevent hstored
  refine ⟨?_, ?_, ?_, ?_⟩
  · have hsave := Table.uniqueKeys_save ha.uniqueIds row
    rwa [Table.save_of_find_none (Table.find_eq_none.2 (by rw [hrowId]; exact hfresh.2)),
      ← houtbox] at hsave
  · intro e he htype
    show ∃ q ∈ db.outbox, q.aggregateId = e.claimId
    rw [houtbox]
    rw [hevents] at he
    rcases List.mem_append.1 he with hold | hnew
    · rcases ha.announced e hold htype with ⟨q, hq, howned⟩
      exact ⟨q, List.mem_append_left _ hq, howned⟩
    · refine ⟨row, by simp, ?_⟩
      rw [List.mem_singleton.1 hnew, hnext.claimId_eq, howner, hid, hid']
  · intro e he hsent
    have he' : e ∈ s.db.outbox ++ [row] := by rwa [← houtbox]
    rcases List.mem_append.1 he' with hold | hnew
    · exact ha.delivered e hold hsent
    · rw [List.mem_singleton.1 hnew, hsentAt] at hsent
      cases hsent
  · intro publisher tick htick
    refine (ha.ticks publisher tick htick).mono ?_ fun _ h => h
    rintro e ⟨known, hmem, hknown⟩
    exact ⟨known, by rw [houtbox]; exact List.mem_append_left _ hmem, hknown⟩

/-- Publishers keep what is announced. -/
theorem Deployment.Announces.step {env : Env} {s s' : Deployment} {event : Event}
    (ha : s.Announces) (h : Deployment.step env s event = some s') : s'.Announces := by
  -- a tick in the place of another, when records are only added
  have hgrow : ∀ {topic : List OutboxRecord}, (∀ r ∈ s.topic, r ∈ topic) →
      ∀ (publisher : ℕ) (next : Option Tick), (∀ tick, next = some tick → tick.Sound s.db topic) →
      ∀ other tick, Function.update s.ticks publisher next other = some tick →
        tick.Sound s.db topic := by
    intro topic htopic publisher next hnext other tick htick
    rcases ticks_setTick hnext other tick htick with hold | hsound
    · exact (ha.ticks other tick hold).mono (fun _ h => h) htopic
    · exact hsound
  cases event with
  | createClaim request draws commits =>
      simp only [Deployment.step] at h
      split at h
      · rename_i hfresh
        split at h <;> cases h
        · rename_i hcreate
          exact ha.createClaim hfresh hcreate
        · exact ⟨ha.uniqueIds, ha.announced, ha.delivered, ha.ticks⟩
      · cases h
  | readPending publisher =>
      simp only [Deployment.step] at h
      split at h <;> cases h
      refine ⟨ha.uniqueIds, ha.announced, ha.delivered, hgrow (fun _ h => h) publisher _ ?_⟩
      rintro tick ⟨⟩
      exact sound_readPending s.db s.topic
  | send publisher outcome =>
      simp only [Deployment.step] at h
      split at h <;> cases h
      rename_i pending attempted event rest htick
      have hnext := (ha.ticks publisher _ htick).send outcome
      have htopic := s.topic_accept event.record outcome
      have hsame : (s.accept event.record outcome).db = s.db ∧
          (s.accept event.record outcome).ticks = s.ticks := by
        cases outcome <;> exact ⟨rfl, rfl⟩
      obtain ⟨hdb, hticks⟩ := hsame
      refine ⟨?_, ?_, ?_, ?_⟩ <;> simp only [Deployment.setTick, hdb, hticks]
      · exact ha.uniqueIds
      · exact ha.announced
      · exact fun e he hsent => htopic _ (ha.delivered e he hsent)
      · refine hgrow htopic publisher _ ?_
        rintro tick ⟨⟩
        exact hnext
  | lateAccept n =>
      simp only [Deployment.step] at h
      split at h <;> cases h
      have htopic : ∀ (record : OutboxRecord), ∀ r ∈ s.topic, r ∈ s.topic ++ [record] :=
        fun record r hr => List.mem_append_left _ hr
      exact ⟨ha.uniqueIds, ha.announced, fun e he hsent => htopic _ _ (ha.delivered e he hsent),
        fun publisher tick htick =>
          (ha.ticks publisher tick htick).mono (fun _ h => h) (htopic _)⟩
  | markSent publisher now commits =>
      simp only [Deployment.step] at h
      split at h <;> cases h
      rename_i pending attempted event rest htick
      have hsound := ha.ticks publisher _ htick
      rcases hsound.accepted event rfl with ⟨hpending, haccepted⟩
      have hnext : Tick.Sound s.db s.topic ⟨pending, attempted, none, rest⟩ :=
        ⟨hsound.known, hsound.tried, fun e he => by cases he⟩
      have hticks := hgrow (fun _ h => h) publisher (some ⟨pending, attempted, none, rest⟩)
        (by rintro tick ⟨⟩; exact hnext)
      cases commits with
      | false => exact ⟨ha.uniqueIds, ha.announced, ha.delivered, hticks⟩
      | true =>
          refine ⟨uniqueKeys_markSent ha.uniqueIds _ _, ?_, delivered_markSent ha.uniqueIds
            (hsound.known event hpending) haccepted ha.delivered, ?_⟩
          · intro row hrow htype
            rcases ha.announced row hrow htype with ⟨e, he, howned⟩
            rcases mem_markSent_of_mem he with ⟨e', he', heq⟩
            exact ⟨e', he', by rw [heq]; exact howned⟩
          · intro other tick hother
            exact (hticks other tick hother).mono (fun _ h => knows_markSent h) fun _ h => h
  | finish publisher =>
      simp only [Deployment.step] at h
      split at h <;> cases h
      refine ⟨ha.uniqueIds, ha.announced, ha.delivered, hgrow (fun _ h => h) publisher none ?_⟩
      rintro tick ⟨⟩
  | crash publisher =>
      cases h
      refine ⟨ha.uniqueIds, ha.announced, ha.delivered, hgrow (fun _ h => h) publisher none ?_⟩
      rintro tick ⟨⟩

/-! ## What stays announced -/

/-- An operation never records the creation of a claim. -/
theorem eventType_ne_claimCreated {op : Op} {claim : Claim} {decision : Decision}
    (h : decideOp op claim = .ok decision) : decision.entry.eventType ≠ .claimCreated := by
  cases op with
  | transition toStatus reason actorId actorRole =>
      simp only [decideOp, decideTransition, Results.guard_eq_ok, Results.pure_eq_ok] at h
      rcases h with ⟨-, -, -, rfl⟩
      dsimp only
      split <;> simp
  | score fraudScore decisionHint ringId explanationJson modelVersion =>
      rcases Results.pure_eq_ok.1 h with rfl
      simp [decideScore]
  | narrative narrative grounded modelVersion actorId actorRole =>
      rcases Results.pure_eq_ok.1 h with rfl
      simp [decideNarrative]

/-- No claim is created and nothing is queued or marked. -/
structure Db.Quiet (db db' : Db) : Prop where
  outbox : db'.outbox = db.outbox
  created : ∀ row ∈ db'.auditEvents, row.eventType = .claimCreated → row ∈ db.auditEvents

theorem Db.Quiet.refl (db : Db) : db.Quiet db := ⟨rfl, fun _ h _ => h⟩

/-- An operation on a claim is quiet. -/
theorem quiet_of_perform {env : Env} {db db' : Db} {claimId : UUID} {op : Op} {now : Instant}
    (h : perform env db claimId op now = .ok db') : db.Quiet db' := by
  refine ⟨(sameLinks_of_perform h).2.2.1, ?_⟩
  rcases perform_ok h with ⟨claim, decision, event, row', -, hdecide, hevent, hstored, -, rfl⟩
  intro row hrow htype
  rcases List.mem_append.1 hrow with hold | hnew
  · exact hold
  · rw [List.mem_singleton.1 hnew, (nextRow_of_stored hevent hstored).eventType_eq] at htype
    exact absurd htype (eventType_ne_claimCreated hdecide)

/-- Away from the publishers a step is quiet, and leaves the topic and the ticks alone. -/
theorem System.quiet_step {svc : Services} {s s' : System} {event : SystemEvent}
    (hother : ∀ e, event ≠ .publishing e) (h : System.step svc s event = some s') :
    s.db.Quiet s'.db ∧ s'.deployment.topic = s.deployment.topic ∧
      s'.deployment.ticks = s.deployment.ticks := by
  cases event with
  | publishing event => exact absurd rfl (hother event)
  | backlog call =>
      simp only [System.step] at h
      split at h
      · rename_i hcall
        rcases Option.map_eq_some_iff.1 h with ⟨i, hi, rfl⟩
        obtain ⟨hevents, houtbox⟩ := sameTrails_of_backlog hcall hi
        exact ⟨⟨houtbox, fun row hrow _ => hevents ▸ hrow⟩, rfl, rfl⟩
      · cases h
  | onClaim claimId op now =>
      simp only [System.step] at h
      split at h <;> cases h
      refine ⟨?_, rfl, rfl⟩
      show s.db.Quiet (serve svc.env s.db (.onClaim claimId op now))
      unfold serve
      cases hexec : execute svc.env s.db (.onClaim claimId op now) with
      | error failure => exact .refl _
      | ok db =>
          rcases execute_onClaim hexec with rfl | hperform
          · exact .refl _
          · exact quiet_of_perform hperform
  | startConsumer consumer rows completes =>
      simp only [System.step] at h
      split at h
      · split at h <;> cases h <;> exact ⟨.refl _, rfl, rfl⟩
      · cases h
  | consume consumer n rows completes scoredAt accepted =>
      simp only [System.step] at h
      split at h
      · split at h <;> cases h
        rw [System.db_onMessage, System.deployment_onMessage]
        exact ⟨.refl _, rfl, rfl⟩
      · cases h
  | stopConsumer consumer =>
      cases h
      exact ⟨.refl _, rfl, rfl⟩
  | deliver n now =>
      simp only [System.step] at h
      split at h
      · split at h <;> cases h
        · rename_i db hdelivered
          refine ⟨?_, rfl, rfl⟩
          rcases ScoringResultConsumer.onClaimScored_ok hdelivered with rfl | ⟨t, record, -, -, happly⟩
          · exact .refl _
          · unfold ScoringResultConsumer.apply at happly
            have hexecute : execute svc.env s.db (.onClaim record.claimId record.op now) = .ok db :=
              happly
            rcases execute_onClaim hexecute with rfl | hperform
            · exact .refl _
            · exact quiet_of_perform hperform
        · exact ⟨.refl _, rfl, rfl⟩
      · cases h

/-- Every step keeps what is announced. -/
theorem System.announces_step {svc : Services} {s s' : System} {event : SystemEvent}
    (ha : s.deployment.Announces) (h : System.step svc s event = some s') :
    s'.deployment.Announces := by
  by_cases hpublishing : ∃ e, event = .publishing e
  · rcases hpublishing with ⟨e, rfl⟩
    simp only [System.step] at h
    split at h
    · rcases Option.map_eq_some_iff.1 h with ⟨d, hd, rfl⟩
      exact ha.step hd
    · cases h
  · obtain ⟨⟨houtbox, hcreated⟩, htopic, hticks⟩ :=
      System.quiet_step (fun e he => hpublishing ⟨e, he⟩) h
    have hknows : ∀ e, s.db.Knows e → s'.db.Knows e := by
      rintro e ⟨row, hrow, hknown⟩
      exact ⟨row, by rw [houtbox]; exact hrow, hknown⟩
    refine ⟨?_, ?_, ?_, ?_⟩
    · show Table.UniqueKeys OutboxEvent.id s'.db.outbox
      rw [houtbox]
      exact ha.uniqueIds
    · intro row hrow htype
      show ∃ e ∈ s'.db.outbox, e.aggregateId = row.claimId
      rw [houtbox]
      exact ha.announced row (hcreated row hrow htype) htype
    · intro e he hsent
      have he' : e ∈ s.db.outbox := by rw [← houtbox]; exact he
      rw [htopic]
      exact ha.delivered e he' hsent
    · intro publisher tick htick
      rw [hticks] at htick
      rw [htopic]
      exact (ha.ticks publisher tick htick).mono hknows fun _ h => h

theorem System.announces_of_run {svc : Services} {s₀ s : System} {ls : List SystemEvent}
    (hinit : (pipeline svc).init s₀) (hrun : (pipeline svc).run s₀ ls = some s) :
    s.deployment.Announces := by
  refine Lts.run_invariant (I := fun s => s.deployment.Announces)
    (fun _ _ _ ha hstep => System.announces_step ha hstep) ?_ hrun
  obtain ⟨hdb, htopic, -, hticks, -, -, -⟩ := hinit
  refine ⟨?_, ?_, ?_, ?_⟩
  · rw [hdb]
    exact Table.uniqueKeys_nil
  · rw [hdb]
    rintro row ⟨⟩
  · rw [hdb]
    rintro e ⟨⟩
  · intro publisher tick htick
    rw [hticks] at htick
    cases htick

/-! ## A tick without failures -/

/-- The steps for an acknowledged row bring its record to the topic. -/
theorem run_acknowledgedRow (env : Env) {s : Deployment} {publisher : ℕ} (now : Instant)
    {pending attempted rest : List OutboxEvent} {event : OutboxEvent}
    (htick : s.ticks publisher = some ⟨pending, attempted, none, event :: rest⟩) :
    ∃ s', (publishing env).run s (rowEvents publisher ⟨.acknowledged, now, true⟩) = some s' ∧
      s'.ticks publisher = some ⟨pending, attempted ++ [event], none, rest⟩ ∧
      s'.topic = s.topic ++ [event.record] := by
  have hrun : (publishing env).run s (rowEvents publisher ⟨.acknowledged, now, true⟩) =
      some { ((s.accept event.record .acknowledged).setTick publisher
          ⟨pending, attempted ++ [event], some event, rest⟩).setTick publisher
            ⟨pending, attempted ++ [event], none, rest⟩ with
        db := s.db.markSent env event.id now } := by
    simp only [rowEvents, Lts.run_cons, publishing, Deployment.step, htick, Option.bind_some,
      Deployment.setTick, Function.update_self, acknowledgedBy, Lts.run_nil, if_true,
      Deployment.accept]
  exact ⟨_, hrun, by simp [Deployment.setTick], rfl⟩

/-- A tick whose sends are acknowledged brings the record of every row to the topic. -/
theorem run_acknowledged (env : Env) {s : Deployment} {publisher : ℕ} (now : Instant)
    {pending attempted rest : List OutboxEvent}
    (htick : s.ticks publisher = some ⟨pending, attempted, none, rest⟩) :
    ∃ s', (publishing env).run s
        (tickEvents publisher (List.replicate rest.length ⟨.acknowledged, now, true⟩)) = some s' ∧
      s'.topic = s.topic ++ rest.map OutboxEvent.record := by
  induction rest generalizing s attempted with
  | nil =>
      have hfinish : (publishing env).run s (tickEvents publisher []) =
          some { s.clearTick publisher with
            ended := ⟨pending, attempted, none, []⟩ :: s.ended } := by
        simp only [tickEvents, List.flatMap_nil, List.nil_append, Lts.run_cons, publishing,
          Deployment.step, htick, Option.bind_some, Lts.run_nil]
      exact ⟨_, hfinish, by simp [Deployment.clearTick]⟩
  | cons event rest ih =>
      rcases run_acknowledgedRow env now htick with ⟨s₁, hrun, htick₁, htopic₁⟩
      rcases ih htick₁ with ⟨s', hrest, htopic⟩
      refine ⟨s', ?_, ?_⟩
      · unfold tickEvents at hrest ⊢
        rw [List.length_cons, List.replicate_succ, List.flatMap_cons, List.append_assoc,
          Lts.run_append, hrun]
        exact hrest
      · rw [htopic, htopic₁, List.append_assoc, List.map_cons, List.singleton_append]

/-- Publisher 0 starts afresh and sends and marks `n` rows. -/
def cleanTick (n : ℕ) (now : Instant) : List Event :=
  .crash 0 :: .readPending 0 :: tickEvents 0 (List.replicate n ⟨.acknowledged, now, true⟩)

/-- Such a tick brings the records of the rows that are pending to the topic. -/
theorem run_cleanTick (env : Env) (s : Deployment) (now : Instant) :
    ∃ s', (publishing env).run s
        (cleanTick s.db.findBySentAtIsNullOrderByCreatedAtAsc.length now) = some s' ∧
      s'.topic =
        s.topic ++ s.db.findBySentAtIsNullOrderByCreatedAtAsc.map OutboxEvent.record := by
  have hcrash : (publishing env).step s (.crash 0) = some (s.clearTick 0) := rfl
  have hread : (publishing env).step (s.clearTick 0) (.readPending 0) =
      some ((s.clearTick 0).setTick 0 ⟨s.db.findBySentAtIsNullOrderByCreatedAtAsc, [], none,
        s.db.findBySentAtIsNullOrderByCreatedAtAsc⟩) := by
    simp only [publishing, Deployment.step, Deployment.clearTick, Function.update_self]
  have htick : ((s.clearTick 0).setTick 0 ⟨s.db.findBySentAtIsNullOrderByCreatedAtAsc, [], none,
      s.db.findBySentAtIsNullOrderByCreatedAtAsc⟩).ticks 0 =
      some ⟨s.db.findBySentAtIsNullOrderByCreatedAtAsc, [], none,
        s.db.findBySentAtIsNullOrderByCreatedAtAsc⟩ := by
    simp [Deployment.setTick]
  rcases run_acknowledged env now htick with ⟨s', hrun, htopic⟩
  refine ⟨s', ?_, htopic⟩
  unfold cleanTick
  rw [Lts.run_cons, hcrash, Option.bind_some, Lts.run_cons, hread, Option.bind_some, hrun]

/-- A publisher that goes on with its tick brings the records of the rows it has still to send
to the topic. -/
theorem run_restOfTick (env : Env) {s : Deployment} {publisher : ℕ} (now : Instant) {tick : Tick}
    (htick : s.ticks publisher = some tick) :
    ∃ s', (publishing env).run s (tick.owed publisher now true ++
        tickEvents publisher (List.replicate tick.rest.length ⟨.acknowledged, now, true⟩)) =
          some s' ∧
      s'.topic = s.topic ++ tick.rest.map OutboxEvent.record := by
  rcases tick with ⟨pending, attempted, _ | event, rest⟩
  · exact run_acknowledged env now htick
  · -- the row that was sent last is marked first
    have hmark : (publishing env).step s (.markSent publisher now true) =
        some { s.setTick publisher ⟨pending, attempted, none, rest⟩ with
          db := s.db.markSent env event.id now } := by
      simp only [publishing, Deployment.step, htick, if_true]
    have hnext : ({ s.setTick publisher ⟨pending, attempted, none, rest⟩ with
        db := s.db.markSent env event.id now } : Deployment).ticks publisher =
          some ⟨pending, attempted, none, rest⟩ := by
      simp [Deployment.setTick]
    rcases run_acknowledged env now hnext with ⟨s', hrun, htopic⟩
    refine ⟨s', ?_, htopic⟩
    simp only [Tick.owed]
    rw [List.singleton_append, Lts.run_cons, hmark, Option.bind_some]
    exact hrun

/-! ## The machines -/

/-- The step is one of a publisher, of a consumer or of the listener. -/
def SystemEvent.byMachines : SystemEvent → Bool
  | .publishing (.createClaim _ _ _) => false
  | .backlog _ => false
  | .onClaim _ _ _ => false
  | _ => true

/-- A step of a publisher is one of the system. -/
theorem System.step_publishing (svc : Services) {s : System} {event : Event} {d : Deployment}
    (hmachines : (SystemEvent.publishing event).byMachines = true)
    (h : Deployment.step svc.env s.deployment event = some d) :
    System.step svc s (.publishing event) = some { s with deployment := d } := by
  have hadmits : s.admits svc.env event = true := by
    cases event with
    | createClaim request draws commits => cases hmachines
    | _ => rfl
  simp only [System.step, hadmits, if_true, h, Option.map_some]

/-- Publishers create no claim. -/
theorem Deployment.claims_step {env : Env} {s s' : Deployment} {event : Event}
    (hmachines : (SystemEvent.publishing event).byMachines = true)
    (h : Deployment.step env s event = some s') : s'.db.claims = s.db.claims := by
  cases event with
  | createClaim request draws commits => cases hmachines
  | readPending publisher =>
      simp only [Deployment.step] at h
      split at h <;> cases h
      rfl
  | send publisher outcome =>
      simp only [Deployment.step] at h
      split at h <;> cases h
      cases outcome <;> rfl
  | lateAccept n =>
      simp only [Deployment.step] at h
      split at h <;> cases h
      rfl
  | markSent publisher now commits =>
      simp only [Deployment.step] at h
      split at h <;> cases h
      cases commits <;> rfl
  | finish publisher =>
      simp only [Deployment.step] at h
      split at h <;> cases h
      rfl
  | crash publisher =>
      cases h
      rfl

theorem byMachines_of_mem_tickEvents {publisher n : ℕ} {now : Instant} :
    ∀ e ∈ tickEvents publisher (List.replicate n ⟨.acknowledged, now, true⟩),
      (SystemEvent.publishing e).byMachines = true := by
  intro e he
  simp only [tickEvents, List.mem_append, List.mem_flatMap, List.mem_replicate,
    List.mem_singleton] at he
  rcases he with ⟨outcome, ⟨-, rfl⟩, hrow⟩ | rfl
  · simp only [rowEvents, List.mem_cons, List.not_mem_nil, or_false] at hrow
    rcases hrow with rfl | rfl <;> rfl
  · rfl

/-! ## A score that is stored -/

section

variable {env : Env} {db : Db} {claimId : UUID} {entry : AuditEntry} {now : Instant}
  {event : ClaimAuditEvent}

theorem claimId_of_nextEvent {previous : Option ClaimAuditEvent}
    (h : AuditService.nextEvent env claimId previous entry now = .ok event) :
    event.claimId = claimId := by
  rcases AuditService.nextEvent_ok h with ⟨json, -, rfl⟩
  simp only [AuditService.sealEvent, AuditService.draftEvent]

/-- The next number of a trail is free. -/
theorem seq_lt_of_nextEvent
    (h : AuditService.nextEvent env claimId (db.findFirstByClaimIdOrderBySeqDesc claimId) entry
      now = .ok event) {e : ClaimAuditEvent} (he : e ∈ db.eventsOf claimId) :
    e.seq < event.seq := by
  have hsorted : ((db.eventsOf claimId).insertionSort fun a b => b.seq ≤ a.seq).Pairwise
      fun a b => b.seq ≤ a.seq := by
    have : Std.Total (fun a b : ClaimAuditEvent => b.seq ≤ a.seq) :=
      ⟨fun a b => le_total b.seq a.seq⟩
    have : IsTrans ClaimAuditEvent (fun a b => b.seq ≤ a.seq) :=
      ⟨fun _ _ _ hab hbc => le_trans hbc hab⟩
    exact List.pairwise_insertionSort _ _
  have hmem := (List.perm_insertionSort (fun a b : ClaimAuditEvent => b.seq ≤ a.seq)
    (db.eventsOf claimId)).mem_iff.2 he
  rcases AuditService.nextEvent_ok h with ⟨json, -, rfl⟩
  unfold Db.findFirstByClaimIdOrderBySeqDesc
  -- the first row has the largest number
  cases hrows : (db.eventsOf claimId).insertionSort fun a b => b.seq ≤ a.seq with
  | nil =>
      rw [hrows] at hmem
      cases hmem
  | cons first rest =>
      rw [hrows] at hsorted hmem
      have hle : e.seq ≤ first.seq := by
        rcases List.mem_cons.1 hmem with rfl | hrest
        · exact le_refl _
        · exact (List.pairwise_cons.1 hsorted).1 e hrest
      simp only [List.head?_cons, AuditService.sealEvent, AuditService.draftEvent]
      omega

end

/-- What the columns of an audit row ask for is enough. -/
theorem exists_storeAuditEvent {env : Env} {event : ClaimAuditEvent}
    (htexts : ∀ text ∈ Db.auditTexts event, Db.isText text = true)
    (hscore : (Db.storeOption (BigDecimal.numeric 5 4) event.fraudScore).isSome)
    (hjson : (Db.storeOption env.jsonb event.explanationJson).isSome) :
    ∃ row, Db.storeAuditEvent env event = .ok row := by
  rcases Option.isSome_iff_exists.1 hscore with ⟨fraudScore, hscore⟩
  rcases Option.isSome_iff_exists.1 hjson with ⟨explanationJson, hjson⟩
  unfold Db.storeAuditEvent
  rw [if_pos (List.all_eq_true.2 htexts), hscore, hjson]
  exact ⟨_, rfl⟩

/-- The claim has a score of the model version. -/
def Db.HasScore (db : Db) (claimId : UUID) (modelVersion : String) : Prop :=
  ∃ row ∈ db.auditEvents, row.claimId = claimId ∧ row.eventType = .fraudScored ∧
    row.modelVersion = some modelVersion

theorem hasScore_iff {db : Db} {claimId : UUID} {modelVersion : String} :
    db.existsByClaimIdAndModelVersionAndEventType claimId (some modelVersion) .fraudScored = true ↔
      db.HasScore claimId modelVersion := by
  unfold Db.existsByClaimIdAndModelVersionAndEventType Db.HasScore
  simp only [List.any_eq_true, decide_eq_true_eq]
  refine exists_congr fun row => and_congr_right fun _ => ?_
  constructor
  · exact fun h => ⟨h.1, h.2.2, h.2.1⟩
  · exact fun h => ⟨h.1, h.2.2, h.2.1⟩

/-- What `insertAuditEvent` asks for is enough. -/
theorem insertAuditEvent_eq_ok {env : Env} {db : Db} {event row : ClaimAuditEvent}
    (hrow : Db.storeAuditEvent env event = .ok row) (hclaim : (db.findById event.claimId).isSome)
    (hseq : ∀ e ∈ db.eventsOf event.claimId, e.seq ≠ event.seq)
    (hdup : db.isDuplicateScore event = false) :
    db.insertAuditEvent env event = .ok { db with auditEvents := db.auditEvents ++ [row] } := by
  have hclaim' : (db.findById event.claimId).isNone = false := by
    rw [Option.isNone_eq_false_iff]
    exact hclaim
  have hseq' : (db.eventsOf event.claimId).any (fun e => decide (e.seq = event.seq)) = false := by
    rw [List.any_eq_false]
    intro e he
    rw [decide_eq_true_eq]
    exact hseq e he
  unfold Db.insertAuditEvent
  simp only [hrow, bind, Except.bind, hclaim', hseq', hdup, Bool.false_eq_true, if_false]
  rfl

/-- The decision of an operation is stored, when the columns take its entry and it is no
second score of its model version. -/
theorem exists_perform {env : Env} {db : Db} {claim : Claim} {op : Op} {decision : Decision}
    (hclaim : db.findById claim.id = some claim) (hdecide : decideOp op claim = .ok decision)
    {now : Instant} {event row : ClaimAuditEvent}
    (hevent : AuditService.nextEvent env claim.id (db.findFirstByClaimIdOrderBySeqDesc claim.id)
      decision.entry now = .ok event)
    (hrow : Db.storeAuditEvent env event = .ok row) (hdup : db.isDuplicateScore event = false) :
    perform env db claim.id op now =
      .ok { save db decision.saved with auditEvents := db.auditEvents ++ [row] } := by
  have haudit := auditEvents_save db decision.saved
  have hid := claimId_of_nextEvent hevent
  have hinsert : (save db decision.saved).insertAuditEvent env event =
      .ok { save db decision.saved with
        auditEvents := (save db decision.saved).auditEvents ++ [row] } := by
    refine insertAuditEvent_eq_ok hrow ?_ ?_ ?_
    · rw [hid, findById_save hclaim hdecide rfl, if_pos rfl]
      rfl
    · intro e he
      rw [hid, eventsOf_congr haudit] at he
      exact (seq_lt_of_nextEvent hevent he).ne
    · rw [← hdup]
      unfold Db.isDuplicateScore Db.existsByClaimIdAndModelVersionAndEventType
      rw [haudit]
  unfold perform
  rw [hclaim]
  simp only [hdecide, AuditService.append, Db.findFirst_congr haudit, hevent, hinsert, bind,
    Except.bind, haudit]

/-- A score whose values the columns take is applied, unless there is one already. -/
theorem exists_applyScore {env : Env} {db : Db} {claim : Claim}
    (hclaim : db.findById claim.id = some claim) {fraudScore stored : BigDecimal}
    (hnumeric : fraudScore.numeric 5 4 = some stored) (hint : Option String)
    {ringId : Option String} (hring : ∀ ring ∈ ringId, Db.isText ring = true)
    {explanation : JsonText} (hjson : (env.jsonb explanation).isSome) {modelVersion : String}
    (hversion : Db.isText modelVersion = true) (now : Instant) :
    ∃ db', applyScore env db claim.id (some fraudScore) hint ringId (some (.text explanation))
        (some modelVersion) now = .ok db' ∧ db'.HasScore claim.id modelVersion := by
  unfold applyScore
  cases hscored : db.existsByClaimIdAndModelVersionAndEventType claim.id (some modelVersion)
      .fraudScored with
  | true => exact ⟨db, rfl, hasScore_iff.1 hscored⟩
  | false =>
      rcases Option.isSome_iff_exists.1 hjson with ⟨kept, hkept⟩
      have hdecide : decideOp (.score (some fraudScore) hint ringId (some (.text explanation))
          (some modelVersion)) claim = .ok (decideScore claim (some fraudScore) hint ringId
            (some (.text explanation)) (some modelVersion)) := rfl
      generalize hdecision : decideScore claim (some fraudScore) hint ringId
        (some (.text explanation)) (some modelVersion) = decision at hdecide
      have hentry : decision.entry.explanationJson = some (.text explanation) := by
        rw [← hdecision]
        rfl
      have hevent : AuditService.nextEvent env claim.id
          (db.findFirstByClaimIdOrderBySeqDesc claim.id) decision.entry now =
          .ok (AuditService.sealEvent env (AuditService.draftEvent claim.id
            (db.findFirstByClaimIdOrderBySeqDesc claim.id) decision.entry (some explanation)
            now)) := by
        unfold AuditService.nextEvent
        rw [hentry]
        rfl
      generalize hsealed : AuditService.sealEvent env (AuditService.draftEvent claim.id
        (db.findFirstByClaimIdOrderBySeqDesc claim.id) decision.entry (some explanation) now) =
        event at hevent
      have hfields : Db.auditTexts event = scoringActorId :: (ringId.toList ++ [modelVersion]) ∧
          event.fraudScore = some fraudScore ∧ event.explanationJson = some explanation ∧
          event.claimId = claim.id ∧ event.modelVersion = some modelVersion := by
        rw [← hsealed, ← hdecision]
        simp only [Db.auditTexts, AuditService.sealEvent, AuditService.draftEvent, decideScore,
          Option.toList_none, Option.toList_some, List.nil_append, and_self]
      obtain ⟨htexts, hscore, hexplanation, hid, hmodel⟩ := hfields
      have hrow : ∃ row, Db.storeAuditEvent env event = .ok row := by
        apply exists_storeAuditEvent
        · intro text htext
          rw [htexts, List.mem_cons, List.mem_append, Option.mem_toList, List.mem_singleton] at htext
          rcases htext with rfl | htext | rfl
          · decide +kernel
          · exact hring text htext
          · exact hversion
        · rw [hscore, Db.storeOption, hnumeric]
          rfl
        · rw [hexplanation, Db.storeOption, hkept]
          rfl
      rcases hrow with ⟨row, hrow⟩
      have hdup : db.isDuplicateScore event = false := by
        unfold Db.isDuplicateScore
        rw [hid, hmodel, hscored, Bool.and_false]
      have hnext := nextRow_of_stored hevent hrow
      refine ⟨{ save db decision.saved with auditEvents := db.auditEvents ++ [row] }, ?_, row,
        List.mem_append_right _ (List.mem_singleton_self _), hnext.claimId_eq, ?_, ?_⟩
      · exact exists_perform hclaim hdecide hevent hrow hdup
      · rw [hnext.eventType_eq, ← hdecision]
        rfl
      · rw [hnext.modelVersion_eq, ← hdecision]
        rfl

/-! ## Scored claims have moved -/

/-- No transition leads back to the initial status. -/
theorem ne_submitted_of_isAllowed {s t : ClaimStatus} {r : ActorRole}
    (h : ClaimTransitions.isAllowed s t r = true) : t ≠ .submitted := by
  revert h
  cases s <;> cases t <;> cases r <;> decide

/-- A score moves a claim out of its initial status, and nothing moves it back. -/
theorem status_ne_submitted {op : Op} {claim : Claim} {decision : Decision}
    (h : decideOp op claim = .ok decision) (hop : op.isScore = true ∨ claim.status ≠ .submitted) :
    (decision.saved.getD claim).status ≠ .submitted := by
  cases op with
  | transition toStatus reason actorId actorRole =>
      simp only [decideOp, decideTransition, Results.guard_eq_ok, Results.pure_eq_ok] at h
      rcases h with ⟨-, hallowed, -, rfl⟩
      exact ne_submitted_of_isAllowed (by simpa using hallowed)
  | narrative narrative grounded modelVersion actorId actorRole =>
      rcases Results.pure_eq_ok.1 h with rfl
      rcases hop with hop | hop
      · cases hop
      · exact hop
  | score fraudScore decisionHint ringId explanationJson modelVersion =>
      rcases Results.pure_eq_ok.1 h with rfl
      unfold decideScore
      simp only
      generalize htarget : (if decisionHint = some "FLAG" then ClaimStatus.flagged
        else .underReview) = target
      cases hmoves : ClaimTransitions.isAllowed claim.status target .system with
      | true => exact ne_submitted_of_isAllowed hmoves
      | false =>
          -- the system may move a submitted claim to either status
          show claim.status ≠ .submitted
          intro hsubmitted
          rw [hsubmitted, ← htarget] at hmoves
          split at hmoves <;> exact absurd hmoves (by decide)

/-- A claim that has a score is not in its initial status. -/
def Db.Moved (db : Db) : Prop :=
  ∀ row ∈ db.auditEvents, row.eventType = .fraudScored →
    ∃ claim ∈ db.claims, claim.id = row.claimId ∧ claim.status ≠ .submitted

theorem Db.Moved.perform {env : Env} {db db' : Db} {claimId : UUID} {op : Op} {now : Instant}
    (hm : db.Moved) (hids : Table.UniqueKeys Claim.id db.claims)
    (h : ClaimService.perform env db claimId op now = .ok db') : db'.Moved := by
  rcases perform_ok h with ⟨claim, decision, event, row, hclaim, hdecide, hevent, hstored, -, rfl⟩
  rcases Table.find_eq_some hclaim with ⟨hmem, rfl⟩
  have hnext := nextRow_of_stored hevent hstored
  have hafter : op.isScore = true ∨ claim.status ≠ .submitted →
      ∃ c ∈ (save db decision.saved).claims, c.id = claim.id ∧ c.status ≠ .submitted := by
    intro hop
    have hfind := findById_save hclaim hdecide rfl claim.id
    rw [if_pos rfl] at hfind
    exact ⟨_, (Table.find_eq_some hfind).1, saved_id hdecide, status_ne_submitted hdecide hop⟩
  intro e he htype
  rcases List.mem_append.1 he with hold | hnew
  · rcases hm e hold htype with ⟨c, hc, hid, hstatus⟩
    by_cases hsame : c.id = claim.id
    · obtain rfl : c = claim := List.inj_on_of_nodup_map hids hc hmem hsame
      rw [← hid]
      exact hafter (Or.inr hstatus)
    · have hfind := findById_save hclaim hdecide rfl c.id
      rw [if_neg hsame] at hfind
      have hkept := hfind.trans (Table.find_of_mem hids hc)
      exact ⟨c, (Table.find_eq_some hkept).1, hid, hstatus⟩
  · rw [List.mem_singleton.1 hnew, hnext.eventType_eq] at htype
    rw [List.mem_singleton.1 hnew, hnext.claimId_eq]
    -- only a score is recorded as one
    refine hafter (Or.inl ?_)
    by_contra hop
    exact eventType_ne_of_isScore (Bool.not_eq_true _ ▸ hop) hdecide htype

theorem DbStep.moved {env : Env} {asks : UUID → Op → Prop} {db db' : Db}
    (h : DbStep env asks db db') (hr : db.Resolved env) (hm : db.Moved) : db'.Moved := by
  have hkeeps : db.Keeps db' → (∀ row ∈ db'.auditEvents, row.eventType = .fraudScored →
      row ∈ db.auditEvents) → db'.Moved := by
    intro hkeeps hevents row hrow htype
    rcases hm row (hevents row hrow htype) htype with ⟨claim, hclaim, hmoved⟩
    exact ⟨claim, hkeeps.claims claim hclaim, hmoved⟩
  cases h with
  | outbox hlinks hevents hrecords =>
      exact hkeeps (.of_same (fun c hc => hlinks.claims ▸ hc) hlinks.entities hlinks.claimEntities)
        fun row hrow _ => hevents ▸ hrow
  | created request draws passes hstep h =>
      refine hkeeps (keeps_of_intake (s := ⟨db, passes⟩) hr hstep) ?_
      obtain ⟨claim, event, row', payload, db₁, db₂, -, -, -, -, -, -, hevent, hstored, -, rfl⟩ :=
        createClaim_ok h
      intro row hrow htype
      rcases List.mem_append.1 hrow with hold | hnew
      · exact hold
      · rw [List.mem_singleton.1 hnew, (nextRow_of_stored hevent hstored).eventType_eq] at htype
        cases htype
  | backlog call passes passes' hcall h =>
      refine hkeeps (keeps_of_intake (s := ⟨db, passes⟩) hr h) fun row hrow _ => ?_
      rw [(sameTrails_of_backlog hcall h).1] at hrow
      exact hrow
  | performed claimId op now hasks h => exact hm.perform hr.claimIds h

theorem System.moved_of_run {svc : Services} {s₀ s : System} {ls : List SystemEvent}
    (hinit : (pipeline svc).init s₀) (hrun : (pipeline svc).run s₀ ls = some s) : s.db.Moved := by
  refine (Lts.run_invariant (I := fun s => s.Inv svc ∧ s.db.Moved) ?_
    ⟨System.inv_of_init hinit, ?_⟩ hrun).2
  · rintro s event s' ⟨hinv, hm⟩ hstep
    exact ⟨hinv.step hstep, (System.dbStep hstep).moved hinv.resolved hm⟩
  · rw [System.db, hinit.1]
    rintro row ⟨⟩

/-! ## Explanations that a column takes -/

/-- The texts of a piece are plain. -/
def Evidence.IsPlain : Evidence Double → Prop
  | .sharedEntity entityType entityValue _ _ => Plain entityType ∧ Plain entityValue
  | .ringMetric metric _ _ => Plain metric
  | .featureContribution feature _ _ => Plain feature

/-- The texts of an explanation are plain. -/
structure Explanation.IsPlain (explanation : Explanation Double) : Prop where
  summary : Plain explanation.summary
  evidence : ∀ e ∈ explanation.evidence, e.IsPlain

/-- What an explanation is stored from. -/
def Explanation.stored (explanation : Explanation Double) : JsonText :=
  CanonicalJson.toText (CanonicalJson.parse (explanation.modelDump Double.repr))

theorem Evidence.Discloses.isPlain {e : Evidence Double} (h : e.Discloses) : e.IsPlain := by
  cases e with
  | sharedEntity entityType entityValue entityDegree sharedWithClaimIds =>
      obtain ⟨⟨T, rfl⟩, -, hchars⟩ := h
      refine ⟨by cases T <;> decide +kernel, fun c hc => ?_⟩
      rcases hchars c hc with rfl | hvalue
      · rfl
      · exact isPlainChar_of_isValueChar hvalue
  | ringMetric metric value baseline =>
      rcases (h : metric = "community_size") with rfl
      exact (by decide +kernel : Plain "community_size")
  | featureContribution feature featureValue shapValue => exact plain_of_mem_allFeatures h

/-- A score from a database is applied to a later one that has the claim, unless it has one
already. -/
theorem exists_delivered {svc : Services}
    (hstores : ∀ explanation : Explanation Double, explanation.IsPlain →
      (svc.env.jsonb explanation.stored).isSome)
    (hphone : ∀ raw value, svc.env.normalizePhone raw = some value →
      ∀ c ∈ value.toList, c = '+' ∨ c.isDigit = true)
    (hig : svc.sc.ig.FindsEdges) (hversion : Db.isText svc.sc.modelVersion = true) {db db' : Db}
    (hr : db.Resolved svc.env) (hr' : db'.Resolved svc.env) (hwithin : db.Within db')
    {rows : List LinkRow} (hrows : rows.Perm (fetchLinks db none)) {score : ClaimScore Double}
    (hlinked : db'.IsLinked score.claimId)
    (hscore : scoreOne svc.sc (Cache.of svc.sc (svc.graph db rows)) score.claimId =
      .ok (some score)) (scoredAt : String) (now : Instant) :
    ∃ db'', ScoringResultConsumer.onClaimScored svc.env db'
        (serialize (score.modelDump Double.repr scoredAt)) now = .ok db'' ∧
      db''.HasScore score.claimId svc.sc.modelVersion := by
  obtain ⟨-, k, hk, hvalue⟩ := exists_decimals_of_scoreOne (Cache.fromOne_of _ _) hscore
  have hshown := shown_of_scoreOne hscore
  have hdiscloses := discloses_of_scoreOne hr hrows hig hphone (hwithin.apart hr' hlinked) hscore
  have hjson := hstores score.explanation
    ⟨hshown.summary, fun e he => (hdiscloses e he).isPlain⟩
  have hclaim : ∃ claim, db'.findById score.claimId = some claim ∧ claim.id = score.claimId := by
    rcases hlinked with ⟨l, hl, heq⟩
    rcases hr'.sound l hl with ⟨claim, hclaim, ref, -, hid, -⟩
    rw [hid] at heq
    exact ⟨claim, heq ▸ Table.find_of_mem hr'.claimIds hclaim, heq⟩
  rcases hclaim with ⟨claim, hclaim, hid⟩
  rcases onClaimScored_serialize svc.env db' now scoredAt hk hvalue with ⟨d, hnumeric, happlied⟩
  rw [← hid] at hclaim happlied ⊢
  rw [← hshown.modelVersion] at hversion ⊢
  rcases exists_applyScore hclaim hnumeric (some score.decisionHint.name)
    (fun ring hring => (hshown.ringId ring hring).isText) hjson hversion now with
    ⟨db'', happly, hhas⟩
  refine ⟨db'', ?_, hhas⟩
  rw [happlied]
  unfold Explanation.stored at happly
  rw [happly]
  rfl

end ClaimGuard
