import ClaimGuard.Pipeline

/-!
# Where a score comes from

Along every run of the pipeline: a record of `claim.submitted` is about a claim that the
API created with its links; a cache and a record of `claim.scored` come from the graph of
a database the run has passed; and so does every score in a trail, however the records
were delayed, repeated or lost.
-/

namespace ClaimGuard

open ClaimService

/-! ## Submitted claims -/

/-- The claim was created by a call of the API, together with its links. -/
structure Db.IsSubmitted (db : Db) (claimId : UUID) : Prop where
  linked : db.IsLinked claimId
  created : ∃ row ∈ db.auditEvents, row.claimId = claimId ∧ row.eventType = .claimCreated

/-- The record announces a submitted claim. -/
def Db.Submits (env : Env) (db : Db) (record : OutboxRecord) : Prop :=
  ∃ claimId, db.IsSubmitted claimId ∧ record.topic = claimSubmittedTopic ∧
    record.key = claimId.toString ∧
    env.jsonb (OutboxService.claimSubmittedPayload claimId) = some record.payload

theorem Db.Within.isLinked {env : Env} {db db' : Db} (h : db.Within db') (hr : db.Resolved env)
    {claimId : UUID} (hlinked : db.IsLinked claimId) : db'.IsLinked claimId := by
  rcases hlinked with ⟨l, hl, rfl⟩
  rcases hr.sound l hl with ⟨c, -, r, hmem, hid, -⟩
  rcases h.links c.id r.2.1 r.2.2 ⟨r.1, hmem, l, hl, hid⟩ with ⟨eid, -, l', hl', hid'⟩
  exact ⟨l', hl', by rw [hid', hid]⟩

/-- The id of a linked claim has never been that of an entity. -/
theorem Db.Within.apart {env : Env} {db db' : Db} (h : db.Within db') (hr : db'.Resolved env)
    {claimId : UUID} (hlinked : db'.IsLinked claimId) : ∀ r ∈ db.refs, claimId ≠ r.1 := by
  intro r hmem
  rcases hlinked with ⟨l, hl, rfl⟩
  rcases hr.sound l hl with ⟨c, hc, ref, -, hid, -⟩
  rw [hid]
  exact hr.apart c hc r (h.refs r hmem)

theorem Db.IsSubmitted.mono {env : Env} {db db' : Db} {claimId : UUID}
    (hs : db.IsSubmitted claimId) (hr : db.Resolved env) (h : db.Within db') :
    db'.IsSubmitted claimId := by
  refine ⟨h.isLinked hr hs.linked, ?_⟩
  rcases hs.created with ⟨row, hrow, hrest⟩
  exact ⟨row, h.events.subset hrow, hrest⟩

theorem Db.Submits.mono {env : Env} {db db' : Db} {record : OutboxRecord}
    (hs : db.Submits env record) (hr : db.Resolved env) (h : db.Within db') :
    db'.Submits env record := by
  rcases hs with ⟨claimId, hsubmitted, hrest⟩
  exact ⟨claimId, hsubmitted.mono hr h, hrest⟩

/-- A created claim is submitted, and its outbox row announces it. -/
theorem submitted_of_createClaim {env : Env} {db db' : Db} {request : ClaimRequest}
    {draws : CreateDraws} (hr : db.Resolved env)
    (h : createClaim env db request draws = .ok db') :
    db'.IsSubmitted draws.claimId ∧ ∀ row ∈ db'.outbox, row ∈ db.outbox ∨
      row.aggregateId = draws.claimId ∧ row.topic = claimSubmittedTopic ∧
        env.jsonb (OutboxService.claimSubmittedPayload draws.claimId) = some row.payload := by
  obtain ⟨claim, event, row, payload, db₁, db₂, -, hid, -, -, rfl, hresolve, hevent, hrow,
    hpayload, rfl⟩ := createClaim_ok h
  have hnext := nextRow_of_stored hevent hrow
  refine ⟨⟨?_, row, by simp, by rw [hnext.claimId_eq, hid], hnext.eventType_eq⟩, ?_⟩
  · -- every claim has an address, so it has a link
    have hall := (extends_of_resolveAndLink (by exact hr.entityKeys) hresolve).2
    rcases hall .address _ (canonicalValue_address env _) with ⟨eid, -, l, hl, hlid⟩
    exact ⟨l, hl, by rw [hlid]; rfl⟩
  · intro e he
    rcases Table.mem_of_mem_save he with rfl | hold
    · exact Or.inr ⟨hid, rfl, by rw [← hid]; exact hpayload⟩
    · exact Or.inl hold

/-- The outbox announces submitted claims after a step, when it did before. -/
theorem DbStep.submits {env : Env} {asks : UUID → Op → Prop} {db db' : Db}
    (h : DbStep env asks db db') (hr : db.Resolved env)
    (hrows : ∀ row ∈ db.outbox, db.Submits env row.record) :
    ∀ row ∈ db'.outbox, db'.Submits env row.record := by
  have hwithin := h.within hr
  have hold : ∀ row ∈ db.outbox, db'.Submits env row.record :=
    fun row hrow => (hrows row hrow).mono hr hwithin
  cases h with
  | outbox hlinks hevents hrecords =>
      intro row' hrow'
      rcases hrecords row' hrow' with ⟨row, hrow, heq⟩
      rw [heq]
      exact hold row hrow
  | created request draws passes hstep h =>
      obtain ⟨hsubmitted, hnew⟩ := submitted_of_createClaim hr h
      intro row hrow
      rcases hnew row hrow with hmem | ⟨hid, htopic, hpayload⟩
      · exact hold row hmem
      · exact ⟨draws.claimId, hsubmitted, htopic, by rw [← hid]; rfl, hpayload⟩
  | backlog call passes passes' hcall h =>
      rw [(sameTrails_of_backlog hcall h).2]
      exact hold
  | performed claimId op now hasks h =>
      rw [(sameLinks_of_perform h).2.2.1]
      exact hold

/-! ## The way to the topic -/

/-- A publisher has read the row and not sent it yet. -/
def Deployment.IsRead (s : Deployment) (row : OutboxEvent) : Prop :=
  ∃ publisher tick, s.ticks publisher = some tick ∧ row ∈ tick.rest

/-- A record that the broker may accept next: one on its way, or that of a row to be sent. -/
def Deployment.MayArrive (s : Deployment) (record : OutboxRecord) : Prop :=
  record ∈ s.onTheWay ∨ ∃ row, s.IsRead row ∧ record = row.record

/-- How far a step brings the rows: those of new claims are queued, unsent ones are read,
what is read is sent, and what was sent arrives. -/
structure Deployment.Moves (s s' : Deployment) : Prop where
  queued : ∀ row ∈ s'.db.outbox, row.sentAt = none →
    row ∈ s.db.outbox ∨ s.db.findById row.aggregateId = none
  read : ∀ row, s'.IsRead row → s.IsRead row ∨ row ∈ s.db.outbox ∧ row.sentAt = none
  sent : ∀ record ∈ s'.onTheWay, s.MayArrive record
  arrived : ∃ new, s'.topic = s.topic ++ new ∧ ∀ record ∈ new, s.MayArrive record

/-- A row that was marked and is unsent was not marked. -/
theorem unsent_of_markSent {env : Env} {db : Db} {id : UUID} {now : Instant} {row : OutboxEvent}
    (h : row ∈ (db.markSent env id now).outbox) (hunsent : row.sentAt = none) :
    row ∈ db.outbox := by
  rcases List.mem_map.1 h with ⟨row', hrow', rfl⟩
  split at hunsent
  · cases hunsent
  · rename_i hid
    rwa [if_neg hid]

/-- A tick in the place of another: its rows are read, or those of the other. -/
theorem Deployment.isRead_update {s : Deployment} {publisher : ℕ} {next : Option Tick}
    {row : OutboxEvent} (h : ∃ other tick,
      Function.update s.ticks publisher next other = some tick ∧ row ∈ tick.rest) :
    s.IsRead row ∨ ∃ tick, next = some tick ∧ row ∈ tick.rest := by
  rcases h with ⟨other, tick, htick, hrow⟩
  by_cases hother : other = publisher
  · rw [hother, Function.update_self] at htick
    exact Or.inr ⟨tick, htick, hrow⟩
  · rw [Function.update_of_ne hother] at htick
    exact Or.inl ⟨other, tick, htick, hrow⟩

theorem Deployment.moves_step {env : Env} {s s' : Deployment} {event : Event}
    (h : Deployment.step env s event = some s') : s.Moves s' := by
  have hqueued : ∀ row ∈ s.db.outbox, row.sentAt = none →
      row ∈ s.db.outbox ∨ s.db.findById row.aggregateId = none := fun row hrow _ => Or.inl hrow
  have hsent : ∀ record ∈ s.onTheWay, s.MayArrive record := fun record h => Or.inl h
  have hnone : ∃ new, s.topic = s.topic ++ new ∧ ∀ record ∈ new, s.MayArrive record :=
    ⟨[], by simp, by simp⟩
  -- a tick with rows of the tick before, or with none
  have hread : ∀ {publisher : ℕ} {next : Option Tick}, (∀ tick, next = some tick →
      ∀ row ∈ tick.rest, s.IsRead row) → ∀ row, (∃ other tick,
      Function.update s.ticks publisher next other = some tick ∧ row ∈ tick.rest) →
      s.IsRead row ∨ row ∈ s.db.outbox ∧ row.sentAt = none := by
    intro publisher next hnext row hrow
    rcases s.isRead_update hrow with hold | ⟨tick, htick, hmem⟩
    · exact Or.inl hold
    · exact Or.inl (hnext tick htick row hmem)
  cases event with
  | createClaim request draws commits =>
      simp only [Deployment.step] at h
      split at h
      · rename_i hfresh
        simp only [isFresh, Bool.and_eq_true, List.all_eq_true, decide_eq_true_eq] at hfresh
        split at h <;> cases h
        · rename_i db hcreate
          obtain ⟨claim, row, -, hnew, -, houtbox, -, howner, -, -, -⟩ :=
            createClaim_queues hcreate hfresh.2
          refine ⟨fun row' hrow' _ => ?_, fun row hrow => Or.inl hrow, hsent, hnone⟩
          have hmem : row' ∈ s.db.outbox ++ [row] := houtbox ▸ hrow'
          rcases List.mem_append.1 hmem with hold | hadded
          · exact Or.inl hold
          · rw [List.mem_singleton.1 hadded, howner]
            exact Or.inr hnew
        · exact ⟨hqueued, fun row hrow => Or.inl hrow, hsent, hnone⟩
      · cases h
  | readPending publisher =>
      simp only [Deployment.step] at h
      split at h <;> cases h
      refine ⟨hqueued, fun row hrow => ?_, hsent, hnone⟩
      rcases s.isRead_update hrow with hold | ⟨tick, htick, hmem⟩
      · exact Or.inl hold
      · cases htick
        have hpending := List.mem_filter.1 ((List.perm_insertionSort _ _).mem_iff.1 hmem)
        exact Or.inr ⟨hpending.1, by simpa using hpending.2⟩
  | send publisher outcome =>
      simp only [Deployment.step] at h
      split at h <;> cases h
      rename_i pending attempted event rest htick
      have hfirst : s.MayArrive event.record :=
        Or.inr ⟨event, ⟨publisher, _, htick, List.mem_cons_self⟩, rfl⟩
      have hrest := @hread publisher (some (Tick.mk pending (attempted ++ [event])
          (acknowledgedBy event outcome) rest)) (by
        rintro tick ⟨⟩ row hrow
        exact ⟨publisher, _, htick, List.mem_cons_of_mem _ hrow⟩)
      have hadd : ∀ record ∈ [event.record], s.MayArrive record := fun record hrecord =>
        (List.mem_singleton.1 hrecord) ▸ hfirst
      -- the record goes to the topic, or on its way, or nowhere
      cases outcome with
      | acknowledged => exact ⟨hqueued, hrest, hsent, _, rfl, hadd⟩
      | failedAfterAccept => exact ⟨hqueued, hrest, hsent, _, rfl, hadd⟩
      | failedBeforeAccept => exact ⟨hqueued, hrest, hsent, hnone⟩
      | timedOut =>
          exact ⟨hqueued, hrest, fun record hrecord =>
            (List.mem_append.1 hrecord).elim (hsent record) (hadd record), hnone⟩
  | lateAccept n =>
      simp only [Deployment.step] at h
      split at h <;> cases h
      rename_i record hrecord
      refine ⟨hqueued, fun row hrow => Or.inl hrow,
        fun r hr => Or.inl (List.mem_of_mem_eraseIdx hr), [record], rfl, fun r hr => ?_⟩
      rw [List.mem_singleton.1 hr]
      exact Or.inl (List.mem_of_getElem? hrecord)
  | markSent publisher now commits =>
      simp only [Deployment.step] at h
      split at h <;> cases h
      rename_i pending attempted event rest htick
      refine ⟨fun row hrow hunsent => ?_, hread ?_, hsent, hnone⟩
      · cases commits with
        | false => exact Or.inl hrow
        | true => exact Or.inl (unsent_of_markSent hrow hunsent)
      · rintro tick ⟨⟩ row hrow
        exact ⟨publisher, _, htick, hrow⟩
  | finish publisher =>
      simp only [Deployment.step] at h
      split at h <;> cases h
      exact ⟨hqueued, hread (by rintro tick ⟨⟩), hsent, hnone⟩
  | crash publisher =>
      cases h
      exact ⟨hqueued, hread (by rintro tick ⟨⟩), hsent, hnone⟩

/-! ## What the publishers carry -/

/-- Every record that is queued, read, on its way or accepted meets `p`. -/
structure Deployment.Carries (p : OutboxRecord → Prop) (s : Deployment) : Prop where
  outbox : ∀ row ∈ s.db.outbox, p row.record
  topic : ∀ record ∈ s.topic, p record
  onTheWay : ∀ record ∈ s.onTheWay, p record
  rest : ∀ publisher tick, s.ticks publisher = some tick → ∀ row ∈ tick.rest, p row.record

/-- Publishers carry what is in the outbox. -/
theorem Deployment.Carries.step {env : Env} {p : OutboxRecord → Prop} {s s' : Deployment}
    {event : Event} (hc : s.Carries p) (h : Deployment.step env s event = some s')
    (houtbox : ∀ row ∈ s'.db.outbox, p row.record) : s'.Carries p := by
  have hmoves := Deployment.moves_step h
  have harrives : ∀ record, s.MayArrive record → p record := by
    rintro record (hway | ⟨row, ⟨publisher, tick, htick, hrow⟩, rfl⟩)
    · exact hc.onTheWay record hway
    · exact hc.rest publisher tick htick row hrow
  refine ⟨houtbox, ?_, fun record hrecord => harrives record (hmoves.sent record hrecord), ?_⟩
  · rcases hmoves.arrived with ⟨new, htopic, hnew⟩
    intro record hrecord
    rw [htopic] at hrecord
    rcases List.mem_append.1 hrecord with hold | hadded
    · exact hc.topic record hold
    · exact harrives record (hnew record hadded)
  · intro publisher tick htick row hrow
    rcases hmoves.read row ⟨publisher, tick, htick, hrow⟩ with
      ⟨other, before, hbefore, hmem⟩ | ⟨hmem, -⟩
    · exact hc.rest other before hbefore row hmem
    · exact hc.outbox row hmem

theorem Deployment.Carries.imp {p q : OutboxRecord → Prop} {s : Deployment} (hc : s.Carries p)
    (hpq : ∀ record, p record → q record) : s.Carries q :=
  ⟨fun row h => hpq _ (hc.outbox row h), fun r h => hpq r (hc.topic r h),
    fun r h => hpq r (hc.onTheWay r h), fun n t ht row h => hpq _ (hc.rest n t ht row h)⟩

/-! ## The cache of a graph -/

section

variable {F : Type} [Floats F] {sc : Scoring F} {g : Graph F}

/-- The cache that a completed refresh leaves. -/
def Cache.of (sc : Scoring F) (g : Graph F) : Cache F := (refresh sc Cache.empty ⟨some g, true⟩).1

@[simp] theorem Cache.graph_of (sc : Scoring F) (g : Graph F) : (Cache.of sc g).graph = some g :=
  (refresh_completes rfl rfl).1

theorem Cache.fromOne_of (sc : Scoring F) (g : Graph F) : (Cache.of sc g).FromOne sc :=
  Or.inr ⟨g, refresh_completes rfl rfl⟩

/-- A refresh that returns overwrites the whole cache. -/
theorem refresh_eq_of {cache : Cache F} {attempt : Attempt F} {n : ℕ}
    (hbuilt : attempt.built = some g) (h : (refresh sc cache attempt).2 = .ok n) :
    (refresh sc cache attempt).1 = Cache.of sc g := by
  rcases completes_of_refresh h with ⟨-, -, hcompletes⟩
  unfold Cache.of refresh
  cases sc.classifier <;> simp [hbuilt, hcompletes]

theorem scoreAll_singleton (sc : Scoring F) (cache : Cache F) (claimId : UUID) :
    scoreAll sc cache [claimId] = (scoreOne sc cache claimId).map Option.toList := by
  unfold scoreAll
  cases scoreOne sc cache claimId with
  | error e => rfl
  | ok score => simp [scoreAll, bind, Except.bind, pure, Except.pure, Except.map]

/-- The fallback on the cache of a graph: a score comes from that cache or, as no score
does, from the cache of the graph that its refresh built. -/
theorem scoreWithRefreshFallback_ok {filling own second : Attempt F} {claimId : UUID}
    {g' : Graph F} {cache : Cache F} {result : Option (ClaimScore F)}
    (hbuilt : own.built = some g')
    (h : scoreWithRefreshFallback sc (Cache.of sc g) filling own second claimId =
      (cache, .ok result)) :
    (cache = Cache.of sc g ∧ result.isSome ∨ cache = Cache.of sc g') ∧
      scoreOne sc cache claimId = .ok result := by
  unfold scoreWithRefreshFallback at h
  rw [scoreClaims_of_graph (Cache.graph_of sc g), scoreAll_singleton] at h
  cases hone : scoreOne sc (Cache.of sc g) claimId with
  | error e =>
      rw [hone] at h
      cases (Prod.mk.inj h).2
  | ok first =>
      rw [hone] at h
      cases first with
      | some score =>
          rcases Prod.mk.inj h with ⟨rfl, hresult⟩
          rcases Results.pure_eq_ok.1 hresult with rfl
          exact ⟨Or.inl ⟨rfl, rfl⟩, hone⟩
      | none =>
          -- the claim is not in the graph yet
          simp only [Except.map, Option.toList_none] at h
          cases hrefresh : refresh sc (Cache.of sc g) own with
          | mk cache₁ refreshed =>
              rw [hrefresh] at h
              cases refreshed with
              | error e => cases (Prod.mk.inj h).2
              | ok n =>
                  have hcache : cache₁ = Cache.of sc g' := by
                    have heq := refresh_eq_of (n := n) hbuilt (by rw [hrefresh])
                    rwa [hrefresh] at heq
                  subst hcache
                  simp only [scoreClaims_of_graph (Cache.graph_of sc g'),
                    scoreAll_singleton] at h
                  cases hagain : scoreOne sc (Cache.of sc g') claimId with
                  | error e =>
                      rw [hagain] at h
                      cases (Prod.mk.inj h).2
                  | ok second =>
                      rw [hagain] at h
                      rcases Prod.mk.inj h with ⟨rfl, hresult⟩
                      rcases Results.pure_eq_ok.1 hresult with rfl
                      refine ⟨Or.inr rfl, ?_⟩
                      rw [hagain]
                      cases second <;> rfl

end

/-! ## Scores and their graphs -/

/-- The score is the one of its claim in the graph of the database. -/
def ScoredFrom (svc : Services) (db : Db) (score : ClaimScore Double) : Prop :=
  ∃ rows : List LinkRow, rows.Perm (fetchLinks db none) ∧
    scoreOne svc.sc (Cache.of svc.sc (svc.graph db rows)) score.claimId = .ok (some score)

/-- The score was published. -/
def PublishedAs (payload : List Char) (score : ClaimScore Double) : Prop :=
  ∃ scoredAt, payload = serialize (score.modelDump Double.repr scoredAt)

/-- Where a score moves a claim. -/
def statusAfterScore (status : ClaimStatus) (hint : DecisionHint) : ClaimStatus :=
  match status, hint with
  | .submitted, .flag => .flagged
  | .submitted, _ => .underReview
  | status, _ => status

/-- The row holds the score: its four decimals, its ring, its model version and the
explanation that was dumped, and it moves a submitted claim as the hint says. -/
structure ClaimAuditEvent.Records (env : Env) (row : ClaimAuditEvent) (score : ClaimScore Double) :
    Prop where
  claimId : row.claimId = score.claimId
  actor : row.actorId = scoringActorId ∧ row.actorRole = .system
  fraudScore : ∃ k : ℕ, k ≤ 10 ^ 4 ∧ score.fraudScore.value = Binary64.nearest (k / 10 ^ 4) ∧
    row.fraudScore = some ⟨k, 4⟩
  ringId : row.ringId = score.ringId
  modelVersion : row.modelVersion = some score.modelVersion
  explanation : ∃ stored, row.explanationJson = some stored ∧ JsonbReturns (CanonicalJson.toText
    (CanonicalJson.parse (score.explanation.modelDump Double.repr))) stored
  moved : ∃ status, row.fromStatus = some status ∧
    row.toStatus = some (statusAfterScore status score.decisionHint)

theorem scoreOne_claimId {sc : Scoring Double} {g : Graph Double} {claimId : UUID}
    {score : ClaimScore Double} (h : scoreOne sc (Cache.of sc g) claimId = .ok (some score)) :
    score.claimId = claimId := (exists_decimals_of_scoreOne (Cache.fromOne_of sc g) h).1

/-- What a hint decides. -/
theorem decideScore_statuses (claim : Claim) (fraudScore : Option BigDecimal) (hint : DecisionHint)
    (ringId : Option String) (explanationJson : Option RawJson) (modelVersion : Option String) :
    (decideScore claim fraudScore (some hint.name) ringId explanationJson modelVersion).entry.toStatus
      = some (statusAfterScore claim.status hint) := by
  simp only [decideScore]
  generalize claim.status = status
  cases status <;> cases hint <;> decide

/-- The row of a published score holds it. -/
theorem records_of_scored {env : Env}
    (hjsonb : ∀ text stored, env.jsonb text = some stored → JsonbReturns text stored)
    {sc : Scoring Double} {g : Graph Double} {score : ClaimScore Double} {payload : List Char}
    (hscore : scoreOne sc (Cache.of sc g) score.claimId = .ok (some score))
    (hpayload : PublishedAs payload score) {t : JsonText}
    {record : ScoringResultConsumer.ScoredRecord}
    (hread : JsonText.readFirst payload = some t)
    (hfields : ScoringResultConsumer.fieldsOf (CanonicalJson.parse t) = .ok record)
    {claim : Claim} {decision : Decision} {previous : Option ClaimAuditEvent} {now : Instant}
    {event row : ClaimAuditEvent} (hdecide : decideOp record.op claim = .ok decision)
    (hevent : AuditService.nextEvent env record.claimId previous decision.entry now = .ok event)
    (hrow : Db.storeAuditEvent env event = .ok row) : row.Records env score := by
  rcases hpayload with ⟨scoredAt, rfl⟩
  rw [readFirst_serialize, Option.some.injEq] at hread
  subst hread
  -- the number crosses as four decimals, the other fields as they are
  rcases exists_decimals_of_scoreOne (Cache.fromOne_of sc g) hscore with ⟨-, k, hk, hvalue⟩
  rcases ScoringResultConsumer.decimalValue_repr hk hvalue with ⟨d, hd, hnumeric⟩
  rw [ScoringResultConsumer.fieldsOf_modelDump Double.repr scoredAt score hd,
    Except.ok.injEq] at hfields
  subst hfields
  rcases Results.pure_eq_ok.1 hdecide with rfl
  rcases AuditService.nextEvent_ok hevent with ⟨json, hjson, rfl⟩
  rcases Results.pure_eq_ok.1 hjson with rfl
  obtain ⟨hstored, hexplanation, hsame⟩ := Db.storeAuditEvent_ok hrow
  refine ⟨?_, ?_, ⟨k, hk, hvalue, ?_⟩, ?_, ?_, ?_, claim.status, ?_, ?_⟩
  · rw [hsame]
    rfl
  · rw [hsame]
    exact ⟨rfl, rfl⟩
  · simp only [AuditService.sealEvent, AuditService.draftEvent, decideScore, Db.storeOption,
      hnumeric, Option.map_some, Option.some.injEq] at hstored
    exact hstored.symm
  · rw [hsame]
    rfl
  · rw [hsame]
    rfl
  · simp only [AuditService.sealEvent, AuditService.draftEvent, Db.storeOption,
      Option.map_eq_some_iff] at hexplanation
    rcases hexplanation with ⟨stored, hreturned, heq⟩
    exact ⟨stored, heq.symm, hjsonb _ _ hreturned⟩
  · rw [hsame]
    rfl
  · rw [hsame]
    exact decideScore_statuses claim (some d) score.decisionHint score.ringId none none

/-! ## The invariant -/

/-- What holds in every state: resolved claims have all their links, and the publishers
carry submitted claims only. -/
structure System.Inv (svc : Services) (s : System) : Prop where
  resolved : s.db.Resolved svc.env
  carries : s.deployment.Carries (s.db.Submits svc.env)

theorem System.Inv.step {svc : Services} {s s' : System} {event : SystemEvent}
    (hinv : s.Inv svc) (h : System.step svc s event = some s') : s'.Inv svc := by
  have hdb := System.dbStep h
  have hr := hinv.resolved
  have houtbox := hdb.submits hr hinv.carries.outbox
  have hcarries : s.deployment.Carries (s'.db.Submits svc.env) :=
    hinv.carries.imp fun record hs => hs.mono hr (hdb.within hr)
  refine ⟨hdb.resolved hr, ?_⟩
  -- only the publishers touch the records
  have hsame : s'.deployment.topic = s.deployment.topic →
      s'.deployment.onTheWay = s.deployment.onTheWay →
      s'.deployment.ticks = s.deployment.ticks →
      s'.deployment.Carries (s'.db.Submits svc.env) := by
    intro htopic honTheWay hticks
    exact ⟨houtbox, by rw [htopic]; exact hcarries.topic, by rw [honTheWay]; exact hcarries.onTheWay,
      by rw [hticks]; exact hcarries.rest⟩
  cases event with
  | publishing event =>
      simp only [System.step] at h
      split at h
      · rcases Option.map_eq_some_iff.1 h with ⟨d, hd, rfl⟩
        exact hcarries.step hd houtbox
      · cases h
  | backlog call =>
      simp only [System.step] at h
      split at h
      · rcases Option.map_eq_some_iff.1 h with ⟨i, -, rfl⟩
        exact hsame rfl rfl rfl
      · cases h
  | onClaim claimId op now =>
      simp only [System.step] at h
      split at h <;> cases h
      exact hsame rfl rfl rfl
  | startConsumer consumer rows completes =>
      simp only [System.step] at h
      split at h
      · split at h <;> cases h <;> exact hsame rfl rfl rfl
      · cases h
  | consume consumer n rows completes scoredAt accepted =>
      simp only [System.step] at h
      split at h
      · split at h
        · rcases Option.some.inj h with rfl
          have hd := s.deployment_onMessage svc consumer
          exact hsame (by rw [hd]) (by rw [hd]) (by rw [hd])
        · cases h
      · cases h
  | stopConsumer consumer =>
      cases h
      exact hsame rfl rfl rfl
  | deliver n now =>
      simp only [System.step] at h
      split at h
      · split at h <;> cases h <;> exact hsame rfl rfl rfl
      · cases h

theorem System.inv_of_init {svc : Services} {s : System} (h : (pipeline svc).init s) :
    s.Inv svc := by
  obtain ⟨hdb, htopic, honTheWay, hticks, -, -, -⟩ := h
  have hempty : Db.empty.Resolved svc.env :=
    resolved_of_reachable (s := ⟨Db.empty, fun _ => none⟩)
      (Lts.Reachable.of_init ⟨rfl, rfl, rfl, fun _ => rfl⟩)
  refine ⟨by rw [System.db, hdb]; exact hempty, ?_, ?_, ?_, ?_⟩
  · rw [hdb]
    rintro row ⟨⟩
  · simp [htopic]
  · simp [honTheWay]
  · intro publisher tick htick
    rw [hticks] at htick
    cases htick

theorem System.inv_of_run {svc : Services} {s₀ s : System} {ls : List SystemEvent}
    (hinv : s₀.Inv svc) (hrun : (pipeline svc).run s₀ ls = some s) : s.Inv svc :=
  Lts.run_invariant (I := fun s => s.Inv svc) (fun _ _ _ h hstep => h.step hstep) hinv hrun

/-- Nothing is taken back along a run. -/
theorem System.within_of_run {svc : Services} {s₀ s : System} {ls : List SystemEvent}
    (hinv : s₀.Inv svc) (hrun : (pipeline svc).run s₀ ls = some s) : s₀.db.Within s.db := by
  refine (Lts.run_invariant (I := fun s => s.Inv svc ∧ s₀.db.Within s.db) ?_
    ⟨hinv, Db.Within.refl _⟩ hrun).2
  rintro s event s' ⟨hs, hwithin⟩ hstep
  exact ⟨hs.step hstep, hwithin.trans ((System.dbStep hstep).within hs.resolved)⟩

/-! ## The history of a run -/

/-- The column gives an object of one member back as it was. -/
theorem claimIdOf_of_jsonbReturns {claimId : UUID} {stored : JsonText}
    (h : JsonbReturns (OutboxService.claimSubmittedPayload claimId) stored) :
    claimIdOf stored = some claimId := by
  have hnormal : sortMembers (jsonbNormal (OutboxService.claimSubmittedPayload claimId)) =
      .obj [("claim_id", .str claimId.toString)] := by
    simp only [OutboxService.claimSubmittedPayload, jsonbNormal, jsonbNormalFields_eq,
      List.map_cons, List.map_nil]
    rw [CanonicalJson.linkedMap_of_nodup (by simp)]
    rfl
  unfold JsonbReturns at h
  rw [hnormal] at h
  cases stored with
  | obj fields =>
      rw [sortMembers, sortMembersFields_eq, JsonText.obj.injEq] at h
      have hperm := Utf16.sortByKey_perm (fields.map fun e => (e.1, sortMembers e.2))
      rw [h, List.singleton_perm] at hperm
      rcases List.map_eq_singleton_iff.1 hperm.symm with ⟨⟨key, value⟩, rfl, heq⟩
      rcases Prod.mk.inj heq with ⟨rfl, hvalue⟩
      cases value with
      | str text =>
          rw [sortMembers, JsonText.str.injEq] at hvalue
          · subst hvalue
            exact UUID.parse?_toString claimId
          all_goals simp
      | _ => simp [sortMembers] at hvalue
  | _ => simp [sortMembers] at h

/-- Only a score is recorded as one. -/
theorem eventType_ne_of_isScore {op : Op} {claim : Claim} {decision : Decision}
    (hop : op.isScore = false) (h : decideOp op claim = .ok decision) :
    decision.entry.eventType ≠ .fraudScored := by
  cases op with
  | transition toStatus reason actorId actorRole =>
      simp only [decideOp, decideTransition, Results.guard_eq_ok, Results.pure_eq_ok] at h
      rcases h with ⟨-, -, -, rfl⟩
      dsimp only
      split <;> simp
  | score fraudScore decisionHint ringId explanationJson modelVersion => cases hop
  | narrative narrative grounded modelVersion actorId actorRole =>
      rcases Results.pure_eq_ok.1 h with rfl
      simp [decideNarrative]

/-- Where what is cached, published and recorded came from: a state that was `seen`. -/
structure System.History (svc : Services) (seen : System → Prop) (s : System) : Prop where
  consumers : ∀ consumer cache, s.consumers consumer = some cache → ∃ t rows, seen t ∧
    List.Perm rows (fetchLinks t.db none) ∧ cache = Cache.of svc.sc (svc.graph t.db rows)
  scored : ∀ payload ∈ s.scored, ∃ t score, seen t ∧ ScoredFrom svc t.db score ∧
    PublishedAs payload score ∧ s.db.IsSubmitted score.claimId
  rows : ∀ row ∈ s.db.auditEvents, row.eventType = .fraudScored → ∃ t score, seen t ∧
    ScoredFrom svc t.db score ∧ row.Records svc.env score ∧ s.db.IsSubmitted score.claimId

theorem System.History.imp {svc : Services} {seen seen' : System → Prop} {s : System}
    (h : s.History svc seen) (hseen : ∀ t, seen t → seen' t) : s.History svc seen' := by
  refine ⟨?_, ?_, ?_⟩
  · intro consumer cache hcache
    rcases h.consumers consumer cache hcache with ⟨t, rows, ht, hrest⟩
    exact ⟨t, rows, hseen t ht, hrest⟩
  · intro payload hpayload
    rcases h.scored payload hpayload with ⟨t, score, ht, hrest⟩
    exact ⟨t, score, hseen t ht, hrest⟩
  · intro row hrow htype
    rcases h.rows row hrow htype with ⟨t, score, ht, hrest⟩
    exact ⟨t, score, hseen t ht, hrest⟩

section

variable {svc : Services} {seen : System → Prop} {s : System}

/-- The trails after a step come from what was seen. -/
theorem System.History.rows_step
    (hjsonb : ∀ text stored, svc.env.jsonb text = some stored → JsonbReturns text stored)
    (hh : s.History svc seen) {event : SystemEvent} {db' : Db} (hr : s.db.Resolved svc.env)
    (hdb : DbStep svc.env (s.Asks event) s.db db') :
    ∀ row ∈ db'.auditEvents, row.eventType = .fraudScored → ∃ t score, seen t ∧
      ScoredFrom svc t.db score ∧ row.Records svc.env score ∧ db'.IsSubmitted score.claimId := by
  have hwithin := hdb.within hr
  intro row hrow htype
  rcases hdb.mem_events hrow with hold | hcreated |
    ⟨claimId, op, claim, decision, audit, previous, now, hasks, -, hdecide, haudit, hstored⟩
  · rcases hh.rows row hold htype with ⟨t, score, ht, hfrom, hrecords, hsubmitted⟩
    exact ⟨t, score, ht, hfrom, hrecords, hsubmitted.mono hr hwithin⟩
  · rw [htype] at hcreated
    cases hcreated
  · rcases hasks with ⟨hop, -⟩ |
      ⟨n, -, payload, -, hpayload, text, record, hread, hfields, rfl, rfl⟩
    · -- people write no score
      rw [(nextRow_of_stored haudit hstored).eventType_eq] at htype
      exact absurd htype (eventType_ne_of_isScore hop hdecide)
    · rcases hh.scored payload (List.mem_of_getElem? hpayload) with ⟨t, score, ht, hfrom, hpublished, hsubmitted⟩
      rcases hfrom with ⟨rows, hperm, hscore⟩
      exact ⟨t, score, ht, ⟨rows, hperm, hscore⟩,
        records_of_scored hjsonb hscore hpublished hread hfields hdecide haudit hstored,
        hsubmitted.mono hr hwithin⟩

/-- What is published stays published, of claims that stay submitted. -/
theorem System.History.scored_mono (hh : s.History svc seen) {db' : Db}
    (hr : s.db.Resolved svc.env) (hwithin : s.db.Within db') :
    ∀ payload ∈ s.scored, ∃ t score, seen t ∧ ScoredFrom svc t.db score ∧
      PublishedAs payload score ∧ db'.IsSubmitted score.claimId := by
  intro payload hpayload
  rcases hh.scored payload hpayload with ⟨t, score, ht, hfrom, hpublished, hsubmitted⟩
  exact ⟨t, score, ht, hfrom, hpublished, hsubmitted.mono hr hwithin⟩

/-- A consumer in its next state. -/
theorem System.History.consumers_update (hh : s.History svc seen) (consumer : ℕ)
    {next : Option (Cache Double)} (hnext : ∀ cache, next = some cache → ∃ t rows, seen t ∧
      List.Perm rows (fetchLinks t.db none) ∧ cache = Cache.of svc.sc (svc.graph t.db rows)) :
    ∀ other cache, Function.update s.consumers consumer next other = some cache →
      ∃ t rows, seen t ∧ List.Perm rows (fetchLinks t.db none) ∧
        cache = Cache.of svc.sc (svc.graph t.db rows) := by
  intro other cache hcache
  by_cases hother : other = consumer
  · rw [hother, Function.update_self] at hcache
    exact hnext cache hcache
  · rw [Function.update_of_ne hother] at hcache
    exact hh.consumers other cache hcache

/-- A message about a submitted claim: the score comes from the cache, which was seen, or
from the database as it is. -/
theorem System.History.onMessage (hh : s.History svc seen) (hs : seen s)
    {consumer : ℕ} {cache : Cache Double} (hcache : s.consumers consumer = some cache)
    {value : JsonText} {claimId : UUID} (hvalue : claimIdOf value = some claimId)
    (hsubmitted : s.db.IsSubmitted claimId) {rows : List LinkRow}
    (hrows : rows.Perm (fetchLinks s.db none)) (completes : Bool) (scoredAt : String)
    (accepted : Bool) :
    (s.onMessage svc consumer cache value ⟨some (svc.graph s.db rows), completes⟩ scoredAt
      accepted).History svc seen := by
  rcases hh.consumers consumer cache hcache with ⟨t, old, ht, hperm, rfl⟩
  unfold System.onMessage
  simp only [hvalue]
  generalize hresult : scoreWithRefreshFallback svc.sc (Cache.of svc.sc (svc.graph t.db old))
    ⟨some (svc.graph s.db rows), completes⟩ ⟨some (svc.graph s.db rows), completes⟩
    ⟨some (svc.graph s.db rows), completes⟩ claimId = result
  rcases result with ⟨next, outcome⟩
  cases outcome with
  | error e =>
      exact ⟨hh.consumers_update _ (by rintro cache ⟨⟩), hh.scored, hh.rows⟩
  | ok found =>
      obtain ⟨hnext, hscore⟩ := scoreWithRefreshFallback_ok rfl hresult
      -- the cache was seen before or is that of the database as it is
      have hfrom : ∃ t rows, seen t ∧ List.Perm rows (fetchLinks t.db none) ∧
          next = Cache.of svc.sc (svc.graph t.db rows) := by
        rcases hnext with ⟨heq, -⟩ | heq
        · exact ⟨t, old, ht, hperm, heq⟩
        · exact ⟨s, rows, hs, hrows, heq⟩
      have hcache : ∀ cache, some next = some cache → ∃ t rows, seen t ∧
          List.Perm rows (fetchLinks t.db none) ∧ cache = Cache.of svc.sc (svc.graph t.db rows) := by
        rintro cache ⟨⟩
        exact hfrom
      have hconsumers := hh.consumers_update consumer hcache
      cases found with
      | none => exact ⟨hconsumers, hh.scored, hh.rows⟩
      | some score =>
          dsimp only
          split
          · refine ⟨hconsumers, ?_, hh.rows⟩
            intro payload hpayload
            rcases List.mem_append.1 hpayload with hold | hnew
            · exact hh.scored payload hold
            · rw [List.mem_singleton.1 hnew]
              rcases hfrom with ⟨t', rows', ht', hperm', rfl⟩
              have hid := scoreOne_claimId hscore
              rw [← hid] at hscore hsubmitted
              exact ⟨t', score, ht', ⟨rows', hperm', hscore⟩, ⟨scoredAt, rfl⟩, hsubmitted⟩
          · exact ⟨hconsumers, hh.scored, hh.rows⟩

/-- Every step keeps where things come from. -/
theorem System.History.step
    (hjsonb : ∀ text stored, svc.env.jsonb text = some stored → JsonbReturns text stored)
    (hh : s.History svc seen) (hs : seen s) (hinv : s.Inv svc) {s' : System} {event : SystemEvent}
    (h : System.step svc s event = some s') : s'.History svc seen := by
  have hr := hinv.resolved
  have hdb := System.dbStep h
  have hrows := hh.rows_step hjsonb hr hdb
  have hscored := hh.scored_mono hr (hdb.within hr)
  cases event with
  | publishing event =>
      simp only [System.step] at h
      split at h
      · rcases Option.map_eq_some_iff.1 h with ⟨d, -, rfl⟩
        exact ⟨hh.consumers, hscored, hrows⟩
      · cases h
  | backlog call =>
      simp only [System.step] at h
      split at h
      · rcases Option.map_eq_some_iff.1 h with ⟨i, -, rfl⟩
        exact ⟨hh.consumers, hscored, hrows⟩
      · cases h
  | onClaim claimId op now =>
      simp only [System.step] at h
      split at h <;> cases h
      exact ⟨hh.consumers, hscored, hrows⟩
  | startConsumer consumer rows completes =>
      simp only [System.step] at h
      split at h
      · rename_i hperm
        split at h <;> cases h
        · exact ⟨hh.consumers_update _ (by rintro cache ⟨⟩), hscored, hrows⟩
        · rename_i cache n hrefresh
          refine ⟨hh.consumers_update _ ?_, hscored, hrows⟩
          rintro _ ⟨⟩
          refine ⟨s, rows, hs, List.isPerm_iff.1 hperm, ?_⟩
          have heq := refresh_eq_of (n := n) (g := svc.graph s.db rows) rfl (by rw [hrefresh])
          rwa [hrefresh] at heq
      · cases h
  | consume consumer n rows completes scoredAt accepted =>
      simp only [System.step] at h
      split at h
      · rename_i cache record hcache hrecord
        split at h <;> cases h
        rename_i hguard
        rw [Bool.and_eq_true] at hguard
        -- the record announces a submitted claim
        rcases hinv.carries.topic record (List.mem_of_getElem? hrecord) with
          ⟨claimId, hsubmitted, -, -, hpayload⟩
        exact hh.onMessage hs hcache (claimIdOf_of_jsonbReturns (hjsonb _ _ hpayload)) hsubmitted
          (List.isPerm_iff.1 hguard.2) completes scoredAt accepted
      · cases h
  | stopConsumer consumer =>
      cases h
      exact ⟨hh.consumers_update _ (by rintro cache ⟨⟩), hscored, hrows⟩
  | deliver n now =>
      simp only [System.step] at h
      split at h
      · split at h <;> cases h <;> exact ⟨hh.consumers, hscored, hrows⟩
      · cases h

end

theorem System.history_of_run {svc : Services}
    (hjsonb : ∀ text stored, svc.env.jsonb text = some stored → JsonbReturns text stored)
    {s₀ s : System} {ls : List SystemEvent} (hinit : (pipeline svc).init s₀)
    (hrun : (pipeline svc).run s₀ ls = some s) :
    s.History svc fun t => (pipeline svc).Passes s₀ ls t := by
  refine Lts.run_history
    (I := fun ls s => s.History svc fun t => (pipeline svc).Passes s₀ ls t) ?_ ?_ hrun
  · obtain ⟨hdb, -, -, -, -, hconsumers, hscored⟩ := hinit
    refine ⟨?_, ?_, ?_⟩
    · intro consumer cache hcache
      rw [hconsumers] at hcache
      cases hcache
    · simp [hscored]
    · rw [System.db, hdb]
      rintro row ⟨⟩
  · intro ls s event s' hs hh hstep
    have hinv := System.inv_of_run (System.inv_of_init hinit) hs
    exact (hh.step hjsonb (Lts.Passes.last hs) hinv hstep).imp fun t ht => ht.extend event

/-- Every score in a trail has its origin in the run, whatever was delayed, repeated, lost or
restarted before: its claim was created by a call of the API, and the run has passed a
database in whose graph the claim has this score. The row keeps the four decimals of the
score, its ring, its model version and its explanation, and it moved the claim as the hint
says and only out of the submitted status. A claim that was bulk loaded has no score. -/
theorem score_provenance (svc : Services)
    (hjsonb : ∀ text stored, svc.env.jsonb text = some stored → JsonbReturns text stored)
    (s₀ s : System) (events : List SystemEvent) (hinit : (pipeline svc).init s₀)
    (hrun : (pipeline svc).run s₀ events = some s) (row : ClaimAuditEvent)
    (hrow : row ∈ s.db.auditEvents) (htype : row.eventType = .fraudScored) :
    (∃ first ∈ s.db.auditEvents, first.claimId = row.claimId ∧ first.eventType = .claimCreated) ∧
      ∃ t rows score, (pipeline svc).Passes s₀ events t ∧
        List.Perm rows (fetchLinks t.db none) ∧
        scoreOne svc.sc (Cache.of svc.sc (svc.graph t.db rows)) row.claimId = .ok (some score) ∧
        row.Records svc.env score := by
  rcases (System.history_of_run hjsonb hinit hrun).rows row hrow htype with
    ⟨t, score, ht, ⟨rows, hperm, hscore⟩, hrecords, hsubmitted⟩
  rw [← hrecords.claimId] at hscore hsubmitted
  exact ⟨hsubmitted.created, t, rows, score, ht, hperm, hscore, hrecords⟩

namespace Sample

/-- A `jsonb` column that keeps the order of the members. -/
def storing : Env := { env with jsonb := fun text => some (jsonbNormal text) }

theorem jsonb_storing (text stored : JsonText) (h : storing.jsonb text = some stored) :
    JsonbReturns text stored := by
  rw [← Option.some.inj h]
  rfl

def services : Services := ⟨storing, ruleBased, log, fun amount => Floats.ofRat amount.value⟩

/-- Empty tables and no process. -/
def stopped : System := ⟨unpublished, fun _ => none, fun _ => none, []⟩

/-- A claim on its way from its creation to its score. -/
def scoringRun : List SystemEvent :=
  [.publishing (.createClaim request draws true), .publishing (.readPending 0),
    .publishing (.send 0 .acknowledged), .startConsumer 0 (fetchLinks created none) true,
    .consume 0 0 (fetchLinks created none) true "2026-01-02T03:04:06Z" true, .deliver 0 now]

theorem stopped_init : (pipeline services).init stopped :=
  ⟨rfl, rfl, rfl, fun _ => rfl, fun _ => rfl, fun _ => rfl, rfl⟩

/-- The run ends with a score in the trail. -/
theorem exists_scored : ∃ s, (pipeline services).run stopped scoringRun = some s ∧
    ∃ row ∈ s.db.auditEvents, row.eventType = .fraudScored := by
  have h : (((pipeline services).run stopped scoringRun).any fun s =>
      s.db.auditEvents.any fun row => decide (row.eventType = .fraudScored)) = true := by
    decide +kernel
  rcases (Option.any_eq_true _ _).1 h with ⟨s, hrun, hany⟩
  rcases List.any_eq_true.1 hany with ⟨row, hrow, htype⟩
  exact ⟨s, hrun, row, hrow, of_decide_eq_true htype⟩

end Sample

/-- The score of the sample run. -/
theorem score_provenance_scoringRun : ∃ s row,
    (pipeline Sample.services).run Sample.stopped Sample.scoringRun = some s ∧
      row ∈ s.db.auditEvents ∧ row.eventType = .fraudScored ∧
      (∃ first ∈ s.db.auditEvents, first.claimId = row.claimId ∧
        first.eventType = .claimCreated) ∧
      ∃ t rows score, (pipeline Sample.services).Passes Sample.stopped Sample.scoringRun t ∧
        List.Perm rows (fetchLinks t.db none) ∧
        scoreOne Sample.services.sc
          (Cache.of Sample.services.sc (Sample.services.graph t.db rows)) row.claimId =
            .ok (some score) ∧
        row.Records Sample.services.env score := by
  rcases Sample.exists_scored with ⟨s, hrun, row, hrow, htype⟩
  exact ⟨s, row, hrun, hrow, htype, score_provenance Sample.services Sample.jsonb_storing
    Sample.stopped s Sample.scoringRun Sample.stopped_init hrun row hrow htype⟩

end ClaimGuard
