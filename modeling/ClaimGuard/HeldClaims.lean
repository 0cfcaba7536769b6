import ClaimGuard.ConsumerGroups
import ClaimGuard.Recovery

/-!
# What the pipeline holds of a claim

A submitted claim is on its way to its score as long as something of it can still move: its
row in the outbox, its record where a scoring consumer can read it, or its score where a
listener can. A step can lose that, when the future of a send fails unseen or the listener's
container gives a record up and the offsets go past it. What was lost does not come back:
no step makes it again, so the claim stays without a score whatever happens next. Where no
step loses anything, every submitted claim is held or has its score.
-/

namespace ClaimGuard

open ClaimService

/-! ## Payloads -/

/-- The listener takes the payload for a score of the claim. -/
def ScoringResultConsumer.Names (payload : List Char) (claimId : UUID) : Prop :=
  ∃ op, Asks payload claimId op

/-- A published score names its claim. -/
theorem names_serialize_iff {sc : Scoring Double} {g : Graph Double} {score : ClaimScore Double}
    (hscore : scoreOne sc (Cache.of sc g) score.claimId = .ok (some score)) (scoredAt : String)
    (claimId : UUID) :
    ScoringResultConsumer.Names (serialize (score.modelDump Double.repr scoredAt)) claimId ↔
      claimId = score.claimId := by
  rcases exists_decimals_of_scoreOne (Cache.fromOne_of sc g) hscore with ⟨-, k, hk, hvalue⟩
  rcases ScoringResultConsumer.decimalValue_repr hk hvalue with ⟨d, hd, -⟩
  have hfields := ScoringResultConsumer.fieldsOf_modelDump Double.repr scoredAt score hd
  constructor
  · rintro ⟨op, t, record, hread, hrecord, rfl, -⟩
    rw [readFirst_serialize, Option.some.injEq] at hread
    subst hread
    rw [hfields, Except.ok.injEq] at hrecord
    rw [← hrecord]
  · rintro rfl
    exact ⟨_, _, _, readFirst_serialize _, hfields, rfl, rfl⟩

/-! ## Steps of the readers -/

section

variable {svc : Services} {s s' : System}

/-- Away from the publishers a step leaves the records alone. -/
theorem System.deployment_step {event : SystemEvent} (hother : ∀ e, event ≠ .publishing e)
    (h : System.step svc s event = some s') :
    s'.deployment = { s.deployment with db := s'.db } := by
  cases event with
  | publishing e => exact absurd rfl (hother e)
  | backlog call =>
      simp only [System.step] at h
      split at h
      · rcases Option.map_eq_some_iff.1 h with ⟨i, -, rfl⟩
        rfl
      · cases h
  | onClaim claimId op now =>
      simp only [System.step] at h
      split at h <;> cases h
      rfl
  | startConsumer consumer rows completes =>
      simp only [System.step] at h
      split at h
      · split at h <;> cases h <;> rfl
      · cases h
  | consume consumer n rows completes scoredAt accepted =>
      simp only [System.step] at h
      split at h
      · split at h <;> cases h
        rw [System.db_onMessage, System.deployment_onMessage]
      · cases h
  | stopConsumer consumer =>
      cases h
      rfl
  | deliver n now =>
      simp only [System.step] at h
      split at h
      · split at h <;> cases h <;> rfl
      · cases h

/-- Where no topic is read, consumers and scores stay. -/
theorem System.readers_step {event : SystemEvent} (hother : event.isReading = false)
    (h : System.step svc s event = some s') :
    s'.consumers = s.consumers ∧ s'.scored = s.scored := by
  cases event with
  | publishing e =>
      simp only [System.step] at h
      split at h
      · rcases Option.map_eq_some_iff.1 h with ⟨d, -, rfl⟩
        exact ⟨rfl, rfl⟩
      · cases h
  | backlog call =>
      simp only [System.step] at h
      split at h
      · rcases Option.map_eq_some_iff.1 h with ⟨i, -, rfl⟩
        exact ⟨rfl, rfl⟩
      · cases h
  | onClaim claimId op now =>
      simp only [System.step] at h
      split at h <;> cases h
      exact ⟨rfl, rfl⟩
  | _ => cases hother

theorem System.step_startConsumer {consumer : ℕ} {rows : List LinkRow} {completes : Bool}
    (h : System.step svc s (.startConsumer consumer rows completes) = some s') :
    ∃ cache, s' = s.setConsumer consumer cache := by
  simp only [System.step] at h
  split at h
  · split at h <;> cases h <;> exact ⟨_, rfl⟩
  · cases h

/-- What a consumer does with a record: it ends, or publishes the score of the claim, unless
the record is lost. -/
theorem System.step_consume
    (hjsonb : ∀ text stored, svc.env.jsonb text = some stored → JsonbReturns text stored)
    (hsc : svc.sc.Works) (hs : (pipeline svc).Reachable s) {consumer n : ℕ} {rows : List LinkRow}
    {completes : Bool} {scoredAt : String} {accepted : Bool}
    (h : System.step svc s (.consume consumer n rows completes scoredAt accepted) = some s') :
    ∃ record claimId, s.deployment.topic[n]? = some record ∧ record.key = claimId.toString ∧
      s.db.IsSubmitted claimId ∧ (s' = s.setConsumer consumer none ∨
        ∃ (next : Cache Double) (payload : List Char),
          s' = { s.setConsumer consumer (some next) with
            scored := if accepted then s.scored ++ [payload] else s.scored } ∧
          ∀ id, ScoringResultConsumer.Names payload id ↔ id = claimId) := by
  rcases hs with ⟨s₀, events, hinit, hrun⟩
  have hinv := System.inv_of_run (System.inv_of_init hinit) hrun
  have hhistory := System.history_of_run hjsonb hinit hrun
  simp only [System.step] at h
  split at h
  · rename_i cache record hcache hrecord
    split at h <;> cases h
    rename_i hguard
    rw [Bool.and_eq_true, List.isPerm_iff] at hguard
    rcases hinv.carries.topic record (List.mem_of_getElem? hrecord) with
      ⟨claimId, hsubmitted, -, hkey, hpayload⟩
    refine ⟨record, claimId, hrecord, hkey, hsubmitted, ?_⟩
    rcases hhistory.consumers consumer cache hcache with ⟨t, old, -, -, rfl⟩
    unfold System.onMessage
    simp only [claimIdOf_of_jsonbReturns (hjsonb _ _ hpayload)]
    generalize hresult : scoreWithRefreshFallback svc.sc (Cache.of svc.sc (svc.graph t.db old))
      ⟨some (svc.graph s.db rows), completes⟩ ⟨some (svc.graph s.db rows), completes⟩
      ⟨some (svc.graph s.db rows), completes⟩ claimId = result
    rcases result with ⟨next, outcome⟩
    cases outcome with
    | error e => exact Or.inl rfl
    | ok found =>
        obtain ⟨hnext, hscore⟩ := scoreWithRefreshFallback_ok rfl hresult
        cases found with
        | none =>
            -- the graph that was refreshed for it has the claim
            rcases hnext with ⟨-, hsome⟩ | rfl
            · cases hsome
            · rcases exists_row_of_isLinked hinv.resolved hguard.2 hsubmitted.linked with
                ⟨r, hmem, rfl⟩
              rcases exists_scoreOne hinv.resolved hguard.2 hsc hmem with ⟨score, hone⟩
              rw [hone] at hscore
              cases hscore
        | some score =>
            have hfrom : ∃ g, next = Cache.of svc.sc g := by
              rcases hnext with ⟨rfl, -⟩ | rfl <;> exact ⟨_, rfl⟩
            rcases hfrom with ⟨g, rfl⟩
            have hid := scoreOne_claimId hscore
            rw [← hid] at hscore
            refine Or.inr ⟨Cache.of svc.sc g, serialize (score.modelDump Double.repr scoredAt), ?_,
              fun id => by rw [names_serialize_iff hscore scoredAt id, hid]⟩
            cases accepted <;> rfl
  · cases h

theorem System.step_deliver {n : ℕ} {now : Instant}
    (h : System.step svc s (.deliver n now) = some s') :
    ∃ payload db, s.scored[n]? = some payload ∧ s' = s.setDb db ∧
      (ScoringResultConsumer.onClaimScored svc.env s.db payload now = .ok db ∨
        (∀ db', ScoringResultConsumer.onClaimScored svc.env s.db payload now ≠ .ok db')) := by
  simp only [System.step] at h
  split at h
  · rename_i payload hpayload
    split at h <;> cases h
    · rename_i db hdelivered
      exact ⟨payload, db, hpayload, rfl, Or.inl hdelivered⟩
    · rename_i e hfailed
      refine ⟨payload, s.db, hpayload, rfl, Or.inr fun db' hdb' => ?_⟩
      rw [hfailed] at hdb'
      cases hdb'
  · cases h

/-- A consumer that runs and can refresh publishes a score for the record it takes. -/
theorem System.exists_consume_step
    (hjsonb : ∀ text stored, svc.env.jsonb text = some stored → JsonbReturns text stored)
    (hsc : svc.sc.Works) (hs : (pipeline svc).Reachable s) {consumer n : ℕ}
    (hruns : (s.consumers consumer).isSome) {record : OutboxRecord}
    (hrecord : s.deployment.topic[n]? = some record) (scoredAt : String) :
    ∃ (next : Cache Double) (payload : List Char) (claimId : UUID),
      System.step svc s (.consume consumer n (fetchLinks s.db none) true scoredAt true) =
        some { s.setConsumer consumer (some next) with scored := s.scored ++ [payload] } ∧
      record.key = claimId.toString ∧
      ∀ id, ScoringResultConsumer.Names payload id ↔ id = claimId := by
  rcases Option.isSome_iff_exists.1 hruns with ⟨cache, hcache⟩
  rcases System.exists_consumed_of_reachable hjsonb hsc hs hcache hrecord
    (List.Perm.refl (fetchLinks s.db none)) scoredAt with ⟨next, score, -, -, hstep⟩
  rcases System.step_consume hjsonb hsc hs hstep with
    ⟨record', claimId, hrecord', hkey, -, heq | ⟨next', payload, heq, hnames⟩⟩
  · -- it has not stopped
    have hconsumer := congrFun (congrArg System.consumers heq) consumer
    simp [System.setConsumer] at hconsumer
  · rw [hrecord, Option.some.injEq] at hrecord'
    refine ⟨next', payload, claimId, ?_, hrecord' ▸ hkey, hnames⟩
    exact hstep.trans (congrArg some (by simpa using heq))

/-- A listener that takes a published score leaves its claim with one. -/
theorem System.exists_deliver_step
    (hjsonb : ∀ text stored, svc.env.jsonb text = some stored → JsonbReturns text stored)
    (hstores : ∀ explanation : Explanation Double, explanation.IsPlain →
      (svc.env.jsonb explanation.stored).isSome)
    (hphone : ∀ raw value, svc.env.normalizePhone raw = some value →
      ∀ c ∈ value.toList, c = '+' ∨ c.isDigit = true)
    (hsc : svc.sc.Works) (hversion : Db.isText svc.sc.modelVersion = true)
    (hs : (pipeline svc).Reachable s) {n : ℕ} {payload : List Char}
    (hpayload : s.scored[n]? = some payload) (now : Instant) :
    ∃ db, System.step svc s (.deliver n now) = some (s.setDb db) ∧
      ∀ claimId, ScoringResultConsumer.Names payload claimId →
        db.HasScore claimId svc.sc.modelVersion := by
  rcases hs with ⟨s₀, events, hinit, hrun⟩
  have hinv := System.inv_of_run (System.inv_of_init hinit) hrun
  rcases (System.history_of_run hjsonb hinit hrun).scored payload (List.mem_of_getElem? hpayload)
    with ⟨t, score, ⟨before, ⟨after, rfl⟩, ht⟩, ⟨rows, hrows, hscore⟩, ⟨scoredAt, rfl⟩, hsubmitted⟩
  have hinv' := System.inv_of_run (System.inv_of_init hinit) ht
  rw [Lts.run_append, ht, Option.bind_some] at hrun
  have hwithin := System.within_of_run hinv' hrun
  rcases exists_delivered hstores hphone hsc.edges hversion hinv'.resolved hinv.resolved
    hwithin hrows hsubmitted.linked hscore scoredAt now with ⟨db, hdelivered, hhas⟩
  refine ⟨db, ?_, fun claimId hnames => ?_⟩
  · simp only [System.step, hpayload, hdelivered]
  · rw [names_serialize_iff hscore] at hnames
    rw [hnames]
    exact hhas

end

/-! ## What the publishers owe -/

/-- The publishers have still to bring a record of the claim to the topic. -/
inductive Deployment.Owes (s : Deployment) (claimId : UUID) : Prop where
  | queued (row : OutboxEvent) (hrow : row ∈ s.db.outbox) (howner : row.aggregateId = claimId)
      (hunsent : row.sentAt = none)
  | read (row : OutboxEvent) (hread : s.IsRead row) (howner : row.aggregateId = claimId)
  | onTheWay (record : OutboxRecord) (hrecord : record ∈ s.onTheWay)
      (hkey : record.key = claimId.toString)

theorem Deployment.MayArrive.owes {s : Deployment} {record : OutboxRecord} {claimId : UUID}
    (h : s.MayArrive record) (hkey : record.key = claimId.toString) : s.Owes claimId := by
  rcases h with hway | ⟨row, hread, rfl⟩
  · exact .onTheWay record hway hkey
  · exact .read row hread (UUID.toString_injective hkey)

/-- What is owed of a claim that was there was owed before. -/
theorem Deployment.Moves.owes {s s' : Deployment} {claimId : UUID} (h : s.Moves s')
    (hexists : (s.db.findById claimId).isSome) (howes : s'.Owes claimId) : s.Owes claimId := by
  cases howes with
  | queued row hrow howner hunsent =>
      rcases h.queued row hrow hunsent with hold | hnew
      · exact .queued row hold howner hunsent
      · rw [howner] at hnew
        rw [hnew] at hexists
        cases hexists
  | read row hread howner =>
      rcases h.read row hread with hold | ⟨hrow, hunsent⟩
      · exact .read row hold howner
      · exact .queued row hrow howner hunsent
  | onTheWay record hrecord hkey => exact (h.sent record hrecord).owes hkey

/-- How far a step of the system brings the rows. -/
theorem System.moves_step {svc : Services} {s s' : System} {event : SystemEvent}
    (h : System.step svc s event = some s') : s.deployment.Moves s'.deployment := by
  by_cases hpublishing : ∃ e, event = .publishing e
  · rcases hpublishing with ⟨e, rfl⟩
    simp only [System.step] at h
    split at h
    · rcases Option.map_eq_some_iff.1 h with ⟨d, hd, rfl⟩
      exact Deployment.moves_step hd
    · cases h
  · have hother : ∀ e, event ≠ .publishing e := fun e he => hpublishing ⟨e, he⟩
    have houtbox := (System.quiet_step hother h).1.outbox
    have hsame := System.deployment_step hother h
    refine ⟨fun row hrow _ => Or.inl (houtbox ▸ hrow), ?_, ?_, [], ?_, by simp⟩ <;> rw [hsame]
    · exact fun row hread => Or.inl hread
    · exact fun record hrecord => Or.inl hrecord
    · simp

/-- A score is stored when a record that names its claim is delivered, and never otherwise. -/
theorem System.hasScore_of_step {svc : Services} {s s' : System} {event : SystemEvent}
    {claimId : UUID} {modelVersion : String} (h : System.step svc s event = some s')
    (hscore : s'.db.HasScore claimId modelVersion) : s.db.HasScore claimId modelVersion ∨
      ∃ n now payload, event = .deliver n now ∧ s.scored[n]? = some payload ∧
        ScoringResultConsumer.Names payload claimId := by
  rcases hscore with ⟨row, hrow, rfl, htype, hversion⟩
  rcases (System.dbStep h).mem_events hrow with hold | hcreated |
    ⟨claimId, op, claim, decision, audit, previous, now, hasks, -, hdecide, haudit, hstored⟩
  · exact Or.inl ⟨row, hold, rfl, htype, hversion⟩
  · rw [htype] at hcreated
    cases hcreated
  · have hnext := nextRow_of_stored haudit hstored
    rcases hasks with ⟨hop, -⟩ | ⟨n, now, payload, rfl, hpayload, hasks⟩
    · rw [hnext.eventType_eq] at htype
      exact absurd htype (eventType_ne_of_isScore hop hdecide)
    · exact Or.inr ⟨n, now, payload, rfl, hpayload, op, hnext.claimId_eq ▸ hasks⟩

/-! ## What the pipeline holds -/

namespace Grouped

/-- Something of the claim can still move: its row or record on the way to the topic, a record
that a consumer can read, or its score where a listener can read it. -/
inductive Holds (g : Grouped) (claimId : UUID) : Prop where
  | owed (howes : g.system.deployment.Owes claimId)
  | submitted (n : ℕ) (record : OutboxRecord)
      (hrecord : g.system.deployment.topic[n]? = some record)
      (hkey : record.key = claimId.toString) (hread : g.scorers.CanRead n)
  | scored (n : ℕ) (payload : List Char) (hpayload : g.system.scored[n]? = some payload)
      (hnames : ScoringResultConsumer.Names payload claimId) (hread : g.listeners.CanRead n)

/-- The claim has its score, or can get it. -/
def IsLive (g : Grouped) (modelVersion : String) (claimId : UUID) : Prop :=
  g.db.HasScore claimId modelVersion ∨ g.Holds claimId

end Grouped

/-- A place of a list that grew: it was there, or is new. -/
theorem getElem?_append_cases {α : Type} {l new : List α} {n : ℕ} {a : α}
    (h : (l ++ new)[n]? = some a) : l[n]? = some a ∨ a ∈ new := by
  rcases lt_or_ge n l.length with hlt | hge
  · rw [List.getElem?_append_left hlt] at h
    exact Or.inl h
  · rw [List.getElem?_append_right hge] at h
    exact Or.inr (List.mem_of_getElem? h)

section

variable {svc : Services} {g g' : Grouped} {event : GroupedEvent}

/-- The groups only go on: what can be read after a step could be read before. -/
theorem GroupStep.canRead (h : GroupStep svc g g' event) (n : ℕ) :
    (g'.scorers.CanRead n → g.scorers.CanRead n) ∧
      (g'.listeners.CanRead n → g.listeners.CanRead n) := by
  cases h with
  | other e hother hstep hscorers hlisteners => rw [hscorers, hlisteners]; exact ⟨id, id⟩
  | startConsumer consumer rows completes hstep hscorers hlisteners =>
      rw [hscorers, hlisteners]
      exact ⟨.of_leave, id⟩
  | consume consumer n rows completes scoredAt accepted hnext hstep hscorers hlisteners =>
      rw [hscorers, hlisteners]
      refine ⟨fun hread => ?_, id⟩
      split at hread
      · exact hread.of_advance
      · exact hread.of_leave
  | stopConsumer consumer hstep hscorers hlisteners =>
      rw [hscorers, hlisteners]
      exact ⟨.of_leave, id⟩
  | scorers act hsystem hadmits hact hlisteners =>
      rw [hlisteners]
      exact ⟨.of_act hact, id⟩
  | deliver listener n now hnext hstep hscorers hlisteners =>
      rw [hscorers, hlisteners]
      exact ⟨id, .of_advance⟩
  | giveUp listener n hnext hlt hsystem hscorers hlisteners =>
      rw [hscorers, hlisteners]
      exact ⟨id, .of_advance⟩
  | listeners act hsystem hscorers hact =>
      rw [hscorers]
      exact ⟨id, .of_act hact⟩

/-- A new score is that of a record that a consumer could read. -/
theorem GroupStep.scored
    (hjsonb : ∀ text stored, svc.env.jsonb text = some stored → JsonbReturns text stored)
    (hsc : svc.sc.Works) (hg : (pipeline svc).Reachable g.system) (h : GroupStep svc g g' event) :
    ∃ new, g'.system.scored = g.system.scored ++ new ∧ ∀ payload ∈ new, ∀ claimId,
      ScoringResultConsumer.Names payload claimId → g.Holds claimId := by
  have hsame : g'.system.scored = g.system.scored → ∃ new, g'.system.scored =
      g.system.scored ++ new ∧ ∀ payload ∈ new, ∀ claimId,
        ScoringResultConsumer.Names payload claimId → g.Holds claimId := fun heq =>
    ⟨[], by rw [heq, List.append_nil], by simp⟩
  cases h with
  | other e hother hstep => exact hsame (System.readers_step hother hstep).2
  | startConsumer consumer rows completes hstep =>
      rcases System.step_startConsumer hstep with ⟨cache, heq⟩
      exact hsame (by rw [heq]; rfl)
  | consume consumer n rows completes scoredAt accepted hnext hstep =>
      rcases System.step_consume hjsonb hsc hg hstep with
        ⟨record, claimId, hrecord, hkey, -, heq | ⟨next, payload, heq, hnames⟩⟩
      · exact hsame (by rw [heq]; rfl)
      · cases accepted with
        | false => exact hsame (by rw [heq]; rfl)
        | true =>
            refine ⟨[payload], by rw [heq]; rfl, fun payload' hpayload claimId' hnamed => ?_⟩
            rw [List.mem_singleton.1 hpayload, hnames] at hnamed
            subst hnamed
            exact .submitted n record hrecord hkey (ConsumerGroup.canRead_of_next hnext)
  | stopConsumer consumer hstep => exact hsame (by rw [← Option.some.inj hstep]; rfl)
  | scorers act hsystem => exact hsame (by rw [hsystem])
  | deliver listener n now hnext hstep =>
      rcases System.step_deliver hstep with ⟨payload, db, -, heq, -⟩
      exact hsame (by rw [heq]; rfl)
  | giveUp listener n hnext hlt hsystem => exact hsame (by rw [hsystem])
  | listeners act hsystem => exact hsame (by rw [hsystem])

theorem Deployment.Moves.refl (s : Deployment) : s.Moves s :=
  ⟨fun row hrow _ => Or.inl hrow, fun row hread => Or.inl hread, fun record h => Or.inl h,
    [], by simp, by simp⟩

/-- How far a step brings the rows. -/
theorem GroupStep.moves (h : GroupStep svc g g' event) :
    g.system.deployment.Moves g'.system.deployment := by
  rcases h.exists_event with heq | ⟨e, he⟩
  · rw [heq]
    exact .refl _
  · exact System.moves_step he

/-- What the pipeline holds of a claim that was there, it held before. -/
theorem GroupStep.holds
    (hjsonb : ∀ text stored, svc.env.jsonb text = some stored → JsonbReturns text stored)
    (hsc : svc.sc.Works) (hg : (pipeline svc).Reachable g.system) (h : GroupStep svc g g' event)
    {claimId : UUID} (hexists : (g.db.findById claimId).isSome) (hholds : g'.Holds claimId) :
    g.Holds claimId := by
  have hmoves := h.moves
  cases hholds with
  | owed howes => exact .owed (hmoves.owes hexists howes)
  | submitted n record hrecord hkey hread =>
      rcases hmoves.arrived with ⟨new, htopic, hnew⟩
      rw [htopic] at hrecord
      rcases getElem?_append_cases hrecord with hold | hmem
      · exact .submitted n record hold hkey ((h.canRead n).1 hread)
      · exact .owed ((hnew record hmem).owes hkey)
  | scored n payload hpayload hnames hread =>
      rcases h.scored hjsonb hsc hg with ⟨new, hscored, hnew⟩
      rw [hscored] at hpayload
      rcases getElem?_append_cases hpayload with hold | hmem
      · exact .scored n payload hold hnames ((h.canRead n).2 hread)
      · exact hnew payload hmem claimId hnames

/-- A claim that can get its score after a step could before. -/
theorem GroupStep.isLive
    (hjsonb : ∀ text stored, svc.env.jsonb text = some stored → JsonbReturns text stored)
    (hsc : svc.sc.Works) (hg : (pipeline svc).Reachable g.system) (h : GroupStep svc g g' event)
    {claimId : UUID} {modelVersion : String} (hexists : (g.db.findById claimId).isSome)
    (hlive : g'.IsLive modelVersion claimId) : g.IsLive modelVersion claimId := by
  rcases hlive with hscore | hholds
  · -- a score is stored by a delivery
    have hdeliver : ∀ e, System.step svc g.system e = some g'.system →
        (∀ n now, e ≠ .deliver n now) → g.IsLive modelVersion claimId := by
      intro e he hne
      rcases System.hasScore_of_step he hscore with hold | ⟨n, now, payload, rfl, -, -⟩
      · exact Or.inl hold
      · exact absurd rfl (hne n now)
    have hsame : g'.system = g.system → g.IsLive modelVersion claimId := by
      intro heq
      rw [Grouped.db, heq] at hscore
      exact Or.inl hscore
    cases h with
    | other e hother hstep => exact hdeliver e hstep (by rintro n now rfl; cases hother)
    | startConsumer consumer rows completes hstep => exact hdeliver _ hstep (by rintro n now ⟨⟩)
    | consume consumer n rows completes scoredAt accepted hnext hstep =>
        exact hdeliver _ hstep (by rintro n now ⟨⟩)
    | stopConsumer consumer hstep => exact hdeliver _ hstep (by rintro n now ⟨⟩)
    | scorers act hsystem => exact hsame hsystem
    | deliver listener n now hnext hstep =>
        rcases System.hasScore_of_step hstep hscore with
          hold | ⟨n', now', payload, heq, hpayload, hnames⟩
        · exact Or.inl hold
        · cases heq
          exact Or.inr (.scored n payload hpayload hnames (ConsumerGroup.canRead_of_next hnext))
    | giveUp listener n hnext hlt hsystem => exact hsame hsystem
    | listeners act hsystem => exact hsame hsystem
  · exact Or.inr (h.holds hjsonb hsc hg hexists hholds)

/-- A submitted claim is among the claims. -/
theorem Db.IsSubmitted.isSome {env : Env} {db : Db} {claimId : UUID} (h : db.IsSubmitted claimId)
    (hr : db.Resolved env) : (db.findById claimId).isSome := by
  rcases h.linked with ⟨l, hl, rfl⟩
  rcases hr.sound l hl with ⟨claim, hclaim, r, -, hid, -⟩
  rw [hid]
  exact Table.find_isSome.2 ⟨claim, hclaim, rfl⟩

/-- A claim that has lost its score never gets one. -/
theorem Grouped.isLive_of_run
    (hjsonb : ∀ text stored, svc.env.jsonb text = some stored → JsonbReturns text stored)
    (hsc : svc.sc.Works) (hg : (grouped svc).Reachable g) {claimId : UUID} {modelVersion : String}
    (hsubmitted : g.db.IsSubmitted claimId) {later : List GroupedEvent}
    (hrun : (grouped svc).run g later = some g') (hlive : g'.IsLive modelVersion claimId) :
    g.IsLive modelVersion claimId := by
  induction later generalizing g with
  | nil =>
      cases hrun
      exact hlive
  | cons event later ih =>
      rcases (grouped svc).run_cons_eq_some.1 hrun with ⟨g₁, hstep, hrest⟩
      have hsystem := Grouped.reachable_system hg
      rcases hsystem with ⟨s₀, ls, hinit, hls⟩
      have hinv := System.inv_of_run (System.inv_of_init hinit) hls
      have hgroup := Grouped.groupStep hstep
      have hg₁ : (grouped svc).Reachable g₁ := by
        rcases hg with ⟨g₀, events, hinit, hevents⟩
        exact ⟨g₀, events ++ [event], hinit, Lts.run_concat.2 ⟨g, hevents, hstep⟩⟩
      have hsubmitted₁ : g₁.db.IsSubmitted claimId := by
        have hone : (grouped svc).run g [event] = some g₁ := by
          rw [Lts.run_cons, hstep]
          rfl
        rcases Grouped.exists_run hone with ⟨ms, hms⟩
        exact hsubmitted.mono hinv.resolved (System.within_of_run hinv hms)
      exact hgroup.isLive hjsonb hsc ⟨s₀, ls, hinit, hls⟩ (hsubmitted.isSome hinv.resolved)
        (ih hg₁ hsubmitted₁ hrest)

end

/-! ## Places in the topics -/

/-- The groups are within their topics, and a consumer with a place runs. -/
structure Grouped.Ordered (g : Grouped) : Prop where
  scorers : g.scorers.Within g.system.deployment.topic.length
  listeners : g.listeners.Within g.system.scored.length
  running : ∀ consumer place, g.scorers.members consumer = some place →
    (g.system.consumers consumer).isSome

section

variable {svc : Services} {g g' : Grouped} {event : GroupedEvent}

theorem GroupStep.ordered
    (hjsonb : ∀ text stored, svc.env.jsonb text = some stored → JsonbReturns text stored)
    (hsc : svc.sc.Works) (hg : (pipeline svc).Reachable g.system) (ho : g.Ordered)
    (h : GroupStep svc g g' event) : g'.Ordered := by
  have htopic : g.system.deployment.topic.length ≤ g'.system.deployment.topic.length := by
    rcases h.moves.arrived with ⟨new, htopic, -⟩
    rw [htopic, List.length_append]
    omega
  have hscored : g.system.scored.length ≤ g'.system.scored.length := by
    rcases h.scored hjsonb hsc hg with ⟨new, hscored, -⟩
    rw [hscored, List.length_append]
    omega
  have hleave : ∀ consumer, (g.scorers.leave consumer).Within g'.system.deployment.topic.length :=
    fun consumer p hmark => (ho.scorers p (ConsumerGroup.isMark_leave hmark)).trans htopic
  -- a consumer that leaves its group touches no other
  have hothers : ∀ {consumer : ℕ} {cache : Option (Cache Double)},
      g'.system.consumers = Function.update g.system.consumers consumer cache →
      ∀ other place, (g.scorers.leave consumer).members other = some place →
        (g'.system.consumers other).isSome := by
    intro consumer cache hconsumers other place hother
    rcases ConsumerGroup.members_leave hother with ⟨hne, hold⟩
    rw [hconsumers, Function.update_of_ne hne]
    exact ho.running other place hold
  cases h with
  | other e hother hstep hscorers hlisteners =>
      refine ⟨hscorers ▸ ho.scorers.mono htopic, hlisteners ▸ ho.listeners.mono hscored, ?_⟩
      rw [hscorers, (System.readers_step hother hstep).1]
      exact ho.running
  | startConsumer consumer rows completes hstep hscorers hlisteners =>
      rcases System.step_startConsumer hstep with ⟨cache, heq⟩
      refine ⟨hscorers ▸ hleave consumer, hlisteners ▸ ho.listeners.mono hscored, ?_⟩
      rw [hscorers]
      exact hothers (congrArg System.consumers heq)
  | consume consumer n rows completes scoredAt accepted hnext hstep hscorers hlisteners =>
      rcases System.step_consume hjsonb hsc hg hstep with ⟨record, claimId, hrecord, -, -, hafter⟩
      have hconsumers : ∃ cache,
          g'.system.consumers = Function.update g.system.consumers consumer cache := by
        rcases hafter with heq | ⟨next, payload, heq, -⟩
        · exact ⟨none, congrArg System.consumers heq⟩
        · exact ⟨some next, congrArg System.consumers heq⟩
      rcases hconsumers with ⟨cache, hconsumers⟩
      refine ⟨?_, hlisteners ▸ ho.listeners.mono hscored, ?_⟩
      · rw [hscorers]
        split
        · exact (ho.scorers.advance hnext (List.getElem?_eq_some_iff.1 hrecord).1).mono htopic
        · exact hleave consumer
      · rw [hscorers]
        split
        · rename_i hruns
          intro other place hother
          by_cases hne : other = consumer
          · rw [hne]
            exact hruns
          · rw [ConsumerGroup.members_advance_of_ne hne] at hother
            rw [hconsumers, Function.update_of_ne hne]
            exact ho.running other place hother
        · exact hothers hconsumers
  | stopConsumer consumer hstep hscorers hlisteners =>
      refine ⟨hscorers ▸ hleave consumer, hlisteners ▸ ho.listeners.mono hscored, ?_⟩
      rw [hscorers]
      exact hothers (congrArg System.consumers (Option.some.inj hstep).symm)
  | scorers act hsystem hadmits hact hlisteners =>
      refine ⟨fun p hmark => (ho.scorers p (ConsumerGroup.isMark_act hact hmark)).trans htopic,
        hlisteners ▸ ho.listeners.mono hscored, ?_⟩
      rw [hsystem]
      intro consumer place hplace
      by_cases hassign : act = .assign consumer
      · rw [hassign] at hadmits
        exact hadmits
      · rcases ConsumerGroup.members_act hact hassign hplace with ⟨old, hold, -⟩
        exact ho.running consumer old hold
  | deliver listener n now hnext hstep hscorers hlisteners =>
      rcases System.step_deliver hstep with ⟨payload, db, hpayload, heq, -⟩
      refine ⟨hscorers ▸ ho.scorers.mono htopic, ?_, ?_⟩
      · rw [hlisteners]
        exact (ho.listeners.advance hnext (List.getElem?_eq_some_iff.1 hpayload).1).mono hscored
      · rw [hscorers, heq]
        exact ho.running
  | giveUp listener n hnext hlt hsystem hscorers hlisteners =>
      refine ⟨hscorers ▸ ho.scorers.mono htopic, ?_, ?_⟩
      · rw [hlisteners]
        exact (ho.listeners.advance hnext hlt).mono hscored
      · rw [hscorers, hsystem]
        exact ho.running
  | listeners act hsystem hscorers hact =>
      refine ⟨hscorers ▸ ho.scorers.mono htopic, fun p hmark =>
        (ho.listeners p (ConsumerGroup.isMark_act hact hmark)).trans hscored, ?_⟩
      rw [hscorers, hsystem]
      exact ho.running

theorem Grouped.ordered_of_reachable
    (hjsonb : ∀ text stored, svc.env.jsonb text = some stored → JsonbReturns text stored)
    (hsc : svc.sc.Works) (hg : (grouped svc).Reachable g) : g.Ordered := by
  refine (Lts.Reachable.invariant
    (I := fun g => (pipeline svc).Reachable g.system ∧ g.Ordered) ?_ ?_ hg).2
  · rintro g ⟨hinit, hscorers, hlisteners⟩
    refine ⟨.of_init hinit, ?_, ?_, ?_⟩
    · rw [hscorers]
      exact ConsumerGroup.within_start _
    · rw [hlisteners]
      exact ConsumerGroup.within_start _
    · rw [hscorers]
      rintro consumer n ⟨⟩
  · rintro g event g' ⟨hreach, ho⟩ hstep
    have hgroup := Grouped.groupStep hstep
    refine ⟨?_, hgroup.ordered hjsonb hsc hreach ho⟩
    rcases hgroup.exists_event with heq | ⟨e, he⟩
    · rwa [heq]
    · rcases hreach with ⟨s₀, ls, hinit, hls⟩
      exact ⟨s₀, ls ++ [e], hinit, Lts.run_concat.2 ⟨g.system, hls, he⟩⟩

end

/-! ## Processes -/

/-- The publisher that takes the step. -/
def Event.publisher : Event → Option ℕ
  | .readPending publisher | .send publisher _ | .markSent publisher _ _ | .finish publisher
  | .crash publisher => some publisher
  | .createClaim _ _ _ | .lateAccept _ => none

/-- A publisher that takes no step stays where it is. -/
theorem Deployment.ticks_step {env : Env} {s s' : Deployment} {event : Event}
    (h : Deployment.step env s event = some s') {publisher : ℕ}
    (hother : event.publisher ≠ some publisher) : s'.ticks publisher = s.ticks publisher := by
  have hne : ∀ {p : ℕ} {next : Option Tick}, some p ≠ some publisher →
      Function.update s.ticks p next publisher = s.ticks publisher := fun hp =>
    Function.update_of_ne (fun heq => hp (congrArg some heq.symm)) _ _
  cases event with
  | createClaim request draws commits =>
      simp only [Deployment.step] at h
      split at h
      · split at h <;> cases h <;> rfl
      · cases h
  | readPending p =>
      simp only [Deployment.step] at h
      split at h <;> cases h
      exact hne hother
  | send p outcome =>
      simp only [Deployment.step] at h
      split at h <;> cases h
      cases outcome <;> exact hne hother
  | lateAccept n =>
      simp only [Deployment.step] at h
      split at h <;> cases h
      rfl
  | markSent p now commits =>
      simp only [Deployment.step] at h
      split at h <;> cases h
      exact hne hother
  | finish p =>
      simp only [Deployment.step] at h
      split at h <;> cases h
      exact hne hother
  | crash p =>
      cases h
      exact hne hother

/-- The process that takes the step, or that moves in its group. -/
def GroupedEvent.process : GroupedEvent → Option ℕ
  | .other (.publishing event) => event.publisher
  | .startConsumer process _ _ | .consume process _ _ _ _ | .stopConsumer process
  | .deliver process _ | .giveUp process => some process
  | .scorers act | .listeners act => act.member
  | .other _ => none

section

variable {svc : Services} {g g' : Grouped} {event : GroupedEvent}

/-- A process that takes no step stays where it is. -/
theorem GroupStep.idle (h : GroupStep svc g g' event) {process : ℕ}
    (hother : event.process ≠ some process) :
    g'.system.deployment.ticks process = g.system.deployment.ticks process ∧
      g'.scorers.members process = g.scorers.members process ∧
      g'.listeners.members process = g.listeners.members process := by
  have hne : ∀ {member : ℕ}, some member ≠ some process → process ≠ member :=
    fun hmember heq => hmember (congrArg some heq.symm)
  have hticks : ∀ {e : SystemEvent}, (∀ p, e ≠ .publishing p) →
      System.step svc g.system e = some g'.system →
      g'.system.deployment.ticks process = g.system.deployment.ticks process := by
    intro e he hstep
    rw [System.deployment_step he hstep]
  cases h with
  | other e hpart hstep hscorers hlisteners =>
      rw [hscorers, hlisteners]
      refine ⟨?_, rfl, rfl⟩
      by_cases hpublishing : ∃ p, e = .publishing p
      · rcases hpublishing with ⟨p, rfl⟩
        simp only [System.step] at hstep
        split at hstep
        · rcases Option.map_eq_some_iff.1 hstep with ⟨d, hd, hsystem⟩
          rw [← hsystem]
          exact Deployment.ticks_step hd hother
        · cases hstep
      · exact hticks (fun p hp => hpublishing ⟨p, hp⟩) hstep
  | startConsumer consumer rows completes hstep hscorers hlisteners =>
      rw [hscorers, hlisteners, ConsumerGroup.members_leave_of_ne (hne hother)]
      exact ⟨hticks (by rintro p ⟨⟩) hstep, rfl, rfl⟩
  | consume consumer n rows completes scoredAt accepted hnext hstep hscorers hlisteners =>
      rw [hscorers, hlisteners]
      refine ⟨hticks (by rintro p ⟨⟩) hstep, ?_, rfl⟩
      split
      · exact ConsumerGroup.members_advance_of_ne (hne hother)
      · exact ConsumerGroup.members_leave_of_ne (hne hother)
  | stopConsumer consumer hstep hscorers hlisteners =>
      rw [hscorers, hlisteners, ConsumerGroup.members_leave_of_ne (hne hother)]
      exact ⟨hticks (by rintro p ⟨⟩) hstep, rfl, rfl⟩
  | scorers act hsystem hadmits hact hlisteners =>
      rw [hsystem, hlisteners]
      exact ⟨rfl, ConsumerGroup.members_act_of_ne hact hother, rfl⟩
  | deliver listener n now hnext hstep hscorers hlisteners =>
      rw [hscorers, hlisteners, ConsumerGroup.members_advance_of_ne (hne hother)]
      exact ⟨hticks (by rintro p ⟨⟩) hstep, rfl, rfl⟩
  | giveUp listener n hnext hlt hsystem hscorers hlisteners =>
      rw [hsystem, hscorers, hlisteners, ConsumerGroup.members_advance_of_ne (hne hother)]
      exact ⟨rfl, rfl, rfl⟩
  | listeners act hsystem hscorers hact =>
      rw [hsystem, hscorers]
      exact ⟨rfl, rfl, ConsumerGroup.members_act_of_ne hact hother⟩

/-- A process without a step in a run never started. -/
theorem Grouped.idle_of_run {events : List GroupedEvent} (hinit : (grouped svc).init g)
    (hrun : (grouped svc).run g events = some g') {process : ℕ}
    (hothers : ∀ event ∈ events, event.process ≠ some process) :
    g'.system.deployment.ticks process = none ∧ g'.scorers.members process = none ∧
      g'.listeners.members process = none := by
  have hrestrict : ((grouped svc).restrict fun event => event.process != some process).run g events =
      some g' :=
    Lts.run_restrict_eq_some.2 ⟨fun event h => bne_iff_ne.2 (hothers event h), hrun⟩
  refine Lts.run_invariant (I := fun g => g.system.deployment.ticks process = none ∧
    g.scorers.members process = none ∧ g.listeners.members process = none) ?_ ?_ hrestrict
  · rintro g event g' hg hstep
    rcases Lts.restrict_step_eq_some.1 hstep with ⟨hother, hstep⟩
    obtain ⟨hticks, hscorers, hlisteners⟩ := (Grouped.groupStep hstep).idle (bne_iff_ne.1 hother)
    rwa [hticks, hscorers, hlisteners]
  · obtain ⟨⟨-, -, -, hticks, -⟩, hscorers, hlisteners⟩ := hinit
    rw [hscorers, hlisteners]
    exact ⟨hticks process, rfl, rfl⟩

end

/-! ## Where nothing is lost -/

section

variable {svc : Services} {g g' : Grouped} {event : GroupedEvent}

/-- The step loses no score: the broker accepts what is sent, and no record is given up. -/
def GroupedEvent.losesNothing : GroupedEvent → Bool
  | .consume _ _ _ _ accepted => accepted
  | .giveUp _ => false
  | _ => true

/-- What was read has led on: a record to a score, and a score to the trail. -/
structure Grouped.Kept (modelVersion : String) (g : Grouped) : Prop where
  scorers : ∀ n record claimId, g.system.deployment.topic[n]? = some record →
    record.key = claimId.toString → g.scorers.HasPassed n →
    ∃ payload ∈ g.system.scored, ScoringResultConsumer.Names payload claimId
  listeners : ∀ n payload claimId, g.system.scored[n]? = some payload →
    ScoringResultConsumer.Names payload claimId → g.listeners.HasPassed n →
    g.db.HasScore claimId modelVersion

/-- A record of `claim.submitted` is passed by the consumer that reads it and runs on. -/
theorem GroupStep.hasPassed_scorers (h : GroupStep svc g g' event) {n : ℕ}
    (hpassed : g'.scorers.HasPassed n) : g.scorers.HasPassed n ∨
      ∃ consumer rows completes scoredAt accepted,
        event = .consume consumer rows completes scoredAt accepted ∧
        System.step svc g.system (.consume consumer n rows completes scoredAt accepted) =
          some g'.system ∧ (g'.system.consumers consumer).isSome := by
  cases h with
  | other e hother hstep hscorers hlisteners =>
      rw [hscorers] at hpassed
      exact Or.inl hpassed
  | startConsumer consumer rows completes hstep hscorers hlisteners =>
      rw [hscorers] at hpassed
      exact Or.inl (hpassed.of_imp fun _ => ConsumerGroup.isMark_leave)
  | consume consumer k rows completes scoredAt accepted hnext hstep hscorers hlisteners =>
      rw [hscorers] at hpassed
      split at hpassed
      · rename_i hruns
        rcases hpassed.of_advance hnext with hold | rfl
        · exact Or.inl hold
        · exact Or.inr ⟨consumer, rows, completes, scoredAt, accepted, rfl, hstep, hruns⟩
      · exact Or.inl (hpassed.of_imp fun _ => ConsumerGroup.isMark_leave)
  | stopConsumer consumer hstep hscorers hlisteners =>
      rw [hscorers] at hpassed
      exact Or.inl (hpassed.of_imp fun _ => ConsumerGroup.isMark_leave)
  | scorers act hsystem hadmits hact hlisteners =>
      exact Or.inl (hpassed.of_imp fun _ => ConsumerGroup.isMark_act hact)
  | deliver listener k now hnext hstep hscorers hlisteners =>
      rw [hscorers] at hpassed
      exact Or.inl hpassed
  | giveUp listener k hnext hlt hsystem hscorers hlisteners =>
      rw [hscorers] at hpassed
      exact Or.inl hpassed
  | listeners act hsystem hscorers hact =>
      rw [hscorers] at hpassed
      exact Or.inl hpassed

/-- A score is passed by the listener that takes it or gives it up. -/
theorem GroupStep.hasPassed_listeners (h : GroupStep svc g g' event) {n : ℕ}
    (hpassed : g'.listeners.HasPassed n) : g.listeners.HasPassed n ∨
      (∃ listener now, event = .deliver listener now ∧
        System.step svc g.system (.deliver n now) = some g'.system) ∨
      ∃ listener, event = .giveUp listener := by
  have hold : g'.listeners = g.listeners → g.listeners.HasPassed n := fun heq => heq ▸ hpassed
  cases h with
  | other e hother hstep hscorers hlisteners => exact Or.inl (hold hlisteners)
  | startConsumer consumer rows completes hstep hscorers hlisteners =>
      exact Or.inl (hold hlisteners)
  | consume consumer k rows completes scoredAt accepted hnext hstep hscorers hlisteners =>
      exact Or.inl (hold hlisteners)
  | stopConsumer consumer hstep hscorers hlisteners => exact Or.inl (hold hlisteners)
  | scorers act hsystem hadmits hact hlisteners => exact Or.inl (hold hlisteners)
  | deliver listener k now hnext hstep hscorers hlisteners =>
      rw [hlisteners] at hpassed
      rcases hpassed.of_advance hnext with hold | rfl
      · exact Or.inl hold
      · exact Or.inr (Or.inl ⟨listener, now, rfl, hstep⟩)
  | giveUp listener k hnext hlt hsystem hscorers hlisteners =>
      exact Or.inr (Or.inr ⟨listener, rfl⟩)
  | listeners act hsystem hscorers hact =>
      exact Or.inl (hpassed.of_imp fun _ => ConsumerGroup.isMark_act hact)

theorem Db.HasScore.mono {db db' : Db} {claimId : UUID} {modelVersion : String}
    (h : db.HasScore claimId modelVersion) (hwithin : db.Within db') :
    db'.HasScore claimId modelVersion := by
  rcases h with ⟨row, hrow, hrest⟩
  exact ⟨row, hwithin.events.subset hrow, hrest⟩

/-- Nothing is taken back by a step. -/
theorem GroupStep.within (hg : (pipeline svc).Reachable g.system) (h : GroupStep svc g g' event) :
    g.db.Within g'.db := by
  rcases hg with ⟨s₀, ls, hinit, hls⟩
  have hinv := System.inv_of_run (System.inv_of_init hinit) hls
  rcases h.exists_event with heq | ⟨e, he⟩
  · rw [Grouped.db, Grouped.db, heq]
    exact .refl _
  · exact (System.dbStep he).within hinv.resolved

section

variable
  (hjsonb : ∀ text stored, svc.env.jsonb text = some stored → JsonbReturns text stored)
  (hstores : ∀ explanation : Explanation Double, explanation.IsPlain →
    (svc.env.jsonb explanation.stored).isSome)
  (hphone : ∀ raw value, svc.env.normalizePhone raw = some value →
    ∀ c ∈ value.toList, c = '+' ∨ c.isDigit = true)
  (hsc : svc.sc.Works) (hversion : Db.isText svc.sc.modelVersion = true)

include hjsonb hstores hphone hsc hversion

/-- A step that loses nothing keeps what was read. -/
theorem GroupStep.kept (hg : (grouped svc).Reachable g) (h : GroupStep svc g g' event)
    (hkept : g.Kept svc.sc.modelVersion) (hloses : event.losesNothing = true) :
    g'.Kept svc.sc.modelVersion := by
  have hsystem := Grouped.reachable_system hg
  have hordered := Grouped.ordered_of_reachable hjsonb hsc hg
  rcases h.moves.arrived with ⟨records, htopic, -⟩
  rcases h.scored hjsonb hsc hsystem with ⟨scores, hscored, -⟩
  refine ⟨?_, ?_⟩
  · intro n record claimId hrecord hkey hpassed
    rcases h.hasPassed_scorers hpassed with
      hold | ⟨consumer, rows, completes, scoredAt, accepted, rfl, hstep, hruns⟩
    · rw [htopic, List.getElem?_append_left (hordered.scorers.lt_of_hasPassed hold)] at hrecord
      rcases hkept.scorers n record claimId hrecord hkey hold with ⟨payload, hpayload, hnames⟩
      exact ⟨payload, hscored ▸ List.mem_append_left scores hpayload, hnames⟩
    · -- the record was scored just now, and its score was accepted
      rcases System.step_consume hjsonb hsc hsystem hstep with
        ⟨record', claimId', hrecord', hkey', -, heq | ⟨next, payload, heq, hnames⟩⟩
      · rw [heq] at hruns
        simp [System.setConsumer] at hruns
      · have haccepted : accepted = true := hloses
        rw [htopic, List.getElem?_append_left (List.getElem?_eq_some_iff.1 hrecord').1, hrecord',
          Option.some.injEq] at hrecord
        rw [← hrecord, hkey'] at hkey
        refine ⟨payload, ?_, (hnames claimId).2 (UUID.toString_injective hkey).symm⟩
        rw [heq, haccepted]
        exact List.mem_append_right _ (List.mem_singleton_self payload)
  · intro n payload claimId hpayload hnames hpassed
    rcases h.hasPassed_listeners hpassed with hold | ⟨listener, now, rfl, hstep⟩ | ⟨listener, rfl⟩
    · rw [hscored, List.getElem?_append_left (hordered.listeners.lt_of_hasPassed hold)] at hpayload
      exact (hkept.listeners n payload claimId hpayload hnames hold).mono (h.within hsystem)
    · -- the score was stored just now
      rcases System.step_deliver hstep with ⟨payload', db', hpayload', heq, -⟩
      have hsame : g'.system.scored = g.system.scored := by
        rw [heq]
        rfl
      rw [hsame] at hpayload
      rcases System.exists_deliver_step hjsonb hstores hphone hsc hversion hsystem hpayload now with
        ⟨db, hdelivered, hscore⟩
      rw [hstep, Option.some.injEq] at hdelivered
      rw [Grouped.db, hdelivered]
      exact hscore claimId hnames
    · cases hloses

/-- Along a run that loses nothing every submitted claim has its score or is held. -/
theorem Grouped.isLive_of_losesNothing {g₀ : Grouped} {events : List GroupedEvent}
    (hinit : (grouped svc).init g₀) (hloses : ∀ event ∈ events, event.losesNothing = true)
    (hrun : (grouped svc).run g₀ events = some g) {claimId : UUID}
    (hsubmitted : g.db.IsSubmitted claimId) : g.IsLive svc.sc.modelVersion claimId := by
  have hkept : g.Kept svc.sc.modelVersion := by
    refine (Lts.run_invariant (S := (grouped svc).restrict GroupedEvent.losesNothing)
      (I := fun g => (grouped svc).Reachable g ∧ g.Kept svc.sc.modelVersion) ?_ ⟨.of_init hinit, ?_⟩
      (Lts.run_restrict_eq_some.2 ⟨hloses, hrun⟩)).2
    · rintro g event g' ⟨hg, hkept⟩ hstep
      rcases Lts.restrict_step_eq_some.1 hstep with ⟨hloses, hstep⟩
      have hleads : ((grouped svc).restrict GroupedEvent.losesNothing).Leads g g' :=
        .of_step (Lts.restrict_step_eq_some.2 ⟨hloses, hstep⟩)
      exact ⟨hleads.reachable hg,
        (Grouped.groupStep hstep).kept hjsonb hstores hphone hsc hversion hg hkept hloses⟩
    · obtain ⟨⟨-, htopic, -, -, -, -, hscored⟩, -, -⟩ := hinit
      refine ⟨fun n record claimId hrecord => ?_, fun n payload claimId hpayload => ?_⟩
      · rw [htopic] at hrecord
        cases hrecord
      · rw [hscored] at hpayload
        cases hpayload
  rcases Grouped.exists_run hrun with ⟨ls, hls⟩
  have hannounces := System.announces_of_run hinit.1 hls
  rcases hsubmitted.created with ⟨row, hrow, rfl, htype⟩
  rcases hannounces.announced row hrow htype with ⟨e, he, howner⟩
  cases hsent : e.sentAt with
  | none => exact Or.inr (.owed (.queued e he howner hsent))
  | some sentAt =>
      -- its record was accepted
      rcases List.mem_iff_getElem?.1 (hannounces.delivered e he (by rw [hsent]; rfl)) with ⟨n, hn⟩
      have hkey : e.record.key = row.claimId.toString := congrArg UUID.toString howner
      rcases g.scorers.canRead_or_hasPassed n with hread | hpassed
      · exact Or.inr (.submitted n e.record hn hkey hread)
      · rcases hkept.scorers n e.record row.claimId hn hkey hpassed with ⟨payload, hpayload, hnames⟩
        rcases List.mem_iff_getElem?.1 hpayload with ⟨m, hm⟩
        rcases g.listeners.canRead_or_hasPassed m with hread | hpassed
        · exact Or.inr (.scored m payload hm hnames hread)
        · exact Or.inl (hkept.listeners m payload row.claimId hm hnames hpassed)

end

end

end ClaimGuard
