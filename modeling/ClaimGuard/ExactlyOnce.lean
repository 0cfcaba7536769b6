import ClaimGuard.Concurrent

/-!
# Exactly-once scoring

The existence check of `applyScore` runs before the lock and can be stale, so what
keeps a score from counting twice is the index. Each score that commits is the only
one of its claim and model version, and the database is that of the run without
every delivery that did not commit one.
-/

namespace ClaimGuard

open AuditService ClaimService

/-- What the index keeps unique: the claim and the model version of a score. -/
abbrev ScoreKey := UUID × Option String

/-- The key of a scored event. -/
def ClaimAuditEvent.scoreKey (e : ClaimAuditEvent) : Option ScoreKey :=
  if e.eventType = .fraudScored then some (e.claimId, e.modelVersion) else none

/-- The key of the score an operation delivers. -/
def Op.scoreKey (op : Op) (claimId : UUID) : Option ScoreKey :=
  match op with
  | .score _ _ _ _ modelVersion => some (claimId, modelVersion)
  | _ => none

/-- The key of the score a transaction delivers. -/
def Tx.scoreKey (t : Tx) : Option ScoreKey := t.op.scoreKey t.claimId

/-- The scored events of a key. -/
def Db.scoresOf (db : Db) (key : ScoreKey) : List ClaimAuditEvent :=
  db.auditEvents.filter fun e => decide (e.scoreKey = some key)

/-- Deliveries carry a model version. -/
def Action.versioned : Action → Bool
  | .start _ claimId op => ((op.scoreKey claimId).map fun key => key.2.isSome).getD true
  | _ => true

theorem scoresOf_append {db db' : Db} {row : ClaimAuditEvent}
    (h : db'.auditEvents = db.auditEvents ++ [row]) (key : ScoreKey) :
    db'.scoresOf key =
      if row.scoreKey = some key then db.scoresOf key ++ [row] else db.scoresOf key := by
  unfold Db.scoresOf
  rw [h, List.filter_append]
  by_cases hkey : row.scoreKey = some key <;> simp [hkey]

theorem scoresOf_congr {db db' : Db} (h : db'.auditEvents = db.auditEvents) (key : ScoreKey) :
    db'.scoresOf key = db.scoresOf key := by
  rw [Db.scoresOf, Db.scoresOf, h]

/-- What the check of `applyScore` finds. -/
theorem exists_iff_scoresOf {db : Db} {claimId : UUID} {modelVersion : Option String} :
    db.existsByClaimIdAndModelVersionAndEventType claimId modelVersion .fraudScored = true ↔
      db.scoresOf (claimId, modelVersion) ≠ [] := by
  rw [Db.existsByClaimIdAndModelVersionAndEventType, List.any_eq_true, Db.scoresOf, ne_eq,
    List.filter_eq_nil_iff]
  push Not
  refine exists_congr fun e => and_congr_right fun _ => ?_
  simp only [decide_eq_true_eq, ClaimAuditEvent.scoreKey]
  by_cases htype : e.eventType = .fraudScored <;> simp [htype]

/-- An operation records a score exactly when it delivers one. -/
theorem scoreKey_of_decideOp {op : Op} {claim : Claim} {decision : Decision} {row : ClaimAuditEvent}
    {claimId : UUID} {previous : Option ClaimAuditEvent}
    (hdecide : decideOp op claim = .ok decision)
    (hrow : NextRow claimId previous decision.entry row) : row.scoreKey = op.scoreKey claimId := by
  unfold ClaimAuditEvent.scoreKey
  rw [hrow.eventType_eq, hrow.claimId_eq, hrow.modelVersion_eq]
  cases op with
  | transition toStatus reason actorId actorRole =>
      simp only [decideOp, decideTransition, Results.guard_eq_ok, Results.pure_eq_ok] at hdecide
      rcases hdecide with ⟨-, -, -, rfl⟩
      rw [if_neg]
      · rfl
      · simp only
        split <;> simp
  | score fraudScore decisionHint ringId explanationJson modelVersion =>
      rcases Results.pure_eq_ok.1 hdecide with rfl
      rfl
  | narrative narrative grounded modelVersion actorId actorRole =>
      rcases Results.pure_eq_ok.1 hdecide with rfl
      rfl

/-- A performed operation records its score, the first with a model version of its
key. -/
theorem scoresOf_perform {env : Env} {db db' : Db} {claimId : UUID} {op : Op} {now : Instant}
    (h : perform env db claimId op now = .ok db') :
    ∃ row : ClaimAuditEvent, row.scoreKey = op.scoreKey claimId ∧
      db'.auditEvents = db.auditEvents ++ [row] ∧
      ∀ key : ScoreKey, op.scoreKey claimId = some key → key.2.isSome → db.scoresOf key = [] := by
  rcases perform_ok h with ⟨claim, decision, event, row, hclaim, hdecide, hevent, hrow, hdup, hdb⟩
  have hkey := scoreKey_of_decideOp hdecide (nextRow_of_stored hevent hrow)
  refine ⟨row, hkey, by rw [hdb], ?_⟩
  -- a score that was there would have made the row a duplicate for the index
  rintro ⟨id, modelVersion⟩ hop hsome
  rcases Db.storeAuditEvent_ok hrow with ⟨-, -, hstored⟩
  have hevent' : event.scoreKey = some (id, modelVersion) := by
    rw [← hop, ← hkey, hstored]
    rfl
  unfold ClaimAuditEvent.scoreKey at hevent'
  split at hevent'
  · rename_i htype
    rcases Prod.mk.inj (Option.some.inj hevent') with ⟨rfl, rfl⟩
    by_contra hne
    rw [← ne_eq, ← exists_iff_scoresOf] at hne
    simp [Db.isDuplicateScore, htype, hsome, hne] at hdup
  · cases hevent'

/-! ## One delivery for each key -/

/-- The transaction delivered the score of a key and committed it. -/
def World.Won (w : World) (tx : ℕ) (key : ScoreKey) : Prop :=
  ∃ t, w.txs tx = some t ∧ t.phase = .committed ∧ t.scoreKey = some key

/-- A key has no score and no delivery that committed one, or one of each. -/
def World.Settled (w : World) (key : ScoreKey) : Prop :=
  (w.db.scoresOf key = [] ∧ ∀ tx, ¬ w.Won tx key) ∨
    ∃ e winner, w.db.scoresOf key = [e] ∧ ∀ tx, w.Won tx key ↔ tx = winner

/-- Every key is settled, deliveries carry a model version, and one that was
skipped found a score. -/
structure World.Deliveries (w : World) : Prop where
  settled : ∀ key, w.Settled key
  versioned : ∀ tx t key, w.txs tx = some t → t.scoreKey = some key → key.2.isSome
  late : ∀ tx t key, w.txs tx = some t → t.phase = .skipped → t.scoreKey = some key →
    w.db.scoresOf key ≠ []

theorem World.Settled.congr {w w' : World} {key : ScoreKey} (h : w.Settled key)
    (hscores : w'.db.scoresOf key = w.db.scoresOf key) (hwon : ∀ tx, w'.Won tx key ↔ w.Won tx key) :
    w'.Settled key := by
  unfold World.Settled at h ⊢
  simp only [hscores, hwon]
  exact h

/-- What a transaction in a new phase has won. -/
theorem won_update {w w' : World} {tx : ℕ} {t : Tx}
    (h : w'.txs = Function.update w.txs tx (some t)) (tx' : ℕ) (key : ScoreKey) :
    w'.Won tx' key ↔
      if tx' = tx then t.phase = .committed ∧ t.scoreKey = some key else w.Won tx' key := by
  unfold World.Won
  rw [h]
  by_cases htx : tx' = tx
  · simp [htx]
  · simp [htx]

/-- An ended transaction takes no step. -/
theorem isOpen_of_advance {env : Env} {db : Db} {holder : Option ℕ} {t : Tx} {step : TxStep}
    {next : Db × Phase} (h : advance env db holder t step = some next) :
    t.phase.isOpen = true := by
  by_contra hclosed
  have hnot : t.phase.holds = false := by
    cases hphase : t.phase <;> simp_all [Phase.isOpen, Phase.holds]
  exact hclosed (advanced_of_advance (Tx.current_of_not_holds hnot) h).isOpen

/-- A delivery is skipped when the check finds a score of its key. -/
theorem scoresOf_of_skipped {env : Env} {db : Db} {holder : Option ℕ} {t : Tx} {step : TxStep}
    {next : Db × Phase} (h : advance env db holder t step = some next) (hskip : next.2 = .skipped)
    {key : ScoreKey} (hkey : t.scoreKey = some key) : db.scoresOf key ≠ [] := by
  have hcheck : check db t = some .skipped := by
    cases step with
    | check =>
        rcases Option.map_eq_some_iff.1 h with ⟨phase, hphase, rfl⟩
        rwa [← hskip]
    | _ =>
        simp only [advance] at h
        split at h <;> try split at h
        all_goals
          cases h
          try cases hskip
  unfold check at hcheck
  split at hcheck
  · rename_i modelVersion hop _
    split at hcheck
    · rename_i hexists
      obtain rfl : (t.claimId, modelVersion) = key := by
        simpa [Tx.scoreKey, Op.scoreKey, hop] using hkey
      exact exists_iff_scoresOf.1 hexists
    · cases hcheck
  · cases hcheck

/-- A transaction that is open has won nothing. -/
theorem World.not_won {w : World} {tx : ℕ} {t : Tx} (ht : w.txs tx = some t)
    (hopen : t.phase.isOpen = true) (key : ScoreKey) : ¬ w.Won tx key := by
  rintro ⟨t', ht', hphase, -⟩
  rw [ht] at ht'
  rcases Option.some.inj ht' with rfl
  rw [hphase] at hopen
  cases hopen

/-- A transaction in a new phase carries the same score. -/
theorem World.Deliveries.versioned_update {w : World} (hd : w.Deliveries) {tx : ℕ} {t : Tx}
    (ht : w.txs tx = some t) (phase : Phase) :
    ∀ tx' t' key, Function.update w.txs tx (some { t with phase := phase }) tx' = some t' →
      t'.scoreKey = some key → key.2.isSome := by
  intro tx' t' key ht' hkey
  rcases update_eq_some ht' with ⟨-, rfl⟩ | hold
  · exact hd.versioned tx t key ht hkey
  · exact hd.versioned tx' t' key hold hkey

/-- A step that records no score and moves no transaction. -/
theorem World.Deliveries.congr {w w' : World} (hd : w.Deliveries) (htxs : w'.txs = w.txs)
    (hscores : ∀ key, w'.db.scoresOf key = w.db.scoresOf key) : w'.Deliveries := by
  refine ⟨?_, by rw [htxs]; exact hd.versioned, ?_⟩
  · intro key
    apply (hd.settled key).congr (hscores key)
    intro tx
    unfold World.Won
    rw [htxs]
  · intro tx t key ht hskip hkey
    rw [htxs] at ht
    rw [hscores]
    exact hd.late tx t key ht hskip hkey

/-- A new transaction, that has not settled anything yet. -/
theorem World.Deliveries.started {w w' : World} (hd : w.Deliveries) {tx : ℕ} {claimId : UUID}
    {op : Op} (hnew : w.txs tx = none)
    (hversioned : ∀ key, op.scoreKey claimId = some key → key.2.isSome)
    (htxs : w'.txs = Function.update w.txs tx (some ⟨claimId, op, .begun⟩)) (hdb : w'.db = w.db) :
    w'.Deliveries := by
  refine ⟨?_, ?_, ?_⟩
  · intro key
    apply (hd.settled key).congr (by rw [hdb])
    intro tx'
    rw [won_update htxs]
    by_cases htx : tx' = tx
    · subst htx
      simp [World.Won, hnew]
    · rw [if_neg htx]
  · intro tx' t key ht hkey
    rw [htxs] at ht
    rcases update_eq_some ht with ⟨-, rfl⟩ | hold
    · exact hversioned key hkey
    · exact hd.versioned tx' t key hold hkey
  · intro tx' t key ht hphase hkey
    rw [htxs] at ht
    rw [hdb]
    rcases update_eq_some ht with ⟨-, rfl⟩ | hold
    · cases hphase
    · exact hd.late tx' t key hold hphase hkey

/-- A step that commits nothing, and skips a delivery only when there is a score. -/
theorem World.Deliveries.quiet {w w' : World} (hd : w.Deliveries) {tx : ℕ} {t : Tx}
    (ht : w.txs tx = some t) (hopen : t.phase.isOpen = true) {phase : Phase}
    (hphase : phase ≠ .committed)
    (hskipped : phase = .skipped → ∀ key, t.scoreKey = some key → w.db.scoresOf key ≠ [])
    (htxs : w'.txs = Function.update w.txs tx (some { t with phase := phase }))
    (hdb : w'.db = w.db) : w'.Deliveries := by
  refine ⟨?_, by rw [htxs]; exact hd.versioned_update ht phase, ?_⟩
  · intro key
    apply (hd.settled key).congr (scoresOf_congr (by rw [hdb]) key)
    intro tx'
    rw [won_update htxs]
    by_cases htx : tx' = tx
    · subst htx
      simp [hphase, World.not_won ht hopen key]
    · rw [if_neg htx]
  · intro tx' t' key ht' hskip hkey
    rw [htxs] at ht'
    rw [hdb]
    rcases update_eq_some ht' with ⟨-, rfl⟩ | hold
    · exact hskipped hskip key hkey
    · exact hd.late tx' t' key hold hskip hkey

/-- A commit: the first score of its key, or no score at all. -/
theorem World.Deliveries.committed {env : Env} {w w' : World} (hd : w.Deliveries) {tx : ℕ} {t : Tx}
    (ht : w.txs tx = some t) (hopen : t.phase.isOpen = true) {now : Instant}
    (hperform : perform env w.db t.claimId t.op now = .ok w'.db)
    (htxs : w'.txs = Function.update w.txs tx (some { t with phase := .committed })) :
    w'.Deliveries := by
  rcases scoresOf_perform hperform with ⟨row, hrowKey, hevents, hfirst⟩
  refine ⟨?_, by rw [htxs]; exact hd.versioned_update ht .committed, ?_⟩
  · intro key
    by_cases hkey : t.scoreKey = some key
    · -- the index let the row in, so it is the first of its key and nobody has won
      have hnone := hfirst key hkey (hd.versioned tx t key ht hkey)
      have hlosers : ∀ tx', ¬ w.Won tx' key := by
        rcases hd.settled key with ⟨-, hno⟩ | ⟨e, winner, he, -⟩
        · exact hno
        · rw [hnone] at he
          cases he
      refine Or.inr ⟨row, tx, ?_, ?_⟩
      · rw [scoresOf_append hevents, hrowKey, hnone]
        exact if_pos hkey
      · intro tx'
        rw [won_update htxs]
        by_cases htx : tx' = tx
        · rw [if_pos htx]
          exact ⟨fun _ => htx, fun _ => ⟨rfl, hkey⟩⟩
        · simp [htx, hlosers tx']
    · -- the row has another key, or none
      refine (hd.settled key).congr ?_ ?_
      · rw [scoresOf_append hevents, hrowKey]
        exact if_neg hkey
      · intro tx'
        rw [won_update htxs]
        by_cases htx : tx' = tx
        · subst htx
          have hkey' : ({ t with phase := .committed } : Tx).scoreKey ≠ some key := hkey
          simp [hkey', World.not_won ht hopen key]
        · rw [if_neg htx]
  · intro tx' t' key ht' hskip hkey
    rw [htxs] at ht'
    rcases update_eq_some ht' with ⟨-, rfl⟩ | hold
    · cases hskip
    · have hlate := hd.late tx' t' key hold hskip hkey
      rw [scoresOf_append hevents]
      split <;> simp [hlate]

/-- The first event of a claim is no score. -/
theorem scoresOf_createClaim {env : Env} {db db' : Db} {request : ClaimRequest}
    {draws : CreateDraws} (h : createClaim env db request draws = .ok db') (key : ScoreKey) :
    db'.scoresOf key = db.scoresOf key := by
  obtain ⟨claim, event, row, payload, db₁, db₂, -, -, -, -, -, -, hevent, hrow, -, hdb⟩ :=
    createClaim_ok h
  have hrowKey : row.scoreKey = none := by
    unfold ClaimAuditEvent.scoreKey
    rw [(nextRow_of_stored hevent hrow).eventType_eq]
    rfl
  have hevents : db'.auditEvents = db.auditEvents ++ [row] := by rw [hdb]
  rw [scoresOf_append hevents, hrowKey, if_neg (by simp)]

/-- Every step keeps one delivery for each key. -/
theorem World.Deliveries.step {env : Env} {w w' : World} {action : Action} (hinv : w.Inv env)
    (hd : w.Deliveries) (hversioned : action.versioned = true)
    (h : World.step env w action = some w') : w'.Deliveries := by
  cases stepped_of_step h with
  | failed => exact hd
  | created request draws db hcreate => exact hd.congr rfl (scoresOf_createClaim hcreate)
  | bulkLoaded claim db hstatus hinsert =>
      rcases Db.insertClaim_ok hinsert with ⟨amount, -, rfl⟩
      exact hd.congr rfl fun _ => rfl
  | started tx claimId op ht =>
      refine hd.started ht ?_ rfl rfl
      intro key hkey
      simpa [Action.versioned, hkey] using hversioned
  | advanced tx step t next ht hadvance =>
      have hadvanced := advanced_of_advance (hinv.current tx t ht) hadvance
      rcases hadvanced.effect with ⟨hdb, hphase⟩ | ⟨hphase, -, now, hperform⟩
      · exact hd.quiet ht hadvanced.isOpen hphase
          (fun hskip key hkey => scoresOf_of_skipped hadvance hskip hkey) rfl hdb
      · apply hd.committed ht hadvanced.isOpen hperform
        rw [← hphase]
        rfl

/-! ## Deleting the other deliveries -/

/-- The transaction is not a delivery, or it is one that committed its score. -/
def World.keepsTx (w : World) (tx : ℕ) : Bool :=
  match w.txs tx with
  | none => true
  | some t => t.scoreKey.isNone || match t.phase with
      | .committed => true
      | _ => false

/-- The transaction an action belongs to. -/
def Action.transaction : Action → Option ℕ
  | .start n _ _ => some n
  | .tx n _ => some n
  | _ => none

/-- The actions that are left when every delivery that did not commit its score is
deleted. -/
def World.keeps (w : World) (action : Action) : Bool :=
  (action.transaction.map w.keepsTx).getD true

/-- The same world without the transactions that are not kept. -/
structure Without (kept : ℕ → Bool) (env : Env) (w v : World) : Prop where
  inv : w.Inv env
  db : v.db = w.db
  loaded : v.loaded = w.loaded
  same : ∀ tx, kept tx = true → v.txs tx = w.txs tx
  gone : ∀ tx, kept tx = false → v.txs tx = none
  locks : ∀ id, v.locks id = (w.locks id).filter kept

/-- Only the kept transactions have committed. -/
def CommittedKept (kept : ℕ → Bool) (w : World) : Prop :=
  ∀ tx t, w.txs tx = some t → t.phase = .committed → kept tx = true

/-- What is committed stays committed. -/
theorem committed_of_step {env : Env} {w w' : World} {action : Action}
    (h : World.step env w action = some w') {tx : ℕ} {t : Tx} (ht : w.txs tx = some t)
    (hphase : t.phase = .committed) : w'.txs tx = some t := by
  cases stepped_of_step h with
  | started tx' claimId op ht' =>
      have hne : tx ≠ tx' := by
        rintro rfl
        rw [ht] at ht'
        cases ht'
      simp [hne, ht]
  | advanced tx' step t' next ht' hadvance =>
      have hne : tx ≠ tx' := by
        rintro rfl
        rw [ht] at ht'
        rcases Option.some.inj ht' with rfl
        have hopen := isOpen_of_advance hadvance
        rw [hphase] at hopen
        cases hopen
      simp [World.setPhase, hne, ht]
  | _ => exact ht

/-- A step does not mind a lock that is not held. -/
theorem advance_of_holder {env : Env} {db : Db} {holder holder' : Option ℕ} {t : Tx}
    {step : TxStep} {next : Db × Phase} (hfree : holder = none → holder' = none)
    (h : advance env db holder t step = some next) : advance env db holder' t step = some next := by
  cases step with
  | lock =>
      simp only [advance] at h ⊢
      split
      · rename_i hready
        rw [if_pos hready] at h
        cases hclaim : db.findById t.claimId with
        | none =>
            rw [hclaim] at h
            exact h
        | some claim =>
            rw [hclaim] at h
            cases holder with
            | none =>
                rw [hfree rfl]
                exact h
            | some tx => cases h
      · rename_i hready
        rw [if_neg hready] at h
        cases h
  | _ => exact h

section

variable {kept : ℕ → Bool} {env : Env} {w v : World} (h : Without kept env w v) {tx : ℕ}

include h

/-- A kept transaction changes alike in both worlds. -/
theorem Without.same_update (x : Option Tx) : ∀ tx', kept tx' = true →
    Function.update v.txs tx x tx' = Function.update w.txs tx x tx' := by
  intro tx' hkept
  by_cases htx : tx' = tx
  · simp [htx]
  · simp [htx, h.same tx' hkept]

theorem Without.gone_update (hkept : kept tx = true) (x : Option Tx) : ∀ tx', kept tx' = false →
    Function.update v.txs tx x tx' = none := by
  intro tx' hgone
  have htx : tx' ≠ tx := by
    rintro rfl
    simp [hkept] at hgone
  simp [htx, h.gone tx' hgone]

/-- The locks that a kept transaction takes and gives back are the same without the others. -/
theorem Without.locks_setPhase (hkept : kept tx = true) (t : Tx) (phase : Phase) (id : UUID) :
    (v.setPhase tx t phase).locks id = ((w.setPhase tx t phase).locks id).filter kept := by
  simp only [World.setPhase]
  split
  · by_cases hid : id = t.claimId
    · simp [hid, Option.filter_some, hkept]
    · simp [hid, h.locks id]
  · split
    · by_cases hid : id = t.claimId
      · simp [hid]
      · simp [hid, h.locks id]
    · exact h.locks id

/-- The lock of any other is nobody's without it. -/
theorem Without.locks_of_erased (herase : kept tx = false) {t : Tx} {phase : Phase}
    (hbefore : t.phase.holds = true → v.locks t.claimId = none)
    (hafter : phase.holds = true → v.locks t.claimId = none) (id : UUID) :
    v.locks id = ((w.setPhase tx t phase).locks id).filter kept := by
  simp only [World.setPhase]
  split
  · rename_i hholds
    by_cases hid : id = t.claimId
    · simp [hid, Option.filter_some, herase, hafter hholds]
    · simp [hid, h.locks id]
  · split
    · rename_i hholds
      by_cases hid : id = t.claimId
      · simp [hid, hbefore hholds]
      · simp [hid, h.locks id]
    · exact h.locks id

end

/-- A kept action has the same effect without the other deliveries. -/
theorem Without.keep {kept : ℕ → Bool} {env : Env} {w v w' : World} {action : Action}
    (h : Without kept env w v) (hkeep : ∀ tx, action.transaction = some tx → kept tx = true)
    (hstep : World.step env w action = some w') :
    ∃ v', World.step env v action = some v' ∧ Without kept env w' v' := by
  have hinv' := h.inv.step hstep
  cases action with
  | createClaim request draws =>
      simp only [World.step, h.db] at hstep ⊢
      split at hstep
      · cases hstep
        exact ⟨v, rfl, h⟩
      · cases hstep
        exact ⟨_, rfl, ⟨hinv', rfl, h.loaded, h.same, h.gone, h.locks⟩⟩
  | bulkLoad claim =>
      simp only [World.step, h.db] at hstep ⊢
      split at hstep
      · rename_i hstatus
        rw [if_pos hstatus]
        split at hstep
        · cases hstep
          exact ⟨v, rfl, h⟩
        · cases hstep
          refine ⟨_, rfl, ⟨hinv', rfl, ?_, h.same, h.gone, h.locks⟩⟩
          simp only [h.loaded]
      · cases hstep
  | start tx claimId op =>
      have hkept := hkeep tx rfl
      simp only [World.step, h.same tx hkept] at hstep ⊢
      split at hstep
      · cases hstep
      · cases hstep
        exact ⟨_, rfl, ⟨hinv', h.db, h.loaded, h.same_update _, h.gone_update hkept _, h.locks⟩⟩
  | tx tx step =>
      have hkept := hkeep tx rfl
      simp only [World.step, h.same tx hkept, h.db] at hstep ⊢
      split at hstep
      · cases hstep
      · rename_i t ht
        rcases Option.map_eq_some_iff.1 hstep with ⟨next, hadvance, rfl⟩
        -- fewer locks are held, so a step that could go on still can
        have hfree : w.locks t.claimId = none → v.locks t.claimId = none := by
          intro hnone
          rw [h.locks, hnone]
          rfl
        rw [advance_of_holder hfree hadvance]
        exact ⟨_, rfl, ⟨hinv', rfl, h.loaded, h.same_update _, h.gone_update hkept _,
          h.locks_setPhase hkept t next.2⟩⟩

/-- A deleted action changes nothing that is left. -/
theorem Without.erase {kept : ℕ → Bool} {env : Env} {w v w' : World} {action : Action} {tx : ℕ}
    (h : Without kept env w v) (htx : action.transaction = some tx) (herase : kept tx = false)
    (hstep : World.step env w action = some w') (hcommitted : CommittedKept kept w') :
    Without kept env w' v := by
  have hinv' := h.inv.step hstep
  have hother : ∀ tx', kept tx' = true → tx' ≠ tx := by
    rintro tx' hkept rfl
    rw [herase] at hkept
    cases hkept
  cases stepped_of_step hstep with
  | failed => exact h
  | created request draws db hcreate => cases htx
  | bulkLoaded claim db hstatus hinsert => cases htx
  | started tx' claimId op ht =>
      rcases Option.some.inj htx with rfl
      refine ⟨hinv', h.db, h.loaded, ?_, h.gone, h.locks⟩
      intro tx hkept
      simp [hother tx hkept, h.same tx hkept]
  | advanced tx' step t next ht hadvance =>
      rcases Option.some.inj htx with rfl
      have hadvanced := advanced_of_advance (h.inv.current tx' t ht) hadvance
      -- it is not kept, so it did not commit
      have hdb : next.1 = w.db := by
        rcases hadvanced.effect with ⟨hdb, -⟩ | ⟨hphase, -⟩
        · exact hdb
        · have hkept := hcommitted tx' { t with phase := next.2 } (by simp [World.setPhase]) hphase
          rw [herase] at hkept
          cases hkept
      refine ⟨hinv', by rw [h.db]; exact hdb.symm, h.loaded, ?_, h.gone, ?_⟩
      · intro tx hkept
        simp [World.setPhase, hother tx hkept, h.same tx hkept]
      · have hheld : t.phase.holds = true → v.locks t.claimId = none := by
          intro hholds
          rw [h.locks, h.inv.locked tx' t ht hholds]
          simp [herase]
        refine h.locks_of_erased herase hheld ?_
        intro hphase
        rcases hadvanced.holds hphase with hholds | hfree
        · exact hheld hholds
        · rw [h.locks, hfree]
          rfl

/-- Deleting the transactions that are not kept from a run in which only kept ones
have committed gives a run to the same world without them. -/
theorem without_of_run {env : Env} {kept : ℕ → Bool} {w₀ w : World} {actions : List Action}
    (hinit : (concurrent env).init w₀) (hrun : (concurrent env).run w₀ actions = some w)
    (hcommitted : CommittedKept kept w) :
    ∃ v, (concurrent env).run w₀
        (actions.filter fun action => (action.transaction.map kept).getD true) = some v ∧
      Without kept env w v := by
  have hkeeps : ∀ {action : Action} {tx : ℕ},
      action.transaction = some tx → (action.transaction.map kept).getD true = kept tx := by
    intro action tx htx
    rw [htx, Option.map_some, Option.getD_some]
  have hinv := World.inv_of_reachable (.of_init hinit)
  rcases hinit with ⟨-, -, -, htxs, hlocks⟩
  have hstart : Without kept env w₀ w₀ := by
    refine ⟨hinv, rfl, rfl, fun _ _ => rfl, fun tx _ => htxs tx, ?_⟩
    intro id
    rw [hlocks id]
    rfl
  refine Lts.run_erase (R := Without kept env) (P := CommittedKept kept) ?_ ?_ ?_ hstart hrun
    hcommitted
  · intro w action w' hstep hP tx t ht hphase
    exact hP tx t (committed_of_step hstep ht hphase) hphase
  · intro w v action w' hwithout _ hkeep hstep
    refine hwithout.keep ?_ hstep
    intro tx htx
    rwa [hkeeps htx] at hkeep
  · intro w v action w' hwithout hP herase hstep
    cases htx : action.transaction with
    | none =>
        rw [htx] at herase
        cases herase
    | some tx =>
        rw [hkeeps htx] at herase
        exact hwithout.erase htx herase hstep hP

/-- Every run keeps one delivery for each key. -/
theorem World.deliveries_of_run {env : Env} {w₀ w : World} {actions : List Action}
    (hinit : (concurrent env).init w₀)
    (hrun : ((concurrent env).restrict Action.versioned).run w₀ actions = some w) :
    w.Deliveries := by
  have hstart : w₀.Inv env ∧ w₀.Deliveries := by
    refine ⟨World.inv_of_reachable (.of_init hinit), ?_, ?_, ?_⟩
    · intro key
      refine Or.inl ⟨by simp [Db.scoresOf, hinit.2.1], ?_⟩
      rintro tx ⟨t, ht, -⟩
      simp [hinit.2.2.2.1] at ht
    · intro tx t key ht
      simp [hinit.2.2.2.1] at ht
    · intro tx t key ht
      simp [hinit.2.2.2.1] at ht
  have hboth := Lts.run_invariant (I := fun w => w.Inv env ∧ w.Deliveries) ?_ hstart hrun
  · exact hboth.2
  · rintro w action w' ⟨hinv, hd⟩ hstep
    rcases Lts.restrict_step_eq_some.1 hstep with ⟨hversioned, hstep⟩
    exact ⟨hinv.step hstep, hd.step hinv hversioned hstep⟩

/-- In every interleaving of deliveries that carry a model version, each claim and
model version has at most one score and at most one delivery that committed it, a
delivery is skipped only after that one, and the database is that of the run from
which every other delivery is deleted. -/
theorem scoring_exactly_once (env : Env) (w₀ w : World) (actions : List Action)
    (hinit : (concurrent env).init w₀)
    (hrun : ((concurrent env).restrict Action.versioned).run w₀ actions = some w) :
    (∀ claimId (modelVersion : String),
        ((w.db.eventsOf claimId).filter fun e => decide (e.eventType = .fraudScored ∧
          e.modelVersion = some modelVersion)).length ≤ 1) ∧
      (∀ key tx tx', w.Won tx key → w.Won tx' key → tx = tx') ∧
      (∀ key tx t, w.txs tx = some t → t.phase = .skipped → t.scoreKey = some key →
        ∃ winner, w.Won winner key) ∧
      ∃ w', (concurrent env).run w₀ (actions.filter w.keeps) = some w' ∧ w'.db = w.db := by
  have hd := World.deliveries_of_run hinit hrun
  refine ⟨?_, ?_, ?_, ?_⟩
  · intro claimId modelVersion
    have hfilter : (w.db.eventsOf claimId).filter (fun e => decide (e.eventType = .fraudScored ∧
        e.modelVersion = some modelVersion)) = w.db.scoresOf (claimId, some modelVersion) := by
      unfold Db.eventsOf Db.scoresOf
      rw [List.filter_filter]
      apply List.filter_congr
      intro e _
      unfold ClaimAuditEvent.scoreKey
      by_cases htype : e.eventType = .fraudScored <;> simp [htype, Bool.and_comm]
    rw [hfilter]
    rcases hd.settled (claimId, some modelVersion) with ⟨hnone, -⟩ | ⟨e, winner, hone, -⟩
    · simp [hnone]
    · simp [hone]
  · intro key tx tx' hwon hwon'
    rcases hd.settled key with ⟨-, hno⟩ | ⟨e, winner, -, hwinner⟩
    · exact absurd hwon (hno tx)
    · rw [(hwinner tx).1 hwon, (hwinner tx').1 hwon']
  · intro key tx t ht hskip hkey
    rcases hd.settled key with ⟨hnone, -⟩ | ⟨e, winner, -, hwinner⟩
    · exact absurd hnone (hd.late tx t key ht hskip hkey)
    · exact ⟨winner, (hwinner winner).2 rfl⟩
  · have hcommitted : CommittedKept w.keepsTx w := by
      intro tx t ht hphase
      simp [World.keepsTx, ht, hphase]
    obtain ⟨v, hrun', hwithout⟩ := without_of_run hinit (Lts.run_restrict_eq_some.1 hrun).2
      hcommitted
    exact ⟨v, hrun', hwithout.db⟩

/-- The sample interleaving, in which the second delivery passes the check and is
rejected by the index, ends as the run without that delivery. -/
theorem scoring_exactly_once_interleaved :
    Sample.interleaving.length = 21 ∧
      (Sample.interleaving.filter Sample.interleaved.keeps).length = 14 ∧
      ∃ w', (concurrent Sample.env).run Sample.idle
          (Sample.interleaving.filter Sample.interleaved.keeps) = some w' ∧
        w'.db = Sample.interleaved.db := by
  have hrun : ((concurrent Sample.env).restrict Action.versioned).run Sample.idle
      Sample.interleaving = some Sample.interleaved :=
    Lts.run_restrict_eq_some.2 ⟨by decide, Sample.run_interleaving⟩
  exact ⟨by decide, by decide +kernel,
    (scoring_exactly_once Sample.env Sample.idle Sample.interleaved Sample.interleaving
      Sample.idle_init hrun).2.2.2⟩

end ClaimGuard
