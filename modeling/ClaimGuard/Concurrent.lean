import ClaimGuard.Runs

/-!
# Concurrent transactions

The operations on a claim as transactions that interleave step by step: the
existence check of a scoring result, the lock on the claim row, the two reads, the
writes, and the commit. Every read sees what is committed at that moment. What a
transaction has read under the lock is still current when it commits, so a commit
is the operation performed on the database as it then is.
-/

namespace ClaimGuard

open AuditService ClaimService

/-- How far a transaction is, with what it has read. -/
inductive Phase where
  | begun
  | checked
  | locked
  | read (claim : Claim)
  | decided (decision : Decision) (latest : Option ClaimAuditEvent)
  | written (decision : Decision) (event : ClaimAuditEvent)
  | committed
  | skipped
  | rolledBack

/-- The transaction holds the lock on its claim row. -/
def Phase.holds : Phase → Bool
  | .locked | .read _ | .decided _ _ | .written _ _ => true
  | _ => false

/-- The transaction has not ended. -/
def Phase.isOpen : Phase → Bool
  | .committed | .skipped | .rolledBack => false
  | _ => true

theorem Phase.isOpen_of_holds {p : Phase} (h : p.holds = true) : p.isOpen = true := by
  cases p <;> first | rfl | cases h

/-- A transaction on a claim. -/
structure Tx where
  claimId : UUID
  op : Op
  phase : Phase

/-- The steps of a transaction. -/
inductive TxStep where
  | check
  | lock
  | readStatus
  | readLatest
  | write (now : Instant)
  | commit
  | rollback

/-- The existence check of `applyScore`, the only operation that reads before it
locks. -/
def check (db : Db) (t : Tx) : Option Phase :=
  match t.op, t.phase with
  | .score _ _ _ _ modelVersion, .begun =>
      if db.existsByClaimIdAndModelVersionAndEventType t.claimId modelVersion .fraudScored then
        some .skipped
      else some .checked
  | _, _ => none

/-- The operation takes the lock next. -/
def Tx.isReadyToLock (t : Tx) : Bool :=
  match t.op, t.phase with
  | .score _ _ _ _ _, .checked => true
  | .score _ _ _ _ _, _ => false
  | _, .begun => true
  | _, _ => false

theorem Tx.isOpen_of_isReadyToLock {t : Tx} (h : t.isReadyToLock = true) :
    t.phase.isOpen = true := by
  unfold Tx.isReadyToLock at h
  split at h <;> simp_all [Phase.isOpen]

/-- A step of a transaction: the database and the phase after it. `lock` waits
while the row is held; a failure on the way rolls the transaction back. -/
def advance (env : Env) (db : Db) (holder : Option ℕ) (t : Tx) : TxStep → Option (Db × Phase)
  | .check => (check db t).map fun phase => (db, phase)
  | .lock =>
      if t.isReadyToLock then
        -- `SELECT … FOR UPDATE` of a missing row locks nothing
        match db.findById t.claimId, holder with
        | none, _ => some (db, .rolledBack)
        | some _, none => some (db, .locked)
        | some _, some _ => none
      else none
  | .readStatus =>
      match t.phase with
      | .locked =>
          match db.findById t.claimId with
          | none => some (db, .rolledBack)
          | some claim => some (db, .read claim)
      | _ => none
  | .readLatest =>
      match t.phase with
      | .read claim =>
          match decideOp t.op claim with
          | .error _ => some (db, .rolledBack)
          | .ok decision =>
              some (db, .decided decision (db.findFirstByClaimIdOrderBySeqDesc t.claimId))
      | _ => none
  | .write now =>
      match t.phase with
      | .decided decision latest =>
          match nextEvent env t.claimId latest decision.entry now with
          | .error _ => some (db, .rolledBack)
          | .ok event => some (db, .written decision event)
      | _ => none
  | .commit =>
      match t.phase with
      | .written decision event =>
          match (save db decision.saved).insertAuditEvent env event with
          | .error _ => some (db, .rolledBack)
          | .ok db' => some (db', .committed)
      | _ => none
  | .rollback => if t.phase.isOpen then some (db, .rolledBack) else none

/-- The committed database, the row locks, and every transaction so far. `loaded`
lists the claims that were bulk-loaded. -/
structure World where
  db : Db
  locks : UUID → Option ℕ
  txs : ℕ → Option Tx
  loaded : List UUID

/-- A step of the world: an intake, whose rows appear at its commit, a bulk load,
the start of a transaction, or a step of one. -/
inductive Action where
  | createClaim (request : ClaimRequest) (draws : CreateDraws)
  | bulkLoad (claim : Claim)
  | start (tx : ℕ) (claimId : UUID) (op : Op)
  | tx (tx : ℕ) (step : TxStep)

namespace World

/-- A transaction in a new phase: it holds the lock from `lock` to its end. -/
def setPhase (w : World) (tx : ℕ) (t : Tx) (phase : Phase) : World :=
  { w with
    txs := Function.update w.txs tx (some { t with phase := phase })
    locks :=
      if phase.holds then Function.update w.locks t.claimId (some tx)
      else if t.phase.holds then Function.update w.locks t.claimId none
      else w.locks }

/-- One step. -/
def step (env : Env) (w : World) : Action → Option World
  | .createClaim request draws =>
      match createClaim env w.db request draws with
      | .error _ => some w
      | .ok db => some { w with db := db }
  | .bulkLoad claim =>
      if claim.status = .submitted then
        match w.db.insertClaim claim with
        | .error _ => some w
        | .ok db => some { w with db := db, loaded := claim.id :: w.loaded }
      else none
  | .start tx claimId op =>
      match w.txs tx with
      | some _ => none
      | none => some { w with txs := Function.update w.txs tx (some ⟨claimId, op, .begun⟩) }
  | .tx tx step =>
      match w.txs tx with
      | none => none
      | some t =>
          (advance env w.db (w.locks t.claimId) t step).map fun next =>
            { w.setPhase tx t next.2 with db := next.1 }

end World

/-- The service with interleaved transactions, started without claims. -/
def concurrent (env : Env) : Lts World Action where
  init w := w.db.claims = [] ∧ w.db.auditEvents = [] ∧ w.loaded = [] ∧
    (∀ tx, w.txs tx = none) ∧ ∀ id, w.locks id = none
  step := World.step env

/-! ## One claim at a time -/

/-- Nothing differs but one claim and its trail. -/
structure SameBeyond (id : UUID) (db db' : Db) : Prop where
  claim : ∀ other, other ≠ id → db'.findById other = db.findById other
  trail : ∀ other, other ≠ id → db'.eventsOf other = db.eventsOf other

theorem SameBeyond.refl (id : UUID) (db : Db) : SameBeyond id db db :=
  ⟨fun _ _ => rfl, fun _ _ => rfl⟩

theorem sameBeyond_of_perform {env : Env} {db db' : Db} {claimId : UUID} {op : Op} {now : Instant}
    (h : perform env db claimId op now = .ok db') : SameBeyond claimId db db' := by
  rcases perform_ok h with ⟨claim, decision, event, row, hclaim, hdecide, hevent, hrow, -, hdb'⟩
  have hnext := nextRow_of_stored hevent hrow
  rcases (Table.find_eq_some hclaim).2 with rfl
  constructor
  · intro other hother
    have hclaims : db'.claims = (save db decision.saved).claims := by rw [hdb']
    rw [findById_save hclaim hdecide hclaims, if_neg hother]
  · intro other hother
    have hevents : db'.auditEvents = db.auditEvents ++ [row] := by rw [hdb']
    rw [eventsOf_append hevents, hnext.claimId_eq, if_neg hother.symm]

theorem sameBeyond_of_insertClaim {db db' : Db} {claim : Claim}
    (h : db.insertClaim claim = .ok db') : SameBeyond claim.id db db' := by
  rcases Db.insertClaim_ok h with ⟨amount, -, rfl⟩
  constructor
  · intro other hother
    rw [findById_append rfl, if_neg hother.symm, Option.or_none]
  · intro other _
    exact eventsOf_congr rfl other

theorem sameBeyond_of_createClaim {env : Env} {db db' : Db} {request : ClaimRequest}
    {draws : CreateDraws} (h : createClaim env db request draws = .ok db') :
    SameBeyond draws.claimId db db' := by
  obtain ⟨claim, event, row, payload, db₁, db₂, -, hid, -, -, hdb₁, hresolve, hevent, hrow, -,
    hdb'⟩ := createClaim_ok h
  rcases EntityService.sameBeyondEntities_resolveAndLink hresolve with ⟨hclaims, -, -⟩
  have hnext := nextRow_of_stored hevent hrow
  -- the new claim and its first row are the only changes
  rw [← hid]
  constructor
  · intro other hother
    have hclaims' : db'.claims = db.claims ++ [claim] := by rw [hdb', hclaims, hdb₁]
    rw [findById_append hclaims', if_neg hother.symm, Option.or_none]
  · intro other hother
    have hevents : db'.auditEvents = db.auditEvents ++ [row] := by rw [hdb']
    rw [eventsOf_append hevents, hnext.claimId_eq, if_neg hother.symm]

/-! ## What a transaction knows -/

/-- What a transaction has read is what is committed. -/
def Tx.Current (env : Env) (db : Db) (t : Tx) : Prop :=
  match t.phase with
  | .read claim => db.findById t.claimId = some claim
  | .decided decision latest => ∃ claim, db.findById t.claimId = some claim ∧
      decideOp t.op claim = .ok decision ∧ latest = db.findFirstByClaimIdOrderBySeqDesc t.claimId
  | .written decision event => ∃ claim now, db.findById t.claimId = some claim ∧
      decideOp t.op claim = .ok decision ∧
      nextEvent env t.claimId (db.findFirstByClaimIdOrderBySeqDesc t.claimId) decision.entry now =
        .ok event
  | _ => True

/-- Without the lock a transaction has read nothing it still relies on. -/
theorem Tx.current_of_not_holds {env : Env} {db : Db} {t : Tx} (h : t.phase.holds = false) :
    t.Current env db := by
  unfold Tx.Current
  cases hphase : t.phase <;> simp_all [Phase.holds]

/-- What was read stays current as long as the claim and its trail do. -/
theorem Tx.Current.congr {env : Env} {db db' : Db} {t : Tx} (h : t.Current env db)
    (hclaim : db'.findById t.claimId = db.findById t.claimId)
    (htrail : db'.eventsOf t.claimId = db.eventsOf t.claimId) : t.Current env db' := by
  have hlatest : db'.findFirstByClaimIdOrderBySeqDesc t.claimId =
      db.findFirstByClaimIdOrderBySeqDesc t.claimId := by
    unfold Db.findFirstByClaimIdOrderBySeqDesc
    rw [htrail]
  unfold Tx.Current at h ⊢
  rwa [hclaim, hlatest]

/-- A commit is the operation, performed on the database as it is at the commit. -/
theorem perform_of_current {env : Env} {db db' : Db} {t : Tx} {decision : Decision}
    {event : ClaimAuditEvent} (hphase : t.phase = .written decision event)
    (h : t.Current env db)
    (hinsert : (save db decision.saved).insertAuditEvent env event = .ok db') :
    ∃ now, perform env db t.claimId t.op now = .ok db' := by
  unfold Tx.Current at h
  rw [hphase] at h
  rcases h with ⟨claim, now, hclaim, hdecide, hevent⟩
  refine ⟨now, ?_⟩
  -- `append` reads the trail again, and finds what was read before the write
  unfold perform
  rw [hclaim]
  simp only [hdecide]
  show AuditService.append env (save db decision.saved) t.claimId decision.entry now = .ok db'
  unfold AuditService.append
  rw [Db.findFirst_congr (auditEvents_save db decision.saved), hevent]
  exact hinsert

/-- What a step of a transaction does. -/
structure Advanced (env : Env) (db : Db) (holder : Option ℕ) (t : Tx) (next : Db × Phase) :
    Prop where
  isOpen : t.phase.isOpen = true
  current : Tx.Current env next.1 { t with phase := next.2 }
  holds : next.2.holds = true → t.phase.holds = true ∨ holder = none
  effect : next.1 = db ∧ next.2 ≠ .committed ∨
    next.2 = .committed ∧ t.phase.holds = true ∧
      ∃ now, perform env db t.claimId t.op now = .ok next.1

/-- A step to a phase without the lock, that leaves the database alone. -/
theorem Advanced.quiet {env : Env} {db : Db} {holder : Option ℕ} {t : Tx} {phase : Phase}
    (hopen : t.phase.isOpen = true) (hholds : phase.holds = false) (hne : phase ≠ .committed) :
    Advanced env db holder t (db, phase) := by
  refine ⟨hopen, Tx.current_of_not_holds hholds, ?_, Or.inl ⟨rfl, hne⟩⟩
  intro h
  simp [hholds] at h

/-- A step of a transaction with the lock, that has read or made what the phase says. -/
theorem Advanced.kept {env : Env} {db : Db} {holder : Option ℕ} {t : Tx} {phase : Phase}
    (hholds : t.phase.holds = true) (hcurrent : Tx.Current env db { t with phase := phase })
    (hne : phase ≠ .committed) : Advanced env db holder t (db, phase) :=
  ⟨Phase.isOpen_of_holds hholds, hcurrent, fun _ => Or.inl hholds, Or.inl ⟨rfl, hne⟩⟩

theorem advanced_of_advance {env : Env} {db : Db} {holder : Option ℕ} {t : Tx} {step : TxStep}
    {next : Db × Phase} (hcurrent : t.Current env db)
    (h : advance env db holder t step = some next) : Advanced env db holder t next := by
  cases step with
  | check =>
      simp only [advance, check] at h
      split at h
      · rename_i hphase
        have hopen : t.phase.isOpen = true := by rw [hphase]; rfl
        split at h <;> cases h
        · exact Advanced.quiet hopen rfl (by simp)
        · exact Advanced.quiet hopen rfl (by simp)
      · cases h
  | lock =>
      simp only [advance] at h
      split at h
      · rename_i hready
        have hopen := Tx.isOpen_of_isReadyToLock hready
        split at h
        · -- the claim does not exist: the lock query returns nothing
          cases h
          exact Advanced.quiet hopen rfl (by simp)
        · cases h
          exact ⟨hopen, trivial, fun _ => Or.inr rfl, Or.inl ⟨rfl, by simp⟩⟩
        · cases h
      · cases h
  | readStatus =>
      simp only [advance] at h
      split at h
      · rename_i hphase
        have hholds : t.phase.holds = true := by rw [hphase]; rfl
        split at h
        · cases h
          exact Advanced.quiet (Phase.isOpen_of_holds hholds) rfl (by simp)
        · rename_i claim hclaim
          cases h
          exact Advanced.kept hholds hclaim (by simp)
      · cases h
  | readLatest =>
      simp only [advance] at h
      split at h
      · rename_i claim hphase
        have hholds : t.phase.holds = true := by rw [hphase]; rfl
        split at h
        · cases h
          exact Advanced.quiet (Phase.isOpen_of_holds hholds) rfl (by simp)
        · rename_i decision hdecide
          cases h
          have hclaim : db.findById t.claimId = some claim := by
            unfold Tx.Current at hcurrent
            rwa [hphase] at hcurrent
          exact Advanced.kept hholds ⟨claim, hclaim, hdecide, rfl⟩ (by simp)
      · cases h
  | write now =>
      simp only [advance] at h
      split at h
      · rename_i decision latest hphase
        have hholds : t.phase.holds = true := by rw [hphase]; rfl
        split at h
        · cases h
          exact Advanced.quiet (Phase.isOpen_of_holds hholds) rfl (by simp)
        · rename_i event hevent
          cases h
          unfold Tx.Current at hcurrent
          rw [hphase] at hcurrent
          rcases hcurrent with ⟨claim, hclaim, hdecide, rfl⟩
          exact Advanced.kept hholds ⟨claim, now, hclaim, hdecide, hevent⟩ (by simp)
      · cases h
  | commit =>
      simp only [advance] at h
      split at h
      · rename_i decision event hphase
        have hholds : t.phase.holds = true := by rw [hphase]; rfl
        split at h
        · cases h
          exact Advanced.quiet (Phase.isOpen_of_holds hholds) rfl (by simp)
        · rename_i db' hinsert
          cases h
          -- all the reads are still current, so the commit is the whole operation
          have hperform := perform_of_current hphase hcurrent hinsert
          refine ⟨Phase.isOpen_of_holds hholds, trivial, ?_, Or.inr ⟨rfl, hholds, hperform⟩⟩
          intro hafter
          cases hafter
      · cases h
  | rollback =>
      simp only [advance] at h
      split at h
      · rename_i hopen
        cases h
        exact Advanced.quiet hopen rfl (by simp)
      · cases h

/-! ## The invariant of a world -/

/-- The tables are consistent, a transaction past its lock is the one the lock
table names, what it has read is current, and bulk-loaded claims exist. -/
structure World.Inv (env : Env) (w : World) : Prop where
  consistent : Consistent w.db
  locked : ∀ tx t, w.txs tx = some t → t.phase.holds = true → w.locks t.claimId = some tx
  current : ∀ tx t, w.txs tx = some t → t.Current env w.db
  loaded : ∀ id ∈ w.loaded, (w.db.findById id).isSome

/-- Two transactions that hold the lock on one claim are the same. -/
theorem World.Inv.exclusive {env : Env} {w : World} (h : w.Inv env) {tx tx' : ℕ} {t t' : Tx}
    (ht : w.txs tx = some t) (ht' : w.txs tx' = some t') (hholds : t.phase.holds = true)
    (hholds' : t'.phase.holds = true) (hclaim : t.claimId = t'.claimId) : tx = tx' := by
  have h₁ := h.locked tx t ht hholds
  have h₂ := h.locked tx' t' ht' hholds'
  rw [hclaim, h₂] at h₁
  exact (Option.some.inj h₁).symm

/-- What one step does: an intake or a load that fails changes nothing. -/
inductive Stepped (env : Env) (w : World) : Action → World → Prop where
  | failed (action : Action) : Stepped env w action w
  | created (request : ClaimRequest) (draws : CreateDraws) (db : Db)
      (h : createClaim env w.db request draws = .ok db) :
      Stepped env w (.createClaim request draws) { w with db := db }
  | bulkLoaded (claim : Claim) (db : Db) (hstatus : claim.status = .submitted)
      (h : w.db.insertClaim claim = .ok db) :
      Stepped env w (.bulkLoad claim) { w with db := db, loaded := claim.id :: w.loaded }
  | started (tx : ℕ) (claimId : UUID) (op : Op) (ht : w.txs tx = none) :
      Stepped env w (.start tx claimId op)
        { w with txs := Function.update w.txs tx (some ⟨claimId, op, .begun⟩) }
  | advanced (tx : ℕ) (step : TxStep) (t : Tx) (next : Db × Phase) (ht : w.txs tx = some t)
      (hadvance : advance env w.db (w.locks t.claimId) t step = some next) :
      Stepped env w (.tx tx step) { w.setPhase tx t next.2 with db := next.1 }

theorem stepped_of_step {env : Env} {w w' : World} {action : Action}
    (h : World.step env w action = some w') : Stepped env w action w' := by
  cases action with
  | createClaim request draws =>
      simp only [World.step] at h
      split at h <;> cases h
      · exact .failed _
      · rename_i db hcreate
        exact .created request draws db hcreate
  | bulkLoad claim =>
      simp only [World.step] at h
      split at h
      · rename_i hstatus
        split at h <;> cases h
        · exact .failed _
        · rename_i db hinsert
          exact .bulkLoaded claim db hstatus hinsert
      · cases h
  | start tx claimId op =>
      simp only [World.step] at h
      split at h
      · cases h
      · rename_i ht
        cases h
        exact .started tx claimId op ht
  | tx tx step =>
      simp only [World.step] at h
      split at h
      · cases h
      · rename_i t ht
        rcases Option.map_eq_some_iff.1 h with ⟨next, hadvance, rfl⟩
        exact .advanced tx step t next ht hadvance

/-- The claim an action is about. -/
def World.subject (w : World) : Action → Option UUID
  | .createClaim _ draws => some draws.claimId
  | .bulkLoad claim => some claim.id
  | .start _ claimId _ => some claimId
  | .tx tx _ => (w.txs tx).map Tx.claimId

/-- A step on one claim changes no other claim and no other trail. -/
theorem sameBeyond_of_step {env : Env} {w w' : World} {action : Action} (hinv : w.Inv env)
    (h : World.step env w action = some w') {id : UUID} (hid : w.subject action = some id) :
    SameBeyond id w.db w'.db := by
  cases stepped_of_step h with
  | failed => exact .refl id w.db
  | created request draws db hcreate =>
      cases hid
      exact sameBeyond_of_createClaim hcreate
  | bulkLoaded claim db hstatus hinsert =>
      cases hid
      exact sameBeyond_of_insertClaim hinsert
  | started tx claimId op ht => exact .refl id w.db
  | advanced tx step t next ht hadvance =>
      -- a transaction touches the database at its commit only
      have hadvanced := advanced_of_advance (hinv.current tx t ht) hadvance
      have hid' : t.claimId = id := by simpa [World.subject, ht] using hid
      rcases hadvanced.effect with ⟨hdb, -⟩ | ⟨-, -, now, hperform⟩
      · show SameBeyond id w.db next.1
        rw [hdb]
        exact .refl id w.db
      · rw [← hid']
        exact sameBeyond_of_perform hperform

/-- What one step does to the claims and the audit table. -/
theorem effect_of_step {env : Env} {w w' : World} {action : Action} (hinv : w.Inv env)
    (h : World.step env w action = some w') : ClaimEffect env (fun _ => True) w.db w'.db := by
  cases stepped_of_step h with
  | failed => exact .unchanged rfl rfl
  | created request draws db hcreate => exact .of_createClaim hinv.consistent hcreate
  | bulkLoaded claim db hstatus hinsert =>
      rcases Db.insertClaim_ok hinsert with ⟨amount, hnew, rfl⟩
      exact .loaded { claim with claimAmount := amount } hnew hstatus rfl rfl
  | started tx claimId op ht => exact .unchanged rfl rfl
  | advanced tx step t next ht hadvance =>
      have hadvanced := advanced_of_advance (hinv.current tx t ht) hadvance
      rcases hadvanced.effect with ⟨hdb, -⟩ | ⟨-, -, now, hperform⟩
      · show ClaimEffect env _ w.db next.1
        rw [hdb]
        exact .unchanged rfl rfl
      · exact .of_perform hinv.consistent trivial hperform

/-- A transaction has read nothing of a claim that does not exist. -/
theorem Tx.Current.of_absent {env : Env} {db db' : Db} {t : Tx} (h : t.Current env db)
    (hnew : db.findById t.claimId = none) : t.Current env db' := by
  unfold Tx.Current at h ⊢
  rw [hnew] at h
  -- each phase that has read something has found the claim
  split <;> simp_all

/-- What was read stays current when another claim changes, or a new one appears. -/
theorem Tx.Current.of_sameBeyond {env : Env} {db db' : Db} {t : Tx} {id : UUID}
    (h : t.Current env db) (hsame : SameBeyond id db db')
    (hid : t.claimId = id → db.findById id = none) : t.Current env db' := by
  by_cases heq : t.claimId = id
  · exact h.of_absent (by rw [heq]; exact hid heq)
  · exact h.congr (hsame.claim _ heq) (hsame.trail _ heq)

theorem createClaim_new {env : Env} {db db' : Db} {request : ClaimRequest} {draws : CreateDraws}
    (h : createClaim env db request draws = .ok db') : db.findById draws.claimId = none := by
  rcases createClaim_ok h with ⟨claim, event, row, payload, db₁, db₂, hnew, hid, -⟩
  rwa [hid] at hnew

theorem update_eq_some {txs : ℕ → Option Tx} {tx tx' : ℕ} {t t' : Tx}
    (h : Function.update txs tx (some t) tx' = some t') :
    tx' = tx ∧ t = t' ∨ txs tx' = some t' := by
  by_cases htx : tx' = tx
  · subst htx
    rw [Function.update_self] at h
    exact Or.inl ⟨rfl, Option.some.inj h⟩
  · rw [Function.update_of_ne htx] at h
    exact Or.inr h

/-- The lock table after a step: the transactions that hold a lock hold it still. -/
theorem locked_setPhase {env : Env} {w : World} (hinv : w.Inv env) {tx : ℕ} {t : Tx}
    (ht : w.txs tx = some t) {phase : Phase}
    (hholds : phase.holds = true → t.phase.holds = true ∨ w.locks t.claimId = none) :
    ∀ tx' t', (w.setPhase tx t phase).txs tx' = some t' → t'.phase.holds = true →
      (w.setPhase tx t phase).locks t'.claimId = some tx' := by
  intro tx' t' ht' hholds'
  by_cases htx : tx' = tx
  · -- the transaction itself
    subst htx
    obtain rfl : { t with phase := phase } = t' := by simpa [World.setPhase] using ht'
    have hphase : phase.holds = true := hholds'
    simp [World.setPhase, hphase]
  · have ht'' : w.txs tx' = some t' := by simpa [World.setPhase, htx] using ht'
    have hlock := hinv.locked tx' t' ht'' hholds'
    -- its claim is not the one whose lock moves
    have hother : phase.holds = true ∨ t.phase.holds = true → t'.claimId ≠ t.claimId := by
      intro hmoves heq
      have hnot : t.phase.holds = true → False :=
        fun h => htx (hinv.exclusive ht'' ht hholds' h heq)
      rcases hmoves with hmoves | hmoves
      · rcases hholds hmoves with h | h
        · exact hnot h
        · rw [heq, h] at hlock
          cases hlock
      · exact hnot hmoves
    unfold World.setPhase
    simp only
    split
    · rename_i hphase
      rw [Function.update_of_ne (hother (Or.inl hphase)), hlock]
    · split
      · rename_i hphase
        rw [Function.update_of_ne (hother (Or.inr hphase)), hlock]
      · exact hlock

/-- Every step keeps the invariant. -/
theorem World.Inv.step {env : Env} {w w' : World} {action : Action} (hinv : w.Inv env)
    (h : World.step env w action = some w') : w'.Inv env := by
  have heffect := effect_of_step hinv h
  have hexists := heffect.findById_isSome
  cases stepped_of_step h with
  | failed => exact hinv
  | created request draws db hcreate =>
      refine ⟨heffect.consistent hinv.consistent, hinv.locked, ?_,
        fun id hid => hexists id (hinv.loaded id hid)⟩
      intro tx t ht
      exact (hinv.current tx t ht).of_sameBeyond (sameBeyond_of_createClaim hcreate)
        fun _ => createClaim_new hcreate
  | bulkLoaded claim db hstatus hinsert =>
      rcases Db.insertClaim_ok hinsert with ⟨amount, hnew, hdb⟩
      refine ⟨heffect.consistent hinv.consistent, hinv.locked, ?_, ?_⟩
      · intro tx t ht
        exact (hinv.current tx t ht).of_sameBeyond (sameBeyond_of_insertClaim hinsert) fun _ => hnew
      · intro id hid
        rcases List.mem_cons.1 hid with rfl | hid
        · show (db.findById claim.id).isSome
          rw [hdb, findById_append rfl]
          simp
        · exact hexists id (hinv.loaded id hid)
  | started tx claimId op ht =>
      refine ⟨hinv.consistent, ?_, ?_, hinv.loaded⟩
      · intro tx' t' ht' hholds
        rcases update_eq_some ht' with ⟨-, rfl⟩ | hold
        · cases hholds
        · exact hinv.locked tx' t' hold hholds
      · intro tx' t' ht'
        rcases update_eq_some ht' with ⟨-, rfl⟩ | hold
        · exact Tx.current_of_not_holds rfl
        · exact hinv.current tx' t' hold
  | advanced tx step t next ht hadvance =>
      have hadvanced := advanced_of_advance (hinv.current tx t ht) hadvance
      refine ⟨heffect.consistent hinv.consistent, locked_setPhase hinv ht hadvanced.holds, ?_,
        fun id hid => hexists id (hinv.loaded id hid)⟩
      intro tx' t' ht'
      by_cases htx : tx' = tx
      · subst htx
        obtain rfl : { t with phase := next.2 } = t' := by simpa [World.setPhase] using ht'
        exact hadvanced.current
      · have ht'' : w.txs tx' = some t' := by simpa [World.setPhase, htx] using ht'
        have hcurrent := hinv.current tx' t' ht''
        rcases hadvanced.effect with ⟨hdb, -⟩ | ⟨-, hholds, now, hperform⟩
        · show t'.Current env next.1
          rw [hdb]
          exact hcurrent
        · cases hholds' : t'.phase.holds with
          | false => exact Tx.current_of_not_holds hholds'
          | true =>
              -- the other holder has another claim
              have hne : t'.claimId ≠ t.claimId :=
                fun heq => htx (hinv.exclusive ht'' ht hholds' hholds heq)
              exact hcurrent.of_sameBeyond (sameBeyond_of_perform hperform)
                fun heq => absurd heq hne

theorem World.inv_of_reachable {env : Env} {w : World} (h : (concurrent env).Reachable w) :
    w.Inv env := by
  refine h.invariant (I := fun w => w.Inv env) ?_ fun _ _ _ hinv hstep => hinv.step hstep
  rintro w ⟨hclaims, hevents, hloaded, htxs, -⟩
  refine ⟨consistent_of_init hclaims hevents, ?_, ?_, ?_⟩
  · intro tx t ht
    simp [htxs] at ht
  · intro tx t ht
    simp [htxs] at ht
  · simp [hloaded]

/-! ## A sample interleaving -/

namespace Sample

/-- Nothing stored and nothing running. -/
def idle : World := ⟨Db.empty, fun _ => none, fun _ => none, []⟩

theorem idle_init : (concurrent env).init idle := ⟨rfl, rfl, rfl, fun _ => rfl, fun _ => rfl⟩

/-- A delivered score that flags the claim. -/
def delivery : Op := .score (some ⟨9000, 4⟩) (some "FLAG") none none (some "v1")

/-- An investigator approves the flagged claim. -/
def approval : Op := .transition .approved (some "documents checked") "ines" .investigator

/-- What a transaction does from its lock on. -/
def fromLock (tx : ℕ) : List Action :=
  [.tx tx .lock, .tx tx .readStatus, .tx tx .readLatest, .tx tx (.write now), .tx tx .commit]

/-- One score delivered twice, both deliveries passing the check, and an approval
that starts between them. -/
def interleaving : List Action :=
  [.createClaim request draws, .start 0 ⟨1⟩ delivery, .start 1 ⟨1⟩ delivery, .tx 0 .check,
    .tx 1 .check] ++ fromLock 0 ++ [.start 2 ⟨1⟩ approval] ++ fromLock 1 ++ fromLock 2

/-- The world the interleaving ends in. -/
def interleaved : World := ((concurrent env).run idle interleaving).getD idle

theorem run_interleaving : (concurrent env).run idle interleaving = some interleaved := by
  have hsome : ((concurrent env).run idle interleaving).isSome = true := by decide +kernel
  exact (Option.getD_of_ne_none (Option.isSome_iff_ne_none.1 hsome) idle).symm

end Sample

end ClaimGuard
