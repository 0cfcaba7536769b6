import ClaimGuard.ClaimService

/-!
# Claims and their trails

What one step of the service can do to the claims and the audit table, said once
(`ClaimEffect`), the consistency of the two tables that every step keeps
(`Consistent`), and the induction rule that follows: a property of one claim and
its trail holds in every reachable state when creating, loading and appending
keep it (`ClaimEffect.forall_claims`).
-/

namespace ClaimGuard

open AuditService ClaimService

/-! ## The next row of a trail -/

/-- The row that goes on top of `previous` and records `entry`: everything but
what the storage may change. -/
structure NextRow (claimId : UUID) (previous : Option ClaimAuditEvent) (entry : AuditEntry)
    (row : ClaimAuditEvent) : Prop where
  claimId_eq : row.claimId = claimId
  seq_eq : row.seq = (previous.map ClaimAuditEvent.seq).getD 0 + 1
  prevHash_eq : row.prevHash = (previous.map ClaimAuditEvent.hash).getD genesisHash
  eventType_eq : row.eventType = entry.eventType
  fromStatus_eq : row.fromStatus = entry.fromStatus
  toStatus_eq : row.toStatus = entry.toStatus
  actorRole_eq : row.actorRole = entry.actorRole
  reason_eq : row.reason = entry.reason
  modelVersion_eq : row.modelVersion = entry.modelVersion

/-- Storing the next event gives the next row. -/
theorem nextRow_of_stored {env : Env} {claimId : UUID} {previous : Option ClaimAuditEvent}
    {entry : AuditEntry} {now : Instant} {event row : ClaimAuditEvent}
    (hevent : nextEvent env claimId previous entry now = .ok event)
    (hrow : Db.storeAuditEvent env event = .ok row) : NextRow claimId previous entry row := by
  rcases nextEvent_ok hevent with ⟨json, -, rfl⟩
  rcases Db.storeAuditEvent_ok hrow with ⟨-, -, hrow⟩
  rw [hrow]
  -- the first row has number 1 and continues the genesis hash
  cases previous with
  | none =>
      constructor <;> simp only [sealEvent, draftEvent, Option.map_none, Option.getD_none]
      rfl
  | some p => constructor <;> simp only [sealEvent, draftEvent, Option.map_some, Option.getD_some]

/-! ## Consistency -/

/-- The numbers `1..n`. -/
def numbers (n : ℕ) : List ℤ := (List.range n).map fun i : ℕ => (i : ℤ) + 1

theorem numbers_succ (n : ℕ) : numbers (n + 1) = numbers n ++ [(n : ℤ) + 1] := by
  simp [numbers, List.range_succ]

/-- Claims have distinct ids, every audit row belongs to a claim, and each claim's
rows are numbered `1..n` in the order of the table. -/
structure Consistent (db : Db) : Prop where
  uniqueIds : Table.UniqueKeys Claim.id db.claims
  owned : ∀ e ∈ db.auditEvents, (db.findById e.claimId).isSome
  numbered : ∀ id, (db.eventsOf id).map ClaimAuditEvent.seq = numbers (db.eventsOf id).length

namespace Consistent

variable {db : Db} (h : Consistent db)

include h

/-- The rows of a claim are strictly ascending. -/
theorem pairwise_seq (id : UUID) : (db.eventsOf id).Pairwise fun a b => a.seq < b.seq := by
  have hnum : (numbers (db.eventsOf id).length).Pairwise (· < ·) := by
    unfold numbers
    rw [List.pairwise_map]
    exact List.pairwise_lt_range.imp fun hij => by omega
  rw [← h.numbered id, List.pairwise_map] at hnum
  exact hnum

/-- Reading the trail in the order of `seq` is reading the table. -/
theorem findByClaimIdOrderBySeq_eq (id : UUID) :
    db.findByClaimIdOrderBySeq id = db.eventsOf id :=
  List.Pairwise.insertionSort_eq ((h.pairwise_seq id).imp fun hlt => le_of_lt hlt)

/-- The latest event is the last row. -/
theorem findFirst_eq (id : UUID) :
    db.findFirstByClaimIdOrderBySeqDesc id = (db.eventsOf id).getLast? := by
  have hdesc : (db.eventsOf id).reverse.Pairwise fun a b => b.seq ≤ a.seq := by
    rw [List.pairwise_reverse]
    exact (h.pairwise_seq id).imp fun hlt => le_of_lt hlt
  have hsorted : ((db.eventsOf id).insertionSort fun a b => b.seq ≤ a.seq).Pairwise
      fun a b => b.seq ≤ a.seq := by
    have : Std.Total (fun a b : ClaimAuditEvent => b.seq ≤ a.seq) :=
      ⟨fun a b => le_total b.seq a.seq⟩
    have : IsTrans ClaimAuditEvent (fun a b => b.seq ≤ a.seq) :=
      ⟨fun _ _ _ hab hbc => le_trans hbc hab⟩
    exact List.pairwise_insertionSort _ _
  have hnodup : ((db.eventsOf id).map ClaimAuditEvent.seq).Nodup := by
    rw [List.Nodup, List.pairwise_map]
    exact (h.pairwise_seq id).imp fun hlt => ne_of_lt hlt
  have hperm := (List.perm_insertionSort (fun a b : ClaimAuditEvent => b.seq ≤ a.seq)
    (db.eventsOf id)).trans (List.reverse_perm (db.eventsOf id)).symm
  have heq : (db.eventsOf id).insertionSort (fun a b => b.seq ≤ a.seq) =
      (db.eventsOf id).reverse := by
    -- both are descending orders of one table, and no two rows have one number
    refine hperm.eq_of_pairwise ?_ hsorted hdesc
    intro a b ha hb hab hba
    have ha' : a ∈ db.eventsOf id := (List.perm_insertionSort _ _).mem_iff.1 ha
    have hb' : b ∈ db.eventsOf id := List.mem_reverse.1 hb
    exact List.inj_on_of_nodup_map hnodup ha' hb' (le_antisymm hba hab)
  unfold Db.findFirstByClaimIdOrderBySeqDesc
  rw [heq, List.head?_reverse]

/-- A claim that does not exist has no trail. -/
theorem eventsOf_eq_nil {id : UUID} (hid : db.findById id = none) : db.eventsOf id = [] := by
  rw [Db.eventsOf, List.filter_eq_nil_iff]
  -- a row would have an owner
  intro e he heq
  have howner := h.owned e he
  rw [of_decide_eq_true heq, hid] at howner
  cases howner

theorem findById_of_mem {claim : Claim} (hc : claim ∈ db.claims) :
    db.findById claim.id = some claim :=
  Table.find_of_mem h.uniqueIds hc

/-- The last number is the length of the trail. -/
theorem getLast_seq (id : UUID) :
    (((db.eventsOf id).getLast?.map ClaimAuditEvent.seq).getD 0) = (db.eventsOf id).length := by
  have hnum := h.numbered id
  rcases List.eq_nil_or_concat' (db.eventsOf id) with hnil | ⟨l, e, hl⟩
  · simp [hnil]
  · rw [hl] at hnum ⊢
    rw [List.map_append, List.length_append, List.length_singleton, numbers_succ] at hnum
    have hlast := List.append_inj_right' hnum (by simp)
    simpa using hlast

end Consistent

/-! ## What a step can do -/

/-- What one step does to the claims and the audit table: nothing, create a claim
with its first event, load a claim without one, or append an event to the trail
of a claim after deciding, from its row, what to save and to record. `ok` bounds
the operations. -/
inductive ClaimEffect (env : Env) (ok : Op → Prop) (db db' : Db) : Prop where
  | unchanged (hclaims : db'.claims = db.claims) (hevents : db'.auditEvents = db.auditEvents)
  | created (claim : Claim) (event row : ClaimAuditEvent) (now : Instant)
      (hnew : db.findById claim.id = none) (hstatus : claim.status = .submitted)
      (hevent : nextEvent env claim.id none (createdEntry .submitted) now = .ok event)
      (hrow : Db.storeAuditEvent env event = .ok row)
      (hclaims : db'.claims = db.claims ++ [claim])
      (hevents : db'.auditEvents = db.auditEvents ++ [row])
  | loaded (claim : Claim) (hnew : db.findById claim.id = none)
      (hstatus : claim.status = .submitted) (hclaims : db'.claims = db.claims ++ [claim])
      (hevents : db'.auditEvents = db.auditEvents)
  | appended (claim : Claim) (op : Op) (decision : Decision) (event row : ClaimAuditEvent)
      (now : Instant) (hop : ok op) (hclaim : db.findById claim.id = some claim)
      (hdecide : decideOp op claim = .ok decision)
      (hevent : nextEvent env claim.id (db.eventsOf claim.id).getLast? decision.entry now =
        .ok event)
      (hrow : Db.storeAuditEvent env event = .ok row) (hdup : db.isDuplicateScore event = false)
      (hclaims : db'.claims = (save db decision.saved).claims)
      (hevents : db'.auditEvents = db.auditEvents ++ [row])

/-- A performed operation appends. -/
theorem ClaimEffect.of_perform {env : Env} {ok : Op → Prop} {db db' : Db} {claimId : UUID} {op : Op}
    {now : Instant} (hc : Consistent db) (hop : ok op)
    (h : perform env db claimId op now = .ok db') :
    ClaimEffect env ok db db' := by
  rcases perform_ok h with ⟨claim, decision, event, row, hclaim, hdecide, hevent, hrow, hdup, rfl⟩
  rcases (Table.find_eq_some hclaim).2 with rfl
  rw [hc.findFirst_eq] at hevent
  exact .appended claim op decision event row now hop hclaim hdecide hevent hrow hdup rfl rfl

/-- Creating a claim creates it with its first event. -/
theorem ClaimEffect.of_createClaim {env : Env} {ok : Op → Prop} {db db' : Db}
    {request : ClaimRequest} {draws : CreateDraws} (hc : Consistent db)
    (h : createClaim env db request draws = .ok db') : ClaimEffect env ok db db' := by
  obtain ⟨claim, event, row, payload, db₁, db₂, hnew, -, hstatus, -, hdb₁, hresolve, hevent, hrow,
    -, hdb'⟩ := createClaim_ok h
  rcases EntityService.sameBeyondEntities_resolveAndLink hresolve with ⟨hclaims, -, -⟩
  rw [hc.findFirst_eq, hc.eventsOf_eq_nil hnew] at hevent
  refine .created claim event row draws.occurredAt hnew hstatus hevent hrow ?_ ?_
  · rw [hdb', hclaims, hdb₁]
  · rw [hdb']

/-! ## Trails after a step -/

theorem eventsOf_congr {db db' : Db} (h : db'.auditEvents = db.auditEvents) (id : UUID) :
    db'.eventsOf id = db.eventsOf id := by
  rw [Db.eventsOf, Db.eventsOf, h]

theorem findById_congr {db db' : Db} (h : db'.claims = db.claims) (id : UUID) :
    db'.findById id = db.findById id := by
  rw [Db.findById, Db.findById, h]

/-- A new row extends the trail of its claim. -/
theorem eventsOf_append {db db' : Db} {row : ClaimAuditEvent}
    (h : db'.auditEvents = db.auditEvents ++ [row]) (id : UUID) :
    db'.eventsOf id = if row.claimId = id then db.eventsOf id ++ [row] else db.eventsOf id := by
  unfold Db.eventsOf
  rw [h, List.filter_append]
  by_cases hid : row.claimId = id <;> simp [hid]

/-- A new claim is found under its id. -/
theorem findById_append {db db' : Db} {claim : Claim} (h : db'.claims = db.claims ++ [claim])
    (id : UUID) :
    db'.findById id = (db.findById id).or (if claim.id = id then some claim else none) := by
  unfold Db.findById
  rw [h, Table.find_append_singleton]

/-- The claim row after a decision: the decided status under the claim's own id,
every other row as before. -/
theorem findById_save {db db' : Db} {op : Op} {claim : Claim} {decision : Decision}
    (hclaim : db.findById claim.id = some claim) (hdecide : decideOp op claim = .ok decision)
    (h : db'.claims = (save db decision.saved).claims) (id : UUID) :
    db'.findById id =
      if id = claim.id then some (decision.saved.getD claim) else db.findById id := by
  unfold Db.findById at hclaim ⊢
  rw [h]
  -- a decision saves the claim in its new status or not at all
  rcases decideOp_ok hdecide with ⟨toStatus, -, -, hsaved | ⟨hsaved, -⟩⟩
  · rw [hsaved]
    exact Table.find_save db.claims { claim with status := toStatus } id
  · rw [hsaved]
    by_cases hid : id = claim.id
    · rw [if_pos hid, hid]
      exact hclaim
    · rw [if_neg hid]
      rfl

/-- A decision keeps the id of the claim. -/
theorem saved_id {op : Op} {claim : Claim} {decision : Decision}
    (hdecide : decideOp op claim = .ok decision) : (decision.saved.getD claim).id = claim.id := by
  rcases decideOp_ok hdecide with ⟨toStatus, -, -, hsaved | ⟨hsaved, -⟩⟩ <;> rw [hsaved] <;> rfl

theorem uniqueIds_append {db db' : Db} {claim : Claim} (hc : Consistent db)
    (hnew : db.findById claim.id = none) (h : db'.claims = db.claims ++ [claim]) :
    Table.UniqueKeys Claim.id db'.claims := by
  have := Table.uniqueKeys_save hc.uniqueIds claim
  rwa [Table.save_of_find_none hnew, ← h] at this

theorem uniqueIds_save {db db' : Db} {saved : Option Claim} (hc : Consistent db)
    (h : db'.claims = (save db saved).claims) : Table.UniqueKeys Claim.id db'.claims := by
  rw [h]
  cases saved with
  | none => exact hc.uniqueIds
  | some claim => exact Table.uniqueKeys_save hc.uniqueIds claim

/-- The trail stays numbered when the next row goes on top. -/
theorem numbered_append {db : Db} (hc : Consistent db) {id : UUID} {entry : AuditEntry}
    {row : ClaimAuditEvent} (hrow : NextRow id (db.eventsOf id).getLast? entry row) :
    (db.eventsOf id ++ [row]).map ClaimAuditEvent.seq =
      numbers (db.eventsOf id ++ [row]).length := by
  rw [List.map_append, List.length_append, List.length_singleton, numbers_succ, hc.numbered id]
  simp only [List.map_cons, List.map_nil, hrow.seq_eq, hc.getLast_seq]

/-- One more row keeps every trail numbered. -/
theorem numbered_of_append {db db' : Db} (hc : Consistent db) {claimId : UUID}
    {entry : AuditEntry} {row : ClaimAuditEvent}
    (hrow : NextRow claimId (db.eventsOf claimId).getLast? entry row)
    (hevents : db'.auditEvents = db.auditEvents ++ [row]) (id : UUID) :
    (db'.eventsOf id).map ClaimAuditEvent.seq = numbers (db'.eventsOf id).length := by
  rw [eventsOf_append hevents]
  by_cases hid : row.claimId = id
  · have hid' : id = claimId := by rw [← hid, hrow.claimId_eq]
    subst hid'
    rw [if_pos hid]
    exact numbered_append hc hrow
  · rw [if_neg hid]
    exact hc.numbered id

/-- Every step keeps the tables consistent. -/
theorem ClaimEffect.consistent {env : Env} {ok : Op → Prop} {db db' : Db}
    (h : ClaimEffect env ok db db') (hc : Consistent db) : Consistent db' := by
  cases h with
  | unchanged hclaims hevents =>
      refine ⟨by rw [hclaims]; exact hc.uniqueIds, ?_, ?_⟩
      · intro e he
        rw [findById_congr hclaims]
        exact hc.owned e (hevents ▸ he)
      · intro id
        rw [eventsOf_congr hevents]
        exact hc.numbered id
  | created claim event row now hnew hstatus hevent hrow hclaims hevents =>
      have hnext := nextRow_of_stored hevent hrow
      refine ⟨uniqueIds_append hc hnew hclaims, ?_, ?_⟩
      · intro e he
        rw [findById_append hclaims]
        rw [hevents] at he
        rcases List.mem_append.1 he with he | he
        · simp [hc.owned e he]
        · simp [List.mem_singleton.1 he, hnext.claimId_eq]
      · -- a new claim has no rows yet, so its first event has number 1
        have hlast : (db.eventsOf claim.id).getLast? = none := by
          rw [hc.eventsOf_eq_nil hnew]
          rfl
        rw [← hlast] at hnext
        exact numbered_of_append hc hnext hevents
  | loaded claim hnew hstatus hclaims hevents =>
      refine ⟨uniqueIds_append hc hnew hclaims, ?_, ?_⟩
      · intro e he
        rw [findById_append hclaims]
        simp [hc.owned e (hevents ▸ he)]
      · intro id
        rw [eventsOf_congr hevents]
        exact hc.numbered id
  | appended claim op decision event row now hop hclaim hdecide hevent hrow hdup hclaims hevents =>
      have hnext := nextRow_of_stored hevent hrow
      refine ⟨uniqueIds_save hc hclaims, ?_, ?_⟩
      · intro e he
        -- saving replaces a claim, so no row loses its owner
        rw [findById_save hclaim hdecide hclaims]
        rw [hevents] at he
        split
        · rfl
        · rename_i hne
          rcases List.mem_append.1 he with he | he
          · exact hc.owned e he
          · rw [List.mem_singleton.1 he, hnext.claimId_eq] at hne
            exact absurd rfl hne
      · exact numbered_of_append hc hnext hevents

/-- No step removes a claim. -/
theorem ClaimEffect.findById_isSome {env : Env} {ok : Op → Prop} {db db' : Db}
    (h : ClaimEffect env ok db db') (id : UUID) (hid : (db.findById id).isSome) :
    (db'.findById id).isSome := by
  cases h with
  | unchanged hclaims hevents => rwa [findById_congr hclaims]
  | created claim event row now hnew hstatus hevent hrow hclaims hevents =>
      rw [findById_append hclaims, Option.isSome_or, hid, Bool.true_or]
  | loaded claim hnew hstatus hclaims hevents =>
      rw [findById_append hclaims, Option.isSome_or, hid, Bool.true_or]
  | appended claim op decision event row now hop hclaim hdecide hevent hrow hdup hclaims hevents =>
      rw [findById_save hclaim hdecide hclaims]
      split
      · rfl
      · exact hid

/-! ## Properties of one claim -/

/-- The rule for properties of a claim and its trail: a step keeps them of all
claims when it gives them to a new claim and keeps them of the claim it appends
to. `P` may become `Q` across the step. -/
theorem ClaimEffect.forall_claims {env : Env} {ok : Op → Prop} {db db' : Db}
    {P Q : Claim → List ClaimAuditEvent → Prop} (h : ClaimEffect env ok db db')
    (hc : Consistent db)
    (hkeep : ∀ claim ∈ db.claims, P claim (db.eventsOf claim.id) → Q claim (db.eventsOf claim.id))
    (hcreated : ∀ claim event row now, db.findById claim.id = none → claim.status = .submitted →
      db'.claims = db.claims ++ [claim] → db'.auditEvents = db.auditEvents ++ [row] →
      nextEvent env claim.id none (createdEntry .submitted) now = .ok event →
      Db.storeAuditEvent env event = .ok row → Q claim [row])
    (hloaded : ∀ claim, db.findById claim.id = none → claim.status = .submitted →
      db'.claims = db.claims ++ [claim] → db'.auditEvents = db.auditEvents → Q claim [])
    (happended : ∀ claim op decision event row now, ok op → claim ∈ db.claims →
      decideOp op claim = .ok decision →
      nextEvent env claim.id (db.eventsOf claim.id).getLast? decision.entry now = .ok event →
      Db.storeAuditEvent env event = .ok row → db.isDuplicateScore event = false →
      Q claim (db.eventsOf claim.id) →
      Q (decision.saved.getD claim) (db.eventsOf claim.id ++ [row]))
    (hP : ∀ claim ∈ db.claims, P claim (db.eventsOf claim.id)) :
    ∀ claim ∈ db'.claims, Q claim (db'.eventsOf claim.id) := by
  have hc' := h.consistent hc
  intro claim hmem
  have hfind := hc'.findById_of_mem hmem
  have hold : ∀ c, db.findById c.id = some c → Q c (db.eventsOf c.id) := by
    intro c hcfind
    have hcmem := (Table.find_eq_some hcfind).1
    exact hkeep c hcmem (hP c hcmem)
  -- every claim but the one the step is about keeps its row and its trail
  cases h with
  | unchanged hclaims hevents =>
      rw [findById_congr hclaims] at hfind
      rw [eventsOf_congr hevents]
      exact hold claim hfind
  | created claim' event row now hnew hstatus hevent hrow hclaims hevents =>
      have hnext := nextRow_of_stored hevent hrow
      rw [findById_append hclaims] at hfind
      rw [eventsOf_append hevents, hnext.claimId_eq]
      by_cases hid : claim'.id = claim.id
      · rw [← hid, hnew, if_pos rfl] at hfind
        obtain rfl : claim' = claim := by simpa using hfind
        rw [if_pos rfl, hc.eventsOf_eq_nil hnew]
        exact hcreated claim' event row now hnew hstatus hclaims hevents hevent hrow
      · rw [if_neg hid, Option.or_none] at hfind
        rw [if_neg hid]
        exact hold claim hfind
  | loaded claim' hnew hstatus hclaims hevents =>
      rw [findById_append hclaims] at hfind
      rw [eventsOf_congr hevents]
      by_cases hid : claim'.id = claim.id
      · rw [← hid, hnew, if_pos rfl] at hfind
        obtain rfl : claim' = claim := by simpa using hfind
        rw [hc.eventsOf_eq_nil hnew]
        exact hloaded claim' hnew hstatus hclaims hevents
      · rw [if_neg hid, Option.or_none] at hfind
        exact hold claim hfind
  | appended claim' op decision event row now hop hclaim hdecide hevent hrow hdup hclaims hevents =>
      have hnext := nextRow_of_stored hevent hrow
      rw [findById_save hclaim hdecide hclaims] at hfind
      rw [eventsOf_append hevents, hnext.claimId_eq]
      by_cases hid : claim.id = claim'.id
      · rw [if_pos hid] at hfind
        rcases Option.some.inj hfind with rfl
        rw [if_pos hid.symm, hid]
        exact happended claim' op decision event row now hop (Table.find_eq_some hclaim).1 hdecide
          hevent hrow hdup (hold claim' hclaim)
      · rw [if_neg hid] at hfind
        rw [if_neg (fun heq => hid heq.symm)]
        exact hold claim hfind

end ClaimGuard
