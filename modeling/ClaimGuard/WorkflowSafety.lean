import ClaimGuard.Runs

/-!
# Workflow safety

Review is never skipped, flags are overturned by investigators only, final
statuses are final, and the system moves a claim out of its initial status only:
properties of every trail in every reachable state.
-/

namespace ClaimGuard

open AuditService ClaimService

/-- An event that brings a claim into a status it was not in. -/
def Enters (e : ClaimAuditEvent) (status : ClaimStatus) : Prop :=
  e.toStatus = some status ∧ e.fromStatus ≠ e.toStatus

/-- What the workflow guarantees about a claim and its trail. -/
structure WorkflowSafe (claim : Claim) (trail : List ClaimAuditEvent) : Prop where
  /-- A decided claim entered its decision after it entered a review or a flag. -/
  reviewed : claim.status = .approved ∨ claim.status = .denied →
    ∃ before review between decision after,
      trail = before ++ review :: (between ++ decision :: after) ∧
        (Enters review .underReview ∨ Enters review .flagged) ∧ Enters decision claim.status
  /-- Who leaves the flagged status, and how it is overridden. -/
  unflagged : ∀ e ∈ trail, e.fromStatus = some .flagged → e.toStatus ≠ some .flagged →
    e.actorRole = .investigator ∧
      (e.toStatus = some .approved → e.eventType = .humanOverride ∧
        ∃ reason, e.reason = some reason ∧ isBlank reason = false)
  /-- No event leaves a final status. -/
  final : ∀ e ∈ trail, e.fromStatus = some .approved ∨ e.fromStatus = some .denied →
    e.toStatus = e.fromStatus
  /-- What the system does to a status, creation apart. -/
  bySystem : ∀ e ∈ trail, e.fromStatus ≠ e.toStatus → e.actorRole = .system →
    e.eventType ≠ .claimCreated → e.eventType = .fraudScored ∧ e.fromStatus = some .submitted

/-- An event that moves a claim after its creation. -/
def Moves (e : ClaimAuditEvent) : Prop := e.eventType ≠ .claimCreated ∧ e.fromStatus ≠ e.toStatus

/-- The inductive invariant: the guarantees, with what they rest on in statuses
that are not final. -/
structure WorkflowInvariant (claim : Claim) (trail : List ClaimAuditEvent) : Prop where
  safe : WorkflowSafe claim trail
  opened : claim.status = .underReview ∨ claim.status = .flagged →
    ∃ review ∈ trail, Enters review .underReview ∨ Enters review .flagged
  moved : (∃ e ∈ trail, Moves e) → claim.status ≠ .submitted

/-- What a decision that changes the status was allowed by. -/
theorem decideOp_moves {op : Op} {claim : Claim} {decision : Decision} {toStatus : ClaimStatus}
    (h : decideOp op claim = .ok decision) (hto : decision.entry.toStatus = some toStatus)
    (hne : toStatus ≠ claim.status) :
    ClaimTransitions.isAllowed claim.status toStatus decision.entry.actorRole = true ∧
      (claim.status = .flagged → toStatus = .approved → decision.entry.eventType = .humanOverride ∧
        ∃ reason, decision.entry.reason = some reason ∧ isBlank reason = false) ∧
      (op.byPeople = true → decision.entry.actorRole = .system →
        decision.entry.eventType = .fraudScored) := by
  cases op with
  | transition target reason actorId actorRole =>
      simp only [decideOp, decideTransition, Results.guard_eq_ok, Results.pure_eq_ok] at h
      rcases h with ⟨-, hallowed, hreason, rfl⟩
      obtain rfl : target = toStatus := Option.some.inj hto
      refine ⟨by simpa using hallowed, ?_, ?_⟩
      · intro hflagged happroved
        have hneeds : ClaimTransitions.requiresReason claim.status target = true :=
          ClaimTransitions.requiresReason_iff.2 ⟨hflagged, happroved⟩
        cases reason with
        | none => simp [hneeds] at hreason
        | some text =>
            refine ⟨by simp [hneeds], text, rfl, ?_⟩
            simpa [hneeds] using hreason
      · intro hpeople hsystem
        have hsystem' : actorRole = .system := hsystem
        simp [Op.byPeople, hsystem'] at hpeople
  | score fraudScore decisionHint ringId explanationJson modelVersion =>
      rcases Results.pure_eq_ok.1 h with rfl
      simp only [decideScore] at hto ⊢
      generalize (if decisionHint = some "FLAG" then ClaimStatus.flagged else .underReview) = target
        at hto ⊢
      cases hmoves : ClaimTransitions.isAllowed claim.status target .system with
      | false =>
          rw [hmoves] at hto
          exact absurd (Option.some.inj hto).symm hne
      | true =>
          rw [hmoves] at hto
          obtain rfl : target = toStatus := Option.some.inj hto
          refine ⟨hmoves, ?_, fun _ _ => trivial⟩
          intro hflagged
          -- the system is not allowed to leave the flagged status
          have := ClaimTransitions.isAllowed_flagged (hflagged ▸ hmoves)
          cases this
  | narrative narrative grounded modelVersion actorId actorRole =>
      rcases Results.pure_eq_ok.1 h with rfl
      exact absurd (Option.some.inj hto).symm hne

/-- A created claim satisfies the invariant. -/
theorem workflowInvariant_created {claim : Claim} {row : ClaimAuditEvent}
    (hstatus : claim.status = .submitted)
    (hrow : NextRow claim.id none (createdEntry .submitted) row) :
    WorkflowInvariant claim [row] := by
  have hfrom : row.fromStatus = none := hrow.fromStatus_eq
  have htype : row.eventType = .claimCreated := hrow.eventType_eq
  have honly : ∀ e ∈ [row], e = row := fun e he => List.mem_singleton.1 he
  -- the one event comes from no status, so only its type has to be looked at
  constructor
  · constructor
    · intro h
      simp [hstatus] at h
    · intro e he h
      rw [honly e he, hfrom] at h
      cases h
    · intro e he h
      rw [honly e he, hfrom] at h
      simp at h
    · intro e he _ _ h
      rw [honly e he] at h
      exact absurd htype h
  · intro h
    simp [hstatus] at h
  · rintro ⟨e, he, hmoves, -⟩
    rw [honly e he] at hmoves
    exact absurd htype hmoves

theorem mem_append_row {trail : List ClaimAuditEvent} {row e : ClaimAuditEvent} :
    e ∈ trail ++ [row] ↔ e ∈ trail ∨ e = row := by
  rw [List.mem_append, List.mem_singleton]

/-- An event that moves nothing keeps the invariant: the status and every earlier witness
stay. -/
theorem WorkflowInvariant.stay {claim claim' : Claim} {trail : List ClaimAuditEvent}
    {row : ClaimAuditEvent} (h : WorkflowInvariant claim trail)
    (hstatus : claim'.status = claim.status) (hstay : row.toStatus = row.fromStatus) :
    WorkflowInvariant claim' (trail ++ [row]) := by
  constructor
  · constructor
    · intro hdecided
      rw [hstatus] at hdecided
      obtain ⟨before, review, between, final, after, rfl, hreview, hfinal⟩ :=
        h.safe.reviewed hdecided
      refine ⟨before, review, between, final, after ++ [row], by simp, hreview, ?_⟩
      rw [hstatus]
      exact hfinal
    · intro e he hflagged hleaves
      rcases mem_append_row.1 he with he | rfl
      · exact h.safe.unflagged e he hflagged hleaves
      · exact absurd (hstay.trans hflagged) hleaves
    · intro e he hfinal
      rcases mem_append_row.1 he with he | rfl
      · exact h.safe.final e he hfinal
      · exact hstay
    · intro e he hchanges
      rcases mem_append_row.1 he with he | rfl
      · exact h.safe.bySystem e he hchanges
      · exact absurd hstay.symm hchanges
  · intro hopen
    rw [hstatus] at hopen
    rcases h.opened hopen with ⟨review, hreview, henters⟩
    exact ⟨review, mem_append_row.2 (Or.inl hreview), henters⟩
  · rintro ⟨e, he, hmoves⟩
    rw [hstatus]
    rcases mem_append_row.1 he with he | rfl
    · exact h.moved ⟨e, he, hmoves⟩
    · exact absurd hstay.symm hmoves.2

/-- A move keeps the invariant: the transition map says from where and by whom. -/
theorem WorkflowInvariant.move {claim claim' : Claim} {trail : List ClaimAuditEvent}
    {row : ClaimAuditEvent} (h : WorkflowInvariant claim trail)
    (hallowed : ClaimTransitions.isAllowed claim.status claim'.status row.actorRole = true)
    (hfrom : row.fromStatus = some claim.status) (hto : row.toStatus = some claim'.status)
    (hmove : claim'.status ≠ claim.status)
    (hoverride : claim.status = .flagged → claim'.status = .approved →
      row.eventType = .humanOverride ∧ ∃ reason, row.reason = some reason ∧ isBlank reason = false)
    (hsystem : row.actorRole = .system → row.eventType = .fraudScored) :
    WorkflowInvariant claim' (trail ++ [row]) := by
  rcases ClaimTransitions.isAllowed_spec hallowed with ⟨-, -, hnotApproved, hnotDenied⟩
  have henters : Enters row claim'.status := by
    refine ⟨hto, ?_⟩
    rw [hfrom, hto]
    intro heq
    exact hmove (Option.some.inj heq).symm
  constructor
  · constructor
    · intro hdecided
      -- a decision is reached from a status that was entered before
      have hopen := ClaimTransitions.isAllowed_decision hallowed hdecided
      rcases h.opened hopen with ⟨review, hreview, hreviewEnters⟩
      rcases List.append_of_mem hreview with ⟨before, after, rfl⟩
      exact ⟨before, review, after, row, [], by simp, hreviewEnters, henters⟩
    · intro e he hflagged hleaves
      rcases mem_append_row.1 he with he | rfl
      · exact h.safe.unflagged e he hflagged hleaves
      · rw [hfrom] at hflagged
        have hclaim : claim.status = .flagged := Option.some.inj hflagged
        rw [hclaim] at hallowed
        refine ⟨ClaimTransitions.isAllowed_flagged hallowed, ?_⟩
        intro happroved
        rw [hto] at happroved
        exact hoverride hclaim (Option.some.inj happroved)
    · intro e he hfinal
      rcases mem_append_row.1 he with he | rfl
      · exact h.safe.final e he hfinal
      · rw [hfrom] at hfinal
        rcases hfinal with hfinal | hfinal
        · exact absurd (Option.some.inj hfinal) hnotApproved
        · exact absurd (Option.some.inj hfinal) hnotDenied
    · intro e he hchanges hrole htype
      rcases mem_append_row.1 he with he | rfl
      · exact h.safe.bySystem e he hchanges hrole htype
      · rw [hrole] at hallowed
        refine ⟨hsystem hrole, ?_⟩
        rw [hfrom, (ClaimTransitions.isAllowed_system hallowed).1]
  · intro hopen
    refine ⟨row, mem_append_row.2 (Or.inr rfl), ?_⟩
    rcases hopen with hopen | hopen
    · exact Or.inl (hopen ▸ henters)
    · exact Or.inr (hopen ▸ henters)
  · rintro - hsubmitted
    -- no transition leads back to the initial status
    rw [hsubmitted] at hallowed
    revert hallowed
    cases claim.status <;> cases row.actorRole <;> decide

/-- Appending what a decision records keeps the invariant. -/
theorem workflowInvariant_appended {claim : Claim} {trail : List ClaimAuditEvent} {op : Op}
    {decision : Decision} {row : ClaimAuditEvent} (hop : op.byPeople = true)
    (hdecide : decideOp op claim = .ok decision)
    (hrow : NextRow claim.id trail.getLast? decision.entry row)
    (h : WorkflowInvariant claim trail) :
    WorkflowInvariant (decision.saved.getD claim) (trail ++ [row]) := by
  rcases decideOp_statuses hdecide with ⟨hfrom, hto⟩
  have hrowFrom : row.fromStatus = some claim.status := by rw [hrow.fromStatus_eq, hfrom]
  have hrowTo : row.toStatus = some (decision.saved.getD claim).status := by
    rw [hrow.toStatus_eq, hto]
  by_cases hmove : (decision.saved.getD claim).status = claim.status
  · exact h.stay hmove (by rw [hrowTo, hrowFrom, hmove])
  · rcases decideOp_moves hdecide hto hmove with ⟨hallowed, hoverride, hsystem⟩
    apply h.move _ hrowFrom hrowTo hmove
    · rw [hrow.eventType_eq, hrow.reason_eq]
      exact hoverride
    · rw [hrow.actorRole_eq, hrow.eventType_eq]
      exact hsystem hop
    · rw [hrow.actorRole_eq]
      exact hallowed

/-- The invariant holds of every claim in every reachable state. -/
theorem workflowInvariant_of_reachable {env : Env} {db : Db}
    (h : ((service env).restrict Call.byPeople).Reachable db) :
    Consistent db ∧ ∀ claim ∈ db.claims, WorkflowInvariant claim (db.eventsOf claim.id) := by
  refine forall_claims_of_reachable (P := WorkflowInvariant)
    (fun _ op _ hop => (hop : op.byPeople = true)) ?_ ?_ ?_ h
  · intro claim event row now hstatus hevent hrow
    exact workflowInvariant_created hstatus (nextRow_of_stored hevent hrow)
  · intro claim trail op decision event row now hop hdecide hevent hrow hinv
    exact workflowInvariant_appended hop hdecide (nextRow_of_stored hevent hrow) hinv
  · intro claim hstatus
    refine ⟨⟨?_, ?_, ?_, ?_⟩, ?_, ?_⟩ <;> simp [hstatus]

/-- A scoring message leaves the status of a claim alone unless it is the initial
one. -/
theorem applyScore_status {env : Env} {db db' : Db} {claim : Claim}
    {fraudScore : Option BigDecimal} {decisionHint ringId : Option String}
    {explanationJson : Option RawJson} {modelVersion : Option String} {now : Instant}
    (hclaim : db.findById claim.id = some claim) (hstatus : claim.status ≠ .submitted)
    (h : applyScore env db claim.id fraudScore decisionHint ringId explanationJson modelVersion
      now = .ok db') : db'.findById claim.id = some claim := by
  unfold applyScore at h
  split at h
  · rcases Results.pure_eq_ok.1 h with rfl
    exact hclaim
  · rcases perform_ok h with ⟨claim', decision, event, row, hfind, hdecide, -, -, -, rfl⟩
    obtain rfl : claim' = claim := Option.some.inj (hfind.symm.trans hclaim)
    -- the system may move a claim out of its initial status only
    have hsaved : decision.saved = none := by
      rcases Results.pure_eq_ok.1 hdecide with rfl
      simp only [decideScore]
      rw [if_neg]
      intro hallowed
      exact hstatus (ClaimTransitions.isAllowed_system hallowed).1
    rw [hsaved]
    exact hclaim

/-- In every state that creating, moving by people, scoring and narrating lead to
from a database without claims, every claim is safe, and no scoring message
changes the status of a claim that has been moved. -/
theorem workflow_safety (env : Env) (db : Db)
    (h : ((service env).restrict Call.byPeople).Reachable db) :
    ∀ claim ∈ db.claims,
      WorkflowSafe claim (db.findByClaimIdOrderBySeq claim.id) ∧
        ((∃ e ∈ db.findByClaimIdOrderBySeq claim.id, Moves e) →
          ∀ fraudScore decisionHint ringId explanationJson modelVersion now db',
            applyScore env db claim.id fraudScore decisionHint ringId explanationJson modelVersion
              now = .ok db' → db'.findById claim.id = some claim) := by
  intro claim hclaim
  rcases workflowInvariant_of_reachable h with ⟨hc, hinv⟩
  rw [hc.findByClaimIdOrderBySeq_eq]
  refine ⟨(hinv claim hclaim).safe, ?_⟩
  intro hmoved fraudScore decisionHint ringId explanationJson modelVersion now db' hscore
  exact applyScore_status (hc.findById_of_mem hclaim) ((hinv claim hclaim).moved hmoved) hscore

/-- A score that flags the sample claim. -/
def Sample.flag : Call :=
  .onClaim ⟨1⟩ (.score (some ⟨9, 1⟩) (some "FLAG") none none (some "v1")) Sample.now

/-- An investigator overrides the flag. -/
def Sample.override : Call :=
  .onClaim ⟨1⟩ (.transition .approved (some "documents checked") "ivy" .investigator) Sample.now

/-- The sample claim, flagged and then approved. -/
def Sample.overridden : Db := serve Sample.env (serve Sample.env Sample.created flag) override

theorem workflow_safety_overridden :
    Sample.overridden.claims.map Claim.status = [.approved] ∧
      ∀ claim ∈ Sample.overridden.claims,
        WorkflowSafe claim (Sample.overridden.findByClaimIdOrderBySeq claim.id) := by
  have hrun : ((service Sample.env).restrict Call.byPeople).run Db.empty
      [.createClaim Sample.request Sample.draws, Sample.flag, Sample.override] =
      some Sample.overridden := rfl
  refine ⟨by decide +kernel, ?_⟩
  intro claim hclaim
  exact (workflow_safety Sample.env Sample.overridden
    ⟨Db.empty, _, Sample.created_init, hrun⟩ claim hclaim).1

end ClaimGuard
