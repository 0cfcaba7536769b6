import ClaimGuard.WorkflowSafety

/-!
# How a flag is cleared

The transition map demands a reason of one transition, the override of a flag. A flagged
claim can also be approved in two steps that need none: an investigator returns it to
review, and an adjuster approves it.
-/

namespace ClaimGuard

open AuditService ClaimService

/-- An event that changes the status and gives a reason that is not blank. -/
def Justified (e : ClaimAuditEvent) : Prop :=
  e.fromStatus ≠ e.toStatus ∧ ∃ reason, e.reason = some reason ∧ isBlank reason = false

/-- An investigator returns a flagged claim to review. -/
def Released (e : ClaimAuditEvent) : Prop :=
  e.fromStatus = some .flagged ∧ e.toStatus = some .underReview ∧ e.actorRole = .investigator

/-- An adjuster approves a claim that is in review. -/
def Approves (e : ClaimAuditEvent) : Prop :=
  e.fromStatus = some .underReview ∧ e.toStatus = some .approved ∧ e.actorRole = .adjuster

/-- What comes after a flag of an approved claim: a reason, or a release and later an
approval. -/
def Cleared (after : List ClaimAuditEvent) : Prop :=
  (∃ e ∈ after, Justified e) ∨
    ∃ before release between approval rest,
      after = before ++ release :: (between ++ approval :: rest) ∧
        Released release ∧ Approves approval

theorem Cleared.append {after : List ClaimAuditEvent} (h : Cleared after) (row : ClaimAuditEvent) :
    Cleared (after ++ [row]) := by
  rcases h with ⟨e, he, hjustified⟩ | ⟨before, release, between, approval, rest, rfl, hr, ha⟩
  · exact Or.inl ⟨e, List.mem_append_left _ he, hjustified⟩
  · exact Or.inr ⟨before, release, between, approval, rest ++ [row], by simp, hr, ha⟩

/-- Where a claim can be that was flagged, by what came after its last flag. -/
inductive SinceFlag (after : List ClaimAuditEvent) : ClaimStatus → Prop where
  | flagged : SinceFlag after .flagged
  | denied : SinceFlag after .denied
  | underReview (h : ∃ e ∈ after, Released e) : SinceFlag after .underReview
  | approved (h : Cleared after) : SinceFlag after .approved

theorem SinceFlag.append {after : List ClaimAuditEvent} {status : ClaimStatus}
    (h : SinceFlag after status) (row : ClaimAuditEvent) : SinceFlag (after ++ [row]) status := by
  cases h with
  | flagged => exact .flagged
  | denied => exact .denied
  | underReview h =>
      rcases h with ⟨e, he, hreleased⟩
      exact .underReview ⟨e, List.mem_append_left _ he, hreleased⟩
  | approved h => exact .approved (h.append row)

/-- The last flag of a trail, and what comes after it. -/
def LastFlag (trail after : List ClaimAuditEvent) : Prop :=
  ∃ before flag, trail = before ++ flag :: after ∧ Enters flag .flagged ∧
    ∀ e ∈ after, ¬ Enters e .flagged

/-- The last flag after an event was appended: the event, or the last flag before. -/
theorem LastFlag.of_append {trail after : List ClaimAuditEvent} {row : ClaimAuditEvent}
    (h : LastFlag (trail ++ [row]) after) :
    (Enters row .flagged ∧ after = []) ∨
      ∃ rest, after = rest ++ [row] ∧ LastFlag trail rest ∧ ¬ Enters row .flagged := by
  rcases h with ⟨before, flag, heq, hflag, hafter⟩
  rcases List.eq_nil_or_concat' after with rfl | ⟨rest, last, rfl⟩
  · rcases List.append_inj' heq rfl with ⟨-, hrow⟩
    rw [List.singleton_inj.1 hrow]
    exact Or.inl ⟨hflag, rfl⟩
  · have heq' : trail ++ [row] = (before ++ flag :: rest) ++ [last] := by
      rw [heq]
      simp
    rcases List.append_inj' heq' rfl with ⟨htrail, hrow⟩
    obtain rfl : row = last := List.singleton_inj.1 hrow
    refine Or.inr ⟨rest, rfl, ⟨before, flag, htrail, hflag, fun e he => ?_⟩, ?_⟩
    · exact hafter e (List.mem_append_left _ he)
    · exact hafter row (List.mem_append_right _ (List.mem_singleton_self row))

/-- A move of a claim that was flagged. -/
theorem SinceFlag.move {after : List ClaimAuditEvent} {row : ClaimAuditEvent}
    {status toStatus : ClaimStatus} (h : SinceFlag after status)
    (hallowed : ClaimTransitions.isAllowed status toStatus row.actorRole = true)
    (hfrom : row.fromStatus = some status) (hto : row.toStatus = some toStatus)
    (hoverride : status = .flagged → toStatus = .approved → Justified row) :
    SinceFlag (after ++ [row]) toStatus := by
  have hrow : row ∈ after ++ [row] := List.mem_append_right _ (List.mem_singleton_self row)
  cases h with
  | flagged =>
      cases toStatus with
      | submitted => exact absurd hallowed (by cases row.actorRole <;> decide)
      | underReview =>
          exact .underReview ⟨row, hrow, hfrom, hto, ClaimTransitions.isAllowed_flagged hallowed⟩
      | flagged => exact .flagged
      | approved => exact .approved (Or.inl ⟨row, hrow, hoverride rfl rfl⟩)
      | denied => exact .denied
  | denied => exact absurd rfl (ClaimTransitions.isAllowed_spec hallowed).2.2.2
  | underReview hreleased =>
      cases toStatus with
      | submitted => exact absurd hallowed (by cases row.actorRole <;> decide)
      | underReview => exact absurd rfl (ClaimTransitions.isAllowed_spec hallowed).2.1
      | flagged => exact .flagged
      | approved =>
          -- the release came before, the approval is the new event
          have hadjuster : row.actorRole = .adjuster := by
            revert hallowed
            cases row.actorRole <;> decide
          rcases hreleased with ⟨release, hmem, hrelease⟩
          rcases List.append_of_mem hmem with ⟨before, between, rfl⟩
          exact .approved (Or.inr ⟨before, release, between, row, [], by simp, hrelease, hfrom, hto,
            hadjuster⟩)
      | denied => exact .denied
  | approved => exact absurd rfl (ClaimTransitions.isAllowed_spec hallowed).2.2.1

/-- What a claim's status says about the events since its last flag. -/
def FlagInvariant (claim : Claim) (trail : List ClaimAuditEvent) : Prop :=
  ∀ after, LastFlag trail after → SinceFlag after claim.status

theorem flagInvariant_appended {claim : Claim} {trail : List ClaimAuditEvent} {op : Op}
    {decision : Decision} {row : ClaimAuditEvent} (hdecide : decideOp op claim = .ok decision)
    (hrow : NextRow claim.id trail.getLast? decision.entry row)
    (h : FlagInvariant claim trail) :
    FlagInvariant (decision.saved.getD claim) (trail ++ [row]) := by
  rcases decideOp_statuses hdecide with ⟨hfrom, hto⟩
  have hrowFrom : row.fromStatus = some claim.status := by rw [hrow.fromStatus_eq, hfrom]
  have hrowTo : row.toStatus = some (decision.saved.getD claim).status := by
    rw [hrow.toStatus_eq, hto]
  intro after hlast
  rcases hlast.of_append with ⟨henters, rfl⟩ | ⟨rest, rfl, hrest, -⟩
  · have hflagged : (decision.saved.getD claim).status = .flagged :=
      Option.some.inj (hrowTo.symm.trans henters.1)
    rw [hflagged]
    exact .flagged
  · by_cases hmove : (decision.saved.getD claim).status = claim.status
    · rw [hmove]
      exact (h rest hrest).append row
    · rcases decideOp_moves hdecide hto hmove with ⟨hallowed, hoverride, -⟩
      rw [← hrow.actorRole_eq] at hallowed
      apply (h rest hrest).move hallowed hrowFrom hrowTo
      intro hflagged happroved
      rcases (hoverride hflagged happroved).2 with ⟨reason, hreason, hblank⟩
      refine ⟨?_, reason, by rw [hrow.reason_eq, hreason], hblank⟩
      rw [hrowFrom, hrowTo]
      exact fun heq => hmove (Option.some.inj heq).symm

/-- In every state that creating, moving by anyone, scoring and narrating lead to: after
the last flag of an approved claim there is a reason, or an investigator's release and
later an adjuster's approval. -/
theorem approved_flag_cleared (env : Env) (db : Db) (h : (service env).Reachable db) :
    ∀ claim ∈ db.claims, claim.status = .approved →
      ∀ after, LastFlag (db.findByClaimIdOrderBySeq claim.id) after → Cleared after := by
  have hreachable : ((service env).restrict fun _ => true).Reachable db := by
    rwa [Lts.restrict_true]
  have hinv := forall_claims_of_reachable (A := fun _ => True) (P := FlagInvariant)
    (fun _ _ _ _ => trivial) ?_ ?_ ?_ hreachable
  · intro claim hclaim hstatus after hlast
    rw [hinv.1.findByClaimIdOrderBySeq_eq] at hlast
    have hsince := hinv.2 claim hclaim after hlast
    rw [hstatus] at hsince
    cases hsince with
    | approved hcleared => exact hcleared
  · intro claim event row now _ hevent hrow after hlast
    -- the event of a created claim enters its initial status
    have hto := (nextRow_of_stored hevent hrow).toStatus_eq
    have hfirst : LastFlag ([] ++ [row]) after := hlast
    rcases hfirst.of_append with ⟨henters, -⟩ | ⟨rest, -, hrest, -⟩
    · rw [henters.1] at hto
      cases hto
    · rcases hrest with ⟨before, flag, hnil, -, -⟩
      exact absurd hnil (by simp)
  · intro claim trail op decision event row now _ hdecide hevent hrow
    exact flagInvariant_appended hdecide (nextRow_of_stored hevent hrow)
  · rintro claim - after ⟨before, flag, hnil, -, -⟩
    exact absurd hnil (by simp)

namespace Sample

/-- An investigator returns the flagged claim to review without a reason. -/
def release : Call := .onClaim ⟨1⟩ (.transition .underReview none "ivy" .investigator) now

/-- An adjuster approves it without a reason. -/
def approve : Call := .onClaim ⟨1⟩ (.transition .approved none "adam" .adjuster) now

/-- The sample claim, flagged, returned to review and approved. -/
def laundered : Db := serve env (serve env (serve env created flag) release) approve

theorem reachable_laundered : (service env).Reachable laundered :=
  ⟨Db.empty, [.createClaim request draws, flag, release, approve], created_init, rfl⟩

/-- Two events follow the flag, and neither gives a reason. -/
theorem lastFlag_laundered : ∃ after, LastFlag (laundered.findByClaimIdOrderBySeq ⟨1⟩) after ∧
    ∀ e ∈ after, e.reason = none := by
  have hrows : (laundered.findByClaimIdOrderBySeq ⟨1⟩).map
      (fun e => (e.fromStatus, e.toStatus, e.reason)) =
      [(none, some .submitted, none), (some .submitted, some .flagged, none),
        (some .flagged, some .underReview, none), (some .underReview, some .approved, none)] := by
    decide +kernel
  simp only [List.map_eq_cons_iff, List.map_eq_nil_iff, Prod.mk.injEq] at hrows
  obtain ⟨created, -, htrail, -, flag, -, rfl, hflag, release, -, rfl, hrelease, approval, -, rfl,
    happroval, rfl⟩ := hrows
  refine ⟨[release, approval], ⟨[created], flag, htrail, ⟨hflag.2.1, ?_⟩, ?_⟩, ?_⟩
  · rw [hflag.1, hflag.2.1]
    decide
  · intro e he henters
    have hto := henters.1
    rcases List.mem_cons.1 he with rfl | he
    · rw [hrelease.2.1] at hto
      cases hto
    · rw [List.mem_singleton.1 he, happroval.2.1] at hto
      cases hto
  · intro e he
    rcases List.mem_cons.1 he with rfl | he
    · exact hrelease.2.2
    · rw [List.mem_singleton.1 he]
      exact happroval.2.2

theorem approved_laundered : ∃ claim ∈ laundered.claims, claim.id = ⟨1⟩ ∧
    claim.status = .approved := by
  decide +kernel

end Sample

/-- The claim that was approved by way of a release is cleared. -/
theorem cleared_laundered : ∃ after,
    LastFlag (Sample.laundered.findByClaimIdOrderBySeq ⟨1⟩) after ∧ Cleared after := by
  rcases Sample.approved_laundered with ⟨claim, hclaim, hid, hstatus⟩
  rcases Sample.lastFlag_laundered with ⟨after, hlast, -⟩
  exact ⟨after, hlast, approved_flag_cleared Sample.env Sample.laundered Sample.reachable_laundered
    claim hclaim hstatus after (hid ▸ hlast)⟩

/-- An approved claim whose flag was cleared without any reason. -/
theorem laundered_without_reason : ¬ ∀ db, (service Sample.env).Reachable db →
    ∀ claim ∈ db.claims, claim.status = .approved →
      ∀ after, LastFlag (db.findByClaimIdOrderBySeq claim.id) after →
        ∃ e ∈ after, Justified e := by
  intro hall
  rcases Sample.approved_laundered with ⟨claim, hclaim, hid, hstatus⟩
  rcases Sample.lastFlag_laundered with ⟨after, hlast, hnone⟩
  rcases hall _ Sample.reachable_laundered claim hclaim hstatus after (hid ▸ hlast)
    with ⟨e, he, -, reason, hreason, -⟩
  rw [hnone e he] at hreason
  cases hreason

end ClaimGuard
