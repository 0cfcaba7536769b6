import Mathlib.Data.List.Chain
import ClaimGuard.Concurrent

/-!
# Audit replay

In every interleaving a claim's trail is numbered without a gap, tells one history
of its status, and ends in the status the claim has.
-/

namespace ClaimGuard

open AuditService ClaimService

/-- A trail tells one history of the claim's status: it starts at the claim's
creation, or at `SUBMITTED` when the claim was bulk-loaded, each event starts where
the one before it ended, and the claim is where the last one ended. -/
structure Replays (loaded : Prop) (claim : Claim) (trail : List ClaimAuditEvent) : Prop where
  linked : trail.IsChain fun a b => b.fromStatus = a.toStatus
  created : ¬ loaded → ∃ first, trail.head? = some first ∧ first.eventType = .claimCreated ∧
    first.fromStatus = none ∧ first.toStatus = some .submitted
  loaded : loaded → ∀ first, trail.head? = some first → first.fromStatus = some .submitted
  last : (trail.getLast?.map ClaimAuditEvent.toStatus).getD (some .submitted) = some claim.status

theorem replays_created {claim : Claim} {row : ClaimAuditEvent} {loaded : Prop}
    (hstatus : claim.status = .submitted) (hnot : ¬ loaded)
    (hrow : NextRow claim.id none (createdEntry .submitted) row) : Replays loaded claim [row] := by
  refine ⟨List.isChain_singleton _, ?_, fun h => absurd h hnot, ?_⟩
  · intro _
    exact ⟨row, rfl, hrow.eventType_eq, hrow.fromStatus_eq, hrow.toStatus_eq⟩
  · simp [hrow.toStatus_eq, createdEntry, hstatus]

theorem replays_loaded {claim : Claim} {loaded : Prop} (hstatus : claim.status = .submitted)
    (hloaded : loaded) : Replays loaded claim [] := by
  refine ⟨List.isChain_nil, fun h => absurd hloaded h, ?_, ?_⟩
  · intro _ first hfirst
    cases hfirst
  · simp [hstatus]

/-- Appending what was decided from the claim's status continues the history. -/
theorem replays_appended {claim : Claim} {trail : List ClaimAuditEvent} {loaded : Prop} {op : Op}
    {decision : Decision} {row : ClaimAuditEvent} (hdecide : decideOp op claim = .ok decision)
    (hrow : NextRow claim.id trail.getLast? decision.entry row) (h : Replays loaded claim trail) :
    Replays loaded (decision.saved.getD claim) (trail ++ [row]) := by
  rcases decideOp_statuses hdecide with ⟨hfrom, hto⟩
  have hrowFrom : row.fromStatus = some claim.status := by rw [hrow.fromStatus_eq, hfrom]
  constructor
  -- the event starts at the status of the claim, where the trail ended
  · apply h.linked.append (List.isChain_singleton row)
    intro latest hlatest first hfirst
    obtain rfl : row = first := by simpa using hfirst
    have hlast := h.last
    rw [Option.mem_def.1 hlatest, Option.map_some, Option.getD_some] at hlast
    rw [hrowFrom, hlast]
  · intro hnot
    rcases h.created hnot with ⟨first, hfirst, hrest⟩
    exact ⟨first, by rw [List.head?_append, hfirst, Option.some_or], hrest⟩
  · intro hloaded first hfirst
    cases htrail : trail with
    | nil =>
        -- the first event of a loaded claim leaves the status it was loaded with
        have hlast := h.last
        rw [htrail] at hfirst hlast
        obtain rfl : row = first := by simpa using hfirst
        rw [hrowFrom]
        exact hlast.symm
    | cons e es =>
        rw [htrail] at hfirst
        exact h.loaded hloaded first (by rw [htrail]; exact hfirst)
  · rw [List.getLast?_append, List.getLast?_singleton, Option.some_or, Option.map_some,
      Option.getD_some, hrow.toStatus_eq, hto]

/-- A claim that appears without an event was loaded. -/
theorem mem_loaded_of_step {env : Env} {w w' : World} {action : Action} (hinv : w.Inv env)
    (h : World.step env w action = some w') {claim : Claim}
    (hclaims : w'.db.claims = w.db.claims ++ [claim])
    (hevents : w'.db.auditEvents = w.db.auditEvents) : claim.id ∈ w'.loaded := by
  cases stepped_of_step h with
  | failed => exact absurd hclaims (by simp)
  | created request draws db hcreate =>
      obtain ⟨claim, event, row, payload, db₁, db₂, -, -, -, -, -, -, -, -, -, hdb⟩ :=
        createClaim_ok hcreate
      -- every other step that adds a claim adds an event, too
      have happend : db.auditEvents = w.db.auditEvents ++ [row] := by rw [hdb]
      exact absurd (happend.symm.trans hevents) (by simp)
  | bulkLoaded claim' db hstatus hinsert =>
      rcases Db.insertClaim_ok hinsert with ⟨amount, -, rfl⟩
      obtain rfl : { claim' with claimAmount := amount } = claim := by simpa using hclaims
      exact List.mem_cons_self
  | started tx claimId op ht => exact absurd hclaims (by simp)
  | advanced tx step t next ht hadvance =>
      have hadvanced := advanced_of_advance (hinv.current tx t ht) hadvance
      rcases hadvanced.effect with ⟨hdb, -⟩ | ⟨-, -, now, hperform⟩
      · have hsame : next.1.claims = w.db.claims := by rw [hdb]
        exact absurd (hsame.symm.trans hclaims) (by simp)
      · rcases perform_ok hperform with ⟨_, _, event, row, -, -, -, -, -, hdb⟩
        have happend : next.1.auditEvents = w.db.auditEvents ++ [row] := by rw [hdb]
        exact absurd (happend.symm.trans hevents) (by simp)

/-- One step keeps every claim's history. -/
theorem replays_of_step {env : Env} {w w' : World} {action : Action} (hinv : w.Inv env)
    (h : World.step env w action = some w')
    (hreplays : ∀ claim ∈ w.db.claims,
      Replays (claim.id ∈ w.loaded) claim (w.db.eventsOf claim.id)) :
    ∀ claim ∈ w'.db.claims, Replays (claim.id ∈ w'.loaded) claim (w'.db.eventsOf claim.id) := by
  have hinv' := hinv.step h
  have heffect := effect_of_step hinv h
  -- what is loaded is loaded already, unless the step loads it
  have hloaded : ∀ id, (w.db.findById id).isSome → (id ∈ w'.loaded ↔ id ∈ w.loaded) := by
    intro id hid
    cases stepped_of_step h with
    | bulkLoaded claim db hstatus hinsert =>
        rcases Db.insertClaim_ok hinsert with ⟨amount, hnew, -⟩
        have hne : id ≠ claim.id := by
          rintro rfl
          rw [hnew] at hid
          cases hid
        simp [hne]
    | _ => exact Iff.rfl
  refine heffect.forall_claims
    (P := fun claim trail => Replays (claim.id ∈ w.loaded) claim trail)
    (Q := fun claim trail => Replays (claim.id ∈ w'.loaded) claim trail)
    hinv.consistent ?_ ?_ ?_ ?_ hreplays
  · intro claim hclaim hP
    have hfind := hinv.consistent.findById_of_mem hclaim
    rwa [hloaded claim.id (by rw [hfind]; rfl)]
  · intro claim event row now hnew hstatus hclaims hevents hevent hrow
    refine replays_created hstatus ?_ (nextRow_of_stored hevent hrow)
    intro hmem
    cases stepped_of_step h with
    | bulkLoaded claim' db hstatus' hinsert =>
        -- a load adds no event
        rcases Db.insertClaim_ok hinsert with ⟨amount, -, rfl⟩
        exact absurd hevents (by simp)
    | _ =>
        have hsome := hinv.loaded claim.id hmem
        rw [hnew] at hsome
        cases hsome
  · intro claim hnew hstatus hclaims hevents
    exact replays_loaded hstatus (mem_loaded_of_step hinv h hclaims hevents)
  · intro claim op decision event row now _ _ hdecide hevent hrow _ hP
    have hsaved := saved_id hdecide
    show Replays ((decision.saved.getD claim).id ∈ w'.loaded) _ _
    rw [hsaved]
    exact replays_appended hdecide (nextRow_of_stored hevent hrow) hP

theorem replays_of_run {env : Env} {w : World} (h : (concurrent env).Reachable w) :
    ∀ claim ∈ w.db.claims, Replays (claim.id ∈ w.loaded) claim (w.db.eventsOf claim.id) := by
  have hboth : w.Inv env ∧ ∀ claim ∈ w.db.claims,
      Replays (claim.id ∈ w.loaded) claim (w.db.eventsOf claim.id) := by
    refine h.invariant (I := fun w => w.Inv env ∧ ∀ claim ∈ w.db.claims,
      Replays (claim.id ∈ w.loaded) claim (w.db.eventsOf claim.id)) ?_ ?_
    · intro w hinit
      refine ⟨World.inv_of_reachable (.of_init hinit), ?_⟩
      intro claim hclaim
      rw [hinit.1] at hclaim
      cases hclaim
    · intro w action w' hinv hstep
      exact ⟨hinv.1.step hstep, replays_of_step hinv.1 hstep hinv.2⟩
  exact hboth.2

/-- In every interleaving: trails belong to claims, are numbered `1..n` and tell
one history of the claim's status, and a step on one claim leaves every other
claim and its trail alone. -/
theorem audit_replay (env : Env) (w : World) (h : (concurrent env).Reachable w) :
    (∀ e ∈ w.db.auditEvents, ∃ claim ∈ w.db.claims, claim.id = e.claimId) ∧
      (∀ claim ∈ w.db.claims,
        (w.db.findByClaimIdOrderBySeq claim.id).map ClaimAuditEvent.seq =
            numbers (w.db.findByClaimIdOrderBySeq claim.id).length ∧
          Replays (claim.id ∈ w.loaded) claim (w.db.findByClaimIdOrderBySeq claim.id)) ∧
      ∀ action w' id, World.step env w action = some w' → w.subject action = some id →
        SameBeyond id w.db w'.db := by
  have hinv := World.inv_of_reachable h
  refine ⟨?_, ?_, ?_⟩
  · intro e he
    exact Table.find_isSome.1 (hinv.consistent.owned e he)
  · intro claim hclaim
    rw [hinv.consistent.findByClaimIdOrderBySeq_eq]
    exact ⟨hinv.consistent.numbered claim.id, replays_of_run h claim hclaim⟩
  · intro action w' id hstep hid
    exact sameBeyond_of_step hinv hstep hid

/-- The trail of the sample interleaving has three events and one history. -/
theorem audit_replay_interleaved :
    (Sample.interleaved.db.findByClaimIdOrderBySeq ⟨1⟩).length = 3 ∧
      ∀ claim ∈ Sample.interleaved.db.claims,
        Replays (claim.id ∈ Sample.interleaved.loaded) claim
          (Sample.interleaved.db.findByClaimIdOrderBySeq claim.id) := by
  have hreach : (concurrent Sample.env).Reachable Sample.interleaved :=
    ⟨Sample.idle, Sample.interleaving, Sample.idle_init, Sample.run_interleaving⟩
  refine ⟨by decide +kernel, ?_⟩
  intro claim hclaim
  exact ((audit_replay Sample.env Sample.interleaved hreach).2.1 claim hclaim).2

end ClaimGuard
