import ClaimGuard.Domain

/-!
# The transition map

`ClaimTransitions`: the one legal transition map for a claim's lifecycle.
-/

namespace ClaimGuard

namespace ClaimTransitions

/-- A pair of statuses. -/
structure Transition where
  source : ClaimStatus
  target : ClaimStatus
deriving DecidableEq, Repr

/-- `ALLOWED_ROLES`. -/
def allowedRoles : List (Transition × List ActorRole) :=
  [(⟨.submitted, .underReview⟩, [.adjuster, .system]),
    (⟨.submitted, .flagged⟩, [.system]),
    (⟨.underReview, .flagged⟩, [.adjuster]),
    (⟨.underReview, .approved⟩, [.adjuster]),
    (⟨.underReview, .denied⟩, [.adjuster]),
    (⟨.flagged, .underReview⟩, [.investigator]),
    (⟨.flagged, .denied⟩, [.investigator]),
    (⟨.flagged, .approved⟩, [.investigator])]

/-- Transitions that override the fraud model's flag and must carry a reason. -/
def requiresReasonSet : List Transition := [⟨.flagged, .approved⟩]

/-- Whether a pair is a legal transition for any role. -/
def isDefined (fromStatus toStatus : ClaimStatus) : Bool :=
  (allowedRoles.lookup ⟨fromStatus, toStatus⟩).isSome

/-- Whether a role may move a claim from one status directly to another. -/
def isAllowed (fromStatus toStatus : ClaimStatus) (actorRole : ActorRole) : Bool :=
  match allowedRoles.lookup ⟨fromStatus, toStatus⟩ with
  | none => false
  | some roles => roles.contains actorRole

/-- Whether a transition must be justified with a reason. -/
def requiresReason (fromStatus toStatus : ClaimStatus) : Bool :=
  requiresReasonSet.contains ⟨fromStatus, toStatus⟩

/-- An allowed transition is a defined one that moves the claim out of a status
that is not final. -/
theorem isAllowed_spec {s t : ClaimStatus} {r : ActorRole} (h : isAllowed s t r = true) :
    isDefined s t = true ∧ s ≠ t ∧ s ≠ .approved ∧ s ≠ .denied := by
  revert h
  cases s <;> cases t <;> cases r <;> decide

/-- The system moves a claim out of the initial status only. -/
theorem isAllowed_system {s t : ClaimStatus} (h : isAllowed s t .system = true) :
    s = .submitted ∧ (t = .underReview ∨ t = .flagged) := by
  revert h
  cases s <;> cases t <;> decide

/-- Only an investigator moves a claim out of the flagged status. -/
theorem isAllowed_flagged {t : ClaimStatus} {r : ActorRole}
    (h : isAllowed .flagged t r = true) : r = .investigator := by
  revert h
  cases t <;> cases r <;> decide

/-- An auditor is listed for no transition. -/
theorem isAllowed_auditor {s t : ClaimStatus} : isAllowed s t .auditor = false := by
  cases s <;> cases t <;> decide

/-- A decision is reached from a review or from a flag. -/
theorem isAllowed_decision {s t : ClaimStatus} {r : ActorRole} (h : isAllowed s t r = true)
    (ht : t = .approved ∨ t = .denied) : s = .underReview ∨ s = .flagged := by
  revert h ht
  cases s <;> cases t <;> cases r <;> decide

/-- The one transition that needs a reason overturns a flag. -/
theorem requiresReason_iff {s t : ClaimStatus} :
    requiresReason s t = true ↔ s = .flagged ∧ t = .approved := by
  cases s <;> cases t <;> decide

end ClaimTransitions

end ClaimGuard
