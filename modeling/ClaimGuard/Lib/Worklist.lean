import Mathlib.Algebra.Order.Archimedean.Basic
import Mathlib.Algebra.Order.BigOperators.Group.List
import Mathlib.Logic.Function.Iterate

/-!
# Worklists

A loop takes from a worklist until it is empty. An iteration makes the worklist shorter
or counts a unit of work that may make it longer. When the work is bounded, the loop ends.
-/

namespace Worklist

variable {σ : Type*}

/-- A loop whose iterations shorten the worklist or count work, with a bound on the work,
empties its worklist. -/
theorem exists_iterate_empty {step : σ → σ} {size work : σ → ℕ} {bound : ℕ}
    (hprogress : ∀ s, size s ≠ 0 →
      (work (step s) = work s ∧ size (step s) < size s) ∨ work (step s) = work s + 1)
    {s : σ} (hbound : ∀ k, work (step^[k] s) ≤ bound) :
    ∃ k, size (step^[k] s) = 0 ∧ ∀ j < k, size (step^[j] s) ≠ 0 := by
  -- first on the work that is left, then on the size of the worklist
  induction hleft : bound - work s using Nat.strong_induction_on generalizing s with
  | h left ihwork =>
      induction hsize : size s using Nat.strong_induction_on generalizing s with
      | h n ihsize =>
          by_cases hn : size s = 0
          · exact ⟨0, hn, fun j hj => absurd hj (Nat.not_lt_zero j)⟩
          · have hbound' : ∀ k, work (step^[k] (step s)) ≤ bound := fun k => hbound (k + 1)
            have hnext : ∃ k, size (step^[k] (step s)) = 0 ∧
                ∀ j < k, size (step^[j] (step s)) ≠ 0 := by
              rcases hprogress s hn with ⟨hwork, hlt⟩ | hwork
              · exact ihsize _ (hsize ▸ hlt) hbound' (hwork ▸ hleft) rfl
              · have hle : work (step s) ≤ bound := hbound 1
                exact ihwork _ (by omega) hbound' rfl
            rcases hnext with ⟨k, hempty, hbefore⟩
            refine ⟨k + 1, hempty, fun j hj => ?_⟩
            cases j with
            | zero => exact hn
            | succ j => exact hbefore j (by omega)

/-- Units of work that cost at least `least` each, within a total `budget`, are boundedly
many. -/
theorem exists_length_bound {F : Type*} [Field F] [LinearOrder F] [IsStrictOrderedRing F]
    [Archimedean F] {least : F} (hleast : 0 < least) (budget : F) :
    ∃ bound : ℕ, ∀ costs : List F, (∀ cost ∈ costs, least ≤ cost) → costs.sum < budget →
      costs.length ≤ bound := by
  rcases exists_nat_ge (budget / least) with ⟨bound, hbound⟩
  refine ⟨bound, fun costs hcosts hsum => ?_⟩
  have hpaid : costs.length • least ≤ costs.sum := List.card_nsmul_le_sum costs least hcosts
  have hlt : (costs.length : F) < bound := by
    rw [nsmul_eq_mul] at hpaid
    exact ((lt_div_iff₀ hleast).2 (hpaid.trans_lt hsum)).trans_le hbound
  exact (Nat.cast_lt.1 hlt).le

end Worklist
