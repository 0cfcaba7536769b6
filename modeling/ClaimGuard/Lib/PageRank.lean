import Mathlib.Algebra.Order.BigOperators.Group.Finset
import Mathlib.Algebra.Order.Field.Basic
import Mathlib.Data.Matrix.Mul
import Mathlib.LinearAlgebra.FiniteDimensional.Lemmas
import Mathlib.LinearAlgebra.Matrix.ToLin

/-!
# Personalized PageRank

The PageRank vector of a restart vector `b` under a walk `W` that may lose mass: the
solution of `x = a b + (1 - a) x W`. It exists, it is unique, and it is monotone in `b`.
An estimate with a residual approximates it when what the estimate lacks is the PageRank
vector of the residual; pushing mass from the residual into the estimate preserves this.
-/

open Matrix

/-- The weights of a walk: no weight is negative, and those of a row sum to at most one. -/
structure Substochastic {V F : Type*} [Fintype V] [Field F] [LinearOrder F]
    (W : Matrix V V F) : Prop where
  nonneg : ∀ u v, 0 ≤ W u v
  row_le_one : ∀ u, ∑ v, W u v ≤ 1

/-- `x` is the PageRank vector of `b` with restart probability `a`. -/
def IsPageRank {V F : Type*} [Fintype V] [Field F] (a : F) (W : Matrix V V F)
    (b x : V → F) : Prop :=
  x = a • b + (1 - a) • (x ᵥ* W)

/-- What `p` lacks of the PageRank vector of `b` is the PageRank vector of `r`. -/
def IsEstimate {V F : Type*} [Fintype V] [Field F] (a : F) (W : Matrix V V F)
    (b p r : V → F) : Prop :=
  p + a • r = a • b + (1 - a) • (p ᵥ* W)

section Algebra

variable {V F : Type*} [Fintype V] [Field F] {a : F} {W : Matrix V V F} {b c x y p r : V → F}

theorem IsPageRank.sub (hx : IsPageRank a W b x) (hy : IsPageRank a W c y) :
    IsPageRank a W (b - c) (x - y) := by
  unfold IsPageRank at *
  calc x - y
      = (a • b + (1 - a) • (x ᵥ* W)) - (a • c + (1 - a) • (y ᵥ* W)) := by rw [← hx, ← hy]
    _ = a • (b - c) + (1 - a) • ((x - y) ᵥ* W) := by
      rw [sub_vecMul, smul_sub, smul_sub]
      abel

theorem IsPageRank.smul (hx : IsPageRank a W b x) (t : F) : IsPageRank a W (t • b) (t • x) := by
  unfold IsPageRank at *
  calc t • x = t • (a • b + (1 - a) • (x ᵥ* W)) := by rw [← hx]
    _ = a • (t • b) + (1 - a) • ((t • x) ᵥ* W) := by
      rw [smul_vecMul, smul_add, smul_comm t a, smul_comm t (1 - a)]

/-- At the start the estimate is zero and the residual everything. -/
theorem isEstimate_zero : IsEstimate a W b 0 b := by
  simp [IsEstimate]

theorem IsEstimate.isPageRank_sub (h : IsEstimate a W b p r) (hx : IsPageRank a W b x) :
    IsPageRank a W r (x - p) := by
  unfold IsPageRank IsEstimate at *
  calc x - p
      = (a • b + (1 - a) • (x ᵥ* W)) - (a • b + (1 - a) • (p ᵥ* W) - a • r) := by
        rw [← hx, ← h, add_sub_cancel_right]
    _ = a • r + (1 - a) • ((x - p) ᵥ* W) := by
      rw [sub_vecMul, smul_sub]
      abel

/-- A push at `u`: the part `a` of its residual goes to the estimate, the rest one step
of the walk further. -/
theorem IsEstimate.push [DecidableEq V] (h : IsEstimate a W b p r) (u : V) :
    IsEstimate a W b (p + Pi.single u (a * r u))
      (r - Pi.single u (r u) + ((1 - a) * r u) • W u) := by
  unfold IsEstimate at *
  have hsingle : Pi.single u (a * r u) ᵥ* W = (a * r u) • W u := by
    rw [single_vecMul]
    rfl
  have hscale : a • (Pi.single u (r u) : V → F) = Pi.single u (a * r u) := by
    rw [← Pi.single_smul, smul_eq_mul]
  calc p + Pi.single u (a * r u) + a • (r - Pi.single u (r u) + ((1 - a) * r u) • W u)
      = (p + a • r) + (1 - a) • ((a * r u) • W u) := by
        rw [smul_add, smul_sub, hscale, smul_smul, smul_smul, mul_left_comm a (1 - a)]
        abel
    _ = a • b + (1 - a) • ((p + Pi.single u (a * r u)) ᵥ* W) := by
        rw [h, add_vecMul, hsingle, smul_add, add_assoc]

end Algebra

section Order

variable {V F : Type*} [Fintype V] [Field F] [LinearOrder F] [IsStrictOrderedRing F] {a : F}
  {W : Matrix V V F} {b c x y p r : V → F}

/-- A walk moves no more mass than there is. -/
theorem Substochastic.sum_vecMul_le (hW : Substochastic W) (hx : ∀ v, 0 ≤ x v) :
    ∑ v, (x ᵥ* W) v ≤ ∑ v, x v := by
  calc ∑ v, (x ᵥ* W) v = ∑ v, ∑ u, x u * W u v := rfl
    _ = ∑ u, x u * ∑ v, W u v := by
      rw [Finset.sum_comm]
      exact Finset.sum_congr rfl fun u _ => (Finset.mul_sum _ _ _).symm
    _ ≤ ∑ u, x u := Finset.sum_le_sum fun u _ =>
      mul_le_of_le_one_right (hx u) (hW.row_le_one u)

/-- Mass that a step of the walk, shrunk by a factor below one, cannot lose is zero. -/
theorem Substochastic.eq_zero_of_le (hW : Substochastic W) {t : F} (ht0 : 0 ≤ t) (ht : t < 1)
    (hx : ∀ v, 0 ≤ x v) (h : ∀ v, x v ≤ t * (x ᵥ* W) v) : ∀ v, x v = 0 := by
  have hsum : ∑ v, x v ≤ t * ∑ v, x v := by
    calc ∑ v, x v ≤ ∑ v, t * (x ᵥ* W) v := Finset.sum_le_sum fun v _ => h v
      _ = t * ∑ v, (x ᵥ* W) v := (Finset.mul_sum _ _ _).symm
      _ ≤ t * ∑ v, x v := mul_le_mul_of_nonneg_left (hW.sum_vecMul_le hx) ht0
  have hnonneg : 0 ≤ ∑ v, x v := Finset.sum_nonneg fun v _ => hx v
  -- no positive mass is below a proper part of itself
  have hzero : ∑ v, x v = 0 := by nlinarith
  intro v
  exact (Finset.sum_eq_zero_iff_of_nonneg fun v _ => hx v).1 hzero v (Finset.mem_univ v)

/-- The PageRank vector of a nonnegative vector is nonnegative: its negative part would
be mass that no step of the walk loses. -/
theorem IsPageRank.nonneg (hW : Substochastic W) (ha0 : 0 < a) (ha : a ≤ 1)
    (hx : IsPageRank a W b x) (hb : ∀ v, 0 ≤ b v) : ∀ v, 0 ≤ x v := by
  -- the negative part shrinks by `1 - a` with every step of the walk
  have hneg : ∀ v, max (-x v) 0 = 0 := by
    refine hW.eq_zero_of_le (t := 1 - a) (by linarith) (by linarith) (fun v => le_max_right _ _) ?_
    intro v
    have hmove : -(x ᵥ* W) v ≤ ((fun u => max (-x u) 0) ᵥ* W) v := by
      calc -(x ᵥ* W) v = ∑ u, -x u * W u v := by
            simp only [vecMul, dotProduct, neg_mul, Finset.sum_neg_distrib]
        _ ≤ ∑ u, max (-x u) 0 * W u v := Finset.sum_le_sum fun u _ =>
            mul_le_mul_of_nonneg_right (le_max_left _ _) (hW.nonneg u v)
    have hpos : 0 ≤ ((fun u => max (-x u) 0) ᵥ* W) v :=
      Finset.sum_nonneg fun u _ => mul_nonneg (le_max_right _ _) (hW.nonneg u v)
    have heq : x v = a * b v + (1 - a) * (x ᵥ* W) v := congrFun hx v
    refine max_le ?_ (mul_nonneg (by linarith) hpos)
    have hab := mul_nonneg ha0.le (hb v)
    have hstep := mul_le_mul_of_nonneg_left hmove (by linarith : 0 ≤ 1 - a)
    linarith
  intro v
  have := le_max_left (-x v) 0
  rw [hneg v] at this
  linarith

theorem IsPageRank.mono (hW : Substochastic W) (ha0 : 0 < a) (ha : a ≤ 1)
    (hx : IsPageRank a W b x) (hy : IsPageRank a W c y) (hbc : ∀ v, b v ≤ c v) :
    ∀ v, x v ≤ y v := by
  intro v
  have := (hy.sub hx).nonneg hW ha0 ha (fun v => sub_nonneg.2 (hbc v)) v
  exact sub_nonneg.1 this

theorem IsPageRank.unique (hW : Substochastic W) (ha0 : 0 < a) (ha : a ≤ 1)
    (hx : IsPageRank a W b x) (hy : IsPageRank a W b y) : x = y :=
  funext fun v => le_antisymm (hx.mono hW ha0 ha hy (fun _ => le_refl _) v)
    (hy.mono hW ha0 ha hx (fun _ => le_refl _) v)

/-- Every vector has exactly one PageRank vector. -/
theorem existsUnique_isPageRank [DecidableEq V] (hW : Substochastic W) (ha0 : 0 < a) (ha : a ≤ 1)
    (b : V → F) : ∃! x, IsPageRank a W b x := by
  -- uniqueness makes a linear map injective, and in finite dimension surjective
  let T : (V → F) →ₗ[F] (V → F) := LinearMap.id - (1 - a) • Matrix.toLin' Wᵀ
  have hT : ∀ x, T x = x - (1 - a) • (x ᵥ* W) := by
    intro x
    simp only [T, LinearMap.sub_apply, LinearMap.id_apply, LinearMap.smul_apply,
      Matrix.toLin'_apply, Matrix.mulVec_transpose]
  have hinj : Function.Injective T := by
    apply (injective_iff_map_eq_zero T).2
    intro x hx
    have hzero : IsPageRank a W 0 x := by
      unfold IsPageRank
      rw [smul_zero, zero_add]
      exact sub_eq_zero.1 ((hT x).symm.trans hx)
    have hzero' : IsPageRank a W 0 (0 : V → F) := by simp [IsPageRank]
    exact hzero.unique hW ha0 ha hzero'
  rcases (LinearMap.injective_iff_surjective.1 hinj) (a • b) with ⟨x, hx⟩
  have hrank : IsPageRank a W b x := by
    unfold IsPageRank
    rw [hT] at hx
    exact sub_eq_iff_eq_add.1 hx
  exact ⟨x, hrank, fun y hy => hy.unique hW ha0 ha hrank⟩

/-- When the residual is nowhere above `t d`, for a `d` that the walk leaves as it is,
the estimate is below the PageRank vector by at most `t d`. -/
theorem IsEstimate.error_le (hW : Substochastic W) (ha0 : 0 < a) (ha : a ≤ 1)
    (h : IsEstimate a W b p r) (hx : IsPageRank a W b x) (hr : ∀ v, 0 ≤ r v) {d : V → F}
    (hd : d ᵥ* W = d) {t : F} (hle : ∀ v, r v ≤ t * d v) :
    ∀ v, 0 ≤ x v - p v ∧ x v - p v ≤ t * d v := by
  have herror : IsPageRank a W r (x - p) := h.isPageRank_sub hx
  -- `d` is its own PageRank vector, which bounds that of the residual
  have hbound : IsPageRank a W d d := by
    unfold IsPageRank
    rw [hd, ← add_smul, add_sub_cancel, one_smul]
  intro v
  exact ⟨herror.nonneg hW ha0 ha hr v, herror.mono hW ha0 ha (hbound.smul t) hle v⟩

end Order
