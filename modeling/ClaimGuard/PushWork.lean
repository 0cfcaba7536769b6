import ClaimGuard.Lib.Worklist
import ClaimGuard.PushAccuracy

/-!
# The work of local push

`local_push_ppr` moves mass from the residual into the estimate and loses none. A push
from `u` moves more than `alpha * epsilon` times the weighted degree of `u`, so the degrees
of the vertices it pushes from sum to less than `1 / (alpha * epsilon)`. With that the loop
empties its queue, also without the bound `MAX_PUSHES`.
-/

namespace ClaimGuard

variable {F : Type} [Field F] [LinearOrder F]

/-- The variables after some iterations of the loop without `MAX_PUSHES`. -/
def Network.after (g : Network F) (seed : ℕ) (alpha epsilon : F) (k : ℕ) : PushState F :=
  (g.iterate alpha epsilon)^[k] (PushState.start seed)

/-- The vertex that the next iteration pushes from. -/
def Network.nextPush (g : Network F) (epsilon : F) (s : PushState F) : Option ℕ :=
  match s.queue with
  | [] => none
  | u :: _ =>
      if (s.r u).getD 0 / (g.weightedDegree u s.degreeCache).1 ≤ epsilon then none else some u

/-- The vertices pushed from in the first iterations, each as often as it was. -/
def Network.pushed (g : Network F) (seed : ℕ) (alpha epsilon : F) (k : ℕ) : List ℕ :=
  (List.range k).filterMap fun j => g.nextPush epsilon (g.after seed alpha epsilon j)

theorem Network.after_succ (g : Network F) (seed : ℕ) (alpha epsilon : F) (k : ℕ) :
    g.after seed alpha epsilon (k + 1) =
      g.iterate alpha epsilon (g.after seed alpha epsilon k) :=
  Function.iterate_succ_apply' _ _ _

theorem Network.pushed_succ (g : Network F) (seed : ℕ) (alpha epsilon : F) (k : ℕ) :
    g.pushed seed alpha epsilon (k + 1) = g.pushed seed alpha epsilon k ++
      (g.nextPush epsilon (g.after seed alpha epsilon k)).toList := by
  unfold Network.pushed
  rw [List.range_succ, List.filterMap_append, List.filterMap_cons, List.filterMap_nil]
  cases g.nextPush epsilon (g.after seed alpha epsilon k) <;> rfl

/-- The loop of `local_push_ppr` stops in one of these states. -/
theorem Network.exists_finalState_eq_after (g : Network F) (seed : ℕ) (alpha epsilon : F) :
    ∃ k, g.finalState seed alpha epsilon = g.after seed alpha epsilon k := by
  refine g.pushLoop_induct alpha epsilon maxPushes
    (P := fun s => ∃ k, s = g.after seed alpha epsilon k) ?_ ⟨0, rfl⟩
  rintro s ⟨k, rfl⟩ -
  exact ⟨k + 1, (g.after_succ seed alpha epsilon k).symm⟩

/-! ## The keys of the two tables -/

/-- The tables hold entries of vertices only. -/
structure Network.Keyed (g : Network F) (s : PushState F) : Prop where
  p : ∀ v x, s.p v = some x → v < g.graph.vertices.length
  r : ∀ v x, s.r v = some x → v < g.graph.vertices.length

theorem Network.foldl_enqueue_tables (g : Network F) (epsilon : F) (vs : List ℕ)
    (s : PushState F) :
    (vs.foldl (g.enqueue epsilon) s).p = s.p ∧ (vs.foldl (g.enqueue epsilon) s).r = s.r := by
  induction vs generalizing s with
  | nil => exact ⟨rfl, rfl⟩
  | cons v vs ih =>
      have hv : (g.enqueue epsilon s v).p = s.p ∧ (g.enqueue epsilon s v).r = s.r := by
        unfold Network.enqueue
        dsimp only
        split <;> exact ⟨rfl, rfl⟩
      rw [List.foldl_cons]
      exact ⟨(ih _).1.trans hv.1, (ih _).2.trans hv.2⟩

omit [LinearOrder F] in
theorem Network.foldl_spread_keys (g : Network F) (u : ℕ) (du mass : F) {n : ℕ} (eids : List ℕ)
    (hother : ∀ eid ∈ eids, g.graph.other u eid < n) {st : List ℕ × (ℕ → Option F)}
    (hr : ∀ v x, st.2 v = some x → v < n) :
    ∀ v x, (eids.foldl (g.spread u du mass) st).2 v = some x → v < n := by
  induction eids generalizing st with
  | nil => exact hr
  | cons eid eids ih =>
      rw [List.foldl_cons]
      refine ih (fun eid' h => hother eid' (List.mem_cons_of_mem _ h)) ?_
      intro v x hv
      by_cases hvo : v = g.graph.other u eid
      · exact hvo ▸ hother eid List.mem_cons_self
      · exact hr v x ((Function.update_of_ne hvo _ _).symm.trans hv)

theorem Network.Keyed.iterate {g : Network F} (hg : g.graph.PositivelyWeighted)
    (hi : g.LawfulIncident) {alpha epsilon : F} {s : PushState F}
    (hqueue : ∀ v ∈ s.queue, v < g.graph.vertices.length) (h : g.Keyed s) :
    g.Keyed (g.iterate alpha epsilon s) := by
  by_cases hempty : s.queue = []
  · rw [g.iterate_nil alpha epsilon hempty]
    exact h
  · rcases List.exists_cons_of_ne_nil hempty with ⟨u, rest, hcons⟩
    have hu : u < g.graph.vertices.length := hqueue u (hcons ▸ List.mem_cons_self)
    rcases g.iterate_cases alpha epsilon hcons with ⟨-, heq⟩ | ⟨-, heq⟩
    · rw [heq]
      exact ⟨h.p, h.r⟩
    · have htables := g.foldl_enqueue_tables epsilon (g.push alpha u (s.counted g u rest)).1
        { (g.push alpha u (s.counted g u rest)).2 with pushedFrom := insert u s.pushedFrom }
      rw [← heq] at htables
      constructor
      · intro v x hv
        rw [htables.1] at hv
        by_cases hvu : v = u
        · exact hvu ▸ hu
        · exact h.p v x ((Function.update_of_ne hvu _ _).symm.trans hv)
      · rw [htables.2]
        refine g.foldl_spread_keys u _ _ (g.incident u)
          (fun eid heid => hg.other_lt u ((hi.mem u eid).1 heid).1) (fun v x hv => ?_)
        by_cases hvu : v = u
        · exact hvu ▸ hu
        · exact h.r v x ((Function.update_of_ne hvu _ _).symm.trans hv)

/-! ## Mass -/

variable [IsStrictOrderedRing F]

/-- What an iteration does to the tables, by the vertex it pushes from. -/
theorem Network.nextPush_cases {g : Network F} (hg : g.graph.PositivelyWeighted)
    (hi : g.LawfulIncident) {alpha epsilon : F} {seed : Fin g.graph.vertices.length}
    {s : PushState F} (h : g.LoopInv alpha epsilon seed s) :
    (g.nextPush epsilon s = none ∧ (g.iterate alpha epsilon s).pushes = s.pushes ∧
      (g.iterate alpha epsilon s).p = s.p ∧ (g.iterate alpha epsilon s).r = s.r) ∨
    ∃ u rest, g.nextPush epsilon s = some u ∧
      (g.iterate alpha epsilon s).pushes = s.pushes + 1 ∧ 0 < g.graph.strength u ∧
      epsilon * g.graph.strength u < s.residual u ∧
      g.Pushed alpha epsilon u rest s (g.iterate alpha epsilon s) := by
  by_cases hempty : s.queue = []
  · rw [g.iterate_nil alpha epsilon hempty]
    refine Or.inl ⟨?_, rfl, rfl, rfl⟩
    unfold Network.nextPush
    rw [hempty]
  · rcases List.exists_cons_of_ne_nil hempty with ⟨u, rest, hcons⟩
    have hu : 0 < g.graph.strength u := h.strength_pos u (hcons ▸ List.mem_cons_self)
    have hnext : g.nextPush epsilon s =
        if s.residual u / (g.weightedDegree u s.degreeCache).1 ≤ epsilon then none
        else some u := by
      unfold Network.nextPush
      rw [hcons]
      rfl
    rcases g.iterate_cases alpha epsilon hcons with ⟨hle, heq⟩ | ⟨hlt, heq⟩
    · rw [heq]
      exact Or.inl ⟨hnext.trans (if_pos hle), rfl, rfl, rfl⟩
    · have hpushes : (g.iterate alpha epsilon s).pushes = s.pushes + 1 := by
        rw [heq, g.foldl_enqueue_pushes]
        rfl
      have hover : epsilon * g.graph.strength u < s.residual u := by
        rwa [h.cached.fst_weightedDegree, hi.degreeOf_eq hu, lt_div_iff₀ hu] at hlt
      rcases g.iterate_spec hg hi h.cached h.queueInv hcons hu with ⟨hle, -⟩ | ⟨-, hpushed⟩
      · exact absurd hover (not_lt.2 hle)
      · exact Or.inr ⟨u, rest, hnext.trans (if_neg (not_le.2 hlt)), hpushes, hu, hover, hpushed⟩

/-- The accounts of the loop after pushes from `us`. -/
structure Network.Accounts (g : Network F) (alpha epsilon : F) (s : PushState F)
    (us : List ℕ) : Prop where
  pushes : s.pushes = us.length
  strength_pos : ∀ u ∈ us, 0 < g.graph.strength u
  estimate_nonneg : ∀ v, 0 ≤ s.estimate v
  total : ∑ v : Fin g.graph.vertices.length, s.estimate v +
    ∑ v : Fin g.graph.vertices.length, s.residual v = 1
  /-- Each push pays for the degree of its vertex. -/
  paid : us = [] ∨ alpha * epsilon * (us.map g.graph.strength).sum <
    ∑ v : Fin g.graph.vertices.length, s.estimate v

section

variable {g : Network F} (hg : g.graph.PositivelyWeighted)
  {alpha epsilon : F} {seed : Fin g.graph.vertices.length}

omit [IsStrictOrderedRing F] in
theorem Network.accounts_start :
    g.Accounts alpha epsilon (PushState.start (seed : ℕ)) [] := by
  refine ⟨rfl, fun u hu => absurd hu List.not_mem_nil, fun v => le_refl 0, ?_, Or.inl rfl⟩
  have hestimate : ∀ v, (PushState.start (seed : ℕ) : PushState F).estimate v = 0 := fun v => rfl
  simp only [hestimate, PushState.residual_start, Finset.sum_const_zero, zero_add, ← Fin.ext_iff]
  rw [Finset.sum_ite_eq' Finset.univ seed, if_pos (Finset.mem_univ _)]

omit [IsStrictOrderedRing F] in
/-- The accounts are about the tables and the counter. -/
theorem Network.Accounts.of_tables {s s' : PushState F} {us : List ℕ}
    (h : g.Accounts alpha epsilon s us) (hpushes : s'.pushes = s.pushes) (hp : s'.p = s.p)
    (hr : s'.r = s.r) : g.Accounts alpha epsilon s' us := by
  have hestimate : s'.estimate = s.estimate := by
    unfold PushState.estimate
    rw [hp]
  have hresidual : s'.residual = s.residual := by
    unfold PushState.residual
    rw [hr]
  constructor
  · rw [hpushes, h.pushes]
  · exact h.strength_pos
  · rw [hestimate]
    exact h.estimate_nonneg
  · rw [hestimate, hresidual]
    exact h.total
  · rw [hestimate]
    exact h.paid

include hg

/-- A push from `u` moves the part `alpha` of its residual into the estimate and keeps the
rest among the residuals. -/
theorem Network.Accounts.pushed (halpha : 0 < alpha) {s s' : PushState F} {us rest : List ℕ}
    {u : ℕ} (h : g.Accounts alpha epsilon s us) (hu : 0 < g.graph.strength u)
    (hover : epsilon * g.graph.strength u < s.residual u) (hresidual : 0 ≤ s.residual u)
    (hpushes : s'.pushes = s.pushes + 1) (hpushed : g.Pushed alpha epsilon u rest s s') :
    g.Accounts alpha epsilon s' (us ++ [u]) := by
  let w : Fin g.graph.vertices.length := ⟨u, hg.lt_of_strength_pos hu⟩
  have hw : ∀ v : Fin g.graph.vertices.length, (v : ℕ) = u ↔ v = w := fun v =>
    (Fin.ext_iff (a := v) (b := w)).symm
  have hestimate : ∑ v : Fin g.graph.vertices.length, s'.estimate v =
      ∑ v : Fin g.graph.vertices.length, s.estimate v + alpha * s.residual u := by
    simp only [hpushed.estimate, Finset.sum_add_distrib, hw, Finset.sum_ite_eq',
      Finset.mem_univ, if_true]
  have hkept : ∑ v : Fin g.graph.vertices.length, (if (v : ℕ) = u then 0 else s.residual v) =
      ∑ v : Fin g.graph.vertices.length, s.residual v - s.residual u := by
    have hsplit : ∀ v : Fin g.graph.vertices.length, (if (v : ℕ) = u then 0 else s.residual v) =
        s.residual v - if v = w then s.residual u else 0 := by
      intro v
      by_cases hv : v = w
      · rw [if_pos ((hw v).2 hv), if_pos hv, (hw v).2 hv, sub_self]
      · rw [if_neg fun h => hv ((hw v).1 h), if_neg hv, sub_zero]
    simp only [hsplit, Finset.sum_sub_distrib, Finset.sum_ite_eq', Finset.mem_univ, if_true]
  have hspread : ∑ v : Fin g.graph.vertices.length,
      (1 - alpha) * s.residual u * (g.graph.adjacency u v / g.graph.strength u) =
        (1 - alpha) * s.residual u := by
    rw [← Finset.mul_sum, ← Finset.sum_div, hg.sum_adjacency, div_self hu.ne', mul_one]
  constructor
  · rw [hpushes, h.pushes, List.length_append, List.length_singleton]
  · intro v hv
    rcases List.mem_append.1 hv with hv | hv
    · exact h.strength_pos v hv
    · exact List.mem_singleton.1 hv ▸ hu
  · intro v
    rw [hpushed.estimate]
    apply add_nonneg (h.estimate_nonneg v)
    split
    · exact mul_nonneg halpha.le hresidual
    · exact le_refl 0
  · have htotal := h.total
    simp only [hpushed.residual, Finset.sum_add_distrib, hkept, hspread, hestimate]
    linarith
  · apply Or.inr
    have hmove : alpha * (epsilon * g.graph.strength u) < alpha * s.residual u :=
      mul_lt_mul_of_pos_left hover halpha
    have hbefore : alpha * epsilon * (us.map g.graph.strength).sum ≤
        ∑ v : Fin g.graph.vertices.length, s.estimate v := by
      rcases h.paid with rfl | hpaid
      · rw [List.map_nil, List.sum_nil, mul_zero]
        exact Finset.sum_nonneg fun v _ => h.estimate_nonneg v
      · exact hpaid.le
    rw [hestimate, List.map_append, List.sum_append, List.map_singleton, List.sum_singleton,
      mul_add, mul_assoc alpha epsilon (g.graph.strength u)]
    exact add_lt_add_of_le_of_lt hbefore hmove

/-- The invariant of the loop and the accounts, after any number of iterations. -/
theorem Network.accounts_after (hi : g.LawfulIncident) (hseed : 0 < g.graph.strength seed)
    (halpha0 : 0 < alpha) (halpha : alpha < 1) (hepsilon : 0 < epsilon) (k : ℕ) :
    g.LoopInv alpha epsilon seed (g.after seed alpha epsilon k) ∧
      g.Keyed (g.after seed alpha epsilon k) ∧
      g.Accounts alpha epsilon (g.after seed alpha epsilon k)
        (g.pushed seed alpha epsilon k) := by
  induction k with
  | zero =>
      refine ⟨g.loopInv_start hg hseed hepsilon, ⟨fun v x hv => ?_, fun v x hv => ?_⟩,
        g.accounts_start⟩
      · cases hv
      · change (if v = (seed : ℕ) then some (1 : F) else none) = some x at hv
        by_cases hvs : v = (seed : ℕ)
        · exact hvs ▸ seed.isLt
        · rw [if_neg hvs] at hv
          cases hv
  | succ k ih =>
      obtain ⟨hinv, hkeyed, haccounts⟩ := ih
      rw [g.after_succ, g.pushed_succ]
      refine ⟨hinv.iterate hg hi halpha hepsilon, hkeyed.iterate hg hi fun v hv =>
        hg.lt_of_strength_pos (hinv.strength_pos v hv), ?_⟩
      rcases g.nextPush_cases hg hi hinv with ⟨hnext, hpushes, hp, hr⟩ |
        ⟨u, rest, hnext, hpushes, hu, hover, hpushed⟩
      · -- the head of the queue is dropped, and the tables stay
        rw [hnext, Option.toList_none, List.append_nil]
        exact haccounts.of_tables hpushes hp hr
      · rw [hnext]
        exact haccounts.pushed hg halpha0 hu hover (hinv.residual_nonneg u) hpushes hpushed

omit hg in
theorem Network.Accounts.work_lt {s : PushState F} {us : List ℕ}
    (h : g.Accounts alpha epsilon s us) (hresidual : ∀ v, 0 ≤ s.residual v) (halpha : 0 < alpha)
    (hepsilon : 0 < epsilon) : (us.map g.graph.strength).sum < 1 / (alpha * epsilon) := by
  have hpos : 0 < alpha * epsilon := mul_pos halpha hepsilon
  rw [lt_div_iff₀ hpos, mul_comm]
  rcases h.paid with rfl | hpaid
  · rw [List.map_nil, List.sum_nil, mul_zero]
    exact zero_lt_one
  · have hrest : 0 ≤ ∑ v : Fin g.graph.vertices.length, s.residual v :=
      Finset.sum_nonneg fun v _ => hresidual v
    have htotal := h.total
    linarith

/-- A weight below the degrees of all the vertices that have an edge. -/
theorem Network.exists_least_strength :
    ∃ least, 0 < least ∧ ∀ u, 0 < g.graph.strength u → least ≤ g.graph.strength u := by
  let edged : Finset ℕ :=
    (Finset.range g.graph.vertices.length).filter fun u => 0 < g.graph.strength u
  have hedged : ∀ u, 0 < g.graph.strength u → u ∈ edged := fun u hu =>
    Finset.mem_filter.2 ⟨Finset.mem_range.2 (hg.lt_of_strength_pos hu), hu⟩
  by_cases hnonempty : edged.Nonempty
  · rcases edged.exists_min_image g.graph.strength hnonempty with ⟨u, hu, hleast⟩
    exact ⟨g.graph.strength u, (Finset.mem_filter.1 hu).2, fun v hv => hleast v (hedged v hv)⟩
  · exact ⟨1, zero_lt_one, fun u hu => absurd ⟨u, hedged u hu⟩ hnonempty⟩

end

/-- Mass, work and termination of `local_push_ppr`, by the states of its loop without
`MAX_PUSHES`, in one of which it ends: nothing in the two tables is negative and together
they hold the mass 1, the weighted degrees of the vertices pushed from sum to less than
`1 / (alpha * epsilon)`, and the queue runs empty, in a state where no residual is over the
threshold. -/
theorem local_push_terminates [Archimedean F] (g : Network F) (hg : g.graph.PositivelyWeighted)
    (hi : g.LawfulIncident) (seed : Fin g.graph.vertices.length)
    (hseed : ∃ eid < g.graph.edges.length, g.graph.Touches seed eid) (alpha epsilon : F)
    (halpha0 : 0 < alpha) (halpha : alpha < 1) (hepsilon : 0 < epsilon) :
    (∀ k,
      (∀ v x, (g.after seed alpha epsilon k).p v = some x →
        v < g.graph.vertices.length ∧ 0 ≤ x) ∧
      (∀ v x, (g.after seed alpha epsilon k).r v = some x →
        v < g.graph.vertices.length ∧ 0 ≤ x) ∧
      ∑ v : Fin g.graph.vertices.length, (g.after seed alpha epsilon k).estimate v +
        ∑ v : Fin g.graph.vertices.length, (g.after seed alpha epsilon k).residual v = 1 ∧
      ((g.pushed seed alpha epsilon k).map g.graph.strength).sum < 1 / (alpha * epsilon)) ∧
    (∃ k, g.finalState seed alpha epsilon = g.after seed alpha epsilon k) ∧
    ∃ k, (g.after seed alpha epsilon k).queue = [] ∧
      (∀ j < k, (g.after seed alpha epsilon j).queue ≠ []) ∧
      ∀ v, (g.after seed alpha epsilon k).residual v ≤ epsilon * g.graph.strength v := by
  rcases hseed with ⟨eid, heid, ht⟩
  have hpos : 0 < g.graph.strength seed := hg.strength_pos_of_touches heid ht
  have hafter := fun k => g.accounts_after hg hi hpos halpha0 halpha hepsilon k
  have hwork := fun k =>
    (hafter k).2.2.work_lt (hafter k).1.residual_nonneg halpha0 hepsilon
  refine ⟨?_, g.exists_finalState_eq_after seed alpha epsilon, ?_⟩
  · intro k
    obtain ⟨hinv, hkeyed, haccounts⟩ := hafter k
    refine ⟨fun v x hv => ⟨hkeyed.p v x hv, ?_⟩, fun v x hv => ⟨hkeyed.r v x hv, ?_⟩,
      haccounts.total, hwork k⟩
    · have hnonneg := haccounts.estimate_nonneg v
      unfold PushState.estimate at hnonneg
      rwa [hv] at hnonneg
    · have hnonneg := hinv.residual_nonneg v
      unfold PushState.residual at hnonneg
      rwa [hv] at hnonneg
  · -- each push costs at least the least degree, so there are boundedly many
    rcases g.exists_least_strength hg with ⟨least, hleast, hle⟩
    rcases Worklist.exists_length_bound hleast (1 / (alpha * epsilon)) with ⟨bound, hbound⟩
    have hpushes : ∀ k, (g.after seed alpha epsilon k).pushes ≤ bound := by
      intro k
      have haccounts := (hafter k).2.2
      rw [haccounts.pushes, ← List.length_map g.graph.strength]
      refine hbound _ (fun cost hcost => ?_) (hwork k)
      rcases List.mem_map.1 hcost with ⟨u, hu, rfl⟩
      exact hle u (haccounts.strength_pos u hu)
    have hprogress : ∀ s : PushState F, s.queue.length ≠ 0 →
        ((g.iterate alpha epsilon s).pushes = s.pushes ∧
          (g.iterate alpha epsilon s).queue.length < s.queue.length) ∨
        (g.iterate alpha epsilon s).pushes = s.pushes + 1 := fun s hs =>
      g.iterate_progress alpha epsilon fun hempty => hs (List.length_eq_zero_iff.2 hempty)
    rcases Worklist.exists_iterate_empty hprogress hpushes with ⟨k, hempty, hbefore⟩
    have hempty' : (g.after seed alpha epsilon k).queue = [] := List.length_eq_zero_iff.1 hempty
    refine ⟨k, hempty', fun j hj hqueue => hbefore j hj (List.length_eq_zero_iff.2 hqueue), ?_⟩
    intro v
    -- a vertex over the threshold would be in the queue
    by_contra hover
    have hmem := (hafter k).1.queued v (not_le.1 hover)
    rw [hempty'] at hmem
    exact List.not_mem_nil hmem

/-- From one of two claims that share a phone the loop ends. -/
theorem local_push_terminates_sharedPhone :
    ∃ k, ((Network.ofGraph Sample.sharedPhone).after 0 (1 / 2) (1 / 8) k).queue = [] :=
  (local_push_terminates (Network.ofGraph Sample.sharedPhone) Sample.positivelyWeighted_sharedPhone
    (Network.lawfulIncident_ofGraph _) (0 : Fin 3) ⟨0, by decide, by decide⟩ (1 / 2) (1 / 8)
    (by norm_num) (by norm_num) (by norm_num)).2.2.imp fun _ h => h.1

end ClaimGuard
