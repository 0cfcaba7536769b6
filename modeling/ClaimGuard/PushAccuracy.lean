import ClaimGuard.LocalPush

/-!
# Accuracy of local push

The estimate and the residual of `local_push_ppr` account for the PageRank vector of the
seed at every iteration, and every vertex over the threshold is queued. So when the queue
runs empty, the estimate is below the PageRank vector by at most `epsilon` times the
weighted degree.
-/

namespace ClaimGuard

open Matrix

variable {F : Type} [Field F] [LinearOrder F]

/-! ## The cache of degrees -/

/-- The cache holds what would be computed. -/
def Network.Cached (g : Network F) (cache : ℕ → Option F) : Prop :=
  ∀ v degree, cache v = some degree → degree = g.degreeOf v

theorem Network.Cached.fst_weightedDegree {g : Network F} {cache : ℕ → Option F}
    (h : g.Cached cache) (v : ℕ) : (g.weightedDegree v cache).1 = g.degreeOf v := by
  unfold weightedDegree
  split
  · exact h v _ ‹_›
  · rfl

theorem Network.Cached.snd_weightedDegree {g : Network F} {cache : ℕ → Option F}
    (h : g.Cached cache) (v : ℕ) : g.Cached (g.weightedDegree v cache).2 := by
  unfold weightedDegree
  split
  · exact h
  · intro w degree hw
    change Function.update cache v (some (g.degreeOf v)) w = some degree at hw
    by_cases hwv : w = v
    · subst hwv
      rw [Function.update_self] at hw
      exact (Option.some.inj hw).symm
    · rw [Function.update_of_ne hwv] at hw
      exact h w degree hw

namespace Network.LawfulIncident

variable {g : Network F} (hi : g.LawfulIncident)

include hi

omit [LinearOrder F] in
/-- A sum over the edges that igraph lists at a vertex. -/
theorem sum_incident (u : ℕ) (f : ℕ → F) :
    ((g.incident u).map f).sum = ∑ eid ∈ Finset.range g.graph.edges.length,
      if g.graph.Touches u eid then f eid else 0 := by
  rw [← List.sum_toFinset _ (hi.nodup u), ← Finset.sum_filter]
  refine Finset.sum_congr (Finset.ext fun eid => ?_) fun _ _ => rfl
  rw [List.mem_toFinset, hi.mem, Finset.mem_filter, Finset.mem_range]

theorem degreeOf_eq {v : ℕ} (hv : 0 < g.graph.strength v) :
    g.degreeOf v = g.graph.strength v := by
  have htotal : ((g.incident v).map g.graph.weight).sum = g.graph.strength v :=
    hi.sum_incident v g.graph.weight
  unfold degreeOf
  rw [htotal]
  exact if_pos hv

/-- The shares of one neighbour. -/
theorem sum_shares (hg : g.graph.PositivelyWeighted) (u w : ℕ) (du mass : F) :
    ((g.incident u).map fun eid =>
      if g.graph.other u eid = w then mass * (g.graph.weight eid / du) else 0).sum =
      mass * (g.graph.adjacency u w / du) := by
  rw [hi.sum_incident]
  unfold Graph.adjacency
  rw [Finset.sum_div, Finset.mul_sum]
  apply Finset.sum_congr rfl
  intro eid heid
  have hjoins := hg.joins_iff (u := u) (v := w) (Finset.mem_range.1 heid)
  by_cases ht : g.graph.Touches u eid
  · by_cases hw : g.graph.other u eid = w
    · rw [if_pos ht, if_pos hw, if_pos (hjoins.2 ⟨ht, hw.symm⟩)]
    · rw [if_pos ht, if_neg hw, if_neg fun hj => hw (hjoins.1 hj).2.symm, zero_div, mul_zero]
  · rw [if_neg ht, if_neg fun hj => ht (hjoins.1 hj).1, zero_div, mul_zero]

end Network.LawfulIncident

/-! ## A push -/

omit [LinearOrder F] in
/-- What the edges at `u` spread. -/
theorem Network.foldl_spread (g : Network F) (u : ℕ) (du mass : F) (eids : List ℕ)
    (newlyActive : List ℕ) (r : ℕ → Option F) :
    (eids.foldl (g.spread u du mass) (newlyActive, r)).1 =
        newlyActive ++ eids.map (g.graph.other u) ∧
      ∀ w, ((eids.foldl (g.spread u du mass) (newlyActive, r)).2 w).getD 0 =
        (r w).getD 0 + (eids.map fun eid =>
          if g.graph.other u eid = w then mass * (g.graph.weight eid / du) else 0).sum := by
  -- over the edges; each adds its share to the residual of its other end
  induction eids generalizing newlyActive r with
  | nil => exact ⟨(List.append_nil _).symm, fun w => (add_zero _).symm⟩
  | cons eid eids ih =>
      obtain ⟨hactive, hr⟩ := ih (newlyActive ++ [g.graph.other u eid])
        (Function.update r (g.graph.other u eid) (some ((r (g.graph.other u eid)).getD 0 +
          mass * (g.graph.weight eid / du))))
      refine ⟨?_, fun w => ?_⟩
      · rw [List.foldl_cons, List.map_cons, List.append_cons newlyActive]
        exact hactive
      · rw [List.foldl_cons, List.map_cons, List.sum_cons]
        apply (hr w).trans
        by_cases hw : g.graph.other u eid = w
        · subst hw
          rw [Function.update_self, if_pos rfl, Option.getD_some, add_assoc]
        · rw [Function.update_of_ne (Ne.symm hw), if_neg hw, zero_add]

section

variable {g : Network F} {alpha : F} {u : ℕ} {s : PushState F}

theorem Network.push_fst : (g.push alpha u s).1 = (g.incident u).map (g.graph.other u) :=
  (g.foldl_spread u _ _ _ [] _).1

theorem Network.estimate_push (v : ℕ) :
    (g.push alpha u s).2.estimate v =
      s.estimate v + if v = u then alpha * s.residual u else 0 := by
  change (Function.update s.p u (some ((s.p u).getD 0 + alpha * s.residual u)) v).getD 0 = _
  by_cases hv : v = u
  · subst hv
    rw [Function.update_self, if_pos rfl]
    rfl
  · rw [Function.update_of_ne hv, if_neg hv, add_zero]
    rfl

theorem Network.residual_push (hi : g.LawfulIncident) (hg : g.graph.PositivelyWeighted)
    (hcached : g.Cached s.degreeCache) (hu : 0 < g.graph.strength u) (w : ℕ) :
    (g.push alpha u s).2.residual w =
      (if w = u then 0 else s.residual w) +
        (1 - alpha) * s.residual u * (g.graph.adjacency u w / g.graph.strength u) := by
  have hkept : ((Function.update s.r u (some 0)) w).getD 0 = if w = u then 0 else s.residual w := by
    by_cases hw : w = u
    · subst hw
      rw [Function.update_self, if_pos rfl, Option.getD_some]
    · rw [Function.update_of_ne hw, if_neg hw]
      rfl
  -- the degree comes from the cache, which holds what would be computed
  refine ((g.foldl_spread u (g.weightedDegree u s.degreeCache).1 ((1 - alpha) * s.residual u)
    (g.incident u) [] (Function.update s.r u (some 0))).2 w).trans ?_
  rw [hi.sum_shares hg, hcached.fst_weightedDegree, hi.degreeOf_eq hu, hkept]

end

/-! ## Queueing the neighbours -/

/-- The queue of distinct vertices and the set of its members. -/
structure PushState.QueueInv (s : PushState F) : Prop where
  nodup : s.queue.Nodup
  members : ∀ v, v ∈ s.inQueue ↔ v ∈ s.queue

omit [LinearOrder F] in
theorem PushState.residual_start (seed v : ℕ) :
    (PushState.start seed : PushState F).residual v = if v = seed then 1 else 0 := by
  change (if v = seed then some (1 : F) else none).getD 0 = _
  split <;> rfl

/-- Taking the head of the queue off. -/
theorem PushState.QueueInv.popped {s : PushState F} (h : s.QueueInv) {g : Network F} {u : ℕ}
    {rest : List ℕ} (hqueue : s.queue = u :: rest) : (s.popped g u rest).QueueInv := by
  have hnodup : (u :: rest).Nodup := hqueue ▸ h.nodup
  refine ⟨(List.nodup_cons.1 hnodup).2, fun v => ?_⟩
  change v ∈ s.inQueue.erase u ↔ v ∈ rest
  rw [Finset.mem_erase, h.members, hqueue, List.mem_cons]
  constructor
  · rintro ⟨hne, heq | hv⟩
    · exact absurd heq hne
    · exact hv
  · intro hv
    exact ⟨fun heq => (List.nodup_cons.1 hnodup).1 (heq ▸ hv), Or.inr hv⟩

/-- What queueing some vertices does: those over the threshold get into the queue. -/
structure Network.Enqueued (g : Network F) (epsilon : F) (vs : List ℕ) (s s' : PushState F) :
    Prop where
  p : s'.p = s.p
  r : s'.r = s.r
  pushedFrom : s'.pushedFrom = s.pushedFrom
  cached : g.Cached s'.degreeCache
  queueInv : s'.QueueInv
  mem_queue : ∀ v, v ∈ s'.queue ↔
    v ∈ s.queue ∨ (v ∈ vs ∧ epsilon < s.residual v / g.degreeOf v)

theorem Network.enqueued_enqueue {g : Network F} (epsilon : F) {s : PushState F}
    (hcached : g.Cached s.degreeCache) (hqueue : s.QueueInv) (v : ℕ) :
    g.Enqueued epsilon [v] s (g.enqueue epsilon s v) := by
  have hdegree := hcached.fst_weightedDegree v
  have hcached' := hcached.snd_weightedDegree v
  by_cases hover : epsilon < s.residual v / g.degreeOf v ∧ v ∉ s.inQueue
  · have heq : g.enqueue epsilon s v = { s with
        degreeCache := (g.weightedDegree v s.degreeCache).2
        queue := s.queue ++ [v]
        inQueue := insert v s.inQueue } := by
      rw [← hdegree] at hover
      exact if_pos hover
    have hnotMem : v ∉ s.queue := fun hv => hover.2 ((hqueue.members v).2 hv)
    rw [heq]
    refine ⟨rfl, rfl, rfl, hcached', ⟨?_, ?_⟩, ?_⟩
    · exact List.nodup_append.2 ⟨hqueue.nodup, List.nodup_singleton v, by
        rintro a ha b hb rfl
        exact hnotMem (List.mem_singleton.1 hb ▸ ha)⟩
    · intro w
      rw [Finset.mem_insert, hqueue.members, List.mem_append, List.mem_singleton, or_comm]
    · intro w
      rw [List.mem_append, List.mem_singleton]
      refine or_congr_right ⟨?_, fun h => h.1⟩
      rintro rfl
      exact ⟨rfl, hover.1⟩
  · have heq : g.enqueue epsilon s v = { s with
        degreeCache := (g.weightedDegree v s.degreeCache).2 } := by
      rw [← hdegree] at hover
      exact if_neg hover
    rw [heq]
    refine ⟨rfl, rfl, rfl, hcached', ⟨hqueue.nodup, hqueue.members⟩, ?_⟩
    intro w
    refine ⟨Or.inl, ?_⟩
    rintro (hw | ⟨hw, hlt⟩)
    · exact hw
    · rcases List.mem_singleton.1 hw with rfl
      by_contra hnotMem
      exact hover ⟨hlt, fun hmem => hnotMem ((hqueue.members w).1 hmem)⟩

theorem Network.enqueued_foldl {g : Network F} (epsilon : F) (vs : List ℕ) {s : PushState F}
    (hcached : g.Cached s.degreeCache) (hqueue : s.QueueInv) :
    g.Enqueued epsilon vs s (vs.foldl (g.enqueue epsilon) s) := by
  -- residuals do not change while the neighbours are queued
  induction vs generalizing s with
  | nil => exact ⟨rfl, rfl, rfl, hcached, hqueue, fun v => by simp⟩
  | cons v vs ih =>
      have hv := g.enqueued_enqueue epsilon hcached hqueue v
      have hvs := ih hv.cached hv.queueInv
      have hresidual : (g.enqueue epsilon s v).residual = s.residual := by
        unfold PushState.residual
        rw [hv.r]
      refine ⟨hvs.p.trans hv.p, hvs.r.trans hv.r, hvs.pushedFrom.trans hv.pushedFrom, hvs.cached,
        hvs.queueInv, fun w => ?_⟩
      rw [List.foldl_cons, hvs.mem_queue, hv.mem_queue, hresidual, or_assoc, ← or_and_right,
        List.mem_singleton, ← List.mem_cons]

/-! ## One iteration -/

variable [IsStrictOrderedRing F]

/-- What an iteration that pushes from `u` does. -/
structure Network.Pushed (g : Network F) (alpha epsilon : F) (u : ℕ) (rest : List ℕ)
    (s s' : PushState F) : Prop where
  estimate : ∀ v, s'.estimate v = s.estimate v + if v = u then alpha * s.residual u else 0
  residual : ∀ v, s'.residual v = (if v = u then 0 else s.residual v) +
    (1 - alpha) * s.residual u * (g.graph.adjacency u v / g.graph.strength u)
  pushedFrom : s'.pushedFrom = insert u s.pushedFrom
  cached : g.Cached s'.degreeCache
  queueInv : s'.QueueInv
  mem_queue : ∀ v, v ∈ s'.queue ↔ v ∈ rest ∨
    ((∃ eid < g.graph.edges.length, g.graph.Joins u v eid) ∧
      epsilon * g.graph.strength v < s'.residual v)

section

variable {g : Network F} (hg : g.graph.PositivelyWeighted) (hi : g.LawfulIncident)
  {alpha epsilon : F} {s : PushState F} {u : ℕ} {rest : List ℕ}

include hg hi

omit [IsStrictOrderedRing F] in
theorem Network.mem_neighbours {v : ℕ} : v ∈ (g.incident u).map (g.graph.other u) ↔
    ∃ eid < g.graph.edges.length, g.graph.Joins u v eid := by
  rw [List.mem_map]
  constructor
  · rintro ⟨eid, hmem, rfl⟩
    rcases (hi.mem u eid).1 hmem with ⟨heid, ht⟩
    exact ⟨eid, heid, (hg.joins_iff heid).2 ⟨ht, rfl⟩⟩
  · rintro ⟨eid, heid, hj⟩
    rcases (hg.joins_iff heid).1 hj with ⟨ht, rfl⟩
    exact ⟨eid, (hi.mem u eid).2 ⟨heid, ht⟩, rfl⟩

/-- An iteration drops the head of the queue, or pushes from it when it is over the
threshold. -/
theorem Network.iterate_spec (hcached : g.Cached s.degreeCache) (hqueueInv : s.QueueInv)
    (hqueue : s.queue = u :: rest) (hu : 0 < g.graph.strength u) :
    (s.residual u ≤ epsilon * g.graph.strength u ∧
      g.iterate alpha epsilon s = s.popped g u rest) ∨
    (epsilon * g.graph.strength u < s.residual u ∧
      g.Pushed alpha epsilon u rest s (g.iterate alpha epsilon s)) := by
  have hcases := g.iterate_cases alpha epsilon hqueue
  rw [hcached.fst_weightedDegree, hi.degreeOf_eq hu, div_le_iff₀ hu, lt_div_iff₀ hu] at hcases
  rcases hcases with hskip | ⟨hlt, heq⟩
  · exact Or.inl hskip
  · refine Or.inr ⟨hlt, ?_⟩
    have hcached' : g.Cached (s.counted g u rest).degreeCache := hcached.snd_weightedDegree u
    have hpopped : (s.popped g u rest).QueueInv := hqueueInv.popped hqueue
    have hpush := g.enqueued_foldl epsilon (g.push alpha u (s.counted g u rest)).1
      (s := { (g.push alpha u (s.counted g u rest)).2 with pushedFrom := insert u s.pushedFrom })
      (hcached'.snd_weightedDegree u) ⟨hpopped.nodup, hpopped.members⟩
    rw [← heq, g.push_fst] at hpush
    have hresidual : (g.iterate alpha epsilon s).residual =
        (g.push alpha u (s.counted g u rest)).2.residual := by
      unfold PushState.residual
      rw [hpush.r]
    have hestimate : (g.iterate alpha epsilon s).estimate =
        (g.push alpha u (s.counted g u rest)).2.estimate := by
      unfold PushState.estimate
      rw [hpush.p]
    refine ⟨fun v => ?_, fun v => ?_, hpush.pushedFrom, hpush.cached, hpush.queueInv, fun v => ?_⟩
    · rw [hestimate, g.estimate_push]
      rfl
    · rw [hresidual, g.residual_push hi hg hcached' hu]
      rfl
    · rw [hpush.mem_queue, g.mem_neighbours hg hi, hresidual]
      refine or_congr_right (and_congr_right ?_)
      rintro ⟨eid, heid, hj⟩
      have hv : 0 < g.graph.strength v := hg.strength_pos_of_joins heid hj
      rw [hi.degreeOf_eq hv, lt_div_iff₀ hv]
      rfl

end

/-! ## The invariant of the loop -/

/-- What holds at every iteration. -/
structure Network.LoopInv (g : Network F) (alpha epsilon : F) (seed : Fin g.graph.vertices.length)
    (s : PushState F) : Prop where
  cached : g.Cached s.degreeCache
  queueInv : s.QueueInv
  strength_pos : ∀ v ∈ s.queue, 0 < g.graph.strength v
  residual_nonneg : ∀ v, 0 ≤ s.residual v
  residual_edgeless : ∀ v, ¬ 0 < g.graph.strength v → s.residual v = 0
  isEstimate : IsEstimate alpha g.graph.walk (Pi.single seed 1) (fun v => s.estimate v)
    (fun v => s.residual v)
  queued : ∀ v, epsilon * g.graph.strength v < s.residual v → v ∈ s.queue

section

variable {g : Network F} (hg : g.graph.PositivelyWeighted) (hi : g.LawfulIncident)
  {alpha epsilon : F} {seed : Fin g.graph.vertices.length}

include hg hi

omit hi in
theorem Network.loopInv_start (hseed : 0 < g.graph.strength seed) (hepsilon : 0 < epsilon) :
    g.LoopInv alpha epsilon seed (PushState.start (seed : ℕ)) := by
  have hsingle : (fun v : Fin g.graph.vertices.length =>
      (PushState.start (seed : ℕ) : PushState F).residual v) = Pi.single seed 1 := by
    funext v
    rw [PushState.residual_start, Pi.single_apply]
    simp only [Fin.ext_iff]
  refine ⟨fun v degree hv => (by cases hv), ⟨List.nodup_singleton _, fun v => ?_⟩, ?_, ?_, ?_, ?_,
    ?_⟩
  · exact Finset.mem_singleton.trans List.mem_singleton.symm
  · intro v hv
    exact List.mem_singleton.1 hv ▸ hseed
  · intro v
    rw [PushState.residual_start]
    split
    · exact zero_le_one
    · exact le_refl 0
  · intro v hv
    rw [PushState.residual_start, if_neg]
    rintro rfl
    exact hv hseed
  · rw [hsingle]
    exact isEstimate_zero
  · intro v hv
    rw [PushState.residual_start] at hv
    by_cases hvs : v = seed
    · exact List.mem_singleton.2 hvs
    · rw [if_neg hvs] at hv
      exact absurd hv (not_lt.2 (mul_nonneg hepsilon.le (hg.strength_nonneg v)))

omit [IsStrictOrderedRing F] hg hi in
/-- The head of the queue is not over the threshold and is dropped. -/
theorem Network.LoopInv.popped {s : PushState F} (h : g.LoopInv alpha epsilon seed s) {u : ℕ}
    {rest : List ℕ} (hqueue : s.queue = u :: rest)
    (hle : s.residual u ≤ epsilon * g.graph.strength u) :
    g.LoopInv alpha epsilon seed (s.popped g u rest) := by
  have hmem : ∀ v ∈ rest, v ∈ s.queue := fun v hv => hqueue ▸ List.mem_cons_of_mem u hv
  refine ⟨h.cached.snd_weightedDegree u, h.queueInv.popped hqueue, fun v hv =>
    h.strength_pos v (hmem v hv), h.residual_nonneg, h.residual_edgeless, h.isEstimate, ?_⟩
  intro v hv
  have hv' : v ∈ u :: rest := hqueue ▸ h.queued v hv
  -- the vertex that is dropped is not over the threshold
  rcases List.mem_cons.1 hv' with rfl | hrest
  · exact absurd hv (not_lt.2 hle)
  · exact hrest

omit hi in
/-- A push from the head of the queue, after which its neighbours are queued. -/
theorem Network.LoopInv.pushed (halpha : alpha < 1) (hepsilon : 0 < epsilon)
    {s s' : PushState F} (h : g.LoopInv alpha epsilon seed s) {u : ℕ} {rest : List ℕ}
    (hqueue : s.queue = u :: rest) (hpushed : g.Pushed alpha epsilon u rest s s') :
    g.LoopInv alpha epsilon seed s' := by
  have hmem : ∀ v ∈ rest, v ∈ s.queue := fun v hv => hqueue ▸ List.mem_cons_of_mem u hv
  have hu : 0 < g.graph.strength u := h.strength_pos u (hqueue ▸ List.mem_cons_self)
  have hult : u < g.graph.vertices.length := hg.lt_of_strength_pos hu
  have hmass : 0 ≤ (1 - alpha) * s.residual u :=
    mul_nonneg (sub_nonneg.2 halpha.le) (h.residual_nonneg u)
  refine ⟨hpushed.cached, hpushed.queueInv, ?_, ?_, ?_, ?_, ?_⟩
  · intro v hv
    rcases (hpushed.mem_queue v).1 hv with hrest | ⟨⟨eid, heid, hj⟩, -⟩
    · exact h.strength_pos v (hmem v hrest)
    · exact hg.strength_pos_of_joins heid hj
  · intro v
    rw [hpushed.residual]
    refine add_nonneg ?_ (mul_nonneg hmass (div_nonneg (hg.adjacency_nonneg u v) hu.le))
    split
    · exact le_refl 0
    · exact h.residual_nonneg v
  · intro v hv
    have hzero : g.graph.adjacency u v = 0 := by
      rw [g.graph.adjacency_comm, hg.adjacency_eq_zero hv]
    rw [hpushed.residual, hzero, zero_div, mul_zero, add_zero, h.residual_edgeless v hv, ite_self]
  · have hestimate : (fun v : Fin g.graph.vertices.length => s'.estimate v) =
        (fun v : Fin g.graph.vertices.length => s.estimate v) +
          Pi.single ⟨u, hult⟩ (alpha * s.residual u) := by
      funext v
      rw [hpushed.estimate, Pi.add_apply, Pi.single_apply]
      simp only [Fin.ext_iff]
    have hresidual : (fun v : Fin g.graph.vertices.length => s'.residual v) =
        (fun v : Fin g.graph.vertices.length => s.residual v) -
          Pi.single ⟨u, hult⟩ (s.residual u) +
          ((1 - alpha) * s.residual u) • g.graph.walk ⟨u, hult⟩ := by
      funext v
      rw [hpushed.residual, Pi.add_apply, Pi.sub_apply, Pi.smul_apply, Pi.single_apply]
      simp only [Fin.ext_iff, smul_eq_mul, Graph.walk]
      split <;> rename_i hv
      · rw [hv, sub_self]
      · rw [sub_zero]
    rw [hestimate, hresidual]
    exact h.isEstimate.push ⟨u, hult⟩
  · intro v hv
    apply (hpushed.mem_queue v).2
    by_cases hj : ∃ eid < g.graph.edges.length, g.graph.Joins u v eid
    · exact Or.inr ⟨hj, hv⟩
    · -- nothing came to `v`, which was over the threshold before
      have hzero : g.graph.adjacency u v = 0 := Finset.sum_eq_zero fun eid heid =>
        if_neg fun hjoins => hj ⟨eid, Finset.mem_range.1 heid, hjoins⟩
      rw [hpushed.residual, hzero, zero_div, mul_zero, add_zero] at hv
      by_cases hvu : v = u
      · rw [if_pos hvu] at hv
        exact absurd hv (not_lt.2 (mul_nonneg hepsilon.le (hg.strength_nonneg v)))
      · rw [if_neg hvu] at hv
        have hv' : v ∈ u :: rest := hqueue ▸ h.queued v hv
        exact Or.inl ((List.mem_cons.1 hv').resolve_left hvu)

/-- An iteration keeps the invariant. -/
theorem Network.LoopInv.iterate (halpha : alpha < 1) (hepsilon : 0 < epsilon)
    {s : PushState F} (h : g.LoopInv alpha epsilon seed s) :
    g.LoopInv alpha epsilon seed (g.iterate alpha epsilon s) := by
  by_cases hqueue : s.queue = []
  · rw [g.iterate_nil alpha epsilon hqueue]
    exact h
  · rcases List.exists_cons_of_ne_nil hqueue with ⟨u, rest, hcons⟩
    have hu : 0 < g.graph.strength u := h.strength_pos u (hcons ▸ List.mem_cons_self)
    rcases g.iterate_spec hg hi h.cached h.queueInv hcons hu with ⟨hle, heq⟩ | ⟨-, hpushed⟩
    · rw [heq]
      exact h.popped hcons hle
    · exact h.pushed hg halpha hepsilon hcons hpushed

/-- The invariant holds of every state of the loop. -/
theorem Network.loopInv_finalState (hseed : 0 < g.graph.strength seed)
    (halpha : alpha < 1) (hepsilon : 0 < epsilon) :
    g.LoopInv alpha epsilon seed (g.finalState seed alpha epsilon) :=
  g.pushLoop_induct alpha epsilon maxPushes (fun _ h _ => h.iterate hg hi halpha hepsilon)
    (g.loopInv_start hg hseed hepsilon)

omit hi in
/-- What a vertex without edges would do with its mass does not matter: none arrives. -/
theorem Network.isPageRank_of_rows (hseed : 0 < g.graph.strength seed)
    {pi : Fin g.graph.vertices.length → F}
    (hpi : IsPageRank alpha g.graph.walk (Pi.single seed 1) pi)
    {W : Matrix (Fin g.graph.vertices.length) (Fin g.graph.vertices.length) F}
    (hW : ∀ u : Fin g.graph.vertices.length, 0 < g.graph.strength u → W u = g.graph.walk u) :
    IsPageRank alpha W (Pi.single seed 1) pi := by
  have hzero : ∀ u : Fin g.graph.vertices.length, ¬ 0 < g.graph.strength u → pi u = 0 := by
    intro u hu
    have hne : u ≠ seed := by
      rintro rfl
      exact hu hseed
    have harrive : (pi ᵥ* g.graph.walk) u = 0 := by
      change ∑ w, pi w * g.graph.walk w u = 0
      apply Finset.sum_eq_zero
      intro w _
      unfold Graph.walk
      rw [g.graph.adjacency_comm, hg.adjacency_eq_zero hu, zero_div, mul_zero]
    have heq := congrFun hpi u
    rwa [Pi.add_apply, Pi.smul_apply, Pi.smul_apply, Pi.single_eq_of_ne hne, harrive, smul_zero,
      smul_zero, add_zero] at heq
  have hstep : pi ᵥ* W = pi ᵥ* g.graph.walk := by
    funext v
    change ∑ u, pi u * W u v = ∑ u, pi u * g.graph.walk u v
    apply Finset.sum_congr rfl
    intro u _
    by_cases hu : 0 < g.graph.strength u
    · rw [hW u hu]
    · rw [hzero u hu, zero_mul, zero_mul]
  unfold IsPageRank at *
  rw [hstep]
  exact hpi

end

/-- Accuracy of `local_push_ppr`: the PageRank vector of the seed exists, is unique and
does not depend on the rows of vertices without edges, and when the loop ends because the
queue is empty, the estimate is below it by at most `epsilon` times the weighted degree. -/
theorem local_push_accurate (g : Network F) (hg : g.graph.PositivelyWeighted)
    (hi : g.LawfulIncident) (seed : Fin g.graph.vertices.length)
    (hseed : ∃ eid < g.graph.edges.length, g.graph.Touches seed eid) (alpha epsilon : F)
    (halpha0 : 0 < alpha) (halpha : alpha < 1) (hepsilon : 0 < epsilon) :
    ∃ pi : Fin g.graph.vertices.length → F,
      IsPageRank alpha g.graph.walk (Pi.single seed 1) pi ∧
      (∀ x, IsPageRank alpha g.graph.walk (Pi.single seed 1) x → x = pi) ∧
      (∀ W : Matrix (Fin g.graph.vertices.length) (Fin g.graph.vertices.length) F,
        (∀ u : Fin g.graph.vertices.length, 0 < g.graph.strength u → W u = g.graph.walk u) →
          IsPageRank alpha W (Pi.single seed 1) pi) ∧
      ((g.finalState seed alpha epsilon).queue = [] →
        ∀ v : Fin g.graph.vertices.length,
          0 ≤ pi v - ((g.localPushPpr seed alpha epsilon).1 v).getD 0 ∧
            pi v - ((g.localPushPpr seed alpha epsilon).1 v).getD 0 ≤
              epsilon * g.graph.strength v) := by
  rcases hseed with ⟨eid, heid, ht⟩
  have hpos : 0 < g.graph.strength seed := hg.strength_pos_of_touches heid ht
  have hwalk := hg.substochastic_walk
  rcases existsUnique_isPageRank hwalk halpha0 halpha.le (Pi.single seed 1) with ⟨pi, hpi, hunique⟩
  refine ⟨pi, hpi, hunique, fun W hW => g.isPageRank_of_rows hg hpos hpi hW, fun hempty => ?_⟩
  have hinv := g.loopInv_finalState hg hi hpos halpha hepsilon
  have hsmall : ∀ v : Fin g.graph.vertices.length,
      (g.finalState seed alpha epsilon).residual v ≤ epsilon * g.graph.strength v := by
    intro v
    -- a vertex over the threshold would be in the queue
    by_contra hover
    have hmem := hinv.queued v (not_le.1 hover)
    rw [hempty] at hmem
    exact List.not_mem_nil hmem
  exact hinv.isEstimate.error_le hwalk halpha0 halpha.le hpi (fun v => hinv.residual_nonneg v)
    hg.strength_vecMul_walk hsmall

namespace Sample

/-- A phone that two claims share, the edges weighted by one over its degree. -/
def sharedPhone : Graph ℚ where
  vertices := [⟨"a", .claim, none, none, none, some 100, none⟩,
    ⟨"b", .claim, none, none, none, some 200, none⟩,
    ⟨"c", .entity, some .phone, some "+919876500011", some 2, none, none⟩]
  edges := [(0, 2), (1, 2)]
  weights := [1 / 2, 1 / 2]

theorem positivelyWeighted_sharedPhone : sharedPhone.PositivelyWeighted where
  weighted := rfl
  ends := by decide
  loopless := by decide
  positive := by decide +kernel

/-- Four iterations from the first claim empty the queue. -/
theorem finalState_sharedPhone : (Network.ofGraph sharedPhone).finalState 0 (1 / 2) (1 / 8) =
    ((Network.ofGraph sharedPhone).iterate (1 / 2) (1 / 8))^[4] (PushState.start 0) := by
  have hempty : (((Network.ofGraph sharedPhone).iterate (1 / 2) (1 / 8))^[4]
      (PushState.start 0)).queue = [] := by decide +kernel
  unfold Network.finalState
  rw [Network.pushLoop_iterate _ _ _ 4 (by decide +kernel), Network.pushLoop,
    dif_neg fun h => h.1 hempty]

theorem queue_sharedPhone :
    ((Network.ofGraph sharedPhone).finalState 0 (1 / 2) (1 / 8)).queue = [] := by
  rw [finalState_sharedPhone]
  decide +kernel

end Sample

/-- From one of two claims that share a phone the estimate is this accurate. -/
theorem local_push_accurate_sharedPhone :
    ∃ pi : Fin 3 → ℚ,
      IsPageRank (1 / 2) Sample.sharedPhone.walk (Pi.single (0 : Fin 3) 1) pi ∧
        ∀ v : Fin 3, 0 ≤ pi v -
            (((Network.ofGraph Sample.sharedPhone).localPushPpr 0 (1 / 2) (1 / 8)).1 v).getD 0 ∧
          pi v -
            (((Network.ofGraph Sample.sharedPhone).localPushPpr 0 (1 / 2) (1 / 8)).1 v).getD 0 ≤
            1 / 8 * Sample.sharedPhone.strength v := by
  obtain ⟨pi, hpi, -, -, haccurate⟩ := local_push_accurate (Network.ofGraph Sample.sharedPhone)
    Sample.positivelyWeighted_sharedPhone (Network.lawfulIncident_ofGraph _) (0 : Fin 3)
    ⟨0, by decide, by decide⟩ (1 / 2) (1 / 8) (by norm_num) (by norm_num) (by norm_num)
  exact ⟨pi, hpi, haccurate Sample.queue_sharedPhone⟩

end ClaimGuard
