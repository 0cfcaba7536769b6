import Mathlib.Data.Finset.Insert
import ClaimGuard.RandomWalk

/-!
# Local push

`local_push_ppr`: the approximate personalized PageRank of one seed. A vertex whose
residual is large for its degree is queued; a push moves a part of its residual into
the estimate and the rest to its neighbours. Numbers are those of an ordered field.
-/

namespace ClaimGuard

variable {F : Type} [Field F] [LinearOrder F]

/-- `DEFAULT_ALPHA`. -/
def defaultAlpha : F := 15 / 100

/-- `DEFAULT_EPSILON`. -/
def defaultEpsilon : F := 1 / 100000

/-- `MAX_PUSHES`. -/
def maxPushes : ℕ := 200000

/-- A graph with the lists of edges that igraph keeps for its vertices. -/
structure Network (F : Type) where
  graph : Graph F
  incident : ℕ → List ℕ

/-- What `Graph.incident` of a graph without loops gives: each edge at the vertex once,
in some order. -/
structure Network.LawfulIncident (g : Network F) : Prop where
  nodup : ∀ v, (g.incident v).Nodup
  mem : ∀ v eid, eid ∈ g.incident v ↔ eid < g.graph.edges.length ∧ g.graph.Touches v eid

/-- The lists in the order of the edge ids. -/
def Network.ofGraph (g : Graph F) : Network F where
  graph := g
  incident := fun v => (List.range g.edges.length).filter fun eid => decide (g.Touches v eid)

omit [Field F] [LinearOrder F] in
theorem Network.lawfulIncident_ofGraph (g : Graph F) : (Network.ofGraph g).LawfulIncident where
  nodup v := List.nodup_range.filter _
  mem v eid := by
    unfold Network.ofGraph
    rw [List.mem_filter, List.mem_range, decide_eq_true_eq]

/-- What `_weighted_degree` computes for a vertex that is not in the cache. -/
def Network.degreeOf (g : Network F) (vertex : ℕ) : F :=
  let total := ((g.incident vertex).map g.graph.weight).sum
  -- a vertex without edges gets degree 1, so that nothing is divided by zero
  if 0 < total then total else 1

/-- `_weighted_degree`, with the cache after it. -/
def Network.weightedDegree (g : Network F) (vertex : ℕ) (cache : ℕ → Option F) :
    F × (ℕ → Option F) :=
  match cache vertex with
  | some degree => (degree, cache)
  | none => (g.degreeOf vertex, Function.update cache vertex (some (g.degreeOf vertex)))

/-- The variables of `local_push_ppr`. -/
structure PushState (F : Type) where
  p : ℕ → Option F
  r : ℕ → Option F
  degreeCache : ℕ → Option F
  pushedFrom : Finset ℕ
  queue : List ℕ
  inQueue : Finset ℕ
  pushes : ℕ

/-- The estimate of a vertex. -/
def PushState.estimate (s : PushState F) (v : ℕ) : F := (s.p v).getD 0

/-- The residual of a vertex. -/
def PushState.residual (s : PushState F) (v : ℕ) : F := (s.r v).getD 0

/-- One edge of `_push`: the share of the neighbour. -/
def Network.spread (g : Network F) (u : ℕ) (du mass : F) :
    List ℕ × (ℕ → Option F) → ℕ → List ℕ × (ℕ → Option F)
  | (newlyActive, r), eid =>
      let v := g.graph.other u eid
      let share := mass * (g.graph.weight eid / du)
      (newlyActive ++ [v], Function.update r v (some ((r v).getD 0 + share)))

/-- `_push`. -/
def Network.push (g : Network F) (alpha : F) (u : ℕ) (s : PushState F) :
    List ℕ × PushState F :=
  let (du, degreeCache) := g.weightedDegree u s.degreeCache
  let ru := (s.r u).getD 0
  let p := Function.update s.p u (some ((s.p u).getD 0 + alpha * ru))
  let mass := (1 - alpha) * ru
  let r := Function.update s.r u (some 0)
  let (newlyActive, r) := (g.incident u).foldl (g.spread u du mass) ([], r)
  (newlyActive, { s with p := p, r := r, degreeCache := degreeCache })

/-- A neighbour that received a share is queued when it is over the threshold and not
in the queue. -/
def Network.enqueue (g : Network F) (epsilon : F) (s : PushState F) (v : ℕ) : PushState F :=
  let (dv, degreeCache) := g.weightedDegree v s.degreeCache
  if epsilon < (s.r v).getD 0 / dv ∧ v ∉ s.inQueue then
    { s with degreeCache := degreeCache, queue := s.queue ++ [v], inQueue := insert v s.inQueue }
  else { s with degreeCache := degreeCache }

/-- One iteration of the loop. -/
def Network.iterate (g : Network F) (alpha epsilon : F) (s : PushState F) : PushState F :=
  match s.queue with
  | [] => s
  | u :: rest =>
      let (du, degreeCache) := g.weightedDegree u s.degreeCache
      let s := { s with
        queue := rest, inQueue := s.inQueue.erase u, degreeCache := degreeCache }
      -- `continue`: the vertex is dropped, and no push is counted
      if (s.r u).getD 0 / du ≤ epsilon then s
      else
        let (newlyActive, s) := g.push alpha u { s with pushes := s.pushes + 1 }
        newlyActive.foldl (g.enqueue epsilon) { s with pushedFrom := insert u s.pushedFrom }

/-! ## What an iteration does -/

theorem Network.enqueue_pushes (g : Network F) (epsilon : F) (s : PushState F) (v : ℕ) :
    (g.enqueue epsilon s v).pushes = s.pushes := by
  unfold enqueue
  dsimp only
  split <;> rfl

theorem Network.foldl_enqueue_pushes (g : Network F) (epsilon : F) (vs : List ℕ)
    (s : PushState F) : (vs.foldl (g.enqueue epsilon) s).pushes = s.pushes := by
  induction vs generalizing s with
  | nil => rfl
  | cons v vs ih => rw [List.foldl_cons, ih, g.enqueue_pushes]

theorem Network.iterate_nil (g : Network F) (alpha epsilon : F) {s : PushState F}
    (hqueue : s.queue = []) : g.iterate alpha epsilon s = s := by
  unfold iterate
  rw [hqueue]

/-- The state after the head of the queue is taken off. -/
def PushState.popped (g : Network F) (u : ℕ) (rest : List ℕ) (s : PushState F) : PushState F :=
  { s with
    queue := rest
    inQueue := s.inQueue.erase u
    degreeCache := (g.weightedDegree u s.degreeCache).2 }

/-- The state that a push starts from. -/
def PushState.counted (g : Network F) (u : ℕ) (rest : List ℕ) (s : PushState F) : PushState F :=
  { s.popped g u rest with pushes := s.pushes + 1 }

/-- An iteration skips the head of the queue or pushes from it. -/
theorem Network.iterate_cases (g : Network F) (alpha epsilon : F) {s : PushState F} {u : ℕ}
    {rest : List ℕ} (hqueue : s.queue = u :: rest) :
    (s.residual u / (g.weightedDegree u s.degreeCache).1 ≤ epsilon ∧
      g.iterate alpha epsilon s = s.popped g u rest) ∨
    (epsilon < s.residual u / (g.weightedDegree u s.degreeCache).1 ∧
      g.iterate alpha epsilon s =
        (g.push alpha u (s.counted g u rest)).1.foldl (g.enqueue epsilon)
          { (g.push alpha u (s.counted g u rest)).2 with
            pushedFrom := insert u s.pushedFrom }) := by
  unfold iterate
  rw [hqueue]
  dsimp only
  by_cases hle : s.residual u / (g.weightedDegree u s.degreeCache).1 ≤ epsilon
  · exact Or.inl ⟨hle, if_pos hle⟩
  · exact Or.inr ⟨not_le.1 hle, if_neg hle⟩

/-- An iteration shortens the queue or counts a push. -/
theorem Network.iterate_progress (g : Network F) (alpha epsilon : F) {s : PushState F}
    (hqueue : s.queue ≠ []) :
    ((g.iterate alpha epsilon s).pushes = s.pushes ∧
      (g.iterate alpha epsilon s).queue.length < s.queue.length) ∨
    (g.iterate alpha epsilon s).pushes = s.pushes + 1 := by
  rcases List.exists_cons_of_ne_nil hqueue with ⟨u, rest, hcons⟩
  rcases g.iterate_cases alpha epsilon hcons with ⟨-, heq⟩ | ⟨-, heq⟩
  · apply Or.inl
    rw [heq, hcons]
    exact ⟨rfl, Nat.lt_succ_self _⟩
  · apply Or.inr
    rw [heq, g.foldl_enqueue_pushes]
    rfl

/-- The loop of `local_push_ppr`, with a bound on the number of pushes. -/
def Network.pushLoop (g : Network F) (alpha epsilon : F) (bound : ℕ) (s : PushState F) :
    PushState F :=
  if _h : s.queue ≠ [] ∧ s.pushes < bound then
    g.pushLoop alpha epsilon bound (g.iterate alpha epsilon s)
  else s
termination_by (bound - s.pushes, s.queue.length)
decreasing_by
  rcases g.iterate_progress alpha epsilon _h.1 with ⟨heq, hlt⟩ | heq
  · rw [heq]
    exact Prod.Lex.right _ hlt
  · rw [heq]
    exact Prod.Lex.left _ _ (by omega)

/-- The variables before the loop. -/
def PushState.start (seed : ℕ) : PushState F where
  p := fun _ => none
  r := fun v => if v = seed then some 1 else none
  degreeCache := fun _ => none
  pushedFrom := ∅
  queue := [seed]
  inQueue := {seed}
  pushes := 0

/-- The variables after the loop. -/
def Network.finalState (g : Network F) (seed : ℕ) (alpha epsilon : F) : PushState F :=
  g.pushLoop alpha epsilon maxPushes (PushState.start seed)

/-- `local_push_ppr`. -/
def Network.localPushPpr (g : Network F) (seed : ℕ) (alpha epsilon : F) :
    (ℕ → Option F) × Finset ℕ :=
  ((g.finalState seed alpha epsilon).p, (g.finalState seed alpha epsilon).pushedFrom)

/-- What holds before the loop and is kept by every iteration holds after it. -/
theorem Network.pushLoop_induct (g : Network F) (alpha epsilon : F) (bound : ℕ)
    {P : PushState F → Prop}
    (hstep : ∀ s, P s → s.queue ≠ [] → P (g.iterate alpha epsilon s))
    {s : PushState F} (hs : P s) : P (g.pushLoop alpha epsilon bound s) := by
  fun_induction g.pushLoop alpha epsilon bound s with
  | case1 s h ih => exact ih (hstep s hs h.1)
  | case2 s h => exact hs

/-- The loop goes through the states of its iterations. -/
theorem Network.pushLoop_iterate (g : Network F) (alpha epsilon : F) {bound : ℕ}
    {s : PushState F} (k : ℕ)
    (hrun : ∀ j < k, ((g.iterate alpha epsilon)^[j] s).queue ≠ [] ∧
      ((g.iterate alpha epsilon)^[j] s).pushes < bound) :
    g.pushLoop alpha epsilon bound s =
      g.pushLoop alpha epsilon bound ((g.iterate alpha epsilon)^[k] s) := by
  induction k with
  | zero => rfl
  | succ k ih =>
      rw [ih fun j hj => hrun j (Nat.lt_succ_of_lt hj), Function.iterate_succ_apply']
      conv_lhs => rw [Network.pushLoop, dif_pos (hrun k (Nat.lt_succ_self k))]

end ClaimGuard
