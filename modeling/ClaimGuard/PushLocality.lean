import ClaimGuard.PushAccuracy

/-!
# Locality of local push

`local_push_ppr` reads a graph only through the edges listed at the vertices it meets: the
seed, the vertices it pushes from and their neighbours. On a second graph with the same
edges at these vertices it takes the same steps, whatever the rest of the graph.
-/

namespace ClaimGuard

variable {F : Type} [Field F] [LinearOrder F]

/-- What is listed at a vertex: the neighbours and weights of its edges, in order. -/
def Network.edgesAt (g : Network F) (v : ℕ) : List (ℕ × F) :=
  (g.incident v).map fun eid => (g.graph.other v eid, g.graph.weight eid)

/-- The neighbours of a vertex, one for each edge. -/
def Network.neighbours (g : Network F) (v : ℕ) : List ℕ := (g.edgesAt v).map Prod.fst

/-- The two graphs list the same edges at a vertex. -/
def Network.AgreeAt (g h : Network F) (v : ℕ) : Prop := g.edgesAt v = h.edgesAt v

section

variable {g h : Network F}

omit [LinearOrder F] in
theorem Network.AgreeAt.weights {v : ℕ} (hv : g.AgreeAt h v) :
    (g.incident v).map g.graph.weight = (h.incident v).map h.graph.weight := by
  have hsnd := congrArg (List.map Prod.snd) hv
  unfold Network.edgesAt at hsnd
  rwa [List.map_map, List.map_map] at hsnd

theorem Network.AgreeAt.degreeOf {v : ℕ} (hv : g.AgreeAt h v) : g.degreeOf v = h.degreeOf v := by
  unfold Network.degreeOf
  rw [hv.weights]

theorem Network.AgreeAt.weightedDegree {v : ℕ} (hv : g.AgreeAt h v) :
    g.weightedDegree v = h.weightedDegree v := by
  funext cache
  unfold Network.weightedDegree
  rw [hv.degreeOf]

omit [LinearOrder F] in
/-- What a push spreads depends on what is listed at the vertex. -/
theorem Network.foldl_spread_edgesAt (g : Network F) (u : ℕ) (du mass : F)
    (st : List ℕ × (ℕ → Option F)) :
    (g.incident u).foldl (g.spread u du mass) st =
      (g.edgesAt u).foldl (fun (st : List ℕ × (ℕ → Option F)) (e : ℕ × F) =>
        (st.1 ++ [e.1],
          Function.update st.2 e.1 (some ((st.2 e.1).getD 0 + mass * (e.2 / du))))) st := by
  unfold Network.edgesAt
  rw [List.foldl_map]
  rfl

theorem Network.AgreeAt.push {u : ℕ} (hu : g.AgreeAt h u) (alpha : F) (s : PushState F) :
    g.push alpha u s = h.push alpha u s := by
  have hspread : ∀ du mass st, (g.incident u).foldl (g.spread u du mass) st =
      (h.incident u).foldl (h.spread u du mass) st := by
    intro du mass st
    have hedges : g.edgesAt u = h.edgesAt u := hu
    rw [g.foldl_spread_edgesAt, h.foldl_spread_edgesAt, hedges]
  unfold Network.push
  simp only [hu.weightedDegree, hspread]

theorem Network.AgreeAt.enqueue {v : ℕ} (hv : g.AgreeAt h v) (epsilon : F) (s : PushState F) :
    g.enqueue epsilon s v = h.enqueue epsilon s v := by
  unfold Network.enqueue
  rw [hv.weightedDegree]

theorem Network.push_fst_eq (g : Network F) (alpha : F) (u : ℕ) (s : PushState F) :
    (g.push alpha u s).1 = g.neighbours u := by
  unfold Network.neighbours Network.edgesAt
  rw [g.push_fst, List.map_map]
  rfl

/-! ## Where the queue comes from -/

/-- Queueing adds vertices of the list to the queue and pushes from none. -/
theorem Network.foldl_enqueue_queue (g : Network F) (epsilon : F) (vs : List ℕ)
    (s : PushState F) :
    (vs.foldl (g.enqueue epsilon) s).pushedFrom = s.pushedFrom ∧
      ∀ v ∈ (vs.foldl (g.enqueue epsilon) s).queue, v ∈ s.queue ∨ v ∈ vs := by
  induction vs generalizing s with
  | nil => exact ⟨rfl, fun v hv => Or.inl hv⟩
  | cons w vs ih =>
      have hw : (g.enqueue epsilon s w).pushedFrom = s.pushedFrom ∧
          ∀ v ∈ (g.enqueue epsilon s w).queue, v ∈ s.queue ∨ v = w := by
        unfold Network.enqueue
        dsimp only
        split
        · refine ⟨rfl, fun v hv => ?_⟩
          exact (List.mem_append.1 hv).imp_right List.mem_singleton.1
        · exact ⟨rfl, fun v hv => Or.inl hv⟩
      rw [List.foldl_cons]
      refine ⟨(ih _).1.trans hw.1, fun v hv => ?_⟩
      rcases (ih _).2 v hv with hv | hv
      · exact (hw.2 v hv).imp_right fun heq : v = w => heq ▸ List.mem_cons_self
      · exact Or.inr (List.mem_cons_of_mem w hv)

/-- What is queued is the seed or a neighbour of a vertex that was pushed from. -/
def Network.Met (g : Network F) (seed : ℕ) (s : PushState F) : Prop :=
  ∀ v ∈ s.queue, v = seed ∨ ∃ u ∈ s.pushedFrom, v ∈ g.neighbours u

theorem Network.Met.iterate {seed : ℕ} {s : PushState F} (hmet : g.Met seed s)
    (alpha epsilon : F) : g.Met seed (g.iterate alpha epsilon s) ∧
      s.pushedFrom ⊆ (g.iterate alpha epsilon s).pushedFrom := by
  by_cases hempty : s.queue = []
  · rw [g.iterate_nil alpha epsilon hempty]
    exact ⟨hmet, Finset.Subset.refl _⟩
  · rcases List.exists_cons_of_ne_nil hempty with ⟨u, rest, hcons⟩
    have hrest : ∀ v ∈ rest, v = seed ∨ ∃ u ∈ s.pushedFrom, v ∈ g.neighbours u :=
      fun v hv => hmet v (hcons ▸ List.mem_cons_of_mem u hv)
    rcases g.iterate_cases alpha epsilon hcons with ⟨-, heq⟩ | ⟨-, heq⟩
    · rw [heq]
      exact ⟨hrest, Finset.Subset.refl _⟩
    · have hqueue := g.foldl_enqueue_queue epsilon (g.push alpha u (s.counted g u rest)).1
        { (g.push alpha u (s.counted g u rest)).2 with pushedFrom := insert u s.pushedFrom }
      rw [← heq, g.push_fst_eq] at hqueue
      rw [Network.Met, hqueue.1]
      refine ⟨fun v hv => ?_, Finset.subset_insert u _⟩
      rcases hqueue.2 v hv with hv | hv
      · rcases hrest v hv with hseed | ⟨w, hw, hvw⟩
        · exact Or.inl hseed
        · exact Or.inr ⟨w, Finset.mem_insert_of_mem hw, hvw⟩
      · exact Or.inr ⟨u, Finset.mem_insert_self u _, hv⟩

/-! ## Two runs in lock step -/

/-- The two graphs agree at the seed, at the vertices of a set and at their neighbours. -/
def Network.AgreeAround (g h : Network F) (seed : ℕ) (us : Finset ℕ) : Prop :=
  g.AgreeAt h seed ∧ ∀ u ∈ us, g.AgreeAt h u ∧ ∀ v ∈ g.neighbours u, g.AgreeAt h v

omit [LinearOrder F] in
theorem Network.AgreeAround.mono {seed : ℕ} {us vs : Finset ℕ}
    (hagree : g.AgreeAround h seed vs) (hsub : us ⊆ vs) : g.AgreeAround h seed us :=
  ⟨hagree.1, fun u hu => hagree.2 u (hsub hu)⟩

end

end ClaimGuard
