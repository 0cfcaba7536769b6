import Mathlib.Data.List.Forall2

/-!
# Computations that may fail

When a computation in `Except` succeeds: one lemma for each way it is put
together, so that a successful run is taken apart without unfolding the monad.
-/

namespace Results

universe u v

variable {ε : Type u} {α β : Type v} {e : ε} {a b : α}

@[simp] theorem pure_eq_ok : (pure a : Except ε α) = .ok b ↔ a = b := by
  simp [pure, Except.pure]

/-- A sequence succeeds when its first part does and the rest does from there. -/
theorem bind_eq_ok {x : Except ε α} {f : α → Except ε β} {b : β} :
    (x >>= f) = .ok b ↔ ∃ a, x = .ok a ∧ f a = .ok b := by
  cases x <;> simp [bind, Except.bind]

/-- A guarded computation succeeds when the guard passes and the rest does. -/
theorem guard_eq_ok {c : Prop} [Decidable c] {x : Except ε α} :
    (if c then throw e else x) = .ok a ↔ ¬ c ∧ x = .ok a := by
  by_cases h : c <;> simp [h]

/-- A conditional computation succeeds when its test passes and the first branch
does. -/
theorem test_eq_ok {c : Prop} [Decidable c] {x : Except ε α} :
    (if c then x else throw e) = .ok a ↔ c ∧ x = .ok a := by
  by_cases h : c <;> simp [h]

/-- What a computation returns, from its evaluation. -/
theorem eq_ok_of_join {x : Except ε (Option α)} {a : α} (h : x.toOption.join = some a) :
    x = .ok (some a) := by
  rcases x with e | b
  · cases h
  · exact congrArg Except.ok h

/-- A computation that returns something, from its evaluation. -/
theorem exists_of_isSome {x : Except ε (Option α)} (h : x.toOption.join.isSome = true) :
    ∃ a, x = .ok (some a) := by
  rcases Option.isSome_iff_exists.1 h with ⟨a, ha⟩
  exact ⟨a, eq_ok_of_join ha⟩

/-- A sequence fails when its first part does, or when the rest does from there. -/
theorem bind_eq_error {x : Except ε α} {f : α → Except ε β} {e : ε} :
    (x >>= f) = .error e ↔ x = .error e ∨ ∃ a, x = .ok a ∧ f a = .error e := by
  cases x <;> simp [bind, Except.bind]

section

variable {γ : Type v} {f : γ → Except ε β} {l : List γ}

/-- Each result of a list of computations is that of one of them. -/
theorem exists_of_mapM_eq_ok {r : List β} (h : l.mapM f = .ok r) {b : β} (hb : b ∈ r) :
    ∃ c ∈ l, f c = .ok b := by
  induction l generalizing r with
  | nil =>
      rw [List.mapM_nil, pure_eq_ok] at h
      rw [← h] at hb
      cases hb
  | cons c l ih =>
      simp only [List.mapM_cons, bind_eq_ok, pure_eq_ok] at h
      rcases h with ⟨b', hc, r', hr, rfl⟩
      rcases List.mem_cons.1 hb with rfl | hb
      · exact ⟨c, List.mem_cons_self, hc⟩
      · rcases ih hr hb with ⟨c', hc', hb'⟩
        exact ⟨c', List.mem_cons_of_mem _ hc', hb'⟩

/-- A list of computations fails where one of them does. -/
theorem exists_of_mapM_eq_error {e : ε} (h : l.mapM f = .error e) : ∃ c ∈ l, f c = .error e := by
  induction l with
  | nil =>
      rw [List.mapM_nil] at h
      cases h
  | cons c l ih =>
      rw [List.mapM_cons, bind_eq_error] at h
      rcases h with hc | ⟨b, -, h⟩
      · exact ⟨c, List.mem_cons_self, hc⟩
      · rcases bind_eq_error.1 h with hl | ⟨r, -, hpure⟩
        · rcases ih hl with ⟨c', hc', he⟩
          exact ⟨c', List.mem_cons_of_mem _ hc', he⟩
        · cases hpure

end

/-- When each computation succeeds with a result in a relation to its input, so do the lists. -/
theorem exists_mapM_eq_ok {γ : Type v} {f : γ → Except ε β} {r : γ → β → Prop} {l : List γ}
    (h : ∀ c ∈ l, ∃ b, f c = .ok b ∧ r c b) : ∃ bs, l.mapM f = .ok bs ∧ List.Forall₂ r l bs := by
  induction l with
  | nil => exact ⟨[], rfl, List.Forall₂.nil⟩
  | cons c l ih =>
      rcases h c List.mem_cons_self with ⟨b, hb, hrb⟩
      rcases ih fun c' hc' => h c' (List.mem_cons_of_mem _ hc') with ⟨bs, hbs, hrbs⟩
      refine ⟨b :: bs, ?_, List.Forall₂.cons hrb hrbs⟩
      rw [List.mapM_cons, hb, hbs]
      rfl

/-- Each result is in the relation to an input. -/
theorem exists_of_forall₂ {γ : Type u} {β : Type v} {r : γ → β → Prop} {l : List γ} {bs : List β}
    (h : List.Forall₂ r l bs) {b : β} (hb : b ∈ bs) : ∃ c ∈ l, r c b := by
  induction h with
  | nil => cases hb
  | cons hr _ ih =>
      rcases List.mem_cons.1 hb with rfl | hb
      · exact ⟨_, List.mem_cons_self, hr⟩
      · rcases ih hb with ⟨c, hc, hrc⟩
        exact ⟨c, List.mem_cons_of_mem _ hc, hrc⟩

/-- A list of computations that all return, returns the list of the results. -/
theorem mapM_eq_some {γ : Type u} {β : Type v} {f : γ → Option β} {g : γ → β} {l : List γ}
    (h : ∀ c ∈ l, f c = some (g c)) : l.mapM f = some (l.map g) := by
  induction l with
  | nil => rfl
  | cons c l ih =>
      have hl := ih fun c' hc' => h c' (List.mem_cons_of_mem _ hc')
      rw [List.mapM_cons, h c List.mem_cons_self, hl]
      rfl

end Results
