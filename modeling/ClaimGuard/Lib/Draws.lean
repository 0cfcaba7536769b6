import Mathlib.Data.List.Forall2
import Mathlib.Data.Set.Basic

/-!
# Programs that draw

A program that draws from a source passes the state of the source on, and may raise. What it
can come to is the set of its outcomes, from whatever state; it is total when it never raises.
-/

/-- A program that draws from a source with states `σ`; `none` is an exception. -/
abbrev Draw (σ α : Type) := StateT σ Option α

namespace Draw

variable {σ α β : Type}

/-- A draw of the source. -/
def draw (f : σ → α × σ) : Draw σ α := fun s => some (f s)

/-- An exception. -/
def raise : Draw σ α := fun _ => none

/-- What the program can come to. -/
def outcomes (m : Draw σ α) : Set α := {a | ∃ s s', m.run s = some (a, s')}

/-- The program does not raise. -/
def Total (m : Draw σ α) : Prop := ∀ s, ∃ r, m.run s = some r

theorem mem_outcomes_of_run {m : Draw σ α} {s s' : σ} {a : α} (h : m.run s = some (a, s')) :
    a ∈ m.outcomes := ⟨s, s', h⟩

/-! ## Outcomes -/

theorem of_mem_pure {a b : α} (h : b ∈ outcomes (pure a : Draw σ α)) : b = a := by
  rcases h with ⟨s, s', h⟩
  exact (congrArg Prod.fst (Option.some.inj h)).symm

theorem not_mem_raise {a : α} : a ∉ outcomes (raise : Draw σ α) := by
  rintro ⟨s, s', h⟩
  cases h

/-- An outcome of a sequence comes from one of its first part. -/
theorem of_mem_bind {m : Draw σ α} {f : α → Draw σ β} {b : β} (h : b ∈ outcomes (m >>= f)) :
    ∃ a ∈ outcomes m, b ∈ outcomes (f a) := by
  rcases h with ⟨s, s', h⟩
  rw [StateT.run_bind] at h
  rcases Option.bind_eq_some_iff.1 h with ⟨⟨a, t⟩, hm, hf⟩
  exact ⟨a, ⟨s, t, hm⟩, t, s', hf⟩

/-- A loop that collects: each item is an outcome of its turn. -/
theorem of_mem_mapM {f : α → Draw σ β} {l : List α} {r : List β} (h : r ∈ outcomes (l.mapM f)) :
    List.Forall₂ (fun a b => b ∈ outcomes (f a)) l r := by
  induction l generalizing r with
  | nil =>
      rw [List.mapM_nil] at h
      rw [of_mem_pure h]
      exact .nil
  | cons a l ih =>
      rw [List.mapM_cons] at h
      rcases of_mem_bind h with ⟨b, hb, h⟩
      rcases of_mem_bind h with ⟨bs, hbs, h⟩
      rw [of_mem_pure h]
      exact .cons hb (ih hbs)

/-- A loop with an invariant. -/
theorem of_mem_foldlM {f : β → α → Draw σ β} {I : β → Prop} {l : List α} {b r : β}
    (hstep : ∀ a ∈ l, ∀ b, I b → ∀ b' ∈ outcomes (f b a), I b') (hb : I b)
    (h : r ∈ outcomes (l.foldlM f b)) : I r := by
  induction l generalizing b with
  | nil =>
      rw [List.foldlM_nil] at h
      rwa [of_mem_pure h]
  | cons a l ih =>
      rw [List.foldlM_cons] at h
      rcases of_mem_bind h with ⟨b', hb', h⟩
      exact ih (fun a ha => hstep a (List.mem_cons_of_mem _ ha))
        (hstep a List.mem_cons_self b hb b' hb') h

/-! ## Totality -/

theorem total_pure (a : α) : Total (pure a : Draw σ α) := fun s => ⟨(a, s), rfl⟩

theorem total_draw (f : σ → α × σ) : Total (draw f) := fun s => ⟨f s, rfl⟩

theorem Total.bind {m : Draw σ α} {f : α → Draw σ β} (hm : Total m)
    (hf : ∀ a ∈ outcomes m, Total (f a)) : Total (m >>= f) := by
  intro s
  rcases hm s with ⟨⟨a, t⟩, hrun⟩
  rcases hf a ⟨s, t, hrun⟩ t with ⟨r, hr⟩
  refine ⟨r, ?_⟩
  rw [StateT.run_bind, hrun]
  exact hr

theorem total_mapM {f : α → Draw σ β} {l : List α} (h : ∀ a ∈ l, Total (f a)) :
    Total (l.mapM f) := by
  induction l with
  | nil =>
      rw [List.mapM_nil]
      exact total_pure _
  | cons a l ih =>
      rw [List.mapM_cons]
      refine (h a List.mem_cons_self).bind fun b _ => ?_
      exact (ih fun a ha => h a (List.mem_cons_of_mem _ ha)).bind fun bs _ => total_pure _

theorem total_foldlM {f : β → α → Draw σ β} {I : β → Prop} {l : List α} {b : β}
    (hstep : ∀ a ∈ l, ∀ b, I b → Total (f b a) ∧ ∀ b' ∈ outcomes (f b a), I b') (hb : I b) :
    Total (l.foldlM f b) := by
  induction l generalizing b with
  | nil =>
      rw [List.foldlM_nil]
      exact total_pure _
  | cons a l ih =>
      obtain ⟨htotal, hkeep⟩ := hstep a List.mem_cons_self b hb
      rw [List.foldlM_cons]
      exact htotal.bind fun b' hb' =>
        ih (fun a ha => hstep a (List.mem_cons_of_mem _ ha)) (hkeep b' hb')

end Draw
