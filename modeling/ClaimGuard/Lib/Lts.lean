import Mathlib.Data.Int.Order.Basic
import Mathlib.Data.List.Basic
import Mathlib.Data.List.Induction

/-!
# Labelled step systems

A step system is a set of initial states and a *partial* step function on
labels. A label carries every choice the environment makes (which request
arrives, which identifier is drawn, what time it is), so a run is determined by
its start and its labels and can be evaluated. Invariants, erased runs and guarded
runs are proved once here, from what one step preserves.
-/

universe u v

/-- A labelled step system: its initial states, and the state a label leads to
(`none` when the label is not enabled). -/
structure Lts (σ : Type u) (ℓ : Type v) where
  init : σ → Prop
  step : σ → ℓ → Option σ

namespace Lts

variable {σ : Type u} {ℓ : Type v} (S : Lts σ ℓ)

/-- The state a run of labels ends in, `none` when some label is not enabled. -/
def run : σ → List ℓ → Option σ
  | s, [] => some s
  | s, l :: ls => (S.step s l).bind fun s' => run s' ls

@[simp] theorem run_nil (s : σ) : S.run s [] = some s := rfl

theorem run_cons (s : σ) (l : ℓ) (ls : List ℓ) :
    S.run s (l :: ls) = (S.step s l).bind fun s' => S.run s' ls := rfl

/-- A run that starts with `l` takes the `l` step first. -/
theorem run_cons_eq_some {s t : σ} {l : ℓ} {ls : List ℓ} :
    S.run s (l :: ls) = some t ↔ ∃ s', S.step s l = some s' ∧ S.run s' ls = some t := by
  rw [run_cons, Option.bind_eq_some_iff]

/-- Runs compose. -/
theorem run_append (s : σ) (ls ms : List ℓ) :
    S.run s (ls ++ ms) = (S.run s ls).bind fun s' => S.run s' ms := by
  induction ls generalizing s with
  | nil => simp
  | cons l ls ih =>
      simp only [List.cons_append, run_cons, Option.bind_assoc]
      congr 1
      funext s'
      exact ih s'

/-- A state some run from an initial state ends in. -/
def Reachable (s : σ) : Prop := ∃ s₀ ls, S.init s₀ ∧ S.run s₀ ls = some s

variable {S}

theorem Reachable.of_init {s : σ} (h : S.init s) : S.Reachable s :=
  ⟨s, [], h, rfl⟩

/-- Invariant induction along one run. -/
theorem run_invariant {I : σ → Prop}
    (hstep : ∀ s l s', I s → S.step s l = some s' → I s')
    {s t : σ} {ls : List ℓ} (hs : I s) (hrun : S.run s ls = some t) : I t := by
  induction ls generalizing s with
  | nil =>
      cases hrun
      exact hs
  | cons l ls ih =>
      rcases (S.run_cons_eq_some).1 hrun with ⟨s', h, hrest⟩
      exact ih (hstep s l s' hs h) hrest

/-- Inductive invariance: what holds initially and is kept by every step holds
in every reachable state. -/
theorem Reachable.invariant {I : σ → Prop} (hinit : ∀ s, S.init s → I s)
    (hstep : ∀ s l s', I s → S.step s l = some s' → I s')
    {s : σ} (hs : S.Reachable s) : I s := by
  rcases hs with ⟨s₀, ls, h₀, hrun⟩
  exact run_invariant hstep (hinit s₀ h₀) hrun

/-! ## Conditions along a run -/

/-- Every step of the run is taken where it may be: `P` holds of the state before it and
its label. -/
def Along (S : Lts σ ℓ) (P : σ → ℓ → Prop) : σ → List ℓ → Prop
  | _, [] => True
  | s, l :: ls => P s l ∧ ∀ s', S.step s l = some s' → Along S P s' ls

/-- A condition that holds along a run carries what it implies. -/
theorem Along.imp {P Q : σ → ℓ → Prop} (h : ∀ s l, P s l → Q s l) {s : σ} {ls : List ℓ}
    (hP : S.Along P s ls) : S.Along Q s ls := by
  induction ls generalizing s with
  | nil => trivial
  | cons l ls ih => exact ⟨h s l hP.1, fun s' hs' => ih (hP.2 s' hs')⟩

/-- A condition holds along a run when it holds along its first part, and along the rest from
where that ends. -/
theorem along_append {P : σ → ℓ → Prop} {s : σ} {ls ms : List ℓ} :
    S.Along P s (ls ++ ms) ↔ S.Along P s ls ∧ ∀ t, S.run s ls = some t → S.Along P t ms := by
  induction ls generalizing s with
  | nil =>
      constructor
      · intro h
        refine ⟨trivial, fun t ht => ?_⟩
        rcases Option.some.inj ht with rfl
        exact h
      · rintro ⟨-, h⟩
        exact h s rfl
  | cons l ls ih =>
      constructor
      · rintro ⟨hl, h⟩
        refine ⟨⟨hl, fun s' hs' => (ih.1 (h s' hs')).1⟩, fun t ht => ?_⟩
        rcases (S.run_cons_eq_some).1 ht with ⟨s', hs', hrest⟩
        exact (ih.1 (h s' hs')).2 t hrest
      · rintro ⟨⟨hl, h⟩, hrest⟩
        refine ⟨hl, fun s' hs' => ih.2 ⟨h s' hs', fun t ht => hrest t ?_⟩⟩
        exact (S.run_cons_eq_some).2 ⟨s', hs', ht⟩

/-- Two conditions hold along the same runs, when they agree in the states of an
invariant that a step keeps where it meets the second one. -/
theorem along_congr {P Q : σ → ℓ → Prop} {I : σ → Prop}
    (hiff : ∀ s l, I s → (P s l ↔ Q s l))
    (hstep : ∀ s l s', I s → Q s l → S.step s l = some s' → I s')
    {s : σ} {ls : List ℓ} (hs : I s) : S.Along P s ls ↔ S.Along Q s ls := by
  induction ls generalizing s with
  | nil => exact Iff.rfl
  | cons l ls ih =>
      constructor
      · rintro ⟨hP, hrest⟩
        have hQ := (hiff s l hs).1 hP
        exact ⟨hQ, fun s' h => (ih (hstep s l s' hs hQ h)).1 (hrest s' h)⟩
      · rintro ⟨hQ, hrest⟩
        exact ⟨(hiff s l hs).2 hQ, fun s' h => (ih (hstep s l s' hs hQ h)).2 (hrest s' h)⟩

/-- Invariant induction along a run whose steps all meet a condition. -/
theorem run_invariant_along {P : σ → ℓ → Prop} {I : σ → Prop}
    (hstep : ∀ s l s', I s → P s l → S.step s l = some s' → I s')
    {s t : σ} {ls : List ℓ} (hs : I s) (hP : S.Along P s ls) (hrun : S.run s ls = some t) :
    I t := by
  induction ls generalizing s with
  | nil =>
      cases hrun
      exact hs
  | cons l ls ih =>
      rcases (S.run_cons_eq_some).1 hrun with ⟨s', h, hrest⟩
      exact ih (hstep s l s' hs hP.1 h) (hP.2 s' h) hrest

/-- A quantity that no step lowers, and that a step keeps exactly when it meets a
condition, is the same at both ends of a run exactly when every step of it does. -/
theorem along_iff_of_monotone {P : σ → ℓ → Prop} {I : σ → Prop} {f : σ → ℤ}
    (hI : ∀ s l s', I s → S.step s l = some s' → I s')
    (hle : ∀ s l s', I s → S.step s l = some s' → f s ≤ f s')
    (heq : ∀ s l s', I s → S.step s l = some s' → (f s' = f s ↔ P s l))
    {s t : σ} {ls : List ℓ} (hs : I s) (hrun : S.run s ls = some t) :
    f s ≤ f t ∧ (f t = f s ↔ S.Along P s ls) := by
  induction ls generalizing s with
  | nil =>
      cases hrun
      exact ⟨le_refl _, iff_of_true rfl trivial⟩
  | cons l ls ih =>
      rcases (S.run_cons_eq_some).1 hrun with ⟨s', h, hrest⟩
      obtain ⟨hle', hiff⟩ := ih (hI s l s' hs h) hrest
      have hfirst := hle s l s' hs h
      refine ⟨le_trans hfirst hle', ?_⟩
      constructor
      · -- nothing was lost in between, so the first step kept it and so did the rest
        intro hsame
        have hs' : f s' = f s := by omega
        refine ⟨(heq s l s' hs h).1 hs', fun s'' h'' => ?_⟩
        obtain rfl : s' = s'' := Option.some.inj (h.symm.trans h'')
        exact hiff.1 (by omega)
      · rintro ⟨hP, hrest'⟩
        have hs' := (heq s l s' hs h).2 hP
        have ht := hiff.2 (hrest' s' h)
        omega

/-! ## What a run has passed -/

/-- The run from `s` along `ls` passes `t`. -/
def Passes (S : Lts σ ℓ) (s : σ) (ls : List ℓ) (t : σ) : Prop :=
  ∃ ms, ms <+: ls ∧ S.run s ms = some t

/-- What a run has passed, it has passed when it goes on. -/
theorem Passes.extend {s t : σ} {ls : List ℓ} (h : S.Passes s ls t) (l : ℓ) :
    S.Passes s (ls ++ [l]) t := by
  rcases h with ⟨ms, hms, hrun⟩
  exact ⟨ms, hms.trans (List.prefix_append ls [l]), hrun⟩

/-- A run passes the state it ends in. -/
theorem Passes.last {s t : σ} {ls : List ℓ} (h : S.run s ls = some t) : S.Passes s ls t :=
  ⟨ls, List.prefix_refl ls, h⟩

theorem run_concat {s t : σ} {ls : List ℓ} {l : ℓ} :
    S.run s (ls ++ [l]) = some t ↔ ∃ s', S.run s ls = some s' ∧ S.step s' l = some t := by
  rw [run_append, Option.bind_eq_some_iff]
  simp [run_cons]

/-- Invariant induction along one run, of what may speak of the steps taken so far. -/
theorem run_history {I : List ℓ → σ → Prop} {s₀ : σ} (hinit : I [] s₀)
    (hstep : ∀ ls s l s', S.run s₀ ls = some s → I ls s → S.step s l = some s' →
      I (ls ++ [l]) s')
    {t : σ} {ls : List ℓ} (hrun : S.run s₀ ls = some t) : I ls t := by
  -- the last step of the run comes last
  induction ls using List.reverseRecOn generalizing t with
  | nil =>
      cases hrun
      exact hinit
  | append_singleton ls l ih =>
      rcases run_concat.1 hrun with ⟨s, hs, hlast⟩
      exact hstep ls s l t hs (ih hs) hlast

/-- Invariant induction along one run whose steps all meet a condition, of what may speak of
the steps taken so far. -/
theorem run_history_along {P : σ → ℓ → Prop} {I : List ℓ → σ → Prop} {s₀ : σ} (hinit : I [] s₀)
    (hstep : ∀ ls s l s', S.run s₀ ls = some s → I ls s → P s l → S.step s l = some s' →
      I (ls ++ [l]) s')
    {t : σ} {ls : List ℓ} (hP : S.Along P s₀ ls) (hrun : S.run s₀ ls = some t) : I ls t := by
  refine run_history (I := fun ls s => S.Along P s₀ ls → I ls s) (fun _ => hinit) ?_ hrun hP
  intro ls s l s' hs hI hlast halong
  obtain ⟨hbefore, hrest⟩ := S.along_append.1 halong
  exact hstep ls s l s' hs (hI hbefore) (hrest s hs).1 hlast

/-! ## Erased runs -/

/-- Erasing labels from a run. Kept labels are matched one for one, erased ones
change nothing on the right. `P` is a fact about the end of the run that every
earlier state inherits: it lets the choice of what to keep depend on how the run
ends. -/
theorem run_erase {R : σ → σ → Prop} {P : σ → Prop} {keep : ℓ → Bool}
    (hback : ∀ s l s', S.step s l = some s' → P s' → P s)
    (hkeep : ∀ s t l s', R s t → P s' → keep l = true → S.step s l = some s' →
      ∃ t', S.step t l = some t' ∧ R s' t')
    (herase : ∀ s t l s', R s t → P s' → keep l = false → S.step s l = some s' → R s' t)
    {s s' t : σ} {ls : List ℓ} (hR : R s t) (hrun : S.run s ls = some s') (hP : P s') :
    ∃ t', S.run t (ls.filter keep) = some t' ∧ R s' t' := by
  -- `P` at the end of a run gives `P` at its start.
  have hP_start : ∀ {ls : List ℓ} {s s' : σ}, S.run s ls = some s' → P s' → P s := by
    intro ls
    induction ls with
    | nil =>
        intro s s' hrun hP
        cases hrun
        exact hP
    | cons l ls ih =>
        intro s s' hrun hP
        rcases (S.run_cons_eq_some).1 hrun with ⟨s₁, h, hrest⟩
        exact hback s l s₁ h (ih hrest hP)
  induction ls generalizing s t with
  | nil =>
      cases hrun
      exact ⟨t, rfl, hR⟩
  | cons l ls ih =>
      rcases (S.run_cons_eq_some).1 hrun with ⟨s₁, h, hrest⟩
      have hP₁ : P s₁ := hP_start hrest hP
      -- a kept label is taken on both sides, an erased one on the left only
      cases hl : keep l with
      | true =>
          rcases hkeep s t l s₁ hR hP₁ hl h with ⟨t₁, ht₁, hR₁⟩
          rcases ih hR₁ hrest with ⟨t', hrun', hR'⟩
          refine ⟨t', ?_, hR'⟩
          rw [List.filter_cons_of_pos hl, run_cons, ht₁]
          exact hrun'
      | false =>
          have hR₁ : R s₁ t := herase s t l s₁ hR hP₁ hl h
          rcases ih hR₁ hrest with ⟨t', hrun', hR'⟩
          refine ⟨t', ?_, hR'⟩
          rw [List.filter_cons_of_neg (by simp [hl])]
          exact hrun'

/-! ## Guards -/

/-- The system restricted to the labels `guard` allows. -/
def restrict (S : Lts σ ℓ) (guard : ℓ → Bool) : Lts σ ℓ where
  init := S.init
  step s l := if guard l then S.step s l else none

/-- A step of the restricted system is a step of the whole one, on an allowed
label. -/
theorem restrict_step_eq_some {guard : ℓ → Bool} {s s' : σ} {l : ℓ} :
    (S.restrict guard).step s l = some s' ↔ guard l = true ∧ S.step s l = some s' := by
  simp [restrict]

/-- A run of the restricted system is a run of the whole one with allowed labels. -/
theorem run_restrict_eq_some {guard : ℓ → Bool} {s t : σ} {ls : List ℓ} :
    (S.restrict guard).run s ls = some t ↔
      (∀ l ∈ ls, guard l = true) ∧ S.run s ls = some t := by
  induction ls generalizing s with
  | nil => simp
  | cons l ls ih =>
      simp only [run_cons_eq_some, restrict_step_eq_some, ih, List.forall_mem_cons]
      constructor
      · rintro ⟨s', ⟨hl, hstep⟩, hls, hrest⟩
        exact ⟨⟨hl, hls⟩, s', hstep, hrest⟩
      · rintro ⟨⟨hl, hls⟩, s', hstep, hrest⟩
        exact ⟨s', ⟨hl, hstep⟩, hls, hrest⟩

/-- Some run leads from the one state to the other. -/
def Leads (S : Lts σ ℓ) (s t : σ) : Prop := ∃ ls, S.run s ls = some t

theorem Leads.refl (s : σ) : S.Leads s s := ⟨[], rfl⟩

theorem Leads.trans {s t u : σ} (h : S.Leads s t) (h' : S.Leads t u) : S.Leads s u := by
  rcases h with ⟨ls, hls⟩
  rcases h' with ⟨ms, hms⟩
  exact ⟨ls ++ ms, by rw [run_append, hls, Option.bind_some, hms]⟩

theorem Leads.of_step {s t : σ} {l : ℓ} (h : S.step s l = some t) : S.Leads s t :=
  ⟨[l], by rw [run_cons, h, Option.bind_some, run_nil]⟩

/-- What is reachable leads to what is reachable, also by allowed labels only. -/
theorem Leads.reachable {guard : ℓ → Bool} {s t : σ} (h : (S.restrict guard).Leads s t)
    (hs : S.Reachable s) : S.Reachable t := by
  rcases h with ⟨ls, hls⟩
  rcases hs with ⟨s₀, ms, hinit, hms⟩
  refine ⟨s₀, ms ++ ls, hinit, ?_⟩
  rw [run_append, hms, Option.bind_some]
  exact (run_restrict_eq_some.1 hls).2

/-- Allowing every label is no restriction. -/
theorem restrict_true (S : Lts σ ℓ) : S.restrict (fun _ => true) = S := by
  cases S
  simp [restrict]

end Lts
