import Mathlib.Data.Rat.Defs
import ClaimGuard.Narrative

/-!
# When the model misbehaves

A response is taken apart in three layers: its body, the message in it, and the JSON
text in the content of the message. A layer that is no JSON and an object that lacks its
key end in the template summary. A layer that is JSON of another type raises, and so
does one that is nested too deeply.
-/

namespace ClaimGuard

open Python

variable {F : Type}

/-- What the caller relies on: a string or `None` from the model, a narrative, and the
template summary when the response carries no text. -/
structure NeverFails (ollama : Ollama) (score : ClaimScore F) (outcome : Outcome) : Prop where
  call : ∃ text, callOllama ollama outcome = .ok text
  narrative : ∃ result, generateNarrative ollama score outcome = .ok result
  fallback : (¬ ∃ text, Carries ollama outcome text) →
    generateNarrative ollama score outcome = .ok (templateFallback score)

/-- The content is no JSON, or a JSON object. -/
def ContentHandled : Decoded → Prop
  | .invalid => True
  | .tooDeep => False
  | .value v => ∃ items, v = .dict items

/-- The message is an object without a content, or with a string whose content is
handled. -/
def MessageHandled (ollama : Ollama) (message : Value) : Prop :=
  ∃ items, message = .dict items ∧ ∀ content, Dict.get items (str "content") = some content →
    ∃ s, content = .str s ∧ ContentHandled (ollama.decode s)

/-- The body is no JSON, or an object without a message or with one that is handled. -/
def BodyHandled (ollama : Ollama) : Decoded → Prop
  | .invalid => True
  | .tooDeep => False
  | .value v => ∃ items, v = .dict items ∧
      ∀ message, Dict.get items (str "message") = some message → MessageHandled ollama message

/-- Only the body of a successful response is looked at. -/
def Handled (ollama : Ollama) : Outcome → Prop
  | .transportError => True
  | .response status body => isSuccess status = true → BodyHandled ollama body

/-! ## One layer -/

/-- The computation gives a value or an exception that is caught. -/
def Tame {α : Type} (x : Except Error α) : Prop := ∀ e, x = .error e → isCaught e = true

theorem tame_pure {α : Type} (a : α) : Tame (pure a : Except Error α) := by
  intro e h
  cases h

theorem tame_throw {α : Type} {e : Error} :
    Tame (throw e : Except Error α) ↔ isCaught e = true := by
  constructor
  · intro h
    exact h e rfl
  · intro hcaught e' he
    cases he
    exact hcaught

/-- A sequence is tame when its first part is, and its second part is on what the first
one gives. -/
theorem tame_bind {α β : Type} {x : Except Error α} {f : α → Except Error β} :
    Tame (x >>= f) ↔ Tame x ∧ ∀ a, x = .ok a → Tame (f a) := by
  cases x with
  | error e =>
      simp only [reduceCtorEq, false_implies, implies_true, and_true]
      exact tame_throw.trans tame_throw.symm
  | ok a =>
      simp only [Except.ok.injEq, forall_eq']
      exact (and_iff_right (tame_pure a)).symm

theorem tame_get {d : Decoded} : Tame d.get ↔ d ≠ .tooDeep := by
  cases d with
  | value v => simp [Decoded.get, tame_pure]
  | invalid => simp [Decoded.get, tame_throw, isCaught]
  | tooDeep => simp [Decoded.get, tame_throw, isCaught]

/-- Subscripting with a key needs a dictionary, whether it has the key or not. -/
theorem tame_subscript {v : Value} {key : Str} :
    Tame (subscript v key) ↔ ∃ items, v = .dict items := by
  cases v with
  | dict items =>
      simp only [subscript, Value.dict.injEq, exists_eq', iff_true]
      cases Dict.get items key with
      | some w => exact tame_pure w
      | none => exact tame_throw.2 rfl
  | _ => simp [subscript, tame_throw, isCaught]

theorem tame_loads {decode : Str → Decoded} {v : Value} :
    Tame (loads decode v) ↔ ∃ s, v = .str s ∧ decode s ≠ .tooDeep := by
  cases v with
  | str s =>
      simp only [loads, Value.str.injEq, exists_eq_left']
      exact tame_get
  | _ => simp [loads, tame_throw, isCaught]

/-- A narrative that is no string is refused with an exception that is caught. -/
theorem tame_narrative (narrative : Value) : Tame (match narrative with
    | .str s => pure (strip s)
    | _ => throw .valueError : Except Error Str) := by
  cases narrative with
  | str s => exact tame_pure _
  | _ => exact tame_throw.2 rfl

/-! ## Three layers -/

theorem tame_content {decode : Str → Decoded} {content : Value} :
    Tame (do
      let narrative ← subscript (← loads decode content) (str "narrative")
      match narrative with
      | .str s => pure (strip s)
      | _ => throw .valueError : Except Error Str) ↔
      ∃ s, content = .str s ∧ ContentHandled (decode s) := by
  simp only [tame_bind, tame_loads, loads_eq_ok, tame_subscript, tame_narrative, implies_true,
    and_true]
  constructor
  · rintro ⟨⟨s, rfl, hdeep⟩, hdict⟩
    refine ⟨s, rfl, ?_⟩
    cases hdecode : decode s with
    | value v => exact hdict v ⟨s, rfl, hdecode⟩
    | invalid => trivial
    | tooDeep => exact absurd hdecode hdeep
  · rintro ⟨s, rfl, hhandled⟩
    refine ⟨⟨s, rfl, ?_⟩, ?_⟩
    · intro hdeep
      rw [hdeep] at hhandled
      exact hhandled
    · rintro v ⟨s', heq, hdecode⟩
      obtain rfl : s = s' := by simpa using heq
      rw [hdecode] at hhandled
      exact hhandled

/-- Reading the narrative is tame exactly on the outcomes that are handled. -/
theorem tame_readNarrative {ollama : Ollama} {outcome : Outcome} :
    Tame (readNarrative ollama outcome) ↔ Handled ollama outcome := by
  cases outcome with
  | transportError => simp [readNarrative, tame_throw, isCaught, Handled]
  | response status body =>
      cases hsuccess : isSuccess status with
      | false => simp [readNarrative, hsuccess, tame_throw, isCaught, Handled]
      | true =>
          simp only [readNarrative, hsuccess, Bool.not_true, Bool.false_eq_true, if_false, Handled,
            true_implies]
          rw [tame_bind, tame_get]
          simp only [decoded_get_eq_ok]
          cases body with
          | invalid => simp [BodyHandled]
          | tooDeep => simp [BodyHandled]
          | value v =>
              simp only [ne_eq, reduceCtorEq, not_false_eq_true, true_and, Decoded.value.injEq,
                forall_eq']
              rw [tame_bind, tame_subscript]
              simp only [BodyHandled, MessageHandled]
              constructor
              · rintro ⟨⟨items, rfl⟩, hmessage⟩
                refine ⟨items, rfl, fun message hget => ?_⟩
                have htame := hmessage message (subscript_eq_ok.2 ⟨items, rfl, hget⟩)
                rw [tame_bind, tame_subscript] at htame
                rcases htame with ⟨⟨fields, rfl⟩, hcontent⟩
                refine ⟨fields, rfl, fun content hget' => ?_⟩
                exact tame_content.1 (hcontent content (subscript_eq_ok.2 ⟨fields, rfl, hget'⟩))
              · rintro ⟨items, rfl, hmessage⟩
                refine ⟨⟨items, rfl⟩, fun message hsub => ?_⟩
                rcases subscript_eq_ok.1 hsub with ⟨items', heq, hget⟩
                obtain rfl : items = items' := by simpa using heq
                rcases hmessage message hget with ⟨fields, rfl, hcontent⟩
                rw [tame_bind, tame_subscript]
                refine ⟨⟨fields, rfl⟩, fun content hsub' => ?_⟩
                rcases subscript_eq_ok.1 hsub' with ⟨fields', heq', hget'⟩
                obtain rfl : fields = fields' := by simpa using heq'
                exact tame_content.2 (hcontent content hget')

/-! ## The caller -/

theorem exists_callOllama_iff {ollama : Ollama} {outcome : Outcome} :
    (∃ text, callOllama ollama outcome = .ok text) ↔ Tame (readNarrative ollama outcome) := by
  unfold callOllama
  cases hread : readNarrative ollama outcome with
  | ok text => exact iff_of_true ⟨some text, rfl⟩ (tame_pure text)
  | error e =>
      cases hcaught : isCaught e with
      | true => exact iff_of_true ⟨none, if_pos hcaught⟩ (tame_throw.2 hcaught)
      | false => simp [Tame, hcaught]

/-- Without a text the call gives `None`, if it gives anything. -/
theorem callOllama_of_not_carries {ollama : Ollama} {outcome : Outcome} {text : Option Str}
    (hnot : ¬ ∃ raw, Carries ollama outcome raw) (h : callOllama ollama outcome = .ok text) :
    text = none := by
  unfold callOllama at h
  cases hread : readNarrative ollama outcome with
  | ok text =>
      rcases readNarrative_eq_ok.1 hread with ⟨raw, hraw, -⟩
      exact absurd ⟨raw, hraw⟩ hnot
  | error e =>
      rw [hread] at h
      simp only at h
      split at h
      · exact (Except.ok.inj h).symm
      · cases h

/-- `generate_narrative` raises what the call raises and nothing else. -/
theorem exists_generateNarrative_iff {ollama : Ollama} {score : ClaimScore F} {outcome : Outcome} :
    (∃ result, generateNarrative ollama score outcome = .ok result) ↔
      ∃ text, callOllama ollama outcome = .ok text := by
  unfold generateNarrative
  simp only [Results.bind_eq_ok]
  constructor
  · rintro ⟨result, text, htext, -⟩
    exact ⟨text, htext⟩
  · rintro ⟨text, htext⟩
    cases text with
    | none => exact ⟨_, none, htext, rfl⟩
    | some text =>
        by_cases hgrounded : isGrounded text (allowedClaimIds score) = true
        · exact ⟨_, some text, htext, if_pos hgrounded⟩
        · exact ⟨_, some text, htext, if_neg hgrounded⟩

/-- For every outcome of the HTTP call: nothing is raised, and the template summary is
shown when the response carries no text, exactly when every layer of the response that is
JSON has the type that its reader takes apart. -/
theorem neverFails_iff (ollama : Ollama) (score : ClaimScore F) (outcome : Outcome) :
    NeverFails ollama score outcome ↔ Handled ollama outcome := by
  rw [← tame_readNarrative, ← exists_callOllama_iff]
  constructor
  · intro h
    exact h.call
  · intro hcall
    refine ⟨hcall, exists_generateNarrative_iff.2 hcall, fun hnot => ?_⟩
    rcases hcall with ⟨text, htext⟩
    obtain rfl := callOllama_of_not_carries hnot htext
    unfold generateNarrative
    rw [htext]
    rfl

/-- A response whose content is `null`. -/
theorem nullContent_raises : ¬ ∀ (ollama : Ollama) (score : ClaimScore ℚ) (outcome : Outcome),
    NeverFails ollama score outcome := by
  intro hall
  let outcome : Outcome :=
    .response 200 (.value (.dict [(str "message", .dict [(str "content", .none)])]))
  rcases (hall ⟨str "llama3.2:3b", fun _ => .invalid⟩
    ⟨⟨1⟩, "ring-detector-0.1.0", 0, .clear, none, "none",
      ⟨"No shared entities with any other claim.", [], ⟨1, 1⟩⟩⟩ outcome).call with ⟨text, htext⟩
  have hraises : callOllama ⟨str "llama3.2:3b", fun _ => .invalid⟩ outcome = .error .typeError := by
    rfl
  rw [hraises] at htext
  cases htext

end ClaimGuard
