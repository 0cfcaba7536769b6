import ClaimGuard.Lib.Python
import ClaimGuard.Lib.Results
import ClaimGuard.Lib.Scan
import ClaimGuard.ScoringModels

/-!
# The investigator narrative

`generate_narrative`: a local language model writes a note about a scored claim, and a
scan for claim ids decides whether it is shown. What the model answers is arbitrary,
whatever the prompt says; the time it takes is left out.
-/

namespace ClaimGuard

open Python

variable {F : Type}

/-! ## The grounding check -/

/-- `[0-9a-f]`, in any letter case. -/
def isHex (c : ℕ) : Bool :=
  (0x30 ≤ c && c ≤ 0x39) || (0x41 ≤ c && c ≤ 0x46) || (0x61 ≤ c && c ≤ 0x66)

/-- `-`. -/
def isHyphen (c : ℕ) : Bool := c == 0x2D

/-- `UUID_PATTERN`: eight, four, four, four and twelve digits. -/
def uuidPattern : Scan.Pattern ℕ :=
  List.replicate 8 isHex ++ isHyphen :: (List.replicate 4 isHex ++ isHyphen ::
    (List.replicate 4 isHex ++ isHyphen :: (List.replicate 4 isHex ++ isHyphen ::
      List.replicate 12 isHex)))

/-- The ids a piece of evidence mentions. -/
def Evidence.mentions : Evidence F → List UUID
  | .sharedEntity _ _ _ sharedWithClaimIds => sharedWithClaimIds
  | .ringMetric _ _ _ => []
  | .featureContribution _ _ _ => []

/-- `_allowed_claim_ids`. -/
def allowedClaimIds (score : ClaimScore F) : List Str :=
  (score.claimId :: score.explanation.evidence.flatMap Evidence.mentions).map fun id =>
    str id.toString

/-- `_is_grounded`. -/
def isGrounded (text : Str) (allowedIds : List Str) : Bool :=
  -- an empty text says nothing
  if text.isEmpty then false
  else ((Scan.findall uuidPattern text).map lower).all fun m => (allowedIds.map lower).contains m

/-! ## The call of the model -/

/-- `NARRATIVE_MODEL`, and what `json.loads` makes of a text. -/
structure Ollama where
  narrativeModel : Str
  decode : Str → Decoded

/-- What the HTTP call comes to: an `httpx.HTTPError`, or a response with its status and
its body as JSON. -/
inductive Outcome where
  | transportError
  | response (status : ℕ) (body : Decoded)

/-- `response.raise_for_status()` raises on every other status. -/
def isSuccess (status : ℕ) : Bool := decide (200 ≤ status ∧ status ≤ 299)

/-- The body of the `try` of `_call_ollama`. -/
def readNarrative (ollama : Ollama) : Outcome → Except Error Str
  | .transportError => throw .httpError
  | .response status body =>
      if !isSuccess status then throw .httpError
      else do
        let message ← subscript (← body.get) (str "message")
        let content ← subscript message (str "content")
        let narrative ← subscript (← loads ollama.decode content) (str "narrative")
        match narrative with
        | .str s => pure (strip s)
        -- not a string
        | _ => throw .valueError

/-- What `_call_ollama` catches. -/
def isCaught : Error → Bool
  | .httpError => true
  | .keyError => true
  | .valueError => true
  | .typeError => false
  | .recursionError => false

/-- `_call_ollama`. -/
def callOllama (ollama : Ollama) (outcome : Outcome) : Except Error (Option Str) :=
  match readNarrative ollama outcome with
  | .ok text => pure (some text)
  | .error e => if isCaught e then pure none else throw e

/-! ## The entry point -/

/-- The outcome of one narrative. -/
structure NarrativeResult where
  text : Str
  grounded : Bool
  modelVersion : Str
deriving DecidableEq

/-- The version of a text of the model. -/
def Ollama.version (ollama : Ollama) : Str := str "ollama:" ++ ollama.narrativeModel

/-- The template summary of a score. -/
def templateFallback (score : ClaimScore F) : NarrativeResult where
  text := str score.explanation.summary
  grounded := true
  modelVersion := str "template-fallback"

/-- `generate_narrative`. -/
def generateNarrative (ollama : Ollama) (score : ClaimScore F) (outcome : Outcome) :
    Except Error NarrativeResult := do
  let allowedIds := allowedClaimIds score
  let raw ← callOllama ollama outcome
  match raw with
  | none => pure (templateFallback score)
  | some text =>
      if isGrounded text allowedIds then
        pure { text := text, grounded := true, modelVersion := ollama.version }
      else pure (templateFallback score)

/-! ## What a response carries -/

/-- The response carries a text of the model: a JSON object in the content of its
message, with a string under `narrative`. -/
def Carries (ollama : Ollama) (outcome : Outcome) (text : Str) : Prop :=
  ∃ status items message content inner,
    outcome = .response status (.value (.dict items)) ∧ isSuccess status = true ∧
      Dict.get items (str "message") = some (.dict message) ∧
      Dict.get message (str "content") = some (.str content) ∧
      ollama.decode content = .value (.dict inner) ∧
      Dict.get inner (str "narrative") = some (.str text)

theorem subscript_eq_ok {v w : Value} {key : Str} :
    subscript v key = .ok w ↔ ∃ items, v = .dict items ∧ Dict.get items key = some w := by
  cases v with
  | dict items =>
      simp only [subscript, Value.dict.injEq, exists_eq_left']
      cases Dict.get items key with
      | none => simp
      | some w' => simp
  | _ => simp [subscript]

theorem decoded_get_eq_ok {d : Decoded} {v : Value} : d.get = .ok v ↔ d = .value v := by
  cases d <;> simp [Decoded.get]

theorem loads_eq_ok {decode : Str → Decoded} {v w : Value} :
    loads decode v = .ok w ↔ ∃ s, v = .str s ∧ decode s = .value w := by
  cases v <;> simp [loads, decoded_get_eq_ok]

/-- The text that is read is one the response carries, stripped. -/
theorem readNarrative_eq_ok {ollama : Ollama} {outcome : Outcome} {text : Str} :
    readNarrative ollama outcome = .ok text ↔
      ∃ raw, Carries ollama outcome raw ∧ text = strip raw := by
  cases outcome with
  | transportError => simp [readNarrative, Carries]
  | response status body =>
      simp only [readNarrative, Results.guard_eq_ok, Results.bind_eq_ok, decoded_get_eq_ok,
        subscript_eq_ok, loads_eq_ok]
      constructor
      · rintro ⟨hstatus, -, rfl, message, ⟨items, rfl, hmessage⟩, content,
          ⟨fields, rfl, hcontent⟩, -, ⟨s, rfl, hdecode⟩, narrative, ⟨inner, rfl, hnarrative⟩, h⟩
        cases narrative with
        | str raw =>
            obtain rfl : strip raw = text := Results.pure_eq_ok.1 h
            exact ⟨raw, ⟨status, items, fields, s, inner, rfl, by simpa using hstatus, hmessage,
              hcontent, hdecode, hnarrative⟩, rfl⟩
        | _ => simp at h
      · rintro ⟨raw, ⟨status', items, message, content, inner, heq, hsuccess, hmessage, hcontent,
          hdecode, hnarrative⟩, rfl⟩
        obtain ⟨rfl, rfl⟩ : status = status' ∧ body = .value (.dict items) := by simpa using heq
        exact ⟨by simp [hsuccess], _, rfl, _, ⟨items, rfl, hmessage⟩, _, ⟨message, rfl, hcontent⟩,
          _, ⟨content, rfl, hdecode⟩, _, ⟨inner, rfl, hnarrative⟩, rfl⟩

theorem callOllama_of_carries {ollama : Ollama} {outcome : Outcome} {text : Str}
    (h : Carries ollama outcome text) : callOllama ollama outcome = .ok (some (strip text)) := by
  unfold callOllama
  rw [readNarrative_eq_ok.2 ⟨text, h, rfl⟩]
  rfl

/-- A text is shown when it is grounded. -/
theorem generateNarrative_of_carries {ollama : Ollama} (score : ClaimScore F) {outcome : Outcome}
    {text : Str} (h : Carries ollama outcome text) :
    generateNarrative ollama score outcome =
      .ok (if isGrounded (strip text) (allowedClaimIds score) then
        { text := strip text, grounded := true, modelVersion := ollama.version }
      else templateFallback score) := by
  unfold generateNarrative
  rw [callOllama_of_carries h]
  simp only [bind, Except.bind, pure, Except.pure]
  split <;> rfl

end ClaimGuard
