import Mathlib.Data.Rat.Defs
import ClaimGuard.Narrative

/-!
# What a shown narrative mentions

The scan of the grounding check reports the claim ids that do not begin inside another
one. Two ids can overlap in eight digits: the last eight of one are the first eight of
the next. The second one is not looked up.
-/

namespace ClaimGuard

open Python Scan

variable {F : Type}

/-- A claim that the score speaks of: its own, or one of its shared entities. -/
def Known (score : ClaimScore F) (id : UUID) : Prop :=
  id = score.claimId ∨ ∃ e ∈ score.explanation.evidence, id ∈ e.mentions

/-- The text is the id of a known claim, in any letter case. -/
def NamesKnown (score : ClaimScore F) (m : Str) : Prop :=
  ∃ id, Known score id ∧ lower m = lower (str id.toString)

/-- Whatever has the shape of a claim id in the text is the id of a known claim. -/
def AllKnown (score : ClaimScore F) (text : Str) : Prop :=
  ∀ i, Occurs uuidPattern text i → NamesKnown score (stretch uuidPattern text i)

/-- In the last eight digits of an id that the scan reports, at `j`, another id begins. -/
def BeginsInLastDigits (text : Str) (j i : ℕ) : Prop :=
  Visible uuidPattern text j ∧ Occurs uuidPattern text i ∧ j + 28 ≤ i ∧ i < j + 36

/-- The text is empty, or the scan reports an id of no known claim, or every id that
begins in the last digits of a reported one is that of a known claim. -/
def ScanSuffices (score : ClaimScore F) (text : Str) : Prop :=
  text = [] ∨ (∃ i, Visible uuidPattern text i ∧ ¬ NamesKnown score (stretch uuidPattern text i)) ∨
    ∀ j i, BeginsInLastDigits text j i → NamesKnown score (stretch uuidPattern text i)

/-! ## The shape of a claim id -/

/-- Where the pattern has its hyphens. -/
def uuidShape : List Bool :=
  List.replicate 8 false ++ true :: (List.replicate 4 false ++ true ::
    (List.replicate 4 false ++ true :: (List.replicate 4 false ++ true ::
      List.replicate 12 false)))

/-- What the pattern asks for at a place of the shape. -/
def shapeTest (b : Bool) : ℕ → Bool := if b then isHyphen else isHex

theorem uuidPattern_eq : uuidPattern = uuidShape.map shapeTest := by
  simp [uuidPattern, uuidShape, shapeTest]

theorem length_uuidPattern : uuidPattern.length = 36 := by
  simp [uuidPattern]

/-- No character is a digit and a hyphen. -/
theorem shapeTest_inj {a b : Bool} {c : ℕ} (ha : shapeTest a c = true)
    (hb : shapeTest b c = true) : a = b := by
  have hdisjoint : ¬ (isHex c = true ∧ isHyphen c = true) := by
    unfold isHex isHyphen
    simp only [Bool.or_eq_true, Bool.and_eq_true, decide_eq_true_eq, beq_iff_eq]
    omega
  cases a with
  | false =>
      cases b with
      | false => rfl
      | true => exact absurd ⟨ha, hb⟩ hdisjoint
  | true =>
      cases b with
      | false => exact absurd ⟨hb, ha⟩ hdisjoint
      | true => rfl

/-- Shifted by fewer than 28 places the hyphens do not fall on hyphens. -/
theorem exists_shape_ne : ∀ d < 28, 0 < d → ∃ k < 36, ∃ a b, uuidShape[d + k]? = some a ∧
    uuidShape[k]? = some b ∧ a ≠ b := by
  have hall : ∀ d < 28, 0 < d → ∃ k < 36, uuidShape[k]? = some true ∧
      uuidShape[d + k]? = some false := by
    decide
  intro d hd hpos
  rcases hall d hd hpos with ⟨k, hk, htrue, hfalse⟩
  exact ⟨k, hk, false, true, hfalse, htrue, by simp⟩

/-- Two claim ids that overlap do so in the last eight digits of the first. -/
theorem overlap_lastDigits {text : Str} {i j : ℕ} (hj : Occurs uuidPattern text j)
    (hi : Occurs uuidPattern text i) (hlt : j < i) : j + 28 ≤ i := by
  by_contra hnear
  rcases Nat.exists_eq_add_of_le (Nat.le_of_lt hlt) with ⟨d, rfl⟩
  rcases exists_shape_ne d (by omega) (by omega) with ⟨k, -, a, b, ha, hb, hne⟩
  have hp : uuidPattern[d + k]? = some (shapeTest a) := by
    rw [uuidPattern_eq, List.getElem?_map, ha, Option.map_some]
  have hq : uuidPattern[k]? = some (shapeTest b) := by
    rw [uuidPattern_eq, List.getElem?_map, hb, Option.map_some]
  rcases hj.overlap hi hp hq with ⟨c, hca, hcb⟩
  exact hne (shapeTest_inj hca hcb)

/-- What the scan passes over. -/
theorem hidden_uuid_iff {text : Str} {i : ℕ} :
    hidden uuidPattern text i = true ↔ ∃ j, BeginsInLastDigits text j i := by
  rw [hidden_iff, length_uuidPattern]
  constructor
  · rintro ⟨hi, j, hlt, hin, hj⟩
    exact ⟨j, hj, hi, overlap_lastDigits hj.1 hi hlt, hin⟩
  · rintro ⟨j, hj, hi, hlast, hin⟩
    exact ⟨hi, j, by omega, hin, hj⟩

/-! ## The check -/

theorem mem_allowedClaimIds {score : ClaimScore F} {m : Str} :
    m ∈ (allowedClaimIds score).map lower ↔ ∃ id, Known score id ∧ m = lower (str id.toString) := by
  have hknown : ∀ id, id ∈ score.claimId :: score.explanation.evidence.flatMap Evidence.mentions ↔
      Known score id := by
    intro id
    rw [List.mem_cons, List.mem_flatMap]
    exact Iff.rfl
  unfold allowedClaimIds
  constructor
  · intro hm
    rcases List.mem_map.1 hm with ⟨printed, hprinted, rfl⟩
    rcases List.mem_map.1 hprinted with ⟨id, hid, rfl⟩
    exact ⟨id, (hknown id).1 hid, rfl⟩
  · rintro ⟨id, hid, heq⟩
    have hprinted : str id.toString ∈ (score.claimId ::
        score.explanation.evidence.flatMap Evidence.mentions).map fun id => str id.toString :=
      List.mem_map.2 ⟨id, (hknown id).2 hid, rfl⟩
    exact List.mem_map.2 ⟨_, hprinted, heq.symm⟩

/-- A text passes when it is not empty and the scan reports ids of known claims only. -/
theorem isGrounded_iff {score : ClaimScore F} {text : Str} :
    isGrounded text (allowedClaimIds score) = true ↔ text ≠ [] ∧
      ∀ i, Visible uuidPattern text i → NamesKnown score (stretch uuidPattern text i) := by
  have hpattern : 0 < uuidPattern.length := by
    rw [length_uuidPattern]
    omega
  unfold isGrounded
  cases text with
  | nil => simp
  | cons c text =>
      simp only [List.isEmpty_cons, Bool.false_eq_true, if_false, List.all_eq_true,
        List.contains_iff_mem, List.mem_map, ne_eq, reduceCtorEq, not_false_eq_true, true_and]
      constructor
      · intro h i hi
        have hmem := h _ ⟨_, (mem_findall hpattern).2 ⟨i, hi, rfl⟩, rfl⟩
        rcases mem_allowedClaimIds.1 (List.mem_map.2 hmem) with ⟨id, hid, heq⟩
        exact ⟨id, hid, heq⟩
      · rintro h - ⟨m, hm, rfl⟩
        rcases (mem_findall hpattern).1 hm with ⟨i, hi, rfl⟩
        rcases h i hi with ⟨id, hid, heq⟩
        exact List.mem_map.1 (mem_allowedClaimIds.2 ⟨id, hid, heq⟩)

/-- What passes the check mentions known claims only, exactly when the scan suffices. -/
theorem isGrounded_sound_iff {score : ClaimScore F} {text : Str} :
    (isGrounded text (allowedClaimIds score) = true → AllKnown score text) ↔
      ScanSuffices score text := by
  rw [isGrounded_iff]
  constructor
  · intro h
    by_cases hempty : text = []
    · exact Or.inl hempty
    by_cases hvisible : ∃ i, Visible uuidPattern text i ∧
        ¬ NamesKnown score (stretch uuidPattern text i)
    · exact Or.inr (Or.inl hvisible)
    · refine Or.inr (Or.inr fun j i hbegins => h ⟨hempty, fun i hi => ?_⟩ i hbegins.2.1)
      by_contra hnot
      exact hvisible ⟨i, hi, hnot⟩
  · rintro (hempty | ⟨i, hi, hnot⟩ | hlast) ⟨hne, hall⟩ i hoccurs
    · exact absurd hempty hne
    · exact absurd (hall _ hi) hnot
    · -- the scan reports the occurrence or passes over it
      rcases visible_or_hidden hoccurs with hvisible | hhidden
      · exact hall i hvisible
      · rcases hidden_uuid_iff.1 hhidden with ⟨j, hbegins⟩
        exact hlast j i hbegins

/-- The template has a version of its own. -/
theorem version_ne_template (ollama : Ollama) (score : ClaimScore F) :
    (templateFallback score).modelVersion ≠ ollama.version := by
  unfold templateFallback Ollama.version str
  intro h
  have hfirst := congrArg List.head? h
  simp at hfirst

/-- For every text the model may return: it is shown only with ids of known claims,
exactly when it is empty, or the scan reports an id of no known claim, or every id that
begins in the last eight digits of a reported one is that of a known claim. -/
theorem shown_known_iff (ollama : Ollama) (score : ClaimScore F) (outcome : Outcome) (text : Str)
    (h : Carries ollama outcome text) :
    (∀ result, generateNarrative ollama score outcome = .ok result →
        result.modelVersion = ollama.version → AllKnown score result.text) ↔
      ScanSuffices score (strip text) := by
  rw [← isGrounded_sound_iff]
  have hgenerate := generateNarrative_of_carries score h
  constructor
  · intro hall hgrounded
    rw [if_pos hgrounded] at hgenerate
    exact hall _ hgenerate rfl
  · intro hsound result hresult hversion
    rw [hgenerate] at hresult
    by_cases hgrounded : isGrounded (strip text) (allowedClaimIds score) = true
    · rw [if_pos hgrounded] at hresult
      rw [← Except.ok.inj hresult]
      exact hsound hgrounded
    · rw [if_neg hgrounded] at hresult
      rw [← Except.ok.inj hresult] at hversion
      exact absurd hversion (version_ne_template ollama score)

namespace Sample

/-- A score without shared entities. -/
def score : ClaimScore ℚ where
  claimId := ⟨1⟩
  modelVersion := "ring-detector-0.1.0"
  fraudScore := 9 / 10
  decisionHint := .flag
  ringId := none
  rung := "k_core"
  explanation := ⟨"No shared entities with any other claim.", [], ⟨3 / 4, 2 / 5⟩⟩

/-- The content of an answer with a text that needs no escapes. -/
def content (text : Str) : Str := str "\x7b\"narrative\": \"" ++ text ++ str "\"\x7d"

/-- The model, with as much of `json.loads` as its answer needs. -/
def ollama (text : Str) : Ollama where
  narrativeModel := str "llama3.2:3b"
  decode s := if s = content text then .value (.dict [(str "narrative", .str text)]) else .invalid

/-- A response that carries the text. -/
def answer (text : Str) : Outcome :=
  .response 200 (.value (.dict [(str "message", .dict [(str "content", .str (content text))])]))

theorem carries_answer (text : Str) : Carries (ollama text) (answer text) text :=
  ⟨200, [(str "message", .dict [(str "content", .str (content text))])],
    [(str "content", .str (content text))], content text, [(str "narrative", .str text)], rfl, rfl,
    by simp [Dict.get], by simp [Dict.get], by simp [ollama], by simp [Dict.get]⟩

/-- A text that mentions the score's own claim. -/
def own : Str := str "Claim 00000000-0000-0000-0000-000000000001 shares a phone."

/-- The score's own claim id, then more digits: another id begins in its last eight. -/
def overlappingIds : Str := str "00000000-0000-0000-0000-000000000001-1111-2222-3333-444444444444"

end Sample

/-- The text has one id. -/
theorem Sample.scanSuffices_own : ScanSuffices Sample.score (strip Sample.own) := by
  have hstrip : strip Sample.own = Sample.own := by decide +kernel
  have honly : ∀ i < Sample.own.length, Occurs uuidPattern Sample.own i → i = 6 := by
    decide +kernel
  have hplace : ∀ i, Occurs uuidPattern Sample.own i → i = 6 := by
    intro i hi
    refine honly i ?_ hi
    by_contra hge
    unfold Occurs at hi
    rw [List.drop_eq_nil_of_le (not_lt.1 hge)] at hi
    cases hi
  rw [hstrip]
  refine Or.inr (Or.inr fun j i hbegins => ?_)
  rcases hbegins with ⟨hvisible, hoccurs, hle, -⟩
  have hi := hplace i hoccurs
  omega

/-- A text that mentions its own claim is shown, and the ids in it are of known claims. -/
theorem shown_known_iff_own : ∃ result, generateNarrative (Sample.ollama Sample.own) Sample.score
      (Sample.answer Sample.own) = .ok result ∧
    result.modelVersion = (Sample.ollama Sample.own).version ∧
    AllKnown Sample.score result.text := by
  have hgrounded : isGrounded (strip Sample.own) (allowedClaimIds Sample.score) = true := by
    decide +kernel
  have hgenerate := generateNarrative_of_carries Sample.score (Sample.carries_answer Sample.own)
  rw [if_pos hgrounded] at hgenerate
  exact ⟨_, hgenerate, rfl, (shown_known_iff (Sample.ollama Sample.own) Sample.score
    (Sample.answer Sample.own) Sample.own (Sample.carries_answer Sample.own)).2
      Sample.scanSuffices_own _ hgenerate rfl⟩

/-- A shown text that mentions a claim the score does not speak of. -/
theorem overlapping_shown : ¬ ∀ (ollama : Ollama) (score : ClaimScore ℚ) (outcome : Outcome)
    (text : Str), Carries ollama outcome text →
    ∀ result, generateNarrative ollama score outcome = .ok result →
      result.modelVersion = ollama.version → AllKnown score result.text := by
  intro hall
  have hstrip : strip Sample.overlappingIds = Sample.overlappingIds := by decide +kernel
  have hgrounded :
      isGrounded (strip Sample.overlappingIds) (allowedClaimIds Sample.score) = true := by
    decide +kernel
  have hgenerate := generateNarrative_of_carries Sample.score
    (Sample.carries_answer Sample.overlappingIds)
  rw [if_pos hgrounded, hstrip] at hgenerate
  have hoccurs : Occurs uuidPattern Sample.overlappingIds 28 := by decide +kernel
  rcases hall _ _ _ _ (Sample.carries_answer Sample.overlappingIds) _ hgenerate rfl 28 hoccurs
    with ⟨id, hknown, heq⟩
  -- the score speaks of its own claim only
  have hid : id = Sample.score.claimId := by
    rcases hknown with hid | ⟨e, he, -⟩
    · exact hid
    · cases he
  rw [hid] at heq
  exact absurd heq (by decide +kernel)

end ClaimGuard
