import Mathlib.Data.List.TakeWhile
import Mathlib.Tactic.Common

/-!
# The words of a text

The words of a text are its longest runs of elements of a class. Every other element only
separates them: words that are joined by a separator are found again.
-/

namespace Words

variable {α : Type*} {p : α → Bool}

/-- The longest runs of elements of a class. -/
def words (p : α → Bool) (s : List α) : List (List α) :=
  (s.splitOnP fun c => !p c).filter fun w => !w.isEmpty

/-- A run of elements of a class that is not empty. -/
def IsWord (p : α → Bool) (w : List α) : Prop := w ≠ [] ∧ ∀ c ∈ w, p c = true

@[simp] theorem words_nil : words p [] = [] := rfl

/-- A separator ends a word. -/
theorem words_append_cons {c : α} (hc : p c = false) (s t : List α) :
    words p (s ++ c :: t) = words p s ++ words p t := by
  unfold words
  rw [List.splitOnP_append_cons s t (by simp [hc]), List.filter_append]

theorem words_cons {c : α} (hc : p c = false) (s : List α) : words p (c :: s) = words p s := by
  have h := words_append_cons hc [] s
  rwa [words_nil, List.nil_append, List.nil_append] at h

/-- A word is a word of its own. -/
theorem words_of_isWord {w : List α} (hw : IsWord p w) : words p w = [w] := by
  have hall : ∀ c ∈ w, (!p c) = false := by
    intro c hc
    rw [hw.2 c hc]
    rfl
  unfold words
  rw [List.splitOnP_eq_singleton hall]
  simpa using hw.1

theorem words_eq_nil {s : List α} (h : ∀ c ∈ s, p c = false) : words p s = [] := by
  induction s with
  | nil => rfl
  | cons c s ih =>
      rw [words_cons (h c List.mem_cons_self)]
      exact ih fun d hd => h d (List.mem_cons_of_mem c hd)

/-- Separators in front of a text and behind it make no difference. -/
theorem words_append_of_separators {s t u : List α} (hs : ∀ c ∈ s, p c = false)
    (hu : ∀ c ∈ u, p c = false) : words p (s ++ t ++ u) = words p t := by
  have hfront : ∀ t, words p (s ++ t) = words p t := by
    intro t
    induction s with
    | nil => rfl
    | cons c s ih =>
        rw [List.cons_append, words_cons (hs c List.mem_cons_self)]
        exact ih fun d hd => hs d (List.mem_cons_of_mem c hd)
  rw [List.append_assoc, hfront]
  cases u with
  | nil => rw [List.append_nil]
  | cons c u =>
      rw [words_append_cons (hu c List.mem_cons_self),
        words_eq_nil fun d hd => hu d (List.mem_cons_of_mem c hd), List.append_nil]

/-- A text is empty of words, or a word and then a separator, or one word, or it begins with
a separator. -/
theorem cases_of_text (p : α → Bool) (s : List α) :
    s = [] ∨ (∃ c t, p c = false ∧ s = c :: t) ∨ IsWord p s ∨
      ∃ w c t, IsWord p w ∧ p c = false ∧ s = w ++ c :: t := by
  cases s with
  | nil => exact Or.inl rfl
  | cons c s =>
      right
      cases hc : p c with
      | false => exact Or.inl ⟨c, s, hc, rfl⟩
      | true =>
          right
          have hword : IsWord p ((c :: s).takeWhile p) := by
            refine ⟨?_, fun d hd => List.mem_takeWhile_imp hd⟩
            rw [List.takeWhile_cons_of_pos hc]
            simp
          cases hrest : (c :: s).dropWhile p with
          | nil =>
              have heq := List.takeWhile_append_dropWhile (p := p) (l := c :: s)
              rw [hrest, List.append_nil] at heq
              exact Or.inl (heq ▸ hword)
          | cons d t =>
              right
              refine ⟨_, d, t, hword, ?_, ?_⟩
              · have hhead := List.head?_dropWhile_not p (c :: s)
                rw [hrest] at hhead
                simpa using hhead
              · rw [← hrest, List.takeWhile_append_dropWhile]

/-- Induction along the words of a text. -/
theorem induction_on {motive : List α → Prop} (s : List α) (nil : motive [])
    (separator : ∀ c t, p c = false → motive t → motive (c :: t))
    (word : ∀ w, IsWord p w → motive w)
    (wordThen : ∀ w c t, IsWord p w → p c = false → motive t → motive (w ++ c :: t)) :
    motive s := by
  induction hn : s.length using Nat.strongRec generalizing s with
  | _ n ih =>
      rcases cases_of_text p s with rfl | ⟨c, t, hc, rfl⟩ | hw | ⟨w, c, t, hw, hc, rfl⟩
      · exact nil
      · refine separator c t hc (ih t.length ?_ t rfl)
        rw [← hn, List.length_cons]
        omega
      · exact word s hw
      · refine wordThen w c t hw hc (ih t.length ?_ t rfl)
        rw [← hn, List.length_append, List.length_cons]
        omega

theorem isWord_of_mem {s w : List α} (h : w ∈ words p s) : IsWord p w := by
  induction s using induction_on (p := p) with
  | nil => exact absurd h List.not_mem_nil
  | separator c t hc ih =>
      rw [words_cons hc] at h
      exact ih h
  | word v hv =>
      rw [words_of_isWord hv, List.mem_singleton] at h
      exact h ▸ hv
  | wordThen v c t hv hc ih =>
      rw [words_append_cons hc, words_of_isWord hv] at h
      rcases List.mem_append.1 h with h | h
      · exact List.mem_singleton.1 h ▸ hv
      · exact ih h

/-- A text without words has separators only. -/
theorem words_eq_nil_iff {s : List α} : words p s = [] ↔ ∀ c ∈ s, p c = false := by
  refine ⟨?_, words_eq_nil⟩
  induction s using induction_on (p := p) with
  | nil => simp
  | separator c t hc ih =>
      intro h
      rw [words_cons hc] at h
      exact List.forall_mem_cons.2 ⟨hc, ih h⟩
  | word w hw =>
      intro h
      rw [words_of_isWord hw] at h
      exact absurd h (by simp)
  | wordThen w c t hw hc _ =>
      intro h
      rw [words_append_cons hc, words_of_isWord hw] at h
      exact absurd h (by simp)

/-- A change of the separators, element by element, changes no word. -/
theorem words_map {f : α → α} (hp : ∀ c, p c = true → f c = c)
    (hn : ∀ c, p c = false → p (f c) = false) (s : List α) : words p (s.map f) = words p s := by
  have hmap : ∀ w, IsWord p w → w.map f = w := by
    intro w hw
    calc w.map f = w.map id := List.map_congr_left fun c hc => hp c (hw.2 c hc)
      _ = w := List.map_id w
  induction s using induction_on (p := p) with
  | nil => rfl
  | separator c t hc ih => rw [List.map_cons, words_cons (hn c hc), words_cons hc, ih]
  | word w hw => rw [hmap w hw]
  | wordThen w c t hw hc ih =>
      rw [List.map_append, List.map_cons, hmap w hw, words_append_cons (hn c hc),
        words_append_cons hc, ih]

/-! ## Joining -/

/-- Words that are joined by a separator are found again. -/
theorem words_intercalate {c : α} (hc : p c = false) {ws : List (List α)}
    (h : ∀ w ∈ ws, IsWord p w) : words p ([c].intercalate ws) = ws := by
  induction ws with
  | nil => rfl
  | cons w ws ih =>
      have hw := h w List.mem_cons_self
      have hws := ih fun v hv => h v (List.mem_cons_of_mem w hv)
      cases ws with
      | nil => rw [List.intercalate_singleton, words_of_isWord hw]
      | cons v ws =>
          rw [List.intercalate_cons_cons, List.append_assoc, List.singleton_append,
            words_append_cons hc, words_of_isWord hw, hws, List.singleton_append]

/-- An element of a joined text is the separator or one of a word. -/
theorem of_mem_intercalate_singleton {a c : α} {ws : List (List α)}
    (h : c ∈ [a].intercalate ws) : c = a ∨ ∃ w ∈ ws, c ∈ w := by
  induction ws with
  | nil => exact absurd h List.not_mem_nil
  | cons w ws ih =>
      by_cases hws : ws = []
      · rw [hws, List.intercalate_singleton] at h
        exact Or.inr ⟨w, List.mem_cons_self, h⟩
      · rw [List.intercalate_cons_of_ne_nil hws, List.mem_append, List.mem_append,
          List.mem_singleton] at h
        rcases h with (hw | ha) | hrest
        · exact Or.inr ⟨w, List.mem_cons_self, hw⟩
        · exact Or.inl ha
        · rcases ih hrest with ha | ⟨v, hv, hmem⟩
          · exact Or.inl ha
          · exact Or.inr ⟨v, List.mem_cons_of_mem w hv, hmem⟩

/-- Lists of words are told apart by the joined texts. -/
theorem intercalate_injOn {c : α} (hc : p c = false) {vs ws : List (List α)}
    (hvs : ∀ w ∈ vs, IsWord p w) (hws : ∀ w ∈ ws, IsWord p w)
    (h : [c].intercalate vs = [c].intercalate ws) : vs = ws := by
  rw [← words_intercalate hc hvs, h, words_intercalate hc hws]

/-- The elements of the words are those of the class. -/
theorem flatten_words (s : List α) : (words p s).flatten = s.filter p := by
  have hword : ∀ w, IsWord p w → w.filter p = w := by
    intro w hw
    exact List.filter_eq_self.2 hw.2
  induction s using induction_on (p := p) with
  | nil => rfl
  | separator c t hc ih =>
      rw [words_cons hc, ih, List.filter_cons_of_neg (by rw [hc]; exact Bool.false_ne_true)]
  | word w hw => rw [words_of_isWord hw, hword w hw, List.flatten_singleton]
  | wordThen w c t hw hc ih =>
      rw [words_append_cons hc, words_of_isWord hw, List.flatten_append, List.flatten_singleton, ih,
        List.filter_append, hword w hw,
        List.filter_cons_of_neg (by rw [hc]; exact Bool.false_ne_true)]

/-! ## Two words in a row -/

/-- A text at one of its words. -/
theorem exists_of_words_eq_append {s w : List α} {ws vs : List (List α)}
    (h : words p s = ws ++ w :: vs) : ∃ x y, s = x ++ w ++ y ∧ words p x = ws ∧ words p y = vs ∧
      ∀ c ∈ y.head?, p c = false := by
  induction s using induction_on (p := p) generalizing ws with
  | nil => exact absurd h.symm (by simp)
  | separator c t hc ih =>
      rw [words_cons hc] at h
      rcases ih h with ⟨x, y, rfl, hx, hy, hhead⟩
      exact ⟨c :: x, y, rfl, by rw [words_cons hc, hx], hy, hhead⟩
  | word v hv =>
      rw [words_of_isWord hv] at h
      cases ws with
      | nil =>
          obtain ⟨rfl, rfl⟩ := List.cons.inj h
          exact ⟨[], [], by simp, rfl, rfl, by simp⟩
      | cons u ws => exact absurd (List.cons.inj h).2.symm (by simp)
  | wordThen v c t hv hc ih =>
      rw [words_append_cons hc, words_of_isWord hv, List.singleton_append] at h
      cases ws with
      | nil =>
          obtain ⟨rfl, rfl⟩ := List.cons.inj h
          exact ⟨[], c :: t, by simp, rfl, words_cons hc t, by simpa using hc⟩
      | cons u ws =>
          obtain ⟨rfl, htail⟩ := List.cons.inj h
          rcases ih htail with ⟨x, y, rfl, hx, hy, hhead⟩
          refine ⟨v ++ c :: x, y, by simp, ?_, hy, hhead⟩
          rw [words_append_cons hc, words_of_isWord hv, hx, List.singleton_append]

/-- Between two words in a row there are separators. -/
theorem infix_of_words {s v w : List α} {us ts : List (List α)}
    (h : words p s = us ++ v :: w :: ts) : ∃ m, m ≠ [] ∧ (∀ c ∈ m, p c = false) ∧
      v ++ m ++ w <:+: s := by
  have hw : IsWord p w := isWord_of_mem (s := s) (by rw [h]; simp)
  rcases exists_of_words_eq_append h with ⟨x, y, rfl, -, hy, hhead⟩
  rcases exists_of_words_eq_append (show words p y = [] ++ w :: ts from hy) with
    ⟨m, z, rfl, hm, -, -⟩
  refine ⟨m, ?_, words_eq_nil_iff.1 hm, x, z, by simp⟩
  -- the text behind a word begins with a separator, and the next word does not
  rintro rfl
  rcases List.exists_cons_of_ne_nil hw.1 with ⟨c, w, rfl⟩
  have hc := hhead c (by simp)
  rw [hw.2 c List.mem_cons_self] at hc
  exact Bool.noConfusion hc

/-- A text that ends within a word. -/
theorem words_append_right {x w : List α} (hw : IsWord p w) :
    ∃ us v, words p (x ++ w) = us ++ [v ++ w] := by
  induction x using induction_on (p := p) with
  | nil => exact ⟨[], [], words_of_isWord hw⟩
  | separator c t hc ih =>
      rcases ih with ⟨us, v, h⟩
      exact ⟨us, v, by rw [List.cons_append, words_cons hc, h]⟩
  | word v hv =>
      refine ⟨[], v, words_of_isWord ⟨by simp [hv.1], ?_⟩⟩
      intro c hc
      exact (List.mem_append.1 hc).elim (hv.2 c) (hw.2 c)
  | wordThen u c t hu hc ih =>
      rcases ih with ⟨us, v, h⟩
      refine ⟨u :: us, v, ?_⟩
      rw [List.append_assoc, List.cons_append, words_append_cons hc, words_of_isWord hu, h]
      rfl

/-- A text that begins within a word. -/
theorem words_append_left {w y : List α} (hw : IsWord p w) :
    ∃ v us, words p (w ++ y) = (w ++ v) :: us := by
  rcases cases_of_text p y with rfl | ⟨c, t, hc, rfl⟩ | hy | ⟨v, c, t, hv, hc, rfl⟩
  · exact ⟨[], [], by rw [List.append_nil, words_of_isWord hw]⟩
  · exact ⟨[], words p t, by rw [words_append_cons hc, words_of_isWord hw, List.append_nil]; rfl⟩
  · refine ⟨y, [], words_of_isWord ⟨by simp [hw.1], ?_⟩⟩
    intro c hc
    exact (List.mem_append.1 hc).elim (hw.2 c) (hy.2 c)
  · have hwv : IsWord p (w ++ v) := by
      refine ⟨by simp [hw.1], ?_⟩
      intro d hd
      exact (List.mem_append.1 hd).elim (hw.2 d) (hv.2 d)
    refine ⟨v, words p t, ?_⟩
    rw [← List.append_assoc, words_append_cons hc, words_of_isWord hwv]
    rfl

/-- Separators between two texts end the words of the first. -/
theorem words_append_separators {x m y : List α} (hne : m ≠ []) (hm : ∀ c ∈ m, p c = false) :
    words p (x ++ m ++ y) = words p x ++ words p y := by
  rcases List.exists_cons_of_ne_nil hne with ⟨c, m, rfl⟩
  rw [List.append_assoc, List.cons_append, words_append_cons (hm c List.mem_cons_self)]
  have hrest := words_append_of_separators (p := p) (s := m) (t := y) (u := [])
    (fun d hd => hm d (List.mem_cons_of_mem c hd)) (fun d hd => absurd hd List.not_mem_nil)
  rw [List.append_nil] at hrest
  rw [hrest]

/-- Two words around separators are ends of words in a row. -/
theorem words_of_infix {s v m w : List α} (hv : IsWord p v) (hw : IsWord p w) (hne : m ≠ [])
    (hm : ∀ c ∈ m, p c = false) (h : v ++ m ++ w <:+: s) :
    ∃ us x y ts, words p s = us ++ (x ++ v) :: (w ++ y) :: ts := by
  rcases h with ⟨x, y, rfl⟩
  rcases words_append_right (x := x) hv with ⟨us, v', hleft⟩
  rcases words_append_left (y := y) hw with ⟨w', ts, hright⟩
  refine ⟨us, v', w', ts, ?_⟩
  have hcut : x ++ (v ++ m ++ w) ++ y = (x ++ v) ++ m ++ (w ++ y) := by simp
  rw [hcut, words_append_separators hne hm, hleft, hright, List.append_assoc]
  rfl

/-- Words in a row are in a row in the joined text. -/
theorem infix_intercalate {c : α} {us ts : List (List α)} (x v w y : List α) :
    v ++ c :: w <:+: [c].intercalate (us ++ (x ++ v) :: (w ++ y) :: ts) := by
  induction us with
  | nil =>
      rw [List.nil_append, List.intercalate_cons_cons]
      have hfront : w <+: [c].intercalate ((w ++ y) :: ts) := by
        cases ts with
        | nil =>
            rw [List.intercalate_singleton]
            exact List.prefix_append w y
        | cons t ts =>
            rw [List.intercalate_cons_cons, List.append_assoc, List.append_assoc]
            exact List.prefix_append w _
      obtain ⟨z, hz⟩ := hfront
      exact ⟨x, z, by rw [← hz]; simp⟩
  | cons u us ih =>
      rw [List.cons_append, List.intercalate_cons_of_ne_nil (by simp)]
      exact ih.trans (List.suffix_append _ _).isInfix

end Words
