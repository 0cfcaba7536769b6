import ClaimGuard.ShopFormatting

/-!
# Shop names without legal suffixes

The suffixes are struck as letters, not as words: a name that has none of them among its
words keeps its words just where no suffix is found within them or across two of them.
-/

namespace ClaimGuard

open Words Replace

/-- The words the suffixes are made of. -/
def legalWords : List (List Char) :=
  oneWordSuffixes ++ ["pvt".toList, "private".toList, "sons".toList, "&".toList]

/-- No word of the name is one that the suffixes are made of. -/
def NoLegalWord (rawShopName : String) : Prop := ∀ w ∈ shopWords rawShopName, w ∉ legalWords

instance (rawShopName : String) : Decidable (NoLegalWord rawShopName) :=
  inferInstanceAs (Decidable (∀ w ∈ shopWords rawShopName, w ∉ legalWords))

/-- The letters of a suffix are in the name: of one word within a word, or of two words in a
row, with a blank between them or a character that becomes one. -/
def HasSuffixLetters (rawShopName : String) : Prop :=
  (∃ s ∈ oneWordSuffixes, ∃ w ∈ shopWords rawShopName, s <:+: w) ∨
    ∃ s ∈ twoWordSuffixes, ∃ c, isShopChar c = false ∧ (isRegexSpace c = true → c = ' ') ∧
      s.1 ++ c :: s.2 <:+: toLowerCase rawShopName.toList

/-! ## Characters that become blanks -/

/-- What becomes of a character of the lowercased name. -/
def cleanedChar (c : Char) : Char :=
  if (isLowerAlnum c || isRegexSpace c || c == '&') then c else ' '

theorem cleanedChar_of_isShopChar {c : Char} (h : isShopChar c = true) : cleanedChar c = c := by
  apply if_pos
  rw [isShopChar, Bool.or_eq_true] at h
  rcases h with h | h
  · rw [h, Bool.true_or, Bool.true_or]
  · rw [h, Bool.or_true]

/-- A character that a word is left with was there before. -/
theorem cleanedChar_eq_self {c : Char} (h : isShopChar (cleanedChar c) = true) :
    cleanedChar c = c := by
  by_cases hclass : (isLowerAlnum c || isRegexSpace c || c == '&') = true
  · exact if_pos hclass
  · have hblank : cleanedChar c = ' ' := if_neg hclass
    rw [hblank] at h
    exact absurd h (by decide)

/-- The characters that are a blank in the end. -/
theorem cleanedChar_eq_blank_iff {c : Char} :
    cleanedChar c = ' ' ↔ isShopChar c = false ∧ (isRegexSpace c = true → c = ' ') := by
  by_cases hclass : (isLowerAlnum c || isRegexSpace c || c == '&') = true
  · rw [show cleanedChar c = c from if_pos hclass]
    constructor
    · intro heq
      rw [heq]
      exact ⟨by decide, fun _ => rfl⟩
    · intro h
      obtain ⟨hshop, hspace⟩ := h
      rw [isShopChar, Bool.or_eq_false_iff] at hshop
      rw [hshop.1, hshop.2, Bool.false_or, Bool.or_false] at hclass
      exact hspace hclass
  · rw [show cleanedChar c = ' ' from if_neg hclass]
    rw [Bool.not_eq_true, Bool.or_eq_false_iff, Bool.or_eq_false_iff] at hclass
    refine ⟨fun _ => ⟨?_, fun hspace => absurd hspace (by rw [hclass.1.2]; decide)⟩, fun _ => rfl⟩
    rw [isShopChar, hclass.1.1, hclass.2]
    rfl

theorem map_cleanedChar_eq_word {v w : List Char} (hw : IsWord isShopChar w) :
    v.map cleanedChar = w ↔ v = w := by
  have hself : (∀ c ∈ v, cleanedChar c = c) → v.map cleanedChar = v := fun h =>
    (List.map_congr_left h).trans (List.map_id v)
  constructor
  · intro heq
    rw [← heq, hself]
    intro c hc
    exact cleanedChar_eq_self (hw.2 _ (heq ▸ List.mem_map_of_mem hc))
  · intro heq
    rw [← heq] at hw ⊢
    exact hself fun c hc => cleanedChar_of_isShopChar (hw.2 c hc)

/-- A suffix of two words comes from its words with a character between them that becomes a
blank. -/
theorem map_cleanedChar_eq_spaced {s : List Char × List Char} (hs : s ∈ twoWordSuffixes)
    {v : List Char} : v.map cleanedChar = spaced s ↔
      ∃ c, isShopChar c = false ∧ (isRegexSpace c = true → c = ' ') ∧ v = s.1 ++ c :: s.2 := by
  obtain ⟨hfirst, hsecond⟩ := isWord_twoWordSuffixes s hs
  unfold spaced
  rw [List.map_eq_append_iff]
  constructor
  · rintro ⟨v₁, v₂, rfl, h₁, h₂⟩
    rcases List.map_eq_cons_iff.1 h₂ with ⟨c, v₃, rfl, hc, h₃⟩
    obtain ⟨hshop, hspace⟩ := cleanedChar_eq_blank_iff.1 hc
    rw [(map_cleanedChar_eq_word hfirst).1 h₁, (map_cleanedChar_eq_word hsecond).1 h₃]
    exact ⟨c, hshop, hspace, rfl⟩
  · rintro ⟨c, hshop, hspace, rfl⟩
    refine ⟨s.1, c :: s.2, rfl, (map_cleanedChar_eq_word hfirst).2 rfl, ?_⟩
    rw [List.map_cons, cleanedChar_eq_blank_iff.2 ⟨hshop, hspace⟩,
      (map_cleanedChar_eq_word hsecond).2 rfl]

theorem hasTwoWordSuffix_cleanedShop_iff (rawShopName : String) :
    HasTwoWordSuffix (cleanedShop rawShopName) ↔
      ∃ s ∈ twoWordSuffixes, ∃ c, isShopChar c = false ∧ (isRegexSpace c = true → c = ' ') ∧
        s.1 ++ c :: s.2 <:+: toLowerCase rawShopName.toList := by
  have hmap : cleanedShop rawShopName = (toLowerCase rawShopName.toList).map cleanedChar := rfl
  unfold HasTwoWordSuffix
  rw [hmap]
  constructor
  · rintro ⟨s, hs, hinside⟩
    rcases List.infix_map_iff.1 hinside with ⟨v, hv, heq⟩
    rcases (map_cleanedChar_eq_spaced hs).1 heq.symm with ⟨c, hshop, hspace, rfl⟩
    exact ⟨s, hs, c, hshop, hspace, hv⟩
  · rintro ⟨s, hs, c, hshop, hspace, hinside⟩
    have heq := (map_cleanedChar_eq_spaced hs).2 ⟨c, hshop, hspace, rfl⟩
    exact ⟨s, hs, List.infix_map_iff.2 ⟨_, hinside, heq.symm⟩⟩

/-! ## Whole words -/

/-- Letters are lost just where a suffix is found. -/
theorem words_struckShop_eq_iff (t : List Char) :
    words isShopChar (struckShop t) = words isShopChar t ↔
    (∀ s ∈ oneWordSuffixes, ¬ s <:+: t) ∧ ¬ HasTwoWordSuffix t := by
  let letters := fun t : List Char => (t.filter isShopChar).length
  have hletters : ∀ t, (words isShopChar t).flatten.length = letters t := by
    intro t
    rw [flatten_words]
  have hoccurrence : ∀ s ∈ oneWordSuffixes, s ≠ [] ∧ ClosedEnd s s ∧ 0 < s.length ∧
      ∀ x y, letters (x ++ s ++ y) = letters x + s.length + letters y := by
    intro s hs
    have hs' := plain_oneWordSuffixes s hs
    refine ⟨hs'.ne_nil, hs'.border, List.length_pos_iff.2 hs'.ne_nil, ?_⟩
    intro x y
    show (List.filter _ _).length = _
    rw [List.filter_append, List.filter_append,
      List.filter_eq_self.2 (isWord_oneWordSuffixes s hs).2, List.length_append,
      List.length_append]
  have hblank : ∀ x y, letters (x ++ ' ' :: y) = letters x + letters y := by
    intro x y
    show (List.filter _ _).length = _
    rw [List.filter_append, List.filter_cons_of_neg (by decide), List.length_append]
  have hone := measure_strikeAll oneWordSuffixes List.length hoccurrence hblank t
  constructor
  · intro heq
    have hletter := congrArg (fun ws => ws.flatten.length) heq
    simp only [hletters] at hletter
    have htwo : ¬ HasTwoWordSuffix t := by
      intro hsuffix
      have hlt := lettersLeft_lt hsuffix
      rw [hletters, hletter] at hlt
      exact absurd hone.1 (not_le.2 hlt)
    refine ⟨?_, htwo⟩
    intro s hs hinside
    have hlt := hone.2 ⟨s, hs, hinside⟩
    rw [← hletters t, ← heq, words_struckShop htwo, ← lettersLeft_eq] at hlt
    exact lt_irrefl _ hlt
  · rintro ⟨hnone, htwo⟩
    rw [words_struckShop htwo, wordsLeft, strikeAll_eq_self hnone]

/-- A name keeps its words just where no suffix is found. -/
theorem normalizeShop_eq_words_iff (rawShopName : String) :
    (normalizeShop rawShopName).toList = joined (shopWords rawShopName) ↔
      ¬ HasSuffixLetters rawShopName := by
  have hone : (∀ s ∈ oneWordSuffixes, ¬ s <:+: cleanedShop rawShopName) ↔
      ¬ ∃ s ∈ oneWordSuffixes, ∃ w ∈ shopWords rawShopName, s <:+: w := by
    rw [← words_cleanedShop]
    push Not
    refine forall₂_congr fun s hs => ?_
    rw [infix_iff_exists_word (isWord_oneWordSuffixes s hs)]
    push Not
    rfl
  unfold HasSuffixLetters
  rw [not_or, ← hasTwoWordSuffix_cleanedShop_iff, ← hone, ← words_struckShop_eq_iff,
    words_cleanedShop, toList_normalizeShop]
  constructor
  · exact intercalate_injOn (by decide) (fun _ => isWord_of_mem) isWord_of_mem_shopWords
  · intro heq
    rw [heq]

/-- Two names without legal words keep their words, and are told apart by them, just where no
suffix is found in either. -/
theorem normalizeShop_wholeWords_iff (a b : String) :
    (NoLegalWord a → NoLegalWord b →
        (normalizeShop a).toList = joined (shopWords a) ∧
        (normalizeShop b).toList = joined (shopWords b) ∧
        (normalizeShop a = normalizeShop b → shopWords a = shopWords b)) ↔
      (NoLegalWord a → NoLegalWord b → ¬ HasSuffixLetters a ∧ ¬ HasSuffixLetters b) := by
  refine forall₂_congr fun _ _ => ?_
  rw [normalizeShop_eq_words_iff, normalizeShop_eq_words_iff]
  refine ⟨fun h => ⟨h.1, h.2.1⟩, fun h => ⟨h.1, h.2, ?_⟩⟩
  intro heq
  have hlist := congrArg String.toList heq
  rw [(normalizeShop_eq_words_iff a).2 h.1, (normalizeShop_eq_words_iff b).2 h.2] at hlist
  exact intercalate_injOn (by decide) isWord_of_mem_shopWords isWord_of_mem_shopWords hlist

/-- The letters of `inc` are struck out of the middle of a word, and two shops become one. -/
theorem normalizeShop_lincoln :
    NoLegalWord "Lincoln Motors" ∧ normalizeShop "Lincoln Motors" = "l oln motors" ∧
      NoLegalWord "L-Oln Motors" ∧ normalizeShop "L-Oln Motors" = normalizeShop "Lincoln Motors" ∧
      shopWords "L-Oln Motors" ≠ shopWords "Lincoln Motors" := by
  decide

end ClaimGuard
