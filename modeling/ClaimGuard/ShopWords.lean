import ClaimGuard.NameWords
import ClaimGuard.Lib.Replace

/-!
# Canonical shop names

The shop normalizer as three passes over the words of a name: suffixes of two words are
struck where a single blank is between them, suffixes of one word wherever their letters
stand, and what is left is joined by single blanks.
-/

namespace ClaimGuard

open Words Replace

/-! ## The words of a name -/

/-- The class `[a-z0-9&]`. -/
def isShopChar (c : Char) : Bool := isLowerAlnum c || c == '&'

/-- The words of a shop name: the longest runs of `[a-z0-9&]` in its lower case. -/
def shopWords (rawShopName : String) : List (List Char) :=
  words isShopChar (toLowerCase rawShopName.toList)

/-- Words that are joined by single blanks. -/
def joined (ws : List (List Char)) : List Char := [' '].intercalate ws

/-- The suffixes of one word. -/
def oneWordSuffixes : List (List Char) :=
  ["ltd".toList, "limited".toList, "inc".toList, "llc".toList]

/-- The suffixes of two words, each as its words. -/
def twoWordSuffixes : List (List Char × List Char) :=
  [("pvt".toList, "ltd".toList), ("private".toList, "limited".toList), ("&".toList, "sons".toList),
    ("and".toList, "sons".toList)]

/-- A suffix of two words with a blank between them. -/
def spaced (s : List Char × List Char) : List Char := s.1 ++ ' ' :: s.2

/-- The lower case of a name, with a blank for each character that is neither of the class
nor white space. -/
def cleanedShop (rawShopName : String) : List Char :=
  blankOutside (fun c => isLowerAlnum c || isRegexSpace c || c == '&')
    (toLowerCase rawShopName.toList)

/-- A text of the class and of white space. -/
def IsShopText (t : List Char) : Prop :=
  ∀ c ∈ t, (isLowerAlnum c || isRegexSpace c || c == '&') = true

theorem isShopChar_iff {c : Char} : isShopChar c = true ↔
    (97 ≤ c.toNat ∧ c.toNat ≤ 122) ∨ (48 ≤ c.toNat ∧ c.toNat ≤ 57) ∨ c.toNat = 38 := by
  have hand : c = '&' ↔ c.toNat = 38 := (Char.toNat_inj (d := '&')).symm
  rw [isShopChar, Bool.or_eq_true, isLowerAlnum_iff, beq_iff_eq, hand, or_assoc]

theorem isShopChar_of_isRegexSpace {c : Char} (h : isRegexSpace c = true) :
    isShopChar c = false := by
  rw [isRegexSpace_iff] at h
  rw [← Bool.not_eq_true, isShopChar_iff]
  omega

theorem isShopChar_of_le {c : Char} (h : c.toNat ≤ 0x20) : isShopChar c = false := by
  rw [← Bool.not_eq_true, isShopChar_iff]
  omega

/-- In a shop text every separator is white space. -/
theorem IsShopText.isRegexSpace {t : List Char} (ht : IsShopText t) {c : Char} (hc : c ∈ t)
    (hsep : isShopChar c = false) : isRegexSpace c = true := by
  have h := ht c hc
  rw [isShopChar, Bool.or_eq_false_iff] at hsep
  rwa [hsep.1, hsep.2, Bool.false_or, Bool.or_false] at h

theorem isShopText_cleanedShop (rawShopName : String) : IsShopText (cleanedShop rawShopName) :=
  of_mem_blankOutside (p := fun c => isLowerAlnum c || isRegexSpace c || c == '&') (by decide)

theorem words_cleanedShop (rawShopName : String) :
    words isShopChar (cleanedShop rawShopName) = shopWords rawShopName := by
  unfold cleanedShop shopWords
  apply words_blankOutside (by decide)
  intro c hc
  rw [isShopChar, Bool.or_eq_true] at hc
  rcases hc with hc | hc
  · rw [hc, Bool.true_or, Bool.true_or]
  · rw [hc, Bool.or_true]

/-- A shop text is a name that is clean already. -/
theorem cleanedShop_ofList {t : List Char} (ht : IsShopText t) :
    cleanedShop (String.ofList t) = t := by
  unfold cleanedShop blankOutside
  rw [String.toList_ofList, toLowerCase_eq_self ht]
  calc t.map _ = t.map id := List.map_congr_left fun c hc => if_pos (ht c hc)
    _ = t := List.map_id t

/-! ## The passes -/

theorem replaceFrom_eq (target replacement : List Char) (skip : ℕ) (s : List Char) :
    ClaimGuard.replaceFrom target replacement skip s =
      Replace.replaceFrom target replacement skip s := by
  induction s generalizing skip with
  | nil => cases skip <;> rfl
  | cons c s ih => cases skip <;> simp only [ClaimGuard.replaceFrom, Replace.replaceFrom, ih]

/-- The text before the white space is collapsed. -/
def struckShop (t : List Char) : List Char :=
  strikeAll ' ' oneWordSuffixes (strikeAll ' ' (twoWordSuffixes.map spaced) t)

theorem isShopText_strike {t : List Char} (ht : IsShopText t) (s : List Char) :
    IsShopText (strike ' ' s t) := by
  unfold strike
  rw [← replaceFrom_eq]
  exact of_mem_replaceFrom (p := fun c => isLowerAlnum c || isRegexSpace c || c == '&')
    (List.all_eq_true.1 (by decide)) 0 ht

theorem isShopText_strikeAll {patterns : List (List Char)} {t : List Char} (ht : IsShopText t) :
    IsShopText (strikeAll ' ' patterns t) := by
  unfold strikeAll
  induction patterns generalizing t with
  | nil => exact ht
  | cons s patterns ih => exact ih (isShopText_strike ht s)

/-- The suffix with points never occurs, for points are blanks by then. -/
theorem foldl_suffixes {t : List Char} (ht : IsShopText t) :
    suffixes.foldl (fun s suffix => ClaimGuard.replaceFrom suffix.toList [' '] 0 s) t =
      struckShop t := by
  have hpoints : ∀ u, IsShopText u → strike ' ' "pvt. ltd.".toList u = u := by
    intro u hu
    apply strike_eq_self
    intro hinside
    exact absurd (hu '.' (hinside.subset (by decide))) (by decide)
  simp only [suffixes, List.foldl_cons, List.foldl_nil, replaceFrom_eq]
  show strike ' ' _ (strike ' ' _ (strike ' ' _ (strike ' ' _ (strike ' ' _ (strike ' ' _
    (strike ' ' "pvt. ltd.".toList (strike ' ' _ (strike ' ' _ t)))))))) = _
  rw [hpoints _ (isShopText_strike (isShopText_strike ht _) _)]
  rfl

/-! ## Collapsing white space -/

theorem collapseSpaces_cons_space {c : Char} (hc : isRegexSpace c = true) (t : List Char) :
    collapseSpaces (c :: t) = ' ' :: collapseSpaces (t.dropWhile isRegexSpace) := by
  induction t generalizing c with
  | nil => simp [collapseSpaces, hc]
  | cons d t ih =>
      rw [collapseSpaces, if_pos hc]
      cases hd : isRegexSpace d with
      | true => rw [if_pos rfl, ih hd, List.dropWhile_cons_of_pos hd]
      | false =>
          rw [if_neg Bool.false_ne_true,
            List.dropWhile_cons_of_neg (by rw [hd]; exact Bool.false_ne_true)]

theorem collapseSpaces_append {w : List Char} (hw : ∀ c ∈ w, isRegexSpace c = false)
    (t : List Char) : collapseSpaces (w ++ t) = w ++ collapseSpaces t := by
  induction w with
  | nil => rfl
  | cons c w ih =>
      have hcons : collapseSpaces (c :: (w ++ t)) = c :: collapseSpaces (w ++ t) := by
        rw [collapseSpaces.eq_def]
        simp only [hw c List.mem_cons_self, if_neg Bool.false_ne_true]
      rw [List.cons_append, hcons, ih fun d hd => hw d (List.mem_cons_of_mem c hd),
        List.cons_append]

/-- The text does not end with white space. -/
def EndsInWord (t : List Char) : Prop := ∀ c ∈ t.getLast?, isRegexSpace c = false

theorem EndsInWord.of_append {s t : List Char} (h : EndsInWord (s ++ t)) : EndsInWord t := by
  intro c hc
  apply h c
  rw [List.getLast?_append, Option.mem_def.1 hc]
  rfl

theorem words_ne_nil {t : List Char} (ht : IsShopText t) (hne : t ≠ []) (hend : EndsInWord t) :
    words isShopChar t ≠ [] := by
  intro hnil
  have hmem := List.getLast_mem hne
  have hspace := ht.isRegexSpace hmem (words_eq_nil_iff.1 hnil _ hmem)
  rw [hend _ (List.getLast?_eq_some_getLast hne)] at hspace
  exact Bool.noConfusion hspace

theorem isRegexSpace_of_isWord {w : List Char} (hw : IsWord isShopChar w) :
    ∀ c ∈ w, isRegexSpace c = false := by
  intro c hc
  rw [← Bool.not_eq_true]
  intro hsep
  have hshop := isShopChar_of_isRegexSpace hsep
  rw [hw.2 c hc] at hshop
  exact Bool.noConfusion hshop

/-- Collapsing leaves the words and single blanks, if there is no white space behind them. -/
theorem collapseSpaces_dropWhile {t : List Char} (ht : IsShopText t) (hend : EndsInWord t) :
    collapseSpaces (t.dropWhile isRegexSpace) = joined (words isShopChar t) := by
  have hdrop : ∀ w, IsWord isShopChar w → ∀ u, (w ++ u).dropWhile isRegexSpace = w ++ u := by
    intro w hw u
    rcases List.exists_cons_of_ne_nil hw.1 with ⟨c, w', rfl⟩
    rw [List.cons_append, List.dropWhile_cons_of_neg]
    rw [isRegexSpace_of_isWord hw c List.mem_cons_self]
    exact Bool.false_ne_true
  induction t using induction_on (p := isShopChar) with
  | nil => rfl
  | separator c t hc ih =>
      have hsep := ht.isRegexSpace List.mem_cons_self hc
      have hne : t ≠ [] := by
        rintro rfl
        have hlast := hend c rfl
        rw [hsep] at hlast
        exact Bool.noConfusion hlast
      rw [List.dropWhile_cons_of_pos hsep, words_cons hc]
      exact ih (fun d hd => ht d (List.mem_cons_of_mem c hd)) (hend.of_append (s := [c]))
  | word w hw =>
      have hself := collapseSpaces_append (isRegexSpace_of_isWord hw) []
      rw [List.append_nil] at hself
      have hw' := hdrop w hw []
      rw [List.append_nil] at hw'
      rw [hw', hself, words_of_isWord hw, joined, List.intercalate_singleton]
      exact List.append_nil w
  | wordThen w c t hw hc ih =>
      have ht' : IsShopText t :=
        fun d hd => ht d (List.mem_append_right w (List.mem_cons_of_mem c hd))
      have hsep := ht.isRegexSpace (List.mem_append_right w List.mem_cons_self) hc
      have hne : t ≠ [] := by
        rintro rfl
        have hlast := hend c (by simp)
        rw [hsep] at hlast
        exact Bool.noConfusion hlast
      have hend' : EndsInWord t := by
        apply EndsInWord.of_append (s := w ++ [c])
        rwa [List.append_assoc]
      rw [hdrop w hw, collapseSpaces_append (isRegexSpace_of_isWord hw),
        collapseSpaces_cons_space hsep, ih ht' hend', words_append_cons hc, words_of_isWord hw,
        List.singleton_append]
      unfold joined
      rw [List.intercalate_cons_of_ne_nil (words_ne_nil ht' hne hend'), List.append_assoc,
        List.singleton_append]

/-- What a trimmed text begins with or ends with is no white space. -/
theorem trim_ends (t : List Char) : (∀ c ∈ (trim t).head?, isRegexSpace c = false) ∧
    EndsInWord (trim t) := by
  let q : Char → Bool := fun c => decide (c.toNat ≤ 0x20)
  have hspace : ∀ c, q c = false → isRegexSpace c = false := by
    intro c hc
    rw [← Bool.not_eq_true, isRegexSpace_iff]
    have hlt := of_decide_eq_false hc
    omega
  have hlast : ∀ c ∈ (trim t).getLast?, q c = false := by
    intro c hc
    have hhead := List.head?_dropWhile_not q (t.dropWhile q).reverse
    have hc' : (((t.dropWhile q).reverse.dropWhile q).reverse).getLast? = some c := hc
    rw [List.getLast?_reverse] at hc'
    rw [hc'] at hhead
    simpa using hhead
  refine ⟨?_, fun c hc => hspace c (hlast c hc)⟩
  intro c hc
  -- the trimmed text begins as the text without its front does
  have hbegins : trim t <+: t.dropWhile q := by
    have hsuffix := List.dropWhile_suffix (l := (t.dropWhile q).reverse) q
    rw [← List.reverse_prefix, List.reverse_reverse] at hsuffix
    exact hsuffix
  obtain ⟨rest, hrest⟩ := hbegins
  have hhead := List.head?_dropWhile_not q t
  rw [← hrest, List.head?_append, Option.mem_def.1 hc] at hhead
  apply hspace
  simpa using hhead

/-- The canonical name: the words that are left, joined by single blanks. -/
theorem toList_normalizeShop (rawShopName : String) : (normalizeShop rawShopName).toList =
    joined (words isShopChar (struckShop (cleanedShop rawShopName))) := by
  have htext : IsShopText (struckShop (cleanedShop rawShopName)) :=
    isShopText_strikeAll (isShopText_strikeAll (isShopText_cleanedShop rawShopName))
  obtain ⟨hhead, hend⟩ := trim_ends (struckShop (cleanedShop rawShopName))
  have hdrop : (trim (struckShop (cleanedShop rawShopName))).dropWhile isRegexSpace =
      trim (struckShop (cleanedShop rawShopName)) := by
    cases htrim : trim (struckShop (cleanedShop rawShopName)) with
    | nil => rfl
    | cons c t =>
        apply List.dropWhile_cons_of_neg
        rw [hhead c (by rw [htrim]; rfl)]
        exact Bool.false_ne_true
  have hcollapse := collapseSpaces_dropWhile (fun c hc => htext c (mem_of_mem_trim hc)) hend
  rw [hdrop, words_trim fun c => isShopChar_of_le] at hcollapse
  unfold normalizeShop
  simp only
  rw [String.toList_ofList, ← hcollapse, ← foldl_suffixes (isShopText_cleanedShop rawShopName)]
  rfl

end ClaimGuard
