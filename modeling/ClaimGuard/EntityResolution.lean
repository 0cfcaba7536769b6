import ClaimGuard.Domain
import ClaimGuard.Lib.Utf16

/-!
# Entity resolution

The address and shop normalizers, on the characters of a string. The phone
normalizer is a library call and a parameter of the model.
-/

namespace ClaimGuard

/-! ## String operations -/

/-- `toLowerCase(Locale.ROOT)`, as far as the normalizers can tell: `A-Z`, the
Kelvin sign and the dotted capital I are the characters whose lower case has an
ASCII letter. Every other character outside ASCII is blanked in the next step,
in either case. -/
def toLowerCase (s : List Char) : List Char :=
  s.flatMap fun c =>
    if 'A' ≤ c ∧ c ≤ 'Z' then [Char.ofNat (c.toNat + 32)]
    else if c.toNat = 0x212A then ['k']
    else if c.toNat = 0x0130 then ['i', Char.ofNat 0x0307]
    else [c]

/-- The class `\s`: space, tab, line feed, vertical tab, form feed, return. -/
def isRegexSpace (c : Char) : Bool := c == ' ' || (0x9 ≤ c.toNat && c.toNat ≤ 0xD)

/-- The class `[a-z0-9]`. -/
def isLowerAlnum (c : Char) : Bool := ('a' ≤ c && c ≤ 'z') || ('0' ≤ c && c ≤ '9')

/-- `replaceAll("[^...]", " ")`: blank every character outside a class. -/
def blankOutside (p : Char → Bool) (s : List Char) : List Char :=
  s.map fun c => if p c then c else ' '

/-- `trim()`: drop the characters up to U+0020 at both ends. -/
def trim (s : List Char) : List Char :=
  ((s.dropWhile fun c => c.toNat ≤ 0x20).reverse.dropWhile fun c => c.toNat ≤ 0x20).reverse

/-- `split("\\s+")`, without the blank tokens. -/
def splitTokens (s : List Char) : List (List Char) :=
  (s.splitOnP isRegexSpace).filter fun token => !token.all isWhitespace

/-- `String.replace` of a nonempty literal: occurrences from left to right, the
characters of an occurrence being skipped. -/
def replaceFrom (target replacement : List Char) : ℕ → List Char → List Char
  | _, [] => []
  | skip + 1, _ :: cs => replaceFrom target replacement skip cs
  | 0, c :: cs =>
      if target.isPrefixOf (c :: cs) then
        replacement ++ replaceFrom target replacement (target.length - 1) cs
      else c :: replaceFrom target replacement 0 cs

/-- `replaceAll("\\s+", " ")`: each run of white space becomes one blank. -/
def collapseSpaces : List Char → List Char
  | [] => []
  | c :: cs =>
      if isRegexSpace c then
        match cs with
        | [] => [' ']
        | d :: _ => if isRegexSpace d then collapseSpaces cs else ' ' :: collapseSpaces cs
      else c :: collapseSpaces cs

/-! ## AddressNormalizer -/

/-- `ABBREVIATIONS`. -/
def abbreviations : List (String × String) :=
  [("rd", "road"), ("st", "street"), ("ave", "avenue"), ("apt", "apartment"),
    ("blvd", "boulevard"), ("ln", "lane"), ("dr", "drive"), ("no", "number")]

/-- `AddressNormalizer.normalize`: lower case, no punctuation, abbreviations
expanded, tokens sorted. -/
def normalizeAddress (rawAddress : String) : String :=
  let cleaned := blankOutside (fun c => isLowerAlnum c || isRegexSpace c)
    (toLowerCase rawAddress.toList)
  let tokens := (splitTokens (trim cleaned)).map fun token =>
    (abbreviations.lookup (String.ofList token)).getD (String.ofList token)
  String.intercalate " " (tokens.insertionSort Utf16.Le)

/-! ## ShopNormalizer -/

/-- `SUFFIXES`, in the order they are removed. -/
def suffixes : List String :=
  ["pvt ltd", "private limited", "pvt. ltd.", "& sons", "and sons", "ltd", "limited", "inc", "llc"]

/-- `ShopNormalizer.normalize`: lower case, no legal-entity suffixes, white space
collapsed. -/
def normalizeShop (rawShopName : String) : String :=
  let cleaned := blankOutside (fun c => isLowerAlnum c || isRegexSpace c || c == '&')
    (toLowerCase rawShopName.toList)
  let stripped := suffixes.foldl (fun s suffix => replaceFrom suffix.toList [' '] 0 s) cleaned
  String.ofList (collapseSpaces (trim stripped))

/-! ## What the normalizers leave -/

section

variable {p : Char → Bool}

theorem of_mem_blankOutside (hspace : p ' ' = true) {s : List Char} :
    ∀ c ∈ blankOutside p s, p c = true := by
  intro c hc
  rcases List.mem_map.1 hc with ⟨d, -, rfl⟩
  split
  · assumption
  · exact hspace

theorem mem_of_mem_trim {s : List Char} {c : Char} (h : c ∈ trim s) : c ∈ s := by
  have hinner := (List.dropWhile_suffix _).subset (List.mem_reverse.1 h)
  exact (List.dropWhile_suffix _).subset (List.mem_reverse.1 hinner)

theorem mem_of_mem_splitOnPPrepend (cs acc : List Char) {token : List Char} {c : Char}
    (htoken : token ∈ cs.splitOnPPrepend p acc) (hc : c ∈ token) : c ∈ cs ∨ c ∈ acc := by
  fun_induction List.splitOnPPrepend p cs acc with
  | case1 acc =>
      rw [List.mem_singleton.1 htoken, List.mem_reverse] at hc
      exact Or.inr hc
  | case2 d cs acc hd ih =>
      rcases List.mem_cons.1 htoken with rfl | hrest
      · exact Or.inr (List.mem_reverse.1 hc)
      · rcases ih hrest with hcs | hnil
        · exact Or.inl (List.mem_cons_of_mem d hcs)
        · exact absurd hnil List.not_mem_nil
  | case3 d cs acc hd ih =>
      rcases ih htoken with hcs | hacc
      · exact Or.inl (List.mem_cons_of_mem d hcs)
      · rcases List.mem_cons.1 hacc with rfl | hacc
        · exact Or.inl List.mem_cons_self
        · exact Or.inr hacc

theorem of_mem_splitTokens {s token : List Char} (hs : ∀ c ∈ s, p c = true)
    (h : token ∈ splitTokens s) : ∀ c ∈ token, p c = true := by
  intro c hc
  rcases mem_of_mem_splitOnPPrepend s [] (List.mem_of_mem_filter h) hc with hmem | hnil
  · exact hs c hmem
  · exact absurd hnil List.not_mem_nil

theorem of_mem_replaceFrom {target replacement : List Char}
    (hreplacement : ∀ c ∈ replacement, p c = true) (skip : ℕ) {s : List Char}
    (hs : ∀ c ∈ s, p c = true) : ∀ c ∈ replaceFrom target replacement skip s, p c = true := by
  induction s generalizing skip with
  | nil =>
      intro c hc
      cases skip <;> exact absurd hc List.not_mem_nil
  | cons d s ih =>
      have hs' : ∀ c ∈ s, p c = true := fun c hc => hs c (List.mem_cons_of_mem d hc)
      cases skip with
      | succ skip => exact ih skip hs'
      | zero =>
          intro c hc
          unfold replaceFrom at hc
          split at hc
          · rcases List.mem_append.1 hc with hc | hc
            · exact hreplacement c hc
            · exact ih _ hs' c hc
          · rcases List.mem_cons.1 hc with rfl | hc
            · exact hs c List.mem_cons_self
            · exact ih 0 hs' c hc

theorem of_mem_collapseSpaces (hspace : p ' ' = true) {s : List Char}
    (hs : ∀ c ∈ s, p c = true) : ∀ c ∈ collapseSpaces s, p c = true := by
  induction s with
  | nil => exact fun c hc => absurd hc List.not_mem_nil
  | cons d s ih =>
      have hs' : ∀ c ∈ s, p c = true := fun c hc => hs c (List.mem_cons_of_mem d hc)
      intro c hc
      unfold collapseSpaces at hc
      split at hc
      · split at hc
        · rw [List.mem_singleton.1 hc]
          exact hspace
        · split at hc
          · exact ih hs' c hc
          · rcases List.mem_cons.1 hc with rfl | hc
            · exact hspace
            · exact ih hs' c hc
      · rcases List.mem_cons.1 hc with rfl | hc
        · exact hs c List.mem_cons_self
        · exact ih hs' c hc

theorem of_mem_intercalate {separator : String} (hseparator : ∀ c ∈ separator.toList, p c = true)
    {tokens : List String} (htokens : ∀ t ∈ tokens, ∀ c ∈ t.toList, p c = true) :
    ∀ c ∈ (String.intercalate separator tokens).toList, p c = true := by
  induction tokens with
  | nil =>
      intro c hc
      rw [String.intercalate_nil] at hc
      exact absurd hc List.not_mem_nil
  | cons t tokens ih =>
      have ht := htokens t List.mem_cons_self
      have htokens' := fun u hu => htokens u (List.mem_cons_of_mem t hu)
      intro c hc
      by_cases hempty : tokens = []
      · rw [hempty, String.intercalate_singleton] at hc
        exact ht c hc
      · rw [String.intercalate_cons_of_ne_nil hempty, String.toList_append, String.toList_append,
          List.mem_append, List.mem_append] at hc
        rcases hc with (hc | hc) | hc
        · exact ht c hc
        · exact hseparator c hc
        · exact ih htokens' c hc

end

/-- A normalized address has letters, digits and white space only. -/
theorem of_mem_normalizeAddress (rawAddress : String) :
    ∀ c ∈ (normalizeAddress rawAddress).toList, (isLowerAlnum c || isRegexSpace c) = true := by
  refine of_mem_intercalate (p := fun c => isLowerAlnum c || isRegexSpace c)
    (List.all_eq_true.1 (by decide)) ?_
  intro token htoken
  have hmem := (List.perm_insertionSort Utf16.Le _).mem_iff.1 htoken
  rcases List.mem_map.1 hmem with ⟨raw, hraw, rfl⟩
  cases hlookup : abbreviations.lookup (String.ofList raw) with
  | some expansion =>
      have hall : (abbreviations.all fun entry => entry.2.toList.all fun c =>
          isLowerAlnum c || isRegexSpace c) = true := by decide
      rcases List.lookup_eq_some_iff.1 hlookup with ⟨before, after, heq, -⟩
      have hmem' : (String.ofList raw, expansion) ∈ abbreviations :=
        heq ▸ List.mem_append_right _ List.mem_cons_self
      exact List.all_eq_true.1 (List.all_eq_true.1 hall _ hmem')
  | none =>
      rw [Option.getD_none, String.toList_ofList]
      exact of_mem_splitTokens (fun c hc => of_mem_blankOutside (by decide) c (mem_of_mem_trim hc))
        hraw

/-- A normalized shop name has letters, digits, ampersands and white space only. -/
theorem of_mem_normalizeShop (rawShopName : String) :
    ∀ c ∈ (normalizeShop rawShopName).toList,
      (isLowerAlnum c || isRegexSpace c || c == '&') = true := by
  unfold normalizeShop
  rw [String.toList_ofList]
  refine of_mem_collapseSpaces (p := fun c => isLowerAlnum c || isRegexSpace c || c == '&')
    (by decide) fun c hc => ?_
  have hstripped : ∀ (suffixes : List String) (s : List Char),
      (∀ c ∈ s, (isLowerAlnum c || isRegexSpace c || c == '&') = true) →
      ∀ c ∈ suffixes.foldl (fun s suffix => replaceFrom suffix.toList [' '] 0 s) s,
        (isLowerAlnum c || isRegexSpace c || c == '&') = true := by
    intro suffixes
    induction suffixes with
    | nil => exact fun s hs => hs
    | cons suffix suffixes ih =>
        intro s hs
        exact ih _ (of_mem_replaceFrom (p := fun c => isLowerAlnum c || isRegexSpace c || c == '&')
          (List.all_eq_true.1 (by decide)) 0 hs)
  exact hstripped suffixes _ (of_mem_blankOutside
    (p := fun c => isLowerAlnum c || isRegexSpace c || c == '&') (by decide)) c (mem_of_mem_trim hc)

end ClaimGuard
