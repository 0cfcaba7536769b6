import Mathlib.Data.Multiset.Defs
import ClaimGuard.NameWords

/-!
# Canonical addresses

A canonical address is the sorted list of the address's tokens. It stands for exactly the
multiset of the tokens: sorting forgets their order, and the joined words are found again.
-/

namespace ClaimGuard

open Words

/-- A token, with an abbreviation spelled out. -/
def expand (token : String) : String := (abbreviations.lookup token).getD token

/-- The tokens of an address: the longest runs of `[a-z0-9]` in its lower case, with the
abbreviations spelled out. -/
def addressTokens (rawAddress : String) : List String :=
  (words isLowerAlnum (toLowerCase rawAddress.toList)).map fun w => expand (String.ofList w)

/-! ## The tokens of the normalizer -/

/-- A text of letters, digits and white space is split at its white space into words. -/
theorem splitTokens_eq_words {s : List Char}
    (hs : ∀ c ∈ s, (isLowerAlnum c || isRegexSpace c) = true) :
    splitTokens s = words isLowerAlnum s := by
  have hspace : ∀ c, (isLowerAlnum c || isRegexSpace c) = true → isLowerAlnum c = false →
      isRegexSpace c = true := by
    intro c hc hn
    rwa [hn, Bool.false_or] at hc
  -- a word is one token, and it is not blank
  have hword : ∀ w, IsWord isLowerAlnum w → splitTokens w = [w] := by
    intro w hw
    have hsingle : w.splitOnP isRegexSpace = [w] := by
      apply List.splitOnP_eq_singleton
      intro c hc
      rw [← Bool.not_eq_true]
      intro hsep
      have hn := isLowerAlnum_of_isRegexSpace hsep
      rw [hw.2 c hc] at hn
      exact Bool.noConfusion hn
    have hblank : w.all isWhitespace = false := by
      rcases List.exists_mem_of_ne_nil w hw.1 with ⟨c, hc⟩
      rw [List.all_eq_false]
      exact ⟨c, hc, by rw [isWhitespace_of_isLowerAlnum (hw.2 c hc)]; exact Bool.false_ne_true⟩
    unfold splitTokens
    rw [hsingle, List.filter_cons, hblank, List.filter_nil]
    rfl
  have hcons : ∀ u c t, isRegexSpace c = true →
      splitTokens (u ++ c :: t) = splitTokens u ++ splitTokens t := by
    intro u c t hc
    unfold splitTokens
    rw [List.splitOnP_append_cons u t hc, List.filter_append]
  induction s using induction_on (p := isLowerAlnum) with
  | nil => rfl
  | separator c t hc ih =>
      rw [words_cons hc, ← ih fun d hd => hs d (List.mem_cons_of_mem c hd)]
      exact hcons [] c t (hspace c (hs c List.mem_cons_self) hc)
  | word w hw => rw [words_of_isWord hw, hword w hw]
  | wordThen w c t hw hc ih =>
      have hc' := hspace c (hs c (List.mem_append_right w List.mem_cons_self)) hc
      rw [words_append_cons hc, words_of_isWord hw, hcons w c t hc', hword w hw,
        ih fun d hd => hs d (List.mem_append_right w (List.mem_cons_of_mem c hd))]

/-- The normalizer joins the sorted tokens. -/
theorem normalizeAddress_eq (rawAddress : String) : normalizeAddress rawAddress =
    String.intercalate " " ((addressTokens rawAddress).insertionSort Utf16.Le) := by
  have hclass : ∀ c ∈ trim (blankOutside (fun c => isLowerAlnum c || isRegexSpace c)
      (toLowerCase rawAddress.toList)), (isLowerAlnum c || isRegexSpace c) = true := by
    intro c hc
    exact of_mem_blankOutside (p := fun c => isLowerAlnum c || isRegexSpace c) (by decide) c
      (mem_of_mem_trim hc)
  have hlow : ∀ c : Char, c.toNat ≤ 0x20 → isLowerAlnum c = false := by
    intro c hc
    rw [← Bool.not_eq_true, isLowerAlnum_iff]
    omega
  unfold normalizeAddress addressTokens expand
  simp only
  rw [splitTokens_eq_words hclass, words_trim hlow, words_blankOutside (by decide)]
  intro c hc
  rw [hc, Bool.true_or]

/-! ## Tokens are words -/

/-- A token has letters and digits only, and at least one. -/
def IsToken (token : String) : Prop := IsWord isLowerAlnum token.toList

/-- What a token is spelled out as is a token, and stays as it is. -/
theorem expand_expand {w : List Char} (hw : IsWord isLowerAlnum w) :
    IsToken (expand (String.ofList w)) ∧
      expand (expand (String.ofList w)) = expand (String.ofList w) := by
  cases hlookup : abbreviations.lookup (String.ofList w) with
  | none =>
      have hself : expand (String.ofList w) = String.ofList w := by
        unfold expand
        rw [hlookup, Option.getD_none]
      rw [hself, hself]
      exact ⟨by rwa [IsToken, String.toList_ofList], rfl⟩
  | some expansion =>
      have hself : expand (String.ofList w) = expansion := by
        unfold expand
        rw [hlookup, Option.getD_some]
      -- no expansion is an abbreviation
      have hall : (abbreviations.all fun e => !e.2.toList.isEmpty && e.2.toList.all isLowerAlnum &&
          (expand e.2 == e.2)) = true := by decide
      rcases List.lookup_eq_some_iff.1 hlookup with ⟨before, after, heq, -⟩
      have hmem : (String.ofList w, expansion) ∈ abbreviations :=
        heq ▸ List.mem_append_right before List.mem_cons_self
      have hentry := List.all_eq_true.1 hall _ hmem
      rw [Bool.and_eq_true, Bool.and_eq_true, beq_iff_eq, List.all_eq_true] at hentry
      rw [hself]
      exact ⟨⟨by simpa using hentry.1.1, hentry.1.2⟩, hentry.2⟩

theorem of_mem_addressTokens {rawAddress token : String} (h : token ∈ addressTokens rawAddress) :
    IsToken token ∧ expand token = token := by
  rcases List.mem_map.1 h with ⟨w, hw, rfl⟩
  exact expand_expand (isWord_of_mem hw)

/-- Sorted tokens in some order. -/
theorem mem_sortedTokens {rawAddress token : String} :
    token ∈ (addressTokens rawAddress).insertionSort Utf16.Le ↔ token ∈ addressTokens rawAddress :=
  (List.perm_insertionSort Utf16.Le _).mem_iff

/-- The characters of a canonical address: those of its tokens, joined by blanks. -/
theorem toList_normalizeAddress (rawAddress : String) : (normalizeAddress rawAddress).toList =
    [' '].intercalate
      (((addressTokens rawAddress).insertionSort Utf16.Le).map String.toList) := by
  rw [normalizeAddress_eq, String.toList_intercalate]
  rfl

theorem isWord_of_sortedTokens {rawAddress : String} : ∀ w ∈
    ((addressTokens rawAddress).insertionSort Utf16.Le).map String.toList,
    IsWord isLowerAlnum w := by
  intro w hw
  rcases List.mem_map.1 hw with ⟨token, htoken, rfl⟩
  exact (of_mem_addressTokens (mem_sortedTokens.1 htoken)).1

/-- The tokens of a canonical address are its sorted tokens. -/
theorem addressTokens_normalizeAddress (rawAddress : String) :
    addressTokens (normalizeAddress rawAddress) =
      (addressTokens rawAddress).insertionSort Utf16.Le := by
  have hlower : toLowerCase (normalizeAddress rawAddress).toList =
      (normalizeAddress rawAddress).toList := by
    apply toLowerCase_eq_self
    intro c hc
    rw [of_mem_normalizeAddress rawAddress c hc, Bool.true_or]
  unfold addressTokens
  rw [hlower, toList_normalizeAddress, words_intercalate (by decide) isWord_of_sortedTokens,
    List.map_map]
  conv_rhs => rw [← List.map_id ((List.map _ _).insertionSort Utf16.Le)]
  apply List.map_congr_left
  intro token htoken
  rw [Function.comp_apply, String.ofList_toList, id]
  exact (of_mem_addressTokens (mem_sortedTokens.1 htoken)).2

/-- Two addresses are the same canonical address exactly when they have the same tokens, each
as often; and a canonical address is its own. -/
theorem normalizeAddress_exact (a b : String) :
    (normalizeAddress a = normalizeAddress b ↔
      (addressTokens a : Multiset String) = (addressTokens b : Multiset String)) ∧
    normalizeAddress (normalizeAddress a) = normalizeAddress a := by
  have htotal : Std.Total Utf16.Le := ⟨Utf16.Le.total⟩
  have htrans : IsTrans String Utf16.Le := ⟨fun _ _ _ => Utf16.Le.trans⟩
  constructor
  · rw [Multiset.coe_eq_coe]
    constructor
    · intro h
      -- the joined texts determine the sorted lists
      have htexts := congrArg String.toList h
      rw [toList_normalizeAddress, toList_normalizeAddress] at htexts
      have hlists := intercalate_injOn (p := isLowerAlnum) (by decide) isWord_of_sortedTokens
        isWord_of_sortedTokens htexts
      have hsorted := List.map_injective_iff.2 (fun s t => String.toList_inj.1) hlists
      exact (List.perm_insertionSort Utf16.Le _).symm.trans
        (hsorted ▸ List.perm_insertionSort Utf16.Le _)
    · intro h
      have hperm := (List.perm_insertionSort Utf16.Le (addressTokens a)).trans
        (h.trans (List.perm_insertionSort Utf16.Le (addressTokens b)).symm)
      have hsorted := hperm.eq_of_pairwise (fun s t _ _ => Utf16.Le.antisymm)
        (List.pairwise_insertionSort Utf16.Le _) (List.pairwise_insertionSort Utf16.Le _)
      rw [normalizeAddress_eq, normalizeAddress_eq, hsorted]
  · rw [normalizeAddress_eq (normalizeAddress a), addressTokens_normalizeAddress,
      List.Pairwise.insertionSort_eq (List.pairwise_insertionSort Utf16.Le _),
      ← normalizeAddress_eq]

end ClaimGuard
