import ClaimGuard.AddressTokens
import ClaimGuard.GenRings
import ClaimGuard.Runs
import ClaimGuard.ShopWords

/-!
# Near duplicates stay apart

The variants of a shared value that the generator gives to the members of a ring are what
the normalizers do not bring together: two members have one entity of a type just where they
have the same text.
-/

namespace ClaimGuard

namespace GenRings

open Draw

variable {σ : Type} {rng : Rng σ}

/-! ## Draws -/

theorem of_mem_randint {low high n : ℤ} (h : n ∈ (randint rng low high).outcomes) :
    low ≤ n ∧ n ≤ high := by
  unfold randint at h
  split at h
  · rcases of_mem_bind h with ⟨m, -, hm⟩
    rw [of_mem_pure hm]
    exact m.property
  · exact absurd h not_mem_raise

theorem of_mem_choice {α : Type} {l : List α} {a : α} (h : a ∈ (choice rng l).outcomes) :
    a ∈ l := by
  unfold choice at h
  split at h
  · rcases of_mem_bind h with ⟨i, -, hi⟩
    rw [of_mem_pure hi]
    exact List.get_mem l i
  · exact absurd h not_mem_raise

/-! ## Phones -/

/-- An Indian mobile number in E.164. -/
def IsMobile (phone : String) : Prop :=
  ∃ lead rest, phone.toList = '+' :: '9' :: '1' :: lead :: rest ∧ lead ∈ ['6', '7', '8', '9'] ∧
    rest.length = 9 ∧ ∀ c ∈ rest, c.isDigit = true

theorem toList_str {n : ℤ} (h : 0 ≤ n) : (str n).toList = Text.decimal n.toNat := by
  unfold str Text.decimalInt
  rw [if_neg (not_lt.2 h), String.toList_ofList]
  congr 1
  omega

theorem isMobile_of_randomPhone {phone : String} (h : phone ∈ (randomPhone rng).outcomes) :
    IsMobile phone := by
  rcases of_mem_bind h with ⟨lead, hlead, h⟩
  rcases of_mem_bind h with ⟨rest, hrest, h⟩
  rw [of_mem_pure h]
  obtain ⟨hlow, hhigh⟩ := of_mem_randint hlead
  obtain ⟨hlow', hhigh'⟩ := of_mem_randint hrest
  have hdigit : ∃ c, (str lead).toList = [c] ∧ c ∈ ['6', '7', '8', '9'] := by
    rw [toList_str (by omega)]
    obtain rfl | rfl | rfl | rfl : lead = 6 ∨ lead = 7 ∨ lead = 8 ∨ lead = 9 := by omega
    all_goals exact ⟨_, rfl, by decide⟩
  rcases hdigit with ⟨c, hc, hmem⟩
  refine ⟨c, Text.decimal rest.toNat, ?_, hmem, ?_, fun d hd => Text.isDigit_of_mem_decimal hd⟩
  · rw [String.toList_append, String.toList_append, hc, toList_str (by omega)]
    rfl
  · -- nine digits: below a power of ten, but not below the one before
    have hle := (Nat.length_toDigits_le_iff (b := 10) (n := rest.toNat) (k := 9) (by decide)
      (by decide)).2 (by omega)
    have hnot := mt (Nat.length_toDigits_le_iff (b := 10) (n := rest.toNat) (k := 8) (by decide)
      (by decide)).1 (by omega)
    unfold Text.decimal
    omega

theorem swapAt_add {α : Type} (front l : List α) (i : ℕ) :
    swapAt (front ++ l) (front.length + i) = front ++ swapAt l i := by
  induction front with
  | nil => rw [List.nil_append, List.length_nil, Nat.zero_add, List.nil_append]
  | cons a front ih =>
      rw [List.cons_append, List.length_cons, Nat.add_right_comm, List.cons_append, ← ih]
      cases h : front ++ l with
      | nil => rfl
      | cons b rest => rfl

/-- A swap only reorders. -/
theorem swapAt_perm {α : Type} (l : List α) (i : ℕ) : (swapAt l i).Perm l := by
  induction i generalizing l with
  | zero =>
      match l with
      | [] => exact .refl _
      | [_] => exact .refl _
      | a :: b :: l => exact .swap a b l
  | succ i ih =>
      match l with
      | [] => exact .refl _
      | [a] => exact (ih []).cons a
      | a :: b :: l => exact (ih (b :: l)).cons a

/-- A typo leaves the number one: the digit in front of it is not moved. -/
theorem isMobile_of_fuzzPhoneTypo {phone fuzzed : String} (hphone : IsMobile phone)
    (h : fuzzed ∈ (fuzzPhoneTypo rng phone).outcomes) : IsMobile fuzzed := by
  rcases of_mem_bind h with ⟨i, hi, h⟩
  obtain ⟨hlow, -⟩ := of_mem_randint hi
  rw [of_mem_pure h]
  rcases hphone with ⟨lead, rest, htext, hlead, hlength, hdigits⟩
  have hswap : swapAt phone.toList i.toNat =
      ['+', '9', '1', lead] ++ swapAt rest (i.toNat - 4) := by
    rw [← swapAt_add, htext]
    congr 1
    show i.toNat = 4 + (i.toNat - 4)
    omega
  have hperm := swapAt_perm rest (i.toNat - 4)
  refine ⟨lead, swapAt rest (i.toNat - 4), ?_, hlead, hperm.length_eq.trans hlength, ?_⟩
  · rw [String.toList_ofList, hswap]
    rfl
  · exact fun c hc => hdigits c (hperm.mem_iff.1 hc)

/-! ## Variants in a context -/

/-- In a text around a name, only the name is found, and what replaces it stands there. -/
structure Spells (table : List (String × String)) (names : List String) (context : String → String) :
    Prop where
  found : ∀ item ∈ table, ∀ name ∈ names,
    item.1.toList <:+: (context name).toList → item.1 = name
  replaced : ∀ item ∈ table, replace (context item.1) item.1 item.2 = context item.2
  closed : ∀ item ∈ table, item.2 ∈ names ∧ ∀ other ∈ table, other.1 ≠ item.2

/-- What a name can be spelled as. -/
def Spelled (table : List (String × String)) (name spelling : String) : Prop :=
  spelling = name ∨ (name, spelling) ∈ table

instance (table : List (String × String)) (name spelling : String) :
    Decidable (Spelled table name spelling) :=
  inferInstanceAs (Decidable (_ ∨ _))

/-- The variants of a text are the text around the spellings of its name. -/
theorem of_mem_fuzzVariants {table : List (String × String)} {names : List String}
    {context : String → String} (hspells : Spells table names context) {name : String}
    (hname : name ∈ names) {fuzzed : String}
    (h : fuzzed ∈ (fuzzVariants rng table (context name)).outcomes) :
    ∃ spelling ∈ names, fuzzed = context spelling ∧ Spelled table name spelling := by
  refine of_mem_foldlM
    (I := fun text => ∃ spelling ∈ names, text = context spelling ∧ Spelled table name spelling)
    ?_ ⟨name, hname, rfl, Or.inl rfl⟩ h
  rintro item hitem text ⟨spelling, hspelling, rfl, hspelled⟩ text' htext'
  split at htext'
  · rename_i hinfix
    rcases of_mem_bind htext' with ⟨hit, -, htext'⟩
    rw [of_mem_pure htext']
    have hfound := hspells.found item hitem spelling hspelling hinfix
    obtain ⟨hin, hnot⟩ := hspells.closed item hitem
    split
    · refine ⟨item.2, hin, ?_, Or.inr ?_⟩
      · rw [← hfound, hspells.replaced item hitem]
      · -- a spelling of the table is not spelled again
        rcases hspelled with rfl | hentry
        · rw [← hfound]
          exact hitem
        · exact absurd hfound ((hspells.closed _ hentry).2 item hitem)
    · exact ⟨spelling, hspelling, rfl, hspelled⟩
  · rw [of_mem_pure htext']
    exact ⟨spelling, hspelling, rfl, hspelled⟩

/-! ## Addresses and shops -/

/-- The cities, by either name. -/
def citySpellings : List String := cities ++ cityAliases.map Prod.snd

/-- The streets, as they are spelled. -/
def streetSpellings : List String := streetNames ++ streetSpacingVariants.map Prod.snd

theorem toList_addressText {n : ℤ} (hn : 0 ≤ n) (street roadType city : String) :
    (addressText n street roadType city).toList = (Text.decimal n.toNat ++ [' ']) ++
      (street.toList ++ ' ' :: roadType.toList) ++ ',' :: ' ' :: city.toList := by
  simp only [addressText, String.toList_append, toList_str hn, List.append_assoc]
  rfl

/-- No letter is in the number of the house. -/
theorem not_mem_house {c : Char} (hc : c.isDigit = false) (hspace : c ≠ ' ') (n : ℕ) :
    c ∉ Text.decimal n ++ [' '] := by
  rw [List.mem_append, List.mem_singleton, not_or]
  refine ⟨fun hmem => ?_, hspace⟩
  rw [Text.isDigit_of_mem_decimal hmem] at hc
  cases hc

theorem spells_city {n : ℤ} (hn : 0 ≤ n) {street roadType : String}
    (hstreet : street ∈ streetSpellings) (hroad : roadType ∈ roadTypes) :
    Spells cityAliases citySpellings (addressText n street roadType) := by
  have hitems : ∀ item ∈ cityAliases, ',' ∉ item.1.toList ∧
      (∃ c s, item.1.toList = c :: s ∧ c.isDigit = false ∧ c ≠ ' ') ∧
      (∀ street ∈ streetSpellings, ∀ roadType ∈ roadTypes,
        ¬ item.1.toList <:+: street.toList ++ ' ' :: roadType.toList) ∧
      (∀ city ∈ citySpellings, item.1.toList <:+: ' ' :: city.toList → item.1 = city) ∧
      Replace.replaceFrom item.1.toList item.2.toList 0 (',' :: ' ' :: item.1.toList) =
        ',' :: ' ' :: item.2.toList := by
    have hdecided : ∀ item ∈ cityAliases, ',' ∉ item.1.toList ∧
        (item.1.toList.head?.all fun c => !c.isDigit && c != ' ') = true ∧ item.1.toList ≠ [] ∧
        (∀ street ∈ streetSpellings, ∀ roadType ∈ roadTypes,
          ¬ item.1.toList <:+: street.toList ++ ' ' :: roadType.toList) ∧
        (∀ city ∈ citySpellings, item.1.toList <:+: ' ' :: city.toList → item.1 = city) ∧
        Replace.replaceFrom item.1.toList item.2.toList 0 (',' :: ' ' :: item.1.toList) =
          ',' :: ' ' :: item.2.toList := by
      decide +kernel
    intro item hitem
    obtain ⟨hcomma, hhead, hne, hrest⟩ := hdecided item hitem
    rcases List.exists_cons_of_ne_nil hne with ⟨c, s, htext⟩
    rw [htext, List.head?_cons, Option.all_some, Bool.and_eq_true, Bool.not_eq_true',
      bne_iff_ne] at hhead
    exact ⟨hcomma, ⟨c, s, htext, hhead⟩, hrest⟩
  -- the alias is not in what comes before the city
  have hfront : ∀ item ∈ cityAliases, ¬ item.1.toList <:+:
      (Text.decimal n.toNat ++ [' ']) ++ (street.toList ++ ' ' :: roadType.toList) := by
    intro item hitem hinfix
    obtain ⟨-, ⟨c, s, htext, hdigit, hspace⟩, hnot, -⟩ := hitems item hitem
    refine hnot street hstreet roadType hroad ?_
    rw [htext] at hinfix ⊢
    exact Replace.infix_of_infix_append_of_not_mem (not_mem_house hdigit hspace _) hinfix
  refine ⟨?_, ?_, by decide +kernel⟩
  · intro item hitem city hcity hinfix
    obtain ⟨hcomma, -, -, hfound, -⟩ := hitems item hitem
    rw [toList_addressText hn] at hinfix
    rcases Replace.infix_of_infix_append_cons hcomma hinfix with hleft | hright
    · exact absurd hleft (hfront item hitem)
    · exact hfound city hcity hright
  · intro item hitem
    obtain ⟨hcomma, -, -, -, hreplaced⟩ := hitems item hitem
    rw [replace, toList_addressText hn,
      Replace.replaceFrom_append ((Replace.closedFront_cons hcomma _).apart _) (Nat.zero_le _),
      Replace.replaceFrom_eq_self (hfront item hitem), hreplaced, ← toList_addressText hn,
      String.ofList_toList]

theorem spells_street {n : ℤ} (hn : 0 ≤ n) {roadType city : String} (hroad : roadType ∈ roadTypes)
    (hcity : city ∈ citySpellings) : Spells streetSpacingVariants streetSpellings
      fun street => addressText n street roadType city := by
  have hdecided : ∀ item ∈ streetSpacingVariants, ',' ∉ item.1.toList ∧
      (∀ street ∈ streetSpellings, ∀ roadType ∈ roadTypes,
        item.1.toList <:+: street.toList ++ ' ' :: roadType.toList → item.1 = street) ∧
      (∀ city ∈ citySpellings, ¬ item.1.toList <:+: ',' :: ' ' :: city.toList) ∧
      ∀ roadType ∈ roadTypes, Replace.replaceFrom item.1.toList item.2.toList 0
        (item.1.toList ++ ' ' :: roadType.toList) = item.2.toList ++ ' ' :: roadType.toList := by
    decide +kernel
  have hhead : ∀ item ∈ streetSpacingVariants,
      ∃ c s, item.1.toList = c :: s ∧ c ∉ Text.decimal n.toNat ++ [' '] := by
    intro item hitem
    rw [List.mem_singleton.1 hitem]
    exact ⟨'L', _, rfl, not_mem_house (by decide) (by decide) _⟩
  refine ⟨?_, ?_, by decide +kernel⟩
  · intro item hitem street hstreet hinfix
    obtain ⟨hcomma, hfound, hnot, -⟩ := hdecided item hitem
    rcases hhead item hitem with ⟨c, s, htext, hc⟩
    rw [toList_addressText hn, List.append_assoc, htext] at hinfix
    have hrest := Replace.infix_of_infix_append_of_not_mem hc hinfix
    rw [← htext] at hrest
    rcases Replace.infix_of_infix_append_cons hcomma hrest with hleft | hright
    · exact hfound street hstreet roadType hroad hleft
    · exact absurd (hright.trans (List.suffix_cons _ _).isInfix) (hnot city hcity)
  · intro item hitem
    obtain ⟨hcomma, -, hnot, hreplaced⟩ := hdecided item hitem
    have hapart : Replace.Apart item.1.toList (Text.decimal n.toNat ++ [' '])
        ((item.1.toList ++ ' ' :: roadType.toList) ++ ',' :: ' ' :: city.toList) := by
      rcases hhead item hitem with ⟨c, s, htext, hc⟩
      rw [htext]
      exact Replace.apart_of_not_mem hc _
    have hhouse : ¬ item.1.toList <:+: Text.decimal n.toNat ++ [' '] := by
      rcases hhead item hitem with ⟨c, s, htext, hc⟩
      rw [htext]
      exact fun hin => hc (List.IsInfix.subset hin List.mem_cons_self)
    rw [replace, toList_addressText hn, List.append_assoc,
      Replace.replaceFrom_append hapart (Nat.zero_le _), Replace.replaceFrom_eq_self hhouse,
      Replace.replaceFrom_append ((Replace.closedFront_cons hcomma _).apart _) (Nat.zero_le _),
      hreplaced roadType hroad, Replace.replaceFrom_eq_self (hnot city hcity),
      ← List.append_assoc, ← toList_addressText hn, String.ofList_toList]

/-- The suffixes of the shops, as they are spelled. -/
def suffixSpellings : List String := shopSuffixes ++ shopSuffixSpacingVariants.map Prod.snd

theorem spells_shop {front : String} (hfront : front ∈ shopPrefixes) :
    Spells shopSuffixSpacingVariants suffixSpellings fun back => front ++ " " ++ back := by
  have hdecided : ∀ front ∈ shopPrefixes, ∀ item ∈ shopSuffixSpacingVariants,
      (∀ back ∈ suffixSpellings,
        item.1.toList <:+: (front ++ " " ++ back).toList → item.1 = back) ∧
      replace (front ++ " " ++ item.1) item.1 item.2 = front ++ " " ++ item.2 := by
    decide +kernel
  exact ⟨fun item hitem => (hdecided front hfront item hitem).1,
    fun item hitem => (hdecided front hfront item hitem).2, by decide +kernel⟩

/-- A variant of an address: its street and its city, as they can be spelled. -/
theorem of_mem_fuzzAddressVariant {n : ℤ} (hn : 0 ≤ n) {street roadType city : String}
    (hstreet : street ∈ streetNames) (hroad : roadType ∈ roadTypes) (hcity : city ∈ cities)
    {fuzzed : String}
    (h : fuzzed ∈ (fuzzAddressVariant rng (addressText n street roadType city)).outcomes) :
    ∃ street' city', fuzzed = addressText n street' roadType city' ∧
      Spelled streetSpacingVariants street street' ∧ Spelled cityAliases city city' := by
  rcases of_mem_bind h with ⟨text, htext, h⟩
  have hstreet' : street ∈ streetSpellings := List.mem_append_left _ hstreet
  rcases of_mem_fuzzVariants (spells_city hn hstreet' hroad) (List.mem_append_left _ hcity) htext
    with ⟨city', hcity', rfl, hspelled⟩
  rcases of_mem_fuzzVariants (spells_street hn hroad hcity') hstreet' h with
    ⟨street', -, rfl, hspelled'⟩
  exact ⟨street', city', rfl, hspelled', hspelled⟩

/-! ## What the normalizers tell apart -/

/-- The spellings of a name. -/
def spellingsOf (table : List (String × String)) (name : String) : List String :=
  name :: (table.filter fun item => decide (item.1 = name)).map Prod.snd

theorem Spelled.mem {table : List (String × String)} {name spelling : String}
    (h : Spelled table name spelling) : spelling ∈ spellingsOf table name := by
  rcases h with rfl | hentry
  · exact List.mem_cons_self
  · refine List.mem_cons_of_mem _ (List.mem_map.2 ⟨_, List.mem_filter.2 ⟨hentry, ?_⟩, rfl⟩)
    exact decide_eq_true rfl

theorem toLowerCase_append (s t : List Char) :
    toLowerCase (s ++ t) = toLowerCase s ++ toLowerCase t := List.flatMap_append

/-- The tokens of an address are those of its parts. -/
theorem addressTokens_addressText {n : ℤ} (hn : 0 ≤ n) (street roadType city : String) :
    addressTokens (addressText n street roadType city) =
      addressTokens (str n) ++ addressTokens street ++ addressTokens roadType ++
        addressTokens city := by
  have hcons : ∀ (c : Char) (s : List Char), c = ' ' ∨ c = ',' →
      toLowerCase (c :: s) = c :: toLowerCase s := by
    rintro c s (rfl | rfl) <;> rfl
  unfold addressTokens
  rw [toList_addressText hn, toList_str hn]
  simp only [toLowerCase_append, hcons _ _ (Or.inl rfl), hcons _ _ (Or.inr rfl),
    List.append_assoc, List.cons_append, List.nil_append]
  rw [Words.words_append_cons (by decide), Words.words_append_cons (by decide),
    Words.words_append_cons (by decide), Words.words_cons (by decide)]
  simp only [List.map_append]

theorem perm_of_normalizeAddress {a b : String} (h : normalizeAddress a = normalizeAddress b) :
    (addressTokens a).Perm (addressTokens b) := by
  have htokens := congrArg addressTokens h
  rw [addressTokens_normalizeAddress, addressTokens_normalizeAddress] at htokens
  exact (List.perm_insertionSort Utf16.Le _).symm.trans
    (htokens ▸ List.perm_insertionSort Utf16.Le _)

/-- Two spellings of one address are one entity only if they are one text. -/
theorem normalizeAddress_spellings {n : ℤ} (hn : 0 ≤ n) {street roadType city : String}
    (hstreet : street ∈ streetNames) (hcity : city ∈ cities) {street₁ street₂ city₁ city₂ : String}
    (hstreet₁ : Spelled streetSpacingVariants street street₁) (hcity₁ : Spelled cityAliases city city₁)
    (hstreet₂ : Spelled streetSpacingVariants street street₂) (hcity₂ : Spelled cityAliases city city₂)
    (h : normalizeAddress (addressText n street₁ roadType city₁) =
      normalizeAddress (addressText n street₂ roadType city₂)) :
    street₁ = street₂ ∧ city₁ = city₂ := by
  have hdecided : ∀ street ∈ streetNames, ∀ city ∈ cities,
      ∀ street₁ ∈ spellingsOf streetSpacingVariants street,
      ∀ street₂ ∈ spellingsOf streetSpacingVariants street,
      ∀ city₁ ∈ spellingsOf cityAliases city, ∀ city₂ ∈ spellingsOf cityAliases city,
      ¬ (street₁ = street₂ ∧ city₁ = city₂) →
        ¬ (addressTokens street₁ ++ addressTokens city₁).Perm
          (addressTokens street₂ ++ addressTokens city₂) := by
    decide +kernel
  by_contra hne
  refine hdecided street hstreet city hcity street₁ hstreet₁.mem street₂ hstreet₂.mem city₁
    hcity₁.mem city₂ hcity₂.mem hne ?_
  have hperm := perm_of_normalizeAddress h
  rw [addressTokens_addressText hn, addressTokens_addressText hn] at hperm
  simp only [List.append_assoc, List.perm_append_left_iff] at hperm
  -- the road type is the same in both
  have hroad : ∀ s c : List String,
      (s ++ (addressTokens roadType ++ c)).Perm (addressTokens roadType ++ (s ++ c)) :=
    fun s c => List.perm_append_comm_assoc s (addressTokens roadType) c
  exact (List.perm_append_left_iff _).1 ((hroad _ _).symm.trans (hperm.trans (hroad _ _)))

theorem normalizeShop_spellings {front back : String} (hfront : front ∈ shopPrefixes)
    (hback : back ∈ shopSuffixes) {back₁ back₂ : String}
    (hback₁ : Spelled shopSuffixSpacingVariants back back₁)
    (hback₂ : Spelled shopSuffixSpacingVariants back back₂)
    (h : normalizeShop (front ++ " " ++ back₁) = normalizeShop (front ++ " " ++ back₂)) :
    back₁ = back₂ := by
  have hdecided : ∀ front ∈ shopPrefixes, ∀ back ∈ shopSuffixes,
      ∀ back₁ ∈ spellingsOf shopSuffixSpacingVariants back,
      ∀ back₂ ∈ spellingsOf shopSuffixSpacingVariants back, back₁ ≠ back₂ →
        normalizeShop (front ++ " " ++ back₁) ≠ normalizeShop (front ++ " " ++ back₂) := by
    decide +kernel
  by_contra hne
  exact hdecided front hfront back hback back₁ hback₁.mem back₂ hback₂.mem hne h

/-! ## The members of a ring -/

theorem of_mem_randomAddress {address : String} (h : address ∈ (randomAddress rng).outcomes) :
    ∃ (n : ℤ) (street roadType city : String), 1 ≤ n ∧ n ≤ 200 ∧ street ∈ streetNames ∧
      roadType ∈ roadTypes ∧ city ∈ cities ∧ address = addressText n street roadType city := by
  rcases of_mem_bind h with ⟨n, hn, h⟩
  rcases of_mem_bind h with ⟨street, hstreet, h⟩
  rcases of_mem_bind h with ⟨roadType, hroad, h⟩
  rcases of_mem_bind h with ⟨city, hcity, h⟩
  obtain ⟨hlow, hhigh⟩ := of_mem_randint hn
  exact ⟨n, street, roadType, city, hlow, hhigh, of_mem_choice hstreet, of_mem_choice hroad,
    of_mem_choice hcity, of_mem_pure h⟩

theorem of_mem_randomShop {shop : String} (h : shop ∈ (randomShop rng).outcomes) :
    ∃ front back, front ∈ shopPrefixes ∧ back ∈ shopSuffixes ∧ shop = front ++ " " ++ back := by
  rcases of_mem_bind h with ⟨front, hfront, h⟩
  rcases of_mem_bind h with ⟨back, hback, h⟩
  exact ⟨front, back, of_mem_choice hfront, of_mem_choice hback, of_mem_pure h⟩

/-- What a ring shares is drawn as that of any claim. -/
theorem of_mem_drawShared {shared : Shared} (h : shared ∈ (drawShared rng).outcomes) :
    shared.phone ∈ (randomPhone rng).outcomes ∧
      (∀ shop, shared.shop = some shop → shop ∈ (randomShop rng).outcomes) ∧
      ∀ address, shared.address = some address → address ∈ (randomAddress rng).outcomes := by
  have hsometimes : ∀ {p : Rate} {draw : Draw σ String} {value : Option String},
      value ∈ (sometimes rng p draw).outcomes → ∀ text, value = some text → text ∈ draw.outcomes := by
    rintro p draw value hvalue text rfl
    rcases of_mem_bind hvalue with ⟨hit, -, hvalue⟩
    split at hvalue
    · rw [← bind_pure_comp] at hvalue
      rcases of_mem_bind hvalue with ⟨text', htext', hvalue⟩
      rcases Option.some.inj (of_mem_pure hvalue) with rfl
      exact htext'
    · cases of_mem_pure hvalue
  rcases of_mem_bind h with ⟨phone, hphone, h⟩
  rcases of_mem_bind h with ⟨shop, hshop, h⟩
  rcases of_mem_bind h with ⟨address, haddress, h⟩
  rw [of_mem_pure h]
  exact ⟨hphone, hsometimes hshop, hsometimes haddress⟩

theorem of_mem_memberPhone {shared : Shared} {fuzzRate : Rate} {i : ℕ} {phone : String}
    (h : phone ∈ (memberPhone rng shared fuzzRate i).outcomes) :
    phone = shared.phone ∨ 0 < i ∧ phone ∈ (fuzzPhoneTypo rng shared.phone).outcomes := by
  unfold memberPhone at h
  split at h
  · rename_i hi
    rcases of_mem_bind h with ⟨typo, -, h⟩
    split at h
    · exact Or.inr ⟨hi, h⟩
    · exact Or.inl (of_mem_pure h)
  · exact Or.inl (of_mem_pure h)

theorem of_mem_memberField {value own text : String} {fuzzRate : Rate}
    {fuzz : String → Draw σ String} {i : ℕ}
    (h : text ∈ (memberField rng (some value) own fuzzRate fuzz i).outcomes) :
    text = own ∨ 0 < i ∧ text ∈ (fuzz value).outcomes := by
  unfold memberField at h
  simp only at h
  split at h
  · rename_i hi
    rcases of_mem_bind h with ⟨variant, -, h⟩
    split at h
    · exact Or.inr ⟨hi, h⟩
    · exact Or.inl (of_mem_pure h)
  · exact Or.inl (of_mem_pure h)

/-- How a member's field came from what the ring shares. -/
structure FromShared (rng : Rng σ) (shared : Shared) (i : ℕ) (m : GeneratedClaim) : Prop where
  phone : m.claimantPhone = shared.phone ∨
    0 < i ∧ m.claimantPhone ∈ (fuzzPhoneTypo rng shared.phone).outcomes
  address : ∀ address, shared.address = some address → m.claimantAddress = address ∨
    0 < i ∧ m.claimantAddress ∈ (fuzzAddressVariant rng address).outcomes
  shop : ∀ shop, shared.shop = some shop → m.repairShopName = shop ∨
    0 < i ∧ m.repairShopName ∈ (fuzzShopVariant rng shop).outcomes

theorem fromShared_of_makeMember {shared : Shared} {ringId : String} {fuzzRate : Rate}
    {dateRange : ℤ × ℤ} {i : ℕ} {m : GeneratedClaim}
    (h : m ∈ (makeMember rng shared ringId fuzzRate dateRange i).outcomes) :
    FromShared rng shared i m := by
  rcases of_mem_bind h with ⟨address, haddress, h⟩
  rcases of_mem_bind h with ⟨shop, hshop, h⟩
  rcases of_mem_bind h with ⟨phone, hphone, h⟩
  rcases of_mem_bind h with ⟨text, htext, h⟩
  rcases of_mem_bind h with ⟨text', htext', h⟩
  rcases of_mem_bind h with ⟨claimId, -, h⟩
  rcases of_mem_bind h with ⟨claimantName, -, h⟩
  rcases of_mem_bind h with ⟨policyNumber, -, h⟩
  rcases of_mem_bind h with ⟨claimAmount, -, h⟩
  rcases of_mem_bind h with ⟨incidentDate, -, h⟩
  rw [of_mem_pure h]
  refine ⟨of_mem_memberPhone hphone, fun value hvalue => ?_, fun value hvalue => ?_⟩
  · rw [hvalue] at haddress htext
    rcases of_mem_pure haddress with rfl
    exact of_mem_memberField htext
  · rw [hvalue] at hshop htext'
    rcases of_mem_pure hshop with rfl
    exact of_mem_memberField htext'

theorem of_mem_makeRing {ringId : String} {size : ℤ} {fuzzRate : Rate} {dateRange : ℤ × ℤ}
    {members : List GeneratedClaim} {shared : Shared}
    (h : (members, shared) ∈ (makeRing rng ringId size fuzzRate dateRange).outcomes) :
    shared ∈ (drawShared rng).outcomes ∧ List.Forall₂
      (fun i m => m ∈ (makeMember rng shared ringId fuzzRate dateRange i).outcomes)
      (List.range size.toNat) members := by
  rcases of_mem_bind h with ⟨shared', hshared, h⟩
  rcases of_mem_bind h with ⟨members', hmembers, h⟩
  obtain ⟨rfl, rfl⟩ := Prod.mk.inj (of_mem_pure h)
  exact ⟨hshared, of_mem_mapM hmembers⟩

/-- The member has one entity with the other just where they have one text: phone, and address
and shop where the ring shares them. -/
structure ApartUnlessEqual (env : Env) (shared : Shared) (m m' : GeneratedClaim) : Prop where
  phone : env.normalizePhone m.claimantPhone = env.normalizePhone m'.claimantPhone ↔
    m.claimantPhone = m'.claimantPhone
  address : shared.address ≠ none → (normalizeAddress m.claimantAddress =
    normalizeAddress m'.claimantAddress ↔ m.claimantAddress = m'.claimantAddress)
  shop : shared.shop ≠ none → (normalizeShop m.repairShopName = normalizeShop m'.repairShopName ↔
    m.repairShopName = m'.repairShopName)

/-- The first member of a ring has what the ring shares, and any two members resolve to one
phone, address or shop just where they have one text: no near duplicate is brought together
with another. The phone library is one that takes a mobile number in E.164 as it is. -/
theorem near_duplicates_stay_apart (env : Env) (rng : Rng σ)
    (hphone : ∀ phone, IsMobile phone → env.normalizePhone phone = some phone)
    (ringId : String) (size : ℤ) (fuzzRate : Rate) (dateRange : ℤ × ℤ)
    (members : List GeneratedClaim) (shared : Shared)
    (h : (members, shared) ∈ (makeRing rng ringId size fuzzRate dateRange).outcomes) :
    (∀ m ∈ members.head?, m.claimantPhone = shared.phone ∧
      (∀ address ∈ shared.address, m.claimantAddress = address) ∧
      ∀ shop ∈ shared.shop, m.repairShopName = shop) ∧
    ∀ m ∈ members, ∀ m' ∈ members, ApartUnlessEqual env shared m m' := by
  obtain ⟨hshared, hmembers⟩ := of_mem_makeRing h
  obtain ⟨hdrawn, hshop, haddress⟩ := of_mem_drawShared hshared
  have hfrom : List.Forall₂ (FromShared rng shared) (List.range size.toNat) members :=
    hmembers.imp fun _ _ hm => fromShared_of_makeMember hm
  have hsome : ∀ m ∈ members, ∃ i, FromShared rng shared i m := by
    intro m hm
    rcases List.mem_iff_get.1 hm with ⟨i, rfl⟩
    exact ⟨_, hfrom.get (lt_of_lt_of_eq i.isLt hfrom.length_eq.symm) i.isLt⟩
  have hmobile : ∀ m ∈ members, env.normalizePhone m.claimantPhone = some m.claimantPhone := by
    intro m hm
    rcases hsome m hm with ⟨i, hm⟩
    apply hphone
    rcases hm.phone with heq | ⟨-, htypo⟩
    · rw [heq]
      exact isMobile_of_randomPhone hdrawn
    · exact isMobile_of_fuzzPhoneTypo (isMobile_of_randomPhone hdrawn) htypo
  refine ⟨fun m hm => ?_, fun m hm m' hm' => ⟨?_, ?_, ?_⟩⟩
  · have hfirst : FromShared rng shared 0 m := by
      cases members with
      | nil => cases hm
      | cons first rest =>
          rcases Option.some.inj hm with rfl
          cases hsize : size.toNat with
          | zero =>
              rw [hsize] at hfrom
              cases hfrom
          | succ k =>
              rw [hsize, List.range_succ_eq_map] at hfrom
              cases hfrom with
              | cons hfirst hrest => exact hfirst
    refine ⟨hfirst.phone.resolve_right ?_, fun address haddress => ?_, fun shop hshop => ?_⟩
    · exact fun hlater => absurd hlater.1 (lt_irrefl 0)
    · exact (hfirst.address address haddress).resolve_right fun hlater =>
        absurd hlater.1 (lt_irrefl 0)
    · exact (hfirst.shop shop hshop).resolve_right fun hlater => absurd hlater.1 (lt_irrefl 0)
  · rw [hmobile m hm, hmobile m' hm', Option.some_inj]
  · intro hne
    obtain ⟨value, hvalue⟩ := Option.ne_none_iff_exists'.1 hne
    rcases of_mem_randomAddress (haddress value hvalue) with
      ⟨n, street, roadType, city, hlow, -, hstreet, hroad, hcity, rfl⟩
    have hspelled : ∀ m ∈ members, ∃ street' city',
        m.claimantAddress = addressText n street' roadType city' ∧
          Spelled streetSpacingVariants street street' ∧ Spelled cityAliases city city' := by
      intro m hm
      rcases hsome m hm with ⟨i, hm⟩
      rcases hm.address _ hvalue with heq | ⟨-, hvariant⟩
      · exact ⟨street, city, heq, Or.inl rfl, Or.inl rfl⟩
      · exact of_mem_fuzzAddressVariant (by omega) hstreet hroad hcity hvariant
    rcases hspelled m hm with ⟨street₁, city₁, htext, hstreet₁, hcity₁⟩
    rcases hspelled m' hm' with ⟨street₂, city₂, htext', hstreet₂, hcity₂⟩
    refine ⟨fun heq => ?_, fun heq => by rw [heq]⟩
    rw [htext, htext'] at heq ⊢
    obtain ⟨rfl, rfl⟩ := normalizeAddress_spellings (by omega) hstreet hcity hstreet₁ hcity₁
      hstreet₂ hcity₂ heq
    rfl
  · intro hne
    obtain ⟨value, hvalue⟩ := Option.ne_none_iff_exists'.1 hne
    rcases of_mem_randomShop (hshop value hvalue) with ⟨front, back, hfront, hback, rfl⟩
    have hspelled : ∀ m ∈ members, ∃ back', m.repairShopName = front ++ " " ++ back' ∧
        Spelled shopSuffixSpacingVariants back back' := by
      intro m hm
      rcases hsome m hm with ⟨i, hm⟩
      rcases hm.shop _ hvalue with heq | ⟨-, hvariant⟩
      · exact ⟨back, heq, Or.inl rfl⟩
      · rcases of_mem_fuzzVariants (spells_shop hfront) (List.mem_append_left _ hback) hvariant with
          ⟨back', -, heq, hback'⟩
        exact ⟨back', heq, hback'⟩
    rcases hspelled m hm with ⟨back₁, htext, hback₁⟩
    rcases hspelled m' hm' with ⟨back₂, htext', hback₂⟩
    refine ⟨fun heq => ?_, fun heq => by rw [heq]⟩
    rw [htext, htext'] at heq ⊢
    rw [normalizeShop_spellings hfront hback hback₁ hback₂ heq]

end GenRings

namespace Sample

open GenRings

/-- A source that draws the lowest numbers and the first places, with ids one by one. -/
def lowest : Rng ℕ where
  randint low _ h n := (⟨low, le_refl low, h⟩, n)
  random n := (⟨Floats.ofRat 0, by
    show (0 : ℚ) ≤ Binary64.nearest 0 ∧ Binary64.nearest 0 < 1
    rw [Binary64.nearest_zero]
    norm_num⟩, n)
  index _ h n := (⟨0, h⟩, n)
  pair _ h n := (⟨(⟨0, by omega⟩, ⟨1, by omega⟩), by simp⟩, n)
  permutation _ n := (Equiv.refl _, n)
  uuid4 n := (⟨BitVec.ofNat 128 n⟩, n + 1)

/-- A ring of three, each of its variants drawn. -/
def fuzzedRing : Draw ℕ (List GeneratedClaim × Shared) :=
  makeRing lowest "ring-0000" 3 (.finite (Floats.ofRat (1 / 4))) (0, 240)

theorem exists_fuzzedRing : ∃ members shared, (members, shared) ∈ fuzzedRing.outcomes ∧
    members.map GeneratedClaim.claimantPhone = ["+916100000000", "+916010000000", "+916010000000"] ∧
    members.map GeneratedClaim.claimantAddress =
      ["1 Lake View Road, Coimbatore", "1 Lakeview Road, Coimbatore",
        "1 Lakeview Road, Coimbatore"] := by
  have hrun : ((fuzzedRing.run 0).any fun r => decide
      (r.1.1.map GeneratedClaim.claimantPhone =
        ["+916100000000", "+916010000000", "+916010000000"] ∧
      r.1.1.map GeneratedClaim.claimantAddress =
        ["1 Lake View Road, Coimbatore", "1 Lakeview Road, Coimbatore",
          "1 Lakeview Road, Coimbatore"])) = true := by
    decide +kernel
  rcases (Option.any_eq_true _ _).1 hrun with ⟨⟨⟨members, shared⟩, n⟩, hsome, hfields⟩
  obtain ⟨hphones, haddresses⟩ := of_decide_eq_true hfields
  exact ⟨members, shared, ⟨0, n, hsome⟩, hphones, haddresses⟩

end Sample

/-- A ring of three with a typo and a variant of its address. -/
theorem near_duplicates_stay_apart_fuzzed : ∃ members shared,
    (members, shared) ∈ Sample.fuzzedRing.outcomes ∧
    (∀ m ∈ members.head?, m.claimantPhone = shared.phone ∧
      (∀ address ∈ shared.address, m.claimantAddress = address) ∧
      ∀ shop ∈ shared.shop, m.repairShopName = shop) ∧
    ∀ m ∈ members, ∀ m' ∈ members, GenRings.ApartUnlessEqual Sample.env shared m m' := by
  rcases Sample.exists_fuzzedRing with ⟨members, shared, h, -, -⟩
  exact ⟨members, shared, h, GenRings.near_duplicates_stay_apart Sample.env Sample.lowest
    (fun _ _ => rfl) _ _ _ _ members shared h⟩

end ClaimGuard
