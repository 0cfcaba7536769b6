import ClaimGuard.NearDuplicates

/-!
# The claims of the generator

What each claim that the generator writes looks like, whatever is drawn: every field is of
its form, and of the rings, each has the members that were drawn for it, and no others.
-/

namespace ClaimGuard

namespace GenRings

open Draw

variable {σ : Type} {rng : Rng σ}

/-! ## Plain texts -/

/-- Printable, and in ASCII. -/
def Printable (text : String) : Prop := ∀ c ∈ text.toList, ' ' ≤ c ∧ c ≤ '~'

instance (text : String) : Decidable (Printable text) :=
  List.decidableBAll (fun c => ' ' ≤ c ∧ c ≤ '~') text.toList

/-- A printable text with a character that is not a blank. -/
structure IsPlain (text : String) : Prop where
  printable : Printable text
  visible : ∃ c ∈ text.toList, c ≠ ' '

theorem Printable.append {a b : String} (ha : Printable a) (hb : Printable b) :
    Printable (a ++ b) := by
  intro c hc
  rw [String.toList_append, List.mem_append] at hc
  exact hc.elim (ha c) (hb c)

theorem IsPlain.append {a b : String} (ha : IsPlain a) (hb : Printable b) : IsPlain (a ++ b) := by
  rcases ha.visible with ⟨c, hc, hne⟩
  refine ⟨ha.printable.append hb, c, ?_, hne⟩
  rw [String.toList_append]
  exact List.mem_append_left _ hc

/-- The names of a pool. -/
theorem isPlain_of_mem_pool {name : String} (h : name ∈ firstNames ++ lastNames ++ citySpellings ++
    streetSpellings ++ roadTypes ++ shopPrefixes ++ suffixSpellings) : IsPlain name := by
  have hdecided : ∀ name ∈ firstNames ++ lastNames ++ citySpellings ++ streetSpellings ++
      roadTypes ++ shopPrefixes ++ suffixSpellings,
      Printable name ∧ (name.toList.any fun c => decide (c ≠ ' ')) = true := by
    decide +kernel
  obtain ⟨hprintable, hvisible⟩ := hdecided name h
  rcases List.any_eq_true.1 hvisible with ⟨c, hc, hne⟩
  exact ⟨hprintable, c, hc, of_decide_eq_true hne⟩

theorem printable_of_isDigit {c : Char} (h : c.isDigit = true) : ' ' ≤ c ∧ c ≤ '~' := by
  have hbounds : 48 ≤ c.val ∧ c.val ≤ 57 := by simpa [Char.isDigit] using h
  exact ⟨UInt32.le_trans (by decide) hbounds.1, UInt32.le_trans hbounds.2 (by decide)⟩

theorem isPlain_str {n : ℤ} (h : 0 ≤ n) : IsPlain (str n) := by
  constructor
  · intro c hc
    rw [toList_str h] at hc
    exact printable_of_isDigit (Text.isDigit_of_mem_decimal hc)
  · rw [toList_str h]
    rcases Text.exists_decimal_eq_cons n.toNat with ⟨c, l, heq, hdigit⟩
    refine ⟨c, heq ▸ List.mem_cons_self, ?_⟩
    rintro rfl
    exact absurd hdigit (by decide)

/-! ## Fields -/

/-- The text of an amount of so many cents. -/
def amountText (cents : ℕ) : String := String.ofList (BigDecimal.toPlainString ⟨cents, 2⟩)

theorem isPlain_of_randomName {name : String} (h : name ∈ (randomName rng).outcomes) :
    IsPlain name := by
  rcases of_mem_bind h with ⟨first, hfirst, h⟩
  rcases of_mem_bind h with ⟨last, hlast, h⟩
  have hfirst := of_mem_choice hfirst
  have hlast := of_mem_choice hlast
  rw [of_mem_pure h]
  exact ((isPlain_of_mem_pool (by simp [hfirst])).append (by decide)).append
    (isPlain_of_mem_pool (by simp [hlast])).printable

theorem isPlain_of_randomPolicyNumber {policy : String}
    (h : policy ∈ (randomPolicyNumber rng).outcomes) : IsPlain policy := by
  rcases of_mem_bind h with ⟨n, hn, h⟩
  obtain ⟨hlow, -⟩ := of_mem_randint hn
  rw [of_mem_pure h]
  exact (⟨by decide, 'P', by decide, by decide⟩ : IsPlain "POL-").append
    (isPlain_str (by omega)).printable

theorem isPlain_addressText {n : ℤ} (hn : 0 ≤ n) {street roadType city : String}
    (hstreet : street ∈ streetSpellings) (hroad : roadType ∈ roadTypes)
    (hcity : city ∈ citySpellings) : IsPlain (addressText n street roadType city) := by
  unfold addressText
  refine IsPlain.append (IsPlain.append (IsPlain.append (IsPlain.append (IsPlain.append
    (IsPlain.append (isPlain_str hn) (by decide)) ?_) (by decide)) ?_) (by decide)) ?_
  · exact (isPlain_of_mem_pool (by simp [hstreet])).printable
  · exact (isPlain_of_mem_pool (by simp [hroad])).printable
  · exact (isPlain_of_mem_pool (by simp [hcity])).printable

theorem Spelled.mem_spellings {table : List (String × String)} {names : List String}
    {name spelling : String} (h : Spelled table name spelling) (hname : name ∈ names) :
    spelling ∈ names ++ table.map Prod.snd := by
  rcases h with rfl | hentry
  · exact List.mem_append_left _ hname
  · exact List.mem_append_right _ (List.mem_map.2 ⟨_, hentry, rfl⟩)

theorem isPlain_of_randomAddress {address : String}
    (h : address ∈ (randomAddress rng).outcomes) : IsPlain address := by
  rcases of_mem_randomAddress h with ⟨n, street, roadType, city, hlow, -, hstreet, hroad, hcity, rfl⟩
  exact isPlain_addressText (by omega) (List.mem_append_left _ hstreet) hroad
    (List.mem_append_left _ hcity)

theorem isPlain_of_fuzzAddressVariant {address fuzzed : String}
    (haddress : address ∈ (randomAddress rng).outcomes)
    (h : fuzzed ∈ (fuzzAddressVariant rng address).outcomes) : IsPlain fuzzed := by
  rcases of_mem_randomAddress haddress with
    ⟨n, street, roadType, city, hlow, -, hstreet, hroad, hcity, rfl⟩
  rcases of_mem_fuzzAddressVariant (by omega) hstreet hroad hcity h with
    ⟨street', city', rfl, hstreet', hcity'⟩
  exact isPlain_addressText (by omega) (hstreet'.mem_spellings hstreet) hroad
    (hcity'.mem_spellings hcity)

theorem isPlain_shop {front back : String} (hfront : front ∈ shopPrefixes)
    (hback : back ∈ suffixSpellings) : IsPlain (front ++ " " ++ back) :=
  ((isPlain_of_mem_pool (by simp [hfront])).append (by decide)).append
    (isPlain_of_mem_pool (by simp [hback])).printable

theorem isPlain_of_randomShop {shop : String} (h : shop ∈ (randomShop rng).outcomes) :
    IsPlain shop := by
  rcases of_mem_randomShop h with ⟨front, back, hfront, hback, rfl⟩
  exact isPlain_shop hfront (List.mem_append_left _ hback)

theorem isPlain_of_fuzzShopVariant {shop fuzzed : String} (hshop : shop ∈ (randomShop rng).outcomes)
    (h : fuzzed ∈ (fuzzShopVariant rng shop).outcomes) : IsPlain fuzzed := by
  rcases of_mem_randomShop hshop with ⟨front, back, hfront, hback, rfl⟩
  rcases of_mem_fuzzVariants (spells_shop hfront) (List.mem_append_left _ hback) h with
    ⟨back', hback', rfl, -⟩
  exact isPlain_shop hfront hback'

/-- An amount of the band, to the cent. -/
def IsAmount (text : String) : Prop :=
  ∃ cents, 500000 ≤ cents ∧ cents ≤ 15000000 ∧ text = amountText cents

/-- The text of an amount that is not negative has its cents, rounded. -/
theorem format_eq_amountText {amount : Double} (h : 0 ≤ amount.value) :
    Floats.format amount 2 = amountText (Binary64.roundHalfEven (amount.value * 10 ^ 2)) := by
  show (if amount.value < 0 then "-" else "") ++
    toString (Binary64.roundHalfEven (|amount.value| * 10 ^ 2) / 10 ^ 2) ++ "." ++
      String.ofList (Text.fixed 10 2 (Binary64.roundHalfEven (|amount.value| * 10 ^ 2))) = _
  rw [abs_of_nonneg h, if_neg (not_lt.2 h)]
  generalize Binary64.roundHalfEven (amount.value * 10 ^ 2) = cents
  have hplain : BigDecimal.toPlainString ⟨cents, 2⟩ =
      Text.decimal (cents / 10 ^ 2) ++ '.' :: Text.fixed 10 2 (cents % 10 ^ 2) := rfl
  unfold amountText
  rw [← String.toList_inj, String.toList_ofList, hplain, Text.fixed_mod]
  simp only [String.toList_append, String.toList_ofList]
  rw [show (toString (cents / 10 ^ 2)).toList = Text.decimal (cents / 10 ^ 2) from Nat.toList_repr]
  simp

/-- However the draw is rounded, it stays in the band. -/
theorem isAmount_of_randomAmount {amount : String} (h : amount ∈ (randomAmount rng).outcomes) :
    IsAmount amount := by
  rcases of_mem_bind h with ⟨value, hvalue, h⟩
  rcases of_mem_bind hvalue with ⟨x, -, hvalue⟩
  obtain ⟨hx, hx'⟩ := x.property
  have hwidth : (Floats.ofRat (150000 - 5000) : Double).value = 145000 := by
    show Binary64.nearest (150000 - 5000) = 145000
    have h := Binary64.nearest_natCast (n := 145000) (by norm_num)
    norm_num at h ⊢
    exact h
  have hlow : (Floats.ofRat 5000 : Double).value = 5000 := by
    show Binary64.nearest 5000 = 5000
    exact_mod_cast Binary64.nearest_natCast (n := 5000) (by norm_num)
  have hproduct : (Floats.ofRat (150000 - 5000) * x.val : Double).value ∈
      Set.Icc ((0 : ℕ) : ℚ) (145000 : ℕ) := by
    refine Binary64.nearest_mem_Icc (by norm_num) (by norm_num) ?_
    rw [hwidth]
    constructor <;> push_cast <;> linarith
  have hband : value.value ∈ Set.Icc ((5000 : ℕ) : ℚ) (150000 : ℕ) := by
    rw [of_mem_pure hvalue]
    push_cast
    generalize (Floats.ofRat (150000 - 5000) * x.val : Double) = product at hproduct ⊢
    refine Binary64.nearest_mem_Icc (by norm_num) (by norm_num) ?_
    show (Floats.ofRat 5000 : Double).value + product.value ∈ _
    rw [hlow]
    obtain ⟨hleft, hright⟩ := hproduct
    push_cast at hleft hright
    constructor <;> push_cast <;> linarith
  obtain ⟨hleft, hright⟩ := hband
  push_cast at hleft hright
  refine ⟨_, ?_, ?_, (of_mem_pure h).trans (format_eq_amountText (by linarith))⟩
  · rw [← Binary64.roundHalfEven_natCast 500000]
    exact Binary64.roundHalfEven_mono (by norm_num) (by push_cast; linarith)
  · rw [← Binary64.roundHalfEven_natCast 15000000]
    exact Binary64.roundHalfEven_mono (by linarith) (by push_cast; linarith)

/-- A date from the `low`-th day of the window on. -/
def IsDate (low : ℕ) (text : String) : Prop :=
  ∃ day, low ≤ day ∧ day ≤ daySpan ∧ text = (epoch.plusDays day).isoformat

theorem isDate_of_randomDate {low : ℕ} {date : String}
    (h : date ∈ (randomDate rng (low, daySpan)).outcomes) : IsDate low date := by
  rcases of_mem_bind h with ⟨days, hdays, h⟩
  obtain ⟨hlow, hhigh⟩ := of_mem_randint hdays
  refine ⟨days.toNat, by omega, by omega, ?_⟩
  have hdays : ((days.toNat : ℕ) : ℤ) = days := by omega
  rw [of_mem_pure h, LocalDate.plusDays, hdays]

/-! ## Claims -/

/-- The fields of a claim are of their forms, and its date is not before the `low`-th day. -/
structure Sound (low : ℕ) (c : GeneratedClaim) : Prop where
  claimId : ∃ id : UUID, c.claimId = id.toString
  claimantName : IsPlain c.claimantName
  policyNumber : IsPlain c.policyNumber
  claimAmount : IsAmount c.claimAmount
  incidentDate : IsDate low c.incidentDate
  claimantPhone : IsMobile c.claimantPhone
  claimantAddress : IsPlain c.claimantAddress
  repairShopName : IsPlain c.repairShopName

theorem Sound.anywhere {low : ℕ} {c : GeneratedClaim} (h : Sound low c) : Sound 0 c := by
  rcases h.incidentDate with ⟨day, -, hday, hdate⟩
  exact { h with incidentDate := ⟨day, Nat.zero_le _, hday, hdate⟩ }

theorem exists_of_randomId {text : String} (h : text ∈ (randomId rng).outcomes) :
    ∃ id : UUID, text = id.toString := by
  rcases of_mem_bind h with ⟨id, -, h⟩
  exact ⟨id, of_mem_pure h⟩

theorem sound_of_makeBackgroundClaim {c : GeneratedClaim}
    (h : c ∈ (makeBackgroundClaim rng).outcomes) : Sound 0 c ∧ c.ringId = none := by
  rcases of_mem_bind h with ⟨claimId, hid, h⟩
  rcases of_mem_bind h with ⟨claimantName, hname, h⟩
  rcases of_mem_bind h with ⟨policyNumber, hpolicy, h⟩
  rcases of_mem_bind h with ⟨claimAmount, hamount, h⟩
  rcases of_mem_bind h with ⟨incidentDate, hdate, h⟩
  rcases of_mem_bind h with ⟨claimantPhone, hphone, h⟩
  rcases of_mem_bind h with ⟨claimantAddress, haddress, h⟩
  rcases of_mem_bind h with ⟨repairShopName, hshop, h⟩
  rw [of_mem_pure h]
  exact ⟨⟨exists_of_randomId hid, isPlain_of_randomName hname,
    isPlain_of_randomPolicyNumber hpolicy, isAmount_of_randomAmount hamount,
    isDate_of_randomDate hdate, isMobile_of_randomPhone hphone, isPlain_of_randomAddress haddress,
    isPlain_of_randomShop hshop⟩, rfl⟩

/-- A collision leaves every claim of its form, and where it was. -/
theorem SharedField.sound_copy (field : SharedField) {a b : GeneratedClaim} (ha : Sound 0 a)
    (hb : Sound 0 b) : Sound 0 (field.copy a b) ∧ (field.copy a b).ringId = b.ringId := by
  cases field with
  | claimantPhone => exact ⟨{ hb with claimantPhone := ha.claimantPhone }, rfl⟩
  | claimantAddress => exact ⟨{ hb with claimantAddress := ha.claimantAddress }, rfl⟩
  | repairShopName => exact ⟨{ hb with repairShopName := ha.repairShopName }, rfl⟩

/-- The background, before and after its collisions. -/
def Background (claims : List GeneratedClaim) : Prop :=
  ∀ c ∈ claims, Sound 0 c ∧ c.ringId = none

theorem background_collide {claims claims' : List GeneratedClaim} (hclaims : Background claims)
    (h : claims' ∈ (collide rng claims).outcomes) : Background claims' := by
  unfold collide at h
  split at h
  · rcases of_mem_bind h with ⟨p, -, h⟩
    rcases of_mem_bind h with ⟨field, -, h⟩
    rw [of_mem_pure h]
    intro c hc
    rcases List.mem_iff_getElem?.1 hc with ⟨i, hi⟩
    rw [List.getElem?_modify] at hi
    rcases Option.map_eq_some_iff.1 hi with ⟨b, hb, rfl⟩
    obtain ⟨hsound, hring⟩ := hclaims b (List.mem_of_getElem? hb)
    split
    · obtain ⟨hcopied, hkept⟩ := field.sound_copy
        (hclaims _ (List.get_mem claims p.val.1)).1 hsound
      exact ⟨hcopied, hkept.trans hring⟩
    · exact ⟨hsound, hring⟩
  · exact absurd h not_mem_raise

theorem background_applyBackgroundCollisions {claims claims' : List GeneratedClaim} {rate : Rate}
    (hclaims : Background claims)
    (h : claims' ∈ (applyBackgroundCollisions rng claims rate).outcomes) : Background claims' := by
  unfold applyBackgroundCollisions at h
  split at h
  · exact of_mem_foldlM (fun _ _ _ hb _ hb' => background_collide hb hb') hclaims h
  · exact absurd h not_mem_raise

theorem isMobile_of_memberPhone {shared : Shared} {fuzzRate : Rate} {i : ℕ} {phone : String}
    (hshared : IsMobile shared.phone) (h : phone ∈ (memberPhone rng shared fuzzRate i).outcomes) :
    IsMobile phone := by
  rcases of_mem_memberPhone h with rfl | ⟨-, htypo⟩
  · exact hshared
  · exact isMobile_of_fuzzPhoneTypo hshared htypo

/-- A field of a member, shared or its own, is plain when all that it can be is. -/
theorem isPlain_of_memberField {shared : Option String} {drawn : Draw σ String} {own text : String}
    {fuzzRate : Rate} {fuzz : String → Draw σ String} {i : ℕ}
    (hdrawn : ∀ text ∈ drawn.outcomes, IsPlain text)
    (hshared : ∀ value, shared = some value → value ∈ drawn.outcomes)
    (hfuzz : ∀ value ∈ drawn.outcomes, ∀ text ∈ (fuzz value).outcomes, IsPlain text)
    (hown : own ∈ (sharedOr shared drawn).outcomes)
    (h : text ∈ (memberField rng shared own fuzzRate fuzz i).outcomes) : IsPlain text := by
  cases shared with
  | none =>
      rw [show memberField rng none own fuzzRate fuzz i = pure own from rfl] at h
      rw [of_mem_pure h]
      exact hdrawn own hown
  | some value =>
      have hvalue := hshared value rfl
      rcases of_mem_memberField h with rfl | ⟨-, hvariant⟩
      · rw [of_mem_pure hown]
        exact hdrawn value hvalue
      · exact hfuzz value hvalue text hvariant

theorem sound_of_makeMember {shared : Shared} {ringId : String} {fuzzRate : Rate} {low i : ℕ}
    {m : GeneratedClaim} (hshared : shared ∈ (drawShared rng).outcomes)
    (h : m ∈ (makeMember rng shared ringId fuzzRate (low, daySpan) i).outcomes) :
    Sound low m ∧ m.ringId = some ringId := by
  obtain ⟨hdrawn, hshops, haddresses⟩ := of_mem_drawShared hshared
  rcases of_mem_bind h with ⟨address, haddress, h⟩
  rcases of_mem_bind h with ⟨shop, hshop, h⟩
  rcases of_mem_bind h with ⟨claimantPhone, hphone, h⟩
  rcases of_mem_bind h with ⟨claimantAddress, haddress', h⟩
  rcases of_mem_bind h with ⟨repairShopName, hshop', h⟩
  rcases of_mem_bind h with ⟨claimId, hid, h⟩
  rcases of_mem_bind h with ⟨claimantName, hname, h⟩
  rcases of_mem_bind h with ⟨policyNumber, hpolicy, h⟩
  rcases of_mem_bind h with ⟨claimAmount, hamount, h⟩
  rcases of_mem_bind h with ⟨incidentDate, hdate, h⟩
  rw [of_mem_pure h]
  refine ⟨⟨exists_of_randomId hid, isPlain_of_randomName hname,
    isPlain_of_randomPolicyNumber hpolicy, isAmount_of_randomAmount hamount,
    isDate_of_randomDate hdate,
    isMobile_of_memberPhone (isMobile_of_randomPhone hdrawn) hphone, ?_, ?_⟩, rfl⟩
  · exact isPlain_of_memberField (fun _ => isPlain_of_randomAddress) haddresses
      (fun _ hvalue _ => isPlain_of_fuzzAddressVariant hvalue) haddress haddress'
  · exact isPlain_of_memberField (fun _ => isPlain_of_randomShop) hshops
      (fun _ hvalue _ => isPlain_of_fuzzShopVariant hvalue) hshop hshop'

theorem sound_of_makeCamouflageClaim {shared : Shared} {c : GeneratedClaim}
    (hshared : shared ∈ (drawShared rng).outcomes)
    (h : c ∈ (makeCamouflageClaim rng shared).outcomes) : Sound 0 c ∧ c.ringId = none := by
  obtain ⟨hphone, hshops, haddresses⟩ := of_mem_drawShared hshared
  rcases of_mem_bind h with ⟨claim, hclaim, h⟩
  rcases of_mem_bind h with ⟨touch, -, h⟩
  obtain ⟨hsound, hring⟩ := sound_of_makeBackgroundClaim hclaim
  split at h
  · rename_i shop hshop
    rw [of_mem_pure h]
    exact ⟨{ hsound with repairShopName := isPlain_of_randomShop (hshops _ hshop) }, hring⟩
  · rename_i haddress
    rw [of_mem_pure h]
    exact ⟨{ hsound with claimantAddress := isPlain_of_randomAddress (haddresses _ haddress) }, hring⟩
  · rw [of_mem_pure h]
    exact ⟨{ hsound with claimantPhone := isMobile_of_randomPhone hphone }, hring⟩

/-! ## Rings -/

theorem fourDigits_injective : Function.Injective fourDigits := by
  have hread : ∀ i, Nat.ofDigitChars 10 (fourDigits i).toList 0 = i := by
    intro i
    rw [fourDigits, String.toList_ofList, Nat.ofDigitChars_append, Nat.ofDigitChars_replicate_zero,
      Nat.mul_zero]
    exact Nat.ofDigitChars_ten_toDigits
  intro i j h
  rw [← hread i, h, hread j]

theorem ringName_injective : Function.Injective ringName := fun _ _ h =>
  fourDigits_injective (by simpa [ringName, ← String.toList_inj] using h)

theorem heldOutName_injective : Function.Injective heldOutName := fun _ _ h =>
  fourDigits_injective (by simpa [heldOutName, ← String.toList_inj] using h)

theorem ringName_ne_heldOutName (i j : ℕ) : ringName i ≠ heldOutName j := by
  intro h
  have hfirst := congrArg (fun text => text.toList.head?) h
  simp [ringName, heldOutName] at hfirst

/-- The members of a ring. -/
def membersOf (name : String) (claims : List GeneratedClaim) : List GeneratedClaim :=
  claims.filter fun c => decide (c.ringId = some name)

theorem mem_membersOf {name : String} {claims : List GeneratedClaim} {c : GeneratedClaim} :
    c ∈ membersOf name claims ↔ c ∈ claims ∧ c.ringId = some name := by
  unfold membersOf
  rw [List.mem_filter, decide_eq_true_iff]

/-- What was drawn for a ring. -/
structure IsRing (rng : Rng σ) (args : Args) (low : ℕ) (name : String) (size : ℤ) (shared : Shared)
    (members : List GeneratedClaim) : Prop where
  low_le : args.minRingSize ≤ size
  le_high : size ≤ args.maxRingSize
  made : (members, shared) ∈ (makeRing rng name size args.fuzzRate (low, daySpan)).outcomes

namespace IsRing

variable {args : Args} {low : ℕ} {name : String} {size : ℤ} {shared : Shared}
  {members : List GeneratedClaim}

theorem exists_made (h : IsRing rng args low name size shared members) {m : GeneratedClaim}
    (hm : m ∈ members) :
    ∃ i, m ∈ (makeMember rng shared name args.fuzzRate (low, daySpan) i).outcomes := by
  have hmade := (of_mem_makeRing h.made).2
  rcases List.mem_iff_get.1 hm with ⟨i, rfl⟩
  exact ⟨_, hmade.get (lt_of_lt_of_eq i.isLt hmade.length_eq.symm) i.isLt⟩

theorem sound (h : IsRing rng args low name size shared members) {m : GeneratedClaim}
    (hm : m ∈ members) : Sound low m ∧ m.ringId = some name := by
  rcases h.exists_made hm with ⟨i, hi⟩
  exact sound_of_makeMember (of_mem_makeRing h.made).1 hi

end IsRing

/-- A ring with what hides it: no other claim there is in a ring. -/
def Block (rng : Rng σ) (args : Args) (low : ℕ) (name : String) (block : List GeneratedClaim) :
    Prop :=
  ∃ size shared members camouflage, block = members ++ camouflage ∧
    IsRing rng args low name size shared members ∧ Background camouflage

theorem block_of_plantRing {args : Args} {i : ℕ} {block : List GeneratedClaim}
    (h : block ∈ (plantRing rng args i).outcomes) : Block rng args 0 (ringName i) block := by
  rcases of_mem_bind h with ⟨size, hsize, h⟩
  rcases of_mem_bind h with ⟨⟨members, shared⟩, hring, h⟩
  rcases of_mem_bind h with ⟨camouflage, hcamouflage, h⟩
  obtain ⟨hlow, hhigh⟩ := of_mem_randint hsize
  refine ⟨size, shared, members, camouflage, of_mem_pure h, ⟨hlow, hhigh, hring⟩, ?_⟩
  rcases of_mem_bind hcamouflage with ⟨hides, -, hcamouflage⟩
  split at hcamouflage
  · rcases of_mem_bind hcamouflage with ⟨count, -, hcamouflage⟩
    have hmade := of_mem_mapM hcamouflage
    intro c hc
    rcases List.mem_iff_get.1 hc with ⟨k, rfl⟩
    exact sound_of_makeCamouflageClaim (of_mem_makeRing hring).1
      (hmade.get (lt_of_lt_of_eq k.isLt hmade.length_eq.symm) k.isLt)
  · rw [of_mem_pure hcamouflage]
    exact fun c hc => absurd hc List.not_mem_nil

theorem block_of_plantHeldOutRing {args : Args} {i : ℕ} {block : List GeneratedClaim}
    (h : block ∈ (plantHeldOutRing rng args i).outcomes) :
    Block rng args (splitDayOffsets.2 + 1) (heldOutName i) block := by
  rcases of_mem_bind h with ⟨size, hsize, h⟩
  rcases of_mem_bind h with ⟨⟨members, shared⟩, hring, h⟩
  obtain ⟨hlow, hhigh⟩ := of_mem_randint hsize
  refine ⟨size, shared, members, [], ?_, ⟨hlow, hhigh, by exact_mod_cast hring⟩, ?_⟩
  · rw [of_mem_pure h, List.append_nil]
  · exact fun c hc => absurd hc List.not_mem_nil

namespace Block

variable {args : Args} {low : ℕ} {name : String} {block : List GeneratedClaim}

theorem sound (h : Block rng args low name block) {c : GeneratedClaim} (hc : c ∈ block) :
    Sound 0 c ∧ (c.ringId = none ∨ c.ringId = some name ∧ Sound low c) := by
  rcases h with ⟨size, shared, members, camouflage, rfl, hring, hcamouflage⟩
  rcases List.mem_append.1 hc with hc | hc
  · obtain ⟨hsound, hname⟩ := hring.sound hc
    exact ⟨hsound.anywhere, Or.inr ⟨hname, hsound⟩⟩
  · exact ⟨(hcamouflage c hc).1, Or.inl (hcamouflage c hc).2⟩

/-- The members of the ring are all those of the block that are in it. -/
theorem isRing (h : Block rng args low name block) :
    ∃ size shared, IsRing rng args low name size shared (membersOf name block) := by
  rcases h with ⟨size, shared, members, camouflage, rfl, hring, hcamouflage⟩
  have hall : membersOf name members = members :=
    List.filter_eq_self.2 fun m hm => decide_eq_true (hring.sound hm).2
  have hnone : membersOf name camouflage = [] := by
    refine List.filter_eq_nil_iff.2 fun c hc => ?_
    rw [(hcamouflage c hc).2]
    simp
  refine ⟨size, shared, ?_⟩
  rwa [membersOf, List.filter_append, ← membersOf, ← membersOf, hall, hnone, List.append_nil]

end Block

section

variable {args : Args} {low : ℕ} {name : ℕ → String} {is : List ℕ}
  {blocks : List (List GeneratedClaim)}

theorem membersOf_append (text : String) (claims claims' : List GeneratedClaim) :
    membersOf text (claims ++ claims') = membersOf text claims ++ membersOf text claims' :=
  List.filter_append ..

theorem membersOf_eq_nil {text : String} {claims : List GeneratedClaim}
    (h : ∀ c ∈ claims, c.ringId ≠ some text) : membersOf text claims = [] :=
  List.filter_eq_nil_iff.2 fun c hc => by simpa using h c hc

theorem sound_of_blocks (h : List.Forall₂ (fun i block => Block rng args low (name i) block) is blocks)
    {c : GeneratedClaim} (hc : c ∈ blocks.flatten) :
    Sound 0 c ∧ (c.ringId = none ∨ ∃ i ∈ is, c.ringId = some (name i) ∧ Sound low c) := by
  induction h with
  | nil => cases hc
  | cons hblock _ ih =>
      rw [List.flatten_cons, List.mem_append] at hc
      rcases hc with hc | hc
      · obtain ⟨hsound, hring⟩ := hblock.sound hc
        exact ⟨hsound, hring.imp_right fun hring => ⟨_, List.mem_cons_self, hring⟩⟩
      · obtain ⟨hsound, hring⟩ := ih hc
        refine ⟨hsound, hring.imp_right ?_⟩
        rintro ⟨i, hi, hring⟩
        exact ⟨i, List.mem_cons_of_mem _ hi, hring⟩

/-- The members of a ring are those of its block: no other block has a claim in it. -/
theorem exists_isRing (hname : Function.Injective name) (hnodup : is.Nodup)
    (h : List.Forall₂ (fun i block => Block rng args low (name i) block) is blocks) {i : ℕ}
    (hi : i ∈ is) :
    ∃ size shared, IsRing rng args low (name i) size shared (membersOf (name i) blocks.flatten) := by
  induction h with
  | nil => cases hi
  | @cons j block is blocks hblock hblocks ih =>
      obtain ⟨hnot, hnodup⟩ := List.nodup_cons.1 hnodup
      rw [List.flatten_cons, membersOf_append]
      rcases List.mem_cons.1 hi with rfl | hi
      · have hrest : membersOf (name i) blocks.flatten = [] := by
          refine membersOf_eq_nil fun c hc hring => ?_
          rcases (sound_of_blocks hblocks hc).2 with hnone | ⟨k, hk, hother, -⟩
          · rw [hnone] at hring
            cases hring
          · rw [hring, Option.some_inj] at hother
            exact hnot (hname hother ▸ hk)
        rw [hrest, List.append_nil]
        exact hblock.isRing
      · have hfront : membersOf (name i) block = [] := by
          refine membersOf_eq_nil fun c hc hring => ?_
          rcases (hblock.sound hc).2 with hnone | ⟨hother, -⟩
          · rw [hnone] at hring
            cases hring
          · rw [hring, Option.some_inj] at hother
            exact hnot (hname hother ▸ hi)
        rw [hfront, List.nil_append]
        exact ih hnodup hi

end

/-! ## The run -/

theorem perm_of_shuffle {α : Type} {l r : List α} (h : r ∈ (shuffle rng l).outcomes) : r.Perm l := by
  rcases of_mem_bind h with ⟨places, -, h⟩
  have hplaces := (Equiv.Perm.map_finRange_perm places).map l.get
  rw [of_mem_pure h]
  rw [List.map_map] at hplaces
  exact hplaces.trans (List.Perm.of_eq (List.map_get_finRange l))

/-- What a run of the generator plants: its claims are of their forms, those of held-out rings
in the test period, and each ring has the members that were drawn for it. -/
structure Planted (rng : Rng σ) (args : Args) (out : Output) : Prop where
  sound : ∀ c ∈ out.claims, Sound 0 c
  heldOut : ∀ c ∈ out.claims, ∀ i, c.ringId = some (heldOutName i) → Sound (splitDayOffsets.2 + 1) c
  named : ∀ c ∈ out.claims, ∀ name, c.ringId = some name →
    (∃ i < args.rings.toNat, name = ringName i) ∨ ∃ i < args.heldOutRings.toNat, name = heldOutName i
  ring : ∀ i < args.rings.toNat, ∃ size shared members,
    IsRing rng args 0 (ringName i) size shared members ∧
      (membersOf (ringName i) out.claims).Perm members
  heldOutRing : ∀ i < args.heldOutRings.toNat, ∃ size shared members,
    IsRing rng args (splitDayOffsets.2 + 1) (heldOutName i) size shared members ∧
      (membersOf (heldOutName i) out.claims).Perm members
  heldOutRingIds : out.heldOutRingIds = (List.range args.heldOutRings.toNat).map heldOutName

/-- The claims before they are shuffled. -/
structure Parts (rng : Rng σ) (args : Args) (background : List GeneratedClaim)
    (rings heldOut : List (List GeneratedClaim)) : Prop where
  background : Background background
  rings : List.Forall₂ (fun i block => Block rng args 0 (ringName i) block)
    (List.range args.rings.toNat) rings
  heldOut : List.Forall₂ (fun i block => Block rng args (splitDayOffsets.2 + 1) (heldOutName i) block)
    (List.range args.heldOutRings.toNat) heldOut

theorem exists_parts {args : Args} {out : Output} (h : out ∈ (generate rng args).outcomes) :
    ∃ background rings heldOut, Parts rng args background rings heldOut ∧
      out.claims.Perm (background ++ rings.flatten ++ heldOut.flatten) ∧
      out.heldOutRingIds = (List.range args.heldOutRings.toNat).map heldOutName := by
  rcases of_mem_bind h with ⟨background, hbackground, h⟩
  rcases of_mem_bind h with ⟨collided, hcollided, h⟩
  rcases of_mem_bind h with ⟨rings, hrings, h⟩
  rcases of_mem_bind h with ⟨heldOut, hheldOut, h⟩
  rcases of_mem_bind h with ⟨claims, hclaims, h⟩
  rcases of_mem_pure h with rfl
  refine ⟨collided, rings, heldOut, ⟨?_, ?_, ?_⟩, perm_of_shuffle hclaims, rfl⟩
  · refine background_applyBackgroundCollisions (fun c hc => ?_) hcollided
    have hmade := of_mem_mapM hbackground
    rcases List.mem_iff_get.1 hc with ⟨k, rfl⟩
    exact sound_of_makeBackgroundClaim
      (hmade.get (lt_of_lt_of_eq k.isLt hmade.length_eq.symm) k.isLt)
  · exact (of_mem_mapM hrings).imp fun _ _ => block_of_plantRing
  · exact (of_mem_mapM hheldOut).imp fun _ _ => block_of_plantHeldOutRing

namespace Parts

variable {args : Args} {background : List GeneratedClaim} {rings heldOut : List (List GeneratedClaim)}

/-- Where a claim comes from. -/
theorem cases (h : Parts rng args background rings heldOut) {c : GeneratedClaim}
    (hc : c ∈ background ++ rings.flatten ++ heldOut.flatten) :
    Sound 0 c ∧ (c.ringId = none ∨
      (∃ i < args.rings.toNat, c.ringId = some (ringName i)) ∨
      ∃ i < args.heldOutRings.toNat, c.ringId = some (heldOutName i) ∧
        Sound (splitDayOffsets.2 + 1) c) := by
  rcases List.mem_append.1 hc with hc | hc
  · rcases List.mem_append.1 hc with hc | hc
    · exact ⟨(h.background c hc).1, Or.inl (h.background c hc).2⟩
    · obtain ⟨hsound, hring⟩ := sound_of_blocks h.rings hc
      refine ⟨hsound, hring.imp_right fun hring => Or.inl ?_⟩
      rcases hring with ⟨i, hi, hname, -⟩
      exact ⟨i, List.mem_range.1 hi, hname⟩
  · obtain ⟨hsound, hring⟩ := sound_of_blocks h.heldOut hc
    refine ⟨hsound, hring.imp_right fun hring => Or.inr ?_⟩
    rcases hring with ⟨i, hi, hname, hlater⟩
    exact ⟨i, List.mem_range.1 hi, hname, hlater⟩

theorem membersOf_background (h : Parts rng args background rings heldOut) (name : String) :
    membersOf name background = [] := by
  refine membersOf_eq_nil fun c hc hring => ?_
  rw [(h.background c hc).2] at hring
  cases hring

theorem membersOf_ringName (h : Parts rng args background rings heldOut) (i : ℕ) :
    membersOf (ringName i) (background ++ rings.flatten ++ heldOut.flatten) =
      membersOf (ringName i) rings.flatten := by
  have hother : membersOf (ringName i) heldOut.flatten = [] := by
    refine membersOf_eq_nil fun c hc hring => ?_
    rcases (sound_of_blocks h.heldOut hc).2 with hnone | ⟨j, -, hname, -⟩
    · rw [hnone] at hring
      cases hring
    · exact ringName_ne_heldOutName i j (Option.some.inj (hring.symm.trans hname))
  rw [membersOf_append, membersOf_append, h.membersOf_background, hother, List.nil_append,
    List.append_nil]

theorem membersOf_heldOutName (h : Parts rng args background rings heldOut) (i : ℕ) :
    membersOf (heldOutName i) (background ++ rings.flatten ++ heldOut.flatten) =
      membersOf (heldOutName i) heldOut.flatten := by
  have hother : membersOf (heldOutName i) rings.flatten = [] := by
    refine membersOf_eq_nil fun c hc hring => ?_
    rcases (sound_of_blocks h.rings hc).2 with hnone | ⟨j, -, hname, -⟩
    · rw [hnone] at hring
      cases hring
    · exact ringName_ne_heldOutName j i (Option.some.inj (hname.symm.trans hring))
  rw [membersOf_append, membersOf_append, h.membersOf_background, hother, List.nil_append,
    List.nil_append]

end Parts

theorem planted_of_generate {args : Args} {out : Output} (h : out ∈ (generate rng args).outcomes) :
    Planted rng args out := by
  rcases exists_parts h with ⟨background, rings, heldOut, hparts, hperm, hids⟩
  constructor
  · exact fun c hc => (hparts.cases (hperm.mem_iff.1 hc)).1
  · intro c hc i hring
    rcases (hparts.cases (hperm.mem_iff.1 hc)).2 with hnone | ⟨j, -, hother⟩ | ⟨j, -, -, hlater⟩
    · rw [hnone] at hring
      cases hring
    · exact absurd (Option.some.inj (hother.symm.trans hring)) (ringName_ne_heldOutName j i)
    · exact hlater
  · intro c hc name hring
    rcases (hparts.cases (hperm.mem_iff.1 hc)).2 with hnone | ⟨j, hj, hother⟩ | ⟨j, hj, hother, -⟩
    · rw [hnone] at hring
      cases hring
    · exact Or.inl ⟨j, hj, Option.some.inj (hring.symm.trans hother)⟩
    · exact Or.inr ⟨j, hj, Option.some.inj (hring.symm.trans hother)⟩
  · intro i hi
    rcases exists_isRing ringName_injective List.nodup_range hparts.rings (List.mem_range.2 hi) with
      ⟨size, shared, hring⟩
    exact ⟨size, shared, _, hring,
      (hperm.filter _).trans (List.Perm.of_eq (hparts.membersOf_ringName i))⟩
  · intro i hi
    rcases exists_isRing heldOutName_injective List.nodup_range hparts.heldOut
      (List.mem_range.2 hi) with ⟨size, shared, hring⟩
    exact ⟨size, shared, _, hring,
      (hperm.filter _).trans (List.Perm.of_eq (hparts.membersOf_heldOutName i))⟩
  · exact hids

end GenRings

end ClaimGuard
