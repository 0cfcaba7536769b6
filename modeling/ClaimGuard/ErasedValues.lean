import ClaimGuard.AddressTokens
import ClaimGuard.EntityGraph
import ClaimGuard.Http
import ClaimGuard.Resolution
import ClaimGuard.ShopFormatting

/-!
# Values that normalization erases

An address without a letter or a digit of the alphabet, and a shop name of white space and
suffixes, have the empty canonical value. Every other claim is linked to values that are not
empty, and claims that are linked to one address or shop have a word in common.
-/

namespace ClaimGuard

open ClaimService EntityService Words Replace

/-! ## Addresses -/

/-- No character of the address is one of `[a-z0-9]` in lower case. -/
def ErasesAddress (rawAddress : String) : Prop :=
  ∀ c ∈ toLowerCase rawAddress.toList, isLowerAlnum c = false

theorem intercalate_eq_nil_iff {p : Char → Bool} (hblank : p ' ' = false) {ws : List (List Char)}
    (h : ∀ w ∈ ws, IsWord p w) : [' '].intercalate ws = [] ↔ ws = [] := by
  constructor
  · intro hnil
    rw [← words_intercalate hblank h, hnil, words_nil]
  · rintro rfl
    rfl

theorem normalizeAddress_eq_empty_iff (rawAddress : String) :
    normalizeAddress rawAddress = "" ↔ ErasesAddress rawAddress := by
  rw [← String.toList_inj, toList_normalizeAddress, String.toList_empty,
    intercalate_eq_nil_iff (p := isLowerAlnum) (by decide) isWord_of_sortedTokens,
    List.map_eq_nil_iff]
  unfold ErasesAddress
  rw [← words_eq_nil_iff]
  have hperm := List.perm_insertionSort Utf16.Le (addressTokens rawAddress)
  constructor
  · intro hnil
    rw [hnil] at hperm
    exact List.map_eq_nil_iff.1 hperm.nil_eq.symm
  · intro hnil
    unfold addressTokens at hperm
    rw [hnil, List.map_nil] at hperm
    unfold addressTokens
    rw [hnil]
    rfl

/-! ## Shop names -/

/-- The class `\s`, character by character. -/
def whiteSpace : List (List Char) :=
  [[' '], ['\t'], ['\n'], [Char.ofNat 0xB], [Char.ofNat 0xC], ['\r']]

/-- The texts that become a blank when suffixes of two words are struck in their order: a
blank, or the two words of a suffix around what became a blank before. -/
def blanked (suffixes : List (List Char × List Char)) : List (List Char) :=
  suffixes.sublists.map fun nested => nested.foldl (fun m s => s.1 ++ m ++ s.2) [' ']

/-- White space, suffixes of one word, and what becomes a blank. -/
def shopPieces (twoWord : List (List Char × List Char)) (oneWord : List (List Char)) :
    List (List Char) := whiteSpace ++ oneWord ++ blanked twoWord

/-- The name is put together from white space and suffixes: the suffixes of one word, and those
of two words with a blank between them or with a suffix of two words in the blank's place. -/
def ErasesShop (rawShopName : String) : Prop :=
  Made (shopPieces twoWordSuffixes oneWordSuffixes) (cleanedShop rawShopName)

theorem made_whiteSpace_iff {t : List Char} :
    Made (shopPieces [] []) t ↔ ∀ c ∈ t, isRegexSpace c = true := by
  have hpieces : ∀ a ∈ shopPieces [] [], a.all isRegexSpace = true := by decide
  constructor
  · intro h
    induction h with
    | nil => exact fun c hc => absurd hc List.not_mem_nil
    | append ha _ ih =>
        intro c hc
        exact (List.mem_append.1 hc).elim (List.all_eq_true.1 (hpieces _ ha) c) (ih c)
  · intro h
    induction t with
    | nil => exact .nil
    | cons c t ih =>
        refine Made.append (a := [c]) ?_ (ih fun d hd => h d (List.mem_cons_of_mem c hd))
        have hspace := isRegexSpace_iff.1 (h c List.mem_cons_self)
        have hchar : c = ' ' ∨ c = '\t' ∨ c = '\n' ∨ c = Char.ofNat 0xB ∨ c = Char.ofNat 0xC ∨
            c = '\r' := by
          simp only [← Char.toNat_inj]
          show c.toNat = 32 ∨ c.toNat = 9 ∨ c.toNat = 10 ∨ c.toNat = 11 ∨ c.toNat = 12 ∨
            c.toNat = 13
          omega
        rcases hchar with rfl | rfl | rfl | rfl | rfl | rfl
        all_goals decide

/-- Nothing but white space is left of a shop text exactly when it is put together from white
space and suffixes. -/
theorem made_struckShop_iff (t : List Char) :
    Made (shopPieces [] []) (struckShop t) ↔
      Made (shopPieces twoWordSuffixes oneWordSuffixes) t := by
  have htwo := made_strikeAll_iff (b := ' ') (twoWordSuffixes.map spaced)
    (fun k => shopPieces (twoWordSuffixes.drop k) oneWordSuffixes) 0 (by decide +kernel) t
  have hone := made_strikeAll_iff (b := ' ') oneWordSuffixes
    (fun k => shopPieces [] (oneWordSuffixes.drop k)) 0 (by decide +kernel)
    (strikeAll ' ' (twoWordSuffixes.map spaced) t)
  exact hone.trans htwo

theorem normalizeShop_eq_empty_iff (rawShopName : String) :
    normalizeShop rawShopName = "" ↔ ErasesShop rawShopName := by
  have htext : IsShopText (struckShop (cleanedShop rawShopName)) :=
    isShopText_strikeAll (isShopText_strikeAll (isShopText_cleanedShop rawShopName))
  unfold ErasesShop
  rw [← made_struckShop_iff, made_whiteSpace_iff, ← String.toList_inj, toList_normalizeShop,
    String.toList_empty]
  unfold joined
  rw [intercalate_eq_nil_iff (p := isShopChar) (by decide) fun _ => isWord_of_mem, words_eq_nil_iff]
  exact forall₂_congr fun c hc => ⟨htext.isRegexSpace hc, isShopChar_of_isRegexSpace⟩

/-! ## Claims -/

/-- The raw field of a type normalizes to the empty value. -/
def Erases (claim : Claim) : EntityType → Prop
  | .phone => False
  | .address => ErasesAddress claim.claimantAddress
  | .shop => ∃ name, claim.repairShopName = some name ∧ isBlank name = false ∧ ErasesShop name

/-- The values `resolveAndLink` upserts for the claim are not empty. -/
def UpsertsNonempty (claim : Claim) (entityType : EntityType) : Prop :=
  ∀ phone rawValue value, (entityType, rawValue, value) ∈ linkedFields claim phone → value ≠ ""

/-- The words of a canonical value. -/
def valueWords (value : String) : List (List Char) := words (fun c => c != ' ') value.toList

/-- The values the claims have for the type have no word in common. -/
def NoCommonWord (env : Env) (c d : Claim) (entityType : EntityType) : Prop :=
  ∀ v w, canonicalValue env c entityType = some v → canonicalValue env d entityType = some w →
    ∀ x ∈ valueWords v, x ∉ valueWords w

/-- The claim is linked to the entity in the role of the type. -/
def Db.LinkedAs (db : Db) (claimId id : UUID) (entityType : EntityType) : Prop :=
  ∃ l ∈ db.claimEntities, l.id = ⟨claimId, id, role entityType⟩

theorem upsertsNonempty_iff_canonicalValue (env : Env) {claim : Claim} {entityType : EntityType}
    (htype : entityType ≠ .phone) : UpsertsNonempty claim entityType ↔
      ∀ value, canonicalValue env claim entityType = some value → value ≠ "" := by
  have hmem : ∀ phone value,
      (∃ rawValue, (entityType, rawValue, value) ∈ linkedFields claim phone) ↔
        canonicalValue env claim entityType = some value := by
    intro phone value
    -- the phone makes no difference to the other types
    let env' : Env := { env with normalizePhone := fun _ => some phone }
    have hphone : env'.normalizePhone claim.claimantPhone = some phone := rfl
    rw [mem_linkedFields hphone]
    cases entityType with
    | phone => exact absurd rfl htype
    | address => rfl
    | shop => rfl
  constructor
  · intro h value hvalue
    obtain ⟨rawValue, hfield⟩ := (hmem "" value).2 hvalue
    exact h "" rawValue value hfield
  · intro h phone rawValue value hfield
    exact h value ((hmem phone value).1 ⟨rawValue, hfield⟩)

/-- The empty value is upserted for an erased field only. -/
theorem canonicalValue_eq_empty_iff (env : Env) {claim : Claim} {entityType : EntityType}
    (htype : entityType ≠ .phone) :
    canonicalValue env claim entityType = some "" ↔ Erases claim entityType := by
  cases entityType with
  | phone => exact absurd rfl htype
  | address =>
      rw [canonicalValue_address, Option.some.injEq]
      exact normalizeAddress_eq_empty_iff claim.claimantAddress
  | shop =>
      unfold Erases canonicalValue
      cases claim.repairShopName with
      | none => simp
      | some name =>
          rw [Option.bind_some]
          cases hblank : isBlank name with
          | true => simp [hblank]
          | false =>
              rw [if_neg Bool.false_ne_true, Option.some.injEq, normalizeShop_eq_empty_iff]
              constructor
              · intro h
                exact ⟨name, rfl, hblank, h⟩
              · rintro ⟨other, heq, -, h⟩
                rwa [Option.some.inj heq]

theorem upsertsNonempty_iff (env : Env) {claim : Claim} {entityType : EntityType}
    (htype : entityType ≠ .phone) :
    UpsertsNonempty claim entityType ↔ ¬ Erases claim entityType := by
  rw [upsertsNonempty_iff_canonicalValue env htype, ← canonicalValue_eq_empty_iff env htype]
  constructor
  · intro h hempty
    exact h "" hempty rfl
  · rintro h value hvalue rfl
    exact h hvalue

/-! ## Words in common -/

theorem valueWords_eq {p : Char → Bool} (hblank : p ' ' = false) {ws : List (List Char)}
    (h : ∀ w ∈ ws, IsWord p w) {value : String} (hvalue : value.toList = [' '].intercalate ws) :
    valueWords value = ws := by
  unfold valueWords
  rw [hvalue]
  apply words_intercalate rfl
  intro w hw
  refine ⟨(h w hw).1, ?_⟩
  intro c hc
  rw [bne_iff_ne]
  rintro rfl
  rw [(h w hw).2 ' ' hc] at hblank
  exact Bool.noConfusion hblank

/-- A value that is not empty has a word. -/
theorem valueWords_ne_nil {env : Env} {claim : Claim} {entityType : EntityType}
    (htype : entityType ≠ .phone) {value : String}
    (h : canonicalValue env claim entityType = some value) (hne : value ≠ "") :
    valueWords value ≠ [] := by
  have hjoined : ∃ (p : Char → Bool) (ws : List (List Char)), p ' ' = false ∧
      (∀ w ∈ ws, IsWord p w) ∧ value.toList = [' '].intercalate ws := by
    cases entityType with
    | phone => exact absurd rfl htype
    | address =>
        rw [canonicalValue_address, Option.some.injEq] at h
        rw [← h]
        exact ⟨isLowerAlnum, _, by decide, isWord_of_sortedTokens, toList_normalizeAddress _⟩
    | shop =>
        rcases Option.bind_eq_some_iff.1 h with ⟨name, -, hname⟩
        split at hname
        · exact absurd hname (by simp)
        · rw [← Option.some.inj hname]
          exact ⟨isShopChar, _, by decide, fun _ => isWord_of_mem, toList_normalizeShop _⟩
  rcases hjoined with ⟨p, ws, hblank, hws, hvalue⟩
  rw [valueWords_eq hblank hws hvalue]
  rintro rfl
  exact hne (String.toList_inj.1 hvalue)

/-- Claims that are linked to one entity have its value. -/
theorem Db.Resolved.canonicalValue_of_linkedAs {env : Env} {db : Db} (hr : db.Resolved env)
    {c d : Claim} (hc : c ∈ db.claims) (hd : d ∈ db.claims) {id : UUID} {entityType : EntityType}
    (hlc : db.LinkedAs c.id id entityType) (hld : db.LinkedAs d.id id entityType) :
    ∃ value, canonicalValue env c entityType = some value ∧
      canonicalValue env d entityType = some value := by
  have hrow : ∀ c ∈ db.claims, db.LinkedAs c.id id entityType →
      ∃ value, (id, entityType, value) ∈ db.refs ∧
        canonicalValue env c entityType = some value := by
    intro c hc hl
    rcases hl with ⟨l, hl, hid⟩
    rcases hr.sound l hl with ⟨c', hc', ⟨id', type', value⟩, href, hlid, hcanonical⟩
    rw [hid, ClaimEntityLinkId.mk.injEq] at hlid
    rcases hlid with ⟨hcid, rfl, hrole⟩
    obtain rfl : c = c' := List.inj_on_of_nodup_map hr.claimIds hc hc' hcid
    obtain rfl : entityType = type' := role_injective hrole
    exact ⟨value, href, hcanonical⟩
  rcases hrow c hc hlc with ⟨value, href, hvalue⟩
  rcases hrow d hd hld with ⟨value', href', hvalue'⟩
  have hsame := List.inj_on_of_nodup_map hr.entityIds href href' rfl
  rw [Prod.mk.injEq, Prod.mk.injEq] at hsame
  rw [← hsame.2.2] at hvalue'
  exact ⟨value, hvalue, hvalue'⟩

/-- Two claims are linked to values that are not empty, and not to one address or shop without
a word in common, just where no value of theirs is erased. -/
theorem nonempty_values_iff {env : Env} {s : Intake} (hs : (resolving env).Reachable s)
    {c d : Claim} (hc : c ∈ s.db.claims) (hd : d ∈ s.db.claims) {entityType : EntityType}
    (htype : entityType ≠ .phone) :
    (UpsertsNonempty c entityType ∧ UpsertsNonempty d entityType ∧
        (NoCommonWord env c d entityType →
          ∀ id, s.db.LinkedAs c.id id entityType → ¬ s.db.LinkedAs d.id id entityType)) ↔
      ¬ Erases c entityType ∧ ¬ Erases d entityType := by
  have hr := resolved_of_reachable hs
  rw [upsertsNonempty_iff env htype, upsertsNonempty_iff env htype]
  refine ⟨fun h => ⟨h.1, h.2.1⟩, fun h => ⟨h.1, h.2, ?_⟩⟩
  intro hnone id hlc hld
  rcases hr.canonicalValue_of_linkedAs hc hd hlc hld with ⟨value, hvc, hvd⟩
  have hne : value ≠ "" := by
    rintro rfl
    exact h.1 ((canonicalValue_eq_empty_iff env htype).1 hvc)
  rcases List.exists_mem_of_ne_nil _ (valueWords_ne_nil htype hvc hne) with ⟨w, hw⟩
  exact hnone value value hvc hvd w hw hw

/-- A digit or letter of an address is kept. -/
theorem not_erasesAddress {rawAddress : String} {c : Char}
    (hmem : c ∈ toLowerCase rawAddress.toList) (hc : isLowerAlnum c = true) :
    ¬ ErasesAddress rawAddress := by
  intro h
  rw [h c hmem] at hc
  cases hc

/-- The two claims of the sample that share a phone have addresses that are kept. -/
theorem nonempty_values_iff_resolved :
    UpsertsNonempty (claimOf ⟨1⟩ Sample.request) .address ∧
      UpsertsNonempty Sample.loadedClaim .address ∧
      (NoCommonWord Sample.env (claimOf ⟨1⟩ Sample.request) Sample.loadedClaim .address →
        ∀ id, Sample.resolved.db.LinkedAs ⟨1⟩ id .address →
          ¬ Sample.resolved.db.LinkedAs ⟨6⟩ id .address) :=
  (nonempty_values_iff Sample.reachable_resolved (c := claimOf ⟨1⟩ Sample.request)
    (d := Sample.loadedClaim) (by decide +kernel) (by decide +kernel) (by decide)).2
      ⟨not_erasesAddress (c := '1') (by decide +kernel) (by decide),
        not_erasesAddress (c := '7') (by decide +kernel) (by decide)⟩

namespace Sample

/-- A request whose address is not written in the Latin alphabet, and whose shop is a suffix. -/
def mumbai : ClaimRequest :=
  { request with claimantAddress := "मुंबई", repairShopName := some "Pvt Ltd" }

/-- Another such request, with another phone. -/
def delhi : ClaimRequest :=
  { request with
    claimantPhone := "+919876500022", claimantAddress := "दिल्ली", repairShopName := some "INC." }

/-- A request as it is sent. -/
def bodyOf (request : ClaimRequest) : ClaimBody where
  claimantName := some request.claimantName
  policyNumber := some request.policyNumber
  claimAmount := some request.claimAmount
  incidentDate := some request.incidentDate
  claimantPhone := some request.claimantPhone
  claimantAddress := some request.claimantAddress
  repairShopName := request.repairShopName

def delhiDraws : CreateDraws :=
  { draws with
    claimId := ⟨11⟩
    link := ⟨fun | .phone => ⟨12⟩ | .address => ⟨13⟩ | .shop => ⟨14⟩, fun _ => now⟩
    outboxId := ⟨15⟩ }

end Sample

/-- Two valid requests with nothing in common are linked to one address and to one shop, both
with the empty value. -/
theorem erased_values_linked :
    (Sample.bodyOf Sample.mumbai).validate = some Sample.mumbai ∧
      (Sample.bodyOf Sample.delhi).validate = some Sample.delhi ∧
      ((resolving Sample.env).run ⟨Db.empty, fun _ => none⟩
        [.createClaim Sample.mumbai Sample.draws, .createClaim Sample.delhi Sample.delhiDraws]).map
          (fun s => (s.db.refs, s.db.claimEntities.map fun l => (l.id.claimId, l.id.entityId))) =
        some ([(⟨2⟩, .phone, "+919876500011"), (⟨3⟩, .address, ""), (⟨4⟩, .shop, ""),
            (⟨12⟩, .phone, "+919876500022")],
          [(⟨1⟩, ⟨2⟩), (⟨1⟩, ⟨3⟩), (⟨1⟩, ⟨4⟩), (⟨11⟩, ⟨12⟩), (⟨11⟩, ⟨3⟩), (⟨11⟩, ⟨4⟩)]) := by
  decide +kernel

end ClaimGuard
