import ClaimGuard.Lib.Double
import ClaimGuard.Lib.Draws
import ClaimGuard.Lib.Replace
import ClaimGuard.TrainModel

/-!
# The generator of the demo data

`tools/gen_rings.py`: claims with planted rings, some of them held out of training, and what
is known about them. What it draws from is any source whose draws are in their ranges.
-/

namespace ClaimGuard

namespace GenRings

open Draw

/-! ## The source of the draws -/

/-- `random.Random`, with the states it goes through, and `uuid.uuid4`. A draw of two elements
gives two places, and a shuffle a permutation of the places. -/
structure Rng (σ : Type) where
  randint : (low high : ℤ) → low ≤ high → σ → {n : ℤ // low ≤ n ∧ n ≤ high} × σ
  random : σ → {x : Double // 0 ≤ x.value ∧ x.value < 1} × σ
  index : (n : ℕ) → 0 < n → σ → Fin n × σ
  pair : (n : ℕ) → 2 ≤ n → σ → {p : Fin n × Fin n // p.1 ≠ p.2} × σ
  permutation : (n : ℕ) → σ → Equiv.Perm (Fin n) × σ
  uuid4 : σ → UUID × σ

variable {σ : Type} (rng : Rng σ)

/-- `rng.randint(low, high)`; an empty range raises. -/
def randint (low high : ℤ) : Draw σ ℤ :=
  if h : low ≤ high then do
    let n ← draw (rng.randint low high h)
    pure n.val
  else raise

/-- `rng.choice(l)`; there is nothing to choose from an empty list. -/
def choice {α : Type} (l : List α) : Draw σ α :=
  if h : 0 < l.length then do
    let i ← draw (rng.index l.length h)
    pure (l.get i)
  else raise

/-- A rate of the command line, which may be any `float`. -/
inductive Rate where
  | finite (value : Double)
  | infinite (negative : Bool)
  | nan

/-- `x < rate`. -/
def Rate.isAbove (rate : Rate) (x : Double) : Bool :=
  match rate with
  | .finite value => Floats.lt x value
  | .infinite negative => !negative
  | .nan => false

/-- `rate * factor`, of a positive factor below one: nothing overflows. -/
def Rate.shrink (rate : Rate) (factor : Double) : Rate :=
  match rate with
  | .finite value => .finite (value * factor)
  | rate => rate

/-- `rng.random() < p`. -/
def chance (p : Rate) : Draw σ Bool := do
  let x ← draw rng.random
  pure (p.isAbove x.val)

/-- `rng.uniform(low, high)` of two integers. -/
def uniform (low high : ℕ) : Draw σ Double := do
  let x ← draw rng.random
  pure (Floats.ofRat low + Floats.ofRat (high - low) * x.val)

/-- `rng.shuffle(l)`. -/
def shuffle {α : Type} (l : List α) : Draw σ (List α) := do
  let places ← draw (rng.permutation l.length)
  pure ((List.finRange l.length).map fun i => l.get (places i))

/-! ## The pools -/

/-- `FIRST_NAMES`. -/
def firstNames : List String :=
  ["Asha", "Ravi", "Priya", "Arjun", "Meera", "Vikram", "Kavya", "Rahul", "Divya", "Sanjay",
    "Anita", "Karthik", "Neha", "Suresh", "Pooja", "Manoj", "Deepa", "Ajay", "Swati", "Rohit",
    "Lakshmi", "Vijay"]

/-- `LAST_NAMES`. -/
def lastNames : List String :=
  ["Menon", "Kumar", "Sharma", "Nair", "Reddy", "Iyer", "Gupta", "Rao", "Pillai", "Verma",
    "Naidu", "Joshi", "Desai", "Bhatt", "Krishnan"]

/-- `CITIES`. -/
def cities : List String :=
  ["Coimbatore", "Bengaluru", "Chennai", "Hyderabad", "Pune", "Kochi", "Mysuru", "Madurai",
    "Vizag", "Nagpur"]

/-- `STREET_NAMES`. -/
def streetNames : List String :=
  ["Lake View", "MG", "Anna", "Gandhi", "Nehru", "Church", "Market", "Temple", "Station", "Ring",
    "Marina", "Hill"]

/-- `ROAD_TYPES`. -/
def roadTypes : List String := ["Road", "Street", "Avenue", "Lane", "Cross"]

/-- `SHOP_PREFIXES`. -/
def shopPrefixes : List String :=
  ["SpeedFix", "Metro", "Royal", "Prime", "City", "Elite", "Super", "National", "Sri", "Star"]

/-- `SHOP_SUFFIXES`. -/
def shopSuffixes : List String := ["Auto Works", "Motors", "Garage", "Car Care", "Automobiles"]

/-- `SHOP_SUFFIX_SPACING_VARIANTS`. -/
def shopSuffixSpacingVariants : List (String × String) :=
  [("Auto Works", "Autoworks"), ("Car Care", "CarCare")]

/-- `CITY_ALIASES`. -/
def cityAliases : List (String × String) :=
  [("Bengaluru", "Bangalore"), ("Mysuru", "Mysore"), ("Vizag", "Visakhapatnam"),
    ("Kochi", "Cochin")]

/-- `STREET_SPACING_VARIANTS`. -/
def streetSpacingVariants : List (String × String) := [("Lake View", "Lakeview")]

/-! ## Fields -/

/-- `GeneratedClaim`. -/
structure GeneratedClaim where
  claimId : String
  claimantName : String
  policyNumber : String
  claimAmount : String
  incidentDate : String
  claimantPhone : String
  claimantAddress : String
  repairShopName : String
  ringId : Option String

/-- `str(n)`. -/
def str (n : ℤ) : String := String.ofList (Text.decimalInt n)

/-- `str(uuid.uuid4())`. -/
def randomId : Draw σ String := do
  let id ← draw rng.uuid4
  pure id.toString

/-- `random_policy_number`. -/
def randomPolicyNumber : Draw σ String := do
  let n ← randint rng 10000 99999
  pure ("POL-" ++ str n)

/-- `random_name`. -/
def randomName : Draw σ String := do
  let first ← choice rng firstNames
  let last ← choice rng lastNames
  pure (first ++ " " ++ last)

/-- `random_phone`. -/
def randomPhone : Draw σ String := do
  let lead ← randint rng 6 9
  let rest ← randint rng 100000000 999999999
  pure ("+91" ++ str lead ++ str rest)

/-- The text of an address. -/
def addressText (houseNumber : ℤ) (street roadType city : String) : String :=
  str houseNumber ++ " " ++ street ++ " " ++ roadType ++ ", " ++ city

/-- `random_address`. -/
def randomAddress : Draw σ String := do
  let houseNumber ← randint rng 1 200
  let street ← choice rng streetNames
  let roadType ← choice rng roadTypes
  let city ← choice rng cities
  pure (addressText houseNumber street roadType city)

/-- `random_shop`. -/
def randomShop : Draw σ String := do
  let front ← choice rng shopPrefixes
  let back ← choice rng shopSuffixes
  pure (front ++ " " ++ back)

/-- `random_amount`. -/
def randomAmount : Draw σ String := do
  let amount ← uniform rng 5000 150000
  pure (Floats.format amount 2)

/-- `random_date`. -/
def randomDate (dateRange : ℤ × ℤ) : Draw σ String := do
  let days ← randint rng dateRange.1 dateRange.2
  pure (LocalDate.isoformat ⟨epoch.epochDay + days⟩)

/-! ## Near duplicates -/

/-- `digits[i], digits[i + 1] = digits[i + 1], digits[i]`. -/
def swapAt {α : Type} (l : List α) (i : ℕ) : List α :=
  match l, i with
  | a :: b :: l, 0 => b :: a :: l
  | a :: l, i + 1 => a :: swapAt l i
  | l, _ => l

/-- `fuzz_phone_typo`. -/
def fuzzPhoneTypo (phone : String) : Draw σ String := do
  let i ← randint rng 4 (phone.toList.length - 2)
  pure (String.ofList (swapAt phone.toList i.toNat))

/-- `text.replace(old, new)`. -/
def replace (text old new : String) : String :=
  String.ofList (Replace.replaceFrom old.toList new.toList 0 text.toList)

/-- Each old text that is found is replaced every other time. -/
def fuzzVariants (variants : List (String × String)) (text : String) : Draw σ String :=
  variants.foldlM (fun fuzzed item => do
    if item.1.toList <:+: fuzzed.toList then
      let hit ← chance rng (.finite (Floats.ofRat (1 / 2)))
      pure (if hit then replace fuzzed item.1 item.2 else fuzzed)
    else pure fuzzed) text

/-- `fuzz_address_variant`. -/
def fuzzAddressVariant (address : String) : Draw σ String := do
  let fuzzed ← fuzzVariants rng cityAliases address
  fuzzVariants rng streetSpacingVariants fuzzed

/-- `fuzz_shop_variant`. -/
def fuzzShopVariant (shopName : String) : Draw σ String :=
  fuzzVariants rng shopSuffixSpacingVariants shopName

/-! ## Claims -/

/-- `make_background_claim`. -/
def makeBackgroundClaim : Draw σ GeneratedClaim := do
  let claimId ← randomId rng
  let claimantName ← randomName rng
  let policyNumber ← randomPolicyNumber rng
  let claimAmount ← randomAmount rng
  let incidentDate ← randomDate rng (0, daySpan)
  let claimantPhone ← randomPhone rng
  let claimantAddress ← randomAddress rng
  let repairShopName ← randomShop rng
  pure { claimId, claimantName, policyNumber, claimAmount, incidentDate, claimantPhone,
         claimantAddress, repairShopName, ringId := none }

/-- The fields that two claims can come to share. -/
inductive SharedField where
  | claimantPhone
  | claimantAddress
  | repairShopName

/-- `setattr(b, shared_field, getattr(a, shared_field))`. -/
def SharedField.copy (field : SharedField) (a b : GeneratedClaim) : GeneratedClaim :=
  match field with
  | .claimantPhone => { b with claimantPhone := a.claimantPhone }
  | .claimantAddress => { b with claimantAddress := a.claimantAddress }
  | .repairShopName => { b with repairShopName := a.repairShopName }

/-- `int(n * rate)`: there is no integer of an infinity, which the product of two finite
numbers can be too, nor of NaN. -/
def countOf (n : ℕ) (rate : Rate) : Option ℤ :=
  match rate with
  | .finite value =>
      let product : Double := Floats.ofRat n * value
      if |product.value| < 2 ^ 1024 then
        some (if product.value < 0 then -⌊-product.value⌋ else ⌊product.value⌋)
      else none
  | _ => none

/-- One collision; `sample` raises when there are no two claims. -/
def collide (claims : List GeneratedClaim) : Draw σ (List GeneratedClaim) :=
  if h : 2 ≤ claims.length then do
    let p ← draw (rng.pair claims.length h)
    let field ← choice rng [SharedField.claimantPhone, .claimantAddress, .repairShopName]
    pure (claims.modify p.val.2 (field.copy (claims.get p.val.1)))
  else raise

/-- `apply_background_collisions`. -/
def applyBackgroundCollisions (claims : List GeneratedClaim) (rate : Rate) :
    Draw σ (List GeneratedClaim) :=
  match countOf claims.length rate with
  | some collisionCount =>
      (List.range collisionCount.toNat).foldlM (fun claims _ => collide rng claims) claims
  | none => raise

/-- What the members of a ring share. -/
structure Shared where
  phone : String
  shop : Option String
  address : Option String

/-- `value if rng.random() < p else None`. -/
def sometimes (p : Rate) (value : Draw σ String) : Draw σ (Option String) := do
  let hit ← chance rng p
  if hit then some <$> value else pure none

/-- What `make_ring` draws before its members. -/
def drawShared : Draw σ Shared := do
  let phone ← randomPhone rng
  let shop ← sometimes rng (.finite (Floats.ofRat (8 / 10))) (randomShop rng)
  let address ← sometimes rng (.finite (Floats.ofRat (3 / 10))) (randomAddress rng)
  pure ⟨phone, shop, address⟩

/-- The phone of the `i`-th member: the first always has the one that is shared. -/
def memberPhone (shared : Shared) (fuzzRate : Rate) (i : ℕ) : Draw σ String := do
  if 0 < i then
    let typo ← chance rng fuzzRate
    if typo then fuzzPhoneTypo rng shared.phone else pure shared.phone
  else pure shared.phone

/-- `shared or value`: what is not shared is drawn for each member. -/
def sharedOr (shared : Option String) (value : Draw σ String) : Draw σ String :=
  match shared with
  | none => value
  | some value => pure value

/-- A field that the ring may share: after the first member, with variants. -/
def memberField (shared : Option String) (own : String) (fuzzRate : Rate)
    (fuzz : String → Draw σ String) (i : ℕ) : Draw σ String := do
  match shared with
  | none => pure own
  | some value =>
      if 0 < i then
        let variant ← chance rng fuzzRate
        if variant then fuzz value else pure own
      else pure own

/-- The `i`-th member of a ring. -/
def makeMember (shared : Shared) (ringId : String) (fuzzRate : Rate) (dateRange : ℤ × ℤ)
    (i : ℕ) : Draw σ GeneratedClaim := do
  let address ← sharedOr shared.address (randomAddress rng)
  let shop ← sharedOr shared.shop (randomShop rng)
  let claimantPhone ← memberPhone rng shared fuzzRate i
  let claimantAddress ← memberField rng shared.address address fuzzRate (fuzzAddressVariant rng) i
  let repairShopName ← memberField rng shared.shop shop (fuzzRate.shrink (Floats.ofRat (6 / 10)))
    (fuzzShopVariant rng) i
  let claimId ← randomId rng
  let claimantName ← randomName rng
  let policyNumber ← randomPolicyNumber rng
  let claimAmount ← randomAmount rng
  let incidentDate ← randomDate rng dateRange
  pure { claimId, claimantName, policyNumber, claimAmount, incidentDate, claimantPhone,
         claimantAddress, repairShopName, ringId := some ringId }

/-- `make_ring`. -/
def makeRing (ringId : String) (size : ℤ) (fuzzRate : Rate) (dateRange : ℤ × ℤ) :
    Draw σ (List GeneratedClaim × Shared) := do
  let shared ← drawShared rng
  let members ← (List.range size.toNat).mapM (makeMember rng shared ringId fuzzRate dateRange)
  pure (members, shared)

/-- What a camouflage claim touches. -/
inductive Touch where
  | shop
  | address
  | phone

/-- A camouflage claim: what the ring does not share is the phone. -/
def makeCamouflageClaim (shared : Shared) : Draw σ GeneratedClaim := do
  let claim ← makeBackgroundClaim rng
  let touch ← choice rng
    (if shared.shop.isSome || shared.address.isSome then [Touch.shop, .address] else [.phone])
  match touch, shared.shop, shared.address with
  | .shop, some shop, _ => pure { claim with repairShopName := shop }
  | .address, _, some address => pure { claim with claimantAddress := address }
  | _, _, _ => pure { claim with claimantPhone := shared.phone }

/-- `make_camouflage_claims`. -/
def makeCamouflageClaims (count : ℤ) (shared : Shared) : Draw σ (List GeneratedClaim) :=
  (List.range count.toNat).mapM fun _ => makeCamouflageClaim rng shared

/-! ## The run -/

/-- The arguments, without those that say where the files go. -/
structure Args where
  claims : ℤ
  rings : ℤ
  minRingSize : ℤ
  maxRingSize : ℤ
  camouflageRate : Rate
  backgroundCollisionRate : Rate
  fuzzRate : Rate
  heldOutRings : ℤ

/-- `f"{i:04d}"`. -/
def fourDigits (i : ℕ) : String :=
  String.ofList (List.replicate (4 - (Text.decimal i).length) '0' ++ Text.decimal i)

/-- The id of an ordinary ring. -/
def ringName (i : ℕ) : String := "ring-" ++ fourDigits i

/-- The id of a held-out ring. -/
def heldOutName (i : ℕ) : String := "heldout-" ++ fourDigits i

/-- The camouflage that a ring may have. -/
def hideRing (args : Args) (shared : Shared) : Draw σ (List GeneratedClaim) := do
  let hides ← chance rng args.camouflageRate
  if hides then
    let count ← randint rng 1 3
    makeCamouflageClaims rng count shared
  else pure []

/-- An ordinary ring, with its camouflage. -/
def plantRing (args : Args) (i : ℕ) : Draw σ (List GeneratedClaim) := do
  let size ← randint rng args.minRingSize args.maxRingSize
  let ring ← makeRing rng (ringName i) size args.fuzzRate (0, daySpan)
  let camouflage ← hideRing rng args ring.2
  pure (ring.1 ++ camouflage)

/-- A held-out ring: its dates come after the last of the validation period. -/
def plantHeldOutRing (args : Args) (i : ℕ) : Draw σ (List GeneratedClaim) := do
  let size ← randint rng args.minRingSize args.maxRingSize
  let ring ← makeRing rng (heldOutName i) size args.fuzzRate (splitDayOffsets.2 + 1, daySpan)
  pure ring.1

/-- What `main` writes to its files. -/
structure Output where
  claims : List GeneratedClaim
  heldOutRingIds : List String

/-- `main`, up to the files. -/
def generate (args : Args) : Draw σ Output := do
  let background ← (List.range args.claims.toNat).mapM fun _ => makeBackgroundClaim rng
  let background ← applyBackgroundCollisions rng background args.backgroundCollisionRate
  let rings ← (List.range args.rings.toNat).mapM (plantRing rng args)
  let heldOut ← (List.range args.heldOutRings.toNat).mapM (plantHeldOutRing rng args)
  let claims ← shuffle rng (background ++ rings.flatten ++ heldOut.flatten)
  pure ⟨claims, (List.range args.heldOutRings.toNat).map heldOutName⟩

end GenRings

end ClaimGuard
