import ClaimGuard.TamperEvidence

/-!
# Explanations in a jsonb column

What a `jsonb` column gives back for a text, and which explanations are hashed
alike before and after it. The column and the mapper write numbers in different
grammars: the column prints the exact decimal without an exponent, the mapper
reads a numeral without a point as an integer and prints doubles from `10^7` on
with an exponent.
-/

namespace ClaimGuard

open CanonicalJson AuditService ClaimService

/-! ## The column -/

/-- A number in the column: the exact decimal, without an exponent, with the
fractional digits that were written, and without a negative zero. -/
def storeNumeral (n : Numeral) : Numeral where
  neg := n.neg && decide (n.mantissa ≠ 0)
  mantissa := n.mantissa * 10 ^ (n.exp - n.scale).toNat
  scale := (n.scale - n.exp).toNat
  exponent := none

mutual

/-- What the column keeps: of a repeated key the last value, of a number the exact
decimal. -/
def jsonbNormal : JsonText → JsonText
  | .num n => .num (storeNumeral n)
  | .arr xs => .arr (jsonbNormalElems xs)
  | .obj fs => .obj (linkedMap (jsonbNormalFields fs))
  | t => t

/-- The elements of an array. -/
def jsonbNormalElems : List JsonText → List JsonText
  | [] => []
  | x :: xs => jsonbNormal x :: jsonbNormalElems xs

/-- The members of an object, repeated keys included. -/
def jsonbNormalFields : List (String × JsonText) → List (String × JsonText)
  | [] => []
  | (k, v) :: fs => (k, jsonbNormal v) :: jsonbNormalFields fs

end

mutual

/-- A text with the members of every object in the order of their keys. -/
def sortMembers : JsonText → JsonText
  | .arr xs => .arr (sortMembersElems xs)
  | .obj fs => .obj (Utf16.sortByKey (sortMembersFields fs))
  | t => t

/-- The elements of an array. -/
def sortMembersElems : List JsonText → List JsonText
  | [] => []
  | x :: xs => sortMembers x :: sortMembersElems xs

/-- The members of an object. -/
def sortMembersFields : List (String × JsonText) → List (String × JsonText)
  | [] => []
  | (k, v) :: fs => (k, sortMembers v) :: sortMembersFields fs

end

/-- `stored` is what the column may give back for `text`: what it keeps, with the
members of every object in any order. -/
def JsonbReturns (text stored : JsonText) : Prop :=
  sortMembers stored = sortMembers (jsonbNormal text)

/-! ## Recursion over members -/

@[simp] theorem jsonbNormalElems_eq (xs : List JsonText) :
    jsonbNormalElems xs = xs.map jsonbNormal := by
  induction xs with
  | nil => simp [jsonbNormalElems]
  | cons x xs ih => simp [jsonbNormalElems, ih]

@[simp] theorem jsonbNormalFields_eq (fs : List (String × JsonText)) :
    jsonbNormalFields fs = fs.map fun e => (e.1, jsonbNormal e.2) := by
  induction fs with
  | nil => simp [jsonbNormalFields]
  | cons e fs ih => simp [jsonbNormalFields, ih]

@[simp] theorem sortMembersElems_eq (xs : List JsonText) :
    sortMembersElems xs = xs.map sortMembers := by
  induction xs with
  | nil => simp [sortMembersElems]
  | cons x xs ih => simp [sortMembersElems, ih]

@[simp] theorem sortMembersFields_eq (fs : List (String × JsonText)) :
    sortMembersFields fs = fs.map fun e => (e.1, sortMembers e.2) := by
  induction fs with
  | nil => simp [sortMembersFields]
  | cons e fs ih => simp [sortMembersFields, ih]

/-! ## Canonical forms of texts -/

mutual

/-- The canonical text of a text whose numerals are written by `g`. -/
def canonWith (g : Numeral → JsonText) : JsonText → JsonText
  | .num n => g n
  | .arr xs => .arr (canonWithElems g xs)
  | .obj fs => .obj (Utf16.sortByKey (linkedMap (canonWithFields g fs)))
  | t => t

/-- The elements of an array. -/
def canonWithElems (g : Numeral → JsonText) : List JsonText → List JsonText
  | [] => []
  | x :: xs => canonWith g x :: canonWithElems g xs

/-- The members of an object, repeated keys included. -/
def canonWithFields (g : Numeral → JsonText) : List (String × JsonText) → List (String × JsonText)
  | [] => []
  | (k, v) :: fs => (k, canonWith g v) :: canonWithFields g fs

end

@[simp] theorem canonWithElems_eq (g : Numeral → JsonText) (xs : List JsonText) :
    canonWithElems g xs = xs.map (canonWith g) := by
  induction xs with
  | nil => simp [canonWithElems]
  | cons x xs ih => simp [canonWithElems, ih]

@[simp] theorem canonWithFields_eq (g : Numeral → JsonText) (fs : List (String × JsonText)) :
    canonWithFields g fs = fs.map fun e => (e.1, canonWith g e.2) := by
  induction fs with
  | nil => simp [canonWithFields]
  | cons e fs ih => simp [canonWithFields, ih]

/-- How the mapper writes a numeral it has read. -/
def rewriteNumeral (n : Numeral) : JsonText := toText (parseNumeral n)

/-- Parsing and canonicalizing rewrites every numeral on its own. -/
theorem canonicalText_parse (t : JsonText) :
    canonicalText (parse t) = canonWith rewriteNumeral t := by
  induction t using JsonText.induction with
  | leaf t ht =>
      cases t with
      | num n =>
          have hleaf : (parseNumeral n).isLeaf = true := by
            unfold parseNumeral
            split <;> rfl
          simp only [parse, canonicalText, Json.sortKeys_of_isLeaf hleaf, canonWith, rewriteNumeral]
      | arr xs => cases ht
      | obj fs => cases ht
      | _ => rfl
  | arr xs ih =>
      simp only [parse, parseElems_eq, canonicalText_arr, canonWith, canonWithElems_eq,
        List.map_map]
      congr 1
      exact List.map_congr_left fun x hx => ih x hx
  | obj fs ih =>
      have hfields : fs.map (fun e => (e.1, canonicalText (parse e.2))) =
          fs.map fun e => (e.1, canonWith rewriteNumeral e.2) := by
        apply List.map_congr_left
        intro e he
        rw [ih e he]
      -- which of the repeated keys counts does not depend on their values
      have hmap := linkedMap_map canonicalText (fs.map fun e => (e.1, parse e.2))
      rw [List.map_map] at hmap
      simp only [parse, parseFields_eq, canonicalText_obj, canonWith, canonWithFields_eq, ← hmap,
        Function.comp_def, hfields]

/-- The column rewrites every numeral on its own, too. -/
theorem canonWith_jsonbNormal (g : Numeral → JsonText) (t : JsonText) :
    canonWith g (jsonbNormal t) = canonWith (fun n => g (storeNumeral n)) t := by
  induction t using JsonText.induction with
  | leaf t ht =>
      cases t with
      | arr xs => cases ht
      | obj fs => cases ht
      | _ => rfl
  | arr xs ih =>
      simp only [jsonbNormal, jsonbNormalElems_eq, canonWith, canonWithElems_eq, List.map_map]
      congr 1
      exact List.map_congr_left fun x hx => ih x hx
  | obj fs ih =>
      have hfields : fs.map (fun e => (e.1, canonWith g (jsonbNormal e.2))) =
          fs.map fun e => (e.1, canonWith (fun n => g (storeNumeral n)) e.2) := by
        apply List.map_congr_left
        intro e he
        rw [ih e he]
      have hmap := linkedMap_map (canonWith g) (fs.map fun e => (e.1, jsonbNormal e.2))
      rw [List.map_map] at hmap
      simp only [jsonbNormal, jsonbNormalFields_eq, canonWith, canonWithFields_eq, ← hmap,
        Function.comp_def, hfields, linkedMap_of_nodup (nodup_linkedMap _)]

/-! ## The order of members -/

mutual

/-- No object of the text has a key twice. -/
def UniqueMembers : JsonText → Prop
  | .arr xs => UniqueMembersElems xs
  | .obj fs => (fs.map Prod.fst).Nodup ∧ UniqueMembersFields fs
  | _ => True

/-- The same of array elements. -/
def UniqueMembersElems : List JsonText → Prop
  | [] => True
  | x :: xs => UniqueMembers x ∧ UniqueMembersElems xs

/-- The same of member values. -/
def UniqueMembersFields : List (String × JsonText) → Prop
  | [] => True
  | (_, v) :: fs => UniqueMembers v ∧ UniqueMembersFields fs

end

@[simp] theorem uniqueMembersElems_iff (xs : List JsonText) :
    UniqueMembersElems xs ↔ ∀ x ∈ xs, UniqueMembers x := by
  induction xs with
  | nil => simp [UniqueMembersElems]
  | cons x xs ih => simp [UniqueMembersElems, ih]

@[simp] theorem uniqueMembersFields_iff (fs : List (String × JsonText)) :
    UniqueMembersFields fs ↔ ∀ e ∈ fs, UniqueMembers e.2 := by
  induction fs with
  | nil => simp [UniqueMembersFields]
  | cons e fs ih => simp [UniqueMembersFields, ih]

/-- The column keeps no repeated key. -/
theorem uniqueMembers_jsonbNormal (t : JsonText) : UniqueMembers (jsonbNormal t) := by
  induction t using JsonText.induction with
  | leaf t ht =>
      cases t with
      | arr xs => cases ht
      | obj fs => cases ht
      | _ => trivial
  | arr xs ih =>
      simp only [jsonbNormal, jsonbNormalElems_eq, UniqueMembers, uniqueMembersElems_iff,
        List.mem_map]
      rintro x ⟨y, hy, rfl⟩
      exact ih y hy
  | obj fs ih =>
      simp only [jsonbNormal, jsonbNormalFields_eq, UniqueMembers, uniqueMembersFields_iff]
      refine ⟨nodup_linkedMap _, ?_⟩
      intro e he
      rcases List.mem_map.1 (mem_of_mem_linkedMap he) with ⟨y, hy, rfl⟩
      exact ih y hy

/-- The order of members does not matter for repeated keys. -/
theorem uniqueMembers_sortMembers (t : JsonText) :
    UniqueMembers (sortMembers t) ↔ UniqueMembers t := by
  induction t using JsonText.induction with
  | leaf t ht =>
      cases t with
      | arr xs => cases ht
      | obj fs => cases ht
      | _ => exact Iff.rfl
  | arr xs ih =>
      simp only [sortMembers, sortMembersElems_eq, UniqueMembers, uniqueMembersElems_iff,
        List.mem_map, forall_exists_index, and_imp, forall_apply_eq_imp_iff₂]
      exact forall₂_congr ih
  | obj fs ih =>
      have hperm := Utf16.sortByKey_perm (fs.map fun e => (e.1, sortMembers e.2))
      have hnodup := (hperm.map Prod.fst).nodup_iff
      rw [List.map_map] at hnodup
      simp only [sortMembers, sortMembersFields_eq, UniqueMembers, uniqueMembersFields_iff, hnodup,
        hperm.mem_iff, List.mem_map, forall_exists_index, and_imp, forall_apply_eq_imp_iff₂]
      exact and_congr Iff.rfl (forall₂_congr ih)

/-- Without repeated keys the canonical text does not depend on the order of
members. -/
theorem canonWith_sortMembers (g : Numeral → JsonText) {t : JsonText} (h : UniqueMembers t) :
    canonWith g (sortMembers t) = canonWith g t := by
  induction t using JsonText.induction with
  | leaf t ht =>
      cases t with
      | arr xs => cases ht
      | obj fs => cases ht
      | _ => rfl
  | arr xs ih =>
      simp only [UniqueMembers, uniqueMembersElems_iff] at h
      simp only [sortMembers, sortMembersElems_eq, canonWith, canonWithElems_eq, List.map_map]
      congr 1
      exact List.map_congr_left fun x hx => ih x hx (h x hx)
  | obj fs ih =>
      simp only [UniqueMembers, uniqueMembersFields_iff] at h
      rcases h with ⟨hnodup, hvalues⟩
      have hfields : fs.map (fun e => (e.1, canonWith g (sortMembers e.2))) =
          fs.map fun e => (e.1, canonWith g e.2) := by
        apply List.map_congr_left
        intro e he
        rw [ih e he (hvalues e he)]
      have hkeys : ((fs.map fun e => (e.1, canonWith g e.2)).map Prod.fst).Nodup := by
        rw [List.map_map]
        exact hnodup
      have hsort := Utf16.sortByKey_map (canonWith g) (fs.map fun e => (e.1, sortMembers e.2))
      rw [List.map_map] at hsort
      -- sorting keeps the keys distinct, so filling the map again changes nothing
      have hsorted : ((Utf16.sortByKey (fs.map fun e => (e.1, canonWith g e.2))).map
          Prod.fst).Nodup :=
        ((Utf16.sortByKey_perm _).map Prod.fst).nodup_iff.2 hkeys
      simp only [sortMembers, sortMembersFields_eq, canonWith, canonWithFields_eq, ← hsort,
        Function.comp_def, hfields, linkedMap_of_nodup hkeys, linkedMap_of_nodup hsorted,
        Utf16.sortByKey_sortByKey]

/-- The canonical text of whatever the column gives back. -/
theorem canonWith_of_jsonbReturns (g : Numeral → JsonText) {text stored : JsonText}
    (h : JsonbReturns text stored) :
    canonWith g stored = canonWith (fun n => g (storeNumeral n)) text := by
  have hnormal := uniqueMembers_jsonbNormal text
  -- what comes back differs from the normal form in the order of members only
  have hstored : UniqueMembers stored := by
    rw [← uniqueMembers_sortMembers, h, uniqueMembers_sortMembers]
    exact hnormal
  rw [← canonWith_sortMembers g hstored, h, canonWith_sortMembers g hnormal,
    canonWith_jsonbNormal]

/-! ## Numbers that survive -/

mutual

/-- The numerals of a text that no later member with the same key replaces. -/
def survivors : JsonText → List Numeral
  | .num n => [n]
  | .arr xs => survivorsElems xs
  | .obj fs => (linkedMap (survivorsFields fs)).flatMap Prod.snd
  | _ => []

/-- Those of array elements. -/
def survivorsElems : List JsonText → List Numeral
  | [] => []
  | x :: xs => survivors x ++ survivorsElems xs

/-- Those of each member. -/
def survivorsFields : List (String × JsonText) → List (String × List Numeral)
  | [] => []
  | (k, v) :: fs => (k, survivors v) :: survivorsFields fs

end

theorem mem_survivorsElems {n : Numeral} {xs : List JsonText} :
    n ∈ survivorsElems xs ↔ ∃ x ∈ xs, n ∈ survivors x := by
  induction xs with
  | nil => simp [survivorsElems]
  | cons x xs ih => simp [survivorsElems, ih]

@[simp] theorem survivorsFields_eq (fs : List (String × JsonText)) :
    survivorsFields fs = fs.map fun e => (e.1, survivors e.2) := by
  induction fs with
  | nil => simp [survivorsFields]
  | cons e fs ih => simp [survivorsFields, ih]

theorem mem_survivors_obj {n : Numeral} {fs : List (String × JsonText)} :
    n ∈ survivors (.obj fs) ↔ ∃ e ∈ linkedMap fs, n ∈ survivors e.2 := by
  simp only [survivors, survivorsFields_eq, linkedMap_map, List.mem_flatMap, List.mem_map,
    exists_exists_and_eq_and]

/-- Two ways of writing numerals give a text one canonical form exactly when they
agree on every numeral that survives. -/
theorem canonWith_eq_iff (g h : Numeral → JsonText) (t : JsonText) :
    canonWith g t = canonWith h t ↔ ∀ n ∈ survivors t, g n = h n := by
  induction t using JsonText.induction with
  | leaf t ht =>
      cases t with
      | num n => simp [canonWith, survivors]
      | arr xs => cases ht
      | obj fs => cases ht
      | _ => simp [canonWith, survivors]
  | arr xs ih =>
      simp only [canonWith, canonWithElems_eq, JsonText.arr.injEq, List.map_inj_left, survivors,
        mem_survivorsElems, forall_exists_index, and_imp]
      constructor
      · intro hall n x hx hn
        exact (ih x hx).1 (hall x hx) n hn
      · intro hall x hx
        exact (ih x hx).2 fun n hn => hall n x hx hn
  | obj fs ih =>
      simp only [canonWith, canonWithFields_eq, linkedMap_map, Utf16.sortByKey_map,
        JsonText.obj.injEq, List.map_inj_left, Prod.mk.injEq, true_and, mem_survivors_obj,
        forall_exists_index, and_imp, (Utf16.sortByKey_perm _).mem_iff]
      constructor
      · intro hall n e he hn
        exact (ih e (mem_of_mem_linkedMap he)).1 (hall e he) n hn
      · intro hall e he
        exact (ih e (mem_of_mem_linkedMap he)).2 fun n hn => hall n e he hn

/-- A numeral the column and the mapper agree on: an integer, or a number whose
decimals reach beyond its exponent and that is no negative zero. -/
def IsStable (n : Numeral) : Prop :=
  n.isInteger = true ∨ n.exp < n.scale ∧ ¬ (n.neg = true ∧ n.mantissa = 0)

theorem magnitude_storeNumeral (n : Numeral) : (storeNumeral n).magnitude = n.magnitude := by
  have hexp : (storeNumeral n).exp = 0 := rfl
  unfold Numeral.magnitude
  rw [hexp]
  simp only [storeNumeral]
  push_cast
  -- one of the two truncated differences is zero
  rw [mul_assoc, ← zpow_natCast, ← zpow_add₀ (by norm_num)]
  congr 2
  omega

theorem rewriteNumeral_of_isInteger {n : Numeral} (h : n.isInteger = true) :
    rewriteNumeral n = .num (Numeral.ofInt n.toInt) := by
  simp [rewriteNumeral, parseNumeral, h, toText]

theorem rewriteNumeral_of_not_isInteger {n : Numeral} (h : n.isInteger = false) :
    rewriteNumeral n = doubleText (Binary64.ofDecimal n.neg n.magnitude) := by
  simp [rewriteNumeral, parseNumeral, h, toText]

/-- An integer stays the same integer. -/
theorem storeNumeral_of_isInteger {n : Numeral} (h : n.isInteger = true) :
    (storeNumeral n).isInteger = true ∧ (storeNumeral n).toInt = n.toInt := by
  have hparts : n.scale = 0 ∧ n.exponent = none := by
    simpa [Numeral.isInteger] using h
  have hexp : n.exp = 0 := by simp [Numeral.exp, hparts.2]
  constructor
  · simp [storeNumeral, Numeral.isInteger, hparts.1, hexp]
  · simp only [Numeral.toInt, storeNumeral, hparts.1, hexp]
    by_cases hm : n.mantissa = 0 <;> cases n.neg <;> simp [hm]

/-- A number that has decimals left is not stored as an integer, any other is. -/
theorem isInteger_storeNumeral (n : Numeral) :
    (storeNumeral n).isInteger = decide (n.scale ≤ n.exp) := by
  by_cases hscale : (n.scale : ℤ) ≤ n.exp
  · have hzero : (storeNumeral n).scale = 0 := by
      simp only [storeNumeral]
      omega
    simp only [Numeral.isInteger, hzero, hscale]
    rfl
  · have hpos : (storeNumeral n).scale ≠ 0 := by
      simp only [storeNumeral]
      omega
    simp [Numeral.isInteger, hpos, hscale]

/-- The sign is kept, but for a zero. -/
theorem neg_storeNumeral {n : Numeral} (h : ¬ (n.neg = true ∧ n.mantissa = 0)) :
    (storeNumeral n).neg = n.neg := by
  simp only [storeNumeral]
  cases hneg : n.neg with
  | false => rfl
  | true =>
      have hne : n.mantissa ≠ 0 := fun hzero => h ⟨hneg, hzero⟩
      simp [hne]

/-- The mapper prints the sign of a zero. -/
theorem doubleText_zero_ne : doubleText (Binary64.ofDecimal true 0) ≠
    doubleText (Binary64.ofDecimal false 0) := by
  intro heq
  simp only [Binary64.ofDecimal, Binary64.round_of_nonpos le_rfl, doubleText,
    JsonText.num.injEq] at heq
  exact Bool.noConfusion (Binary64.toNumeral_inj heq).1

/-- The text of a double is never that of an integer. -/
theorem doubleText_ne_ofInt (d : Binary64) (z : ℤ) : doubleText d ≠ .num (Numeral.ofInt z) := by
  intro heq
  cases d with
  | finite neg m =>
      have hpos := Binary64.toNumeral_scale_pos neg m
      rw [JsonText.num.inj heq] at hpos
      exact absurd hpos (lt_irrefl 0)
  | infinite neg => cases neg <;> cases heq

/-- The column changes how the mapper writes a number exactly when the number is
not stable. -/
theorem rewriteNumeral_storeNumeral (n : Numeral) :
    rewriteNumeral n = rewriteNumeral (storeNumeral n) ↔ IsStable n := by
  by_cases hn : n.isInteger = true
  · obtain ⟨hstored, htoInt⟩ := storeNumeral_of_isInteger hn
    rw [rewriteNumeral_of_isInteger hn, rewriteNumeral_of_isInteger hstored, htoInt]
    exact ⟨fun _ => Or.inl hn, fun _ => rfl⟩
  · have hn' : n.isInteger = false := by simpa using hn
    have hstored := isInteger_storeNumeral n
    rw [rewriteNumeral_of_not_isInteger hn']
    unfold IsStable
    by_cases hfraction : n.exp < n.scale
    · -- decimals are left, so both sides are doubles of one magnitude
      rw [decide_eq_false (not_le.2 hfraction)] at hstored
      rw [rewriteNumeral_of_not_isInteger hstored, magnitude_storeNumeral]
      by_cases hzero : n.neg = true ∧ n.mantissa = 0
      · have hmagnitude : n.magnitude = 0 := by simp [Numeral.magnitude, hzero.2]
        have hneg : (storeNumeral n).neg = false := by simp [storeNumeral, hzero.2]
        rw [hneg, hzero.1, hmagnitude]
        refine iff_of_false doubleText_zero_ne ?_
        rintro (h | ⟨-, h⟩)
        · exact absurd h hn
        · exact absurd ⟨rfl, hzero.2⟩ h
      · rw [neg_storeNumeral hzero]
        exact iff_of_true rfl (Or.inr ⟨hfraction, hzero⟩)
    · -- no decimals are left, so the column gives back an integer
      rw [decide_eq_true (not_lt.1 hfraction)] at hstored
      rw [rewriteNumeral_of_isInteger hstored]
      refine iff_of_false (doubleText_ne_ofInt _ _) ?_
      rintro (h | ⟨h, -⟩)
      · exact absurd h hn
      · exact absurd h hfraction

/-! ## Explanations that survive -/

/-- An explanation is hashed alike before and after the column, and so a row with
it verifies when it is read back. -/
structure Survives (text stored : JsonText) : Prop where
  canonical : canonicalString (parse stored) = canonicalString (parse text)
  verified : ∀ (env : Env) (row : ClaimAuditEvent), row.explanationJson = some text →
    rowHash env row = row.hash → rowHash env { row with explanationJson := some stored } = row.hash

/-- A row whose explanation has the same canonical string has the same hash. -/
theorem rowHash_explanationJson {env : Env} {row : ClaimAuditEvent} {text stored : JsonText}
    (hrow : row.explanationJson = some text)
    (h : canonicalString (parse stored) = canonicalString (parse text)) :
    rowHash env { row with explanationJson := some stored } = rowHash env row := by
  have hcanonical := canonicalString_inj.1 h
  have hfields : canonicalize (fieldsFor { row with explanationJson := some stored }) =
      canonicalize (fieldsFor row) := by
    apply canonicalize_congr
    simp only [fieldsFor, List.map_cons, List.map_nil, hrow, Option.map_some, Option.getD_some,
      hcanonical]
  simp only [rowHash, hashedText, hfields]

/-- Whatever the column gives back for a text, it has the same canonical string
exactly when each number that no repeated key replaces is stable. -/
theorem canonicalString_of_jsonbReturns {text stored : JsonText} (h : JsonbReturns text stored) :
    canonicalString (parse stored) = canonicalString (parse text) ↔
      ∀ n ∈ survivors text, IsStable n := by
  rw [eq_comm, canonicalString_inj, canonicalText_parse, canonicalText_parse,
    canonWith_of_jsonbReturns rewriteNumeral h, canonWith_eq_iff]
  exact forall₂_congr fun n _ => rewriteNumeral_storeNumeral n

/-- Whatever the column gives back for an explanation, the explanation survives
exactly when each of its numbers that no repeated key replaces is stable. -/
theorem survives_iff (text stored : JsonText) (h : JsonbReturns text stored) :
    Survives text stored ↔ ∀ n ∈ survivors text, IsStable n := by
  rw [← canonicalString_of_jsonbReturns h]
  constructor
  · exact fun hsurvives => hsurvives.canonical
  · intro heq
    refine ⟨heq, ?_⟩
    intro env row hrow hhash
    rw [rowHash_explanationJson hrow heq, hhash]

namespace Sample

/-- Small features, one of them written twice and one with an exponent. -/
def smallFeatures : JsonText :=
  .obj [("feature_value", .num ⟨false, 1250, 3, some 2⟩), ("score", .num ⟨false, 10, 1, some 7⟩),
    ("score", .num ⟨false, 5, 1, none⟩)]

/-- What the column gives back for them. -/
def smallFeaturesStored : JsonText :=
  .obj [("score", .num ⟨false, 5, 1, none⟩), ("feature_value", .num ⟨false, 1250, 1, none⟩)]

/-- The amount of ten million, as the message tree prints it. -/
def largeFeature : JsonText := .obj [("claim_amount", .num ⟨false, 10, 1, some 7⟩)]

/-- What the column gives back for it. -/
def largeFeatureStored : JsonText := .obj [("claim_amount", .num ⟨false, 10000000, 0, none⟩)]

/-- The outside pieces of the scored row: the digests are those of its two texts. -/
def featureEnv : Env :=
  { env with
    digest := fun text =>
      if text = hashedText (scoredDraft largeFeature) then
        0x70b199c14dfd8aa586dac52b46c878c301d59ac444dcf7bba71f456593a765ed
      else 0x7b1df520a1581d015c3dc088638c9f64d6ac3aaaf084f31390e55f79fd3437c8 }

/-- A scored first event with the large amount as its explanation. -/
def featureEvent : ClaimAuditEvent := sealEvent featureEnv (scoredDraft largeFeature)

/-- The row as it is read back. -/
def featureEventStored : ClaimAuditEvent :=
  { featureEvent with explanationJson := some largeFeatureStored }

end Sample

/-- Small features survive, although the column writes them anew: the large number is replaced
in the text already. -/
theorem survives_smallFeatures : Survives Sample.smallFeatures Sample.smallFeaturesStored := by
  apply (survives_iff Sample.smallFeatures Sample.smallFeaturesStored (by rfl)).2
  have hsurvivors : survivors Sample.smallFeatures =
      [⟨false, 1250, 3, some 2⟩, ⟨false, 5, 1, none⟩] := by decide +kernel
  intro n hn
  rw [hsurvivors] at hn
  rcases List.mem_pair.1 hn with rfl | rfl
  · exact Or.inr (by decide)
  · exact Or.inr (by decide)

theorem Sample.canonicalString_largeFeature :
    canonicalString (parse Sample.largeFeature) = "\x7b\"claim_amount\":1.0E7\x7d" := by
  decide +kernel

theorem Sample.canonicalString_largeFeatureStored :
    canonicalString (parse Sample.largeFeatureStored) = "\x7b\"claim_amount\":10000000\x7d" := by
  decide +kernel

theorem Sample.hashedText_featureEventStored_ne :
    hashedText Sample.featureEventStored ≠ hashedText (Sample.scoredDraft Sample.largeFeature) := by
  intro h
  have hlen : Sample.featureEventStored.prevHash.toList.length =
      (Sample.scoredDraft Sample.largeFeature).prevHash.toList.length := by
    simp only [Sample.featureEventStored, Sample.featureEvent, sealEvent]
  have hsame := canonicalString_inj.2 (sameFields_of_hashedText hlen h).explanation
  simp only [Sample.featureEventStored, explanationTree, Option.map_some, Option.getD_some,
    Sample.scoredDraft, draftEvent] at hsame
  rw [Sample.canonicalString_largeFeature, Sample.canonicalString_largeFeatureStored] at hsame
  exact absurd hsame (by decide)

/-- The mapper prints the amount with an exponent, the column without: the row
verifies as it was appended and no longer verifies as it is read back. -/
theorem largeFeature_lost :
    String.ofList Sample.largeFeature.render = "\x7b\"claim_amount\":1.0E7\x7d" ∧
      JsonbReturns Sample.largeFeature Sample.largeFeatureStored ∧
      canonicalString (parse Sample.largeFeature) = "\x7b\"claim_amount\":1.0E7\x7d" ∧
      canonicalString (parse Sample.largeFeatureStored) = "\x7b\"claim_amount\":10000000\x7d" ∧
      verifyRows Sample.featureEnv [Sample.featureEvent] = true ∧
      verifyRows Sample.featureEnv [Sample.featureEventStored] = false := by
  refine ⟨by decide +kernel, by rfl, Sample.canonicalString_largeFeature,
    Sample.canonicalString_largeFeatureStored, ?_, ?_⟩
  · apply verifyRows_sealEvent
    simp only [Sample.scoredDraft, draftEvent]
  · rw [← Bool.not_eq_true]
    intro hverify
    have hhash := (chain Sample.featureEnv).recompute_eq_of_mem hverify (List.mem_singleton.2 rfl)
    have hsealed : Sample.featureEventStored.hash =
        rowHash Sample.featureEnv (Sample.scoredDraft Sample.largeFeature) := by
      simp only [Sample.featureEventStored, Sample.featureEvent, sealEvent]
    rw [chain_recompute, chain_hash, hsealed] at hhash
    have hdigest := digest_eq_of_sha256_eq hhash
    simp only [Sample.featureEnv, Sample.hashedText_featureEventStored_ne, if_true, if_false]
      at hdigest
    exact absurd hdigest (by decide)

end ClaimGuard
