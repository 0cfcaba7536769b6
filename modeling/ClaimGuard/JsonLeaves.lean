import Mathlib.Tactic.NormNum
import ClaimGuard.CanonicalJson

/-!
# Leaves of object trees

Induction over object trees, the leaves of a tree, changing the leaves of a tree,
and a text for every tree that `parse` can give. With them: canonical texts
determine a tree unless a double overflowed or a string looks like one that did.
-/

namespace ClaimGuard

open CanonicalJson

namespace Json

/-- Neither an array nor an object. -/
def isLeaf : Json → Bool
  | .arr _ => false
  | .obj _ => false
  | _ => true

/-- Induction over a tree: leaves, arrays of their elements, objects of their
values. -/
theorem induction {P : Json → Prop} (leaf : ∀ v : Json, v.isLeaf = true → P v)
    (arr : ∀ xs : List Json, (∀ x ∈ xs, P x) → P (.arr xs))
    (obj : ∀ fs : List (String × Json), (∀ e ∈ fs, P e.2) → P (.obj fs)) (v : Json) : P v := by
  -- the lists inside a tree need motives of their own
  apply Json.rec (motive_1 := P) (motive_2 := fun xs => ∀ x ∈ xs, P x)
    (motive_3 := fun fs => ∀ e ∈ fs, P e.2) (motive_4 := fun e => P e.2)
  case null => exact leaf _ rfl
  case bool => exact fun _ => leaf _ rfl
  case int => exact fun _ => leaf _ rfl
  case double => exact fun _ => leaf _ rfl
  case str => exact fun _ => leaf _ rfl
  case arr => exact arr
  case obj => exact obj
  case nil => simp
  case cons =>
    intro x xs hx hxs y hy
    rcases List.mem_cons.1 hy with rfl | hy
    · exact hx
    · exact hxs y hy
  case nil => simp
  case cons =>
    intro e fs he hfs f hf
    rcases List.mem_cons.1 hf with rfl | hf
    · exact he
    · exact hfs f hf
  case mk => exact fun _ _ hv => hv

/-! ## Leaves -/

mutual

/-- The leaves of a tree, from left to right. -/
def leaves : Json → List Json
  | .arr xs => leavesElems xs
  | .obj fs => leavesFields fs
  | .null => [.null]
  | .bool b => [.bool b]
  | .int z => [.int z]
  | .double d => [.double d]
  | .str s => [.str s]

/-- The leaves of array elements. -/
def leavesElems : List Json → List Json
  | [] => []
  | x :: xs => leaves x ++ leavesElems xs

/-- The leaves of member values. -/
def leavesFields : List (String × Json) → List Json
  | [] => []
  | (_, v) :: fs => leaves v ++ leavesFields fs

end

mutual

/-- Change every leaf of a tree. -/
def mapLeaves (f : Json → Json) : Json → Json
  | .arr xs => .arr (mapLeavesElems f xs)
  | .obj fs => .obj (mapLeavesFields f fs)
  | .null => f .null
  | .bool b => f (.bool b)
  | .int z => f (.int z)
  | .double d => f (.double d)
  | .str s => f (.str s)

/-- Change the leaves of array elements. -/
def mapLeavesElems (f : Json → Json) : List Json → List Json
  | [] => []
  | x :: xs => mapLeaves f x :: mapLeavesElems f xs

/-- Change the leaves of member values. -/
def mapLeavesFields (f : Json → Json) : List (String × Json) → List (String × Json)
  | [] => []
  | (k, v) :: fs => (k, mapLeaves f v) :: mapLeavesFields f fs

end

theorem mem_leavesElems {x : Json} {xs : List Json} :
    x ∈ leavesElems xs ↔ ∃ y ∈ xs, x ∈ leaves y := by
  induction xs with
  | nil => simp [leavesElems]
  | cons y ys ih => simp [leavesElems, ih]

theorem mem_leavesFields {x : Json} {fs : List (String × Json)} :
    x ∈ leavesFields fs ↔ ∃ e ∈ fs, x ∈ leaves e.2 := by
  induction fs with
  | nil => simp [leavesFields]
  | cons e fs ih => simp [leavesFields, ih]

@[simp] theorem mapLeavesElems_eq (f : Json → Json) (xs : List Json) :
    mapLeavesElems f xs = xs.map (mapLeaves f) := by
  induction xs with
  | nil => simp [mapLeavesElems]
  | cons x xs ih => simp [mapLeavesElems, ih]

@[simp] theorem mapLeavesFields_eq (f : Json → Json) (fs : List (String × Json)) :
    mapLeavesFields f fs = fs.map fun e => (e.1, mapLeaves f e.2) := by
  induction fs with
  | nil => simp [mapLeavesFields]
  | cons e fs ih => simp [mapLeavesFields, ih]

theorem leaves_of_isLeaf {v : Json} (h : v.isLeaf = true) : leaves v = [v] := by
  cases v <;> first | rfl | cases h

theorem mapLeaves_of_isLeaf {v : Json} (f : Json → Json) (h : v.isLeaf = true) :
    mapLeaves f v = f v := by
  cases v <;> first | rfl | cases h

theorem sortKeys_of_isLeaf {v : Json} (h : v.isLeaf = true) : sortKeys v = v := by
  cases v <;> first | rfl | cases h

/-- Sorting keys keeps the leaves. -/
theorem mem_leaves_sortKeys {x : Json} (v : Json) : x ∈ leaves (sortKeys v) ↔ x ∈ leaves v := by
  induction v using Json.induction with
  | leaf v hv => rw [sortKeys_of_isLeaf hv]
  | arr xs ih =>
      simp only [sortKeys, sortKeysElems_eq, leaves, mem_leavesElems, List.mem_map,
        exists_exists_and_eq_and]
      exact exists_congr fun y => and_congr_right fun hy => ih y hy
  | obj fs ih =>
      have hmem : ∀ e, e ∈ Utf16.sortByKey (fs.map fun e => (e.1, sortKeys e.2)) ↔
          e ∈ fs.map fun e => (e.1, sortKeys e.2) :=
        fun e => (Utf16.sortByKey_perm _).mem_iff
      simp only [sortKeys, sortKeysFields_eq, leaves, mem_leavesFields, hmem, List.mem_map,
        exists_exists_and_eq_and]
      exact exists_congr fun e => and_congr_right fun he => ih e he

/-- Equal trees have equal leaves. -/
theorem mem_leaves_of_sameTree {v w x : Json} (h : SameTree v w) : x ∈ leaves v ↔ x ∈ leaves w := by
  rw [← mem_leaves_sortKeys v, ← mem_leaves_sortKeys w, h]

/-- Changed leaves are images of leaves. -/
theorem mem_leaves_mapLeaves {f : Json → Json} (hf : ∀ x, x.isLeaf = true → (f x).isLeaf = true)
    {x : Json} (v : Json) : x ∈ leaves (mapLeaves f v) → ∃ y, x = f y := by
  induction v using Json.induction with
  | leaf v hv =>
      intro hx
      rw [mapLeaves_of_isLeaf f hv, leaves_of_isLeaf (hf v hv)] at hx
      exact ⟨v, List.mem_singleton.1 hx⟩
  | arr xs ih =>
      simp only [mapLeaves, mapLeavesElems_eq, leaves, mem_leavesElems, List.mem_map,
        exists_exists_and_eq_and]
      rintro ⟨y, hy, hx⟩
      exact ih y hy hx
  | obj fs ih =>
      simp only [mapLeaves, mapLeavesFields_eq, leaves, mem_leavesFields, List.mem_map,
        exists_exists_and_eq_and]
      rintro ⟨e, he, hx⟩
      exact ih e he hx

/-- Changing leaves and sorting keys commute. -/
theorem sortKeys_mapLeaves {f : Json → Json} (hf : ∀ x, x.isLeaf = true → (f x).isLeaf = true)
    (v : Json) : sortKeys (mapLeaves f v) = mapLeaves f (sortKeys v) := by
  induction v using Json.induction with
  | leaf v hv =>
      rw [mapLeaves_of_isLeaf f hv, sortKeys_of_isLeaf (hf v hv), sortKeys_of_isLeaf hv,
        mapLeaves_of_isLeaf f hv]
  | arr xs ih =>
      simp only [mapLeaves, mapLeavesElems_eq, sortKeys, sortKeysElems_eq, List.map_map,
        Json.arr.injEq]
      exact List.map_congr_left fun y hy => ih y hy
  | obj fs ih =>
      have hfields : (fs.map fun e => (e.1, mapLeaves f e.2)).map (fun e => (e.1, sortKeys e.2)) =
          (fs.map fun e => (e.1, sortKeys e.2)).map fun e => (e.1, mapLeaves f e.2) := by
        rw [List.map_map, List.map_map]
        apply List.map_congr_left
        intro e he
        simp only [Function.comp_apply, ih e he]
      simp only [mapLeaves, mapLeavesFields_eq, sortKeys, sortKeysFields_eq, hfields,
        Utf16.sortByKey_map]

/-- Leaves that are written alike may be exchanged without a trace. -/
theorem canonicalText_mapLeaves {f : Json → Json}
    (hf : ∀ x, x.isLeaf = true → (f x).isLeaf = true)
    (htext : ∀ x, x.isLeaf = true → toText (f x) = toText x) (v : Json) :
    canonicalText (mapLeaves f v) = canonicalText v := by
  have key : ∀ w, toText (mapLeaves f w) = toText w := by
    intro w
    induction w using Json.induction with
    | leaf w hw => rw [mapLeaves_of_isLeaf f hw, htext w hw]
    | arr xs ih =>
        simp only [mapLeaves, mapLeavesElems_eq, toText, toTextElems_eq, List.map_map,
          JsonText.arr.injEq]
        exact List.map_congr_left fun y hy => ih y hy
    | obj fs ih =>
        simp only [mapLeaves, mapLeavesFields_eq, toText, toTextFields_eq, List.map_map,
          JsonText.obj.injEq]
        apply List.map_congr_left
        intro e he
        simp only [Function.comp_apply, ih e he]
  unfold canonicalText
  rw [sortKeys_mapLeaves hf, key]

/-! ## Overflowed doubles -/

/-- A leaf whose text does not tell what it is: an overflowed double, or a string
that is written like one. -/
def isAmbiguous : Json → Bool
  | .double (.infinite _) => true
  | .str s => s == "Infinity" || s == "-Infinity"
  | _ => false

/-- No leaf is ambiguous. -/
def Clear (v : Json) : Prop := ∀ x ∈ leaves v, x.isAmbiguous = false

/-- A tree and its text have the same shape at the top. -/
theorem isLeaf_toText (v : Json) : (toText v).isLeaf = v.isLeaf := by
  cases v with
  | double d =>
      cases d with
      | finite neg m => rfl
      | infinite neg => cases neg <;> rfl
  | _ => rfl

/-- A double has a digit after the point, an integer has none. -/
theorem ofInt_ne_toNumeral (z : ℤ) (neg : Bool) (m : Binary64.Magnitude) :
    Numeral.ofInt z ≠ Binary64.toNumeral neg m := by
  intro heq
  have hscale := Binary64.toNumeral_scale_pos neg m
  rw [← heq] at hscale
  exact absurd hscale (lt_irrefl 0)

/-- A leaf that is not ambiguous is written as a double only if it is that double. -/
theorem eq_double_of_toText {v : Json} {d : Binary64} (hclear : v.isAmbiguous = false)
    (h : toText v = toText (.double d)) : v = .double d := by
  cases d with
  | finite neg m =>
      cases v with
      | int z => exact absurd (JsonText.num.inj h) (ofInt_ne_toNumeral z neg m)
      | double d' =>
          cases d' with
          | finite neg' m' =>
              rcases Binary64.toNumeral_inj (JsonText.num.inj h) with ⟨rfl, rfl⟩
              rfl
          | infinite neg' => cases hclear
      | _ => cases h
  | infinite neg =>
      cases v with
      | str s =>
          -- the string is the text of an overflowed double
          cases neg
          · obtain rfl : s = "Infinity" := JsonText.str.inj h
            exact absurd hclear (by decide)
          · obtain rfl : s = "-Infinity" := JsonText.str.inj h
            exact absurd hclear (by decide)
      | double d' =>
          cases d' with
          | finite neg' m' => cases neg <;> cases h
          | infinite neg' => cases hclear
      | _ => cases neg <;> cases h

theorem toText_leaf_inj {v w : Json} (hv : v.isLeaf = true) (hclear : v.isAmbiguous = false)
    (h : toText v = toText w) : v = w := by
  cases v with
  | arr xs => cases hv
  | obj fs => cases hv
  | null =>
      cases w with
      | null => rfl
      | double d => exact eq_double_of_toText hclear h
      | _ => cases h
  | bool b =>
      cases w with
      | bool c =>
          cases h
          rfl
      | double d => exact eq_double_of_toText hclear h
      | _ => cases h
  | int z =>
      cases w with
      | int y =>
          have hzy : Numeral.ofInt z = Numeral.ofInt y := JsonText.num.inj h
          rw [← Numeral.toInt_ofInt z, hzy, Numeral.toInt_ofInt]
      | double d => exact eq_double_of_toText hclear h
      | _ => cases h
  | double d =>
      cases d with
      | infinite neg => cases hclear
      | finite neg m =>
          cases w with
          | int y => exact absurd (JsonText.num.inj h).symm (ofInt_ne_toNumeral y neg m)
          | double d' => exact eq_double_of_toText hclear h
          | _ => cases h
  | str s =>
      cases w with
      | str t =>
          cases h
          rfl
      | double d => exact eq_double_of_toText hclear h
      | _ => cases h

/-- The text of a clear tree determines the tree. -/
theorem toText_inj {v : Json} (hclear : Clear v) : ∀ {w : Json}, toText v = toText w → v = w := by
  induction v using Json.induction with
  | leaf v hv =>
      intro w h
      have hmem : v ∈ leaves v := by
        rw [leaves_of_isLeaf hv]
        exact List.mem_singleton.2 rfl
      exact toText_leaf_inj hv (hclear v hmem) h
  -- only an array is written as an array
  | arr xs ih =>
      intro w h
      have hw : w.isLeaf = false := by
        rw [← isLeaf_toText, ← h]
        rfl
      cases w with
      | arr ys =>
          simp only [toText, toTextElems_eq, JsonText.arr.injEq] at h
          congr 1
          apply List.ext_getElem
          · simpa using congrArg List.length h
          · intro i hi hj
            have hx : xs[i] ∈ xs := List.getElem_mem hi
            refine ih _ hx ?_ ?_
            · intro y hy
              exact hclear y (mem_leavesElems.2 ⟨_, hx, hy⟩)
            · have := congrArg (fun l => l[i]?) h
              simpa [List.getElem?_eq_getElem hi, List.getElem?_eq_getElem hj] using this
      | obj gs => cases h
      | _ => cases hw
  -- members are compared in the order they are written
  | obj fs ih =>
      intro w h
      have hw : w.isLeaf = false := by
        rw [← isLeaf_toText, ← h]
        rfl
      cases w with
      | obj gs =>
          simp only [toText, toTextFields_eq, JsonText.obj.injEq] at h
          congr 1
          apply List.ext_getElem
          · simpa using congrArg List.length h
          · intro i hi hj
            have he : fs[i] ∈ fs := List.getElem_mem hi
            have hi' := congrArg (fun l => l[i]?) h
            simp only [List.getElem?_map, List.getElem?_eq_getElem hi, List.getElem?_eq_getElem hj,
              Option.map_some, Option.some.injEq, Prod.mk.injEq] at hi'
            refine Prod.ext hi'.1 (ih _ he ?_ hi'.2)
            intro y hy
            exact hclear y (mem_leavesFields.2 ⟨_, he, hy⟩)
      | arr ys => cases h
      | _ => cases hw

/-- The canonical text of a clear tree determines the tree. -/
theorem sameTree_of_canonicalText {v w : Json} (hclear : Clear v)
    (h : canonicalText v = canonicalText w) : SameTree v w :=
  toText_inj (fun x hx => hclear x ((mem_leaves_sortKeys v).1 hx)) h

/-- What an overflowed double is written as, as a string. -/
def blur : Json → Json
  | .double (.infinite true) => .str "-Infinity"
  | .double (.infinite false) => .str "Infinity"
  | v => v

/-- What a string that looks like an overflowed double is taken for. -/
def sharpen : Json → Json
  | .str s =>
      if s = "Infinity" then .double (.infinite false)
      else if s = "-Infinity" then .double (.infinite true)
      else .str s
  | v => v

theorem isLeaf_blur {v : Json} (h : v.isLeaf = true) : (blur v).isLeaf = true := by
  unfold blur
  split <;> first | rfl | exact h

theorem isLeaf_sharpen {v : Json} (h : v.isLeaf = true) : (sharpen v).isLeaf = true := by
  cases v with
  | str s =>
      unfold sharpen
      simp only
      split_ifs <;> rfl
  | _ => exact h

theorem toText_blur (v : Json) : toText (blur v) = toText v := by
  unfold blur
  split <;> rfl

theorem toText_sharpen (v : Json) : toText (sharpen v) = toText v := by
  cases v with
  | str s =>
      unfold sharpen
      simp only
      split_ifs with h₁ h₂
      · rw [h₁]
        rfl
      · rw [h₂]
        rfl
      · rfl
  | _ => rfl

/-- A tree that is not clear shares its canonical text with another one, made by
exchanging overflowed doubles and the strings they are written as. -/
theorem exists_mapLeaves_not_sameTree {v : Json} (h : ¬ Clear v) :
    ¬ SameTree v (mapLeaves blur v) ∨ ¬ SameTree v (mapLeaves sharpen v) := by
  unfold Clear at h
  push Not at h
  rcases h with ⟨x, hx, hambiguous⟩
  have hx' : x.isAmbiguous = true := by simpa using hambiguous
  cases x with
  | double d =>
      left
      intro hsame
      cases d with
      | finite neg m => cases hx'
      | infinite neg =>
          obtain ⟨y, hy⟩ := mem_leaves_mapLeaves (fun _ => isLeaf_blur) v
            ((mem_leaves_of_sameTree hsame).1 hx)
          -- blurring leaves no overflowed double
          unfold blur at hy
          split at hy
          · cases hy
          · cases hy
          · subst hy
            cases neg <;> simp_all
  | str s =>
      -- sharpening leaves no string that looks like an overflowed double
      right
      intro hsame
      obtain ⟨y, hy⟩ := mem_leaves_mapLeaves (fun _ => isLeaf_sharpen) v
        ((mem_leaves_of_sameTree hsame).1 hx)
      simp only [isAmbiguous, Bool.or_eq_true, beq_iff_eq] at hx'
      cases y with
      | str t =>
          unfold sharpen at hy
          simp only at hy
          split_ifs at hy with h₁ h₂
          rcases Json.str.inj hy with rfl
          rcases hx' with hx' | hx'
          · exact h₁ hx'
          · exact h₂ hx'
      | _ => cases hy
  | _ => cases hx'

/-! ## A text for every parsed tree -/

mutual

/-- No object of the tree has a key twice. -/
def UniqueKeys : Json → Prop
  | .arr xs => UniqueKeysElems xs
  | .obj fs => (fs.map Prod.fst).Nodup ∧ UniqueKeysFields fs
  | _ => True

/-- The same of array elements. -/
def UniqueKeysElems : List Json → Prop
  | [] => True
  | x :: xs => UniqueKeys x ∧ UniqueKeysElems xs

/-- The same of member values. -/
def UniqueKeysFields : List (String × Json) → Prop
  | [] => True
  | (_, v) :: fs => UniqueKeys v ∧ UniqueKeysFields fs

end

@[simp] theorem uniqueKeysElems_iff (xs : List Json) :
    UniqueKeysElems xs ↔ ∀ x ∈ xs, UniqueKeys x := by
  induction xs with
  | nil => simp [UniqueKeysElems]
  | cons x xs ih => simp [UniqueKeysElems, ih]

@[simp] theorem uniqueKeysFields_iff (fs : List (String × Json)) :
    UniqueKeysFields fs ↔ ∀ e ∈ fs, UniqueKeys e.2 := by
  induction fs with
  | nil => simp [UniqueKeysFields]
  | cons e fs ih => simp [UniqueKeysFields, ih]

theorem uniqueKeys_of_isLeaf {v : Json} (h : v.isLeaf = true) : UniqueKeys v := by
  cases v with
  | arr xs => cases h
  | obj fs => cases h
  | _ => trivial

/-- Parsed trees have unique keys. -/
theorem uniqueKeys_parse (t : JsonText) : UniqueKeys (parse t) := by
  induction t using JsonText.induction with
  | leaf t ht =>
      cases t with
      | num n =>
          simp only [parse, parseNumeral]
          split <;> trivial
      | arr xs => cases ht
      | obj fs => cases ht
      | _ => trivial
  | arr xs ih =>
      simp only [parse, parseElems_eq, UniqueKeys, uniqueKeysElems_iff, List.mem_map]
      rintro x ⟨y, hy, rfl⟩
      exact ih y hy
  | obj fs ih =>
      simp only [parse, parseFields_eq, UniqueKeys, uniqueKeysFields_iff]
      refine ⟨nodup_linkedMap _, ?_⟩
      intro e he
      rcases List.mem_map.1 (mem_of_mem_linkedMap he) with ⟨y, hy, rfl⟩
      exact ih y hy

theorem uniqueKeys_mapLeaves {f : Json → Json} (hf : ∀ x, x.isLeaf = true → (f x).isLeaf = true)
    {v : Json} (h : UniqueKeys v) : UniqueKeys (mapLeaves f v) := by
  induction v using Json.induction with
  | leaf v hv =>
      rw [mapLeaves_of_isLeaf f hv]
      exact uniqueKeys_of_isLeaf (hf v hv)
  | arr xs ih =>
      simp only [UniqueKeys, uniqueKeysElems_iff] at h
      simp only [mapLeaves, mapLeavesElems_eq, UniqueKeys, uniqueKeysElems_iff, List.mem_map]
      rintro x ⟨y, hy, rfl⟩
      exact ih y hy (h y hy)
  | obj fs ih =>
      simp only [UniqueKeys, uniqueKeysFields_iff] at h
      simp only [mapLeaves, mapLeavesFields_eq, UniqueKeys, uniqueKeysFields_iff, List.map_map]
      refine ⟨h.1, ?_⟩
      intro e he
      rcases List.mem_map.1 he with ⟨y, hy, rfl⟩
      exact ih y hy (h.2 y hy)

/-- A numeral that overflows: `10^400` written with one decimal. -/
def overflowing (neg : Bool) : Numeral := ⟨neg, 10 ^ 401, 1, none⟩

theorem round_overflowing (neg : Bool) : Binary64.round (overflowing neg).magnitude = none := by
  apply Binary64.round_eq_none
  have hmagnitude : (overflowing neg).magnitude = (10 : ℚ) ^ 400 := by
    have hmantissa : ((overflowing neg).mantissa : ℚ) = 10 ^ 400 * 10 := by
      rw [← pow_succ]
      exact Nat.cast_pow 10 401
    have hexp : (overflowing neg).exp - (overflowing neg).scale = -1 := rfl
    unfold Numeral.magnitude
    rw [hmantissa, hexp, mul_assoc]
    norm_num
  -- the largest double is below `2 ^ 1024`
  have hbig : (2 : ℚ) ^ 1024 ≤ 10 ^ 400 :=
    calc
      (2 : ℚ) ^ 1024 ≤ 2 ^ (3 * 400) := pow_le_pow_right₀ (by norm_num) (by norm_num)
      _ = (2 ^ 3) ^ 400 := pow_mul 2 3 400
      _ ≤ 10 ^ 400 := pow_le_pow_left₀ (by norm_num) (by norm_num) 400
  rw [hmagnitude]
  exact_mod_cast hbig

/-- A numeral that a double is read from. -/
def spellDouble : Binary64 → Numeral
  | .finite neg m => Binary64.toNumeral neg m
  | .infinite neg => overflowing neg

mutual

/-- A text that is parsed to a given tree. -/
def spell : Json → JsonText
  | .null => .null
  | .bool b => .bool b
  | .int z => .num (Numeral.ofInt z)
  | .double d => .num (spellDouble d)
  | .str s => .str s
  | .arr xs => .arr (spellElems xs)
  | .obj fs => .obj (spellFields fs)

/-- Texts of array elements. -/
def spellElems : List Json → List JsonText
  | [] => []
  | x :: xs => spell x :: spellElems xs

/-- Texts of members. -/
def spellFields : List (String × Json) → List (String × JsonText)
  | [] => []
  | (k, v) :: fs => (k, spell v) :: spellFields fs

end

@[simp] theorem spellElems_eq (xs : List Json) : spellElems xs = xs.map spell := by
  induction xs with
  | nil => simp [spellElems]
  | cons x xs ih => simp [spellElems, ih]

@[simp] theorem spellFields_eq (fs : List (String × Json)) :
    spellFields fs = fs.map fun e => (e.1, spell e.2) := by
  induction fs with
  | nil => simp [spellFields]
  | cons e fs ih => simp [spellFields, ih]

theorem parseNumeral_spellDouble (d : Binary64) : parseNumeral (spellDouble d) = .double d := by
  cases d with
  | finite neg m =>
      -- a printed double has a point, so it is read as a double again
      have hint : (Binary64.toNumeral neg m).isInteger = false := by
        have hscale := Binary64.toNumeral_scale_pos neg m
        simp [Numeral.isInteger, hscale.ne']
      simp [parseNumeral, spellDouble, hint, Binary64.ofDecimal, Binary64.round_magnitude_toNumeral]
  | infinite neg =>
      have hint : (overflowing neg).isInteger = false := rfl
      have hneg : (overflowing neg).neg = neg := rfl
      simp only [spellDouble, parseNumeral, Binary64.ofDecimal, hint, round_overflowing, hneg]
      rfl

/-- Every tree with unique keys is parsed from its text. -/
theorem parse_spell {v : Json} (h : UniqueKeys v) : parse (spell v) = v := by
  induction v using Json.induction with
  | leaf v hv =>
      cases v with
      | int z => simp [spell, parse, parseNumeral]
      | double d => simp only [spell, parse, parseNumeral_spellDouble]
      | arr xs => cases hv
      | obj fs => cases hv
      | _ => rfl
  | arr xs ih =>
      simp only [UniqueKeys, uniqueKeysElems_iff] at h
      simp only [spell, spellElems_eq, parse, parseElems_eq, List.map_map]
      congr 1
      conv_rhs => rw [← List.map_id xs]
      exact List.map_congr_left fun x hx => ih x hx (h x hx)
  | obj fs ih =>
      simp only [UniqueKeys, uniqueKeysFields_iff] at h
      have hfields : (fs.map fun e => (e.1, spell e.2)).map (fun e => (e.1, parse e.2)) = fs := by
        rw [List.map_map]
        conv_rhs => rw [← List.map_id fs]
        apply List.map_congr_left
        intro e he
        simp [ih e he (h.2 e he)]
      simp only [spell, spellFields_eq, parse, parseFields_eq, hfields, linkedMap_of_nodup h.1]

end Json

end ClaimGuard
