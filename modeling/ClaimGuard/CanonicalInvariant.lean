import ClaimGuard.Lib.Dict
import ClaimGuard.TamperEvidence

/-!
# What canonical JSON tells apart

Equality of trees as maps, said without sorting: objects by their keys and the values
under each key, arrays place by place. Two trees have one canonical text exactly when
they agree so, up to leaves that are written alike.
-/

namespace ClaimGuard

open AuditService CanonicalJson

namespace Json

/-! ## Trees as maps -/

/-- Two trees agree as maps, with leaves related by `R`: arrays in every place,
objects in their keys and in the values under each key. -/
inductive Agree (R : Json → Json → Prop) : Json → Json → Prop
  | leaf {v w : Json} : v.isLeaf = true → w.isLeaf = true → R v w → Agree R v w
  | arr {xs ys : List Json} : xs.length = ys.length →
      (∀ (i : ℕ) (x y : Json), xs[i]? = some x → ys[i]? = some y → Agree R x y) →
      Agree R (.arr xs) (.arr ys)
  | obj {fs gs : List (String × Json)} :
      (∀ k, k ∈ fs.map Prod.fst ↔ k ∈ gs.map Prod.fst) →
      (∀ k v w, (k, v) ∈ fs → (k, w) ∈ gs → Agree R v w) → Agree R (.obj fs) (.obj gs)

/-- At some place of both trees, reached by the same keys and positions, `R` holds. -/
inductive Faces (R : Json → Json → Prop) : Json → Json → Prop
  | here {v w : Json} : R v w → Faces R v w
  | arr {xs ys : List Json} {x y : Json} (i : ℕ) : xs[i]? = some x → ys[i]? = some y →
      Faces R x y → Faces R (.arr xs) (.arr ys)
  | obj {fs gs : List (String × Json)} {v w : Json} (k : String) : (k, v) ∈ fs → (k, w) ∈ gs →
      Faces R v w → Faces R (.obj fs) (.obj gs)

variable {R S : Json → Json → Prop}

theorem agree_obj_iff {fs gs : List (String × Json)} :
    Agree R (.obj fs) (.obj gs) ↔ Dict.EqualUpTo (Agree R) fs gs := by
  constructor
  · intro h
    cases h with
    | leaf hv => cases hv
    | obj hkeys hvalues => exact ⟨hkeys, hvalues⟩
  · intro h
    exact Agree.obj h.1 h.2

theorem Agree.imp {v w : Json} (h : Agree R v w)
    (hRS : ∀ x y, x.isLeaf = true → y.isLeaf = true → R x y → S x y) : Agree S v w := by
  induction h with
  | leaf hv hw h => exact Agree.leaf hv hw (hRS _ _ hv hw h)
  | arr hlen _ ih => exact Agree.arr hlen ih
  | obj hkeys _ ih => exact Agree.obj hkeys ih

/-- Trees that agree up to `S` agree up to `R`, unless `R` fails at some place where
`S` holds. -/
theorem Agree.or_faces {v w : Json} (h : Agree (fun x y => R x y ∨ S x y) v w)
    (hfaces : ¬ Faces S v w) : Agree R v w := by
  induction h with
  | leaf hv hw h =>
      rcases h with h | h
      · exact Agree.leaf hv hw h
      · exact absurd (Faces.here h) hfaces
  | arr hlen _ ih =>
      refine Agree.arr hlen ?_
      intro i x y hx hy
      exact ih i x y hx hy fun hxy => hfaces (Faces.arr i hx hy hxy)
  | obj hkeys _ ih =>
      refine Agree.obj hkeys ?_
      intro k v w hv hw
      exact ih k v w hv hw fun hvw => hfaces (Faces.obj k hv hw hvw)

/-- Trees that agree up to `R` have no place where leaves are related by `S` instead. -/
theorem Agree.not_faces {v w : Json} (h : Agree R v w)
    (hS : ∀ x y, S x y → x.isLeaf = true ∧ ¬ R x y) : ¬ Faces S v w := by
  induction h with
  | leaf hv _ h =>
      intro hfaces
      cases hfaces with
      | here hvw => exact (hS _ _ hvw).2 h
      | arr => cases hv
      | obj => cases hv
  | arr _ _ ih =>
      intro hfaces
      cases hfaces with
      | here hvw => cases (hS _ _ hvw).1
      | arr i hx hy hxy => exact ih i _ _ hx hy hxy
  | obj _ _ ih =>
      intro hfaces
      cases hfaces with
      | here hvw => cases (hS _ _ hvw).1
      | obj k hv hw hvw => exact ih k _ _ hv hw hvw

/-! ## Forms with sorted keys -/

/-- A form of trees that is built from the forms of the parts, objects by their keys
in order, and shows whether a tree is a leaf, an array or an object. -/
structure SortedForm {T : Type} (form : Json → T) (arr : List T → T)
    (obj : List (String × T) → T) : Prop where
  arr_eq : ∀ xs, form (.arr xs) = arr (xs.map form)
  obj_eq : ∀ fs, form (.obj fs) = obj (Utf16.sortByKey (fs.map fun e => (e.1, form e.2)))
  arr_inj : Function.Injective arr
  obj_inj : Function.Injective obj
  arr_ne_obj : ∀ l m, arr l ≠ obj m
  leaf_ne_arr : ∀ v l, v.isLeaf = true → form v ≠ arr l
  leaf_ne_obj : ∀ v l, v.isLeaf = true → form v ≠ obj l

section

variable {T : Type} {form : Json → T} {arr : List T → T} {obj : List (String × T) → T}

/-- Trees of one form agree as maps. -/
theorem SortedForm.agree_of_eq (hform : SortedForm form arr obj) {v w : Json}
    (hv : UniqueKeys v) (hw : UniqueKeys w) (h : form v = form w) :
    Agree (fun x y => form x = form y) v w := by
  induction v using Json.induction generalizing w with
  | leaf v hleaf =>
      cases w with
      | arr ys =>
          rw [hform.arr_eq] at h
          exact absurd h (hform.leaf_ne_arr v _ hleaf)
      | obj gs =>
          rw [hform.obj_eq] at h
          exact absurd h (hform.leaf_ne_obj v _ hleaf)
      | _ => exact Agree.leaf hleaf rfl h
  | arr xs ih =>
      rw [hform.arr_eq] at h
      cases w with
      | arr ys =>
          rw [hform.arr_eq] at h
          simp only [UniqueKeys, uniqueKeysElems_iff] at hv hw
          have hmap : xs.map form = ys.map form := hform.arr_inj h
          have hlen : xs.length = ys.length := by simpa using congrArg List.length hmap
          refine Agree.arr hlen ?_
          intro i x y hx hy
          have hget := congrArg (fun l => l[i]?) hmap
          simp only [List.getElem?_map, hx, hy, Option.map_some, Option.some.injEq] at hget
          have hxs := List.mem_of_getElem? hx
          exact ih x hxs (hv x hxs) (hw y (List.mem_of_getElem? hy)) hget
      | obj gs =>
          rw [hform.obj_eq] at h
          exact absurd h (hform.arr_ne_obj _ _)
      | _ => exact absurd h.symm (hform.leaf_ne_arr _ _ rfl)
  | obj fs ih =>
      rw [hform.obj_eq] at h
      cases w with
      | arr ys =>
          rw [hform.arr_eq] at h
          exact absurd h.symm (hform.arr_ne_obj _ _)
      | obj gs =>
          rw [hform.obj_eq] at h
          simp only [UniqueKeys, uniqueKeysFields_iff] at hv hw
          -- one sorted list: the same entries, hence the same forms under each key
          have hkeys : ((fs.map fun e => (e.1, form e.2)).map Prod.fst).Nodup := by
            rw [List.map_map]
            exact hv.1
          have hperm := (Utf16.sortByKey_eq_iff hkeys).1 (hform.obj_inj h)
          have hequal := (Dict.perm_map_iff hv.1 hw.1).1 hperm
          rw [agree_obj_iff]
          refine hequal.imp ?_
          intro k x y hx hy hxy
          exact ih (k, x) hx (hv.2 _ hx) (hw.2 _ hy) hxy
      | _ => exact absurd h.symm (hform.leaf_ne_obj _ _ rfl)

/-- Trees that agree as maps have one form. -/
theorem SortedForm.eq_of_agree (hform : SortedForm form arr obj) {v w : Json}
    (hv : UniqueKeys v) (hw : UniqueKeys w) (h : Agree (fun x y => form x = form y) v w) :
    form v = form w := by
  induction h with
  | leaf _ _ h => exact h
  | arr hlen _ ih =>
      simp only [UniqueKeys, uniqueKeysElems_iff] at hv hw
      rw [hform.arr_eq, hform.arr_eq]
      congr 1
      apply List.ext_getElem
      · simpa using hlen
      · intro i hi hj
        rw [List.length_map] at hi hj
        rw [List.getElem_map, List.getElem_map]
        exact ih i _ _ (List.getElem?_eq_getElem hi) (List.getElem?_eq_getElem hj)
          (hv _ (List.getElem_mem hi)) (hw _ (List.getElem_mem hj))
  | obj hkeys _ ih =>
      simp only [UniqueKeys, uniqueKeysFields_iff] at hv hw
      rw [hform.obj_eq, hform.obj_eq]
      congr 1
      apply Utf16.sortByKey_congr
      · rw [List.map_map]
        exact hv.1
      · rw [Dict.perm_map_iff hv.1 hw.1]
        refine ⟨hkeys, ?_⟩
        intro k x y hx hy
        exact ih k x y hx hy (hv.2 _ hx) (hw.2 _ hy)

/-- Such a form is shared by the trees that agree as maps, up to leaves of one form. -/
theorem SortedForm.eq_iff_agree (hform : SortedForm form arr obj) {v w : Json}
    (hv : UniqueKeys v) (hw : UniqueKeys w) :
    form v = form w ↔ Agree (fun x y => form x = form y) v w :=
  ⟨hform.agree_of_eq hv hw, hform.eq_of_agree hv hw⟩

end

theorem canonicalText_of_isLeaf {v : Json} (hv : v.isLeaf = true) :
    canonicalText v = toText v := by
  unfold canonicalText
  rw [sortKeys_of_isLeaf hv]

/-- The canonical text is such a form. -/
theorem sortedForm_canonicalText : SortedForm canonicalText .arr .obj where
  arr_eq := canonicalText_arr
  obj_eq := canonicalText_obj
  arr_inj _ _ h := JsonText.arr.inj h
  obj_inj _ _ h := JsonText.obj.inj h
  arr_ne_obj _ _ h := by cases h
  leaf_ne_arr v l hv h := by
    have hleaf : (canonicalText v).isLeaf = true := by
      rw [canonicalText_of_isLeaf hv, isLeaf_toText, hv]
    rw [h] at hleaf
    cases hleaf
  leaf_ne_obj v l hv h := by
    have hleaf : (canonicalText v).isLeaf = true := by
      rw [canonicalText_of_isLeaf hv, isLeaf_toText, hv]
    rw [h] at hleaf
    cases hleaf

end Json

/-! ## Field maps -/

/-- A value of a field map: the double that is not a number, which no JSON text is
parsed to, or a tree. -/
inductive FieldValue where
  | nan
  | tree (v : Json)

namespace FieldValue

/-- No object in the value has a key twice. -/
def UniqueKeys : FieldValue → Prop
  | .nan => True
  | .tree v => v.UniqueKeys

/-- The canonical text of a value: not a number is a quoted string too
(`QUOTE_NON_NUMERIC_NUMBERS`). -/
def canonicalText : FieldValue → JsonText
  | .nan => .str "NaN"
  | .tree v => CanonicalJson.canonicalText v

/-- Trees agree as maps, with leaves related by `R`. -/
def Agree (R : FieldValue → FieldValue → Prop) : FieldValue → FieldValue → Prop
  | .tree v, .tree w => Json.Agree (fun x y => R (.tree x) (.tree y)) v w
  | x, y => R x y

/-- At some place of both values `R` holds. -/
def Faces (R : FieldValue → FieldValue → Prop) : FieldValue → FieldValue → Prop
  | .tree v, .tree w => Json.Faces (fun x y => R (.tree x) (.tree y)) v w
  | x, y => R x y

/-- What a double that is no finite number is written as, in quotes. -/
def nonNumeric : FieldValue → Option String
  | .nan => some "NaN"
  | .tree (.double (.infinite true)) => some "-Infinity"
  | .tree (.double (.infinite false)) => some "Infinity"
  | _ => none

/-- One is a double that is no finite number, the other the string it is written as. -/
def Mistakable (x y : FieldValue) : Prop :=
  ∃ s, (x.nonNumeric = some s ∧ y = .tree (.str s)) ∨ (y.nonNumeric = some s ∧ x = .tree (.str s))

theorem canonicalText_of_nonNumeric {x : FieldValue} {s : String} (h : x.nonNumeric = some s) :
    x.canonicalText = .str s := by
  unfold nonNumeric at h
  split at h
  · rcases Option.some.inj h with rfl
    rfl
  · rcases Option.some.inj h with rfl
    rfl
  · rcases Option.some.inj h with rfl
    rfl
  · cases h

/-- Such a double is a leaf, and no string. -/
theorem isLeaf_of_nonNumeric {v : Json} {s : String} (h : nonNumeric (.tree v) = some s) :
    v.isLeaf = true ∧ ∀ t, v ≠ .str t := by
  cases v with
  | double d =>
      refine ⟨rfl, ?_⟩
      intro t heq
      cases heq
  | _ => cases h

theorem Mistakable.symm {x y : FieldValue} (h : Mistakable x y) : Mistakable y x := by
  rcases h with ⟨s, h | h⟩
  · exact ⟨s, Or.inr h⟩
  · exact ⟨s, Or.inl h⟩

theorem Mistakable.canonicalText_eq {x y : FieldValue} (h : Mistakable x y) :
    x.canonicalText = y.canonicalText := by
  rcases h with ⟨s, ⟨hx, rfl⟩ | ⟨hy, rfl⟩⟩
  · rw [canonicalText_of_nonNumeric hx]
    exact (canonicalText_str s).symm
  · rw [canonicalText_of_nonNumeric hy]
    exact canonicalText_str s

/-- A double and a string are different leaves. -/
theorem Mistakable.isLeaf_and_ne {v w : Json} (h : Mistakable (.tree v) (.tree w)) :
    v.isLeaf = true ∧ v ≠ w := by
  rcases h with ⟨s, ⟨hv, hw⟩ | ⟨hw, hv⟩⟩
  · obtain rfl : w = .str s := FieldValue.tree.inj hw
    exact ⟨(isLeaf_of_nonNumeric hv).1, (isLeaf_of_nonNumeric hv).2 s⟩
  · obtain rfl : v = .str s := FieldValue.tree.inj hv
    exact ⟨rfl, ((isLeaf_of_nonNumeric hw).2 s).symm⟩

/-- The three such strings are different, each of one double. -/
theorem nonNumeric_inj {x y : FieldValue} {s : String} (hx : x.nonNumeric = some s)
    (hy : y.nonNumeric = some s) : x = y := by
  unfold nonNumeric at hx hy
  split at hx <;> split at hy <;>
    first | rfl | exact absurd (hx.trans hy.symm) (by decide) | cases hx

/-- An ambiguous leaf is written as a string. -/
theorem exists_of_isAmbiguous {v : Json} (h : v.isAmbiguous = true) :
    ∃ s, toText v = .str s ∧ (v = .str s ∨ nonNumeric (.tree v) = some s) := by
  cases v with
  | str s => exact ⟨s, rfl, Or.inl rfl⟩
  | double d =>
      cases d with
      | finite neg m => cases h
      | infinite neg =>
          cases neg
          · exact ⟨"Infinity", rfl, Or.inr rfl⟩
          · exact ⟨"-Infinity", rfl, Or.inr rfl⟩
  | _ => cases h

/-- Leaves that are written alike are equal, or a double that is no finite number and
a string. -/
theorem toText_leaf_eq_iff {v w : Json} (hv : v.isLeaf = true) (hw : w.isLeaf = true) :
    toText v = toText w ↔ v = w ∨ Mistakable (.tree v) (.tree w) := by
  constructor
  · intro h
    cases hclearv : v.isAmbiguous with
    | false => exact Or.inl (Json.toText_leaf_inj hv hclearv h)
    | true =>
        cases hclearw : w.isAmbiguous with
        | false => exact Or.inl (Json.toText_leaf_inj hw hclearw h.symm).symm
        | true =>
            -- both are written as one string
            rcases exists_of_isAmbiguous hclearv with ⟨s, hsv, hs⟩
            rcases exists_of_isAmbiguous hclearw with ⟨t, htw, ht⟩
            obtain rfl : s = t := by
              rw [hsv, htw] at h
              exact JsonText.str.inj h
            rcases hs with rfl | hs
            · rcases ht with rfl | ht
              · exact Or.inl rfl
              · exact Or.inr ⟨s, Or.inr ⟨ht, rfl⟩⟩
            · rcases ht with rfl | ht
              · exact Or.inr ⟨s, Or.inl ⟨hs, rfl⟩⟩
              · exact Or.inl (FieldValue.tree.inj (nonNumeric_inj hs ht))
  · intro h
    rcases h with rfl | h
    · rfl
    · have htext := h.canonicalText_eq
      unfold canonicalText at htext
      simp only at htext
      rwa [Json.canonicalText_of_isLeaf hv, Json.canonicalText_of_isLeaf hw] at htext

/-- A string in quotes is the canonical text of NaN alone, and of the string. -/
theorem canonicalText_nan_iff {v : Json} :
    nan.canonicalText = (tree v).canonicalText ↔ Mistakable nan (.tree v) := by
  constructor
  · intro h
    have htext : CanonicalJson.canonicalText v = .str "NaN" := h.symm
    refine ⟨"NaN", Or.inl ⟨rfl, ?_⟩⟩
    cases v with
    | str s =>
        rw [canonicalText_str] at htext
        rw [JsonText.str.inj htext]
    | arr xs =>
        rw [canonicalText_arr] at htext
        cases htext
    | obj fs =>
        rw [canonicalText_obj] at htext
        cases htext
    | double d =>
        rw [Json.canonicalText_of_isLeaf rfl] at htext
        cases d with
        | finite neg m => cases htext
        | infinite neg => cases neg <;> simp [toText, doubleText] at htext
    | _ =>
        rw [Json.canonicalText_of_isLeaf rfl] at htext
        cases htext
  · intro h
    exact h.canonicalText_eq

/-- Values are written alike exactly when they agree as maps, up to leaves that are
mistakable. -/
theorem canonicalText_eq_iff {x y : FieldValue} (hx : x.UniqueKeys) (hy : y.UniqueKeys) :
    x.canonicalText = y.canonicalText ↔ Agree (fun x y => x = y ∨ Mistakable x y) x y := by
  cases x with
  | nan =>
      cases y with
      | nan => exact ⟨fun _ => Or.inl rfl, fun _ => rfl⟩
      | tree w =>
          rw [canonicalText_nan_iff]
          constructor
          · exact Or.inr
          · intro h
            exact h.resolve_left (by simp)
  | tree v =>
      cases y with
      | nan =>
          rw [eq_comm, canonicalText_nan_iff]
          constructor
          · intro h
            exact Or.inr h.symm
          · intro h
            exact (h.resolve_left (by simp)).symm
      | tree w =>
          have hsorted := Json.sortedForm_canonicalText.eq_iff_agree (v := v) (w := w) hx hy
          show CanonicalJson.canonicalText v = CanonicalJson.canonicalText w ↔
            Json.Agree (fun x y => tree x = tree y ∨ Mistakable (tree x) (tree y)) v w
          rw [hsorted]
          have hleaf : ∀ a b : Json, a.isLeaf = true → b.isLeaf = true →
              (CanonicalJson.canonicalText a = CanonicalJson.canonicalText b ↔
                tree a = tree b ∨ Mistakable (tree a) (tree b)) := by
            intro a b ha hb
            rw [Json.canonicalText_of_isLeaf ha, Json.canonicalText_of_isLeaf hb,
              toText_leaf_eq_iff ha hb, FieldValue.tree.injEq]
          constructor
          · intro h
            exact h.imp fun a b ha hb => (hleaf a b ha hb).1
          · intro h
            exact h.imp fun a b ha hb => (hleaf a b ha hb).2

end FieldValue

theorem uniqueKeys_jsonString (o : Option String) : Json.UniqueKeys (jsonString o) := by
  cases o <;> trivial

/-- The hashed fields of a row have distinct keys, and so has its explanation. -/
theorem uniqueKeys_fieldsFor (e : ClaimAuditEvent) : Json.UniqueKeys (.obj (fieldsFor e)) := by
  have hexplanation : Json.UniqueKeys ((e.explanationJson.map parse).getD .null) := by
    cases e.explanationJson with
    | none => trivial
    | some t => exact Json.uniqueKeys_parse t
  simp only [Json.UniqueKeys, Json.uniqueKeysFields_iff]
  constructor
  · simp only [fieldsFor, List.map_cons, List.map_nil]
    decide
  · simp [fieldsFor, uniqueKeys_jsonString, hexplanation, Json.UniqueKeys]

/-- A `Map<String, Object>`: no key twice, at any depth. -/
structure FieldMap where
  fields : List (String × FieldValue)
  nodup : (fields.map Prod.fst).Nodup
  unique : ∀ e ∈ fields, e.2.UniqueKeys

namespace FieldMap

open FieldValue

/-- `CanonicalJson.canonicalize`: the map goes through a `TreeMap` and is written
without whitespace. -/
def canonicalize (m : FieldMap) : String :=
  String.ofList
    (JsonText.obj (Utf16.sortByKey (m.fields.map fun e => (e.1, e.2.canonicalText)))).render

/-- A map of trees. -/
def ofTrees (fields : List (String × Json)) (h : Json.UniqueKeys (.obj fields)) : FieldMap where
  fields := fields.map fun e => (e.1, .tree e.2)
  nodup := by
    simp only [Json.UniqueKeys] at h
    rw [List.map_map]
    exact h.1
  unique := by
    simp only [Json.UniqueKeys, Json.uniqueKeysFields_iff] at h
    intro e he
    rcases List.mem_map.1 he with ⟨x, hx, rfl⟩
    exact h.2 x hx

/-- On a map of trees there is one notion of canonical string. -/
theorem canonicalize_ofTrees (fields : List (String × Json)) (h : Json.UniqueKeys (.obj fields)) :
    (ofTrees fields h).canonicalize = CanonicalJson.canonicalize fields := by
  unfold canonicalize CanonicalJson.canonicalize canonicalString
  rw [canonicalText_obj]
  unfold ofTrees
  rw [List.map_map]
  rfl

/-- The field map that is hashed for a row. -/
def ofEvent (e : ClaimAuditEvent) : FieldMap :=
  ofTrees (fieldsFor e) (uniqueKeys_fieldsFor e)

/-- It is what the hash of the row is taken of, after the link. -/
theorem hashedText_eq (e : ClaimAuditEvent) :
    hashedText e = e.prevHash ++ (ofEvent e).canonicalize := by
  unfold hashedText ofEvent
  rw [canonicalize_ofTrees]

/-- Two maps have the same keys, with values that agree up to `R` under each key. -/
def Agree (R : FieldValue → FieldValue → Prop) (a b : FieldMap) : Prop :=
  Dict.EqualUpTo (FieldValue.Agree R) a.fields b.fields

/-- At some place of both maps `R` holds. -/
def Faces (R : FieldValue → FieldValue → Prop) (a b : FieldMap) : Prop :=
  ∃ k v w, (k, v) ∈ a.fields ∧ (k, w) ∈ b.fields ∧ FieldValue.Faces R v w

/-- Equality of maps, whatever the order of insertion, at every depth. -/
def Equal (a b : FieldMap) : Prop := Agree (· = ·) a b

/-- Maps are written alike exactly when they agree up to mistakable leaves. -/
theorem canonicalize_eq_iff_agree (a b : FieldMap) :
    a.canonicalize = b.canonicalize ↔ Agree (fun x y => x = y ∨ Mistakable x y) a b := by
  have hkeys : ((a.fields.map fun e => (e.1, e.2.canonicalText)).map Prod.fst).Nodup := by
    rw [List.map_map]
    exact a.nodup
  have hperm : a.canonicalize = b.canonicalize ↔
      Dict.EqualUpTo (fun v w => v.canonicalText = w.canonicalText) a.fields b.fields := by
    rw [← Dict.perm_map_iff a.nodup b.nodup, ← Utf16.sortByKey_eq_iff hkeys]
    constructor
    · intro h
      exact JsonText.obj.inj (JsonText.render_inj (String.ofList_injective h))
    · intro h
      unfold canonicalize
      rw [h]
  rw [hperm]
  constructor
  · intro h
    refine h.imp ?_
    intro k v w hv hw
    exact (canonicalText_eq_iff (a.unique _ hv) (b.unique _ hw)).1
  · intro h
    refine h.imp ?_
    intro k v w hv hw
    exact (canonicalText_eq_iff (a.unique _ hv) (b.unique _ hw)).2

/-- Agreement up to mistakable leaves is equality where no leaves are mistakable. -/
theorem equal_of_agree {a b : FieldMap} (h : Agree (fun x y => x = y ∨ Mistakable x y) a b)
    (hfaces : ¬ Faces Mistakable a b) : Equal a b := by
  refine Dict.EqualUpTo.imp h ?_
  intro k v w hv hw hvw
  have hplace : ¬ FieldValue.Faces Mistakable v w := fun hf => hfaces ⟨k, v, w, hv, hw, hf⟩
  cases v with
  | nan => cases w <;> exact Or.resolve_right hvw hplace
  | tree v =>
      cases w with
      | nan => exact Or.resolve_right hvw hplace
      | tree w => exact Json.Agree.or_faces hvw hplace

/-- Equal maps have no mistakable leaves at one place. -/
theorem Equal.not_faces {a b : FieldMap} (h : Equal a b) : ¬ Faces Mistakable a b := by
  intro hfaces
  rcases hfaces with ⟨k, v, w, hv, hw, hplace⟩
  have hvw := h.2 k v w hv hw
  cases v with
  | nan =>
      cases w with
      | nan =>
          rcases hplace with ⟨s, ⟨-, hs⟩ | ⟨-, hs⟩⟩ <;> cases hs
      | tree w => cases hvw
  | tree v =>
      cases w with
      | nan => cases hvw
      | tree w =>
          refine Json.Agree.not_faces hvw ?_ hplace
          intro x y hxy
          refine ⟨hxy.isLeaf_and_ne.1, ?_⟩
          intro heq
          exact hxy.isLeaf_and_ne.2 (FieldValue.tree.inj heq)

theorem Equal.canonicalize_eq {a b : FieldMap} (h : Equal a b) :
    a.canonicalize = b.canonicalize := by
  rw [canonicalize_eq_iff_agree]
  refine Dict.EqualUpTo.imp h ?_
  intro k v w _ _ hvw
  cases v with
  | nan => cases w <;> exact Or.inl hvw
  | tree v =>
      cases w with
      | nan => exact Or.inl hvw
      | tree w => exact Json.Agree.imp hvw fun x y _ _ hxy => Or.inl hxy

/-- The canonical string tells two maps apart, and only then, when they differ as maps:
unless they have a double that is no finite number and the string it is written as at
one place, and nothing but such differences. -/
theorem canonicalize_complete_iff (a b : FieldMap) :
    (a.canonicalize = b.canonicalize ↔ Equal a b) ↔
      ¬ Faces Mistakable a b ∨ ¬ Agree (fun x y => x = y ∨ Mistakable x y) a b := by
  constructor
  · intro h
    by_cases hagree : Agree (fun x y => x = y ∨ Mistakable x y) a b
    · left
      exact (h.1 ((canonicalize_eq_iff_agree a b).2 hagree)).not_faces
    · exact Or.inr hagree
  · intro h
    constructor
    · intro htext
      have hagree := (canonicalize_eq_iff_agree a b).1 htext
      rcases h with hfaces | hnot
      · exact equal_of_agree hagree hfaces
      · exact absurd hagree hnot
    · exact Equal.canonicalize_eq

end FieldMap

/-- A scored event whose explanation has one member. -/
def Sample.explained (amount : JsonText) : ClaimAuditEvent :=
  Sample.scoredDraft (.obj [("claim_amount", amount)])

/-- A number beyond the range of a double is written like the string. -/
theorem canonicalize_overflowing :
    (FieldMap.ofEvent (Sample.explained (.num (Json.overflowing false)))).canonicalize =
        (FieldMap.ofEvent (Sample.explained (.str "Infinity"))).canonicalize ∧
      ¬ (FieldMap.ofEvent (Sample.explained (.num (Json.overflowing false)))).Equal
        (FieldMap.ofEvent (Sample.explained (.str "Infinity"))) := by
  have hparse : parse (.num (Json.overflowing false)) = .double (.infinite false) :=
    Json.parseNumeral_spellDouble (.infinite false)
  have hnumber : explanationTree (Sample.explained (.num (Json.overflowing false))) =
      .obj [("claim_amount", .double (.infinite false))] := by
    rw [← hparse]
    rfl
  have hstring : explanationTree (Sample.explained (.str "Infinity")) =
      .obj [("claim_amount", .str "Infinity")] := rfl
  constructor
  · unfold FieldMap.ofEvent
    rw [FieldMap.canonicalize_ofTrees, FieldMap.canonicalize_ofTrees]
    apply canonicalize_congr
    unfold explanationTree at hnumber hstring
    simp only [fieldsFor, List.map_cons, List.map_nil, hnumber, hstring, canonicalText_obj]
    simp only [Sample.explained, Sample.scoredDraft, draftEvent]
    rfl
  · intro h
    have hmem : ∀ e : ClaimAuditEvent, ("explanationJson", FieldValue.tree (explanationTree e)) ∈
        (FieldMap.ofEvent e).fields := by
      intro e
      simp [FieldMap.ofEvent, FieldMap.ofTrees, fieldsFor, explanationTree]
    have hvalue := h.2 _ _ _ (hmem _) (hmem _)
    rw [hnumber, hstring] at hvalue
    have htree := (Json.agree_obj_iff.1 hvalue).2 "claim_amount" _ _ List.mem_cons_self
      List.mem_cons_self
    cases htree with
    | leaf _ _ heq => cases heq

end ClaimGuard
