import ClaimGuard.Lib.Binary64
import ClaimGuard.Lib.JsonWriters
import ClaimGuard.Lib.Table
import ClaimGuard.Lib.Utf16

/-!
# Canonical JSON

`CanonicalJson`: parsing a JSON text into the generic object tree of the mapper,
and the serialization that gets hashed, with sorted keys and no whitespace. The
two are separate on purpose: `parse` forgets how a text was written, and
`canonicalText` gives every tree one text.
-/

namespace ClaimGuard

/-- The generic object tree of the mapper. Integers have arbitrary precision,
every other number is a double, and an object is a map in insertion order. -/
inductive Json where
  | null
  | bool (b : Bool)
  | int (z : ℤ)
  | double (d : Binary64)
  | str (s : String)
  | arr (elems : List Json)
  | obj (fields : List (String × Json))

namespace CanonicalJson

/-- The object a numeral is read as: without point and exponent an exact integer,
otherwise a double. -/
def parseNumeral (n : Numeral) : Json :=
  if n.isInteger then .int n.toInt else .double (Binary64.ofDecimal n.neg n.magnitude)

/-- A map filled by `put` in the order of the entries: a repeated key keeps its
place and takes the last value. -/
def linkedMap {α : Type} (entries : List (String × α)) : List (String × α) :=
  entries.foldl (fun m e => Table.save Prod.fst m e) []

mutual

/-- `CanonicalJson.parse`, on a text that is JSON. -/
def parse : JsonText → Json
  | .null => .null
  | .bool b => .bool b
  | .num n => parseNumeral n
  | .str s => .str s
  | .arr xs => .arr (parseElems xs)
  | .obj fs => .obj (linkedMap (parseFields fs))

/-- The elements of an array. -/
def parseElems : List JsonText → List Json
  | [] => []
  | x :: xs => parse x :: parseElems xs

/-- The members of an object, repeated keys included. -/
def parseFields : List (String × JsonText) → List (String × Json)
  | [] => []
  | (k, v) :: fs => (k, parse v) :: parseFields fs

end

mutual

/-- `ORDER_MAP_ENTRIES_BY_KEYS`: every map in the order of its keys. -/
def sortKeys : Json → Json
  | .arr xs => .arr (sortKeysElems xs)
  | .obj fs => .obj (Utf16.sortByKey (sortKeysFields fs))
  | v => v

/-- The elements of an array. -/
def sortKeysElems : List Json → List Json
  | [] => []
  | x :: xs => sortKeys x :: sortKeysElems xs

/-- The members of an object. -/
def sortKeysFields : List (String × Json) → List (String × Json)
  | [] => []
  | (k, v) :: fs => (k, sortKeys v) :: sortKeysFields fs

end

/-- How a double is written: an infinite one as a quoted string
(`QUOTE_NON_NUMERIC_NUMBERS`), any other by `Double.toString`. -/
def doubleText : Binary64 → JsonText
  | .finite neg m => .num (Binary64.toNumeral neg m)
  | .infinite true => .str "-Infinity"
  | .infinite false => .str "Infinity"

mutual

/-- `writeValueAsString`, up to the characters. -/
def toText : Json → JsonText
  | .null => .null
  | .bool b => .bool b
  | .int z => .num (Numeral.ofInt z)
  | .double d => doubleText d
  | .str s => .str s
  | .arr xs => .arr (toTextElems xs)
  | .obj fs => .obj (toTextFields fs)

/-- The elements of an array. -/
def toTextElems : List Json → List JsonText
  | [] => []
  | x :: xs => toText x :: toTextElems xs

/-- The members of an object. -/
def toTextFields : List (String × Json) → List (String × JsonText)
  | [] => []
  | (k, v) :: fs => (k, toText v) :: toTextFields fs

end

/-- The canonical text of a tree. -/
def canonicalText (v : Json) : JsonText := toText (sortKeys v)

/-- The canonical string of a tree. -/
def canonicalString (v : Json) : String := String.ofList (canonicalText v).render

/-- `CanonicalJson.canonicalize`: the canonical string of a map. -/
def canonicalize (fields : List (String × Json)) : String := canonicalString (.obj fields)

/-- Equality of object trees: maps are equal when they have the same entries, in
whatever order. -/
def SameTree (v w : Json) : Prop := sortKeys v = sortKeys w

theorem SameTree.refl (v : Json) : SameTree v v := rfl

/-! ## Filled maps -/

section LinkedMap

variable {α β : Type}

private theorem linkedMap_append (l : List (String × α)) (e : String × α) :
    linkedMap (l ++ [e]) = Table.save Prod.fst (linkedMap l) e := by
  simp [linkedMap, List.foldl_append]

/-- A filled map has distinct keys. -/
theorem nodup_linkedMap (l : List (String × α)) : ((linkedMap l).map Prod.fst).Nodup := by
  induction l using List.reverseRecOn with
  | nil => exact List.nodup_nil
  | append_singleton l e ih =>
      rw [linkedMap_append]
      exact Table.uniqueKeys_save ih e

/-- A filled map has entries that were put. -/
theorem mem_of_mem_linkedMap {l : List (String × α)} {x : String × α} (h : x ∈ linkedMap l) :
    x ∈ l := by
  induction l using List.reverseRecOn with
  | nil => cases h
  | append_singleton l e ih =>
      rw [linkedMap_append, Table.mem_save (nodup_linkedMap l)] at h
      rcases h with rfl | ⟨h, -⟩
      · simp
      · simp [ih h]

/-- Filling a map with distinct keys keeps the entries as they are. -/
theorem linkedMap_of_nodup {l : List (String × α)} (h : (l.map Prod.fst).Nodup) :
    linkedMap l = l := by
  induction l using List.reverseRecOn with
  | nil => rfl
  | append_singleton l e ih =>
      rw [List.map_append, List.nodup_append] at h
      rcases h with ⟨hl, -, hne⟩
      -- the last key is none of the earlier ones, so it is put at the end
      rw [linkedMap_append, ih hl, Table.save_of_find_none]
      rw [Table.find_eq_none]
      intro r hr
      exact hne r.1 (List.mem_map_of_mem hr) e.1 (by simp)

/-- Filling does not look at the values. -/
theorem linkedMap_map (f : α → β) (l : List (String × α)) :
    linkedMap (l.map fun e => (e.1, f e.2)) = (linkedMap l).map fun e => (e.1, f e.2) := by
  induction l using List.reverseRecOn with
  | nil => rfl
  | append_singleton l e ih =>
      rw [List.map_append, List.map_singleton, linkedMap_append, linkedMap_append, ih]
      generalize linkedMap l = m
      have hfind : (Table.find Prod.fst (m.map fun e => (e.1, f e.2)) e.1).isSome =
          (Table.find Prod.fst m e.1).isSome := by
        rw [Bool.eq_iff_iff, Table.find_isSome, Table.find_isSome]
        simp
      unfold Table.save
      simp only [hfind]
      -- a repeated key replaces its entry, a new one goes to the end
      split
      · rw [List.map_map, List.map_map]
        apply List.map_congr_left
        intro x _
        by_cases hx : x.1 = e.1 <;> simp [hx]
      · simp

end LinkedMap

/-! ## Recursion over members -/

@[simp] theorem parseElems_eq (xs : List JsonText) : parseElems xs = xs.map parse := by
  induction xs with
  | nil => simp [parseElems]
  | cons x xs ih => simp [parseElems, ih]

@[simp] theorem parseFields_eq (fs : List (String × JsonText)) :
    parseFields fs = fs.map fun e => (e.1, parse e.2) := by
  induction fs with
  | nil => simp [parseFields]
  | cons f fs ih => simp [parseFields, ih]

@[simp] theorem sortKeysElems_eq (xs : List Json) : sortKeysElems xs = xs.map sortKeys := by
  induction xs with
  | nil => simp [sortKeysElems]
  | cons x xs ih => simp [sortKeysElems, ih]

@[simp] theorem sortKeysFields_eq (fs : List (String × Json)) :
    sortKeysFields fs = fs.map fun e => (e.1, sortKeys e.2) := by
  induction fs with
  | nil => simp [sortKeysFields]
  | cons f fs ih => simp [sortKeysFields, ih]

@[simp] theorem toTextElems_eq (xs : List Json) : toTextElems xs = xs.map toText := by
  induction xs with
  | nil => simp [toTextElems]
  | cons x xs ih => simp [toTextElems, ih]

@[simp] theorem toTextFields_eq (fs : List (String × Json)) :
    toTextFields fs = fs.map fun e => (e.1, toText e.2) := by
  induction fs with
  | nil => simp [toTextFields]
  | cons f fs ih => simp [toTextFields, ih]

@[simp] theorem canonicalText_null : canonicalText .null = .null := by
  simp [canonicalText, sortKeys, toText]

@[simp] theorem canonicalText_str (s : String) : canonicalText (.str s) = .str s := by
  simp [canonicalText, sortKeys, toText]

@[simp] theorem canonicalText_int (z : ℤ) : canonicalText (.int z) = .num (Numeral.ofInt z) := by
  simp [canonicalText, sortKeys, toText]

theorem canonicalText_arr (xs : List Json) :
    canonicalText (.arr xs) = .arr (xs.map canonicalText) := by
  simp [canonicalText, sortKeys, toText, Function.comp_def]

/-- The canonical text of a map lists the canonical texts of its values in the
order of the keys. -/
theorem canonicalText_obj (fs : List (String × Json)) :
    canonicalText (.obj fs) =
      .obj (Utf16.sortByKey (fs.map fun e => (e.1, canonicalText e.2))) := by
  have h := Utf16.sortByKey_map toText (fs.map fun e => (e.1, sortKeys e.2))
  rw [List.map_map] at h
  simp only [canonicalText, sortKeys, toText, sortKeysFields_eq, toTextFields_eq, ← h]
  rfl

/-- Canonical strings determine canonical texts. -/
theorem canonicalString_inj {v w : Json} :
    canonicalString v = canonicalString w ↔ canonicalText v = canonicalText w := by
  constructor
  · intro h
    exact JsonText.render_inj (String.ofList_injective h)
  · intro h
    unfold canonicalString
    rw [h]

/-- Trees that are equal as maps are hashed alike. -/
theorem SameTree.canonicalText_eq {v w : Json} (h : SameTree v w) :
    canonicalText v = canonicalText w := by
  unfold canonicalText
  rw [h]

/-- The canonical string depends on the canonical texts of the values only. -/
theorem canonicalize_congr {fs gs : List (String × Json)}
    (h : fs.map (fun e => (e.1, canonicalText e.2)) = gs.map fun e => (e.1, canonicalText e.2)) :
    canonicalize fs = canonicalize gs := by
  unfold canonicalize
  rw [canonicalString_inj, canonicalText_obj, canonicalText_obj, h]

/-- Two canonicalizations that agree come from maps with the same entries, up to
the canonical texts of the values. -/
theorem canonicalize_inj {fs gs : List (String × Json)} (h : canonicalize fs = canonicalize gs) :
    (fs.map fun e => (e.1, canonicalText e.2)).Perm (gs.map fun e => (e.1, canonicalText e.2)) := by
  have htext := canonicalString_inj.1 h
  rw [canonicalText_obj, canonicalText_obj] at htext
  have hsort := JsonText.obj.inj htext
  have hfs := Utf16.sortByKey_perm (fs.map fun e => (e.1, canonicalText e.2))
  have hgs := Utf16.sortByKey_perm (gs.map fun e => (e.1, canonicalText e.2))
  -- sorting gives one list from both, so each is a permutation of the other
  rw [hsort] at hfs
  exact hfs.symm.trans hgs

end CanonicalJson

end ClaimGuard
