import ClaimGuard.TrainModel

/-!
# No later claim in an earlier row

The three periods, and what a row of the dataset depends on. The sets that the dataset tells
apart by its graphs are those that the split tells apart by dates, and the row of a claim
is computed from the claims up to the end of its own period.
-/

namespace ClaimGuard

/-! ## Periods -/

/-- The periods of the split, in their order. -/
inductive Period where
  | train
  | val
  | test
deriving DecidableEq

namespace Period

/-- The end of a period; the last has none. -/
def asOf : Period → Option LocalDate
  | .train => some trainEndDate
  | .val => some valEndDate
  | .test => none

/-- The period of a date: the first that does not end before it. -/
def of (date : LocalDate) : Period :=
  if date.Le trainEndDate then .train
  else if date.Le valEndDate then .val
  else .test

/-- The comparison by which `temporal_split` selects the period. -/
def selects : Period → String → Bool
  | .train => fun date => decide (date ≤ trainEndDate.isoformat)
  | .val => fun date =>
      decide (trainEndDate.isoformat < date) && decide (date ≤ valEndDate.isoformat)
  | .test => fun date => decide (valEndDate.isoformat < date)

/-- The period's component of a split. -/
def idsOf : Period → List String × List String × List String → List String
  | .train => fun split => split.1
  | .val => fun split => split.2.1
  | .test => fun split => split.2.2

end Period

theorem le_valEndDate {date : LocalDate} (h : date.Le trainEndDate) : date.Le valEndDate := by
  rw [trainEndDate_eq] at h
  rw [valEndDate_eq]
  simp only [LocalDate.Le] at *
  omega

theorem inRange_trainEndDate : trainEndDate.InRange := by
  rw [trainEndDate_eq]
  constructor <;> decide

theorem inRange_valEndDate : valEndDate.InRange := by
  rw [valEndDate_eq]
  constructor <;> decide

namespace Period

variable {date : LocalDate}

theorem of_eq_train : Period.of date = .train ↔ date.Le trainEndDate := by
  unfold Period.of
  split_ifs with htrain hval
  · simp [htrain]
  · simp [htrain]
  · simp [htrain]

theorem of_eq_val : Period.of date = .val ↔ ¬ date.Le trainEndDate ∧ date.Le valEndDate := by
  unfold Period.of
  split_ifs with htrain hval
  · simp [htrain]
  · simp [htrain, hval]
  · simp [hval]

theorem of_eq_test : Period.of date = .test ↔ ¬ date.Le valEndDate := by
  unfold Period.of
  split_ifs with htrain hval
  · simp [le_valEndDate htrain]
  · simp [hval]
  · simp [hval]

/-- The comparisons of texts select by the period of the date. -/
theorem selects_iff (h : date.InRange) (p : Period) :
    p.selects date.isoformat = true ↔ Period.of date = p := by
  have htrain := LocalDate.isoformat_le_iff h inRange_trainEndDate
  have hval := LocalDate.isoformat_le_iff h inRange_valEndDate
  cases p with
  | train => simp only [selects, decide_eq_true_eq, htrain, of_eq_train]
  | val =>
      simp only [selects, Bool.and_eq_true, decide_eq_true_eq, ← not_le, htrain, hval, of_eq_val]
  | test => simp only [selects, decide_eq_true_eq, ← not_le, hval, of_eq_test]

end Period

/-- The set of a period is selected by its comparison. -/
theorem idsOf_temporalSplit {F : Type} (p : Period) (df : List (DatasetRow F))
    (incidentDates : List (String × Option String)) :
    p.idsOf (temporalSplit df incidentDates) =
      (df.filter fun row => (Dict.get incidentDates row.claimId).join.any p.selects).map
        DatasetRow.claimId := by
  have hselect : ∀ q : String → Bool,
      selectDates (df.map fun row => (row.claimId, (Dict.get incidentDates row.claimId).join)) q =
        (df.filter fun row => (Dict.get incidentDates row.claimId).join.any q).map
          DatasetRow.claimId := by
    intro q
    simp only [selectDates, List.filter_map, List.map_map, Function.comp_def]
  cases p with
  | train => exact hselect _
  | val => exact hselect _
  | test => exact hselect _

/-! ## Rows of a graph -/

section

variable {F : Type} [Floats F] {ig : Igraph F} {idfWeight : ℕ → F} {links : List LinkRow}
  {claimAttrs : List (String × F × LocalDate)}

/-- There is a row for each claim of the graph. -/
theorem extractFeaturesBulk_keys (ig : Igraph F) (idfWeight : ℕ → F) (links : List LinkRow)
    (claimAttrs : List (String × F × LocalDate)) :
    (extractFeaturesBulk ig (buildGraph idfWeight links claimAttrs)).map Prod.fst =
      claimNames links := by
  unfold extractFeaturesBulk
  simp only [filter_claim_vertices, List.map_map, Function.comp_def, claimVertex, List.map_id']

/-- A claim vertex has features when names are distinct. -/
theorem exists_extractFeatures {g : Graph F} (hnames : (g.vertices.map Vertex.name).Nodup)
    {v : Vertex F} (hv : v ∈ g.vertices) (hkind : v.kind = .claim) :
    ∃ row, extractFeatures ig (buildFeatureContext ig g) v.name = some row := by
  rcases List.mem_iff_getElem?.1 hv with ⟨i, hi⟩
  have hindex : Dict.get (buildFeatureContext ig g).nameToIndex v.name = some i := by
    have hname : (g.vertices.map Vertex.name)[i]? = some v.name := by
      rw [List.getElem?_map, hi, Option.map_some]
    have hzip : g.nameToIndex = (g.vertices.map Vertex.name).zipIdx := by
      rw [List.zipIdx_map]
      rfl
    show Dict.get g.nameToIndex v.name = some i
    rw [hzip]
    exact Dict.get_zipIdx hnames hname
  have hvertex : (buildFeatureContext ig g).g.vertices[i]? = some v := hi
  refine ⟨tabularFeatures v ++ graphFeatures ig (buildFeatureContext ig g) v.name i, ?_⟩
  unfold extractFeatures
  simp only [hindex, hvertex, hkind, ne_eq, not_true_eq_false, if_false]

/-- Each row of the bulk is complete when ids of claims and entities are apart. -/
theorem exists_features (hapart : ∀ r ∈ links, ∀ s ∈ links, r.claimId ≠ s.entityId)
    {item : String × Option (FeatureRow F)}
    (hitem : item ∈ extractFeaturesBulk ig (buildGraph idfWeight links claimAttrs)) :
    ∃ row, item.2 = some row := by
  rcases List.mem_map.1 hitem with ⟨v, hv, rfl⟩
  rcases List.mem_filter.1 hv with ⟨hmem, hkind⟩
  refine exists_extractFeatures ?_ hmem (of_decide_eq_true hkind)
  rw [vertices_names]
  exact nodup_allNames hapart

end

/-! ## Rows of a period -/

/-- What the schema, the drawing of ids and the driver promise of a database: primary keys
are unique, a link refers to an entity, no entity has the id of a claim, and Python has the
dates. -/
structure Db.Trainable (db : Db) : Prop where
  claimIds : Table.UniqueKeys Claim.id db.claims
  entityOf : ∀ l ∈ db.claimEntities, ∃ e ∈ db.entities, e.id = l.id.entityId
  apart : ∀ claim ∈ db.claims, ∀ e ∈ db.entities, claim.id ≠ e.id
  dates : ∀ claim ∈ db.claims, claim.incidentDate.InRange

/-- The rows that `build_dataset` takes for a period. -/
def periodRows {F : Type} [Floats F] (ig : Igraph F) (idfWeight : ℕ → F) (s : Session F) :
    Period → List (String × Option (FeatureRow F))
  | .train => trainRows ig idfWeight s
  | .val => valRows ig idfWeight s
  | .test => testRows ig idfWeight s

section

variable {F : Type} {float : BigDecimal → F} {db : Db} {s : Session F} (hdb : db.Trainable)
  (hs : s.Answers float db)

include hs

/-- What a row of the first query joins. -/
theorem Session.Answers.row {asOf : Option LocalDate} {r : LinkRow} (hr : r ∈ s.links asOf) :
    (∃ claim ∈ db.claims, db.IsLinked claim.id ∧ isWithin asOf claim = true ∧
      claim.id = r.claimId) ∧ ∃ e ∈ db.entities, e.id = r.entityId := by
  rcases List.mem_filterMap.1 ((hs.links asOf).mem_iff.1 hr) with ⟨l, hl, hrow⟩
  unfold linkRow at hrow
  split at hrow
  · rename_i e c he hc
    split at hrow
    · rename_i hwithin
      rcases Option.some.inj hrow with rfl
      rcases Table.find_eq_some he with ⟨hemem, heid⟩
      rcases Table.find_eq_some hc with ⟨hcmem, hcid⟩
      exact ⟨⟨c, hcmem, ⟨l, hl, hcid.symm⟩, hwithin, hcid⟩, e, hemem, heid⟩
    · cases hrow
  · cases hrow

include hdb

/-- The ids of claims and entities in the rows are apart. -/
theorem Session.Answers.apart {asOf : Option LocalDate} :
    ∀ r ∈ s.links asOf, ∀ r' ∈ s.links asOf, r.claimId ≠ r'.entityId := by
  intro r hr r' hr'
  rcases (hs.row hr).1 with ⟨claim, hclaim, -, -, hcid⟩
  rcases (hs.row hr').2 with ⟨e, he, heid⟩
  rw [← hcid, ← heid]
  exact hdb.apart claim hclaim e he

/-- A linked claim is in the graph exactly when it is within the cutoff. -/
theorem mem_claimNames_iff {claim : Claim} (hclaim : claim ∈ db.claims)
    (hlinked : db.IsLinked claim.id) {asOf : Option LocalDate} :
    claim.id.toString ∈ claimNames (s.links asOf) ↔ isWithin asOf claim = true := by
  rw [mem_claimNames]
  constructor
  · rintro ⟨r, hr, hname⟩
    rcases (hs.row hr).1 with ⟨c, hc, -, hwithin, hcid⟩
    have hid : c.id = claim.id := hcid.trans (UUID.toString_injective hname)
    rwa [← List.inj_on_of_nodup_map hdb.claimIds hc hclaim hid]
  · intro hwithin
    rcases hlinked with ⟨l, hl, hlid⟩
    rcases Option.isSome_iff_exists.1 (Table.find_isSome.2 (hdb.entityOf l hl)) with ⟨e, he⟩
    have hc : db.findById l.id.claimId = some claim := by
      rw [hlid]
      exact Table.find_of_mem hdb.claimIds hclaim
    refine ⟨⟨l.id.claimId, l.id.entityId, e.entityType, e.canonicalValue⟩, ?_, by rw [hlid]⟩
    refine (hs.links asOf).mem_iff.2 (List.mem_filterMap.2 ⟨l, hl, ?_⟩)
    unfold linkRow
    simp only [he, hc, hwithin, if_true]

omit hdb in
/-- A claim of the graph is a linked claim. -/
theorem exists_of_mem_claimNames {asOf : Option LocalDate} {name : String}
    (hname : name ∈ claimNames (s.links asOf)) :
    ∃ claim ∈ db.claims, db.IsLinked claim.id ∧ claim.id.toString = name := by
  rcases mem_claimNames.1 hname with ⟨r, hr, rfl⟩
  rcases (hs.row hr).1 with ⟨claim, hclaim, hlinked, -, hcid⟩
  exact ⟨claim, hclaim, hlinked, by rw [hcid]⟩

end

section

variable {F : Type} [Floats F] {ig : Igraph F} {idfWeight : ℕ → F} {float : BigDecimal → F}
  {db : Db} {s : Session F}

/-- The rows of a period are rows of the graph up to its end. -/
theorem periodRows_sublist (p : Period) :
    (periodRows ig idfWeight s p).Sublist
      (extractFeaturesBulk ig (s.graph idfWeight p.asOf)) := by
  cases p with
  | train => exact List.Sublist.refl _
  | val => exact List.filter_sublist
  | test => exact List.filter_sublist

theorem nodup_bulk_keys (asOf : Option LocalDate) :
    ((extractFeaturesBulk ig (s.graph idfWeight asOf)).map Prod.fst).Nodup := by
  unfold Session.graph
  rw [extractFeaturesBulk_keys]
  exact nodup_sortedNames _

theorem nodup_periodRows (p : Period) :
    ((periodRows ig idfWeight s p).map Prod.fst).Nodup :=
  (nodup_bulk_keys p.asOf).sublist ((periodRows_sublist p).map _)

/-- A row of a period is what the graph up to the end of the period gives. -/
theorem get_of_mem_periodRows {p : Period} {item : String × Option (FeatureRow F)}
    (hitem : item ∈ periodRows ig idfWeight s p) :
    Dict.get (extractFeaturesBulk ig (s.graph idfWeight p.asOf)) item.1 = some item.2 :=
  (Dict.get_eq_some_iff (nodup_bulk_keys p.asOf)).2 ((periodRows_sublist p).subset hitem)

theorem mem_trainRows_keys {name : String} :
    name ∈ (trainRows ig idfWeight s).map Prod.fst ↔
      name ∈ claimNames (s.links (some trainEndDate)) := by
  unfold trainRows Session.graph
  rw [extractFeaturesBulk_keys]

theorem mem_valRows_keys {name : String} :
    name ∈ (valRows ig idfWeight s).map Prod.fst ↔
      name ∈ claimNames (s.links (some valEndDate)) ∧
        name ∉ claimNames (s.links (some trainEndDate)) := by
  unfold valRows
  rw [Dict.mem_filter_keys (q := fun name => !hasKey (trainRows ig idfWeight s) name)]
  unfold Session.graph hasKey
  rw [extractFeaturesBulk_keys]
  simp only [Bool.not_eq_true', decide_eq_false_iff_not, mem_trainRows_keys]

theorem mem_testRows_keys {name : String} :
    name ∈ (testRows ig idfWeight s).map Prod.fst ↔ name ∈ claimNames (s.links none) ∧
      name ∉ claimNames (s.links (some trainEndDate)) ∧
        name ∉ (valRows ig idfWeight s).map Prod.fst := by
  unfold testRows
  rw [Dict.mem_filter_keys (q := fun name => !hasKey (trainRows ig idfWeight s) name &&
    !hasKey (valRows ig idfWeight s) name)]
  unfold Session.graph hasKey
  rw [extractFeaturesBulk_keys]
  simp only [Bool.and_eq_true, Bool.not_eq_true', decide_eq_false_iff_not, mem_trainRows_keys]

/-- The rows of a period are those of linked claims. -/
theorem exists_of_mem_periodRows (hs : s.Answers float db) {p : Period}
    {item : String × Option (FeatureRow F)} (hitem : item ∈ periodRows ig idfWeight s p) :
    ∃ claim ∈ db.claims, db.IsLinked claim.id ∧ claim.id.toString = item.1 := by
  have hkey : item.1 ∈ claimNames (s.links p.asOf) := by
    rw [← extractFeaturesBulk_keys ig idfWeight _ (s.claimAttributes p.asOf)]
    exact List.mem_map_of_mem ((periodRows_sublist p).subset hitem)
  exact exists_of_mem_claimNames hs hkey

variable (hdb : db.Trainable) (hs : s.Answers float db)

include hdb hs

/-- A linked claim has a row in its own period and in no other. -/
theorem mem_periodRows_keys (ig : Igraph F) (idfWeight : ℕ → F) {claim : Claim}
    (hclaim : claim ∈ db.claims) (hlinked : db.IsLinked claim.id) (p : Period) :
    claim.id.toString ∈ (periodRows ig idfWeight s p).map Prod.fst ↔
      Period.of claim.incidentDate = p := by
  have htrain : claim.id.toString ∈ claimNames (s.links (some trainEndDate)) ↔
      claim.incidentDate.Le trainEndDate := by
    rw [mem_claimNames_iff hdb hs hclaim hlinked]
    exact decide_eq_true_iff
  have hval : claim.id.toString ∈ claimNames (s.links (some valEndDate)) ↔
      claim.incidentDate.Le valEndDate := by
    rw [mem_claimNames_iff hdb hs hclaim hlinked]
    exact decide_eq_true_iff
  have hfull : claim.id.toString ∈ claimNames (s.links none) :=
    (mem_claimNames_iff hdb hs hclaim hlinked).2 rfl
  cases p with
  | train =>
      show _ ∈ (trainRows ig idfWeight s).map Prod.fst ↔ _
      rw [mem_trainRows_keys, htrain, Period.of_eq_train]
  | val =>
      show _ ∈ (valRows ig idfWeight s).map Prod.fst ↔ _
      rw [mem_valRows_keys, htrain, hval, Period.of_eq_val]
      exact and_comm
  | test =>
      show _ ∈ (testRows ig idfWeight s).map Prod.fst ↔ _
      rw [mem_testRows_keys, mem_valRows_keys, htrain, hval, Period.of_eq_test]
      have hle : claim.incidentDate.Le trainEndDate → claim.incidentDate.Le valEndDate :=
        le_valEndDate
      constructor
      · rintro ⟨-, htrain', hval'⟩ hin
        exact hval' ⟨hin, htrain'⟩
      · intro hnot
        exact ⟨hfull, fun hin => hnot (hle hin), fun hin => hnot hin.1⟩

end

/-! ## The data frame -/

section

variable {F : Type} [Floats F] {ig : Igraph F} {idfWeight : ℕ → F} {float : BigDecimal → F}
  {db : Db} {s : Session F} {groundTruth : List (String × String)}

/-- The rows of the three periods. -/
def featureRows (ig : Igraph F) (idfWeight : ℕ → F) (s : Session F) :
    List (String × Option (FeatureRow F)) :=
  periodRows ig idfWeight s .train ++ periodRows ig idfWeight s .val ++
    periodRows ig idfWeight s .test

theorem mem_featureRows {item : String × Option (FeatureRow F)} :
    item ∈ featureRows ig idfWeight s ↔ ∃ p, item ∈ periodRows ig idfWeight s p := by
  unfold featureRows
  rw [List.mem_append, List.mem_append]
  constructor
  · rintro ((h | h) | h)
    · exact ⟨.train, h⟩
    · exact ⟨.val, h⟩
    · exact ⟨.test, h⟩
  · rintro ⟨p, h⟩
    cases p with
    | train => exact Or.inl (Or.inl h)
    | val => exact Or.inl (Or.inr h)
    | test => exact Or.inr h

omit [Floats F] in
/-- A row of the data frame. -/
def datasetRow (groundTruth : List (String × String)) (item : String × Option (FeatureRow F)) :
    DatasetRow F where
  claimId := item.1
  features := item.2.getD []
  label := if hasKey groundTruth item.1 then 1 else 0

omit [Floats F] in
/-- The dates that `build_dataset` returns. -/
def incidentDates (s : Session F) : List (String × Option String) :=
  (claimNames (s.links none)).map fun name =>
    (name, (claimVertex (s.claimAttributes none) name).incidentDate.map LocalDate.isoformat)

section

variable (hdb : db.Trainable) (hs : s.Answers float db)

include hdb hs

theorem features_of_mem {item : String × Option (FeatureRow F)}
    (hitem : item ∈ featureRows ig idfWeight s) : ∃ row, item.2 = some row := by
  rcases mem_featureRows.1 hitem with ⟨p, hp⟩
  exact exists_features (hs.apart hdb) ((periodRows_sublist p).subset hp)

/-- The dataset is built, from the rows of the three periods. -/
theorem buildDataset_eq (groundTruth : List (String × String)) :
    buildDataset ig idfWeight s groundTruth =
      some ⟨(featureRows ig idfWeight s).map (datasetRow groundTruth), incidentDates s⟩ := by
  have hrows : (trainRows ig idfWeight s ++ valRows ig idfWeight s ++
      testRows ig idfWeight s).mapM (fun item => item.2.map fun features =>
        (⟨item.1, features, if hasKey groundTruth item.1 then 1 else 0⟩ : DatasetRow F)) =
      some ((featureRows ig idfWeight s).map (datasetRow groundTruth)) := by
    apply Results.mapM_eq_some
    intro item hitem
    rcases features_of_mem hdb hs hitem with ⟨row, hrow⟩
    simp only [datasetRow, hrow, Option.map_some, Option.getD_some]
  unfold buildDataset Session.graph
  simp only [hrows, filter_claim_vertices, List.map_map, Function.comp_def]
  rfl

omit [Floats F] in
/-- The date of a linked claim. -/
theorem get_incidentDates {claim : Claim} (hclaim : claim ∈ db.claims)
    (hlinked : db.IsLinked claim.id) :
    Dict.get (incidentDates s) claim.id.toString = some (some claim.incidentDate.isoformat) := by
  have hattrs := get_claimAttributes hdb.claimIds (hs.claimAttributes none) hclaim rfl
  have hkeys : ((incidentDates s).map Prod.fst).Nodup := by
    simp only [incidentDates, List.map_map, Function.comp_def, List.map_id']
    exact nodup_sortedNames _
  rw [Dict.get_eq_some_iff hkeys]
  refine List.mem_map.2 ⟨claim.id.toString,
    (mem_claimNames_iff hdb hs hclaim hlinked).2 rfl, ?_⟩
  simp only [claimVertex, hattrs, Option.map_some]

/-- A period has the rows that its comparison selects. -/
theorem filter_periodRows (p q : Period) :
    ((periodRows ig idfWeight s q).filter fun item =>
      (Dict.get (incidentDates s) item.1).join.any p.selects) =
      if q = p then periodRows ig idfWeight s q else [] := by
  have hselects : ∀ item ∈ periodRows ig idfWeight s q,
      ((Dict.get (incidentDates s) item.1).join.any p.selects = true ↔ q = p) := by
    intro item hitem
    rcases exists_of_mem_periodRows hs hitem with ⟨claim, hclaim, hlinked, hname⟩
    have hperiod : Period.of claim.incidentDate = q := by
      rw [← mem_periodRows_keys hdb hs ig idfWeight hclaim hlinked, hname]
      exact List.mem_map_of_mem hitem
    rw [← hname, get_incidentDates hdb hs hclaim hlinked]
    show p.selects claim.incidentDate.isoformat = true ↔ _
    rw [Period.selects_iff (hdb.dates claim hclaim), hperiod]
  split
  · rename_i heq
    rw [List.filter_eq_self]
    intro item hitem
    exact (hselects item hitem).2 heq
  · rename_i hne
    rw [List.filter_eq_nil_iff]
    intro item hitem hselected
    exact hne ((hselects item hitem).1 hselected)

/-- The set of a period is the set of its rows. -/
theorem idsOf_dataset (p : Period) :
    p.idsOf (temporalSplit ((featureRows ig idfWeight s).map (datasetRow groundTruth))
      (incidentDates s)) = (periodRows ig idfWeight s p).map Prod.fst := by
  have hfilter : ((featureRows ig idfWeight s).filter fun item =>
      (Dict.get (incidentDates s) item.1).join.any p.selects) = periodRows ig idfWeight s p := by
    unfold featureRows
    simp only [List.filter_append, filter_periodRows hdb hs]
    cases p <;> simp
  rw [idsOf_temporalSplit, List.filter_map, List.map_map]
  show ((featureRows ig idfWeight s).filter fun item =>
    (Dict.get (incidentDates s) item.1).join.any p.selects).map Prod.fst = _
  rw [hfilter]

/-- No claim has two rows. -/
theorem nodup_featureRows : ((featureRows ig idfWeight s).map Prod.fst).Nodup := by
  -- a key of two periods would be the name of a claim with two periods
  have happart : ∀ p q : Period, p ≠ q →
      ((periodRows ig idfWeight s p).map Prod.fst).Disjoint
        ((periodRows ig idfWeight s q).map Prod.fst) := by
    intro p q hne name hp hq
    rcases List.mem_map.1 hp with ⟨item, hitem, rfl⟩
    rcases exists_of_mem_periodRows hs hitem with ⟨claim, hclaim, hlinked, hname⟩
    rw [← hname, mem_periodRows_keys hdb hs ig idfWeight hclaim hlinked] at hp hq
    exact hne (hp.symm.trans hq)
  unfold featureRows
  rw [List.map_append, List.map_append]
  refine ((nodup_periodRows .train).append (nodup_periodRows .val)
    (happart .train .val (by simp))).append (nodup_periodRows .test) ?_
  rw [List.disjoint_append_left]
  exact ⟨happart .train .test (by simp), happart .val .test (by simp)⟩

/-- A row is found by its claim. -/
theorem filter_dataset {item : String × Option (FeatureRow F)}
    (hitem : item ∈ featureRows ig idfWeight s) :
    (((featureRows ig idfWeight s).map (datasetRow groundTruth)).filter fun row =>
      decide (row.claimId = item.1)) = [datasetRow groundTruth item] := by
  have hkeys : Table.UniqueKeys DatasetRow.claimId
      ((featureRows ig idfWeight s).map (datasetRow groundTruth)) := by
    unfold Table.UniqueKeys
    rw [List.map_map]
    exact nodup_featureRows hdb hs
  exact Table.filter_key hkeys (List.mem_map_of_mem hitem)

/-- The features of the set of a period are its rows. -/
theorem loc_dataset (p : Period) :
    loc ((featureRows ig idfWeight s).map (datasetRow groundTruth))
      ((periodRows ig idfWeight s p).map Prod.fst) =
      (periodRows ig idfWeight s p).map fun item => (item.1, item.2.getD []) := by
  have hrows : ((periodRows ig idfWeight s p).map Prod.fst).flatMap (fun id =>
      ((featureRows ig idfWeight s).map (datasetRow groundTruth)).filter fun row =>
        decide (row.claimId = id)) =
      (periodRows ig idfWeight s p).map (datasetRow groundTruth) := by
    rw [List.flatMap_map]
    refine Eq.trans (List.flatMap_congr fun item hitem => ?_) List.map_eq_flatMap.symm
    exact filter_dataset hdb hs (mem_featureRows.2 ⟨p, hitem⟩)
  unfold loc
  rw [hrows, List.map_map]
  rfl

end

end

/-! ## Later claims -/

/-- Two databases and their sessions agree up to a date: they have the same claims, and the
links of these are answered alike and in the same order. -/
structure AgreeUpTo {F : Type} (date : LocalDate) (db db' : Db) (s s' : Session F) : Prop where
  claims : ∀ claim : Claim, claim.incidentDate.Le date → (claim ∈ db.claims ↔ claim ∈ db'.claims)
  links : s.links (some date) = s'.links (some date)

namespace AgreeUpTo

section

variable {F : Type} {float : BigDecimal → F} {date : LocalDate} {db db' : Db} {s s' : Session F}

theorem symm (h : AgreeUpTo date db db' s s') : AgreeUpTo date db' db s' s :=
  ⟨fun claim hle => (h.claims claim hle).symm, h.links.symm⟩

variable (h : AgreeUpTo date db db' s s') (hdb : db.Trainable) (hs : s.Answers float db)
  (hdb' : db'.Trainable) (hs' : s'.Answers float db')

include h hdb hs hdb' hs'

/-- A claim of an earlier graph is in the other session's earlier graph. -/
theorem claimNames_imp {earlier : LocalDate} (hearlier : ∀ d : LocalDate, d.Le earlier → d.Le date)
    {name : String} (hname : name ∈ claimNames (s.links (some earlier))) :
    name ∈ claimNames (s'.links (some earlier)) := by
  rcases mem_claimNames.1 hname with ⟨r, hr, rfl⟩
  rcases (hs.row hr).1 with ⟨claim, hclaim, hlinked, hwithin, hcid⟩
  have hle : claim.incidentDate.Le earlier := of_decide_eq_true hwithin
  have hclaim' := (h.claims claim (hearlier _ hle)).1 hclaim
  -- the claim is linked in the other database, for the rows up to the date are the same
  have hlinked' : db'.IsLinked claim.id := by
    have hmem : claim.id.toString ∈ claimNames (s'.links (some date)) := by
      rw [← h.links, mem_claimNames_iff hdb hs hclaim hlinked]
      exact decide_eq_true (hearlier _ hle)
    rcases exists_of_mem_claimNames hs' hmem with ⟨c, -, hc, heq⟩
    rwa [← UUID.toString_injective heq]
  rw [← hcid, mem_claimNames_iff hdb' hs' hclaim' hlinked']
  exact hwithin

/-- The graphs up to the date are the same. -/
theorem graph_eq (idfWeight : ℕ → F) :
    s.graph idfWeight (some date) = s'.graph idfWeight (some date) := by
  have hclaims : (claimNames (s.links (some date))).map
      (claimVertex (s.claimAttributes (some date))) =
      (claimNames (s.links (some date))).map (claimVertex (s'.claimAttributes (some date))) := by
    apply List.map_congr_left
    intro name hname
    rcases mem_claimNames.1 hname with ⟨r, hr, rfl⟩
    rcases (hs.row hr).1 with ⟨claim, hclaim, -, hwithin, hcid⟩
    have hclaim' := (h.claims claim (of_decide_eq_true hwithin)).1 hclaim
    have hattrs := get_claimAttributes hdb.claimIds (hs.claimAttributes _) hclaim hwithin
    have hattrs' := get_claimAttributes hdb'.claimIds (hs'.claimAttributes _) hclaim' hwithin
    unfold claimVertex
    rw [← hcid, hattrs, hattrs']
  unfold Session.graph buildGraph
  rw [hclaims, h.links]

end

/-- The rows of a period that ends at the date are the same. -/
theorem periodRows_eq {F : Type} [Floats F] {float : BigDecimal → F} {date : LocalDate}
    {db db' : Db} {s s' : Session F} (h : AgreeUpTo date db db' s s') (hdb : db.Trainable)
    (hs : s.Answers float db) (hdb' : db'.Trainable) (hs' : s'.Answers float db')
    (ig : Igraph F) (idfWeight : ℕ → F) {p : Period} (hp : p.asOf = some date) :
    periodRows ig idfWeight s p = periodRows ig idfWeight s' p := by
  have hgraph := h.graph_eq hdb hs hdb' hs' idfWeight
  cases p with
  | train =>
      rcases Option.some.inj hp with rfl
      show trainRows ig idfWeight s = trainRows ig idfWeight s'
      unfold trainRows
      rw [hgraph]
  | val =>
      rcases Option.some.inj hp with rfl
      have hkeys : ∀ name, hasKey (trainRows ig idfWeight s) name =
          hasKey (trainRows ig idfWeight s') name := by
        intro name
        unfold hasKey
        rw [decide_eq_decide, mem_trainRows_keys, mem_trainRows_keys]
        constructor
        · exact h.claimNames_imp hdb hs hdb' hs' fun d hd => le_valEndDate hd
        · exact h.symm.claimNames_imp hdb' hs' hdb hs fun d hd => le_valEndDate hd
      show valRows ig idfWeight s = valRows ig idfWeight s'
      unfold valRows
      rw [hgraph]
      exact List.filter_congr fun item _ => by rw [hkeys]
  | test => cases hp

end AgreeUpTo

/-- No later claim in an earlier row. The dataset is built; a linked claim has one row in it
and is in one set of the split, once; its row is the one of the graph up to the end of that
set's period; and the rows of a period that ends are the same in all databases that agree up
to its end. -/
theorem no_temporal_leak {F : Type} [Floats F] (ig : Igraph F) (idfWeight : ℕ → F)
    (float : BigDecimal → F) (db : Db) (s : Session F) (groundTruth : List (String × String))
    (hdb : db.Trainable) (hs : s.Answers float db) :
    ∃ ds, buildDataset ig idfWeight s groundTruth = some ds ∧
      (∀ claim ∈ db.claims, db.IsLinked claim.id →
        ∃ row, (ds.df.filter fun r => decide (r.claimId = claim.id.toString)) = [row] ∧
          ∃ p : Period,
            (∀ q : Period, (q.idsOf (temporalSplit ds.df ds.incidentDates)).count
              claim.id.toString = if q = p then 1 else 0) ∧
            Dict.get (extractFeaturesBulk ig (s.graph idfWeight p.asOf)) claim.id.toString =
              some (some row.features)) ∧
      ∀ (p : Period) (date : LocalDate) (db' : Db) (s' : Session F)
        (groundTruth' : List (String × String)) (ds' : Dataset F), p.asOf = some date →
        db'.Trainable → s'.Answers float db' → AgreeUpTo date db db' s s' →
        buildDataset ig idfWeight s' groundTruth' = some ds' →
        loc ds.df (p.idsOf (temporalSplit ds.df ds.incidentDates)) =
          loc ds'.df (p.idsOf (temporalSplit ds'.df ds'.incidentDates)) := by
  refine ⟨_, buildDataset_eq hdb hs groundTruth, ?_, ?_⟩
  · intro claim hclaim hlinked
    have hkey := (mem_periodRows_keys hdb hs ig idfWeight hclaim hlinked
      (Period.of claim.incidentDate)).2 rfl
    rcases List.mem_map.1 hkey with ⟨item, hitem, hname⟩
    have hmem := mem_featureRows.2 ⟨_, hitem⟩
    rcases features_of_mem hdb hs hmem with ⟨row, hrow⟩
    refine ⟨datasetRow groundTruth item, ?_, Period.of claim.incidentDate, ?_, ?_⟩
    · rw [← hname]
      exact filter_dataset hdb hs hmem
    · intro q
      rw [idsOf_dataset hdb hs, List.Nodup.count (nodup_periodRows q)]
      refine if_congr ?_ rfl rfl
      rw [mem_periodRows_keys hdb hs ig idfWeight hclaim hlinked]
      exact eq_comm
    · rw [← hname, get_of_mem_periodRows hitem]
      simp only [datasetRow, hrow, Option.getD_some]
  · intro p date db' s' groundTruth' ds' hp hdb' hs' hagree hds'
    rcases Option.some.inj ((buildDataset_eq hdb' hs' groundTruth').symm.trans hds') with rfl
    rw [idsOf_dataset hdb hs, idsOf_dataset hdb' hs', loc_dataset hdb hs, loc_dataset hdb' hs',
      hagree.periodRows_eq hdb hs hdb' hs' ig idfWeight hp]

namespace Sample

/-- A claim with a day. -/
def dated (id : UUID) (day : ℤ) : Claim where
  id := id
  claimantName := "Asha"
  policyNumber := "P-1"
  claimAmount := ⟨12500, 2⟩
  incidentDate := ⟨day⟩
  claimantPhone := "+919876500011"
  claimantAddress := "12 MG Rd"
  repairShopName := none
  status := .submitted

/-- The claims, which are all linked to one phone. -/
def onePhone (claims : List Claim) : Db :=
  { Db.empty with
    claims := claims
    entities := [⟨⟨9⟩, .phone, "+919876500011", claims.length, now⟩]
    claimEntities := claims.map fun c => ⟨⟨c.id, ⟨9⟩, "phone"⟩, c.claimantPhone⟩ }

/-- A claim on the last day of the first period. -/
def early : Db := onePhone [dated ⟨1⟩ 20598]

/-- The same, and claims on the days after the first two periods. -/
def late : Db := onePhone [dated ⟨1⟩ 20598, dated ⟨2⟩ 20599, dated ⟨3⟩ 20647]

/-- A session that answers in the order of the tables. -/
def session (db : Db) : Session Exact where
  links := fetchLinks db
  claimAttributes := fetchClaimAttributes (fun amount => ⟨amount.unscaled⟩) db

theorem session_answers (db : Db) :
    (session db).Answers (fun amount => ⟨amount.unscaled⟩) db :=
  ⟨fun _ => List.Perm.refl _, fun _ => List.Perm.refl _⟩

theorem trainable_onePhone {claims : List Claim} (hids : (claims.map Claim.id).Nodup)
    (hapart : ∀ claim ∈ claims, claim.id ≠ ⟨9⟩)
    (hdates : ∀ claim ∈ claims, claim.incidentDate.InRange) : (onePhone claims).Trainable := by
  refine ⟨hids, ?_, ?_, hdates⟩
  · intro l hl
    rcases List.mem_map.1 hl with ⟨claim, -, rfl⟩
    exact ⟨_, List.mem_singleton_self _, rfl⟩
  · intro claim hclaim e he
    rcases List.mem_singleton.1 he with rfl
    exact hapart claim hclaim

theorem trainable_early : early.Trainable := by
  apply trainable_onePhone <;> decide

theorem trainable_late : late.Trainable := by
  apply trainable_onePhone <;> decide

/-- The later claims are not on or before the day. -/
theorem agree_early_late : AgreeUpTo trainEndDate early late (session early) (session late) := by
  rw [trainEndDate_eq]
  constructor
  · intro claim hle
    show claim ∈ [dated ⟨1⟩ 20598] ↔ claim ∈ [dated ⟨1⟩ 20598, dated ⟨2⟩ 20599, dated ⟨3⟩ 20647]
    have hlater : ∀ id day, 20598 < day → claim ≠ dated id day := by
      rintro id day hday rfl
      simp only [LocalDate.Le, dated] at hle
      omega
    simp [hlater]
  · rfl

end Sample

/-- The phone of the first claim gets two more claims later, and the training row of the first
claim stays. -/
theorem no_temporal_leak_onePhone :
    ∃ ds ds', buildDataset Sample.ig (fun n => ⟨n⟩) (Sample.session Sample.early) [] = some ds ∧
      buildDataset Sample.ig (fun n => ⟨n⟩) (Sample.session Sample.late) [] = some ds' ∧
      loc ds.df (Period.train.idsOf (temporalSplit ds.df ds.incidentDates)) =
        loc ds'.df (Period.train.idsOf (temporalSplit ds'.df ds'.incidentDates)) := by
  obtain ⟨ds, hds, -, hsame⟩ := no_temporal_leak Sample.ig (fun n => ⟨n⟩) _ _ _ []
    Sample.trainable_early (Sample.session_answers Sample.early)
  obtain ⟨ds', hds', -⟩ := no_temporal_leak Sample.ig (fun n => ⟨n⟩) _ _ _ []
    Sample.trainable_late (Sample.session_answers Sample.late)
  exact ⟨ds, ds', hds, hds', hsame .train trainEndDate Sample.late (Sample.session Sample.late) []
    ds' rfl Sample.trainable_late (Sample.session_answers Sample.late) Sample.agree_early_late hds'⟩

end ClaimGuard
