import ClaimGuard.Features
import ClaimGuard.Resolution

/-!
# The training set

`build_dataset` and `temporal_split`. The dataset takes each row from one of three graphs,
which it tells apart by what the earlier ones contain; the split tells the rows apart again,
by the ISO texts of their dates.
-/

namespace ClaimGuard

/-! ## Dates -/

/-- `date + timedelta(days=n)`. -/
def LocalDate.plusDays (date : LocalDate) (n : ℕ) : LocalDate := ⟨date.epochDay + n⟩

/-- `date.isoformat()`. -/
def LocalDate.isoformat (date : LocalDate) : String := Calendar.isoFormat date.toordinal.toNat

example : (⟨20454⟩ : LocalDate).isoformat = "2026-01-01" := by decide +kernel

/-- Dates in range are in the order of their texts. -/
theorem LocalDate.isoformat_le_iff {date other : LocalDate} (h : date.InRange)
    (h' : other.InRange) : date.isoformat ≤ other.isoformat ↔ date.Le other := by
  obtain ⟨hpos, hmax⟩ := h
  obtain ⟨hpos', hmax'⟩ := h'
  unfold LocalDate.isoformat
  rw [Calendar.isoFormat_strictMonoOn.le_iff_le ⟨by omega, by omega⟩ ⟨by omega, by omega⟩]
  unfold LocalDate.Le LocalDate.toordinal at *
  omega

/-! ## The boundaries of the split -/

/-- `EPOCH`. -/
def epoch : LocalDate := ⟨20454⟩

/-- `DAY_SPAN`. -/
def daySpan : ℕ := 240

/-- A literal, or the result of an operation: the nearest double. -/
def double (q : ℚ) : ℚ := ((Binary64.round q).map Binary64.Magnitude.value).getD 0

/-- `TRAIN_FRACTION`. -/
def trainFraction : ℚ := double (6 / 10)

/-- `VAL_FRACTION`. -/
def valFraction : ℚ := double (2 / 10)

/-- `split_day_offsets`. -/
def splitDayOffsets : ℕ × ℕ :=
  (⌊double (daySpan * trainFraction)⌋₊, ⌊double (daySpan * double (trainFraction + valFraction))⌋₊)

theorem splitDayOffsets_eq : splitDayOffsets = (144, 192) := by decide +kernel

/-- `train_end_date`. -/
def trainEndDate : LocalDate := epoch.plusDays splitDayOffsets.1

/-- `val_end_date`. -/
def valEndDate : LocalDate := epoch.plusDays splitDayOffsets.2

theorem trainEndDate_eq : trainEndDate = ⟨20598⟩ := by
  unfold trainEndDate
  rw [splitDayOffsets_eq]
  rfl

theorem valEndDate_eq : valEndDate = ⟨20646⟩ := by
  unfold valEndDate
  rw [splitDayOffsets_eq]
  rfl

/-! ## The dataset -/

variable {F : Type}

/-- A session with the database: the rows that it answers to the two queries of
`build_graph`, for each cutoff. -/
structure Session (F : Type) where
  links : Option LocalDate → List LinkRow
  claimAttributes : Option LocalDate → List (String × F × LocalDate)

/-- `build_graph(session, as_of)`. -/
def Session.graph (s : Session F) (idfWeight : ℕ → F) (asOf : Option LocalDate) : Graph F :=
  buildGraph idfWeight (s.links asOf) (s.claimAttributes asOf)

/-- The session answers from the database; neither query asks for an order. -/
structure Session.Answers (float : BigDecimal → F) (db : Db) (s : Session F) : Prop where
  links : ∀ asOf, (s.links asOf).Perm (fetchLinks db asOf)
  claimAttributes : ∀ asOf, (s.claimAttributes asOf).Perm (fetchClaimAttributes float db asOf)

/-- The dictionary of some items has the key. -/
def hasKey {ν : Type} (items : List (String × ν)) (name : String) : Bool :=
  decide (name ∈ items.map Prod.fst)

/-- A row of the data frame, with its index. -/
structure DatasetRow (F : Type) where
  claimId : String
  features : FeatureRow F
  label : ℕ

/-- What `build_dataset` returns. -/
structure Dataset (F : Type) where
  df : List (DatasetRow F)
  incidentDates : List (String × Option String)

variable [Floats F]

section

variable (ig : Igraph F) (idfWeight : ℕ → F) (s : Session F)

/-- `train_rows`. -/
def trainRows : List (String × Option (FeatureRow F)) :=
  extractFeaturesBulk ig (s.graph idfWeight (some trainEndDate))

/-- `val_rows`. -/
def valRows : List (String × Option (FeatureRow F)) :=
  (extractFeaturesBulk ig (s.graph idfWeight (some valEndDate))).filter fun item =>
    !hasKey (trainRows ig idfWeight s) item.1

/-- `test_rows`. -/
def testRows : List (String × Option (FeatureRow F)) :=
  (extractFeaturesBulk ig (s.graph idfWeight none)).filter fun item =>
    !hasKey (trainRows ig idfWeight s) item.1 && !hasKey (valRows ig idfWeight s) item.1

/-- `build_dataset`, `none` when it raises: a row of the data frame is made from the items
of a dictionary, and `None` has none. -/
def buildDataset (groundTruth : List (String × String)) : Option (Dataset F) := do
  let gFull := s.graph idfWeight none
  -- no key is in two of the three
  let featureRows := trainRows ig idfWeight s ++ valRows ig idfWeight s ++ testRows ig idfWeight s
  let incidentDates := (gFull.vertices.filter fun v => decide (v.kind = .claim)).map fun v =>
    (v.name, v.incidentDate.map LocalDate.isoformat)
  let df ← featureRows.mapM fun item => item.2.map fun features =>
    (⟨item.1, features, if hasKey groundTruth item.1 then 1 else 0⟩ : DatasetRow F)
  pure ⟨df, incidentDates⟩

end

omit [Floats F]

/-- The ids of the dates that satisfy a comparison; a missing date satisfies none. -/
def selectDates (dates : List (String × Option String)) (p : String → Bool) : List String :=
  (dates.filter fun item => item.2.any p).map Prod.fst

/-- `temporal_split`: `train_ids`, `val_ids` and `test_ids`. -/
def temporalSplit (df : List (DatasetRow F)) (incidentDates : List (String × Option String)) :
    List String × List String × List String :=
  let trainEndDate := trainEndDate.isoformat
  let valEndDate := valEndDate.isoformat
  let dates := df.map fun row => (row.claimId, (Dict.get incidentDates row.claimId).join)
  (selectDates dates fun date => decide (date ≤ trainEndDate),
    selectDates dates fun date => decide (trainEndDate < date) && decide (date ≤ valEndDate),
    selectDates dates fun date => decide (valEndDate < date))

/-- `df.loc[ids, ALL_FEATURES]`, with its index. -/
def loc (df : List (DatasetRow F)) (ids : List String) : List (String × FeatureRow F) :=
  (ids.flatMap fun id => df.filter fun row => decide (row.claimId = id)).map fun row =>
    (row.claimId, row.features)

end ClaimGuard
