import ClaimGuard.GeneratedClaims
import ClaimGuard.Lib.Csv
import ClaimGuard.Lib.Dict
import ClaimGuard.Lib.JsonRead
import Mathlib.Data.Finset.Sort

/-!
# The files of the demo data

The three files that the generator writes, what the trainer reads of two of them, and the
script that loads the third one into the database.
-/

namespace ClaimGuard

namespace GenRings

/-! ## What is written -/

/-- `writer.writerow` for each of the rows, under the names of their columns. -/
def csvText (columns : List String) (rows : List (List String)) : List Char :=
  Csv.write ((columns :: rows).map fun row => row.map String.toList)

/-- The columns of `claims.csv`. -/
def claimColumns : List String :=
  ["claim_id", "claimant_name", "policy_number", "claim_amount", "incident_date",
    "claimant_phone", "claimant_address", "repair_shop_name"]

/-- The row of a claim. -/
def claimFields (c : GeneratedClaim) : List String :=
  [c.claimId, c.claimantName, c.policyNumber, c.claimAmount, c.incidentDate, c.claimantPhone,
    c.claimantAddress, c.repairShopName]

/-- `write_claims_csv`. -/
def writeClaimsCsv (claims : List GeneratedClaim) : List Char :=
  csvText claimColumns (claims.map claimFields)

/-- The ids of the claims that are in a ring, with their rings. -/
def ringMembers (claims : List GeneratedClaim) : List (String × String) :=
  claims.filterMap fun c => c.ringId.map fun ringId => (c.claimId, ringId)

/-- `write_ground_truth_csv`. -/
def writeGroundTruthCsv (claims : List GeneratedClaim) : List Char :=
  csvText ["claim_id", "ring_id"] ((ringMembers claims).map fun item => [item.1, item.2])

/-- `write_held_out_rings_csv`: the set of the ids, sorted. -/
def writeHeldOutRingsCsv (heldOutRingIds : List String) : List Char :=
  csvText ["ring_id"] (heldOutRingIds.toFinset.sort.map fun ringId => [ringId])

/-! ## What the trainer reads -/

/-- `row[name]`, which may be missing at the end of a row. -/
def readColumn (name : String) (row : List (Csv.Field × Option Csv.Field)) :
    Option (Option String) :=
  (Dict.get row name.toList).map fun value => value.map String.ofList

/-- `load_ground_truth`: the items of the dictionary. -/
def loadGroundTruth (text : List Char) : Option (List (Option String × Option String)) := do
  let rows ← Csv.dictReader text
  rows.mapM fun row => do
    let claimId ← readColumn "claim_id" row
    let ringId ← readColumn "ring_id" row
    pure (claimId, ringId)

/-- `load_held_out_ring_ids`. -/
def loadHeldOutRingIds (text : List Char) : Option (Finset (Option String)) := do
  let rows ← Csv.dictReader text
  let ringIds ← rows.mapM (readColumn "ring_id")
  pure ringIds.toFinset

/-! ## What the database loads -/

/-- What PostgreSQL reads as a `UUID`, a `NUMERIC` and a `DATE`. -/
structure ColumnInputs where
  uuid : String → Option UUID
  numeric : String → Option BigDecimal
  date : String → Option LocalDate

/-- Printed values are read back: ids, amounts with two decimals that the column holds, and
dates in the ISO form. -/
structure ColumnInputs.Reads (inputs : ColumnInputs) : Prop where
  uuid : ∀ id : UUID, inputs.uuid id.toString = some id
  numeric : ∀ cents : ℕ, cents < 10 ^ 14 → inputs.numeric (amountText cents) = some ⟨cents, 2⟩
  date : ∀ date : LocalDate, date.InRange → inputs.date date.isoformat = some date

/-- A row of `claims_staging`. -/
structure StagedClaim where
  claimId : Option UUID
  claimantName : Option String
  policyNumber : Option String
  claimAmount : Option BigDecimal
  incidentDate : Option LocalDate
  claimantPhone : Option String
  claimantAddress : Option String
  repairShopName : Option String

/-- The value of a column; what its type does not read stops the command. -/
def stageColumn {α : Type} (input : String → Option α) (field : Option Csv.Field) :
    Option (Option α) :=
  match field with
  | none => some none
  | some field => (input (String.ofList field)).map some

/-- What a `TEXT` column reads. -/
def textInput (text : String) : Option String := if Db.isText text then some text else none

/-- `\copy claims_staging FROM`, for one row. -/
def stageRow (inputs : ColumnInputs) (row : List (Option Csv.Field)) : Option StagedClaim :=
  match row with
  | [claimId, claimantName, policyNumber, claimAmount, incidentDate, claimantPhone,
      claimantAddress, repairShopName] => do
      let claimId ← stageColumn inputs.uuid claimId
      let claimantName ← stageColumn textInput claimantName
      let policyNumber ← stageColumn textInput policyNumber
      let claimAmount ← stageColumn (fun text => (inputs.numeric text).bind fun amount =>
        amount.numeric 14 2) claimAmount
      let incidentDate ← stageColumn inputs.date incidentDate
      let claimantPhone ← stageColumn textInput claimantPhone
      let claimantAddress ← stageColumn textInput claimantAddress
      let repairShopName ← stageColumn textInput repairShopName
      pure { claimId, claimantName, policyNumber, claimAmount, incidentDate, claimantPhone,
             claimantAddress, repairShopName }
  | _ => none

/-- `\copy claims_staging FROM`: the whole file, or nothing of it. -/
def stage (inputs : ColumnInputs) (text : List Char) : Option (List StagedClaim) := do
  let rows ← Csv.copyFrom 8 text
  rows.mapM (stageRow inputs)

/-- What the `SELECT` makes of a row; `none` when a column that is `NOT NULL` would be null. -/
def StagedClaim.toClaim (s : StagedClaim) : Option Claim := do
  let id ← s.claimId
  let claimantName ← s.claimantName
  let policyNumber ← s.policyNumber
  let claimAmount ← s.claimAmount
  let incidentDate ← s.incidentDate
  let claimantPhone ← s.claimantPhone
  let claimantAddress ← s.claimantAddress
  pure { id, claimantName, policyNumber, claimAmount, incidentDate, claimantPhone,
         claimantAddress,
         -- `NULLIF(repair_shop_name, '')`
         repairShopName := s.repairShopName.filter fun name => decide (name ≠ ""),
         status := .submitted }

/-- `load_bulk.sql`: the database, and `rows_loaded`. When the file is not read, nothing is
staged, and when a column would be null, nothing is inserted; the script goes on. -/
def loadBulk (inputs : ColumnInputs) (db : Db) (text : List Char) : Db × ℕ :=
  let staged := (stage inputs text).getD []
  match staged.mapM StagedClaim.toClaim with
  | none => (db, staged.length)
  -- `ON CONFLICT (id) DO NOTHING`
  | some claims =>
      ({ db with claims := claims.foldl (Table.insertNew Claim.id) db.claims }, staged.length)

/-! ## Characters of the fields -/

variable {σ : Type} {rng : Rng σ}

/-- Of characters that are all visible, a text is plain. -/
theorem isPlain_of_visible {text : String} (hne : text.toList ≠ [])
    (h : ∀ c ∈ text.toList, ' ' < c ∧ c ≤ '~') : IsPlain text := by
  refine ⟨fun c hc => ⟨le_of_lt (h c hc).1, (h c hc).2⟩, ?_⟩
  rcases List.exists_mem_of_ne_nil _ hne with ⟨c, hc⟩
  exact ⟨c, hc, ne_of_gt (h c hc).1⟩

theorem visible_of_isDigit {c : Char} (h : c.isDigit = true) : ' ' < c ∧ c ≤ '~' := by
  obtain ⟨hlow, hhigh⟩ := printable_of_isDigit h
  refine ⟨lt_of_le_of_ne hlow ?_, hhigh⟩
  rintro rfl
  cases h

theorem isPlain_uuid (id : UUID) : IsPlain id.toString := by
  refine isPlain_of_visible ?_ fun c hc =>
    UUID.of_mem_toString (p := fun c => ' ' < c ∧ c ≤ '~') (by decide) (by decide) hc
  unfold UUID.toString UUID.chars
  rw [String.toList_ofList]
  simp

theorem isPlain_amountText (cents : ℕ) : IsPlain (amountText cents) := by
  have hplain : (amountText cents).toList =
      Text.decimal (cents / 10 ^ 2) ++ '.' :: Text.fixed 10 2 (cents % 10 ^ 2) := by
    unfold amountText
    rw [String.toList_ofList]
    rfl
  refine isPlain_of_visible ?_ ?_
  · rw [hplain]
    simp
  · intro c hc
    rw [hplain, List.mem_append, List.mem_cons] at hc
    rcases hc with hc | rfl | hc
    · exact visible_of_isDigit (Text.isDigit_of_mem_decimal hc)
    · decide
    · exact visible_of_isDigit (Text.isDigit_of_mem_fixed hc)

theorem isPlain_isoformat (date : LocalDate) : IsPlain date.isoformat := by
  unfold LocalDate.isoformat Calendar.isoFormat
  generalize Calendar.ofOrdinal date.toordinal.toNat = ymd
  refine isPlain_of_visible ?_ ?_
  · rw [String.toList_ofList]
    simp
  · intro c hc
    rw [String.toList_ofList] at hc
    simp only [List.mem_append, List.mem_cons] at hc
    rcases hc with hc | rfl | hc | rfl | hc
    · exact visible_of_isDigit (Text.isDigit_of_mem_fixed hc)
    · decide
    · exact visible_of_isDigit (Text.isDigit_of_mem_fixed hc)
    · decide
    · exact visible_of_isDigit (Text.isDigit_of_mem_fixed hc)

theorem IsMobile.isPlain {phone : String} (h : IsMobile phone) : IsPlain phone := by
  rcases h with ⟨lead, rest, hphone, hlead, -, hrest⟩
  have hleads : ∀ c ∈ ['6', '7', '8', '9'], c.isDigit = true := by
    simp only [List.mem_cons, List.not_mem_nil, or_false]
    rintro c (rfl | rfl | rfl | rfl) <;> rfl
  refine isPlain_of_visible ?_ ?_
  · rw [hphone]
    exact List.cons_ne_nil _ _
  · intro c hc
    rw [hphone] at hc
    simp only [List.mem_cons] at hc
    rcases hc with rfl | rfl | rfl | rfl | hc
    · decide
    · decide
    · decide
    · exact visible_of_isDigit (hleads _ hlead)
    · exact visible_of_isDigit (hrest c hc)

/-- Every field of a claim is plain. -/
theorem Sound.isPlain {low : ℕ} {c : GeneratedClaim} (h : Sound low c) {text : String}
    (htext : text ∈ claimFields c) : IsPlain text := by
  rcases h.claimId with ⟨id, hid⟩
  rcases h.claimAmount with ⟨cents, -, -, hamount⟩
  rcases h.incidentDate with ⟨day, -, -, hdate⟩
  simp only [claimFields, List.mem_cons, List.not_mem_nil, or_false] at htext
  rcases htext with rfl | rfl | rfl | rfl | rfl | rfl | rfl | rfl
  · rw [hid]
    exact isPlain_uuid id
  · exact h.claimantName
  · exact h.policyNumber
  · rw [hamount]
    exact isPlain_amountText cents
  · rw [hdate]
    exact isPlain_isoformat _
  · exact h.claimantPhone.isPlain
  · exact h.claimantAddress
  · exact h.repairShopName

theorem printable_fourDigits (i : ℕ) : Printable (fourDigits i) := by
  intro c hc
  rw [fourDigits, String.toList_ofList, List.mem_append] at hc
  rcases hc with hc | hc
  · rw [List.eq_of_mem_replicate hc]
    decide
  · exact printable_of_isDigit (Text.isDigit_of_mem_decimal hc)

theorem printable_ringName (i : ℕ) : Printable (ringName i) :=
  Printable.append (by decide) (printable_fourDigits i)

theorem printable_heldOutName (i : ℕ) : Printable (heldOutName i) :=
  Printable.append (by decide) (printable_fourDigits i)

theorem Planted.printable_ringId {args : Args} {out : Output} (h : Planted rng args out)
    {c : GeneratedClaim} (hc : c ∈ out.claims) {ringId : String} (hring : c.ringId = some ringId) :
    Printable ringId := by
  rcases h.named c hc ringId hring with ⟨i, -, rfl⟩ | ⟨i, -, rfl⟩
  · exact printable_ringName i
  · exact printable_heldOutName i

/-! ## The files read back -/

theorem Printable.oneLine {text : String} (h : Printable text) : Csv.OneLine text.toList :=
  ⟨fun hmem => absurd (h _ hmem).1 (by decide), fun hmem => absurd (h _ hmem).1 (by decide)⟩

theorem Printable.isText {text : String} (h : Printable text) : Db.isText text = true := by
  unfold Db.isText
  rw [Bool.not_eq_true', List.contains_eq_mem, decide_eq_false_iff_not]
  exact fun hmem => absurd (h _ hmem).1 (by decide)

theorem IsPlain.ne_nil {text : String} (h : IsPlain text) : text.toList ≠ [] := by
  rcases h.visible with ⟨c, hc, -⟩
  exact List.ne_nil_of_mem hc

section

variable {columns : List String} {rows : List (List String)}

theorem oneLine_of_printable (h : ∀ row ∈ rows, ∀ text ∈ row, Printable text) :
    ∀ row ∈ rows.map fun row => row.map String.toList, ∀ field ∈ row, Csv.OneLine field := by
  intro row hrow field hfield
  rcases List.mem_map.1 hrow with ⟨texts, htexts, rfl⟩
  rcases List.mem_map.1 hfield with ⟨text, htext, rfl⟩
  exact (h texts htexts text htext).oneLine

/-- Of printable texts Python reads what it wrote. -/
theorem dictReader_csvText (hne : columns ≠ []) (hlen : ∀ row ∈ rows, row.length = columns.length)
    (hprintable : ∀ row ∈ columns :: rows, ∀ text ∈ row, Printable text) :
    Csv.dictReader (csvText columns rows) = some (rows.map fun row =>
      (columns.map String.toList).zip (row.map fun text => some text.toList)) := by
  have hline := oneLine_of_printable hprintable
  have hlength : ∀ row ∈ rows.map fun row => row.map String.toList,
      row.length = (columns.map String.toList).length := by
    intro row hrow
    rcases List.mem_map.1 hrow with ⟨texts, htexts, rfl⟩
    rw [List.length_map, List.length_map, hlen texts htexts]
  have hread := Csv.dictReader_write (by simpa using hne) hlength
    fun row hrow field hfield => (hline row hrow field hfield).1
  rw [csvText, List.map_cons, hread, List.map_map]
  simp only [Function.comp_def, List.map_map]

/-- So does `COPY`. -/
theorem copyFrom_csvText (hcolumns : 2 ≤ columns.length)
    (hlen : ∀ row ∈ rows, row.length = columns.length)
    (hprintable : ∀ row ∈ columns :: rows, ∀ text ∈ row, Printable text) :
    Csv.copyFrom columns.length (csvText columns rows) =
      some (rows.map fun row => row.map fun text => Csv.nullable text.toList) := by
  have hlength : ∀ row ∈ (columns :: rows).map fun row => row.map String.toList,
      row.length = columns.length := by
    intro row hrow
    rcases List.mem_map.1 hrow with ⟨texts, htexts, rfl⟩
    rw [List.length_map]
    exact (List.forall_mem_cons (p := fun row => row.length = columns.length)).2 ⟨rfl, hlen⟩
      texts htexts
  have hread := Csv.copyFrom_write hcolumns hlength (oneLine_of_printable hprintable)
  rw [csvText, List.map_cons, hread, List.map_map]
  simp only [Function.comp_def, List.map_map]

end

/-! ## What the trainer gets -/

theorem readColumn_cons_self (name text : String)
    (rest : List (Csv.Field × Option Csv.Field)) (h : ∀ item ∈ rest, item.1 ≠ name.toList) :
    readColumn name ((name.toList, some text.toList) :: rest) = some (some text) := by
  have hget : Dict.get ((name.toList, some text.toList) :: rest) name.toList =
      some (some text.toList) := by
    refine Dict.get_eq_some_of_mem List.mem_cons_self fun value hvalue => ?_
    rcases List.mem_cons.1 hvalue with heq | hrest
    · exact (Prod.mk.inj heq).2
    · exact absurd rfl (h _ hrest)
  rw [readColumn, hget, Option.map_some, Option.map_some, String.ofList_toList]

theorem readColumn_cons_of_ne {name other : String} (hne : other.toList ≠ name.toList)
    (value : Option Csv.Field) (text : String) :
    readColumn name [(other.toList, value), (name.toList, some text.toList)] =
      some (some text) := by
  have hget : Dict.get [(other.toList, value), (name.toList, some text.toList)] name.toList =
      some (some text.toList) := by
    refine Dict.get_eq_some_of_mem (List.mem_cons_of_mem _ List.mem_cons_self) fun v hv => ?_
    rcases List.mem_cons.1 hv with heq | hv
    · exact absurd (Prod.mk.inj heq).1.symm hne
    · exact (Prod.mk.inj (List.mem_singleton.1 hv)).2
  rw [readColumn, hget, Option.map_some, Option.map_some, String.ofList_toList]

/-- The ground truth is read as it was written. -/
theorem loadGroundTruth_write {args : Args} {out : Output} (h : Planted rng args out) :
    loadGroundTruth (writeGroundTruthCsv out.claims) =
      some ((ringMembers out.claims).map fun item => (some item.1, some item.2)) := by
  have hnames : "ring_id".toList ≠ "claim_id".toList := by decide +kernel
  have hmembers : ∀ item ∈ ringMembers out.claims, Printable item.1 ∧ Printable item.2 := by
    intro item hitem
    rcases List.mem_filterMap.1 hitem with ⟨c, hc, hring⟩
    rcases Option.map_eq_some_iff.1 hring with ⟨ringId, hsome, rfl⟩
    exact ⟨((h.sound c hc).isPlain List.mem_cons_self).printable, h.printable_ringId hc hsome⟩
  have hread : Csv.dictReader (writeGroundTruthCsv out.claims) =
      some ((ringMembers out.claims).map fun item =>
        [("claim_id".toList, some item.1.toList), ("ring_id".toList, some item.2.toList)]) := by
    unfold writeGroundTruthCsv
    rw [dictReader_csvText (List.cons_ne_nil _ _), List.map_map]
    · rfl
    · intro row hrow
      rcases List.mem_map.1 hrow with ⟨item, -, rfl⟩
      rfl
    · refine List.forall_mem_cons.2 ⟨?_, ?_⟩
      · exact List.forall_mem_cons.2 ⟨by decide, List.forall_mem_singleton.2 (by decide)⟩
      · intro row hrow
        rcases List.mem_map.1 hrow with ⟨item, hitem, rfl⟩
        exact List.forall_mem_cons.2 ⟨(hmembers item hitem).1,
          List.forall_mem_singleton.2 (hmembers item hitem).2⟩
  rw [loadGroundTruth, hread]
  show List.mapM _ _ = _
  rw [List.mapM_map]
  refine Results.mapM_eq_some fun item _ => ?_
  have hclaimId := readColumn_cons_self "claim_id" item.1 [("ring_id".toList, some item.2.toList)]
    (List.forall_mem_singleton.2 hnames)
  have hringId := readColumn_cons_of_ne hnames.symm (some item.1.toList) item.2
  simp only [Function.comp_apply, Option.bind_eq_bind, hclaimId, hringId, Option.bind_some,
    Option.pure_def]

/-- So are the ids of the held-out rings. -/
theorem loadHeldOutRingIds_write {args : Args} {out : Output} (h : Planted rng args out) :
    loadHeldOutRingIds (writeHeldOutRingsCsv out.heldOutRingIds) =
      some (out.heldOutRingIds.toFinset.image some) := by
  have hprintable : ∀ ringId ∈ out.heldOutRingIds.toFinset.sort, Printable ringId := by
    intro ringId hringId
    rw [Finset.mem_sort, List.mem_toFinset, h.heldOutRingIds] at hringId
    rcases List.mem_map.1 hringId with ⟨i, -, rfl⟩
    exact printable_heldOutName i
  have hread : Csv.dictReader (writeHeldOutRingsCsv out.heldOutRingIds) =
      some (out.heldOutRingIds.toFinset.sort.map fun ringId =>
        [("ring_id".toList, some ringId.toList)]) := by
    unfold writeHeldOutRingsCsv
    rw [dictReader_csvText (List.cons_ne_nil _ _), List.map_map]
    · rfl
    · intro row hrow
      rcases List.mem_map.1 hrow with ⟨ringId, -, rfl⟩
      rfl
    · refine List.forall_mem_cons.2 ⟨List.forall_mem_singleton.2 (by decide), ?_⟩
      intro row hrow
      rcases List.mem_map.1 hrow with ⟨ringId, hringId, rfl⟩
      exact List.forall_mem_singleton.2 (hprintable ringId hringId)
  have hcolumn : (out.heldOutRingIds.toFinset.sort.map fun ringId =>
      [("ring_id".toList, some ringId.toList)]).mapM (readColumn "ring_id") =
        some (out.heldOutRingIds.toFinset.sort.map some) := by
    rw [List.mapM_map]
    refine Results.mapM_eq_some fun ringId _ => ?_
    exact readColumn_cons_self _ _ _ fun item hitem => absurd hitem List.not_mem_nil
  rw [loadHeldOutRingIds, hread]
  simp only [Option.bind_eq_bind, Option.bind_some, hcolumn]
  show some _ = some _
  congr 1
  ext ringId
  simp

/-! ## What the database gets -/

/-- The row of a claim that was loaded from the file. -/
structure LoadedAs (c : GeneratedClaim) (claim : Claim) : Prop where
  id : c.claimId = claim.id.toString
  claimantName : claim.claimantName = c.claimantName
  policyNumber : claim.policyNumber = c.policyNumber
  claimAmount : c.claimAmount = String.ofList claim.claimAmount.toPlainString
  amountFits : claim.claimAmount.numeric 14 2 = some claim.claimAmount
  incidentDate : c.incidentDate = claim.incidentDate.isoformat
  inRange : claim.incidentDate.InRange
  claimantPhone : claim.claimantPhone = c.claimantPhone
  claimantAddress : claim.claimantAddress = c.claimantAddress
  repairShopName : claim.repairShopName = some c.repairShopName
  status : claim.status = .submitted

theorem stageColumn_nullable {α : Type} {input : String → Option α} {text : String} {value : α}
    (hplain : IsPlain text) (h : input text = some value) :
    stageColumn input (Csv.nullable text.toList) = some (some value) := by
  rw [Csv.nullable, if_neg hplain.ne_nil]
  show (input (String.ofList text.toList)).map some = _
  rw [String.ofList_toList, h]
  rfl

theorem textInput_of_isPlain {text : String} (h : IsPlain text) : textInput text = some text :=
  if_pos h.printable.isText

/-- An amount of the band fits its column. -/
theorem numeric_of_band {cents : ℕ} (h : cents ≤ 15000000) :
    (⟨cents, 2⟩ : BigDecimal).numeric 14 2 = some ⟨cents, 2⟩ := by
  have hvalue : (⟨cents, 2⟩ : BigDecimal).value * 10 ^ 2 = ((cents : ℤ) : ℚ) := by
    unfold BigDecimal.value
    norm_num
    ring
  unfold BigDecimal.numeric
  simp only [hvalue, BigDecimal.roundHalfAway_intCast]
  rw [if_pos]
  · rfl
  · rw [Int.natAbs_natCast]
    omega

theorem inRange_of_window {day : ℕ} (h : day ≤ daySpan) : (epoch.plusDays day).InRange := by
  unfold LocalDate.InRange LocalDate.toordinal LocalDate.plusDays epoch Calendar.maxOrdinal
  unfold daySpan at h
  constructor <;> simp only <;> omega

/-- The row of a claim is staged and selected as the claim. -/
theorem exists_loaded {inputs : ColumnInputs} (hinputs : inputs.Reads) {c : GeneratedClaim}
    (h : Sound 0 c) :
    ∃ staged claim,
      stageRow inputs ((claimFields c).map fun text => Csv.nullable text.toList) = some staged ∧
      staged.toClaim = some claim ∧ LoadedAs c claim := by
  rcases h.claimId with ⟨id, hid⟩
  rcases h.claimAmount with ⟨cents, -, hcents, hamount⟩
  rcases h.incidentDate with ⟨day, -, hday, hdate⟩
  have htext : ∀ text ∈ claimFields c, stageColumn textInput (Csv.nullable text.toList) =
      some (some text) := fun text hmem =>
    stageColumn_nullable (h.isPlain hmem) (textInput_of_isPlain (h.isPlain hmem))
  have hidColumn : stageColumn inputs.uuid (Csv.nullable c.claimId.toList) = some (some id) :=
    stageColumn_nullable (h.isPlain (by simp [claimFields])) (by rw [hid, hinputs.uuid])
  have hamountColumn : stageColumn (fun text => (inputs.numeric text).bind fun amount =>
      amount.numeric 14 2) (Csv.nullable c.claimAmount.toList) = some (some ⟨cents, 2⟩) := by
    refine stageColumn_nullable (h.isPlain (by simp [claimFields])) ?_
    rw [hamount, hinputs.numeric cents (by omega), Option.bind_some, numeric_of_band hcents]
  have hdateColumn : stageColumn inputs.date (Csv.nullable c.incidentDate.toList) =
      some (some (epoch.plusDays day)) :=
    stageColumn_nullable (h.isPlain (by simp [claimFields]))
      (by rw [hdate, hinputs.date _ (inRange_of_window hday)])
  have hname := htext c.claimantName (by simp [claimFields])
  have hpolicy := htext c.policyNumber (by simp [claimFields])
  have hphone := htext c.claimantPhone (by simp [claimFields])
  have haddress := htext c.claimantAddress (by simp [claimFields])
  have hshop := htext c.repairShopName (by simp [claimFields])
  have hshopVisible : decide (c.repairShopName ≠ "") = true := by
    rw [decide_eq_true_eq]
    intro hempty
    exact h.repairShopName.ne_nil (by rw [hempty]; rfl)
  refine ⟨⟨some id, some c.claimantName, some c.policyNumber, some ⟨cents, 2⟩,
    some (epoch.plusDays day), some c.claimantPhone, some c.claimantAddress,
    some c.repairShopName⟩, ⟨id, c.claimantName, c.policyNumber, ⟨cents, 2⟩, epoch.plusDays day,
    c.claimantPhone, c.claimantAddress, some c.repairShopName, .submitted⟩, ?_, ?_, ?_⟩
  · simp only [claimFields, List.map_cons, List.map_nil, stageRow, hidColumn, hname, hpolicy,
      hamountColumn, hdateColumn, hphone, haddress, hshop, Option.bind_eq_bind, Option.bind_some,
      Option.pure_def]
  · simp only [StagedClaim.toClaim, Option.bind_eq_bind, Option.bind_some, Option.pure_def,
      Option.filter_some, hshopVisible, if_true]
  · exact ⟨hid, rfl, rfl, hamount, numeric_of_band hcents, hdate, inRange_of_window hday, rfl, rfl,
      rfl, rfl⟩

/-- The whole file is staged and selected. -/
theorem exists_staged {inputs : ColumnInputs} (hinputs : inputs.Reads)
    {claims : List GeneratedClaim} (h : ∀ c ∈ claims, Sound 0 c) :
    ∃ staged rows, stage inputs (writeClaimsCsv claims) = some staged ∧
      staged.mapM StagedClaim.toClaim = some rows ∧ staged.length = claims.length ∧
      List.Forall₂ LoadedAs claims rows := by
  have hlen : ∀ row ∈ claims.map claimFields, row.length = claimColumns.length := by
    intro row hrow
    rcases List.mem_map.1 hrow with ⟨c, -, rfl⟩
    rfl
  have hprintable : ∀ row ∈ claimColumns :: claims.map claimFields, ∀ text ∈ row,
      Printable text := by
    refine List.forall_mem_cons.2 ⟨?_, fun row hrow text htext => ?_⟩
    · unfold claimColumns
      simp only [List.forall_mem_cons, List.not_mem_nil, false_imp_iff, implies_true, and_true]
      decide
    · rcases List.mem_map.1 hrow with ⟨c, hc, rfl⟩
      exact ((h c hc).isPlain htext).printable
  have hread : Csv.copyFrom 8 (writeClaimsCsv claims) = some (claims.map fun c =>
      (claimFields c).map fun text => Csv.nullable text.toList) := by
    have hcopy := copyFrom_csvText (by decide) hlen hprintable
    rw [List.map_map] at hcopy
    exact hcopy
  have hrows : ∀ claims : List GeneratedClaim, (∀ c ∈ claims, Sound 0 c) →
      ∃ staged rows, (claims.map fun c =>
          (claimFields c).map fun text => Csv.nullable text.toList).mapM (stageRow inputs) =
            some staged ∧
        staged.mapM StagedClaim.toClaim = some rows ∧ staged.length = claims.length ∧
        List.Forall₂ LoadedAs claims rows := by
    intro claims h
    induction claims with
    | nil => exact ⟨[], [], rfl, rfl, rfl, List.Forall₂.nil⟩
    | cons c claims ih =>
        obtain ⟨hc, hclaims⟩ := List.forall_mem_cons.1 h
        rcases exists_loaded hinputs hc with ⟨s, claim, hs, hclaim, hloaded⟩
        rcases ih hclaims with ⟨staged, rows, hstaged, hselected, hlength, hall⟩
        refine ⟨s :: staged, claim :: rows, ?_, ?_, congrArg Nat.succ hlength,
          List.Forall₂.cons hloaded hall⟩
        · rw [List.map_cons, List.mapM_cons, hs, hstaged]
          rfl
        · rw [List.mapM_cons, hclaim, hselected]
          rfl
  rcases hrows claims h with ⟨staged, rows, hstaged, hselected, hlength, hall⟩
  refine ⟨staged, rows, ?_, hselected, hlength, hall⟩
  rw [stage, hread]
  exact hstaged

/-- A loaded claim is one that the table takes. -/
theorem LoadedAs.texts {low : ℕ} {c : GeneratedClaim} {claim : Claim} (h : LoadedAs c claim)
    (hsound : Sound low c) : (Db.claimTexts claim).all Db.isText = true := by
  have htext : ∀ text ∈ claimFields c, Db.isText text = true := fun text hmem =>
    (hsound.isPlain hmem).printable.isText
  unfold Db.claimTexts
  rw [h.claimantName, h.policyNumber, h.claimantPhone, h.claimantAddress, h.repairShopName,
    List.all_eq_true]
  intro text hmem
  simp only [Option.toList_some, List.mem_append, List.mem_cons, List.not_mem_nil,
    or_false] at hmem
  rcases hmem with (rfl | rfl | rfl | rfl) | rfl <;> exact htext _ (by simp [claimFields])

/-- A date that Python has is one that the column holds. -/
theorem isDate_of_inRange {date : LocalDate} (h : date.InRange) : Db.isDate date = true := by
  unfold LocalDate.InRange LocalDate.toordinal Calendar.maxOrdinal at h
  unfold Db.isDate
  rw [decide_eq_true_eq]
  constructor <;> omega

/-- The step that loads a claim inserts it unless its id is there. -/
theorem step_bulkLoad_eq (env : Env) {s : Intake} {claim : Claim}
    (hfresh : Intake.isFreshClaim s.db claim.id = true)
    (htexts : (Db.claimTexts claim).all Db.isText = true)
    (hdate : claim.incidentDate.InRange)
    (hamount : claim.claimAmount.numeric 14 2 = some claim.claimAmount) :
    Intake.step env s (.bulkLoad claim) =
      some { s with db := { s.db with claims := Table.insertNew Claim.id s.db.claims claim } } := by
  simp only [Intake.step]
  rw [if_pos hfresh]
  unfold Db.insertClaim Db.findById Table.insertNew
  rw [if_pos htexts, if_pos (isDate_of_inRange hdate), hamount]
  simp only
  cases hold : (Table.find Claim.id s.db.claims claim.id).isSome <;> rfl

/-- The load of a list of claims is a run of such steps. -/
theorem run_bulkLoad {env : Env} {claims : List GeneratedClaim} {rows : List Claim}
    (hloaded : List.Forall₂ LoadedAs claims rows) (hsound : ∀ c ∈ claims, Sound 0 c) {s : Intake}
    (hfresh : ∀ claim ∈ rows, Intake.isFreshClaim s.db claim.id = true) :
    (resolving env).run s (rows.map .bulkLoad) = some { s with
      db := { s.db with claims := rows.foldl (Table.insertNew Claim.id) s.db.claims } } := by
  induction hloaded generalizing s with
  | nil => rfl
  | @cons c claim claims rows hrow _ ih =>
      obtain ⟨hc, hclaims⟩ := List.forall_mem_cons.1 hsound
      obtain ⟨hclaim, hrows⟩ := List.forall_mem_cons.1 hfresh
      have hstep : (resolving env).step s (.bulkLoad claim) =
          some { s with db := { s.db with
            claims := Table.insertNew Claim.id s.db.claims claim } } :=
        step_bulkLoad_eq env hclaim (hrow.texts hc) hrow.inRange hrow.amountFits
      rw [List.map_cons, Lts.run_cons, hstep, Option.bind_some]
      exact ih hclaims hrows

/-- A load of a file with such rows: they are inserted in their order, of two with one id the
first, and none where there was one; a second load changes nothing, and for rows with ids apart
from those of the entities the load is a run of the intake. -/
structure Loads (env : Env) (inputs : ColumnInputs) (db : Db) (text : List Char)
    (rows : List Claim) : Prop where
  rowsLoaded : (loadBulk inputs db text).2 = rows.length
  inserted : ∃ new, new.Sublist rows ∧
    (loadBulk inputs db text).1 = { db with claims := db.claims ++ new }
  findById : ∀ id, (loadBulk inputs db text).1.findById id =
    (db.findById id).or (Table.find Claim.id rows id)
  again : loadBulk inputs (loadBulk inputs db text).1 text = loadBulk inputs db text
  run : ∀ passes, (∀ claim ∈ rows, Intake.isFreshClaim db claim.id = true) →
    (resolving env).run ⟨db, passes⟩ (rows.map .bulkLoad) =
      some ⟨(loadBulk inputs db text).1, passes⟩

theorem exists_loads (env : Env) {inputs : ColumnInputs} (hinputs : inputs.Reads) (db : Db)
    {claims : List GeneratedClaim} (h : ∀ c ∈ claims, Sound 0 c) :
    ∃ rows, List.Forall₂ LoadedAs claims rows ∧
      Loads env inputs db (writeClaimsCsv claims) rows := by
  rcases exists_staged hinputs h with ⟨staged, rows, hstaged, hselected, hlength, hloaded⟩
  have hload : ∀ db, loadBulk inputs db (writeClaimsCsv claims) =
      ({ db with claims := rows.foldl (Table.insertNew Claim.id) db.claims }, rows.length) := by
    intro db
    unfold loadBulk
    simp only [hstaged, Option.getD_some, hselected, hlength, hloaded.length_eq]
  refine ⟨rows, hloaded, ?_, ?_, ?_, ?_, ?_⟩
  · rw [hload]
  · rcases Table.exists_foldl_insertNew Claim.id db.claims rows with ⟨new, hsub, heq⟩
    refine ⟨new, hsub, ?_⟩
    rw [hload, heq]
  · intro id
    rw [hload]
    exact Table.find_foldl_insertNew db.claims rows id
  · rw [hload db, hload]
    simp only [Table.foldl_insertNew_twice]
  · intro passes hfresh
    rw [hload]
    exact run_bulkLoad hloaded h hfresh

/-- What the generator plants goes through its files. Whatever is drawn, the trainer reads the
rings of the claims and the held-out rings as they were planted, and the database gets a
submitted claim with the fields of each claim of the file. -/
theorem data_files_round_trip (env : Env) (rng : Rng σ) (args : Args) (inputs : ColumnInputs)
    (hinputs : inputs.Reads) (db : Db) (out : Output) (h : out ∈ (generate rng args).outcomes) :
    Planted rng args out ∧
    loadGroundTruth (writeGroundTruthCsv out.claims) =
      some ((ringMembers out.claims).map fun item => (some item.1, some item.2)) ∧
    loadHeldOutRingIds (writeHeldOutRingsCsv out.heldOutRingIds) =
      some (out.heldOutRingIds.toFinset.image some) ∧
    ∃ rows, List.Forall₂ LoadedAs out.claims rows ∧
      Loads env inputs db (writeClaimsCsv out.claims) rows := by
  have hplanted := planted_of_generate h
  refine ⟨hplanted, loadGroundTruth_write hplanted, loadHeldOutRingIds_write hplanted, ?_⟩
  exact exists_loads env hinputs db hplanted.sound

end GenRings

namespace Sample

open GenRings

/-- The digits of a text. -/
def digitsOf (text : String) : List Char := text.toList.filter Char.isDigit

/-- Ids in their printed form, amounts with two decimals, and dates in the ISO form. -/
def inputs : ColumnInputs where
  uuid := UUID.parse?
  numeric text := some ⟨Text.ofDigits (digitsOf text), 2⟩
  date text :=
    let y := Text.ofDigits ((digitsOf text).take 4)
    let m := Text.ofDigits (((digitsOf text).drop 4).take 2)
    let d := Text.ofDigits ((digitsOf text).drop 6)
    some ⟨(Calendar.daysBeforeYear y + Calendar.daysBeforeMonth (Calendar.isLeap y) m + d : ℕ) -
      719163⟩

theorem filter_fixed (w n : ℕ) : (Text.fixed 10 w n).filter Char.isDigit = Text.fixed 10 w n :=
  List.filter_eq_self.2 fun _ hc => Text.isDigit_of_mem_fixed hc

theorem uuid_inputs (id : UUID) : inputs.uuid id.toString = some id := by
  have huuid : inputs.uuid = UUID.parse? := rfl
  rw [huuid]
  exact UUID.parse?_toString id

theorem numeric_inputs (cents : ℕ) : inputs.numeric (amountText cents) = some ⟨cents, 2⟩ := by
  have hdigits : digitsOf (amountText cents) =
      Text.decimal (cents / 10 ^ 2) ++ Text.fixed 10 2 (cents % 10 ^ 2) := by
    unfold digitsOf amountText
    rw [String.toList_ofList]
    show (Text.decimal (cents / 10 ^ 2) ++ '.' :: Text.fixed 10 2 (cents % 10 ^ 2)).filter _ = _
    rw [List.filter_append, List.filter_cons_of_neg (by decide), filter_fixed,
      List.filter_eq_self.2 fun c hc => Text.isDigit_of_mem_decimal hc]
  have hnumber : Text.ofDigits (digitsOf (amountText cents)) = cents := by
    rw [hdigits, Text.ofDigits_append, Text.ofDigits_decimal,
      Text.ofDigits_fixed (Nat.mod_lt _ (by decide)), Text.length_fixed]
    exact Nat.div_add_mod' cents (10 ^ 2)
  unfold inputs
  simp only [hnumber]

/-- The digits of a date are those of its year, its month and its day. -/
theorem digitsOf_isoFormat (ordinal : ℕ) : digitsOf (Calendar.isoFormat ordinal) =
    Text.fixed 10 4 (Calendar.ofOrdinal ordinal).1 ++
      (Text.fixed 10 2 (Calendar.ofOrdinal ordinal).2.1 ++
        Text.fixed 10 2 (Calendar.ofOrdinal ordinal).2.2) := by
  unfold digitsOf Calendar.isoFormat
  rw [String.toList_ofList, List.filter_append, List.filter_cons_of_neg (by decide),
    List.filter_append, List.filter_cons_of_neg (by decide), filter_fixed, filter_fixed,
    filter_fixed]

theorem date_inputs (date : LocalDate) (h : date.InRange) :
    inputs.date date.isoformat = some date := by
  obtain ⟨hlow, hhigh⟩ := h
  have hpos : 1 ≤ date.toordinal.toNat := by omega
  have hmax : date.toordinal.toNat ≤ Calendar.maxOrdinal := by omega
  have hback : ((date.toordinal.toNat : ℕ) : ℤ) - 719163 = date.epochDay := by
    rw [Int.toNat_of_nonneg (by omega), LocalDate.toordinal]
    exact add_sub_cancel_right _ _
  have hdate := Calendar.dateOf_ofOrdinal hpos
  have hyear := Calendar.year_lt hdate hmax
  have hday := Calendar.day_lt hdate
  have hmonth := hdate.month
  have hordinal := hdate.ordinal_eq
  have hdigits : digitsOf date.isoformat = _ := digitsOf_isoFormat date.toordinal.toNat
  generalize Calendar.ofOrdinal date.toordinal.toNat = ymd at *
  have hrest : (digitsOf date.isoformat).drop 4 =
      Text.fixed 10 2 ymd.2.1 ++ Text.fixed 10 2 ymd.2.2 := by
    rw [hdigits, List.drop_left' (Text.length_fixed ..)]
  have hy : (digitsOf date.isoformat).take 4 = Text.fixed 10 4 ymd.1 := by
    rw [hdigits, List.take_left' (Text.length_fixed ..)]
  have hm : ((digitsOf date.isoformat).drop 4).take 2 = Text.fixed 10 2 ymd.2.1 := by
    rw [hrest, List.take_left' (Text.length_fixed ..)]
  have hd : (digitsOf date.isoformat).drop 6 = Text.fixed 10 2 ymd.2.2 := by
    rw [show 6 = 4 + 2 from rfl, ← List.drop_drop, hrest, List.drop_left' (Text.length_fixed ..)]
  unfold inputs
  simp only [hy, hm, hd]
  rw [Text.ofDigits_fixed hyear, Text.ofDigits_fixed (lt_of_le_of_lt hmonth.2 (by decide)),
    Text.ofDigits_fixed hday, ← hordinal, hback]

theorem reads_inputs : inputs.Reads :=
  ⟨uuid_inputs, fun cents _ => numeric_inputs cents, date_inputs⟩

/-- Two claims, a ring of three and a held-out ring of three. -/
def args : Args where
  claims := 2
  rings := 1
  minRingSize := 3
  maxRingSize := 3
  camouflageRate := .finite (Floats.ofRat (3 / 10))
  backgroundCollisionRate := .finite (Floats.ofRat (2 / 100))
  fuzzRate := .finite (Floats.ofRat (1 / 4))
  heldOutRings := 1

theorem exists_generated : ∃ out, out ∈ (generate lowest args).outcomes ∧
    out.claims.length = 9 ∧ out.heldOutRingIds = ["heldout-0000"] ∧
    (out.claims.map GeneratedClaim.claimId).Nodup ∧
    ∀ c ∈ out.claims, c.claimId ≠ UUID.toString ⟨9⟩ := by
  have hrun : (((generate lowest args).run 0).any fun r => decide
      (r.1.claims.length = 9 ∧ r.1.heldOutRingIds = ["heldout-0000"] ∧
        (r.1.claims.map GeneratedClaim.claimId).Nodup ∧
        ∀ c ∈ r.1.claims, c.claimId ≠ UUID.toString ⟨9⟩)) = true := by
    decide +kernel
  rcases (Option.any_eq_true _ _).1 hrun with ⟨⟨out, n⟩, hsome, hfields⟩
  exact ⟨out, Draw.mem_outcomes_of_run hsome, of_decide_eq_true hfields⟩

end Sample

/-- Nine claims and the name of a held-out ring, through the files and into an empty database. -/
theorem data_files_round_trip_generated : ∃ out, out.claims.length = 9 ∧
    out.heldOutRingIds = ["heldout-0000"] ∧
    GenRings.Planted Sample.lowest Sample.args out ∧
    GenRings.loadGroundTruth (GenRings.writeGroundTruthCsv out.claims) =
      some ((GenRings.ringMembers out.claims).map fun item => (some item.1, some item.2)) ∧
    GenRings.loadHeldOutRingIds (GenRings.writeHeldOutRingsCsv out.heldOutRingIds) =
      some (out.heldOutRingIds.toFinset.image some) ∧
    ∃ rows, List.Forall₂ GenRings.LoadedAs out.claims rows ∧
      GenRings.Loads Sample.env Sample.inputs Db.empty (GenRings.writeClaimsCsv out.claims)
        rows := by
  rcases Sample.exists_generated with ⟨out, h, hlength, hheldOut, -⟩
  exact ⟨out, hlength, hheldOut, GenRings.data_files_round_trip Sample.env Sample.lowest Sample.args
    Sample.inputs Sample.reads_inputs Db.empty out h⟩

end ClaimGuard
