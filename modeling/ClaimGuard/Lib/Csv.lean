import ClaimGuard.Lib.Results
import Mathlib.Data.List.TakeWhile

/-!
# CSV files

How Python writes them, and two readers: that of Python, a machine that is fed the file
character by character, and that of the `COPY` command, which cuts the file into lines and
each line into fields. What is written is read back by both.
-/

namespace Csv

/-- The characters of a field. -/
abbrev Field := List Char

/-! ## Writing -/

/-- A field is quoted when it has to be. -/
def needsQuotes (field : Field) : Bool :=
  field.any fun c => c == ',' || c == '"' || c == '\r' || c == '\n'

/-- A quote is doubled. -/
def double (c : Char) : List Char := if c = '"' then ['"', '"'] else [c]

def writeField (field : Field) : List Char :=
  if needsQuotes field then '"' :: (field.flatMap double ++ ['"']) else field

/-- The fields of a row, with commas between them. -/
def writeFields : List Field → List Char
  | [] => []
  | [field] => writeField field
  | field :: fields => writeField field ++ ',' :: writeFields fields

/-- The text of a row; a single empty field is quoted. -/
def rowText (row : List Field) : List Char :=
  if row = [[]] then ['"', '"'] else writeFields row

/-- `writer.writerow` for each of the rows. -/
def write (rows : List (List Field)) : List Char :=
  rows.flatMap fun row => rowText row ++ ['\r', '\n']

/-! ## The reader of Python -/

/-- A text file that is read without `newline=''`. -/
def universalNewlines : List Char → List Char
  | [] => []
  | '\r' :: '\n' :: cs => '\n' :: universalNewlines cs
  | '\r' :: cs => '\n' :: universalNewlines cs
  | c :: cs => c :: universalNewlines cs

/-- Where the reader is. -/
inductive Place where
  | startRecord
  | startField
  | inField
  | inQuotedField
  | quoteInQuotedField
  | eatCrnl
deriving DecidableEq

/-- The reader, with the field and the record it is at, and the records that are complete. -/
structure Reader where
  place : Place
  field : Field
  fields : List Field
  records : List (List Field)

namespace Reader

/-- `parse_save_field`. -/
def saveField (r : Reader) (place : Place) : Reader :=
  { r with place := place, field := [], fields := r.fields ++ [r.field] }

/-- `parse_add_char`. -/
def addChar (r : Reader) (place : Place) (c : Char) : Reader :=
  { r with place := place, field := r.field ++ [c] }

/-- The state `START_FIELD`. -/
def startField (r : Reader) (c : Char) : Reader :=
  if c = '\n' ∨ c = '\r' then r.saveField .eatCrnl
  else if c = '"' then { r with place := .inQuotedField }
  else if c = ',' then r.saveField .startField
  else r.addChar .inField c

/-- `parse_process_char`. -/
def processChar (r : Reader) (c : Char) : Option Reader :=
  match r.place with
  | .startRecord =>
      if c = '\n' ∨ c = '\r' then some { r with place := .eatCrnl } else some (r.startField c)
  | .startField => some (r.startField c)
  | .inField =>
      if c = '\n' ∨ c = '\r' then some (r.saveField .eatCrnl)
      else if c = ',' then some (r.saveField .startField)
      else some (r.addChar .inField c)
  | .inQuotedField =>
      if c = '"' then some { r with place := .quoteInQuotedField }
      else some (r.addChar .inQuotedField c)
  | .quoteInQuotedField =>
      if c = '"' then some (r.addChar .inQuotedField c)
      else if c = ',' then some (r.saveField .startField)
      else if c = '\n' ∨ c = '\r' then some (r.saveField .eatCrnl)
      else some (r.addChar .inField c)
  | .eatCrnl => if c = '\n' ∨ c = '\r' then some r else none

/-- `parse_process_char` at the end of a line, which ends the record unless it is quoted. -/
def endLine (r : Reader) : Reader :=
  match r.place with
  | .startRecord | .eatCrnl =>
      { r with place := .startRecord, fields := [], records := r.records ++ [r.fields] }
  | .startField | .inField | .quoteInQuotedField =>
      ⟨.startRecord, [], [], r.records ++ [r.fields ++ [r.field]]⟩
  | .inQuotedField => r

/-- The next character of the file. -/
def feed (r : Reader) (c : Char) : Option Reader :=
  (r.processChar c).map fun r => if c = '\n' then r.endLine else r

/-- The records at the end of the file; one that is still quoted counts. -/
def finish (r : Reader) : List (List Field) :=
  if r.place = .inQuotedField then r.records ++ [r.fields ++ [r.field]] else r.records

end Reader

/-- `list(csv.reader(f))`, `none` when it raises. -/
def read (text : List Char) : Option (List (List Field)) := do
  let r ← text.foldlM Reader.feed ⟨.startRecord, [], [], []⟩
  pure (if text.getLast?.any fun c => decide (c ≠ '\n') then r.endLine.finish else r.finish)

/-- What `csv.DictReader` makes of the records: a dictionary for each one that is not empty,
in which a missing value is `None`. -/
def dictRows (records : List (List Field)) : List (List (Field × Option Field)) :=
  match records with
  | [] => []
  | header :: rows => (rows.filter fun row => decide (row ≠ [])).map fun row =>
      header.zip (row.map some ++ List.replicate (header.length - row.length) none)

/-- `csv.DictReader` over a file, `none` when it raises. -/
def dictReader (text : List Char) : Option (List (List (Field × Option Field))) :=
  (read (universalNewlines text)).map dictRows

/-! ## The reader of `COPY` -/

/-- How the lines of the file end: as the first one did. -/
inductive Eol where
  | nl
  | cr
  | crnl
deriving DecidableEq

/-- `CopyReadLine`: the lines, `none` when one ends otherwise than the first. A quote, wherever
it stands, opens or closes a quoted part. -/
def copyLines : Option Eol → Bool → List Char → List Char → Option (List (List Char))
  | _, _, line, [] => some (if line = [] then [] else [line])
  | eol, false, line, '\r' :: '\n' :: cs =>
      if eol = none ∨ eol = some .crnl then
        (copyLines (some .crnl) false [] cs).map (line :: ·)
      else none
  | eol, false, line, '\r' :: cs =>
      if eol = none ∨ eol = some .cr then
        (copyLines (some .cr) false [] cs).map (line :: ·)
      else none
  | eol, false, line, '\n' :: cs =>
      if eol = none ∨ eol = some .nl then
        (copyLines (some .nl) false [] cs).map (line :: ·)
      else none
  | eol, quoted, line, c :: cs =>
      copyLines eol (if c = '"' then !quoted else quoted) (line ++ [c]) cs

/-- The value of a field: an empty one that was not quoted is null. -/
def value (sawQuote : Bool) (output : Field) : Option Field :=
  if sawQuote = false ∧ output = [] then none else some output

/-- `CopyReadAttributesCSV`, `none` when a quoted part is not closed. -/
def copyAttributes : Bool → Bool → Field → List Char → Option (List (Option Field))
  | false, sawQuote, output, [] => some [value sawQuote output]
  | true, _, _, [] => none
  | false, sawQuote, output, c :: cs =>
      if c = ',' then (copyAttributes false false [] cs).map (value sawQuote output :: ·)
      else if c = '"' then copyAttributes true true output cs
      else copyAttributes false sawQuote (output ++ [c]) cs
  | true, sawQuote, output, '"' :: '"' :: cs => copyAttributes true sawQuote (output ++ ['"']) cs
  | true, sawQuote, output, c :: cs =>
      if c = '"' then copyAttributes false sawQuote output cs
      else copyAttributes true sawQuote (output ++ [c]) cs

/-- `COPY ... FROM ... WITH (FORMAT csv, HEADER true)` into so many columns. -/
def copyFrom (columns : ℕ) (text : List Char) : Option (List (List (Option Field))) := do
  let lines ← copyLines none false [] text
  let rows ← ((lines.drop 1).takeWhile fun line => decide (line ≠ ['\\', '.'])).mapM
    (copyAttributes false false [])
  if rows.all fun row => decide (row.length = columns) then some rows else none

/-! ## What is written -/

@[simp] theorem writeFields_cons (field next : Field) (fields : List Field) :
    writeFields (field :: next :: fields) = writeField field ++ ',' :: writeFields (next :: fields) :=
  rfl

theorem rowText_eq_writeFields {row : List Field} (h : row ≠ [[]]) : rowText row = writeFields row :=
  if_neg h

theorem write_cons (row : List Field) (rows : List (List Field)) :
    write (row :: rows) = rowText row ++ '\r' :: '\n' :: write rows := by
  unfold write
  rw [List.flatMap_cons, List.append_assoc]
  rfl

/-- A field that is not quoted has no character that would need it. -/
theorem not_special {field : Field} (h : needsQuotes field = false) {c : Char} (hc : c ∈ field) :
    c ≠ ',' ∧ c ≠ '"' ∧ c ≠ '\r' ∧ c ≠ '\n' := by
  have hnot := List.any_eq_false.1 h c hc
  simp only [Bool.or_eq_true, beq_iff_eq, not_or] at hnot
  exact ⟨hnot.1.1.1, hnot.1.1.2, hnot.1.2, hnot.2⟩

theorem mem_writeField {field : Field} {c : Char} (h : c ∈ writeField field) :
    c = '"' ∨ c ∈ field := by
  unfold writeField at h
  split at h
  · rw [List.mem_cons, List.mem_append, List.mem_singleton, List.mem_flatMap] at h
    rcases h with hquote | ⟨d, hd, hc⟩ | hquote
    · exact Or.inl hquote
    · unfold double at hc
      split at hc
      · exact Or.inl (by simpa using hc)
      · rw [List.mem_singleton.1 hc]
        exact Or.inr hd
    · exact Or.inl hquote
  · exact Or.inr h

/-- Besides quotes and commas, a row has the characters of its fields. -/
theorem mem_rowText {row : List Field} {c : Char} (h : c ∈ rowText row) :
    c = '"' ∨ c = ',' ∨ ∃ field ∈ row, c ∈ field := by
  have hfields : ∀ fields : List Field, c ∈ writeFields fields →
      c = '"' ∨ c = ',' ∨ ∃ field ∈ fields, c ∈ field := by
    intro fields
    induction fields with
    | nil => intro h; cases h
    | cons field fields ih =>
        intro h
        cases fields with
        | nil =>
            rcases mem_writeField h with hquote | hc
            · exact Or.inl hquote
            · exact Or.inr (Or.inr ⟨field, List.mem_cons_self, hc⟩)
        | cons next fields =>
            rw [writeFields_cons, List.mem_append, List.mem_cons] at h
            rcases h with hfield | hcomma | hrest
            · rcases mem_writeField hfield with hquote | hc
              · exact Or.inl hquote
              · exact Or.inr (Or.inr ⟨field, List.mem_cons_self, hc⟩)
            · exact Or.inr (Or.inl hcomma)
            · rcases ih hrest with hquote | hcomma | ⟨other, hother, hc⟩
              · exact Or.inl hquote
              · exact Or.inr (Or.inl hcomma)
              · exact Or.inr (Or.inr ⟨other, List.mem_cons_of_mem _ hother, hc⟩)
  unfold rowText at h
  split at h
  · exact Or.inl (by simpa using h)
  · exact hfields row h

/-- The row stands on one line. -/
theorem not_mem_rowText {row : List Field} {c : Char} (hquote : c ≠ '"') (hcomma : c ≠ ',')
    (h : ∀ field ∈ row, c ∉ field) : c ∉ rowText row := by
  intro hc
  rcases mem_rowText hc with heq | heq | ⟨field, hfield, hmem⟩
  · exact hquote heq
  · exact hcomma heq
  · exact h field hfield hmem

/-! ## Read by Python -/

theorem universalNewlines_cons {c : Char} (hc : c ≠ '\r') (cs : List Char) :
    universalNewlines (c :: cs) = c :: universalNewlines cs := by
  rw [universalNewlines.eq_4] <;> simp [hc]

theorem universalNewlines_line {l : List Char} (h : '\r' ∉ l) (rest : List Char) :
    universalNewlines (l ++ '\r' :: '\n' :: rest) = l ++ '\n' :: universalNewlines rest := by
  induction l with
  | nil => rfl
  | cons c l ih =>
      rw [List.mem_cons, not_or] at h
      rw [List.cons_append, universalNewlines_cons (Ne.symm h.1), ih h.2, List.cons_append]

namespace Reader

/-- The reader after some more characters. -/
def run (r : Reader) (text : List Char) : Option Reader := text.foldlM feed r

theorem run_cons (r : Reader) (c : Char) (text : List Char) :
    r.run (c :: text) = (r.feed c).bind fun r => r.run text := rfl

theorem run_append (r : Reader) (text rest : List Char) :
    r.run (text ++ rest) = (r.run text).bind fun r => r.run rest := List.foldlM_append

theorem feed_of_ne (r : Reader) {c : Char} (hc : c ≠ '\n') : r.feed c = r.processChar c := by
  unfold feed
  simp only [hc, if_false, Option.map_id']

/-- A doubled character within quotes. -/
theorem run_double {r : Reader} (h : r.place = .inQuotedField) (c : Char) :
    r.run (double c) = some (r.addChar .inQuotedField c) := by
  rcases r with ⟨place, field, fields, records⟩
  cases h
  by_cases hquote : c = '"'
  · subst hquote
    rfl
  · have hprocess : processChar ⟨.inQuotedField, field, fields, records⟩ c =
        some ⟨.inQuotedField, field ++ [c], fields, records⟩ := by
      unfold processChar
      exact if_neg hquote
    unfold double
    rw [if_neg hquote, run_cons, feed, hprocess]
    simp only [Option.map_some, Option.bind_some]
    split <;> rfl

theorem run_quoted (text : List Char) (field : Field) (fields : List Field)
    (records : List (List Field)) :
    run ⟨.inQuotedField, field, fields, records⟩ (text.flatMap double) =
      some ⟨.inQuotedField, field ++ text, fields, records⟩ := by
  induction text generalizing field with
  | nil =>
      rw [List.append_nil]
      rfl
  | cons c text ih =>
      rw [List.flatMap_cons, run_append, run_double rfl, Option.bind_some]
      show run ⟨.inQuotedField, field ++ [c], fields, records⟩ _ = _
      rw [ih, List.append_assoc, List.singleton_append]

theorem run_plain {text : List Char} (h : needsQuotes text = false) (field : Field)
    (fields : List Field) (records : List (List Field)) :
    run ⟨.inField, field, fields, records⟩ text =
      some ⟨.inField, field ++ text, fields, records⟩ := by
  induction text generalizing field with
  | nil =>
      rw [List.append_nil]
      rfl
  | cons c text ih =>
      obtain ⟨hcomma, -, hcr, hlf⟩ := not_special h List.mem_cons_self
      have hrest : needsQuotes text = false := by
        simp only [needsQuotes, List.any_cons, Bool.or_eq_false_iff] at h
        exact h.2
      have hstep : feed ⟨.inField, field, fields, records⟩ c =
          some ⟨.inField, field ++ [c], fields, records⟩ := by
        rw [feed_of_ne _ hlf]
        simp only [processChar, hlf, hcr, hcomma, or_self, if_false, addChar]
      rw [run_cons, hstep, Option.bind_some, ih hrest, List.append_assoc, List.singleton_append]

/-- A field begins. -/
def AtField (place : Place) : Prop := place = .startRecord ∨ place = .startField

/-- A field that is written is read up to what ends it, an empty one not even begun. -/
theorem run_writeField {place : Place} (hplace : AtField place) (field : Field)
    (fields : List Field) (records : List (List Field)) :
    ∃ place', run ⟨place, [], fields, records⟩ (writeField field) =
        some ⟨place', field, fields, records⟩ ∧
      (place' = .inField ∨ place' = .quoteInQuotedField ∨ place' = place ∧ field = []) := by
  unfold writeField
  split
  · refine ⟨.quoteInQuotedField, ?_, Or.inr (Or.inl rfl)⟩
    have hopen : feed ⟨place, [], fields, records⟩ '"' =
        some ⟨.inQuotedField, [], fields, records⟩ := by
      rcases hplace with rfl | rfl <;> rfl
    rw [run_cons, hopen, Option.bind_some, run_append, run_quoted, Option.bind_some]
    rfl
  · rename_i hplain
    rw [Bool.not_eq_true] at hplain
    cases field with
    | nil => exact ⟨place, rfl, Or.inr (Or.inr ⟨rfl, rfl⟩)⟩
    | cons c field =>
        refine ⟨.inField, ?_, Or.inl rfl⟩
        obtain ⟨hcomma, hquote, hcr, hlf⟩ := not_special hplain List.mem_cons_self
        have hrest : needsQuotes field = false := by
          simp only [needsQuotes, List.any_cons, Bool.or_eq_false_iff] at hplain
          exact hplain.2
        have hopen : feed ⟨place, [], fields, records⟩ c =
            some ⟨.inField, [c], fields, records⟩ := by
          rw [feed_of_ne _ hlf]
          rcases hplace with rfl | rfl <;>
            simp only [processChar, startField, hlf, hcr, hcomma, hquote, or_self, if_false,
              addChar, List.nil_append]
        rw [run_cons, hopen, Option.bind_some, run_plain hrest]
        rfl

/-- The comma ends a field. -/
theorem run_field_comma {place : Place} (hplace : AtField place) (field : Field)
    (fields : List Field) (records : List (List Field)) (rest : List Char) :
    run ⟨place, [], fields, records⟩ (writeField field ++ ',' :: rest) =
      run ⟨.startField, [], fields ++ [field], records⟩ rest := by
  rcases run_writeField hplace field fields records with ⟨place', hrun, hplace'⟩
  have hcomma : feed ⟨place', field, fields, records⟩ ',' =
      some ⟨.startField, [], fields ++ [field], records⟩ := by
    rcases hplace' with rfl | rfl | ⟨rfl, rfl⟩
    · rfl
    · rfl
    · rcases hplace with rfl | rfl <;> rfl
  rw [run_append, hrun, Option.bind_some, run_cons, hcomma, Option.bind_some]

/-- The end of the line ends the last field and the record. -/
theorem run_field_newline {place : Place} (hplace : AtField place) {field : Field}
    (hfield : place = .startField ∨ field ≠ []) (fields : List Field)
    (records : List (List Field)) (rest : List Char) :
    run ⟨place, [], fields, records⟩ (writeField field ++ '\n' :: rest) =
      run ⟨.startRecord, [], [], records ++ [fields ++ [field]]⟩ rest := by
  rcases run_writeField hplace field fields records with ⟨place', hrun, hplace'⟩
  have hnewline : feed ⟨place', field, fields, records⟩ '\n' =
      some ⟨.startRecord, [], [], records ++ [fields ++ [field]]⟩ := by
    rcases hplace' with rfl | rfl | ⟨rfl, rfl⟩
    · rfl
    · rfl
    · rcases hfield with rfl | hne
      · rfl
      · exact absurd rfl hne
  rw [run_append, hrun, Option.bind_some, run_cons, hnewline, Option.bind_some]

theorem run_writeFields {place : Place} (hplace : AtField place) {row : List Field} (hne : row ≠ [])
    (hsingle : place = .startField ∨ row ≠ [[]]) (fields : List Field)
    (records : List (List Field)) (rest : List Char) :
    run ⟨place, [], fields, records⟩ (writeFields row ++ '\n' :: rest) =
      run ⟨.startRecord, [], [], records ++ [fields ++ row]⟩ rest := by
  induction row generalizing place fields with
  | nil => exact absurd rfl hne
  | cons field row ih =>
      cases row with
      | nil =>
          refine run_field_newline hplace ?_ fields records rest
          rcases hsingle with hstart | hfield
          · exact Or.inl hstart
          · exact Or.inr fun h => hfield (by rw [h])
      | cons next row =>
          rw [writeFields_cons, List.append_assoc, List.cons_append, run_field_comma hplace,
            ih (Or.inr rfl) (List.cons_ne_nil _ _) (Or.inl rfl), List.append_assoc,
            List.singleton_append]

/-- A row is read as one record. -/
theorem run_row {row : List Field} (hne : row ≠ []) (records : List (List Field))
    (rest : List Char) :
    run ⟨.startRecord, [], [], records⟩ (rowText row ++ '\n' :: rest) =
      run ⟨.startRecord, [], [], records ++ [row]⟩ rest := by
  by_cases hempty : row = [[]]
  · subst hempty
    rfl
  · rw [rowText_eq_writeFields hempty]
    exact run_writeFields (Or.inl rfl) hne (Or.inr hempty) [] records rest

end Reader

/-- The lines of a file as Python reads it. -/
def lines (rows : List (List Field)) : List Char := rows.flatMap fun row => rowText row ++ ['\n']

theorem lines_cons (row : List Field) (rows : List (List Field)) :
    lines (row :: rows) = rowText row ++ '\n' :: lines rows := by
  unfold lines
  rw [List.flatMap_cons, List.append_assoc]
  rfl

theorem universalNewlines_write {rows : List (List Field)}
    (h : ∀ row ∈ rows, ∀ field ∈ row, '\r' ∉ field) :
    universalNewlines (write rows) = lines rows := by
  induction rows with
  | nil => rfl
  | cons row rows ih =>
      obtain ⟨hrow, hrows⟩ := List.forall_mem_cons.1 h
      rw [write_cons, universalNewlines_line (not_mem_rowText (by decide) (by decide) hrow),
        ih hrows, lines_cons]

/-- Python reads what it wrote, when no field has a carriage return. -/
theorem read_write {rows : List (List Field)} (hne : ∀ row ∈ rows, row ≠ [])
    (hcr : ∀ row ∈ rows, ∀ field ∈ row, '\r' ∉ field) :
    read (universalNewlines (write rows)) = some rows := by
  have hrun : ∀ (rows : List (List Field)) (records : List (List Field)),
      (∀ row ∈ rows, row ≠ []) →
      Reader.run ⟨.startRecord, [], [], records⟩ (lines rows) =
        some ⟨.startRecord, [], [], records ++ rows⟩ := by
    intro rows
    induction rows with
    | nil =>
        intro records _
        rw [List.append_nil]
        rfl
    | cons row rows ih =>
        intro records hne
        obtain ⟨hrow, hrows⟩ := List.forall_mem_cons.1 hne
        rw [lines_cons, Reader.run_row hrow]
        have hrest := ih (records ++ [row]) hrows
        rwa [List.append_assoc, List.singleton_append] at hrest
  have hlast : (lines rows).getLast?.any (fun c => decide (c ≠ '\n')) = false := by
    rcases List.eq_nil_or_concat rows with rfl | ⟨front, row, rfl⟩
    · rfl
    · rw [List.concat_eq_append, lines, List.flatMap_append, List.flatMap_singleton,
        ← List.append_assoc, List.getLast?_concat]
      rfl
  rw [universalNewlines_write hcr, read]
  show ((Reader.run ⟨.startRecord, [], [], []⟩ (lines rows)).bind _) = _
  rw [hrun rows [] hne, Option.bind_some, hlast]
  rfl

/-- A file whose rows are as long as its header is read as a dictionary for each of them. -/
theorem dictReader_write {header : List Field} {rows : List (List Field)} (hne : header ≠ [])
    (hlen : ∀ row ∈ rows, row.length = header.length)
    (hcr : ∀ row ∈ header :: rows, ∀ field ∈ row, '\r' ∉ field) :
    dictReader (write (header :: rows)) = some (rows.map fun row => header.zip (row.map some)) := by
  have hrows : ∀ row ∈ rows, row ≠ [] := by
    rintro row hrow rfl
    exact hne (List.length_eq_zero_iff.1 (hlen _ hrow).symm)
  have hread := read_write (List.forall_mem_cons.2 ⟨hne, hrows⟩) hcr
  have hfilter : rows.filter (fun row => decide (row ≠ [])) = rows :=
    List.filter_eq_self.2 fun row hrow => decide_eq_true (hrows row hrow)
  rw [dictReader, hread, Option.map_some, dictRows, hfilter]
  congr 1
  refine List.map_congr_left fun row hrow => ?_
  rw [hlen row hrow, Nat.sub_self, List.replicate_zero, List.append_nil]

/-! ## Read by `COPY` -/

/-- Whether a quoted part is open after the text. -/
def toggle (quoted : Bool) (text : List Char) : Bool :=
  text.foldl (fun quoted c => if c = '"' then !quoted else quoted) quoted

theorem toggle_append (quoted : Bool) (text rest : List Char) :
    toggle quoted (text ++ rest) = toggle (toggle quoted text) rest := List.foldl_append

theorem toggle_double (quoted : Bool) (c : Char) : toggle quoted (double c) = quoted := by
  unfold double
  split
  · simp [toggle]
  · rename_i hc
    simp [toggle, hc]

theorem toggle_flatMap (quoted : Bool) (text : List Char) :
    toggle quoted (text.flatMap double) = quoted := by
  induction text with
  | nil => rfl
  | cons c text ih => rw [List.flatMap_cons, toggle_append, toggle_double, ih]

theorem toggle_plain {text : List Char} (h : needsQuotes text = false) (quoted : Bool) :
    toggle quoted text = quoted := by
  induction text with
  | nil => rfl
  | cons c text ih =>
      have hquote := (not_special h List.mem_cons_self).2.1
      simp only [needsQuotes, List.any_cons, Bool.or_eq_false_iff] at h
      show toggle (if c = '"' then !quoted else quoted) text = quoted
      rw [if_neg hquote]
      exact ih h.2

/-- The quotes of a field are even in number. -/
theorem toggle_writeField (quoted : Bool) (field : Field) :
    toggle quoted (writeField field) = quoted := by
  unfold writeField
  split
  · show toggle (!quoted) (field.flatMap double ++ ['"']) = quoted
    rw [toggle_append, toggle_flatMap]
    exact Bool.not_not quoted
  · rename_i hplain
    exact toggle_plain (Bool.not_eq_true _ ▸ hplain) quoted

theorem toggle_writeFields (quoted : Bool) (row : List Field) :
    toggle quoted (writeFields row) = quoted := by
  induction row with
  | nil => rfl
  | cons field row ih =>
      cases row with
      | nil => exact toggle_writeField quoted field
      | cons next row =>
          rw [writeFields_cons, toggle_append, toggle_writeField]
          exact ih

theorem copyLines_cons {c : Char} (hcr : c ≠ '\r') (hlf : c ≠ '\n') (eol : Option Eol)
    (quoted : Bool) (line cs : List Char) :
    copyLines eol quoted line (c :: cs) =
      copyLines eol (if c = '"' then !quoted else quoted) (line ++ [c]) cs := by
  rw [copyLines.eq_5] <;> simp [hcr, hlf]

/-- What is on one line is passed over. -/
theorem copyLines_append {text : List Char} (hcr : '\r' ∉ text) (hlf : '\n' ∉ text)
    (eol : Option Eol) (quoted : Bool) (line rest : List Char) :
    copyLines eol quoted line (text ++ rest) =
      copyLines eol (toggle quoted text) (line ++ text) rest := by
  induction text generalizing quoted line with
  | nil =>
      rw [List.nil_append, List.append_nil]
      rfl
  | cons c text ih =>
      rw [List.mem_cons, not_or] at hcr hlf
      rw [List.cons_append, copyLines_cons (Ne.symm hcr.1) (Ne.symm hlf.1), ih hcr.2 hlf.2,
        List.append_assoc, List.singleton_append]
      rfl

/-- Neither ends a line. -/
def OneLine (field : Field) : Prop := '\r' ∉ field ∧ '\n' ∉ field

/-- The lines of a file are its rows. -/
theorem copyLines_write {rows : List (List Field)} (hne : ∀ row ∈ rows, 2 ≤ row.length)
    (hline : ∀ row ∈ rows, ∀ field ∈ row, OneLine field) {eol : Option Eol}
    (heol : eol = none ∨ eol = some .crnl) :
    copyLines eol false [] (write rows) = some (rows.map writeFields) := by
  induction rows generalizing eol with
  | nil => rfl
  | cons row rows ih =>
      obtain ⟨hlen, hlens⟩ := List.forall_mem_cons.1 hne
      obtain ⟨hrow, hrows⟩ := List.forall_mem_cons.1 hline
      have hmany : row ≠ [[]] := by
        rintro rfl
        simp at hlen
      have hcr : '\r' ∉ rowText row :=
        not_mem_rowText (by decide) (by decide) fun field hfield => (hrow field hfield).1
      have hlf : '\n' ∉ rowText row :=
        not_mem_rowText (by decide) (by decide) fun field hfield => (hrow field hfield).2
      rw [write_cons, copyLines_append hcr hlf, rowText_eq_writeFields hmany,
        toggle_writeFields, List.nil_append, copyLines, if_pos heol, ih hlens hrows (Or.inr rfl)]
      rfl

theorem copyAttributes_quoted (text : List Char) (sawQuote : Bool) (output : Field)
    {rest : List Char} (hrest : rest.head? ≠ some '"') :
    copyAttributes true sawQuote output (text.flatMap double ++ '"' :: rest) =
      copyAttributes false sawQuote (output ++ text) rest := by
  induction text generalizing output with
  | nil =>
      rw [List.append_nil, List.flatMap_nil, List.nil_append]
      cases rest with
      | nil => rfl
      | cons d rest =>
          rw [copyAttributes.eq_5, if_pos rfl]
          rintro cs - heq
          cases heq
          exact hrest rfl
  | cons c text ih =>
      rw [List.flatMap_cons, List.append_assoc]
      by_cases hquote : c = '"'
      · subst hquote
        show copyAttributes true sawQuote (output ++ ['"']) (text.flatMap double ++ '"' :: rest) = _
        rw [ih, List.append_assoc, List.singleton_append]
      · rw [double, if_neg hquote, List.singleton_append, copyAttributes.eq_5, if_neg hquote, ih,
          List.append_assoc, List.singleton_append]
        intro cs heq
        exact absurd heq hquote

theorem copyAttributes_plain {text : List Char} (h : needsQuotes text = false) (sawQuote : Bool)
    (output : Field) (rest : List Char) :
    copyAttributes false sawQuote output (text ++ rest) =
      copyAttributes false sawQuote (output ++ text) rest := by
  induction text generalizing output with
  | nil => rw [List.append_nil, List.nil_append]
  | cons c text ih =>
      obtain ⟨hcomma, hquote, -, -⟩ := not_special h List.mem_cons_self
      simp only [needsQuotes, List.any_cons, Bool.or_eq_false_iff] at h
      rw [List.cons_append, copyAttributes, if_neg hcomma, if_neg hquote, ih h.2,
        List.append_assoc, List.singleton_append]

/-- What a column gets for a field: null for an empty one. -/
def nullable (field : Field) : Option Field := if field = [] then none else some field

/-- A field is read up to what follows it, with what null is made of. -/
theorem copyAttributes_writeField (field : Field) (rest : List Char)
    (hrest : rest.head? ≠ some '"') : ∃ sawQuote,
    copyAttributes false false [] (writeField field ++ rest) =
        copyAttributes false sawQuote field rest ∧ value sawQuote field = nullable field := by
  unfold writeField
  split
  · rename_i hquotes
    refine ⟨true, ?_, ?_⟩
    · rw [List.cons_append, copyAttributes, if_neg (by decide), if_pos rfl, List.append_assoc,
        List.singleton_append, copyAttributes_quoted field true [] hrest, List.nil_append]
    · have hne : field ≠ [] := by
        rintro rfl
        cases hquotes
      simp [value, nullable, hne]
  · rename_i hplain
    refine ⟨false, ?_, ?_⟩
    · rw [copyAttributes_plain (Bool.not_eq_true _ ▸ hplain), List.nil_append]
    · simp [value, nullable]

theorem copyAttributes_writeFields {row : List Field} (hne : row ≠ []) :
    copyAttributes false false [] (writeFields row) = some (row.map nullable) := by
  induction row with
  | nil => exact absurd rfl hne
  | cons field row ih =>
      cases row with
      | nil =>
          rcases copyAttributes_writeField field [] (by simp) with
            ⟨sawQuote, hread, hvalue⟩
          rw [List.append_nil] at hread
          show copyAttributes false false [] (writeField field) = _
          rw [hread, copyAttributes, hvalue]
          rfl
      | cons next row =>
          rcases copyAttributes_writeField field (',' :: writeFields (next :: row))
            (by simp) with ⟨sawQuote, hread, hvalue⟩
          rw [writeFields_cons, hread, copyAttributes, if_pos rfl, ih (List.cons_ne_nil _ _),
            hvalue]
          rfl

/-- `COPY` reads what Python wrote: each row after the header, an empty field as null, when the
fields stand on one line. -/
theorem copyFrom_write {columns : ℕ} (hcolumns : 2 ≤ columns) {header : List Field}
    {rows : List (List Field)} (hlen : ∀ row ∈ header :: rows, row.length = columns)
    (hline : ∀ row ∈ header :: rows, ∀ field ∈ row, OneLine field) :
    copyFrom columns (write (header :: rows)) = some (rows.map fun row => row.map nullable) := by
  have hlines := copyLines_write (fun row hrow => (hlen row hrow).symm ▸ hcolumns) hline
    (Or.inl rfl : (none : Option Eol) = none ∨ none = some Eol.crnl)
  have hmany : ∀ row ∈ rows, ∃ field next rest, row = field :: next :: rest := by
    intro row hrow
    have hlength := hlen row (List.mem_cons_of_mem _ hrow)
    match row, hlength with
    | [], h => simp at h; omega
    | [_], h => simp at h; omega
    | field :: next :: rest, _ => exact ⟨field, next, rest, rfl⟩
  -- a row of several fields is not the end marker
  have hmarker : ∀ line ∈ rows.map writeFields, decide (line ≠ ['\\', '.']) = true := by
    intro line hmem
    rcases List.mem_map.1 hmem with ⟨row, hrow, rfl⟩
    rcases hmany row hrow with ⟨field, next, rest, rfl⟩
    rw [decide_eq_true_eq, writeFields_cons]
    intro heq
    have hcomma : ',' ∈ ['\\', '.'] := by
      rw [← heq]
      simp
    revert hcomma
    decide
  have hattributes : (rows.map writeFields).mapM (copyAttributes false false []) =
      some (rows.map fun row => row.map nullable) := by
    rw [List.mapM_map]
    refine Results.mapM_eq_some fun row hrow => ?_
    rcases hmany row hrow with ⟨field, next, rest, rfl⟩
    exact copyAttributes_writeFields (List.cons_ne_nil _ _)
  have hcolumnCount : (rows.map fun row => row.map nullable).all
      (fun row => decide (row.length = columns)) = true := by
    rw [List.all_map, List.all_eq_true]
    intro row hrow
    simp [hlen row (List.mem_cons_of_mem _ hrow)]
  rw [copyFrom, hlines, List.map_cons]
  simp only [Option.bind_eq_bind, Option.bind_some, List.drop_succ_cons, List.drop_zero]
  rw [List.takeWhile_eq_self_iff.2 hmarker, hattributes]
  simp only [Option.bind_some]
  rw [if_pos hcolumnCount]

end Csv
