import MariadbShell.Dump.TextWriter

/-!
# The two writers of a built-in dialect agree

For the built-in dialects with an escape character the writer that takes the dialect
at run time and the one that is specialised for it write the same bytes, as long as
base64 data comes in the lines in which the server returns it.
-/

namespace MariadbShell.Dump

open List ImportTable DialectDumpWriter

namespace EscapingDialect

/-- Base64 data in lines of 76 characters: a longer value has a line end after the first line. -/
def Base64Layout (raw : RawData) : Prop :=
  raw.data.length < Buffer.base64LineLength ∨
    raw.data[Buffer.base64LineLength]? = some Byte.newline ∨
    raw.data.length = Buffer.base64LineLength ∧
      ∀ chr ∈ raw.data, chr ∈ TextDumpWriter.base64TypesAlphabet

variable (name : EscapingDialect)

/-- The writer that takes the dialect at run time. -/
def text : TextDumpWriter := .create name.dialect

/-- No kind of values but strings can contain an escaped character. -/
theorem text_escapeOf : name.text.escapeOf = escapeOf := by
  have numbers : name.text.numbersNeedEscape = .none := by cases name <;> decide
  have vectors : name.text.vectorsNeedEscape = .none := by cases name <;> decide
  have hex : name.text.hexNeedEscape = .none := by cases name <;> decide
  have base64 : name.text.base64NeedEscape = .base64 := by cases name <;> decide
  funext type encoding
  cases encoding with
  | none => simp only [TextDumpWriter.escapeOf, escapeOf, numbers]
  | some encoding =>
    cases encoding <;>
      simp only [TextDumpWriter.escapeOf, escapeOf, numbers, vectors, hex, base64]

theorem text_escape : name.text.escape = true := by cases name <;> decide

theorem text_escapeChar : name.traits.fieldsEscapedBy = [name.text.escapeChar] := by
  cases name <;> decide

/-- The escaped characters are those of the specialised writer. -/
theorem text_escapedCharacters {chr : UInt8} (nonzero : chr ≠ Byte.nul) :
    name.text.escapedCharacters.contains chr =
      (name.traits.fieldsEscapedBy.head? == some chr ||
        name.traits.linesTerminatedBy.head? == some chr ||
        shouldEscape name.traits chr) := by
  have characters : name.text.escapedCharacters =
      name.traits.fieldsEscapedBy.take 1 ++
        (if name.traits.fieldsEnclosedBy = [] then name.traits.fieldsTerminatedBy.take 1
          else name.traits.fieldsEnclosedBy.take 1) ++
        name.traits.linesTerminatedBy.take 1 ++ [Byte.nul] := by
    cases name <;> decide
  rw [characters]
  cases name <;>
    simp [shouldEscape, traits, Traits.default_, Traits.csv, Traits.tsv, Traits.csvUnix] <;> grind

theorem text_escapeByte (chr : UInt8) : name.text.escapeByte chr = escapeByte name.traits chr := by
  have notDoubled : name.text.doubleEnclosedBy = false := by cases name <;> decide
  unfold TextDumpWriter.escapeByte escapeByte TextDumpWriter.toWrite
    toWrite
  rw [text_escapeChar, notDoubled]
  cases control : controlSequence chr with
  | some written => rfl
  | none =>
    have nonzero : chr ≠ Byte.nul := by
      rintro rfl
      cases control
    rw [text_escapedCharacters name nonzero, text_escapeChar]
    simp only [Bool.false_and, Bool.false_eq_true, if_false]
    split_ifs <;> rfl

/-- Base64 characters are written as they are. -/
theorem text_escapeByte_base64 {data : Bytes}
    (alphabet : ∀ chr ∈ data, chr ∈ TextDumpWriter.base64TypesAlphabet) :
    data.flatMap name.text.escapeByte = data := by
  have plain : ∀ chr ∈ TextDumpWriter.base64TypesAlphabet, name.text.escapeByte chr = [chr] := by
    cases name <;> decide +kernel
  induction data with
  | nil => rfl
  | cons chr data ih =>
    rw [flatMap_cons, plain chr (alphabet chr mem_cons_self),
      ih fun other member => alphabet other (mem_cons_of_mem _ member)]
    rfl

theorem text_storedBytes (escape : EscapeType) (raw : RawData)
    (layout : escape = .base64 → Base64Layout raw) :
    name.text.storedBytes escape raw = storedBytes name.traits escape raw.data := by
  unfold TextDumpWriter.storedBytes storedBytes
  rw [text_escape]
  cases escape with
  | none => rfl
  | full =>
    have used : name.traits.fieldsEscapedBy ≠ [] := by
      rw [text_escapeChar]
      exact cons_ne_nil _ _
    have same : name.text.escapeByte = escapeByte name.traits := funext name.text_escapeByte
    rw [if_neg (by decide), if_neg (by simp), valueBytes, if_neg used, same]
  | base64 =>
    rw [if_neg (by decide)]
    rcases layout rfl with short | line | ⟨exact, alphabet⟩
    · rw [if_pos (by simp [short])]
    · obtain ⟨inside, -⟩ := List.getElem?_eq_some_iff.mp line
      have newline : TextDumpWriter.newlineAfterLine raw = true := by
        rw [TextDumpWriter.newlineAfterLine, getElem?_append_left inside, line]
        decide
      rw [if_pos (by simp [newline])]
    · split
      · rfl
      · rw [text_escapeByte_base64 name alphabet, Buffer.base64Bytes_short (Nat.le_of_eq exact)]

theorem text_fieldBytes (isString isNumber : Bool) (escape : EscapeType) (field : Option RawData)
    (layout : escape = .base64 → ∀ raw, field = some raw → Base64Layout raw) :
    name.text.fieldBytes isString isNumber escape field =
      fieldBytes name.traits isString isNumber escape field := by
  have null : name.text.null = nullBytes name.traits := by
    cases name <;> decide
  have quote : name.text.quoteBytes isString = quoteBytes name.traits isString := by
    cases name <;> cases isString <;> decide
  cases field with
  | none => exact null
  | some raw =>
    unfold TextDumpWriter.fieldBytes fieldBytes
    simp only []
    rw [null, quote, text_storedBytes name escape raw fun encoded => layout encoded raw rfl]

theorem text_rowBytes (columns : Columns) (row : Row)
    (layout : ∀ index, columns.needsEscape.getD index .none = .base64 →
      ∀ raw, row.getRawData index = some raw → Base64Layout raw) :
    name.text.rowBytes columns row = rowBytes name.traits columns row := by
  have start : name.text.dialect.linesStartingBy = [] := by cases name <;> decide
  have terminator : name.text.lineTerminator = name.traits.linesTerminatedBy := by
    cases name <;> decide
  have separator : name.text.dialect.fieldsTerminatedBy = name.traits.fieldsTerminatedBy := by
    cases name <;> decide
  unfold TextDumpWriter.rowBytes rowBytes
  rw [start, nil_append]
  congr 2
  refine map_congr_left fun index _ => ?_
  unfold TextDumpWriter.separatedBytes separatedBytes
  rw [separator, text_fieldBytes name _ _ _ _ (layout index)]

variable (metadata : List ColumnType) (encodings : List EncodingType) (rows : List Row)

def textOutput : Bytes × List Bytes :=
  let (columns, buffer) := name.text.readMetadata metadata encodings .create
  (writePreamble buffer, writeRows (name.text.storeRow columns) rows buffer)

def dialectOutput : Bytes × List Bytes :=
  let (columns, buffer) := readMetadata name.traits metadata encodings .create
  (writePreamble buffer, writeRows (storeRow name.traits columns) rows buffer)

theorem dialectOutput_eq : name.dialectOutput metadata encodings rows =
      ([], rows.map (rowBytes name.traits (.read escapeOf metadata encodings))) := by
  unfold dialectOutput readMetadata
  simp only []
  rw [writeRows_eq_map (storeRow_data name.traits _)]
  rfl

theorem textOutput_eq : name.textOutput metadata encodings rows =
      ([], rows.map (name.text.rowBytes (.read escapeOf metadata encodings))) := by
  unfold textOutput TextDumpWriter.readMetadata
  simp only []
  rw [writeRows_eq_map (name.text.storeRow_data _), text_escapeOf]
  rfl

/-- A column whose values are stored as base64 data was declared so. -/
theorem encoding_of_needsEscape {index : Nat}
    (stored : (Columns.read escapeOf metadata encodings).needsEscape.getD index
      .none = .base64) : encodings[index]? = some .base64 := by
  unfold Columns.read at stored
  rw [getD_eq_getElem?_getD, getElem?_map] at stored
  cases column : (List.range metadata.length)[index]? with
  | none =>
    rw [column] at stored
    cases stored
  | some place =>
    rw [column] at stored
    obtain ⟨inside, same⟩ := List.getElem?_eq_some_iff.mp column
    rw [getElem_range] at same
    subst same
    simp only [Option.map_some] at stored
    unfold escapeOf encodingOf at stored
    split at stored
    · cases stored
    · split at stored
      · next found =>
        split at found
        · exact found
        · cases found
      · cases stored
      · cases stored
      · cases stored
      · cases stored

/--
Both writers of a built-in dialect write the same when base64 values have the server's line
length.
-/
theorem textOutput_eq_dialectOutput
    (layout : ∀ row ∈ rows, ∀ index, encodings[index]? = some .base64 →
      ∀ raw, row.getRawData index = some raw → Base64Layout raw) :
    name.textOutput metadata encodings rows = name.dialectOutput metadata encodings rows := by
  rw [textOutput_eq, dialectOutput_eq]
  congr 1
  refine map_congr_left fun row member => ?_
  exact text_rowBytes name _ row fun index stored =>
    layout row member index (encoding_of_needsEscape metadata encodings stored)

/-- A quoted string, a number, `NULL` and a short base64 value. -/
theorem textOutput_eq_dialectOutput_csv :
    csv.textOutput [.string, .integer, .string, .bytes] [.none, .none, .none, .base64]
        [[some ⟨ascii ['"', '\n'], 0⟩, some ⟨ascii ['-', '7'], 0⟩, none,
          some ⟨ascii ['Q', 'Q', '=', '='], 0⟩]] =
      csv.dialectOutput [.string, .integer, .string, .bytes] [.none, .none, .none, .base64]
        [[some ⟨ascii ['"', '\n'], 0⟩, some ⟨ascii ['-', '7'], 0⟩, none,
          some ⟨ascii ['Q', 'Q', '=', '='], 0⟩]] ∧
    csv.dialectOutput [.string, .integer, .string, .bytes] [.none, .none, .none, .base64]
        [[some ⟨ascii ['"', '\n'], 0⟩, some ⟨ascii ['-', '7'], 0⟩, none,
          some ⟨ascii ['Q', 'Q', '=', '='], 0⟩]] =
      ([], [ascii ['"', '\\', '"', '\\', 'n', '"', ',', '-', '7', ',', '\\', 'N', ',',
        '"', 'Q', 'Q', '=', '=', '"', '\r', '\n']]) := by
  refine ⟨?_, by decide +kernel⟩
  refine textOutput_eq_dialectOutput csv _ _ _ fun row member index encoded raw data => ?_
  obtain rfl := mem_singleton.mp member
  have last : index = 3 := by
    match index, encoded with
    | 3, _ => rfl
  subst last
  cases data
  exact .inl (by decide)

/-- A value of 77 letters in a column that is declared to hold base64 data. -/
def longLine : Row := [some ⟨List.replicate 77 65, 0⟩]

/-- The specialised writer leaves out the byte where it expects a line end. -/
theorem textOutput_ne_dialectOutput :
    csv.textOutput [.bytes] [.base64] [longLine] ≠ csv.dialectOutput [.bytes] [.base64] [longLine] ∧
    csv.textOutput [.bytes] [.base64] [longLine] =
      ([], [ascii ['"'] ++ List.replicate 77 65 ++ ascii ['"', '\r', '\n']]) ∧
    csv.dialectOutput [.bytes] [.base64] [longLine] =
      ([], [ascii ['"'] ++ List.replicate 76 65 ++ ascii ['"', '\r', '\n']]) := by
  decide +kernel

end EscapingDialect

end MariadbShell.Dump
