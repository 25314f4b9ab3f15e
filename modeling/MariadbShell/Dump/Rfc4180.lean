import MariadbShell.Lib.Delimited
import MariadbShell.Dump.FastWriter
import MariadbShell.Dump.TextWriter

/-!
# Reading comma-separated values

The rules of RFC 4180 with single line feeds as line ends and the word `NULL` without
quotes as SQL `NULL`, and what they make of the output of the csv-rfc-unix writer.
-/

namespace MariadbShell.Dump

open List ImportTable
open Lib.Delimited (FieldEnd Reads)
open FastDumpWriter Byte Option Buffer

namespace Rfc4180

/-! ## Fields -/

/-- What follows a field: a comma, a line end, or nothing. -/
def fieldEnd : Bytes → Option (FieldEnd × Bytes)
  | [] => some (.file, [])
  | chr :: rest =>
    if chr = comma then some (.field, rest)
    else if chr = newline then some (.line, rest)
    else none

/-- The rest of a quoted field, in which a quote is doubled. -/
def readQuoted : Bytes → Option (Bytes × Bytes)
  | [] => none
  | chr :: rest =>
    if chr = doubleQuote then
      match rest with
      | [] => some ([], [])
      | second :: tail =>
        if second = doubleQuote then
          (readQuoted tail).map fun field => (doubleQuote :: field.1, field.2)
        else some ([], second :: tail)
    else (readQuoted rest).map fun field => (chr :: field.1, field.2)

def ordinary (chr : UInt8) : Bool :=
  chr ≠ doubleQuote && chr ≠ comma && chr ≠ newline

/-- A field without quotes; the word `NULL` stands for SQL `NULL`. -/
def readUnquoted (input : Bytes) : Option (Option Bytes × FieldEnd × Bytes) :=
  (fieldEnd (input.dropWhile ordinary)).map fun ended =>
    (if input.takeWhile ordinary = nullWord then none else some (input.takeWhile ordinary), ended)

def readField (input : Bytes) : Option (Option Bytes × FieldEnd × Bytes) :=
  match input with
  | [] => readUnquoted []
  | chr :: rest =>
    if chr = doubleQuote then
      (readQuoted rest).bind fun field =>
        (fieldEnd field.2).map fun ended => (some field.1, ended)
    else readUnquoted (chr :: rest)

def decode (columns : Nat) (file : Bytes) : Option (List (List (Option Bytes))) :=
  Lib.Delimited.decode readField [newline] columns file

/-! ## Reading what was written -/

inductive Ends : Bytes → FieldEnd × Bytes → Prop
  | field (rest : Bytes) : Ends ([comma] ++ rest) (.field, rest)
  | line (rest : Bytes) : Ends ([newline] ++ rest) (.line, rest)

section Written

variable {data tail : Bytes} {ended : FieldEnd × Bytes}

theorem Ends.fieldEnd (ends : Ends tail ended) : fieldEnd tail = some ended := by
  cases ends <;> rfl

theorem readUnquoted_ordinary (plain : ∀ chr ∈ data, ordinary chr = true) (ends : Ends tail ended) :
    readUnquoted (data ++ tail) = some (if data = nullWord then none else some data, ended) := by
  have special : tail.takeWhile ordinary = [] ∧ tail.dropWhile ordinary = tail := by
    cases ends <;> exact ⟨rfl, rfl⟩
  have taken : (data ++ tail).takeWhile ordinary = data := by
    rw [takeWhile_append_of_pos plain, special.1, append_nil]
  have dropped : (data ++ tail).dropWhile ordinary = tail := by
    rw [dropWhile_append_of_pos plain, special.2]
  rw [readUnquoted, taken, dropped, ends.fieldEnd]
  rfl

/-- A field that is written without quotes. -/
theorem readField_ordinary (plain : ∀ chr ∈ data, ordinary chr = true) (ends : Ends tail ended) :
    readField (data ++ tail) = some (if data = nullWord then none else some data, ended) := by
  rw [← readUnquoted_ordinary plain ends]
  unfold readField
  cases data with
  | nil => cases ends <;> rfl
  | cons chr rest =>
    have notQuote : chr ≠ doubleQuote := by
      rintro rfl
      exact absurd (plain _ mem_cons_self) (by decide)
    simp only [cons_append, if_neg notQuote]

theorem readQuoted_doubled (data : Bytes) (ends : Ends tail ended) :
    readQuoted (doubled .csvRfcUnix data ++ ([doubleQuote] ++ tail)) = some (data, tail) := by
  induction data with
  | nil => cases ends <;> rfl
  | cons chr data ih =>
    have step : doubled .csvRfcUnix (chr :: data) =
        (if chr = doubleQuote then [doubleQuote, doubleQuote] else [chr]) ++
          doubled .csvRfcUnix data :=
      doubled_cons _ _ _
    rw [step, append_assoc]
    by_cases encloses : chr = doubleQuote
    · rw [if_pos encloses, encloses, cons_append, singleton_append, readQuoted.eq_def]
      simp only [if_true, ih, map_some]
    · rw [if_neg encloses, singleton_append, readQuoted.eq_def]
      simp only [if_neg encloses, ih, map_some]

/-- A field that is written between quotes. -/
theorem readField_quoted (data : Bytes) (ends : Ends tail ended) :
    readField ([doubleQuote] ++ doubled .csvRfcUnix data ++ [doubleQuote] ++ tail) =
      some (some data, ended) := by
  rw [append_assoc, append_assoc, singleton_append, readField]
  simp only [if_true, readQuoted_doubled data ends, bind_some, ends.fieldEnd, map_some]

end Written

/-! ## The columns of the writer -/

/-- A value that is not enclosed has no special characters and is not the word `NULL`. -/
theorem inspect_unenclosed {data : Bytes} (unenclosed : (inspect .csvRfcUnix data).1 = false) :
    (∀ chr ∈ data, ordinary chr = true) ∧ data ≠ nullWord := by
  unfold inspect at unenclosed
  rw [if_pos (show FastTraits.csvRfcUnix.fieldsOptionallyEnclosed = true from rfl)] at unenclosed
  simp only at unenclosed
  split at unenclosed
  · split at unenclosed <;> cases unenclosed
  · next nothing =>
    refine ⟨fun chr member => ?_, ?_⟩
    · have absent := not_mem_of_findAnyOf nothing chr member
      simp only [needles, FastTraits.csvRfcUnix, mem_cons, not_or] at absent
      simp [ordinary, absent]
    · rintro rfl
      exact absurd unenclosed (by decide)

variable {ended : FieldEnd × Bytes}

theorem readField_escaped (data : Bytes) {tail : Bytes} (ends : Ends tail ended) :
    readField (escapedBytes .csvRfcUnix data ++ tail) = some (some data, ended) := by
  unfold escapedBytes
  cases enclosed : (inspect .csvRfcUnix data).1 with
  | true => exact readField_quoted data ends
  | false =>
    obtain ⟨plain, notNull⟩ := inspect_unenclosed enclosed
    have absent : FastTraits.csvRfcUnix.fieldsEnclosedBy ∉ data := fun member =>
      absurd (plain _ member) (by decide)
    simp only [Bool.false_eq_true, if_false, nil_append, append_nil]
    rw [doubled_eq_self _ absent, readField_ordinary plain ends, if_neg notNull]

/-- What the server promises of a value, by the type and the encoding of its column. -/
def ValidField (type : ColumnType) (encoding : Option EncodingType) (raw : RawData) : Prop :=
  (type.isNumeric = true → NumberText raw.data) ∧
    match encoding with
    | some .base64 =>
      ∀ chr ∈ base64Bytes raw.data, chr ∈ TextDumpWriter.base64TypesAlphabet
    | some .hex => ∀ chr ∈ raw.data, chr ∈ TextDumpWriter.hexTypesAlphabet
    | some .vector | some .none | none => True

/-- What is read for a value: the base64 text `NULL` cannot be told from SQL `NULL`. -/
def readBack (encoding : Option EncodingType) (raw : RawData) : Option Bytes :=
  if encoding = some .base64 then
    if base64Bytes raw.data = nullWord then none else some (base64Bytes raw.data)
  else some raw.data

/-- Values over an alphabet without special characters and without the letter `N`. -/
theorem readField_alphabet {alphabet data tail : Bytes}
    (plain : ∀ chr ∈ alphabet, ordinary chr = true ∧ chr ≠ 78)
    (members : ∀ chr ∈ data, chr ∈ alphabet) (ends : Ends tail ended) :
    readField (data ++ tail) = some (some data, ended) := by
  have notNull : data ≠ nullWord := by
    rintro rfl
    exact (plain 78 (members 78 (by decide))).2 rfl
  rw [readField_ordinary (fun chr member => (plain chr (members chr member)).1) ends,
    if_neg notNull]

variable {encoding : Option EncodingType}

theorem readField_fieldBytes {type : ColumnType} {field : Option RawData}
    (valid : ∀ raw, field = some raw → ValidField type encoding raw) {tail : Bytes}
    (ends : Ends tail ended) :
    readField (fieldBytes .csvRfcUnix type.isNumeric (escapeOf .csvRfcUnix type encoding) field ++
        tail) =
      some (field.bind (readBack encoding), ended) := by
  have quote : quoteBytes .csvRfcUnix = [] := rfl
  cases field with
  | none =>
    have plain : ∀ chr ∈ nullWord, ordinary chr = true := by decide +kernel
    have read := readField_ordinary plain ends
    exact read
  | some raw =>
    obtain ⟨number, encoded⟩ := valid raw rfl
    have notAlphabetic : (type.isNumeric && looksAlphabetic raw.data) = false := by
      cases numeric : type.isNumeric with
      | false => rfl
      | true => exact (number numeric).2
    have unencoded : encoding = none ∨ encoding = some .none →
        readField (storedBytes .csvRfcUnix (escapeOf .csvRfcUnix type encoding) raw.data ++ tail) =
          some (some raw.data, ended) := by
      intro choice
      have escape : escapeOf .csvRfcUnix type encoding =
          if type.isNumeric then .none else .full := by
        rcases choice with rfl | rfl <;> rfl
      rw [escape]
      cases numeric : type.isNumeric with
      | false => exact readField_escaped raw.data ends
      | true => exact readField_alphabet (by decide +kernel) (number numeric).1 ends
    simp only [fieldBytes, notAlphabetic, Bool.false_eq_true, quote, append_nil]
    cases encoding with
    | none => exact unencoded (.inl rfl)
    | some encoding =>
      cases encoding with
      | none => exact unencoded (.inr rfl)
      | vector => exact readField_escaped raw.data ends
      | hex => exact readField_alphabet (by decide +kernel) encoded ends
      | base64 =>
        have plain : ∀ chr ∈ TextDumpWriter.base64TypesAlphabet, ordinary chr = true := by
          decide +kernel
        exact readField_ordinary (fun chr member => plain chr (encoded chr member)) ends

/-! ## Rows -/

variable (metadata : List ColumnType)

/-- A row of the columns: as many fields, with the values that the server promises. -/
structure ValidRow (encodings : List EncodingType) (row : Row) :
    Prop where
  length_eq : row.length = metadata.length
  valid : ∀ index type, metadata[index]? = some type → ∀ raw, row.getRawData index = some raw →
    ValidField type (encodingOf metadata encodings index) raw

def readBackRow (encodings : List EncodingType) (row : Row) :
    List (Option Bytes) :=
  (List.range metadata.length).map fun index =>
    (row.getRawData index).bind (readBack (encodingOf metadata encodings index))

variable {encodings : List EncodingType}

theorem readLine_rowBytes {metadata : List ColumnType} {row : Row}
    (valid : ValidRow metadata encodings row) (rest : Bytes) :
    Lib.Delimited.readLine readField [newline] metadata.length
        (rowBytes .csvRfcUnix (readColumns .csvRfcUnix metadata encodings) row ++ rest) =
      some (readBackRow metadata encodings row, rest) := by
  let columns := readColumns .csvRfcUnix metadata encodings
  have reads : ∀ index, index < metadata.length →
      Reads readField [comma] [newline]
        (fieldBytes .csvRfcUnix (columns.isNumeric.getD index false)
          (columns.needsEscape.getD index .none) (row.getRawData index))
        ((row.getRawData index).bind (readBack (encodingOf metadata encodings index))) := by
    intro index inside
    obtain ⟨type, column⟩ : ∃ type, metadata[index]? = some type := ⟨_, getElem?_eq_getElem inside⟩
    have numeric : columns.isNumeric.getD index false = type.isNumeric := by
      simp only [columns, readColumns, getD_eq_getElem?_getD, getElem?_map, column,
        map_some, getD_some]
    have escape : columns.needsEscape.getD index .none =
        escapeOf .csvRfcUnix type (encodingOf metadata encodings index) := by
      simp only [columns, readColumns, getD_eq_getElem?_getD, getElem?_map,
        getElem?_range inside, map_some, getD_some, column]
    rw [numeric, escape]
    constructor
    · intro rest
      exact readField_fieldBytes (valid.valid index type column) (.field rest)
    · intro rest
      exact readField_fieldBytes (valid.valid index type column) (.line rest)
  exact Lib.Delimited.readLine_line reads rest

/-- What is read for the output of the writer. -/
theorem decode_output_eq (encodings : List EncodingType)
    (rows : List Row) (valid : ∀ row ∈ rows, ValidRow metadata encodings row) :
    decode metadata.length ((output .csvRfcUnix metadata encodings rows).1 ++
        (output .csvRfcUnix metadata encodings rows).2.flatten) =
      some (rows.map (readBackRow metadata encodings)) := by
  rw [output_eq]
  exact Lib.Delimited.decode_lines rows (fun row _ => by simp [rowBytes])
    fun row member => readLine_rowBytes (valid row member)

/-- A value without the line ends of base64 data. -/
def stored (encoding : Option EncodingType) (raw : RawData) : Bytes :=
  if encoding = some .base64 then base64Bytes raw.data else raw.data

def storedRow (encodings : List EncodingType) (row : Row) :
    List (Option Bytes) :=
  (List.range metadata.length).map fun index =>
    (row.getRawData index).map (stored (encodingOf metadata encodings index))

/-- The text `NULL` is not changed by removing line ends, and no other text becomes it. -/
theorem base64Bytes_eq_nullWord {data : Bytes} : base64Bytes data = nullWord ↔ data = nullWord := by
  rcases Nat.lt_or_ge base64LineLength data.length with long | short
  · have bound := (base64Bytes_long long).1
    constructor
    · intro null
      rw [null] at bound
      exact absurd bound (by decide)
    · rintro rfl
      exact absurd long (by decide)
  · rw [base64Bytes_short short]

theorem readBack_eq_stored {raw : RawData} :
    readBack encoding raw = some (stored encoding raw) ↔
      (encoding = some .base64 → raw.data ≠ nullWord) := by
  unfold readBack stored
  by_cases encoded : encoding = some .base64
  · simp only [if_pos encoded]
    by_cases null : base64Bytes raw.data = nullWord
    · rw [if_pos null]
      simp [encoded, base64Bytes_eq_nullWord.mp null]
    · rw [if_neg null]
      simp only [true_iff]
      exact fun _ same => null (base64Bytes_eq_nullWord.mpr same)
  · simp [encoded]

theorem readBack_eq_data {raw : RawData} :
    readBack encoding raw = some raw.data ↔
      (encoding = some .base64 → raw.data ≠ nullWord ∧ raw.data.length ≤ base64LineLength) := by
  unfold readBack
  by_cases encoded : encoding = some .base64
  · rw [if_pos encoded]
    rcases Nat.lt_or_ge base64LineLength raw.data.length with long | short
    · have shorter := (base64Bytes_long long).2
      constructor
      · intro same
        split at same
        · cases same
        · rw [some.inj same] at shorter
          exact absurd shorter (Nat.lt_irrefl _)
      · intro condition
        exact absurd (condition encoded).2 (Nat.not_le.mpr long)
    · rw [base64Bytes_short short]
      by_cases null : raw.data = nullWord
      · simp [encoded, null]
      · simp [encoded, short]
  · simp [encoded]

/-- Two ways of reading the fields of a row agree when they agree on its values. -/
theorem map_fields_iff {Result : Type} {row : Row} {count : Nat}
    {first second : Nat → RawData → Option Result} :
    (List.range count).map (fun index => (row.getRawData index).bind (first index)) =
        (List.range count).map (fun index => (row.getRawData index).bind (second index)) ↔
      ∀ index, index < count → ∀ raw, row.getRawData index = some raw →
        first index raw = second index raw := by
  rw [map_inj_left]
  constructor
  · intro same index inside raw field
    have here := same index (mem_range.mpr inside)
    rw [field] at here
    exact here
  · intro same index member
    cases field : row.getRawData index with
    | none => rfl
    | some raw => exact same index (mem_range.mp member) raw field

theorem lt_of_encodingOf {metadata : List ColumnType} {index : Nat} {encoding : EncodingType}
    (known : encodingOf metadata encodings index = some encoding) : index < metadata.length := by
  unfold encodingOf at known
  split at known
  · next same =>
    obtain ⟨inside, -⟩ := List.getElem?_eq_some_iff.mp known
    exact same ▸ inside
  · cases known

/--
The output of the csv-rfc-unix writer is read back as the rows unless a value of a base64
column is the text `NULL` or has more than one line. If the line ends of base64 values do not
count, only the text `NULL` remains.
-/
theorem decode_output_iff (encodings : List EncodingType)
    (rows : List Row) (valid : ∀ row ∈ rows, ValidRow metadata encodings row) :
    (decode metadata.length ((output .csvRfcUnix metadata encodings rows).1 ++
          (output .csvRfcUnix metadata encodings rows).2.flatten) =
        some (rows.map fun row => row.map (Option.map RawData.data)) ↔
      ∀ row ∈ rows, ∀ index raw, encodingOf metadata encodings index = some .base64 →
        row.getRawData index = some raw →
          raw.data ≠ nullWord ∧ raw.data.length ≤ base64LineLength) ∧
    (decode metadata.length ((output .csvRfcUnix metadata encodings rows).1 ++
          (output .csvRfcUnix metadata encodings rows).2.flatten) =
        some (rows.map (storedRow metadata encodings)) ↔
      ∀ row ∈ rows, ∀ index raw, encodingOf metadata encodings index = some .base64 →
        row.getRawData index = some raw → raw.data ≠ nullWord) := by
  rw [decode_output_eq metadata encodings rows valid, some.injEq, some.injEq,
    map_inj_left, map_inj_left]
  constructor
  · refine forall₂_congr fun row member => ?_
    rw [← Row.map_getRawData (valid row member).length_eq]
    simp only [map_eq_bind, readBackRow]
    rw [map_fields_iff]
    constructor
    · intro same index raw encoded field
      exact readBack_eq_data.mp (same index (lt_of_encodingOf encoded) raw field) encoded
    · intro condition index _ raw field
      exact readBack_eq_data.mpr fun encoded => condition index raw encoded field
  · refine forall₂_congr fun row member => ?_
    simp only [readBackRow, storedRow, map_eq_bind]
    rw [map_fields_iff]
    constructor
    · intro same index raw encoded field
      exact readBack_eq_stored.mp (same index (lt_of_encodingOf encoded) raw field) encoded
    · intro condition index _ raw field
      exact readBack_eq_stored.mpr fun encoded => condition index raw encoded field

/-- The word `NULL` as a string, an empty string, SQL `NULL`, a number and a quoted line end. -/
def wordRow : Row :=
  [some ⟨ascii ['N', 'U', 'L', 'L'], 0⟩, some ⟨[], 0⟩, none, some ⟨ascii ['-', '7'], 0⟩,
    some ⟨ascii ['"', ',', '\n'], 0⟩]

theorem decode_output_iff_words :
    ValidRow [.string, .string, .integer, .integer, .string] [] wordRow ∧
    decode 5 ((output .csvRfcUnix [.string, .string, .integer, .integer, .string] [] [wordRow]).1 ++
        (output .csvRfcUnix [.string, .string, .integer, .integer, .string] []
          [wordRow]).2.flatten) =
      some [[some (ascii ['N', 'U', 'L', 'L']), some [], none, some (ascii ['-', '7']),
        some (ascii ['"', ',', '\n'])]] := by
  have valid : ValidRow [.string, .string, .integer, .integer, .string] [] wordRow := by
    refine ⟨rfl, fun index type column raw field => ⟨fun numeric => ?_, ?_⟩⟩
    · match index, column with
      | 0, rfl | 1, rfl | 4, rfl => cases numeric
      | 2, rfl => cases field
      | 3, rfl =>
        cases field
        exact ⟨by decide +kernel, by decide⟩
    · exact trivial
  refine ⟨valid, ?_⟩
  have rows : ∀ row ∈ [wordRow],
      ValidRow [.string, .string, .integer, .integer, .string] [] row := by
    intro row member
    obtain rfl := mem_singleton.mp member
    exact valid
  refine (decode_output_iff _ _ [wordRow] rows).1.mpr ?_
  intro row _ index raw encoded
  cases encoded

/-- The base64 text of the three bytes 35 42 CB. -/
def nullText : Row := [some ⟨ascii ['N', 'U', 'L', 'L'], 0⟩]

/-- A binary value comes back as SQL `NULL`. -/
theorem decode_output_null : ValidRow [.string] [.base64] nullText ∧
    (output .csvRfcUnix [.string] [.base64] [nullText]).2 = [ascii ['N', 'U', 'L', 'L', '\n']] ∧
    decode 1 ((output .csvRfcUnix [.string] [.base64] [nullText]).1 ++
        (output .csvRfcUnix [.string] [.base64] [nullText]).2.flatten) = some [[none]] ∧
    decode 1 ((output .csvRfcUnix [.string] [.base64] [nullText]).1 ++
        (output .csvRfcUnix [.string] [.base64] [nullText]).2.flatten) ≠
      some ([nullText].map fun row => row.map (Option.map RawData.data)) := by
  refine ⟨⟨rfl, fun index type column raw field => ⟨fun numeric => ?_, ?_⟩⟩, by decide +kernel,
    by decide +kernel, by decide +kernel⟩
  · match index, column with
    | 0, rfl => cases numeric
  · match index, column with
    | 0, rfl =>
      cases field
      have alphabet : ∀ chr ∈ base64Bytes (ascii ['N', 'U', 'L', 'L']),
          chr ∈ TextDumpWriter.base64TypesAlphabet := by decide +kernel
      exact alphabet

end Rfc4180

end MariadbShell.Dump
