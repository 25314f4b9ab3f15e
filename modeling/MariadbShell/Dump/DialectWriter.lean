import MariadbShell.Dump.Buffer

/-!
# The writer for a built-in dialect

`Dialect_dump_writer` is a template over the traits of a dialect. What the template
asserts of its traits is part of `Traits`. Next to each function that appends to the
buffer stands the bytes that it appends.
-/

namespace MariadbShell.Dump

open List ImportTable Byte Buffer

/-- Options of a dialect that are fixed at compile time, as the template requires them. -/
structure Traits where
  linesTerminatedBy : Bytes
  fieldsEscapedBy : Bytes
  fieldsTerminatedBy : Bytes
  fieldsEnclosedBy : Bytes
  fieldsOptionallyEnclosed : Bool
  lines_length : 1 ≤ linesTerminatedBy.length ∧ linesTerminatedBy.length ≤ 2 := by decide
  escaped_length : fieldsEscapedBy.length ≤ 1 := by decide
  fields_length : fieldsTerminatedBy.length = 1 := by decide
  enclosed_length : fieldsEnclosedBy.length ≤ 1 := by decide
  vectors : fieldsEnclosedBy.length = 1 ∨ fieldsTerminatedBy ≠ [comma] := by decide

namespace Traits

def default_ : Traits where
  linesTerminatedBy := [newline]
  fieldsEscapedBy := [backslash]
  fieldsTerminatedBy := [tab]
  fieldsEnclosedBy := []
  fieldsOptionallyEnclosed := false

def csv : Traits where
  linesTerminatedBy := [carriageReturn, newline]
  fieldsEscapedBy := [backslash]
  fieldsTerminatedBy := [comma]
  fieldsEnclosedBy := [doubleQuote]
  fieldsOptionallyEnclosed := true

def tsv : Traits where
  linesTerminatedBy := [carriageReturn, newline]
  fieldsEscapedBy := [backslash]
  fieldsTerminatedBy := [tab]
  fieldsEnclosedBy := [doubleQuote]
  fieldsOptionallyEnclosed := true

def csvUnix : Traits where
  linesTerminatedBy := [newline]
  fieldsEscapedBy := [backslash]
  fieldsTerminatedBy := [comma]
  fieldsEnclosedBy := [doubleQuote]
  fieldsOptionallyEnclosed := false

end Traits

/-- The built-in dialects with an escape character. -/
inductive EscapingDialect where
  | default_
  | csv
  | tsv
  | csvUnix
deriving DecidableEq, Repr

namespace EscapingDialect

def traits : EscapingDialect → Traits
  | default_ => .default_
  | csv => .csv
  | tsv => .tsv
  | csvUnix => .csvUnix

def dialect : EscapingDialect → Dialect
  | default_ => .default_
  | csv => .csv
  | tsv => .tsv
  | csvUnix => .csvUnix

end EscapingDialect

namespace DialectDumpWriter

def escapeOf (type : ColumnType) (encoding : Option EncodingType) : EscapeType :=
  if type.isNumberType then .none
  else
    match encoding with
    | some .base64 => .base64
    | some .hex | some .vector => .none
    | some .none | none => .full

section Template

variable (traits : Traits)

def fixedLength (metadata : List ColumnType) : Nat :=
  traits.linesTerminatedBy.length + (metadata.length - 1) +
    (metadata.map fun type =>
      if !traits.fieldsOptionallyEnclosed || type.isStringType then
        2 * traits.fieldsEnclosedBy.length
      else 0).sum

def readMetadata (metadata : List ColumnType) (encodings : List EncodingType) (buffer : Buffer) :
    Columns × Buffer :=
  (Columns.read escapeOf metadata encodings, buffer.setFixedLength (fixedLength traits metadata))

/-- Characters other than the control characters that are escaped. -/
def shouldEscape (chr : UInt8) : Bool :=
  if traits.fieldsEnclosedBy = [] then traits.fieldsTerminatedBy.head? == some chr
  else traits.fieldsEnclosedBy.head? == some chr

/-- The byte written after the escape character, if the byte needs one. -/
def toWrite (chr : UInt8) : Option UInt8 :=
  match controlSequence chr with
  | some written => some written
  | none =>
    if traits.fieldsEscapedBy.head? == some chr || traits.linesTerminatedBy.head? == some chr ||
        shouldEscape traits chr then some chr
    else none

def escapeByte (chr : UInt8) : Bytes :=
  match toWrite traits chr with
  | some written => traits.fieldsEscapedBy ++ [written]
  | none => [chr]

def storeUnescapedField (data : Bytes) (buffer : Buffer) : Buffer :=
  (buffer.willWrite data.length).append data

def storeEscapedField (data : Bytes) (buffer : Buffer) : Buffer :=
  data.foldl (fun written chr => written.append (escapeByte traits chr))
    (buffer.willWrite (2 * data.length))

def storeBase64Field (data : Bytes) (buffer : Buffer) : Buffer :=
  buffer.writeBase64Data data

/-- A value of a column that may need escaping. -/
def storeValue (data : Bytes) (buffer : Buffer) : Buffer :=
  if traits.fieldsEscapedBy = [] then storeUnescapedField data buffer
  else storeEscapedField traits data buffer

def storeNull (buffer : Buffer) : Buffer :=
  if traits.fieldsEscapedBy = [] then (buffer.willWrite 4).append (ascii ['N', 'U', 'L', 'L'])
  else (buffer.willWrite 2).append (traits.fieldsEscapedBy ++ ascii ['N'])

def encloses (isString : Bool) : Bool :=
  !traits.fieldsOptionallyEnclosed || isString

def quoteField (isString : Bool) (buffer : Buffer) : Buffer :=
  if traits.fieldsEnclosedBy = [] then buffer
  else if encloses traits isString then buffer.appendFixed traits.fieldsEnclosedBy
  else buffer

variable (columns : Columns)

def storeField (row : Row) (index : Nat) (buffer : Buffer) : Buffer :=
  let separated := if index ≠ 0 then buffer.appendFixed traits.fieldsTerminatedBy else buffer
  let isString := columns.isStringType.getD index false
  match row.getRawData index with
  | none => storeNull traits separated
  | some raw =>
    if columns.isNumberType.getD index false && looksAlphabetic raw.data then
      storeNull traits separated
    else
      let quoted := quoteField traits isString separated
      let stored :=
        match columns.needsEscape.getD index .none with
        | .full => storeValue traits raw.data quoted
        | .base64 => storeBase64Field raw.data quoted
        | .none => storeUnescapedField raw.data quoted
      quoteField traits isString stored

def finishRow (buffer : Buffer) : Buffer :=
  buffer.appendFixed traits.linesTerminatedBy

def storeRow (row : Row) (buffer : Buffer) : Buffer :=
  finishRow traits (storeFields (storeField traits columns row) columns.numFields buffer)

end Template

/-! ## What is written -/

section Written

variable (traits : Traits)

theorem storeEscapedField_data (data : Bytes) (buffer : Buffer) :
    (storeEscapedField traits data buffer).data =
      buffer.data ++ data.flatMap (escapeByte traits) := by
  rw [storeEscapedField, encoded_data, willWrite_data]

def valueBytes (data : Bytes) : Bytes :=
  if traits.fieldsEscapedBy = [] then data else data.flatMap (escapeByte traits)

/-- The bytes of a value, without its enclosure. -/
def storedBytes (escape : EscapeType) (data : Bytes) : Bytes :=
  match escape with
  | .full => valueBytes traits data
  | .base64 => base64Bytes data
  | .none => data

def nullBytes : Bytes :=
  if traits.fieldsEscapedBy = [] then ascii ['N', 'U', 'L', 'L']
  else traits.fieldsEscapedBy ++ ascii ['N']

/-- The enclosing character, where values are enclosed. -/
def quoteBytes (isString : Bool) : Bytes :=
  if encloses traits isString then traits.fieldsEnclosedBy else []

/-- The bytes of a field, without the terminator before it. -/
def fieldBytes (isString isNumber : Bool) (escape : EscapeType) (field : Option RawData) : Bytes :=
  match field with
  | none => nullBytes traits
  | some raw =>
    if isNumber && looksAlphabetic raw.data then nullBytes traits
    else quoteBytes traits isString ++ storedBytes traits escape raw.data ++
      quoteBytes traits isString

theorem storeUnescapedField_data (data : Bytes) (buffer : Buffer) :
    (storeUnescapedField data buffer).data = buffer.data ++ data := by
  rw [storeUnescapedField, append_data, willWrite_data]

theorem storeNull_data (buffer : Buffer) :
    (storeNull traits buffer).data = buffer.data ++ nullBytes traits := by
  unfold storeNull nullBytes
  split
  · rw [append_data, willWrite_data]
  · rw [append_data, willWrite_data]

theorem quoteField_data (isString : Bool) (buffer : Buffer) :
    (quoteField traits isString buffer).data = buffer.data ++ quoteBytes traits isString := by
  unfold quoteField quoteBytes
  by_cases unused : traits.fieldsEnclosedBy = []
  · rw [if_pos unused, unused]
    split <;> exact (append_nil _).symm
  · rw [if_neg unused]
    split
    · exact appendFixed_data _ _
    · exact (append_nil _).symm

theorem storeValue_data (data : Bytes) (buffer : Buffer) :
    (storeValue traits data buffer).data = buffer.data ++ valueBytes traits data := by
  unfold storeValue valueBytes
  split
  · exact storeUnescapedField_data data buffer
  · exact storeEscapedField_data traits data buffer

variable (columns : Columns)

/-- The bytes of a field of a row and the terminator before it. -/
def separatedBytes (row : Row) (index : Nat) : Bytes :=
  (if index ≠ 0 then traits.fieldsTerminatedBy else []) ++
    fieldBytes traits (columns.isStringType.getD index false)
      (columns.isNumberType.getD index false) (columns.needsEscape.getD index .none)
      (row.getRawData index)

theorem storeField_data (row : Row) (index : Nat) (buffer : Buffer) :
    (storeField traits columns row index buffer).data =
      buffer.data ++ separatedBytes traits columns row index := by
  have separated := buffer.separated_data index traits.fieldsTerminatedBy
  unfold storeField separatedBytes fieldBytes
  cases field : row.getRawData index with
  | none => rw [storeNull_data, separated, append_assoc]
  | some raw =>
    simp only []
    split
    · rw [storeNull_data, separated, append_assoc]
    · rw [quoteField_data]
      cases columns.needsEscape.getD index .none with
      | full =>
        simp only [storedBytes, storeValue_data, quoteField_data, separated, append_assoc]
      | base64 =>
        simp only [storedBytes, storeBase64Field, writeBase64Data_data, quoteField_data,
          separated, append_assoc]
      | none =>
        simp only [storedBytes, storeUnescapedField_data, quoteField_data, separated, append_assoc]

def rowBytes (row : Row) : Bytes :=
  ((List.range columns.numFields).map (separatedBytes traits columns row)).flatten ++
    traits.linesTerminatedBy

theorem storeRow_data (row : Row) (buffer : Buffer) :
    (storeRow traits columns row buffer).data = buffer.data ++ rowBytes traits columns row := by
  rw [storeRow, finishRow, appendFixed_data,
    storeFields_data (storeField_data traits columns row), append_assoc]
  rfl

end Written

end DialectDumpWriter

end MariadbShell.Dump
