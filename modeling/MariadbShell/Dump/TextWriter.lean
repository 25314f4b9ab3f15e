import MariadbShell.Dump.DialectWriter

/-!
# The writer for any dialect

`Text_dump_writer` takes the dialect at run time. Its constructor works out which
characters have to be escaped and which kinds of columns contain none of them.
-/

namespace MariadbShell.Dump

open List ImportTable Buffer

structure TextDumpWriter where
  dialect : Dialect
  lineTerminator : Bytes
  null : Bytes
  escape : Bool
  escapedCharacters : Bytes
  escapeChar : UInt8
  doubleEnclosedBy : Bool
  numbersNeedEscape : EscapeType
  vectorsNeedEscape : EscapeType
  hexNeedEscape : EscapeType
  base64NeedEscape : EscapeType
deriving DecidableEq, Repr

namespace TextDumpWriter

def numericTypesAlphabet : Bytes :=
  ascii ['.', '0', '1', '2', '3', '4', '5', '6', '7', '8', '9', 'e', '+', '-']

def vectorTypesAlphabet : Bytes :=
  ascii ['.', '0', '1', '2', '3', '4', '5', '6', '7', '8', '9', 'e', '+', '-', '[', ']', ',']

def hexTypesAlphabet : Bytes :=
  ascii ['0', '1', '2', '3', '4', '5', '6', '7', '8', '9', 'a', 'b', 'c', 'd', 'e', 'f',
    'A', 'B', 'C', 'D', 'E', 'F']

def base64TypesAlphabet : Bytes :=
  ascii ['a', 'b', 'c', 'd', 'e', 'f', 'g', 'h', 'i', 'j', 'k', 'l', 'm', 'n', 'o', 'p', 'q',
    'r', 's', 't', 'u', 'v', 'w', 'x', 'y', 'z', 'A', 'B', 'C', 'D', 'E', 'F', 'G', 'H', 'I',
    'J', 'K', 'L', 'M', 'N', 'O', 'P', 'Q', 'R', 'S', 'T', 'U', 'V', 'W', 'X', 'Y', 'Z', '0',
    '1', '2', '3', '4', '5', '6', '7', '8', '9', '+', '/', '=']

/-- The used entries of `m_escaped_characters`; the other ones are zero bytes. -/
def escapedBy (dialect : Dialect) : Bytes :=
  if dialect.fieldsEscapedBy = [] then []
  else
    dialect.fieldsEscapedBy.take 1 ++
      (if dialect.fieldsEnclosedBy = [] then dialect.fieldsTerminatedBy.take 1
        else dialect.fieldsEnclosedBy.take 1) ++
      dialect.linesTerminatedBy.take 1

/-- Whether a kind of values may contain an escaped character. -/
def needEscape (escaped alphabet : Bytes) (otherwise : EscapeType) : EscapeType :=
  if escaped.any alphabet.contains then .full else otherwise

/-- Characters that make another escape sequence after the escape character. -/
def sequenceChars : Bytes := ascii ['0', 'b', 'n', 'r', 't', 'Z', 'N']

def create (dialect : Dialect) : TextDumpWriter where
  dialect := dialect
  lineTerminator :=
    if dialect.linesTerminatedBy = [] then dialect.fieldsTerminatedBy
    else dialect.linesTerminatedBy
  null :=
    if dialect.fieldsEscapedBy = [] then ascii ['N', 'U', 'L', 'L']
    else dialect.fieldsEscapedBy ++ ascii ['N']
  escape := dialect.fieldsEscapedBy ≠ []
  escapedCharacters :=
    escapedBy dialect ++ List.replicate (4 - (escapedBy dialect).length) Byte.nul
  escapeChar := dialect.fieldsEscapedBy.headD 0
  doubleEnclosedBy := dialect.fieldsEnclosedBy.take 1 |>.any sequenceChars.contains
  numbersNeedEscape := needEscape (escapedBy dialect) numericTypesAlphabet .none
  vectorsNeedEscape := needEscape (escapedBy dialect) vectorTypesAlphabet .none
  hexNeedEscape := needEscape (escapedBy dialect) hexTypesAlphabet .none
  base64NeedEscape := needEscape (escapedBy dialect) base64TypesAlphabet .base64

variable (writer : TextDumpWriter)

def escapeOf (type : ColumnType) (encoding : Option EncodingType) : EscapeType :=
  if type.isNumberType then writer.numbersNeedEscape
  else
    match encoding with
    | some .base64 => writer.base64NeedEscape
    | some .hex => writer.hexNeedEscape
    | some .vector => writer.vectorsNeedEscape
    | some .none | none => .full

def fixedLength (metadata : List ColumnType) : Nat :=
  writer.dialect.linesStartingBy.length + writer.lineTerminator.length +
    (metadata.length - 1) * writer.dialect.fieldsTerminatedBy.length +
    (metadata.map fun type =>
      if !writer.dialect.fieldsOptionallyEnclosed || type.isStringType then
        2 * writer.dialect.fieldsEnclosedBy.length
      else 0).sum

def readMetadata (metadata : List ColumnType) (encodings : List EncodingType) (buffer : Buffer) :
    Columns × Buffer :=
  (Columns.read writer.escapeOf metadata encodings,
    buffer.setFixedLength (writer.fixedLength metadata))

def startRow (buffer : Buffer) : Buffer :=
  buffer.appendFixed writer.dialect.linesStartingBy

/-- The escape character and the byte written after it, if the byte needs one. -/
def toWrite (chr : UInt8) : Option (UInt8 × UInt8) :=
  match controlSequence chr with
  | some written => some (writer.escapeChar, written)
  | none =>
    if writer.escapedCharacters.contains chr then
      if writer.doubleEnclosedBy && writer.dialect.fieldsEnclosedBy.head? == some chr then
        some (chr, chr)
      else some (writer.escapeChar, chr)
    else none

def escapeByte (chr : UInt8) : Bytes :=
  match writer.toWrite chr with
  | some (escape, written) => [escape, written]
  | none => [chr]

def storeEscapedData (data : Bytes) (buffer : Buffer) : Buffer :=
  data.foldl (fun written chr => written.append (writer.escapeByte chr))
    (buffer.willWrite (2 * data.length))

/-- `data[76] == '\n'`, which may look at the byte after the value. -/
def newlineAfterLine (raw : RawData) : Bool :=
  (raw.data ++ [raw.following])[base64LineLength]? == some Byte.newline

def storeData (needsEscape : EscapeType) (raw : RawData) (buffer : Buffer) : Buffer :=
  if !writer.escape || needsEscape == .none then
    (buffer.willWrite raw.data.length).append raw.data
  else if writer.escape && needsEscape == .base64 &&
      (raw.data.length < base64LineLength || newlineAfterLine raw) then
    buffer.writeBase64Data raw.data
  else writer.storeEscapedData raw.data buffer

def storeNull (buffer : Buffer) : Buffer :=
  (buffer.willWrite writer.null.length).append writer.null

def quoteField (isString : Bool) (buffer : Buffer) : Buffer :=
  if !writer.dialect.fieldsOptionallyEnclosed || isString then
    buffer.appendFixed writer.dialect.fieldsEnclosedBy
  else buffer

variable (columns : Columns) (row : Row)

def storeField (index : Nat) (buffer : Buffer) : Buffer :=
  let separated :=
    if index ≠ 0 then buffer.appendFixed writer.dialect.fieldsTerminatedBy else buffer
  let isString := columns.isStringType.getD index false
  match row.getRawData index with
  | none => writer.storeNull separated
  | some raw =>
    if columns.isNumberType.getD index false && looksAlphabetic raw.data then
      writer.storeNull separated
    else
      writer.quoteField isString
        (writer.storeData (columns.needsEscape.getD index .none) raw
          (writer.quoteField isString separated))

def finishRow (buffer : Buffer) : Buffer :=
  buffer.appendFixed writer.lineTerminator

def storeRow (buffer : Buffer) : Buffer :=
  writer.finishRow
    (storeFields (writer.storeField columns row) columns.numFields (writer.startRow buffer))

/-! ## What is written -/

theorem storeEscapedData_data (data : Bytes) (buffer : Buffer) :
    (writer.storeEscapedData data buffer).data = buffer.data ++ data.flatMap writer.escapeByte := by
  rw [storeEscapedData, encoded_data, willWrite_data]

def storedBytes (needsEscape : EscapeType) (raw : RawData) : Bytes :=
  if !writer.escape || needsEscape == .none then raw.data
  else if writer.escape && needsEscape == .base64 &&
      (raw.data.length < base64LineLength || newlineAfterLine raw) then
    base64Bytes raw.data
  else raw.data.flatMap writer.escapeByte

theorem storeData_data (needsEscape : EscapeType) (raw : RawData) (buffer : Buffer) :
    (writer.storeData needsEscape raw buffer).data =
      buffer.data ++ writer.storedBytes needsEscape raw := by
  unfold storeData storedBytes
  split
  · rw [append_data, willWrite_data]
  · split
    · exact writeBase64Data_data _ _
    · exact writer.storeEscapedData_data _ _

def quoteBytes (isString : Bool) : Bytes :=
  if !writer.dialect.fieldsOptionallyEnclosed || isString then writer.dialect.fieldsEnclosedBy
  else []

theorem quoteField_data (isString : Bool) (buffer : Buffer) :
    (writer.quoteField isString buffer).data = buffer.data ++ writer.quoteBytes isString := by
  unfold quoteField quoteBytes
  split
  · exact appendFixed_data _ _
  · exact (append_nil _).symm

theorem storeNull_data (buffer : Buffer) :
    (writer.storeNull buffer).data = buffer.data ++ writer.null := by
  rw [storeNull, append_data, willWrite_data]

def fieldBytes (isString isNumber : Bool) (escape : EscapeType) (field : Option RawData) : Bytes :=
  match field with
  | none => writer.null
  | some raw =>
    if isNumber && looksAlphabetic raw.data then writer.null
    else writer.quoteBytes isString ++ writer.storedBytes escape raw ++ writer.quoteBytes isString

def separatedBytes (index : Nat) : Bytes :=
  (if index ≠ 0 then writer.dialect.fieldsTerminatedBy else []) ++
    writer.fieldBytes (columns.isStringType.getD index false)
      (columns.isNumberType.getD index false) (columns.needsEscape.getD index .none)
      (row.getRawData index)

theorem storeField_data (index : Nat) (buffer : Buffer) :
    (writer.storeField columns row index buffer).data =
      buffer.data ++ writer.separatedBytes columns row index := by
  have separated := buffer.separated_data index writer.dialect.fieldsTerminatedBy
  unfold storeField separatedBytes fieldBytes
  cases row.getRawData index with
  | none => rw [storeNull_data, separated, append_assoc]
  | some raw =>
    simp only []
    split
    · rw [storeNull_data, separated, append_assoc]
    · simp only [quoteField_data, storeData_data, separated, append_assoc]

def rowBytes : Bytes :=
  writer.dialect.linesStartingBy ++
    ((List.range columns.numFields).map (writer.separatedBytes columns row)).flatten ++
      writer.lineTerminator

theorem storeRow_data (buffer : Buffer) :
    (writer.storeRow columns row buffer).data = buffer.data ++ writer.rowBytes columns row := by
  rw [storeRow, finishRow, appendFixed_data,
    storeFields_data (writer.storeField_data columns row), startRow, appendFixed_data,
    rowBytes, append_assoc, append_assoc, append_assoc]

end TextDumpWriter

/-- The text of a number, as the server prints it. -/
def NumberText (data : Bytes) : Prop :=
  (∀ chr ∈ data, chr ∈ TextDumpWriter.numericTypesAlphabet) ∧ looksAlphabetic data = false

end MariadbShell.Dump
