import MariadbShell.ImportTable.Dialect

/-!
# Rows, columns and the row buffer of the dump writers

`Dump_writer` collects each row in a buffer. Space is reserved with `willWrite` before the
bytes of a value are appended; the bytes that every row has (terminators and enclosures) are
reserved once, with `setFixedLength`.
-/

namespace MariadbShell.Dump

open List ImportTable

/-! ## Columns -/

inductive ColumnType where
  | null
  | string
  | integer
  | uInteger
  | float
  | double
  | decimal
  | bytes
  | geometry
  | json
  | date
  | time
  | dateTime
  | bit
  | enum
  | set
  | vector
deriving DecidableEq, Repr

namespace ColumnType

def isStringType : ColumnType → Bool
  | bytes | geometry | json | date | time | dateTime | enum | set | string | vector => true
  | _ => false

def isNumeric : ColumnType → Bool
  | integer | uInteger | float | double | decimal => true
  | _ => false

end ColumnType

/-- Encoding in which the server already returns the values of a column. -/
inductive EncodingType where
  | none
  | base64
  | hex
  | vector
deriving DecidableEq, Repr

inductive EscapeType where
  | none
  | full
  | base64
deriving DecidableEq, Repr

/-- Columns of numbers; bit fields are transferred in binary format. -/
def ColumnType.isNumberType (type : ColumnType) : Bool :=
  !type.isStringType && type != .bit

/-- Encodings are known only when there is one for every column. -/
def encodingOf (metadata : List ColumnType) (encodings : List EncodingType) (index : Nat) :
    Option EncodingType :=
  if encodings.length = metadata.length then encodings[index]? else none

/-- What `read_metadata` finds out about the columns. -/
structure Columns where
  numFields : Nat
  isStringType : List Bool
  isNumberType : List Bool
  needsEscape : List EscapeType
deriving DecidableEq, Repr

/-- The columns of a writer that stores a column as `escapeOf` says. -/
def Columns.read (escapeOf : ColumnType → Option EncodingType → EscapeType)
    (metadata : List ColumnType) (encodings : List EncodingType) : Columns where
  numFields := metadata.length
  isStringType := metadata.map ColumnType.isStringType
  isNumberType := metadata.map ColumnType.isNumberType
  needsEscape := (List.range metadata.length).map fun index =>
    escapeOf (metadata.getD index .null) (encodingOf metadata encodings index)

/-- A value of a row in memory, with the byte that follows it there. -/
structure RawData where
  data : Bytes
  following : UInt8
deriving DecidableEq, Repr

/-- A row of a result set; `none` is SQL `NULL`. -/
abbrev Row := List (Option RawData)

/-- `get_raw_data`; there is no data where there is no field. -/
def Row.getRawData (row : Row) (index : Nat) : Option RawData :=
  row[index]?.join

/-- Reading all fields of a row gives the row. -/
theorem Row.map_getRawData {Value : Type} {read : RawData → Value} {row : Row} {count : Nat}
    (length_eq : row.length = count) :
    (List.range count).map (fun index => (row.getRawData index).map read) =
      row.map (Option.map read) := by
  refine ext_getElem (by simp [length_eq]) fun index inside inside' => ?_
  rw [length_map] at inside'
  simp [Row.getRawData, getElem?_eq_getElem inside']

/-- `std::isalpha` in the C locale. -/
def isAlpha (chr : UInt8) : Bool :=
  (65 ≤ chr && chr ≤ 90) || (97 ≤ chr && chr ≤ 122)

/-- Text such as "inf", "-inf" or "nan" in a column of numbers. -/
def looksAlphabetic (data : Bytes) : Bool :=
  match data with
  | first :: second :: _ => isAlpha first || (first == 45 && isAlpha second)
  | [first] => isAlpha first
  | [] => false

/-- The control characters that are written as an escape sequence, with its last byte. -/
def controlSequences : List (UInt8 × UInt8) :=
  [(Byte.nul, 48), (Byte.backspace, 98), (Byte.newline, 110), (Byte.carriageReturn, 114),
    (Byte.tab, 116), (Byte.controlZ, 90)]

/-- The cases of the switch over the bytes of a value. -/
def controlSequence (chr : UInt8) : Option UInt8 :=
  controlSequences.lookup chr

/-! ## The buffer -/

/-- The bytes written so far and the space that is reserved for them. -/
structure Buffer where
  capacity : Nat
  data : Bytes
  fixedLength : Nat
  fixedLengthRemaining : Nat
deriving DecidableEq, Repr

namespace Buffer

def create : Buffer := ⟨1024, [], 0, 0⟩

variable (buffer : Buffer)

def append (bytes : Bytes) : Buffer :=
  { buffer with data := buffer.data ++ bytes }

def appendFixed (bytes : Bytes) : Buffer :=
  { buffer.append bytes with
    fixedLengthRemaining := buffer.fixedLengthRemaining - bytes.length }

def clear : Buffer :=
  { buffer with data := [], fixedLengthRemaining := buffer.fixedLength }

/-- Double the capacity until it reaches what is requested. -/
def grow (requested : Nat) : Nat → Nat → Nat
  | 0, capacity => capacity
  | fuel + 1, capacity =>
    if capacity < requested then grow requested fuel (2 * capacity) else capacity

def resize (requested : Nat) : Buffer :=
  { buffer with capacity := grow requested requested buffer.capacity }

def willWrite (bytes : Nat) : Buffer :=
  let requested := buffer.data.length + buffer.fixedLengthRemaining + bytes
  if buffer.capacity < requested then buffer.resize requested else buffer

def setFixedLength (length : Nat) : Buffer :=
  { buffer.willWrite length with fixedLength := length, fixedLengthRemaining := length }

/-- Length of the lines in which the server returns base64 data. -/
def base64LineLength : Nat := 76

/-- The loop over the lines of base64 data: the byte after every full line is left out. -/
def writeBase64Lines : Nat → Bytes → Buffer → Buffer
  | 0, _, buffer => buffer
  | fuel + 1, data, buffer =>
    if base64LineLength < data.length then
      writeBase64Lines fuel (data.drop (base64LineLength + 1))
        (buffer.append (data.take base64LineLength))
    else buffer.append data

def writeBase64Data (data : Bytes) : Buffer :=
  if data = [] then buffer
  else writeBase64Lines (data.length + 1) data (buffer.willWrite data.length)

/-! ### What is appended -/

@[simp]
theorem append_data (bytes : Bytes) : (buffer.append bytes).data = buffer.data ++ bytes := rfl

@[simp]
theorem appendFixed_data (bytes : Bytes) :
    (buffer.appendFixed bytes).data = buffer.data ++ bytes := rfl

theorem separated_data (index : Nat) (separator : Bytes) :
    (if index ≠ 0 then buffer.appendFixed separator else buffer).data =
      buffer.data ++ (if index ≠ 0 then separator else []) := by
  split
  · rfl
  · exact (append_nil _).symm

theorem encoded_data (encode : UInt8 → Bytes) (data : Bytes) (buffer : Buffer) :
    (data.foldl (fun written chr => written.append (encode chr)) buffer).data =
      buffer.data ++ data.flatMap encode := by
  induction data generalizing buffer with
  | nil => exact (append_nil _).symm
  | cons chr data ih =>
    rw [foldl_cons, ih, append_data, flatMap_cons, append_assoc]

@[simp]
theorem clear_data : buffer.clear.data = [] := rfl

@[simp]
theorem willWrite_data (bytes : Nat) : (buffer.willWrite bytes).data = buffer.data := by
  unfold willWrite
  simp only []
  split <;> rfl

/-- Base64 data without the byte after each of its full lines. -/
def joinBase64Lines : Nat → Bytes → Bytes
  | 0, _ => []
  | fuel + 1, data =>
    if base64LineLength < data.length then
      data.take base64LineLength ++ joinBase64Lines fuel (data.drop (base64LineLength + 1))
    else data

theorem writeBase64Lines_data (fuel : Nat) (data : Bytes) (buffer : Buffer) :
    (writeBase64Lines fuel data buffer).data = buffer.data ++ joinBase64Lines fuel data := by
  induction fuel generalizing data buffer with
  | zero => exact (append_nil _).symm
  | succ fuel ih =>
    unfold writeBase64Lines joinBase64Lines
    by_cases full : base64LineLength < data.length
    · rw [if_pos full, if_pos full, ih, append_data, append_assoc]
    · rw [if_neg full, if_neg full, append_data]

/-- The bytes that `writeBase64Data` appends. -/
def base64Bytes (data : Bytes) : Bytes :=
  joinBase64Lines (data.length + 1) data

@[simp]
theorem writeBase64Data_data (data : Bytes) :
    (buffer.writeBase64Data data).data = buffer.data ++ base64Bytes data := by
  unfold writeBase64Data
  by_cases empty : data = []
  · rw [empty]
    exact (append_nil _).symm
  · rw [if_neg empty, writeBase64Lines_data, willWrite_data]
    rfl

/-- Data that fits in one line is kept. -/
theorem base64Bytes_short {data : Bytes} (short : data.length ≤ base64LineLength) :
    base64Bytes data = data := by
  unfold base64Bytes joinBase64Lines
  rw [if_neg (Nat.not_lt.mpr short)]

/-- Longer data loses at least the byte after its first line. -/
theorem base64Bytes_long {data : Bytes} (long : base64LineLength < data.length) :
    base64LineLength ≤ (base64Bytes data).length ∧ (base64Bytes data).length < data.length := by
  have shorter : ∀ (fuel : Nat) (data : Bytes),
      (joinBase64Lines fuel data).length ≤ data.length := by
    intro fuel
    induction fuel with
    | zero => exact fun data => Nat.zero_le _
    | succ fuel ih =>
      intro data
      unfold joinBase64Lines
      split
      · have rest := ih (data.drop (base64LineLength + 1))
        rw [length_drop] at rest
        rw [length_append, length_take]
        omega
      · exact Nat.le_refl _
  have rest := shorter data.length (data.drop (base64LineLength + 1))
  unfold base64Bytes joinBase64Lines
  rw [if_pos long, length_append, length_take]
  rw [length_drop] at rest
  omega

end Buffer

/-! ## Writing rows -/

/-- What a writer does with one row: clear the buffer and store the row in it. -/
def writeRow (storeRow : Row → Buffer → Buffer) (row : Row) (buffer : Buffer) : Buffer :=
  storeRow row buffer.clear

def writeRows (storeRow : Row → Buffer → Buffer) : List Row → Buffer → List Bytes
  | [], _ => []
  | row :: rows, buffer =>
    let written := writeRow storeRow row buffer
    written.data :: writeRows storeRow rows written

/-- The block written before the rows; no writer stores a preamble. -/
def writePreamble (buffer : Buffer) : Bytes :=
  buffer.clear.data

/-- A row stored as the same bytes whatever the buffer holds. -/
theorem writeRows_eq_map {storeRow : Row → Buffer → Buffer} {rowBytes : Row → Bytes}
    (stores : ∀ row buffer, (storeRow row buffer).data = buffer.data ++ rowBytes row)
    (rows : List Row) (buffer : Buffer) :
    writeRows storeRow rows buffer = rows.map rowBytes := by
  induction rows generalizing buffer with
  | nil => rfl
  | cons row rows ih =>
    unfold writeRows
    simp only [writeRow, map_cons]
    rw [stores, ih, Buffer.clear_data, nil_append]

def storeFields (storeField : Nat → Buffer → Buffer) (numFields : Nat) (buffer : Buffer) : Buffer :=
  (List.range numFields).foldl (fun stored index => storeField index stored) buffer

theorem storeFields_data {storeField : Nat → Buffer → Buffer} {fieldBytes : Nat → Bytes}
    (stores : ∀ index buffer, (storeField index buffer).data = buffer.data ++ fieldBytes index)
    (numFields : Nat) (buffer : Buffer) :
    (storeFields storeField numFields buffer).data =
      buffer.data ++ ((List.range numFields).map fieldBytes).flatten := by
  induction numFields with
  | zero => exact (append_nil _).symm
  | succ numFields ih =>
    unfold storeFields at ih ⊢
    rw [range_succ, foldl_append, map_append, flatten_append]
    simp only [foldl_cons, foldl_nil, map_cons, map_nil, flatten_cons, flatten_nil, append_nil]
    rw [stores, ih, append_assoc]

end MariadbShell.Dump
