import Mathlib

/-!
# Import dialects

The field- and line-handling options of `LOAD DATA`, the built-in dialects and the
validation that the options of `util.importTable` go through.
-/

namespace MariadbShell.ImportTable

abbrev Bytes := List UInt8

instance : LawfulBEq Bytes :=
  inferInstance

/-- A statement about the bytes of a string is decided along the string, not for all bytes. -/
instance (priority := 2000) Bytes.decidableForallMem (property : UInt8 → Prop)
    [DecidablePred property] (bytes : Bytes) : Decidable (∀ chr ∈ bytes, property chr) :=
  List.decidableBAll property bytes

namespace Byte

def nul : UInt8 := 0
def backspace : UInt8 := 8
def tab : UInt8 := 9
def newline : UInt8 := 10
def carriageReturn : UInt8 := 13
def controlZ : UInt8 := 26
def doubleQuote : UInt8 := 34
def comma : UInt8 := 44
def backslash : UInt8 := 92

end Byte

/-- The code units of an ASCII literal. -/
def ascii (text : List Char) : Bytes :=
  text.map fun symbol => symbol.toNat.toUInt8

/-- Field- and line-handling options; the field defaults are those of `LOAD DATA`. -/
structure Dialect where
  linesTerminatedBy : Bytes := [Byte.newline]
  fieldsEscapedBy : Bytes := [Byte.backslash]
  fieldsTerminatedBy : Bytes := [Byte.tab]
  fieldsEnclosedBy : Bytes := []
  fieldsOptionallyEnclosed : Bool := false
  linesStartingBy : Bytes := []
deriving DecidableEq, Repr

namespace Dialect

def default_ : Dialect := {}

def csv : Dialect where
  linesTerminatedBy := [Byte.carriageReturn, Byte.newline]
  fieldsEscapedBy := [Byte.backslash]
  fieldsTerminatedBy := [Byte.comma]
  fieldsEnclosedBy := [Byte.doubleQuote]
  fieldsOptionallyEnclosed := true
  linesStartingBy := []

def tsv : Dialect :=
  { csv with fieldsTerminatedBy := [Byte.tab] }

def csvUnix : Dialect where
  linesTerminatedBy := [Byte.newline]
  fieldsEscapedBy := [Byte.backslash]
  fieldsTerminatedBy := [Byte.comma]
  fieldsEnclosedBy := [Byte.doubleQuote]
  fieldsOptionallyEnclosed := false
  linesStartingBy := []

/-- The arguments with which `validate` throws. -/
inductive ValidationError where
  | lineTerminatorTooLong
  | escapedByNotAChar
  | separatorsOverlap
  | enclosedByNotAChar
  | optionallyEnclosedWithoutEnclosure
  | fixedRowFormat
  | ambiguousFieldTerminator (first : UInt8)
deriving DecidableEq, Repr

namespace ValidationError

def message : ValidationError → String
  | lineTerminatorTooLong => "Line terminator string is too long."
  | escapedByNotAChar => "fieldsEscapedBy must be empty or a char."
  | separatorsOverlap => "Separators cannot be the same or be a prefix of another."
  | enclosedByNotAChar => "fieldsEnclosedBy must be empty or a char."
  | optionallyEnclosedWithoutEnclosure =>
    "fieldsEnclosedBy must be set if fieldsOptionallyEnclosed is true."
  | fixedRowFormat =>
    "The fieldsTerminatedBy and fieldsEnclosedBy are both empty, resulting " ++
      "in a fixed-row format. This is currently not supported."
  | ambiguousFieldTerminator first =>
    "First character of the fieldsTerminatedBy string is ambiguous: " ++
      (Char.ofNat first.toNat).toString ++
      ", please use non-empty fieldsEnclosedBy and set " ++
      "fieldsOptionallyEnclosed to false."

end ValidationError

/-- Size of the buffers of `chunk_file.h`. -/
def bufferSize : Nat := 2 ^ 16

/-- Characters that follow the escape character in an escape sequence. -/
def escapedChars : Bytes := ascii ['n', 't', 'r', 'b', '0', 'Z', 'N']

def numericChars : Bytes :=
  ascii ['.', '0', '1', '2', '3', '4', '5', '6', '7', '8', '9', 'e', '+', '-']

/-- The first field terminator byte cannot be told from value text. -/
def ambiguousFirst (dialect : Dialect) (first : UInt8) : Bool :=
  (dialect.fieldsEnclosedBy.isEmpty && escapedChars.contains first) ||
    (dialect.fieldsOptionallyEnclosed && numericChars.contains first)

def validate (dialect : Dialect) : Except ValidationError Unit :=
  if ¬ dialect.linesTerminatedBy.length / 2 < bufferSize then
    .error .lineTerminatorTooLong
  else if 1 < dialect.fieldsEscapedBy.length then
    .error .escapedByNotAChar
  else if dialect.linesTerminatedBy ≠ [] ∧ dialect.fieldsEscapedBy ≠ [] ∧
      dialect.fieldsEscapedBy <+: dialect.linesTerminatedBy then
    .error .separatorsOverlap
  else if 1 < dialect.fieldsEnclosedBy.length then
    .error .enclosedByNotAChar
  else if dialect.fieldsOptionallyEnclosed ∧ dialect.fieldsEnclosedBy = [] then
    .error .optionallyEnclosedWithoutEnclosure
  else if dialect.fieldsTerminatedBy = [] ∧ dialect.fieldsEnclosedBy = [] then
    .error .fixedRowFormat
  else
    match dialect.fieldsTerminatedBy with
    | first :: _ =>
      if dialect.ambiguousFirst first then .error (.ambiguousFieldTerminator first)
      else .ok ()
    | [] => .ok ()

end Dialect

end MariadbShell.ImportTable
