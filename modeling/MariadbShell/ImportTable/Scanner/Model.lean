import MariadbShell.Lib.Search
import MariadbShell.ImportTable.Dialect

/-!
# The row scanner

`Scanner` finds the rows of a file that it is given in blocks. Bytes read ahead of a sequence
that is absent, or that the end of the block cuts, are pushed back on a stack and read again.

What the constructor copies from the dialect is read from the dialect itself; a character
that is not used is `none`.
-/

namespace MariadbShell.ImportTable

namespace Scanner

/-! ## Reading a block -/

/-- The pushed-back bytes, next byte first, and the unread rest of the current block. -/
structure Reader where
  stack : Bytes
  data : Bytes
  endOfBlock : Bool
deriving DecidableEq, Repr

namespace Reader

variable (reader : Reader)

def unread : Bytes :=
  reader.stack ++ reader.data

/-- Next byte; `none` is the end of the block. -/
def get : Option UInt8 × Reader :=
  match reader.stack with
  | chr :: stack => (some chr, { reader with stack })
  | [] =>
    match reader.data with
    | chr :: data => (some chr, { reader with data })
    | [] => (none, { reader with endOfBlock := true })

def unget (chr : UInt8) : Reader :=
  { reader with stack := chr :: reader.stack }

/-- Push back what `get` returned; the marker of the end of the block becomes a zero byte. -/
def ungetChr (chr : Option UInt8) : Reader :=
  reader.unget (chr.getD 0)

/--
The loop of `contains` over the rest of a sequence; `matched` has the bytes matched
so far, last one first, which a failed match pushes back.
-/
def matchRest : Bytes → Bytes → Reader → Bool × Reader
  | [], _, reader => (true, reader)
  | expected :: rest, matched, reader =>
    let (chr, next) := reader.get
    if chr = some expected then matchRest rest (expected :: matched) next
    else
      let kept := if next.endOfBlock then next else next.ungetChr chr
      (false, matched.foldl unget kept)

/-- The sequence, whose first byte was read already, comes next. -/
def contains (sequence : Bytes) : Bool × Reader :=
  matchRest sequence.tail [] reader

end Reader

/-- Comparison with a character of the dialect that may be unused. -/
def same (chr expected : Option UInt8) : Bool :=
  chr.isSome && chr == expected

/-- Result of looking for a sequence whose first byte may have been read. -/
inductive Match where
  | hit
  | miss
  | cut
deriving DecidableEq, Repr

/-- Look for a sequence that starts with the byte read last. -/
def Reader.lookFor (reader : Reader) (chr : Option UInt8) (sequence : Bytes) : Match × Reader :=
  if same chr sequence.head? then
    match reader.contains sequence with
    | (true, next) => (.hit, next)
    | (false, next) => if next.endOfBlock then (.cut, next) else (.miss, next)
  else (.miss, reader)

/-- One iteration of a loop over the data of the block. -/
inductive Iteration (α : Type) where
  | stop (result : α) (reader : Reader)
  | again (reader : Reader)

/-- `while (m_length)`, followed by the return of `idle`. -/
def whileData {α : Type} (body : Reader → Iteration α) (idle : α) : Nat → Reader → α × Reader
  | 0, reader => (idle, reader)
  | fuel + 1, reader =>
    if reader.data = [] then (idle, reader)
    else
      match body reader with
      | .stop result next => (result, next)
      | .again next => whileData body idle fuel next

section Loops

variable (dialect : Dialect)

def enclosedChar : Option UInt8 := dialect.fieldsEnclosedBy.head?

def escapedChar : Option UInt8 := dialect.fieldsEscapedBy.head?

/-! ## Skipping rows and line prefixes -/

def skipRowStep (reader : Reader) : Iteration Bool :=
  let (chr, next) := reader.get
  if same chr (escapedChar dialect) then
    let (_, next) := next.get
    .again (if next.endOfBlock then next.ungetChr (escapedChar dialect) else next)
  else
    match next.lookFor chr dialect.linesTerminatedBy with
    | (.hit, next) => .stop true next
    | (_, next) => .again (if next.endOfBlock then next.ungetChr chr else next)

def skipRow (reader : Reader) : Bool × Reader :=
  whileData (skipRowStep dialect) false (reader.unread.length + 1) reader

def skipLineStartStep (reader : Reader) : Iteration Bool :=
  let (chr, next) := reader.get
  match next.lookFor chr dialect.linesStartingBy with
  | (.hit, next) => .stop true next
  | (_, next) => .again (if next.endOfBlock then next.ungetChr chr else next)

def skipLineStart (reader : Reader) : Bool × Reader :=
  if dialect.linesStartingBy = [] then (true, reader)
  else whileData (skipLineStartStep dialect) false (reader.unread.length + 1) reader

/-! ## Scanning a field -/

inductive FieldStatus where
  | continued
  | endOfField
  | endOfLine
deriving DecidableEq, Repr

/-- The byte after an enclosing character decides whether the field ends. -/
def afterEnclosure (found : Option UInt8) (reader : Reader) : Iteration FieldStatus :=
  let (chr, next) := reader.get
  if next.endOfBlock then .stop .continued (next.ungetChr found)
  else if same chr found then .again next
  else
    match next.lookFor chr dialect.linesTerminatedBy with
    | (.hit, next) => .stop .endOfLine next
    | (.cut, next) => .stop .continued ((next.ungetChr chr).ungetChr found)
    | (.miss, next) =>
      match next.lookFor chr dialect.fieldsTerminatedBy with
      | (.hit, next) => .stop .endOfField next
      | (.cut, next) => .stop .continued ((next.ungetChr chr).ungetChr found)
      | (.miss, next) => .again (next.ungetChr chr)

/-- Enclosures and, in a field that is not enclosed, field terminators. -/
def scanEnclosure (found chr : Option UInt8) (reader : Reader) : Iteration FieldStatus :=
  if same chr found then afterEnclosure dialect found reader
  else if found = none then
    match reader.lookFor chr dialect.fieldsTerminatedBy with
    | (.hit, next) => .stop .endOfField next
    | (.cut, next) => .stop .continued (next.ungetChr chr)
    | (.miss, next) => .again next
  else .again reader

/-- A byte that is not part of an escape sequence. -/
def scanPlain (found chr : Option UInt8) (reader : Reader) : Iteration FieldStatus :=
  if found = none then
    match reader.lookFor chr dialect.linesTerminatedBy with
    | (.hit, next) => .stop .endOfLine next
    | (.cut, next) => .stop .continued (next.ungetChr chr)
    | (.miss, next) => scanEnclosure dialect found chr next
  else scanEnclosure dialect found chr reader

def scanFieldStep (found : Option UInt8) (reader : Reader) : Iteration FieldStatus :=
  let (chr, next) := reader.get
  if same chr (escapedChar dialect) then
    let (escaped, next) := next.get
    if next.endOfBlock then .stop .continued (next.ungetChr (escapedChar dialect))
    else if escapedChar dialect ≠ enclosedChar dialect ∨ same escaped (escapedChar dialect) then
      .again next
    else scanPlain dialect found (escapedChar dialect) (next.ungetChr escaped)
  else scanPlain dialect found chr next

def scanField (found : Option UInt8) (reader : Reader) : FieldStatus × Reader :=
  whileData (scanFieldStep dialect found) .continued (reader.unread.length + 1) reader

end Loops

end Scanner

/-! ## Scanning a block -/

inductive RowStatus where
  | begin
  | linePrefix
  | beginOfField
  | field
deriving DecidableEq, Repr

structure Scanner where
  skipRows : Nat
  reader : Scanner.Reader
  status : RowStatus
  foundEnclosedChar : Option UInt8
deriving DecidableEq, Repr

namespace Scanner

structure UnsupportedLinesTerminatedBy where
  linesTerminatedBy : Bytes
deriving DecidableEq, Repr

def UnsupportedLinesTerminatedBy.message (error : UnsupportedLinesTerminatedBy) : String :=
  "Scanner: unsupported LINES TERMINATED BY: '" ++
    String.ofList (error.linesTerminatedBy.map fun byte => Char.ofNat byte.toNat) ++ "'"

def create (dialect : Dialect) (skipRows : Nat) : Except UnsupportedLinesTerminatedBy Scanner :=
  if dialect.linesTerminatedBy = [] ∨ dialect.linesTerminatedBy = dialect.fieldsTerminatedBy then
    .error ⟨dialect.linesTerminatedBy⟩
  else .ok ⟨skipRows, ⟨[], [], false⟩, .begin, none⟩

/-- Skip the rows that are still to be skipped; `false` when the block ends before. -/
def skipAll (dialect : Dialect) : Nat → Reader → Bool × Nat × Reader
  | 0, reader => (true, 0, reader)
  | rows + 1, reader =>
    match skipRow dialect reader with
    | (true, next) => skipAll dialect rows next
    | (false, next) => (false, rows + 1, next)

/-- The loop over the rows of a block of the given length; the result is the first row. -/
def scanRows (dialect : Dialect) (length : Nat) :
    Nat → Option Nat → Scanner → Option Nat × Scanner
  | 0, firstRow, scanner => (firstRow, scanner)
  | fuel + 1, firstRow, scanner =>
    if scanner.reader.data = [] then (firstRow, scanner)
    else
      match scanner.status with
      | .begin =>
        scanRows dialect length fuel
          (firstRow.or (some (length - scanner.reader.data.length)))
          { scanner with status := .linePrefix }
      | .linePrefix =>
        match skipLineStart dialect scanner.reader with
        | (false, reader) => (firstRow, { scanner with reader })
        | (true, reader) =>
          scanRows dialect length fuel firstRow
            { scanner with reader, status := .beginOfField }
      | .beginOfField =>
        let (chr, reader) := scanner.reader.get
        if same chr (enclosedChar dialect) then
          scanRows dialect length fuel firstRow
            { scanner with reader, status := .field, foundEnclosedChar := chr }
        else
          scanRows dialect length fuel firstRow
            { scanner with
              reader := reader.ungetChr chr
              status := .field
              foundEnclosedChar := none }
      | .field =>
        match scanField dialect scanner.foundEnclosedChar scanner.reader with
        | (.continued, reader) => scanRows dialect length fuel firstRow { scanner with reader }
        | (.endOfField, reader) =>
          scanRows dialect length fuel firstRow
            { scanner with reader, status := .beginOfField }
        | (.endOfLine, reader) =>
          scanRows dialect length fuel firstRow { scanner with reader, status := .begin }

/-- Index of the first row in the block; `none` stands for `-1`. -/
def scan (dialect : Dialect) (scanner : Scanner) (block : Bytes) : Option Nat × Scanner :=
  let reader : Reader := { scanner.reader with data := block, endOfBlock := false }
  match skipAll dialect scanner.skipRows reader with
  | (false, skipRows, reader) => (none, { scanner with skipRows, reader })
  | (true, skipRows, reader) =>
    scanRows dialect block.length (4 * reader.unread.length + 5) none
      { scanner with skipRows, reader }

def scanBlocks (dialect : Dialect) : Scanner → List Bytes → List (Option Nat)
  | _, [] => []
  | scanner, block :: blocks =>
    let (firstRow, next) := scan dialect scanner block
    firstRow :: scanBlocks dialect next blocks

end Scanner

end MariadbShell.ImportTable
