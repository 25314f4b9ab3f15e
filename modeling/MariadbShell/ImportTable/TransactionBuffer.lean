import MariadbShell.Lib.MachineInt
import MariadbShell.Lib.Search
import MariadbShell.ImportTable.Dialect

/-!
# The transaction buffer of the data loader

`TransactionBuffer` splits the bytes of a data file into transactions of a bounded
size. The client library pulls data with `read`; a transaction ends when `read`
returns no bytes or when a flush is pending, and `flushDone` starts the next one.
-/

namespace MariadbShell.ImportTable

open Lib.MachineInt Lib.Search

/-! ## Source files -/

/--
An open data file. The answer to the `n`-th read is prescribed by `serve n`: an I/O
error for `none`, and at most `limit + 1` bytes for `some limit`.
-/
structure SourceFile where
  bytes : Bytes
  offset : Nat
  calls : Nat
  seekable : Bool
  serve : Nat → Option Nat
  fits : bytes.length < 2 ^ 63

namespace SourceFile

variable (file : SourceFile)

def rest : Bytes :=
  file.bytes.drop file.offset

/-- Read at most `count` bytes; `none` is an I/O error. -/
def read (count : Nat) : Option Bytes × SourceFile :=
  match file.serve file.calls with
  | none => (none, { file with calls := file.calls + 1 })
  | some limit =>
    let copied := file.rest.take (min count (limit + 1))
    (some copied, { file with offset := file.offset + copied.length, calls := file.calls + 1 })

/-- Move to an absolute offset; `none` when the storage cannot seek. -/
def seek (offset : Nat) : Option SourceFile :=
  if file.seekable then some { file with offset } else none

/-- Current offset; `none` when the storage cannot tell it. -/
def tell : Option Nat :=
  if file.seekable then some file.offset else none

/-- The blocks in which a file that cannot seek is read up to an offset. -/
def skipBlock : Nat := 1024

/-- Read and drop bytes until `skipBytes` of them were dropped or a read fails. -/
def readAway : Nat → SourceFile → Nat → SourceFile
  | 0, file, _ => file
  | fuel + 1, file, skipBytes =>
    if skipBytes = 0 then file
    else
      match file.read (min skipBytes skipBlock) with
      | (none, next) => next
      | (some copied, next) =>
        if copied = [] then next
        else readAway fuel next (skipBytes - copied.length)

def skip (skipBytes : Nat) : SourceFile :=
  if skipBytes = 0 then file
  else
    match file.seek skipBytes with
    | some next => next
    | none => readAway skipBytes file skipBytes

/-- No read of the file ends in an I/O error. -/
def Healthy : Prop :=
  ∀ call, file.serve call ≠ none

end SourceFile

/-! ## Row boundaries -/

namespace Dialect

/-- Rows can be told apart by the line terminator. -/
def SupportsSubChunking (dialect : Dialect) : Prop :=
  dialect.linesTerminatedBy ≠ [] ∧ dialect.fieldsTerminatedBy ≠ dialect.linesTerminatedBy

instance (dialect : Dialect) : Decidable dialect.SupportsSubChunking :=
  inferInstanceAs (Decidable (_ ∧ _))

end Dialect

/-- The search functions a buffer can be constructed with. -/
inductive BoundarySearch where
  | default_
  | noEscape
  | escape
deriving DecidableEq, Repr

variable (dialect : Dialect) (data : Bytes)

def BoundarySearch.ofDialect : BoundarySearch :=
  if dialect = Dialect.default_ then .default_
  else if dialect.fieldsEscapedBy = [] then .noEscape
  else .escape

/-- Offset at which a backward search bounded by `limit` starts. -/
def searchStart (limit : Nat) : Nat :=
  if limit < data.length then toUInt64 ((limit : Int) - 1) else data.length

def EscapedAt (offset : Nat) : Prop :=
  0 < offset ∧ data[offset - 1]? = dialect.fieldsEscapedBy.head?

instance (offset : Nat) : Decidable (EscapedAt dialect data offset) :=
  inferInstanceAs (Decidable (_ ∧ _))

def findFirstRowBoundaryAfterImplDefault : Nat :=
  match find (dialect.linesTerminatedBy.take 1) data 0 with
  | none => 0
  | some offset => offset + 1

def findLastRowBoundaryBeforeImplDefault (limit : Nat) : Nat :=
  let start := searchStart data limit
  if start = 0 then 0
  else
    match rfind (dialect.linesTerminatedBy.take 1) data start with
    | none => 0
    | some offset => offset + 1

def findFirstRowBoundaryAfterImplNoEscape : Nat :=
  let needle := dialect.linesTerminatedBy
  match find needle data 0 with
  | none => 0
  | some offset => offset + needle.length

def findLastRowBoundaryBeforeImplNoEscape (limit : Nat) : Nat :=
  let needle := dialect.linesTerminatedBy
  let start := searchStart data limit
  if start < needle.length then 0
  else
    match rfind needle data start with
    | none => 0
    | some offset => offset + needle.length

/-- The forward loop over the terminators that follow an escape character. -/
def firstUnescapedFrom (dialect : Dialect) (data : Bytes) : Nat → Nat → Nat
  | 0, _ => 0
  | fuel + 1, start =>
    let needle := dialect.linesTerminatedBy
    match find needle data start with
    | none => 0
    | some offset =>
      if EscapedAt dialect data offset then
        firstUnescapedFrom dialect data fuel (offset + needle.length)
      else offset + needle.length

def findFirstRowBoundaryAfterImplEscape : Nat :=
  firstUnescapedFrom dialect data (data.length + 1) 0

/-- The backward loop over the terminators that follow an escape character. -/
def lastUnescapedFrom (dialect : Dialect) (data : Bytes) : Nat → Nat → Nat
  | 0, _ => 0
  | fuel + 1, start =>
    let needle := dialect.linesTerminatedBy
    match rfind needle data start with
    | none => 0
    | some offset =>
      if EscapedAt dialect data offset then
        if offset < needle.length then 0
        else lastUnescapedFrom dialect data fuel (offset - needle.length)
      else offset + needle.length

def findLastRowBoundaryBeforeImplEscape (limit : Nat) : Nat :=
  let start := searchStart data limit
  if start < dialect.linesTerminatedBy.length then 0
  else lastUnescapedFrom dialect data (data.length + 1) start

/-- End of the first row in the data, or `0`. -/
def findFirstRowBoundaryAfter : Nat :=
  match BoundarySearch.ofDialect dialect with
  | .default_ => findFirstRowBoundaryAfterImplDefault dialect data
  | .noEscape => findFirstRowBoundaryAfterImplNoEscape dialect data
  | .escape => findFirstRowBoundaryAfterImplEscape dialect data

/-- End of the last row whose terminator starts before the limit, or `0`. -/
def findLastRowBoundaryBefore (limit : Nat) : Nat :=
  match BoundarySearch.ofDialect dialect with
  | .default_ => findLastRowBoundaryBeforeImplDefault dialect data limit
  | .noEscape => findLastRowBoundaryBeforeImplNoEscape dialect data limit
  | .escape => findLastRowBoundaryBeforeImplEscape dialect data limit

/-! ## The buffer -/

/--
State of a transaction buffer. The calls of the oversized-row callback are recorded
in `oversizedReports`, most recent last.
-/
structure TransactionBuffer where
  dialect : Dialect
  file : SourceFile
  maxTrxSize : UInt64
  trxSize : Nat := 0
  trxEndOffset : Nat := 0
  partialRowSent : Bool := false
  oversizedRowCounted : Bool := false
  eof : Bool := false
  retryOffset : Nat := 0
  retryPointValid : Bool := false
  data : Bytes := []
  oversizedRows : Nat := 0
  oversizedReports : List Nat := []

namespace TransactionBuffer

/-- The constructor; sub-chunking is disabled where rows cannot be told apart. -/
def create (dialect : Dialect) (file : SourceFile) (maxTransactionSize : UInt64)
    (skipBytes : Nat) : TransactionBuffer where
  dialect := dialect
  file := file.skip skipBytes
  maxTrxSize := if dialect.SupportsSubChunking then maxTransactionSize else 0

variable (buffer : TransactionBuffer)

/-- Bytes of the file that were not sent yet. -/
def unsent : Bytes :=
  buffer.data ++ buffer.file.rest

def trxBytesLeft : Int :=
  toInt64 ((buffer.maxTrxSize.toNat : Int) - buffer.trxSize)

/-- The remaining transaction size as the limit of a backward search. -/
def lastRowInTransaction : Nat :=
  findLastRowBoundaryBefore buffer.dialect buffer.data (toUInt64 buffer.trxBytesLeft)

def setTrxEndOffset (offset : Nat) : TransactionBuffer :=
  { buffer with trxEndOffset := buffer.trxSize + offset }

def markOversizedRow : TransactionBuffer :=
  if buffer.oversizedRowCounted then buffer
  else
    { buffer with
      oversizedRowCounted := true
      oversizedRows := buffer.oversizedRows + 1
      oversizedReports := buffer.oversizedReports ++ [buffer.oversizedRows + 1] }

/-- Move at most `length` buffered bytes to the caller. -/
def consume (length : Nat) : Bytes × TransactionBuffer :=
  let length :=
    if 0 < buffer.trxEndOffset ∧
        toUInt64 ((buffer.trxEndOffset : Int) - buffer.trxSize) < length then
      toUInt64 ((buffer.trxEndOffset : Int) - buffer.trxSize)
    else length
  let copied := buffer.data.take length
  (copied,
    { buffer with
      data := buffer.data.drop length
      trxSize := buffer.trxSize + copied.length })

/-- Read `count` more bytes from the file; `none` is an I/O error. -/
def readMore (count : Nat) : Option Unit × TransactionBuffer :=
  if buffer.eof then (some (), buffer)
  else
    match buffer.file.read count with
    | (none, file) => (none, { buffer with file })
    | (some [], file) => (some (), { buffer with file, eof := true })
    | (some copied, file) => (some (), { buffer with file, data := buffer.data ++ copied })

/-- Outcome of one pass through the body of `read`. -/
inductive Pass where
  | done (copied : Option Bytes) (buffer : TransactionBuffer)
  | retry (buffer : TransactionBuffer)

/-- The pass ends by sending buffered bytes. -/
def sending (length : Nat) : Pass :=
  .done (some (buffer.consume length).1) (buffer.consume length).2

/-- Fix the end of the transaction when the buffered data would fill it. -/
def fillTransaction : TransactionBuffer :=
  if 0 < buffer.trxBytesLeft ∧ buffer.trxBytesLeft ≤ buffer.data.length ∧
      0 < buffer.lastRowInTransaction then
    buffer.setTrxEndOffset buffer.lastRowInTransaction
  else buffer

/-- The row being sent is longer than the transaction limit. -/
def sendOversizedRow (length : Nat) : Pass :=
  let marked := buffer.markOversizedRow
  let rowEnd := findFirstRowBoundaryAfter marked.dialect marked.data
  if 0 < rowEnd then (marked.setTrxEndOffset rowEnd).sending length
  else { marked with partialRowSent := true }.sending length

/-- There is more buffered data than the transaction can take. -/
def sendOverLimit (length : Nat) : Pass :=
  if buffer.partialRowSent then buffer.sendOversizedRow length
  else if 0 < buffer.lastRowInTransaction then
    (buffer.setTrxEndOffset buffer.lastRowInTransaction).sending length
  else if 0 < buffer.trxSize then .done (some []) (buffer.setTrxEndOffset 0)
  else buffer.sendOversizedRow length

/-- The buffered data fits in the transaction. -/
def sendFitting (length : Nat) : Pass :=
  let lastRowEnd := findLastRowBoundaryBefore buffer.dialect buffer.data length
  if 0 < lastRowEnd then
    { buffer with partialRowSent := false, oversizedRowCounted := false }.sending
      (toUInt32 lastRowEnd)
  else if 0 < buffer.lastRowInTransaction then
    buffer.sending (min length (toUInt32 buffer.lastRowInTransaction))
  else if buffer.trxSize = 0 then { buffer with partialRowSent := true }.sending length
  else if buffer.partialRowSent then buffer.sending length
  else if buffer.eof then (buffer.setTrxEndOffset buffer.data.length).sending length
  else .retry buffer

/-- One pass through the body of `read`. -/
def readPass (length : Nat) : Pass :=
  if 0 < buffer.trxEndOffset then buffer.sending length
  else
    match buffer.readMore length with
    | (none, failed) => .done none failed
    | (some (), more) =>
      let filled := more.fillTransaction
      if 0 < filled.trxEndOffset then filled.sending length
      else if filled.trxBytesLeft ≤ filled.data.length then filled.sendOverLimit length
      else filled.sendFitting length

/-- The passes of `read`, at most `fuel` of them. -/
def readPasses : Nat → TransactionBuffer → Nat → Option Bytes × TransactionBuffer
  | 0, buffer, _ => (none, buffer)
  | fuel + 1, buffer, length =>
    match buffer.readPass length with
    | .done copied next => (copied, next)
    | .retry next => readPasses fuel next length

/-- Fetch data for the client library; `none` is a negative return value. -/
def read (buffer : TransactionBuffer) (length : UInt32) : Option Bytes × TransactionBuffer :=
  if buffer.maxTrxSize = 0 then
    let (copied, file) := buffer.file.read length.toNat
    (copied, { buffer with file })
  else readPasses (buffer.file.rest.length + 2) buffer length.toNat

def flushPending : Bool :=
  buffer.maxTrxSize ≠ 0 ∧ 0 < buffer.trxEndOffset ∧ buffer.trxEndOffset ≤ buffer.trxSize

/-- End the transaction; the flag tells whether there is more data. -/
def flushDone : Bool × TransactionBuffer :=
  (buffer.maxTrxSize ≠ 0 ∧ (¬ buffer.eof ∨ buffer.data ≠ []),
    { buffer with
      trxSize := 0
      trxEndOffset := 0
      partialRowSent := false
      oversizedRows := 0
      oversizedRowCounted := false })

def markRetryPoint : TransactionBuffer :=
  match buffer.file.tell with
  | some offset =>
    { buffer with retryOffset := offset - buffer.data.length, retryPointValid := true }
  | none => { buffer with retryPointValid := false }

/-- Go back to the last retry point; `false` leaves the buffer as it is. -/
def tryRewindForRetry : Bool × TransactionBuffer :=
  if buffer.retryPointValid then
    match buffer.file.seek buffer.retryOffset with
    | none => (false, buffer)
    | some file =>
      (true,
        { buffer with
          file
          data := []
          trxSize := 0
          trxEndOffset := 0
          partialRowSent := false
          oversizedRows := 0
          oversizedRowCounted := false
          eof := false })
  else (false, buffer)

/-- The buffer at an offset of its file, before anything is sent of a statement. -/
def rewoundTo (offset : Nat) : TransactionBuffer :=
  { buffer with
    file := { buffer.file with offset }
    data := []
    trxSize := 0
    trxEndOffset := 0
    partialRowSent := false
    oversizedRows := 0
    oversizedRowCounted := false
    eof := false }

variable {buffer} in
theorem tryRewindForRetry_eq (valid : buffer.retryPointValid = true)
    (seekable : buffer.file.seekable = true) :
    buffer.tryRewindForRetry = (true, buffer.rewoundTo buffer.retryOffset) := by
  rw [tryRewindForRetry, if_pos valid, SourceFile.seek, if_pos seekable]
  rfl

/-- A retry starts at the retry point, or is refused and leaves the buffer as it is. -/
theorem tryRewindForRetry_cases :
    buffer.tryRewindForRetry = (false, buffer) ∨ buffer.retryPointValid = true ∧
      buffer.tryRewindForRetry = (true, buffer.rewoundTo buffer.retryOffset) := by
  by_cases valid : buffer.retryPointValid = true
  · by_cases seekable : buffer.file.seekable = true
    · exact .inr ⟨valid, tryRewindForRetry_eq valid seekable⟩
    · exact .inl (by rw [tryRewindForRetry, if_pos valid, SourceFile.seek, if_neg seekable])
  · exact .inl (if_neg valid)

end TransactionBuffer

/-! ## The driver -/

/-- The read callback of the client library; `none` is an error. -/
def localInfileRead (buffer : TransactionBuffer) (length : UInt32) :
    Option Bytes × TransactionBuffer :=
  if buffer.flushPending then (some [], buffer)
  else
    match buffer.read length with
    | (none, next) => (none, next)
    | (some copied, next) =>
      if toInt32 copied.length < 0 then (none, next) else (some copied, next)

/--
The bytes of one `LOAD DATA` statement: the callback is called with the given sizes until it
returns no bytes. The result has the number of the next call.
-/
def loadTransaction (sizes : Nat → UInt32) :
    Nat → TransactionBuffer → Nat → Option (Bytes × TransactionBuffer × Nat)
  | 0, _, _ => none
  | fuel + 1, buffer, call =>
    match localInfileRead buffer (sizes call) with
    | (none, _) => none
    | (some [], next) => some ([], next, call + 1)
    | (some copied, next) =>
      match loadTransaction sizes fuel next (call + 1) with
      | none => none
      | some (transaction, final, lastCall) => some (copied ++ transaction, final, lastCall)

/-- The transactions of a file: statements are repeated until there is no more data. -/
def loadTransactions (sizes : Nat → UInt32) :
    Nat → TransactionBuffer → Nat → Option (List Bytes)
  | 0, _, _ => none
  | fuel + 1, buffer, call =>
    match loadTransaction sizes fuel buffer call with
    | none => none
    | some (transaction, next, nextCall) =>
      if next.flushDone.1 then
        match loadTransactions sizes fuel next.flushDone.2 nextCall with
        | none => none
        | some transactions => some (transaction :: transactions)
      else some [transaction]

end MariadbShell.ImportTable
