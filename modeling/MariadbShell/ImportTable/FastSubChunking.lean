import MariadbShell.Lib.Machine
import MariadbShell.ImportTable.TransactionBuffer

/-!
# Fast sub-chunking

One thread writes rows to a `Synchronized_file`, another one loads them with a
`Transaction_buffer` that cuts transactions at the writes. They meet at two queues: a read
puts its buffer into the queue of requests and waits for a response, a write waits for a
request and copies its row into that buffer.

A step of the model is the work of one thread up to its next access to a queue. Only the
thread that has a read request touches it, so the order of the other work does not matter.
-/

namespace MariadbShell.ImportTable

open Lib.MachineInt

/-- `Read_request`: the room left in the buffer of the reader, and what was put into it. -/
structure ReadRequest where
  length : Nat
  written : Bytes
deriving DecidableEq, Repr

inductive WriterState where
  /-- Between two calls. -/
  | between
  /-- In `write`, waiting for a request. -/
  | waiting
  /-- In `write`, with a request. -/
  | serving
  /-- In `close`, waiting for a request for a moment. -/
  | closing
  /-- In `close`, after that moment. -/
  | answering (popped : Bool)
  /-- In `close`, about to signal the end of the file. -/
  | signalling
  | closed
deriving DecidableEq, Repr

inductive ReaderState where
  /-- In the client library, about to ask for data. -/
  | ready
  /-- In a read without sub-chunking. -/
  | regular
  /-- In a read into the buffer of the client library. -/
  | direct (length : Nat)
  /-- In a read of one row into the local buffer. -/
  | stored (length : Nat)
  | failed
  | done
deriving DecidableEq, Repr

def ReaderState.waits : ReaderState → Bool
  | .regular | .direct _ | .stored _ => true
  | .ready | .failed | .done => false

/--
The file and its two threads. `rows` were not copied yet, `current` is what the running `LOAD
DATA` statement has received, `transactions` what the finished ones have. The file of the
transaction buffer is not used.
-/
structure Transfer where
  rows : List Bytes
  writer : WriterState := .between
  requests : Nat := 0
  responses : List Int := []
  request : ReadRequest := ⟨0, []⟩
  pendingWrite : Nat := 0
  reader : ReaderState := .ready
  buffer : TransactionBuffer
  current : Bytes := []
  transactions : List Bytes := []

inductive TransferEvent where
  /-- The writing thread goes on. -/
  | write
  /-- The writing thread has waited long enough for a request in `close`. -/
  | timeout
  /-- The client library asks for data. -/
  | ask (length : UInt32)
  /-- The loading thread takes a response. -/
  | receive
deriving DecidableEq, Repr

namespace Transfer

/-! ## The loading thread -/

variable (state : Transfer)

/--
`local_infile_read` returns bytes to the client library. If it returns none, the
statement ends, and the next one is executed if there is more data.
-/
def deliver (bytes : Bytes) : Transfer :=
  if toInt32 bytes.length < 0 then { state with reader := .failed }
  else if bytes = [] then
    { state with
      current := []
      transactions := state.transactions ++ [state.current]
      buffer := state.buffer.flushDone.2
      reader := if state.buffer.flushDone.1 then .ready else .done }
  else { state with current := state.current ++ bytes, reader := .ready }

/-- `Synchronized_file::read` up to its wait for a response. -/
def startRead (length : Nat) (reader : ReaderState) : Transfer :=
  { state with request := ⟨length, []⟩, requests := state.requests + 1, reader }

def consume (state : Transfer) (length : Nat) : Transfer :=
  { state with buffer := (state.buffer.consume length).2 }.deliver (state.buffer.consume length).1

/-- `Transaction_buffer::read` and `fast_sub_chunking` up to their first wait. -/
def ask (length : Nat) : Transfer :=
  if state.buffer.flushPending then state.deliver []
  else if state.buffer.maxTrxSize = 0 then state.startRead length .regular
  else if state.buffer.data ≠ [] then state.consume length
  else if state.buffer.trxBytesLeft ≤ 0 then state.deliver []
  else state.startRead (min length (toUInt64 state.buffer.trxBytesLeft)) (.direct length)

/-- What the functions above do with the response to a read. -/
def receive (response : Int) : Transfer :=
  let copied := state.request.written.take response.toNat
  match state.reader with
  | .regular => if response < 0 then { state with reader := .failed } else state.deliver copied
  | .direct length =>
    if response = 0 then
      { state with buffer := { state.buffer with eof := true } }.deliver []
    else if response < 0 then
      if state.buffer.trxSize ≠ 0 then state.deliver []
      else state.startRead state.pendingWrite (.stored length)
    else
      { state with
        buffer :=
          { state.buffer with trxSize := state.buffer.trxSize + response.toNat } }.deliver copied
  | .stored length =>
    let row := state.request.written ++ List.replicate state.request.length 0
    let next := { state with buffer := { state.buffer with data := row } }
    if response = 0 then next.deliver []
    else if response < 0 then { next with reader := .failed }
    else next.consume length
  | _ => state

/-! ## The writing thread -/

/-- The loop of `Synchronized_file::write` with a request. -/
def serve (row : Bytes) (rows : List Bytes) : Transfer :=
  let written := state.request.written
  if state.request.length < row.length then
    { state with
      responses := state.responses ++ [if written = [] then -1 else (written.length : Int)]
      writer := .waiting }
  else
    let request : ReadRequest := ⟨state.request.length - row.length, written ++ row⟩
    let next := { state with rows, request, pendingWrite := 0, writer := .between }
    if request.length = 0 then
      { next with responses := state.responses ++ [(request.written.length : Int)] }
    else { next with requests := state.requests + 1 }

/-- `write` for every row, then `close`. -/
def write : Option Transfer :=
  match state.writer, state.rows with
  | .between, row :: _ => some { state with pendingWrite := row.length, writer := .waiting }
  | .between, [] => some { state with writer := .closing }
  | .waiting, _ =>
    if state.requests = 0 then none
    else some { state with requests := state.requests - 1, writer := .serving }
  | .serving, row :: rows => some (state.serve row rows)
  | .serving, [] => none
  | .closing, _ =>
    if state.requests = 0 then none
    else some { state with requests := state.requests - 1, writer := .answering true }
  | .answering popped, _ =>
    some
      { state with
        responses :=
          if popped ∧ state.request.written ≠ [] then
            state.responses ++ [(state.request.written.length : Int)]
          else state.responses
        writer := .signalling }
  | .signalling, _ => some { state with responses := state.responses ++ [0], writer := .closed }
  | .closed, _ => none

/-! ## Interleavings -/

def step : TransferEvent → Option Transfer
  | .write => state.write
  | .timeout =>
    if state.writer = .closing ∧ state.requests = 0 then
      some { state with writer := .answering false }
    else none
  | .ask length => if state.reader = .ready then some (state.ask length.toNat) else none
  | .receive =>
    match state.responses with
    | [] => none
    | response :: responses =>
      if state.reader.waits then some ({ state with responses }.receive response) else none

/-- Rows to be written, and a buffer that was created with the given transaction size. -/
def start (rows : List Bytes) (dialect : Dialect) (file : SourceFile) (maxTrxSize : UInt64) :
    Transfer where
  rows := rows
  buffer := { TransactionBuffer.create dialect file maxTrxSize 0 with maxTrxSize }

end Transfer

/-- The client library has a buffer, and its size is an `int`, as is what a read returns. -/
def ReadSize : Transfer → TransferEvent → Prop
  | _, .ask length => 0 < length.toNat ∧ length.toNat < 2 ^ 31
  | _, _ => True

instance ReadSize.decidable :
    ∀ (state : Transfer) (event : TransferEvent), Decidable (ReadSize state event)
  | _, .ask _ => inferInstanceAs (Decidable (_ ∧ _))
  | _, .write | _, .timeout | _, .receive => inferInstanceAs (Decidable True)

end MariadbShell.ImportTable
