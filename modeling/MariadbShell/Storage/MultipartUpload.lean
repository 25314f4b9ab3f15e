import MariadbShell.ImportTable.Dialect
import MariadbShell.Lib.Attempt

/-!
# Multipart uploads

`Multipart_uploader` collects data in a buffer and sends it in parts of the same size, or in
one request if it fits in one part. Each request may be answered with a response error; the
answers are given from outside, in the order of the requests.
-/

namespace MariadbShell.Storage

open ImportTable (Bytes)
open Lib Attempt

/-- The configuration of the storage: parts are not empty. -/
structure Config where
  partSize : Nat
  positive : 0 < partSize

inductive Object where
  | single (body : Bytes)
  | multipart (parts : List Bytes)
deriving DecidableEq, Repr

def Object.content : Object → Bytes
  | .single body => body
  | .multipart parts => parts.flatten

/-- The members of `Multipart_uploader` and of its helper, the object that was created and the
number of requests that were made. -/
structure Uploader where
  buffer : Bytes := []
  active : Bool := false
  parts : List Bytes := []
  object : Option Object := none
  requests : Nat := 0
deriving DecidableEq, Repr

abbrev Uploading := Attempt Uploader Bytes

/-- The errors that the requests are answered with, if any. -/
abbrev Answers := Nat → Option Bytes

/-! ## Requests -/

namespace MultipartUploadHelper

variable (answers : Answers)

/-- A request, with its effect if it succeeds. -/
def request (effect : Uploader → Uploader) : Uploading Unit := fun state =>
  let later := { state with requests := state.requests + 1 }
  match answers state.requests with
  | none => (.ok (), effect later)
  | some error => (.error error, later)

def upload (body : Bytes) : Uploading Unit :=
  request answers fun state => { state with object := some (.single body) }

def create : Uploading Unit :=
  request answers fun state => { state with active := true }

def uploadPart (body : Bytes) : Uploading Unit :=
  request answers fun state => { state with parts := state.parts ++ [body] }

def commit : Uploading Unit :=
  request answers fun state => { state with object := some (.multipart state.parts) }

def abort : Uploading Unit :=
  request answers id

def cleanup : Uploading Unit :=
  modify fun state => { state with active := false, parts := [] }

end MultipartUploadHelper

/-! ## The uploader -/

namespace MultipartUploader

open MultipartUploadHelper (upload create uploadPart abort cleanup)

variable (config : Config) (answers : Answers)

/-- `maybe_abort`: an upload that cannot be cancelled is forgotten as well. -/
def maybeAbort : Uploading Unit := do
  let state ← get
  if state.active then
    handle (abort answers) fun _ => pure ()
    cleanup
  else pure ()

/-- The next part, from the buffer if there is data in it; returns the part and the incoming
data that is left. -/
def nextPart (incoming : Bytes) : Uploading (Bytes × Bytes) := do
  let state ← get
  if state.buffer.isEmpty then
    pure (incoming.take config.partSize, incoming.drop config.partSize)
  else
    let space := config.partSize - state.buffer.length
    let filled := state.buffer ++ incoming.take space
    modify fun state => { state with buffer := filled }
    pure (filled, incoming.drop space)

/-- The upload of a part in `append`. -/
def sendPart (part : Bytes) : Uploading Unit :=
  handle (uploadPart answers part) fun error => do
    maybeAbort answers
    raise error

/-- The loop of `append`, which is left after `toSend` rounds at the latest; returns the
incoming data that is left. -/
def sendParts : Nat → Nat → Bytes → Uploading Bytes
  | 0, _, incoming => pure incoming
  | rounds + 1, toSend, incoming =>
    if config.partSize < toSend then do
      let (part, rest) ← nextPart config incoming
      sendPart answers part
      modify fun state => { state with buffer := [] }
      sendParts rounds (toSend - config.partSize) rest
    else pure incoming

/-- A multipart upload is needed when there is more data than fits in a part. -/
def start (toSend : Nat) : Uploading Unit := do
  let state ← get
  if ¬ state.active ∧ config.partSize < toSend then create answers else pure ()

def append (data : Bytes) : Uploading Unit := do
  let state ← get
  let toSend := state.buffer.length + data.length
  start config answers toSend
  let rest ← sendParts config answers toSend toSend data
  modify fun state => { state with buffer := state.buffer ++ rest }

def sendRest : Uploading Unit := do
  let state ← get
  if state.buffer.isEmpty then pure () else uploadPart answers state.buffer

/-- The requests of `commit`: an object is created even if it is empty. -/
def finish : Uploading Unit := do
  let state ← get
  if state.active then do
    sendRest answers
    MultipartUploadHelper.commit answers
    cleanup
  else upload answers state.buffer

def commit : Uploading Unit :=
  handle
    (do
      finish answers
      modify fun state => { state with buffer := [] })
    fun error => do
      maybeAbort answers
      raise error

/-! ## Writers -/

/-- Calls of `append`. After an error the caller goes on or not. Returns the data that was
passed and whether a call failed. -/
def appendAll (goOn : Bool) : List Bytes → Uploading (Bytes × Bool)
  | [] => pure ([], false)
  | data :: rest => do
      let failed ← handle
        (do
          append config answers data
          pure false)
        fun _ => pure true
      if failed && !goOn then pure (data, true)
      else do
        let (passed, later) ← appendAll goOn rest
        pure (data ++ passed, failed || later)

/-- Whether `commit` returns normally. -/
def tryCommit : Uploading Bool :=
  handle
    (do
      commit answers
      pure true)
    fun _ => pure false

/-- All data that was passed to `append`, whether one of these calls failed and whether
`commit` was called and returned normally. -/
structure Outcome where
  passed : Bytes
  failed : Bool
  committed : Bool
deriving DecidableEq, Repr

/-- Calls of `append` and a final `commit`. -/
def writeObject (pieces : List Bytes) : Uploading Outcome := do
  let (passed, failed) ← appendAll config answers true pieces
  let committed ← tryCommit answers
  pure ⟨passed, failed, committed⟩

/-- `Zstd_file::do_close`: what the compressor has left is written before the object is
closed. -/
def closeFile (tail : List Bytes) : Uploading (Bytes × Bool) := do
  let (passed, failed) ← appendAll config answers false tail
  if failed then pure (passed, false)
  else do
    let committed ← tryCommit answers
    pure (passed, committed)

/--
A compressed file, from what the compressor writes: the caller stops at an error, and the
destructors close the file and cancel what is not complete.
-/
def compressedFile (pieces tail : List Bytes) : Uploading Outcome := do
  let (passed, failed) ← appendAll config answers false pieces
  let (rest, committed) ← closeFile config answers tail
  maybeAbort answers
  pure ⟨passed ++ rest, failed, committed⟩

end MultipartUploader

end MariadbShell.Storage
