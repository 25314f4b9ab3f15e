import MariadbShell.Lib.Machine
import MariadbShell.Load.ProgressKeys
import MariadbShell.Scripting.JsonText

/-!
# The load progress log

Entries are appended to the log when operations start and end. A later session copies
the log, replays it and goes on from there. The log is written piece by piece, and a
session can end behind every piece.
-/

namespace MariadbShell.Load

open List
open ImportTable (Bytes ascii)
open Lib
open Lib.Decimal
open Lib.Separated
open Scripting (Value appendString appendObject)

/-! ## Entries -/

inductive Field where
  | op
  | done
  | timestamp
  | schema
  | table
  | partition
  | chunk
  | subchunk
  | workerId
  | weight
  | indexes
  | dataBytes
  | fileBytes
  | rows
  | transactionBytes
  | uuid
deriving DecidableEq, Repr

def Field.key (field : Field) : Bytes :=
  ascii (match field with
    | .op => "op"
    | .done => "done"
    | .timestamp => "timestamp"
    | .schema => "schema"
    | .table => "table"
    | .partition => "partition"
    | .chunk => "chunk"
    | .subchunk => "subchunk"
    | .workerId => "_worker"
    | .weight => "_srvthreads"
    | .indexes => "_nindexes"
    | .dataBytes => "bytes"
    | .fileBytes => "raw_bytes"
    | .rows => "rows"
    | .transactionBytes => "transaction_bytes"
    | .uuid => "uuid").toList

inductive FieldValue where
  | text (value : Bytes)
  | integer (value : Int)
  | bool (value : Bool)
deriving DecidableEq, Repr

/-- The fields of an entry in the order in which they are written. -/
abbrev Fields := List (Field × FieldValue)

abbrev Dictionary := Field → Option FieldValue

structure Task where
  workerId : Nat
  weight : Nat
deriving DecidableEq, Repr

structure Sizes where
  dataBytes : UInt64
  fileBytes : UInt64
  rows : UInt64
  transactionBytes : UInt64
deriving DecidableEq, Repr

inductive LogEntry where
  | start (operation : Operation) (task : Task) (indexes : Nat)
  | update (schema table partition : Bytes) (dataBytes : UInt64)
  | finish (operation : Operation) (sizes : Sizes)
  | setServerUuid (uuid : Bytes)
deriving DecidableEq, Repr

/-- `append` for the fields that identify an operation. -/
def Operation.fields : Operation → Fields
  | .ofInstance _ => []
  | .ofSchema _ schema => [(.schema, .text schema)]
  | .ofTable _ schema table => [(.schema, .text schema), (.table, .text table)]
  | .tableChunk schema table partition chunk =>
    [(.schema, .text schema), (.table, .text table)] ++
      (if partition ≠ [] then [(.partition, .text partition)] else []) ++ [(.chunk, .integer chunk)]
  | .tableSubchunk schema table partition chunk subchunk =>
    [(.schema, .text schema), (.table, .text table)] ++
      (if partition ≠ [] then [(.partition, .text partition)] else []) ++
        [(.chunk, .integer chunk), (.subchunk, .integer subchunk)]
  | .bulkLoad schema table partition =>
    [(.schema, .text schema), (.table, .text table)] ++
      (if partition ≠ [] then [(.partition, .text partition)] else [])

def Task.fields (task : Task) : Fields :=
  [(.workerId, .integer task.workerId), (.weight, .integer task.weight)]

def startFields (task : Task) (indexes : Nat) : Kind → Fields
  | .global _ | .schema _ | .table .triggersDdl => []
  | .table .tableIndexes => task.fields ++ [(.indexes, .integer indexes)]
  | .table _ | .tableChunk | .tableSubchunk | .bulkLoad => task.fields

def endFields (sizes : Sizes) : Kind → Fields
  | .tableChunk | .bulkLoad =>
    [(.dataBytes, .integer sizes.dataBytes.toNat), (.fileBytes, .integer sizes.fileBytes.toNat),
      (.rows, .integer sizes.rows.toNat)]
  | .tableSubchunk => [(.transactionBytes, .integer sizes.transactionBytes.toNat)]
  | .global _ | .schema _ | .table _ => []

def serverUuidOp : Bytes :=
  ascii "SERVER-UUID".toList

namespace LogEntry

def operation : LogEntry → Option Operation
  | .start operation _ _ => some operation
  | .update schema table partition _ => some (.bulkLoad schema table partition)
  | .finish operation _ => some operation
  | .setServerUuid _ => none

def done : LogEntry → Bool
  | .start .. | .update .. => false
  | .finish .. | .setServerUuid _ => true

def op (entry : LogEntry) : Bytes :=
  match entry.operation with
  | some operation => operation.kind.op
  | none => serverUuidOp

def key (entry : LogEntry) : Bytes :=
  match entry.operation with
  | some operation => operation.key
  | none => serverUuidOp

def counted : LogEntry → Sizes
  | .finish (.tableChunk ..) sizes | .finish (.bulkLoad ..) sizes =>
    { sizes with transactionBytes := 0 }
  | _ => ⟨0, 0, 0, 0⟩

def operationFields (entry : LogEntry) : Fields :=
  match entry.operation with
  | some operation => operation.fields
  | none => []

def extraFields : LogEntry → Fields
  | .start operation task indexes => startFields task indexes operation.kind
  | .update _ _ _ dataBytes => [(.dataBytes, .integer dataBytes.toNat)]
  | .finish operation sizes => endFields sizes operation.kind
  | .setServerUuid uuid => [(.uuid, .text uuid)]

/-- `begin_log` and `append`. -/
def fields (timestamp : Int) (entry : LogEntry) : Fields :=
  [(.op, .text entry.op), (.done, .bool entry.done), (.timestamp, .integer timestamp)] ++
    (entry.operationFields ++ entry.extraFields)

end LogEntry

/-! ## The text of an entry -/

namespace FieldValue

def json : FieldValue → Bytes
  | .text value => appendString value
  | .integer value => decimalInt value
  | .bool value => ascii (if value then "true" else "false").toList

def value : FieldValue → Value
  | .text value => .string value
  | .integer value => .integer value
  | .bool value => .bool value

/-- The values that entries have. -/
def ofValue : Value → Option FieldValue
  | .string value => some (.text value)
  | .integer value => some (.integer value)
  | .bool value => some (.bool value)
  | _ => none

/-- The reader has signed 64-bit integers. -/
def Fits : FieldValue → Prop
  | .integer value => -2 ^ 63 ≤ value ∧ value < 2 ^ 63
  | _ => True

instance (value : FieldValue) : Decidable value.Fits :=
  match value with
  | .integer value => inferInstanceAs (Decidable (-2 ^ 63 ≤ value ∧ value < 2 ^ 63))
  | .text _ | .bool _ => .isTrue trivial

end FieldValue

def renderEntry (fields : Fields) : Bytes :=
  appendObject (fields.map fun (field, value) => (field.key, value.json))

/-- `Value::parse` and `as_map`. -/
def parseEntry (line : Bytes) : Option Dictionary :=
  match Value.parseText line with
  | .ok (.map entries) =>
    some fun field => (Keyed.get field.key entries).bind FieldValue.ofValue
  | _ => none

/-! ## Reading entries -/

namespace Dictionary

variable (entry : Dictionary)

/-- `get_int`, where a Boolean counts as a number; `none` stands for an exception. -/
def getInt (field : Field) : Option Int :=
  match entry field with
  | none => some 0
  | some (.integer value) => some value
  | some (.bool value) => some (if value then 1 else 0)
  | some (.text _) => none

def getUint (field : Field) : Option UInt64 :=
  match entry field with
  | none => some 0
  | some (.integer value) => if 0 ≤ value then some (UInt64.ofNat value.toNat) else none
  | some (.bool value) => some (if value then 1 else 0)
  | some (.text _) => none

def getString (field : Field) : Option Bytes :=
  match entry field with
  | none => some []
  | some (.text value) => some value
  | some _ => none

/-- The part of a key for a name, if there is one. -/
def namePart (field : Field) : Option Bytes :=
  match entry field with
  | none => some []
  | some (.text value) =>
    some ([Operation.colon, Operation.backtick] ++ (value ++ [Operation.backtick]))
  | some _ => none

def chunkPart : Option Bytes :=
  match entry .chunk with
  | none => some []
  | some (.integer value) => some (Operation.colon :: decimalInt value)
  | some _ => none

def subchunkPart : Option Bytes :=
  match entry .subchunk with
  | none => some []
  | some (.integer value) =>
    if 0 ≤ value then some (Operation.colon :: decimal value.toNat) else none
  | some _ => none

/-- The key of an entry, rebuilt from the fields that it has. -/
def rebuildKey : Option Bytes :=
  match entry.getString .op, entry.namePart .schema, entry.namePart .table,
    entry.namePart .partition, entry.chunkPart, entry.subchunkPart with
  | some op, some schema, some table, some partition, some chunk, some subchunk =>
    some (op ++ (schema ++ (table ++ (partition ++ (chunk ++ subchunk)))))
  | _, _, _, _, _, _ => none

end Dictionary

/-! ## Replaying the log -/

inductive Status where
  | pending
  | interrupted
  | done
deriving DecidableEq, Repr

structure StatusDetails where
  status : Status
  details : Dictionary

/-- The state and the totals that the replay of a log collects. -/
structure Replay where
  lastState : List (Bytes × StatusDetails) := []
  dataBytes : UInt64 := 0
  fileBytes : UInt64 := 0
  rows : UInt64 := 0

namespace Replay

def find (replay : Replay) (key : Bytes) : Option StatusDetails :=
  replay.lastState.lookup key

def status (replay : Replay) (operation : Operation) : Status :=
  ((replay.find operation.key).map (·.status)).getD .pending

def tableSubchunkSize (replay : Replay) (schema table partition : Bytes) (chunk : Int)
    (subchunk : Nat) : Option UInt64 :=
  match replay.find (Operation.tableSubchunk schema table partition chunk subchunk).key with
  | none => some 0
  | some details => details.details.getUint .transactionBytes

/-- The update for an entry with a given key. -/
def record (replay : Replay) (key : Bytes) (entry : Dictionary) (done : Bool)
    (dataBytes fileBytes rows : UInt64) : Replay :=
  let previous := replay.find key
  if done then
    { lastState := (key, ⟨.done, entry⟩) :: replay.lastState
      dataBytes := replay.dataBytes + dataBytes
      fileBytes := replay.fileBytes + fileBytes
      rows := replay.rows + rows }
  else
    match previous with
    | some _ => replay
    | none => { replay with lastState := (key, ⟨.interrupted, entry⟩) :: replay.lastState }

/-- The callback of `init` for an entry. -/
def entry (replay : Replay) (entry : Dictionary) : Option Replay :=
  match entry.getInt .done, entry.rebuildKey, entry.getUint .dataBytes,
    entry.getUint .fileBytes, entry.getUint .rows with
  | some done, some key, some dataBytes, some fileBytes, some rows =>
    some (replay.record key entry (done ≠ 0) dataBytes fileBytes rows)
  | _, _, _, _, _ => none

end Replay

/-- The lines of a text; what follows the last newline is a line as well. -/
def lines : Bytes → List Bytes
  | [] => [[]]
  | chr :: text =>
    if chr = 10 then [] :: lines text
    else
      match lines text with
      | [] => [[chr]]
      | line :: later => (chr :: line) :: later

/-- The line is empty once `str_strip_view` has removed its spaces. -/
def isBlankLine (line : Bytes) : Bool :=
  line.all fun chr => chr = 32 ∨ chr = 9 ∨ chr = 10 ∨ chr = 13

/-- The callback of `init` for a line. -/
def Replay.line (replay : Replay) (line : Bytes) : Option Replay :=
  if isBlankLine line then some replay else (parseEntry line).bind replay.entry

def Replay.lines : Replay → List Bytes → Option Replay
  | replay, [] => some replay
  | replay, line :: later =>
    match replay.line line with
    | none => none
    | some next => next.lines later

/-- `init`: the log is replayed; `none` when it cannot be read. -/
def replayLog (data : Bytes) : Option Replay :=
  Replay.lines {} (MariadbShell.Load.lines data)

/-! ## Sessions -/

/-- How far a session has come with the log. -/
inductive Phase where
  | closed
  /-- The log was read and truncated, and is about to be copied. -/
  | opened (replay : Replay) (data : Bytes)
  | copied (replay : Replay)
  | ready (replay : Replay)
  /-- An entry was written, but not the newline behind it. -/
  | unterminated (replay : Replay)

/-- The log file, the session that has it open and all entries that were ever written. -/
structure Log where
  file : Bytes := []
  phase : Phase := .closed
  written : List (Int × LogEntry) := []

/-- What a session does to the log; a new session can start at any time. -/
inductive LogEvent where
  | openLog
  | copyData
  | writeSeparator
  | log (timestamp : Int) (entry : LogEntry)
  | endLine

/-- `do_log` and `set_server_uuid` do not write what is known already. -/
def Replay.skips (replay : Replay) (entry : LogEntry) : Bool :=
  match entry.operation with
  | some operation => replay.status operation = .done
  | none =>
    match replay.find serverUuidOp with
    | none => false
    | some details => details.details.getString .uuid ≠ some []

def Log.step (log : Log) : LogEvent → Option Log
  | .openLog =>
    (replayLog log.file).map fun replay =>
      { log with
        file := []
        phase := if log.file = [] then .ready replay else .opened replay log.file }
  | .copyData =>
    match log.phase with
    | .opened replay data => some { log with file := data, phase := .copied replay }
    | _ => none
  | .writeSeparator =>
    match log.phase with
    | .copied replay => some { log with file := log.file ++ [10], phase := .ready replay }
    | _ => none
  | .log timestamp entry =>
    match log.phase with
    | .ready replay =>
      if replay.skips entry then some log
      else
        some
          { file := log.file ++ renderEntry (entry.fields timestamp)
            phase := .unterminated replay
            written := log.written ++ [(timestamp, entry)] }
    | _ => none
  | .endLine =>
    match log.phase with
    | .unterminated replay => some { log with file := log.file ++ [10], phase := .ready replay }
    | _ => none

/-! ## Entries are read as they were written -/

/-- The entry that is read for an entry that was written. -/
def LogEntry.dictionary (timestamp : Int) (entry : LogEntry) : Dictionary :=
  fun field => (entry.fields timestamp).lookup field

/-- The numbers of an entry fit into 64 bits. -/
def LogEntry.Fits (timestamp : Int) (entry : LogEntry) : Prop :=
  ∀ field ∈ entry.fields timestamp, field.2.Fits

instance (timestamp : Int) (entry : LogEntry) : Decidable (entry.Fits timestamp) :=
  inferInstanceAs (Decidable (∀ field ∈ entry.fields timestamp, field.2.Fits))

/-- No name of an entry holds the text between two names. -/
def LogEntry.Separable (entry : LogEntry) : Prop :=
  ∀ operation, entry.operation = some operation → operation.Separable

def headerNames : List Field :=
  [.op, .done, .timestamp]

def operationNames : List Field :=
  [.schema, .table, .partition, .chunk, .subchunk]

def extraNames : List Field :=
  [.workerId, .weight, .indexes, .dataBytes, .fileBytes, .rows, .transactionBytes, .uuid]

theorem Field.key_inj {left right : Field} (same : left.key = right.key) : left = right := by
  have found (field : Field) : (headerNames ++ (operationNames ++ extraNames)).find?
      (fun other => other.key = field.key) = some field := by
    cases field <;> rfl
  have located := found left
  rw [same, found right] at located
  exact (Option.some.inj located).symm

theorem FieldValue.reads {value : FieldValue} (fits : value.Fits) (depth : Nat) :
    Scripting.Reads (Scripting.parseMain (Scripting.parseStructured (depth + 1))) value.json
      value.value := by
  cases value with
  | text value => exact Scripting.reads_appendString depth value
  | integer value => exact Scripting.reads_decimalInt _ fits.1 fits.2
  | bool value => exact Scripting.reads_bool _ value

/-- The fields of an entry, with the texts and the values that stand for them. -/
def items (fields : Fields) : List (Bytes × Bytes × Value) :=
  fields.map fun (field, value) => (field.key, value.json, value.value)

theorem get_items {fields : Fields} (distinct : (fields.map Prod.fst).Nodup) (field : Field)
    (map : List (Bytes × Value)) :
    Keyed.get field.key (Scripting.putItems (items fields) map) =
      ((fields.lookup field).map FieldValue.value).or (Keyed.get field.key map) := by
  induction fields generalizing map with
  | nil => rfl
  | cons first fields ih =>
    obtain ⟨fresh, others⟩ := nodup_cons.mp distinct
    refine (ih others _).trans ?_
    rw [Keyed.get_put, lookup_cons]
    by_cases same : field = first.1
    · have absent : fields.lookup field = none := by
        refine lookup_eq_none_iff.mpr fun other member => bne_iff_ne.mpr ?_
        rintro rfl
        exact fresh (same ▸ mem_map_of_mem member)
      rw [absent, if_pos (congrArg Field.key same), beq_iff_eq.mpr same]
      rfl
    · rw [if_neg (mt Field.key_inj same), beq_false_of_ne same]

/-- The fields of an entry are read back. -/
theorem parseEntry_renderEntry {fields : Fields} (nonempty : fields ≠ [])
    (distinct : (fields.map Prod.fst).Nodup) (fits : ∀ field ∈ fields, field.2.Fits) :
    parseEntry (renderEntry fields) = some fun field => fields.lookup field := by
  have reads : ∀ depth, ∀ item ∈ items fields, Scripting.Reads
      (Scripting.parseMain (Scripting.parseStructured (depth + 1))) item.2.1 item.2.2 := by
    rintro depth _ member
    obtain ⟨field, listed, rfl⟩ := mem_map.mp member
    exact FieldValue.reads (fits field listed) depth
  have parsed : Value.parseText (renderEntry fields) =
      .ok (.map (Scripting.putItems (items fields) [])) := by
    obtain ⟨first, others, rfl⟩ := exists_cons_of_ne_nil nonempty
    exact (congrArg Value.parseText (by simp [renderEntry, Function.comp_def])).trans
      (Scripting.parseText_appendObject reads)
  have back (value : FieldValue) : FieldValue.ofValue value.value = some value := by
    cases value <;> rfl
  rw [parseEntry, parsed]
  refine congrArg some (funext fun field => ?_)
  rw [get_items distinct]
  cases fields.lookup field with
  | none => rfl
  | some value => exact back value

theorem newline_not_mem_renderEntry (fields : Fields) : 10 ∉ renderEntry fields := by
  refine Scripting.newline_not_mem_appendObject fun item member => ?_
  obtain ⟨⟨field, value⟩, -, rfl⟩ := mem_map.mp member
  cases value with
  | text value => exact Scripting.newline_not_mem_appendString value
  | integer value =>
    intro member
    rcases decimalInt_symbols member with digit | sign
    · exact absurd digit (by decide)
    · exact absurd sign (by decide)
  | bool value => exact (by cases value <;> decide : 10 ∉ (FieldValue.bool value).json)

theorem not_blank_renderEntry (fields : Fields) : isBlankLine (renderEntry fields) = false :=
  rfl

/-- The fields of an operation come in a fixed order. -/
theorem Operation.fields_sublist (operation : Operation) :
    (operation.fields.map Prod.fst).Sublist operationNames := by
  unfold operationNames
  cases operation with
  | ofInstance | ofSchema | ofTable => simp [fields]
  | tableChunk _ _ partition | tableSubchunk _ _ partition | bulkLoad _ _ partition =>
    by_cases empty : partition = [] <;> simp [fields, empty]

theorem startFields_sublist (task : Task) (indexes : Nat) (kind : Kind) :
    ((startFields task indexes kind).map Prod.fst).Sublist extraNames := by
  rcases kind with kind | kind | kind | _ | _ | _
  case table => cases kind <;> simp [startFields, Task.fields, extraNames]
  all_goals simp [startFields, Task.fields, extraNames]

theorem endFields_sublist (sizes : Sizes) (kind : Kind) :
    ((endFields sizes kind).map Prod.fst).Sublist extraNames := by
  rcases kind with kind | kind | kind | _ | _ | _
  case tableChunk | bulkLoad =>
    exact (List.Sublist.refl [Field.dataBytes, .fileBytes, .rows]).append
      (nil_sublist [.transactionBytes, .uuid]) |>.cons _ |>.cons _ |>.cons _
  all_goals simp [endFields, extraNames]

namespace LogEntry

theorem operationFields_sublist (entry : LogEntry) :
    (entry.operationFields.map Prod.fst).Sublist operationNames := by
  unfold operationFields
  cases entry.operation with
  | none => exact nil_sublist _
  | some operation => exact operation.fields_sublist

theorem extraFields_sublist (entry : LogEntry) :
    (entry.extraFields.map Prod.fst).Sublist extraNames := by
  cases entry with
  | start operation task indexes => exact startFields_sublist task indexes operation.kind
  | update schema table partition dataBytes => simp [extraFields, extraNames]
  | finish operation sizes => exact endFields_sublist sizes operation.kind
  | setServerUuid uuid => simp [extraFields, extraNames]

/-- Every field is written once. -/
theorem fields_nodup (timestamp : Int) (entry : LogEntry) :
    ((entry.fields timestamp).map Prod.fst).Nodup := by
  have order : (((entry.fields timestamp).map Prod.fst)).Sublist
      (headerNames ++ (operationNames ++ extraNames)) := by
    rw [fields, map_append, map_append]
    exact (List.Sublist.refl _).append
      (entry.operationFields_sublist.append entry.extraFields_sublist)
  exact order.nodup (by decide)

theorem parseEntry_fields {timestamp : Int} {entry : LogEntry} (fits : entry.Fits timestamp) :
    parseEntry (renderEntry (entry.fields timestamp)) = some (entry.dictionary timestamp) :=
  parseEntry_renderEntry (cons_ne_nil _ _) (entry.fields_nodup timestamp) fits

end LogEntry

variable {field : Field}

theorem lookup_eq_none {fields : Fields} {names : List Field}
    (sublist : (fields.map Prod.fst).Sublist names) (absent : field ∉ names) :
    fields.lookup field = none := by
  rw [lookup_eq_none_iff]
  intro pair member
  have inside : pair.1 ∈ names := sublist.subset (mem_map_of_mem member)
  rw [bne_iff_ne]
  rintro rfl
  exact absent inside

@[simp]
theorem lookup_cons_of_ne {field name : Field} (value : FieldValue) (fields : Fields)
    (other : field ≠ name) : List.lookup field ((name, value) :: fields) = fields.lookup field := by
  rw [lookup_cons, beq_false_of_ne other]

namespace LogEntry

theorem dictionary_of_not_header (timestamp : Int) (entry : LogEntry)
    (notHeader : field ∉ headerNames) : entry.dictionary timestamp field =
      (entry.operationFields.lookup field).or (entry.extraFields.lookup field) := by
  have header : List.lookup field [(Field.op, FieldValue.text entry.op),
      (.done, .bool entry.done), (.timestamp, .integer timestamp)] = none :=
    lookup_eq_none (List.Sublist.refl headerNames) notHeader
  rw [dictionary, fields, lookup_append, lookup_append, header, Option.none_or]

theorem dictionary_operationField (timestamp : Int) (entry : LogEntry)
    (member : field ∈ operationNames) :
    entry.dictionary timestamp field = entry.operationFields.lookup field := by
  have other : ∀ field ∈ operationNames, field ∉ headerNames ∧ field ∉ extraNames := by decide
  rw [entry.dictionary_of_not_header timestamp (other field member).1,
    lookup_eq_none entry.extraFields_sublist (other field member).2, Option.or_none]

theorem dictionary_extraField (timestamp : Int) (entry : LogEntry) (member : field ∈ extraNames) :
    entry.dictionary timestamp field = entry.extraFields.lookup field := by
  have other : ∀ field ∈ extraNames, field ∉ headerNames ∧ field ∉ operationNames := by decide
  rw [entry.dictionary_of_not_header timestamp (other field member).1,
    lookup_eq_none entry.operationFields_sublist (other field member).2, Option.none_or]

/-- The key that is rebuilt from an entry is the one it was written under. -/
theorem rebuildKey_dictionary (timestamp : Int) (entry : LogEntry) :
    (entry.dictionary timestamp).rebuildKey = some entry.key := by
  have op : (entry.dictionary timestamp).getString .op = some entry.op := rfl
  unfold Dictionary.rebuildKey Dictionary.namePart Dictionary.chunkPart Dictionary.subchunkPart
  rw [op, entry.dictionary_operationField timestamp (by decide),
    entry.dictionary_operationField timestamp (by decide),
    entry.dictionary_operationField timestamp (by decide),
    entry.dictionary_operationField timestamp (by decide),
    entry.dictionary_operationField timestamp (by decide)]
  unfold LogEntry.op LogEntry.key LogEntry.operationFields
  cases entry.operation with
  | none => rfl
  | some operation =>
    cases operation with
    | ofInstance kind => rfl
    | ofSchema kind schema => simp [Operation.fields, Operation.key, Operation.details]
    | ofTable kind schema table =>
      simp [Operation.fields, Operation.key, Operation.details, Operation.separator]
    | tableChunk schema table partition | tableSubchunk schema table partition
    | bulkLoad schema table partition =>
      by_cases empty : partition = [] <;>
        simp [Operation.fields, Operation.key, Operation.details, Operation.tableNames,
          Operation.separator, empty]

/-- The sizes in an entry are read as they were written; only an end entry has all of them. -/
theorem getUint_dictionary (timestamp : Int) (entry : LogEntry) :
    ∃ dataBytes fileBytes rows,
      (entry.dictionary timestamp).getUint .dataBytes = some dataBytes ∧
        (entry.dictionary timestamp).getUint .fileBytes = some fileBytes ∧
          (entry.dictionary timestamp).getUint .rows = some rows ∧
            (entry.done = true → dataBytes = entry.counted.dataBytes ∧
              fileBytes = entry.counted.fileBytes ∧ rows = entry.counted.rows) := by
  unfold Dictionary.getUint
  rw [entry.dictionary_extraField timestamp (by decide),
    entry.dictionary_extraField timestamp (by decide),
    entry.dictionary_extraField timestamp (by decide)]
  cases entry with
  | start operation task indexes =>
    cases operation with
    | ofTable kind =>
      cases kind <;> simp [extraFields, startFields, Operation.kind, Task.fields, done]
    | _ => simp [extraFields, startFields, Operation.kind, Task.fields, done]
  | update schema table partition dataBytes =>
    exact ⟨dataBytes, 0, 0, by simp [extraFields, done]⟩
  | finish operation sizes =>
    cases operation <;> simp [extraFields, endFields, Operation.kind, counted]
  | setServerUuid uuid => exact ⟨0, 0, 0, by simp [extraFields, counted]⟩

end LogEntry

/-! ## The replay of written entries -/

namespace Replay

def recordEntry (replay : Replay) (written : Int × LogEntry) : Replay :=
  replay.record written.2.key (written.2.dictionary written.1) written.2.done
    written.2.counted.dataBytes written.2.counted.fileBytes written.2.counted.rows

theorem line_render (replay : Replay) {timestamp : Int} {entry : LogEntry}
    (fits : entry.Fits timestamp) : replay.line (renderEntry (entry.fields timestamp)) =
      some (replay.recordEntry (timestamp, entry)) := by
  obtain ⟨dataBytes, fileBytes, rows, readData, readFile, readRows, counted⟩ :=
    entry.getUint_dictionary timestamp
  have done : (entry.dictionary timestamp).getInt .done = some (if entry.done then 1 else 0) := rfl
  rw [Replay.line, if_neg (by simp [not_blank_renderEntry]), LogEntry.parseEntry_fields fits,
    Option.bind_some,
    Replay.entry, done, entry.rebuildKey_dictionary, readData, readFile, readRows]
  cases finished : entry.done with
  | false => simp [recordEntry, record, finished]
  | true =>
    obtain ⟨rfl, rfl, rfl⟩ := counted finished
    simp [recordEntry, record, finished]

theorem lines_render (replay : Replay) {written : List (Int × LogEntry)}
    (fits : ∀ entry ∈ written, entry.2.Fits entry.1) :
    replay.lines (written.map fun entry => renderEntry (entry.2.fields entry.1)) =
      some (written.foldl recordEntry replay) := by
  induction written generalizing replay with
  | nil => rfl
  | cons entry written ih =>
    obtain ⟨first, others⟩ := forall_mem_cons.mp fits
    rw [map_cons, Replay.lines, line_render _ first]
    exact ih _ others

/-- Blank lines do not matter. -/
theorem lines_filter (replay : Replay) (text : List Bytes) :
    replay.lines (text.filter fun line => !isBlankLine line) = replay.lines text := by
  induction text generalizing replay with
  | nil => rfl
  | cons line text ih =>
    cases blank : isBlankLine line with
    | true =>
      rw [filter_cons_of_neg (by simp [blank]), ih]
      simp [Replay.lines, Replay.line, blank]
    | false =>
      rw [filter_cons_of_pos (by simp [blank]), Replay.lines, Replay.lines]
      cases replay.line line with
      | none => rfl
      | some next => exact ih next

/-- An entry is found under its key, unless it is a start entry and there is one already. -/
theorem find_recordEntry (replay : Replay) (written : Int × LogEntry) (key : Bytes) :
    (replay.recordEntry written).find key =
      if written.2.key = key then
        if written.2.done then some ⟨.done, written.2.dictionary written.1⟩
        else (replay.find key).or (some ⟨.interrupted, written.2.dictionary written.1⟩)
      else replay.find key := by
  obtain ⟨timestamp, entry⟩ := written
  have pushed (details : StatusDetails) :
      { replay with lastState := (entry.key, details) :: replay.lastState }.find key =
        if entry.key = key then some details else replay.find key := by
    by_cases same : entry.key = key
    · simp [find, same]
    · simp [find, same, lookup_cons, beq_false_of_ne (Ne.symm same)]
  cases finished : entry.done with
  | true => simpa [recordEntry, record, find, finished] using pushed _
  | false =>
    by_cases same : entry.key = key
    · subst same
      cases previous : replay.find entry.key <;>
        simp [recordEntry, record, finished, previous, pushed]
    · cases previous : replay.find entry.key <;>
        simp [recordEntry, record, finished, previous, pushed, same]

/-- The status that the entries for a key give it. -/
theorem find_entries (written : List (Int × LogEntry)) (key : Bytes) :
    ((written.foldl recordEntry {}).find key).map (·.status) =
      if ∃ entry ∈ written, entry.2.key = key ∧ entry.2.done = true then some .done
      else if ∃ entry ∈ written, entry.2.key = key then some .interrupted else none := by
  induction written using List.reverseRecOn with
  | nil => simp [find]
  | append_singleton written entry ih =>
    rw [foldl_append, foldl_cons, foldl_nil, find_recordEntry, apply_ite (Option.map _),
      apply_ite (Option.map _), Option.map_or, ih]
    by_cases earlier : ∃ other ∈ written, other.2.key = key ∧ other.2.done = true <;>
      by_cases started : ∃ other ∈ written, other.2.key = key <;>
        by_cases same : entry.2.key = key <;> cases done : entry.2.done <;>
          simp [same, done, earlier, started]

/-- What is found under a key was written under it. -/
theorem find_details {written : List (Int × LogEntry)} {key : Bytes} {details : StatusDetails}
    (found : (written.foldl recordEntry {}).find key = some details) :
    ∃ entry ∈ written, entry.2.key = key ∧ details.details = entry.2.dictionary entry.1 ∧
      (details.status = .done → entry.2.done = true) := by
  induction written using List.reverseRecOn with
  | nil => cases found
  | append_singleton written entry ih =>
    rw [foldl_append, foldl_cons, foldl_nil, find_recordEntry] at found
    have kept := fun before => (ih before).imp fun other facts =>
      (⟨mem_append_left [entry] facts.1, facts.2⟩ : other ∈ written ++ [entry] ∧ _)
    split at found
    · next same =>
      split at found
      · next finished =>
        cases found
        exact ⟨entry, mem_append_right _ mem_cons_self, same, rfl, fun _ => finished⟩
      · rcases Option.or_eq_some_iff.mp found with before | ⟨-, first⟩
        · exact kept before
        · cases first
          exact ⟨entry, mem_append_right _ mem_cons_self, same, rfl, nofun⟩
    · exact kept found

/-- What the entries that end an operation add up to. -/
def total (size : Sizes → UInt64) (written : List (Int × LogEntry)) : UInt64 :=
  (written.filter fun entry => entry.2.done).foldl
    (fun total entry => total + size entry.2.counted) 0

end Replay

/-! ## Every run -/

theorem lines_ne_nil (text : Bytes) : lines text ≠ [] := by
  cases text with
  | nil => simp [lines]
  | cons chr text =>
    unfold lines
    split
    · simp
    · split <;> simp

/-- A newline ends a line, whatever comes in front of it. -/
theorem lines_append_newline (text rest : Bytes) :
    lines (text ++ 10 :: rest) = lines text ++ lines rest := by
  induction text with
  | nil => simp [lines]
  | cons chr text ih =>
    rw [cons_append, lines, lines, ih]
    split
    · rfl
    · cases split : lines text with
      | nil => exact absurd split (lines_ne_nil text)
      | cons line later => rfl

theorem lines_eq_singleton {text : Bytes} (absent : 10 ∉ text) : lines text = [text] := by
  induction text with
  | nil => rfl
  | cons chr text ih =>
    rw [mem_cons, not_or] at absent
    rw [lines, if_neg (Ne.symm absent.1), ih absent.2]

/-- The lines of the log are the entries that were written. -/
structure Holds (data : Bytes) (written : List (Int × LogEntry)) : Prop where
  lines_eq : (lines data).filter (fun line => !isBlankLine line) =
    written.map fun entry => renderEntry (entry.2.fields entry.1)
  fits : ∀ entry ∈ written, entry.2.Fits entry.1

variable {written : List (Int × LogEntry)}

theorem Holds.replay {data : Bytes} (holds : Holds data written) :
    replayLog data = some (written.foldl Replay.recordEntry {}) := by
  rw [replayLog, ← Replay.lines_filter, holds.lines_eq, Replay.lines_render _ holds.fits]

theorem Holds.newline {data : Bytes} (holds : Holds data written) :
    Holds (data ++ [10]) written := by
  refine ⟨?_, holds.fits⟩
  rw [lines_append_newline, filter_append, holds.lines_eq]
  simp [lines, isBlankLine]

def AtLineStart (data : Bytes) : Prop :=
  data = [] ∨ ∃ text, data = text ++ [10]

theorem Holds.entry {data : Bytes} (holds : Holds data written)
    (atStart : AtLineStart data) {timestamp : Int} {entry : LogEntry}
    (fits : entry.Fits timestamp) : Holds (data ++ renderEntry (entry.fields timestamp))
      (written ++ [(timestamp, entry)]) := by
  have single := lines_eq_singleton (newline_not_mem_renderEntry (entry.fields timestamp))
  have kept : [renderEntry (entry.fields timestamp)].filter (fun line => !isBlankLine line) =
      [renderEntry (entry.fields timestamp)] := by
    simp [not_blank_renderEntry]
  refine ⟨?_, forall_mem_append.mpr ⟨holds.fits, forall_mem_singleton.mpr fits⟩⟩
  rw [map_append, ← holds.lines_eq]
  rcases atStart with rfl | ⟨text, rfl⟩
  · rw [nil_append, single, kept]
    rfl
  · rw [append_assoc, singleton_append, lines_append_newline, lines_append_newline,
      filter_append, filter_append, single, kept]
    simp [lines, isBlankLine]

def Log.data (log : Log) : Bytes :=
  match log.phase with
  | .opened _ data => data
  | _ => log.file

/-- Nothing that was written is lost, and entries start on lines of their own. -/
structure Log.Invariant (log : Log) : Prop where
  holds : Holds log.data log.written
  ready : ∀ replay, log.phase = .ready replay → AtLineStart log.file
  separable : ∀ entry ∈ log.written, entry.2.Separable

/-- The log was truncated and is not copied yet. -/
def Phase.isOpened : Phase → Bool
  | .opened .. => true
  | _ => false

/--
A session does not end while the log is truncated, names do not hold the text between two
names, and numbers fit into 64 bits.
-/
def LogCondition (log : Log) : LogEvent → Prop
  | .openLog => log.phase.isOpened = false
  | .log timestamp entry => entry.Separable ∧ entry.Fits timestamp
  | _ => True

variable {log : Log}

theorem Log.data_eq_file (notOpened : log.phase.isOpened = false) : log.data = log.file := by
  unfold Log.data
  split
  · next opened => simp [opened, Phase.isOpened] at notOpened
  · rfl

theorem Log.step_invariant (log : Log) (event : LogEvent) (next : Log)
    (invariant : log.Invariant) (condition : LogCondition log event)
    (taken : log.step event = some next) : next.Invariant := by
  have holds := invariant.holds
  cases event with
  | openLog =>
    rw [Log.data_eq_file condition] at holds
    obtain ⟨replay, -, rfl⟩ := Option.map_eq_some_iff.mp taken
    by_cases empty : log.file = []
    · refine ⟨?_, fun replay _ => .inl rfl, invariant.separable⟩
      simp only [Log.data, if_pos empty]
      rw [← empty]
      exact holds
    · refine ⟨?_, fun replay phase => ?_, invariant.separable⟩
      · simp only [Log.data, if_neg empty]
        exact holds
      · simp [empty] at phase
  | copyData =>
    cases phase : log.phase with
    | opened replay data =>
      simp only [Log.step, Log.data, phase, Option.some.injEq] at taken holds
      subst taken
      exact ⟨holds, fun replay phase => (by cases phase), invariant.separable⟩
    | _ => simp [Log.step, phase] at taken
  | writeSeparator =>
    cases phase : log.phase with
    | copied replay =>
      simp only [Log.step, Log.data, phase, Option.some.injEq] at taken holds
      subst taken
      exact ⟨holds.newline, fun replay _ => .inr ⟨log.file, rfl⟩, invariant.separable⟩
    | _ => simp [Log.step, phase] at taken
  | log timestamp entry =>
    cases phase : log.phase with
    | ready replay =>
      simp only [Log.step, Log.data, phase] at taken holds
      split at taken
      · cases Option.some.inj taken
        exact invariant
      · cases Option.some.inj taken
        exact ⟨holds.entry (invariant.ready replay phase) condition.2,
          fun replay phase => (by cases phase),
          forall_mem_append.mpr ⟨invariant.separable, forall_mem_singleton.mpr condition.1⟩⟩
    | _ => simp [Log.step, phase] at taken
  | endLine =>
    cases phase : log.phase with
    | unterminated replay =>
      simp only [Log.step, Log.data, phase, Option.some.injEq] at taken holds
      subst taken
      exact ⟨holds.newline, fun replay _ => .inr ⟨log.file, rfl⟩, invariant.separable⟩
    | _ => simp [Log.step, phase] at taken

theorem Operation.key_ne_serverUuidOp (operation : Operation) : operation.key ≠ serverUuidOp := by
  intro same
  obtain ⟨rest, restEq⟩ := operation.details_colon
  have longer : operation.kind.op ++ ([Operation.colon] ++ rest) =
      serverUuidOp ++ ([Operation.colon] ++ []) := by
    rw [← restEq, ← append_assoc]
    exact congrArg (· ++ [Operation.colon]) same
  obtain ⟨ops, -⟩ := split_first (free_singleton (Kind.colon_not_mem_op _))
    (free_singleton (by decide)) longer
  have found := Kind.ofOp_op operation.kind
  rw [ops] at found
  exact absurd found (by rw [show Kind.ofOp serverUuidOp = none from by decide]; simp)

variable {operation : Operation}

/-- Entries are kept under the key of an operation if they are about that operation. -/
theorem LogEntry.key_eq_iff {entry : LogEntry}
    (separable : entry.Separable) (separable' : operation.Separable) :
    entry.key = operation.key ↔ entry.operation = some operation := by
  unfold LogEntry.key
  cases about : entry.operation with
  | none =>
    simp only [reduceCtorEq, iff_false]
    exact fun same => operation.key_ne_serverUuidOp same.symm
  | some other =>
    rw [Option.some.injEq]
    exact ⟨fun same => Operation.key_inj (separable other about) separable' same,
      fun same => by rw [same]⟩

def Log.Started (log : Log) (operation : Operation) : Prop :=
  ∃ entry ∈ log.written, entry.2.operation = some operation

def Log.Finished (log : Log) (operation : Operation) : Prop :=
  ∃ entry ∈ log.written, entry.2.operation = some operation ∧ entry.2.done = true

def Log.Separable (log : Log) : Prop :=
  ∀ entry ∈ log.written, entry.2.Separable

theorem Log.Finished.started (finished : log.Finished operation) : log.Started operation := by
  obtain ⟨entry, member, about, -⟩ := finished
  exact ⟨entry, member, about⟩

/-- The statuses after the replay of a log are those that the entries call for. -/
theorem Log.Separable.status (separable : log.Separable) (separable' : operation.Separable)
    {replay : Replay} (replayed : replay = log.written.foldl Replay.recordEntry {}) :
    (replay.status operation = .done ↔ log.Finished operation) ∧
      (replay.status operation = .interrupted ↔ log.Started operation ∧ ¬ log.Finished operation) ∧
        (replay.status operation = .pending ↔ ¬ log.Started operation) := by
  have found := Replay.find_entries log.written operation.key
  have about (entry) (member : entry ∈ log.written) :=
    LogEntry.key_eq_iff (separable entry member) separable'
  have keyIff : (∃ entry ∈ log.written, entry.2.key = operation.key) ↔ log.Started operation :=
    exists_congr fun entry => and_congr_right (about entry)
  have doneIff : (∃ entry ∈ log.written, entry.2.key = operation.key ∧ entry.2.done = true) ↔
      log.Finished operation :=
    exists_congr fun entry => and_congr_right fun member => and_congr_left fun _ =>
      about entry member
  rw [← replayed] at found
  unfold Replay.status
  rw [found]
  by_cases finished : log.Finished operation
  · rw [if_pos (doneIff.mpr finished)]
    simp [finished, finished.started]
  · rw [if_neg (fun written => finished (doneIff.mp written))]
    by_cases started : log.Started operation
    · rw [if_pos (keyIff.mpr started)]
      simp [finished, started]
    · rw [if_neg (fun written => started (keyIff.mp written))]
      simp [finished, started]

end MariadbShell.Load
