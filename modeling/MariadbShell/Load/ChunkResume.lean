import MariadbShell.ImportTable.Retries
import MariadbShell.Load.ProgressLog

/-!
# Resuming the load of a chunk

A chunk of a table is loaded in transactions, with an entry in the log for each one that has
finished. The worker sends its reports to the main thread, which writes the log; a session can
end at any time. A later session that finds the chunk interrupted starts behind the sub-chunks
0, 1, … that have finished, by the sum of their sizes.
-/

namespace MariadbShell.Load

open List
open ImportTable (Bytes Dialect SourceFile TransactionBuffer ascii)
open Lib Replay Log LogEntry Machine

/-! ## Scheduling a chunk -/

/-- A chunk of a table or a partition; the index is `-1` if the table has one data file. -/
structure ChunkId where
  schema : Bytes
  table : Bytes
  partition : Bytes
  index : Int
deriving DecidableEq, Repr

namespace ChunkId

def operation (chunk : ChunkId) : Operation :=
  .tableChunk chunk.schema chunk.table chunk.partition chunk.index

def subchunk (chunk : ChunkId) (number : Nat) : Operation :=
  .tableSubchunk chunk.schema chunk.table chunk.partition chunk.index number

/-- Only the load of the chunk reports the operation. -/
def owns (chunk : ChunkId) : Operation → Bool
  | .tableChunk schema table partition index => chunk = ⟨schema, table, partition, index⟩
  | .tableSubchunk schema table partition index _ => chunk = ⟨schema, table, partition, index⟩
  | _ => false

end ChunkId

structure LoadChunkTask where
  resume : Bool
  bytesToSkip : UInt64
  firstSubchunk : Nat
deriving DecidableEq, Repr

/-- The loop over the sub-chunks that have finished, with the sum of their sizes. -/
def skipSubchunks (replay : Replay) (chunk : ChunkId) : Nat → Nat → UInt64 → Option (Nat × UInt64)
  | 0, _, _ => none
  | fuel + 1, subchunk, bytesToSkip =>
    if replay.status (chunk.subchunk subchunk) = .done then
      match replay.tableSubchunkSize chunk.schema chunk.table chunk.partition chunk.index
          subchunk with
      | none => none
      | some size => skipSubchunks replay chunk fuel (subchunk + 1) (bytesToSkip + size)
    else some (subchunk, bytesToSkip)

/-- `schedule_table_chunk`; there is no task for a chunk that was loaded. -/
def scheduleTableChunk (replay : Replay) (chunk : ChunkId) : Option LoadChunkTask :=
  match replay.status chunk.operation with
  | .done => none
  | .pending => some ⟨false, 0, 0⟩
  | .interrupted =>
    (skipSubchunks replay chunk (replay.lastState.length + 1) 0 0).map fun skipped =>
      ⟨true, skipped.2, skipped.1⟩

/-! ## The worker -/

/-- A row of `SHOW INDEX`. -/
structure IndexRow where
  nonUnique : Int
  null : Bytes
deriving DecidableEq, Repr

def hasPke (indexes : List IndexRow) : Bool :=
  indexes.any fun row => row.nonUnique = 0 ∧ row.null = []

/-- The bytes that `do_load` skips; a table without such a key is truncated instead. -/
def LoadChunkTask.skipBytes (task : LoadChunkTask) (indexes : List IndexRow) : UInt64 :=
  if task.resume = true ∧ hasPke indexes = false then 0 else task.bytesToSkip

/-- What the worker reports; the bytes of a transaction are not part of the report. -/
inductive ChunkEvent where
  | loadStart
  | loadSubchunkStart (subchunk : Nat)
  | loadSubchunkEnd (subchunk : Nat) (bytes : UInt64) (transaction : Bytes)
  | loadEnd (sizes : Sizes)
deriving DecidableEq, Repr

/-- What the main thread logs for a report. -/
def ChunkEvent.entry (chunk : ChunkId) (task : Task) : ChunkEvent → LogEntry
  | .loadStart => .start chunk.operation task 0
  | .loadSubchunkStart subchunk => .start (chunk.subchunk subchunk) task 0
  | .loadSubchunkEnd subchunk bytes _ => .finish (chunk.subchunk subchunk) ⟨0, 0, 0, bytes⟩
  | .loadEnd sizes => .finish chunk.operation sizes

def ChunkEvent.transaction : ChunkEvent → Option Bytes
  | .loadSubchunkEnd _ _ transaction => some transaction
  | _ => none

inductive LoadPhase where
  | loading
  | loaded
  | ended
deriving DecidableEq, Repr

/-- A worker that loads the chunk, and its reports that were not handled yet. -/
structure ChunkAttempt where
  task : LoadChunkTask
  info : ImportTable.FileInfo
  call : Nat
  subchunk : Nat
  phase : LoadPhase
  posted : List ChunkEvent

namespace ChunkAttempt

/-- The beginning of `do_load`. -/
def start (task : LoadChunkTask) (file : SourceFile) (dialect : Dialect) (limit : UInt64)
    (indexes : List IndexRow) : ChunkAttempt where
  task := task
  info :=
    { buffer := TransactionBuffer.create dialect file limit (task.skipBytes indexes).toNat
      rangeRead := false
      bytesLeft := 0 }
  call := 0
  subchunk := task.firstSubchunk
  phase := .loading
  posted := [.loadStart]

/-- The callback for the start of a transaction, which is made for every attempt. -/
def transactionStarted (attempt : ChunkAttempt) : Option ChunkAttempt :=
  if attempt.phase = .loading ∧ attempt.info.buffer.maxTrxSize ≠ 0 then
    some { attempt with posted := attempt.posted ++ [.loadSubchunkStart attempt.subchunk] }
  else none

/-- A statement is committed, and its end is reported if the chunk is split. -/
def transactionFinished (attempt : ChunkAttempt) (sizes : Nat → UInt32) (fuel : Nat)
    (rollbacks : List Nat) : Option ChunkAttempt :=
  if attempt.phase = .loading then
    match ImportTable.FileInfo.attempts sizes fuel 0 rollbacks {}
        { attempt.info with buffer := attempt.info.buffer.markRetryPoint } attempt.call with
    | none => none
    | some (transaction, next, nextCall) =>
      let attempt : ChunkAttempt :=
        { attempt with
          info := { next with buffer := next.buffer.flushDone.2 }
          call := nextCall
          phase := if next.buffer.flushDone.1 then .loading else .loaded }
      if next.buffer.maxTrxSize ≠ 0 then
        some
          { attempt with
            subchunk := attempt.subchunk + 1
            posted := attempt.posted ++
              [.loadSubchunkEnd attempt.subchunk (UInt64.ofNat next.buffer.trxSize) transaction] }
      else some attempt
  else none

def loadEnd (attempt : ChunkAttempt) (sizes : Sizes) : Option ChunkAttempt :=
  if attempt.phase = .loaded then
    some { attempt with phase := .ended, posted := attempt.posted ++ [.loadEnd sizes] }
  else none

end ChunkAttempt

/-! ## Sessions -/

/--
The log, the worker that loads the chunk in the current session, and the transactions of
all sessions whose ends are in the log.
-/
structure ChunkLoad where
  log : Log := {}
  attempt : Option ChunkAttempt := none
  loaded : List Bytes := []

inductive ChunkLoadEvent where
  /-- something that is not about the chunk happens to the log -/
  | log (event : LogEvent)
  | schedule (file : SourceFile) (dialect : Dialect) (limit : UInt64) (indexes : List IndexRow)
  | transactionStarted
  | transactionFinished (sizes : Nat → UInt32) (fuel : Nat) (rollbacks : List Nat)
  | loadEnd (sizes : Sizes)
  /-- the main thread handles a report -/
  | handle (timestamp : Int) (task : Task)

def LogEntry.concerns (chunk : ChunkId) (entry : LogEntry) : Bool :=
  match entry.operation with
  | none => false
  | some operation => chunk.owns operation

/-- The event writes an entry about the chunk. -/
def LogEvent.concerns (chunk : ChunkId) : LogEvent → Bool
  | .log _ entry => entry.concerns chunk
  | _ => false

def LogEvent.opens : LogEvent → Bool
  | .openLog => true
  | _ => false

namespace ChunkLoad

def work (state : ChunkLoad) (action : ChunkAttempt → Option ChunkAttempt) : Option ChunkLoad :=
  match state.attempt with
  | none => none
  | some attempt => (action attempt).map fun next => { state with attempt := some next }

def handle (chunk : ChunkId) (state : ChunkLoad) (timestamp : Int) (task : Task) :
    Option ChunkLoad :=
  match state.attempt with
  | none => none
  | some attempt =>
    match attempt.posted with
    | [] => none
    | event :: later =>
      (state.log.step (.log timestamp (event.entry chunk task))).map fun log =>
        { log
          attempt := some { attempt with posted := later }
          loaded :=
            if log.written.length = state.log.written.length then state.loaded
            else state.loaded ++ event.transaction.toList }

def step (chunk : ChunkId) (state : ChunkLoad) : ChunkLoadEvent → Option ChunkLoad
  | .log event =>
    if event.concerns chunk then none
    else
      (state.log.step event).map fun log =>
        { state with log, attempt := if event.opens then none else state.attempt }
  | .schedule file dialect limit indexes =>
    match state.attempt, state.log.phase with
    | none, .ready replay =>
      (scheduleTableChunk replay chunk).map fun task =>
        { state with attempt := some (ChunkAttempt.start task file dialect limit indexes) }
    | _, _ => none
  | .transactionStarted => state.work ChunkAttempt.transactionStarted
  | .transactionFinished sizes fuel rollbacks =>
    state.work fun attempt => attempt.transactionFinished sizes fuel rollbacks
  | .loadEnd sizes => state.work fun attempt => attempt.loadEnd sizes
  | .handle timestamp task => state.handle chunk timestamp task

end ChunkLoad

/-- The sub-chunks of the chunk with an end entry, and the sizes in these entries. -/
def ChunkId.finished (chunk : ChunkId) (written : List (Int × LogEntry)) : List (Nat × UInt64) :=
  written.filterMap fun entry =>
    match entry.2 with
    | .finish (.tableSubchunk schema table partition index subchunk) sizes =>
      if chunk = ⟨schema, table, partition, index⟩ then some (subchunk, sizes.transactionBytes)
      else none
    | _ => none

/--
Every session reads the data file of the chunk, which does not fail, and finds a primary
key or an equivalent; the log is used as `LogCondition` says, and the numbers in the entries
about the chunk fit into 64 bits.
-/
def ChunkLoad.Condition (chunk : ChunkId) (bytes : Bytes) (state : ChunkLoad) :
    ChunkLoadEvent → Prop
  | .log event => LogCondition state.log event
  | .schedule file _ _ indexes =>
    file.bytes = bytes ∧ file.offset = 0 ∧ file.Healthy ∧ hasPke indexes = true
  | .handle timestamp task => ∀ attempt ∈ state.attempt, ∀ event ∈ attempt.posted.head?,
      (event.entry chunk task).Fits timestamp
  | _ => True

/-! ## Steps of the log -/

def Phase.replay : Phase → Option Replay
  | .closed => none
  | .opened replay _ | .copied replay | .ready replay | .unterminated replay => some replay

variable {log next : Log}

/-- A session knows the log as it was at its start; it only adds entries. -/
theorem Log.step_extends {event : LogEvent} (notOpened : event.opens = false)
    (taken : log.step event = some next) :
    next.phase.replay = log.phase.replay ∧
      ∃ added, next.written = log.written ++ added ∧
        ∀ entry ∈ added, event = .log entry.1 entry.2 := by
  cases event with
  | openLog => cases notOpened
  | copyData | writeSeparator | endLine =>
    -- only one of the phases lets the event happen
    cases phase : log.phase <;> simp only [step, phase, reduceCtorEq, Option.some.injEq] at taken
    subst taken
    exact ⟨rfl, [], (append_nil _).symm, by simp⟩
  | log timestamp entry =>
    cases phase : log.phase with
    | ready replay =>
      simp only [step, phase] at taken
      split at taken
      · cases taken
        exact ⟨by rw [phase], [], (append_nil _).symm, by simp⟩
      · cases taken
        exact ⟨rfl, [(timestamp, entry)], rfl, by simp⟩
    | _ => simp [step, phase] at taken

/-- An entry is written unless the session has found its operation done. -/
theorem Log.step_log {timestamp : Int} {entry : LogEntry}
    (taken : log.step (.log timestamp entry) = some next) :
    ∃ replay, log.phase.replay = some replay ∧
      (replay.skips entry = true ∧ next = log ∨
        replay.skips entry = false ∧ next.written = log.written ++ [(timestamp, entry)]) := by
  cases phase : log.phase with
  | ready replay =>
    simp only [step, phase] at taken
    split at taken
    · next skipped =>
      cases taken
      exact ⟨replay, rfl, .inl ⟨skipped, rfl⟩⟩
    · next written =>
      cases taken
      exact ⟨replay, rfl, .inr ⟨Bool.not_eq_true _ ▸ written, rfl⟩⟩
  | _ => simp [step, phase] at taken

/-- A new session finds all the entries that were ever written. -/
theorem Log.Invariant.openLog (invariant : log.Invariant)
    (notOpened : log.phase.isOpened = false) (taken : log.step .openLog = some next) :
    next.written = log.written ∧
      next.phase.replay = some (log.written.foldl recordEntry {}) := by
  have holds := invariant.holds
  rw [data_eq_file notOpened] at holds
  simp only [step, holds.replay, Option.map_some, Option.some.injEq] at taken
  subst taken
  refine ⟨rfl, ?_⟩
  split <;> rfl

/-! ## Finished sub-chunks -/

namespace ChunkId

theorem finished_append (chunk : ChunkId) (written added : List (Int × LogEntry)) :
    chunk.finished (written ++ added) = chunk.finished written ++ chunk.finished added :=
  filterMap_append

variable {written : List (Int × LogEntry)}

theorem mem_finished {chunk : ChunkId} {subchunk : Nat} {size : UInt64} :
    (subchunk, size) ∈ chunk.finished written ↔
      ∃ timestamp sizes, (timestamp, .finish (chunk.subchunk subchunk) sizes) ∈ written ∧
        sizes.transactionBytes = size := by
  unfold finished
  rw [mem_filterMap]
  constructor
  · rintro ⟨⟨timestamp, entry⟩, member, found⟩
    dsimp only at found
    split at found
    · next schema table partition index number sizes =>
      split at found
      · next same =>
        cases found
        subst same
        exact ⟨timestamp, sizes, member, rfl⟩
      · cases found
    · cases found
  · rintro ⟨timestamp, sizes, member, rfl⟩
    exact ⟨_, member, if_pos rfl⟩

/-- Entries that are not about the chunk do not end its sub-chunks. -/
theorem finished_eq_nil {chunk : ChunkId}
    (foreign : ∀ entry ∈ written, entry.2.concerns chunk = false) :
    chunk.finished written = [] := by
  rw [eq_nil_iff_forall_not_mem]
  rintro ⟨subchunk, size⟩ member
  obtain ⟨timestamp, sizes, written, -⟩ := mem_finished.mp member
  have concerned : chunk.owns (chunk.subchunk subchunk) = true := by simp [owns, ChunkId.subchunk]
  have unconcerned : chunk.owns (chunk.subchunk subchunk) = false := foreign _ written
  rw [concerned] at unconcerned
  cases unconcerned

/-- The replay has a state for every sub-chunk that has finished. -/
theorem length_finished_le (chunk : ChunkId) (written : List (Int × LogEntry)) :
    (chunk.finished written).length ≤ (written.foldl recordEntry {}).lastState.length := by
  induction written using List.reverseRecOn with
  | nil => exact Nat.le_refl _
  | append_singleton written entry ih =>
    rw [finished_append, length_append, foldl_append, foldl_cons, foldl_nil]
    generalize written.foldl recordEntry {} = replay at ih
    cases done : entry.2.done with
    | true =>
      have atMostOne : (chunk.finished [entry]).length ≤ 1 := length_filterMap_le _ _
      have grown : (replay.recordEntry entry).lastState.length = replay.lastState.length + 1 := by
        simp [recordEntry, record, done]
      omega
    | false =>
      have none : chunk.finished [entry] = [] := by
        rw [eq_nil_iff_forall_not_mem]
        rintro ⟨subchunk, size⟩ member
        obtain ⟨timestamp, sizes, last, -⟩ := mem_finished.mp member
        rw [← mem_singleton.mp last] at done
        cases done
      have kept : replay.lastState.length ≤ (replay.recordEntry entry).lastState.length := by
        simp only [recordEntry, record, done, Bool.false_eq_true, if_false]
        split
        · exact Nat.le_refl _
        · exact Nat.le_succ _
      rw [none, length_nil]
      omega

end ChunkId

/-- Transactions with their numbers and their sizes. -/
def numbered (transactions : List Bytes) : List (Nat × UInt64) :=
  transactions.zipIdx.map fun (transaction, number) => (number, UInt64.ofNat transaction.length)

theorem numbered_concat (transactions : List Bytes) (transaction : Bytes) :
    numbered (transactions ++ [transaction]) =
      numbered transactions ++ [(transactions.length, UInt64.ofNat transaction.length)] := by
  simp [numbered, zipIdx_append]

theorem numbered_numbers (transactions : List Bytes) :
    (numbered transactions).map Prod.fst = List.range transactions.length := by
  rw [numbered, map_map, range_eq_range']
  exact zipIdx_map_snd 0 transactions

theorem mem_numbered {number : Nat} {size : UInt64} {transactions : List Bytes}
    (member : (number, size) ∈ numbered transactions) :
    ∃ transaction, transactions[number]? = some transaction ∧
      size = UInt64.ofNat transaction.length := by
  obtain ⟨⟨transaction, _⟩, listed, same⟩ := mem_map.mp member
  cases same
  exact ⟨transaction, mk_mem_zipIdx_iff_getElem?.mp listed, rfl⟩

/-! ## What a session schedules -/

/-- The entry that ends a sub-chunk is read back with its size. -/
theorem getUint_transactionBytes (chunk : ChunkId) (subchunk : Nat) (sizes : Sizes)
    (timestamp : Int) :
    ((finish (chunk.subchunk subchunk) sizes).dictionary timestamp).getUint
      .transactionBytes = some sizes.transactionBytes := by
  unfold Dictionary.getUint
  rw [dictionary_extraField timestamp _ (by decide)]
  simp [extraFields, endFields, ChunkId.subchunk, Operation.kind]

/-- An end entry for an operation. -/
theorem LogEntry.eq_finish {entry : LogEntry} {operation : Operation}
    (about : entry.operation = some operation) (done : entry.done = true) :
    ∃ sizes, entry = .finish operation sizes := by
  cases entry with
  | start => cases done
  | update => cases done
  | finish other sizes =>
    cases about
    exact ⟨sizes, rfl⟩
  | setServerUuid => cases about

theorem Operation.Separable.subchunk {chunk : ChunkId} (separable : chunk.operation.Separable)
    (number : Nat) : (chunk.subchunk number).Separable :=
  separable

section Found

variable {chunk : ChunkId} {early : List (Int × LogEntry)} {loaded : List Bytes}

/-- The log that a session has found knows these transactions of the chunk. -/
structure Recorded (chunk : ChunkId) (early : List (Int × LogEntry)) (loaded : List Bytes) :
    Prop where
  separable : Log.Separable { written := early }
  chunkSeparable : chunk.operation.Separable
  finished_eq : chunk.finished early = numbered loaded

section

variable (recorded : Recorded chunk early loaded)

include recorded

theorem Recorded.status_done (number : Nat) :
    (early.foldl recordEntry {}).status (chunk.subchunk number) = .done ↔
      number < loaded.length := by
  have status := (recorded.separable.status (recorded.chunkSeparable.subchunk number) rfl).1
  have listed : (∃ size, (number, size) ∈ chunk.finished early) ↔ number < loaded.length := by
    have numbers : number ∈ (numbered loaded).map Prod.fst ↔ number < loaded.length := by
      rw [numbered_numbers, mem_range]
    rw [← numbers, recorded.finished_eq, mem_map]
    exact ⟨fun ⟨size, member⟩ => ⟨_, member, rfl⟩, fun ⟨⟨_, size⟩, member, same⟩ =>
      ⟨size, same ▸ member⟩⟩
  rw [← listed]
  refine status.trans ⟨?_, ?_⟩
  · rintro ⟨⟨timestamp, entry⟩, member, about, done⟩
    obtain ⟨sizes, rfl⟩ := eq_finish about done
    exact ⟨_, ChunkId.mem_finished.mpr ⟨timestamp, sizes, member, rfl⟩⟩
  · rintro ⟨size, member⟩
    obtain ⟨timestamp, sizes, written, -⟩ := ChunkId.mem_finished.mp member
    exact ⟨_, written, rfl, rfl⟩

theorem Recorded.tableSubchunkSize {number : Nat} {transaction : Bytes}
    (listed : loaded[number]? = some transaction) :
    (early.foldl recordEntry {}).tableSubchunkSize chunk.schema chunk.table chunk.partition
      chunk.index number = some (UInt64.ofNat transaction.length) := by
  have within : number < loaded.length := (List.getElem?_eq_some_iff.mp listed).1
  have done := (recorded.status_done number).mpr within
  unfold status at done
  cases found : find (early.foldl recordEntry {}) (chunk.subchunk number).key with
  | none => simp [found] at done
  | some details =>
    rw [found] at done
    obtain ⟨⟨timestamp, entry⟩, member, sameKey, dictionary, isDone⟩ := find_details found
    have about : entry.operation = some (chunk.subchunk number) :=
      (key_eq_iff (recorded.separable _ member) (recorded.chunkSeparable.subchunk number)).mp
        sameKey
    obtain ⟨sizes, rfl⟩ := eq_finish about (isDone done)
    have inList : (number, sizes.transactionBytes) ∈ numbered loaded := by
      rw [← recorded.finished_eq]
      exact ChunkId.mem_finished.mpr ⟨timestamp, sizes, member, rfl⟩
    obtain ⟨other, sameListed, size⟩ := mem_numbered inList
    rw [listed] at sameListed
    cases sameListed
    rw [ChunkId.subchunk] at found
    simp only [Replay.tableSubchunkSize, found, dictionary, getUint_transactionBytes, size]

/-- The loop goes up to the first sub-chunk that has not finished. -/
theorem Recorded.skipSubchunks {fuel number : Nat} (within : number ≤ loaded.length)
    (enough : loaded.length - number < fuel) (bytesToSkip : UInt64) :
    Load.skipSubchunks (early.foldl recordEntry {}) chunk fuel number bytesToSkip =
      some (loaded.length, bytesToSkip + UInt64.ofNat (loaded.drop number).flatten.length) := by
  induction fuel generalizing number bytesToSkip with
  | zero => omega
  | succ fuel ih =>
    unfold Load.skipSubchunks
    by_cases less : number < loaded.length
    · have listed := getElem?_eq_getElem less
      rw [if_pos ((recorded.status_done number).mpr less), recorded.tableSubchunkSize listed,
        drop_eq_getElem_cons less]
      dsimp only
      rw [ih less (by omega), flatten_cons, length_append, UInt64.ofNat_add, UInt64.add_assoc]
    · have reached : number = loaded.length := by omega
      rw [if_neg (fun done => less ((recorded.status_done number).mp done)), reached, drop_length]
      simp

/-- The task starts behind the transactions that are in the log. -/
theorem Recorded.scheduleTableChunk
    (started : loaded ≠ [] → ∃ entry ∈ early, entry.2.operation = some chunk.operation)
    (notDone : (early.foldl recordEntry {}).status chunk.operation ≠ .done) :
    ∃ resume, Load.scheduleTableChunk (early.foldl recordEntry {}) chunk =
      some ⟨resume, UInt64.ofNat loaded.flatten.length, loaded.length⟩ := by
  unfold Load.scheduleTableChunk
  have pending := (recorded.separable.status recorded.chunkSeparable rfl).2.2
  cases status : (early.foldl recordEntry {}).status chunk.operation with
  | done => exact absurd status notDone
  | pending =>
    have empty : loaded = [] := by
      by_contra nonempty
      exact pending.mp status (started nonempty)
    refine ⟨false, ?_⟩
    rw [empty]
    rfl
  | interrupted =>
    have enough : loaded.length ≤ (early.foldl recordEntry {}).lastState.length := by
      have length := congrArg List.length (numbered_numbers loaded)
      rw [length_map, length_range, ← recorded.finished_eq] at length
      rw [← length]
      exact chunk.length_finished_le early
    rw [recorded.skipSubchunks (Nat.zero_le _) (by omega)]
    simp

end

end Found

/-! ## Every run -/

/-- The reports on the ends of transactions, from a number on. -/
def endReports : Nat → List Bytes → List ChunkEvent
  | _, [] => []
  | first, transaction :: later =>
    .loadSubchunkEnd first (UInt64.ofNat transaction.length) transaction ::
      endReports (first + 1) later

theorem endReports_concat (first : Nat) (transactions : List Bytes) (transaction : Bytes) :
    endReports first (transactions ++ [transaction]) =
      endReports first transactions ++
        [.loadSubchunkEnd (first + transactions.length) (UInt64.ofNat transaction.length)
          transaction] := by
  induction transactions generalizing first with
  | nil => rfl
  | cons other transactions ih =>
    rw [cons_append, endReports, ih, endReports, cons_append, length_cons,
      Nat.add_assoc, Nat.add_comm 1]

variable {added : List (Int × LogEntry)}

theorem Log.Started.extend {operation : Operation} (started : log.Started operation)
    (written : next.written = log.written ++ added) : next.Started operation := by
  obtain ⟨entry, member, about⟩ := started
  exact ⟨entry, written ▸ mem_append_left _ member, about⟩

/-- A worker that has sent these transactions, with reports that were not handled yet. -/
structure ChunkAttempt.Sent (chunk : ChunkId) (bytes : Bytes) (log : Log) (loaded : List Bytes)
    (attempt : ChunkAttempt) (pending : List Bytes) : Prop where
  reports : attempt.posted.filter (fun event => event.transaction.isSome) =
    endReports loaded.length pending
  subchunk_eq : attempt.subchunk = loaded.length + pending.length
  taken : (loaded ++ pending).flatten <+: bytes
  conserved : attempt.phase = .loading →
    (loaded ++ pending).flatten ++ attempt.info.buffer.unsent = bytes
  untouched : attempt.phase = .loading → attempt.info.Untouched
  started : log.Started chunk.operation ∨ attempt.posted.head? = some .loadStart

/--
The sub-chunks in the log are the first transactions of the chunk. The session has found those
of them that the log had when the worker was started.
-/
structure ChunkLoad.Invariant (chunk : ChunkId) (bytes : Bytes) (state : ChunkLoad) :
    Prop where
  log : state.log.Invariant
  finished_eq : chunk.finished state.log.written = numbered state.loaded
  taken : state.loaded.flatten <+: bytes
  started : state.loaded ≠ [] → state.log.Started chunk.operation
  session : ∀ replay, state.log.phase.replay = some replay →
    ∃ early later, state.log.written = early ++ later ∧
      replay = early.foldl recordEntry {} ∧
      (state.attempt = none → ∀ entry ∈ later, entry.2.concerns chunk = false) ∧
      (state.attempt ≠ none → replay.status chunk.operation ≠ .done)
  sent : ∀ attempt, state.attempt = some attempt →
    ∃ pending, attempt.Sent chunk bytes state.log state.loaded pending

namespace ChunkAttempt

variable {chunk : ChunkId} {bytes : Bytes} {log : Log} {loaded pending : List Bytes}
  {attempt next : ChunkAttempt}

/-- The worker starts behind the transactions that are in the log. -/
theorem sent_start {file : SourceFile} {indexes : List IndexRow} (same : file.bytes = bytes)
    (fresh : file.offset = 0) (healthy : file.Healthy) (pke : hasPke indexes = true)
    (taken : loaded.flatten <+: bytes) (resume : Bool) (dialect : Dialect) (limit : UInt64) :
    (start ⟨resume, UInt64.ofNat loaded.flatten.length, loaded.length⟩ file dialect limit
      indexes).Sent chunk bytes log loaded [] := by
  have fits := file.fits
  have shorter := taken.length_le
  rw [same] at fits
  have skipped : (LoadChunkTask.skipBytes
      ⟨resume, UInt64.ofNat loaded.flatten.length, loaded.length⟩ indexes).toNat =
        loaded.flatten.length := by
    rw [LoadChunkTask.skipBytes, if_neg (by simp [pke])]
    exact UInt64.toNat_ofNat_of_lt' (by unfold UInt64.size; omega)
  have unsent : (TransactionBuffer.create dialect file limit loaded.flatten.length).unsent =
      bytes.drop loaded.flatten.length := by
    rw [← same]
    exact SourceFile.skip_rest fresh healthy _
  refine ⟨rfl, rfl, ?_, fun _ => ?_, fun _ => ?_, .inr rfl⟩
  · rw [append_nil]
    exact taken
  · obtain ⟨rest, rfl⟩ := taken
    rw [append_nil]
    unfold start
    rw [skipped, unsent, drop_left]
  · exact ⟨rfl, fun _ => rfl, ⟨Nat.zero_le _, rfl⟩, rfl⟩

section

variable (sent : attempt.Sent chunk bytes log loaded pending)

include sent

/-- The first of the reports stays the first one. -/
theorem Sent.started_append (events : List ChunkEvent) :
    log.Started chunk.operation ∨ (attempt.posted ++ events).head? = some .loadStart :=
  sent.started.imp_right fun first => by
    rw [head?_append, first]
    rfl

/-- A report that is not about the end of a transaction. -/
theorem Sent.reports_append {event : ChunkEvent} (other : event.transaction = none) :
    (attempt.posted ++ [event]).filter (fun event => event.transaction.isSome) =
      endReports loaded.length pending := by
  rw [filter_append, sent.reports, filter_singleton, other]
  exact append_nil _

theorem Sent.transactionStarted (result : attempt.transactionStarted = some next) :
    next.Sent chunk bytes log loaded pending := by
  unfold ChunkAttempt.transactionStarted at result
  split at result
  · cases result
    exact ⟨sent.reports_append rfl, sent.subchunk_eq, sent.taken, sent.conserved,
      sent.untouched, sent.started_append _⟩
  · cases result

theorem Sent.loadEnd {sizes : Sizes} (result : attempt.loadEnd sizes = some next) :
    next.Sent chunk bytes log loaded pending := by
  unfold ChunkAttempt.loadEnd at result
  split at result
  · cases result
    exact ⟨sent.reports_append rfl, sent.subchunk_eq, sent.taken, nofun, nofun,
      sent.started_append _⟩
  · cases result

/-- A transaction takes the next bytes of the file, and gets the next number. -/
theorem Sent.transactionFinished {sizes : Nat → UInt32} {fuel : Nat} {rollbacks : List Nat}
    (result : attempt.transactionFinished sizes fuel rollbacks = some next) :
    ∃ pending, next.Sent chunk bytes log loaded pending := by
  unfold ChunkAttempt.transactionFinished at result
  split at result
  · next loading =>
    obtain ⟨marked, place, sameUnsent⟩ := (sent.untouched loading).mark
    split at result
    · cases result
    · next transaction after nextCall committed =>
      obtain ⟨split, size, untouched⟩ := marked.attempts place committed
      rw [sameUnsent] at split
      have conserved : (loaded ++ (pending ++ [transaction])).flatten ++
          after.buffer.flushDone.2.unsent = bytes := by
        have before := sent.conserved loading
        rw [← split] at before
        rw [← append_assoc, flatten_append, flatten_singleton, append_assoc]
        exact before
      by_cases limited : after.buffer.maxTrxSize ≠ 0
      · rw [if_pos limited] at result
        cases result
        refine ⟨pending ++ [transaction], ⟨?_, ?_, ⟨_, conserved⟩, fun _ => conserved,
          fun _ => untouched, sent.started_append _⟩⟩
        · rw [filter_append, sent.reports, endReports_concat, sent.subchunk_eq, size limited]
          rfl
        · rw [length_append, ← Nat.add_assoc, ← sent.subchunk_eq]
          rfl
      · -- a file that is not split has one transaction
        have ended : after.buffer.flushDone.1 = false := by
          simp [TransactionBuffer.flushDone, not_not.mp limited]
        rw [if_neg limited] at result
        cases result
        refine ⟨pending, ⟨sent.reports, sent.subchunk_eq, sent.taken, fun phase => ?_,
          fun phase => ?_, sent.started⟩⟩
        · simp [ended] at phase
        · simp [ended] at phase
  · cases result

end

end ChunkAttempt

namespace ChunkLoad

variable {chunk : ChunkId} {bytes : Bytes} {state : ChunkLoad}

section

variable (invariant : state.Invariant chunk bytes)

include invariant

variable {replay : Replay}

/-- What the session knows of the chunk is what the log has, until the worker is started. -/
theorem Invariant.recorded (separable : chunk.operation.Separable) (idle : state.attempt = none)
    (found : state.log.phase.replay = some replay) :
    ∃ early, replay = early.foldl recordEntry {} ∧ Recorded chunk early state.loaded ∧
      (state.loaded ≠ [] → ∃ entry ∈ early, entry.2.operation = some chunk.operation) := by
  obtain ⟨early, later, written, replayed, foreign, -⟩ := invariant.session replay found
  have foreign := foreign idle
  refine ⟨early, replayed, ⟨?_, separable, ?_⟩, fun nonempty => ?_⟩
  · intro entry member
    exact invariant.log.separable entry (written ▸ mem_append_left _ member)
  · have finished := invariant.finished_eq
    rw [written, ChunkId.finished_append, ChunkId.finished_eq_nil foreign, append_nil]
      at finished
    exact finished
  · obtain ⟨entry, member, about⟩ := invariant.started nonempty
    rw [written] at member
    rcases mem_append.mp member with before | after
    · exact ⟨entry, before, about⟩
    · have unconcerned := foreign entry after
      simp [concerns, about, ChunkId.owns, ChunkId.operation] at unconcerned

/-- The task of a chunk starts behind the transactions that are in the log. -/
theorem Invariant.scheduleTableChunk (separable : chunk.operation.Separable)
    (idle : state.attempt = none) (found : state.log.phase.replay = some replay)
    (notDone : replay.status chunk.operation ≠ .done) :
    ∃ resume, Load.scheduleTableChunk replay chunk =
      some ⟨resume, UInt64.ofNat state.loaded.flatten.length, state.loaded.length⟩ := by
  obtain ⟨early, replayed, recorded, started⟩ := invariant.recorded separable idle found
  rw [replayed] at notDone ⊢
  exact recorded.scheduleTableChunk started notDone

/-- What happens to the log besides the load of the chunk. -/
theorem Invariant.log_step {event : LogEvent} (foreign : event.concerns chunk = false)
    (condition : LogCondition state.log event) {log : Log}
    (taken : state.log.step event = some log) :
    ({ state with log, attempt := if event.opens then none else state.attempt } :
      ChunkLoad).Invariant chunk bytes := by
  have logInvariant := state.log.step_invariant event log invariant.log condition taken
  cases opens : event.opens with
  | true =>
    cases event with
    | openLog =>
      obtain ⟨sameWritten, replayed⟩ := invariant.log.openLog condition taken
      refine ⟨logInvariant, ?_, invariant.taken, fun nonempty => ?_, fun replay found => ?_,
        fun attempt current => (by cases current)⟩
      · rw [← invariant.finished_eq, ← sameWritten]
      · obtain ⟨entry, member, about⟩ := invariant.started nonempty
        exact ⟨entry, sameWritten ▸ member, about⟩
      · rw [replayed] at found
        cases found
        refine ⟨state.log.written, [], ?_, rfl, by simp, by simp⟩
        rw [append_nil]
        exact sameWritten
    | _ => cases opens
  | false =>
    obtain ⟨sameReplay, added, written, logged⟩ := step_extends opens taken
    have addedForeign : ∀ entry ∈ added, entry.2.concerns chunk = false := by
      intro entry member
      rw [logged entry member] at foreign
      exact foreign
    refine ⟨logInvariant, ?_, invariant.taken,
      fun nonempty => (invariant.started nonempty).extend written, fun replay found => ?_,
      fun attempt current => ?_⟩
    · rw [written, ChunkId.finished_append, ChunkId.finished_eq_nil addedForeign, append_nil]
      exact invariant.finished_eq
    · rw [sameReplay] at found
      obtain ⟨early, later, before, replayed, idle, busy⟩ := invariant.session replay found
      refine ⟨early, later ++ added, ?_, replayed, fun none entry member => ?_, busy⟩
      · rw [written, before, append_assoc]
      · rcases mem_append.mp member with earlier | last
        · exact idle none entry earlier
        · exact addedForeign entry last
    · obtain ⟨pending, sent⟩ := invariant.sent attempt current
      exact ⟨pending, sent.reports, sent.subchunk_eq, sent.taken, sent.conserved, sent.untouched,
        sent.started.imp_left fun started => started.extend written⟩

/-- The worker is started. -/
theorem Invariant.schedule (found : state.log.phase.replay = some replay)
    (notDone : replay.status chunk.operation ≠ .done) {attempt : ChunkAttempt}
    (sent : attempt.Sent chunk bytes state.log state.loaded []) :
    { state with attempt := some attempt }.Invariant chunk bytes := by
  refine ⟨invariant.log, invariant.finished_eq, invariant.taken, invariant.started,
    fun other found' => ?_, fun other current => ?_⟩
  · rw [found] at found'
    cases found'
    obtain ⟨early, later, written, replayed, -, -⟩ := invariant.session replay found
    exact ⟨early, later, written, replayed, nofun, fun _ => notDone⟩
  · cases current
    exact ⟨[], sent⟩

/-- The worker or the main thread goes on with the load. -/
theorem Invariant.proceed {attempt next : ChunkAttempt} (current : state.attempt = some attempt)
    {log : Log} {loaded pending : List Bytes} (logInvariant : log.Invariant)
    (sameReplay : log.phase.replay = state.log.phase.replay)
    (extended : log.written = state.log.written ++ added)
    (finished_eq : chunk.finished log.written = numbered loaded)
    (started : loaded ≠ [] → log.Started chunk.operation)
    (sent : next.Sent chunk bytes log loaded pending) :
    (⟨log, some next, loaded⟩ : ChunkLoad).Invariant chunk bytes := by
  refine ⟨logInvariant, finished_eq, ?_, started, fun replay found => ?_, fun other same => ?_⟩
  · have taken := sent.taken
    rw [flatten_append] at taken
    exact (prefix_append _ _).trans taken
  · rw [sameReplay] at found
    obtain ⟨early, later, written, replayed, -, busy⟩ := invariant.session replay found
    refine ⟨early, later ++ added, ?_, replayed, nofun, fun _ => ?_⟩
    · rw [extended, written, append_assoc]
    · exact busy (by rw [current]; exact Option.some_ne_none _)
  · cases same
    exact ⟨pending, sent⟩

/-- The worker does something. -/
theorem Invariant.work {action : ChunkAttempt → Option ChunkAttempt}
    (kept : ∀ attempt next pending, attempt.Sent chunk bytes state.log state.loaded pending →
      action attempt = some next → ∃ pending, next.Sent chunk bytes state.log state.loaded pending)
    {next : ChunkLoad} (taken : state.work action = some next) :
    next.Invariant chunk bytes := by
  unfold ChunkLoad.work at taken
  cases current : state.attempt with
  | none =>
    rw [current] at taken
    cases taken
  | some attempt =>
    rw [current] at taken
    obtain ⟨after, done, rfl⟩ := Option.map_eq_some_iff.mp taken
    obtain ⟨pending, sent⟩ := invariant.sent attempt current
    obtain ⟨pending, sent⟩ := kept attempt after pending sent done
    exact invariant.proceed current invariant.log rfl (append_nil _).symm
      invariant.finished_eq invariant.started sent

/-- The log does not know the next transaction of the worker. -/
theorem Invariant.not_skips_end (separable : chunk.operation.Separable)
    (found : state.log.phase.replay = some replay) (sizes : Sizes) :
    replay.skips (.finish (chunk.subchunk state.loaded.length) sizes) = false := by
  obtain ⟨early, later, written, rfl, -, -⟩ := invariant.session replay found
  have earlySeparable : Log.Separable { written := early } := by
    intro entry member
    exact invariant.log.separable entry (written ▸ mem_append_left _ member)
  have status := (earlySeparable.status (separable.subchunk state.loaded.length) rfl).1
  simp only [skips, operation, decide_eq_false_iff_not]
  intro done
  obtain ⟨⟨timestamp, entry⟩, member, about, ended⟩ := status.mp done
  obtain ⟨found', rfl⟩ := eq_finish about ended
  have listed : (state.loaded.length, found'.transactionBytes) ∈ numbered state.loaded := by
    rw [← invariant.finished_eq, written]
    exact ChunkId.mem_finished.mpr ⟨timestamp, found', mem_append_left _ member, rfl⟩
  have bounds := mem_map_of_mem (f := Prod.fst) listed
  rw [numbered_numbers, mem_range] at bounds
  exact Nat.lt_irrefl _ bounds

/-- The start of the load is logged. -/
theorem Invariant.not_skips_start (busy : state.attempt ≠ none)
    (found : state.log.phase.replay = some replay) (task : Task) :
    replay.skips (.start chunk.operation task 0) = false := by
  obtain ⟨early, later, -, -, -, notDone⟩ := invariant.session replay found
  simp only [skips, operation, decide_eq_false_iff_not]
  exact notDone busy

/-- The main thread handles a report. -/
theorem Invariant.handle (separable : chunk.operation.Separable) {timestamp : Int} {task : Task}
    (fits : Condition chunk bytes state (.handle timestamp task)) {next : ChunkLoad}
    (taken : state.handle chunk timestamp task = some next) : next.Invariant chunk bytes := by
  unfold ChunkLoad.handle at taken
  cases current : state.attempt with
  | none =>
    rw [current] at taken
    cases taken
  | some attempt =>
    simp only [current] at taken
    cases posted : attempt.posted with
    | nil =>
      rw [posted] at taken
      cases taken
    | cons event later =>
      simp only [posted] at taken
      obtain ⟨log, logged, rfl⟩ := Option.map_eq_some_iff.mp taken
      obtain ⟨pending, sent⟩ := invariant.sent attempt current
      have busy : state.attempt ≠ none := by
        rw [current]
        exact Option.some_ne_none _
      have condition : LogCondition state.log (.log timestamp (event.entry chunk task)) := by
        refine ⟨?_, fits attempt current event (by rw [posted]; rfl)⟩
        cases event <;> rintro operation ⟨⟩ <;> exact separable
      have logInvariant := state.log.step_invariant _ log invariant.log condition logged
      obtain ⟨sameReplay, added, extended, -⟩ := step_extends rfl logged
      obtain ⟨replay, found, outcome⟩ := step_log logged
      have reports := sent.reports
      rw [posted, filter_cons] at reports
      have startedNow : log.Started chunk.operation := by
        rcases sent.started with started | first
        · exact started.extend extended
        · rw [posted, head?_cons, Option.some.injEq] at first
          subst first
          rcases outcome with ⟨skipped, -⟩ | ⟨-, written⟩
          · rw [ChunkEvent.entry, invariant.not_skips_start busy found] at skipped
            cases skipped
          · exact ⟨_, written ▸ mem_append_right _ mem_cons_self, rfl⟩
      cases event with
      | loadSubchunkEnd subchunk size transaction =>
        cases pending with
        | nil => cases reports
        | cons first pending =>
          obtain ⟨head, tail⟩ := List.cons.inj reports
          cases head
          rcases outcome with ⟨skipped, -⟩ | ⟨-, written⟩
          · rw [ChunkEvent.entry, invariant.not_skips_end separable found] at skipped
            cases skipped
          · have grown : log.written.length ≠ state.log.written.length := by
              rw [written, length_append]
              exact Nat.succ_ne_self _
            have moved : state.loaded ++ [transaction] ++ pending =
                state.loaded ++ transaction :: pending :=
              append_assoc _ _ _
            have sentNow : ChunkAttempt.Sent chunk bytes log (state.loaded ++ [transaction])
                { attempt with posted := later } pending := by
              refine ⟨?_, ?_, ?_, fun loading => ?_, sent.untouched, .inl startedNow⟩
              · rw [length_append]
                exact tail
              · rw [sent.subchunk_eq, ← length_append, ← moved, length_append]
              · rw [moved]
                exact sent.taken
              · rw [moved]
                exact sent.conserved loading
            rw [if_neg grown]
            refine invariant.proceed current logInvariant sameReplay extended ?_
              (fun _ => startedNow) sentNow
            rw [written, ChunkId.finished_append, invariant.finished_eq]
            change _ = numbered (state.loaded ++ [transaction])
            rw [numbered_concat, append_cancel_left_eq]
            exact filterMap_cons_some (if_pos rfl)
      | loadStart | loadSubchunkStart subchunk | loadEnd sizes =>
        have sentNow : ChunkAttempt.Sent chunk bytes log state.loaded
            { attempt with posted := later } pending :=
          ⟨reports, sent.subchunk_eq, sent.taken, sent.conserved, sent.untouched, .inl startedNow⟩
        have sameLoaded : (if log.written.length = state.log.written.length then state.loaded
            else state.loaded ++ []) = state.loaded := by
          rw [append_nil, ite_self]
        have sameFinished : chunk.finished log.written = numbered state.loaded := by
          rw [← invariant.finished_eq]
          rcases outcome with ⟨-, same⟩ | ⟨-, written⟩
          · rw [same]
          · rw [written, ChunkId.finished_append]
            exact append_nil _
        change (⟨log, some _, if log.written.length = state.log.written.length then
          state.loaded else state.loaded ++ []⟩ : ChunkLoad).Invariant chunk bytes
        rw [sameLoaded]
        exact invariant.proceed current logInvariant sameReplay extended sameFinished
          (fun _ => startedNow) sentNow

end

theorem step_invariant (separable : chunk.operation.Separable) (state : ChunkLoad)
    (event : ChunkLoadEvent) (next : ChunkLoad) (invariant : state.Invariant chunk bytes)
    (condition : Condition chunk bytes state event) (taken : state.step chunk event = some next) :
    next.Invariant chunk bytes := by
  cases event with
  | log event =>
    simp only [step] at taken
    split at taken
    · cases taken
    · next foreign =>
      obtain ⟨log, logged, rfl⟩ := Option.map_eq_some_iff.mp taken
      exact invariant.log_step (Bool.not_eq_true _ ▸ foreign) condition logged
  | schedule file dialect limit indexes =>
    obtain ⟨same, fresh, healthy, pke⟩ := condition
    simp only [step] at taken
    split at taken
    · next replay idle ready =>
      obtain ⟨task, scheduled, rfl⟩ := Option.map_eq_some_iff.mp taken
      have found : state.log.phase.replay = some replay := by
        rw [ready]
        rfl
      have notDone : replay.status chunk.operation ≠ .done := by
        intro done
        simp only [Load.scheduleTableChunk, done] at scheduled
        cases scheduled
      obtain ⟨resume, answer⟩ := invariant.scheduleTableChunk separable idle found notDone
      rw [scheduled] at answer
      cases answer
      exact invariant.schedule found notDone
        (ChunkAttempt.sent_start same fresh healthy pke invariant.taken resume dialect limit)
    · cases taken
  | transactionStarted =>
    exact invariant.work (fun attempt next pending sent done =>
      ⟨pending, sent.transactionStarted done⟩) taken
  | transactionFinished sizes fuel rollbacks =>
    exact invariant.work (fun attempt next pending sent done =>
      sent.transactionFinished done) taken
  | loadEnd sizes =>
    exact invariant.work (fun attempt next pending sent done => ⟨pending, sent.loadEnd done⟩)
      taken
  | handle timestamp task => exact invariant.handle separable condition taken

end ChunkLoad

end MariadbShell.Load
