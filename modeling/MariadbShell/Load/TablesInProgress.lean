import MariadbShell.Load.ChunkHandout
import MariadbShell.Sql.SqlString

/-!
# Tables that are being loaded

The main thread records the table of every chunk that it schedules, and the worker that has
loaded the chunk removes the record. The records tell the reader of the dump which tables may
not be offered, as some are loaded one chunk at a time. In a dry run nothing is loaded, and the
records stay.
-/

namespace MariadbShell.Load

open List
open Dump (Name)
open Sql (quoteIdentifier quoteIdentifier_append_inj)
open Lib Machine TableChunk List.Subset DumpReader

/-! ## Keys -/

/-- The quote of the names in a key. -/
def backtick : Char := Char.ofNat Sql.Chr.backtick.toNat

/-- A table or a partition of it; an empty partition name stands for no partition. -/
structure DataName where
  schema : Name
  table : Name
  partition : Name
deriving DecidableEq, Repr

/-- `schema_table_object_key`. -/
def DataName.key (name : DataName) : Name :=
  quoteIdentifier backtick name.schema ++
    ((if name.table = [] then [] else '.' :: quoteIdentifier backtick name.table) ++
      if name.partition = [] then [] else '.' :: quoteIdentifier backtick name.partition)

/-- Different tables and partitions have different keys. -/
theorem DataName.key_inj {left right : DataName} (named : left.table ≠ [])
    (named' : right.table ≠ []) (same : left.key = right.key) : left = right := by
  have dot {part : Name} : ('.' :: part).head? ≠ some backtick := by
    rw [head?_cons]
    decide
  have partition (name : DataName) :
      (if name.partition = [] then [] else '.' :: quoteIdentifier backtick name.partition).head? ≠
        some backtick := by
    split
    · exact (by simp)
    · exact dot
  simp only [key, if_neg named, if_neg named', cons_append] at same
  obtain ⟨schemas, rests⟩ := quoteIdentifier_append_inj dot dot same
  obtain ⟨tables, partitions⟩ :=
    quoteIdentifier_append_inj (partition left) (partition right) (List.cons.inj rests).2
  obtain ⟨schema, table, part⟩ := left
  obtain ⟨schema', table', part'⟩ := right
  dsimp only at schemas tables partitions
  rw [schemas, tables]
  split at partitions <;> split at partitions
  case isTrue.isTrue empty empty' => rw [empty, empty']
  case isTrue.isFalse | isFalse.isTrue => cases partitions
  case isFalse.isFalse =>
    have quoted := congrArg (· ++ []) (List.cons.inj partitions).2
    rw [(quoteIdentifier_append_inj (by simp) (by simp) quoted).1]

/-- The data of the dump is that of tables and partitions with these names. -/
structure DumpDirectory.Named (dump : DumpDirectory) (names : List DataName) : Prop where
  keys : dump.tables.map (fun table => table.1.key) = names.map DataName.key
  distinct : names.Nodup
  nonempty : ∀ name ∈ names, name.table ≠ []

theorem DumpDirectory.Named.keys_nodup {dump : DumpDirectory} {names : List DataName}
    (named : dump.Named names) : (dump.tables.map fun table => table.1.key).Nodup := by
  rw [named.keys]
  refine named.distinct.map_on fun left member right member' same => ?_
  exact DataName.key_inj (named.nonempty left member) (named.nonempty right member') same

/-! ## The loader -/

/--
The reader, the tables that are recorded, the copy of them that the main thread looks at,
and the chunks that were scheduled.
-/
structure DataLoad where
  loading : Loading
  tablesBeingLoaded : List (Name × Nat) := []
  copy : Option (List (Name × Nat)) := none
  tasks : List TableChunk := []
  finished : List TableChunk := []

inductive DataLoadEvent where
  /-- something happens to the dump -/
  | dump (event : LoadingEvent)
  /-- the main thread copies the records -/
  | copyTables
  /-- the main thread asks for a chunk, and schedules it unless it was loaded or is excluded -/
  | next (worker : Nat) (order : List Nat) (scheduled : Bool)
  /-- a worker is done with a chunk, with or without an error -/
  | finish (task : Nat)

namespace DataLoad

/-- What `mark_table_as_in_progress` records for a chunk. -/
def record (dump : DumpDirectory) (chunk : TableChunk) : Name × Nat :=
  ((dump.tables[chunk.table]?.map fun table => table.1.key).getD [], chunk.file.size)

/-- The main thread gets a chunk. -/
def given (dump : DumpDirectory) (state : DataLoad) (chunk : TableChunk) (reader : DumpReader)
    (scheduled : Bool) : DataLoad :=
  let loading := { state.loading with reader, handedOut := state.loading.handedOut ++ [chunk] }
  if scheduled then
    { state with
      loading
      copy := none
      tablesBeingLoaded := state.tablesBeingLoaded ++ [record dump chunk]
      tasks := state.tasks ++ [chunk] }
  else { state with loading, copy := none }

variable {Double : Type} [Zero Double] [NatCast Double] [Add Double] [Sub Double] [Div Double]
  [LT Double] [DecidableLT Double]

variable (Double) in
def step (dump : DumpDirectory) (transactionalEngines : List Name) (dryRun : Bool)
    (state : DataLoad) : DataLoadEvent → Option DataLoad
  | .dump (.request ..) => none
  | .dump event =>
    (Loading.step Double dump state.loading event).map fun loading => { state with loading }
  | .copyTables => some { state with copy := some state.tablesBeingLoaded }
  | .next worker order scheduled =>
    match state.copy with
    | none => none
    | some copy =>
      if worker < state.loading.reader.threadsCount ∧
          order.Perm state.loading.reader.tablesWithData then
        match state.loading.reader.nextTableChunk Double copy transactionalEngines order with
        | .chunk chunk reader => some (state.given dump chunk reader scheduled)
        | .nothing => some { state with copy := none }
        | .notAvailable => some { state with loading := { state.loading with failed := true } }
      else none
  | .finish task =>
    match state.tasks[task]? with
    | none => none
    | some chunk =>
      some
        { state with
          tasks := state.tasks.eraseIdx task
          finished := state.finished ++ [chunk]
          tablesBeingLoaded :=
            -- only `load` removes the record, and a dry run does not call it
            if dryRun then state.tablesBeingLoaded
            else state.tablesBeingLoaded.erase (record dump chunk) }

def start (dump : DumpDirectory) (threadsCount : Nat) : DataLoad where
  loading := Loading.start dump threadsCount

def held (dryRun : Bool) (state : DataLoad) : List TableChunk :=
  if dryRun then state.finished ++ state.tasks else state.tasks

/-! ## A table with two partitions -/

def sampleData (two : Bool) : Dump.DataFiles where
  format := .tsv
  compression := .none
  indexFiles := false
  chunks := some (if two then [(0, false), (1, true)] else [(0, true)])
  distinct := by
    rintro numbers ⟨⟩
    cases two <;> decide

def sampleNames : List DataName :=
  [⟨"shop".toList, "orders".toList, "p0".toList⟩, ⟨"shop".toList, "orders".toList, "p1".toList⟩]

/-- A table with two partitions whose engine is not transactional. -/
def sampleDump : DumpDirectory :=
  .ofDump ⟨true, true, false, false, false, false, false⟩
    [⟨"shop".toList, [⟨"orders".toList, false, none, [("p0".toList, some (sampleData true)),
      ("p1".toList, some (sampleData false))]⟩], []⟩]
    (fun entry =>
      match entry with
      | .part schema table name _ => ⟨DataName.key ⟨schema, table, name⟩, false, "Aria".toList⟩
      | _ => ⟨[], false, []⟩) (by decide) (by
      intro entry member data hasData
      simp only [Dump.SchemaInfo.entries, Dump.TableInfo.entries, flatMap_cons,
        flatMap_nil, append_nil, map_nil, mem_cons, not_mem_nil,
        or_false, map_cons] at member
      rcases member with rfl | (rfl | rfl | rfl)
      · cases hasData
      · cases hasData
      · cases hasData
        rintro numbers ⟨⟩
        exact ⟨1, rfl⟩
      · cases hasData
        rintro numbers ⟨⟩
        exact ⟨0, rfl⟩)

theorem sampleDump_named : sampleDump.Named sampleNames := by
  refine ⟨by decide +kernel, by decide, by decide⟩

/-- All files of the dump become visible and are found. -/
def sampleArrivals : List DataLoadEvent :=
  [.dump (.appear [⟨"shop@orders@p0@0.tsv".toList, 5⟩, ⟨"shop@orders@p0@@1.tsv".toList, 3⟩,
    ⟨"shop@orders@p1@@0.tsv".toList, 4⟩]), .dump (.ready 0), .dump (.ready 1), .dump .rescan]

/-! ## Every run -/

/-- The records are those of the chunks that are held, and the copy has all of them. -/
structure Invariant (dump : DumpDirectory) (dryRun : Bool) (state : DataLoad) : Prop where
  handing : Handing dump state.loading
  recorded : state.tablesBeingLoaded.Perm ((state.held dryRun).map (record dump))
  handed : ∀ chunk ∈ state.held dryRun, chunk ∈ state.loading.handedOut
  copied : ∀ copy, state.copy = some copy → state.tablesBeingLoaded ⊆ copy ∧
    ∀ entry ∈ copy, ∃ chunk ∈ state.loading.handedOut, entry = record dump chunk

variable {dump : DumpDirectory} {transactionalEngines : List Name} {dryRun : Bool}
  {state next : DataLoad}

theorem invariant_start (dump : DumpDirectory) (threadsCount : Nat) (dryRun : Bool) :
    (start dump threadsCount).Invariant dump dryRun := by
  refine ⟨Handing.start dump threadsCount, ?_, ?_, fun copy isCopy => (by cases isCopy)⟩
  · cases dryRun <;> exact List.Perm.nil
  · cases dryRun <;> exact fun chunk member => (by cases member)

variable {order : List Nat}

variable {chunk : TableChunk} {copy : List (Name × Nat)} {event : LoadingEvent}
  {events : List DataLoadEvent} {number : Nat} {names : List DataName} {table : TableDataInfo}

/-- The chunk of an answer is the next one of the table that was chosen. -/
theorem nextTableChunk_chunk {reader reader' : DumpReader}
    (answer : reader.nextTableChunk Double copy transactionalEngines order = .chunk chunk reader') :
    reader.scheduleChunkProportionally Double copy transactionalEngines order = some chunk.table ∧
      (∃ table, reader.tables[chunk.table]? = some table ∧ chunk.index = table.chunksConsumed ∧
        reader'.tables = reader.tables.set chunk.table table.consumeChunk) ∧
      reader'.threadsCount = reader.threadsCount := by
  unfold nextTableChunk at answer
  split at answer
  · cases answer
  · next number chosen =>
    split at answer
    · cases answer
    · next table there =>
      split at answer
      · cases answer
        exact ⟨chosen, ⟨table, there, rfl, rfl⟩, rfl⟩
      · cases answer

variable (Double dump transactionalEngines dryRun state) in
/-- What a step does, by its event; every request gets an answer. -/
inductive Stepped : DataLoadEvent → DataLoad → Prop
  | dump {event : LoadingEvent} {loading : Loading}
      (stepped : Loading.step Double dump state.loading event = some loading)
      (sameHanded : loading.handedOut = state.loading.handedOut)
      (sameThreads : loading.reader.threadsCount = state.loading.reader.threadsCount) :
      Stepped (.dump event) { state with loading }
  | copied : Stepped .copyTables { state with copy := some state.tablesBeingLoaded }
  | refused {worker : Nat} {scheduled : Bool} {order : List Nat} {copy : List (Name × Nat)}
      (threads : worker < state.loading.reader.threadsCount)
      (visited : order.Perm state.loading.reader.tablesWithData) (isCopy : state.copy = some copy)
      (answer : state.loading.reader.nextTableChunk Double copy transactionalEngines order =
        .nothing) : Stepped (.next worker order scheduled) { state with copy := none }
  | given {worker : Nat} (scheduled : Bool) {order : List Nat} {copy : List (Name × Nat)}
      {chunk : TableChunk} {reader : DumpReader} (isCopy : state.copy = some copy)
      (answer : state.loading.reader.nextTableChunk Double copy transactionalEngines order =
        .chunk chunk reader)
      (handing : Handing dump
        { state.loading with reader, handedOut := state.loading.handedOut ++ [chunk] }) :
      Stepped (.next worker order scheduled) (state.given dump chunk reader scheduled)
  | finished {task : Nat} {chunk : TableChunk} (isTask : state.tasks[task]? = some chunk) :
      Stepped (.finish task)
        { state with
          tasks := state.tasks.eraseIdx task
          finished := state.finished ++ [chunk]
          tablesBeingLoaded :=
            if dryRun then state.tablesBeingLoaded
            else state.tablesBeingLoaded.erase (record dump chunk) }

theorem stepped_of_step (handing : Handing dump state.loading) {event : DataLoadEvent}
    (taken : state.step Double dump transactionalEngines dryRun event = some next) :
    Stepped Double dump transactionalEngines dryRun state event next := by
  cases event with
  | dump event =>
    cases event with
    | request => cases taken
    | appear files =>
      obtain ⟨loading, stepped, rfl⟩ := Option.map_eq_some_iff.mp taken
      simp only [Loading.step] at stepped
      split at stepped
      · next canAppear =>
        cases stepped
        exact .dump (if_pos canAppear) rfl rfl
      · cases stepped
    | ready | rescan =>
      cases taken
      exact .dump rfl rfl rfl
  | copyTables =>
    cases taken
    exact .copied
  | next worker order scheduled =>
    simp only [step] at taken
    split at taken
    · cases taken
    · next copy isCopy =>
      split at taken
      · next asked =>
        rcases handing.nextTableChunk_cases Double copy transactionalEngines asked.2 with
          refused | ⟨chunk, reader, answer, handed⟩
        · rw [refused] at taken
          cases taken
          exact .refused asked.1 asked.2 isCopy refused
        · rw [answer] at taken
          cases taken
          exact .given scheduled isCopy answer handed
      · cases taken
  | finish task =>
    simp only [step] at taken
    split at taken
    · cases taken
    · next chunk isTask =>
      cases taken
      exact .finished isTask

/-- A task and the other ones. -/
theorem perm_eraseIdx {tasks : List TableChunk} {task : Nat} (isTask : tasks[task]? = some chunk) :
    tasks.Perm (chunk :: tasks.eraseIdx task) := by
  obtain ⟨small, rfl⟩ := List.getElem?_eq_some_iff.mp isTask
  exact (getElem_cons_eraseIdx_perm small).symm

section

variable (invariant : state.Invariant dump dryRun)

include invariant

theorem Invariant.copyTables :
    { state with copy := some state.tablesBeingLoaded }.Invariant dump dryRun := by
  refine ⟨invariant.handing, invariant.recorded, invariant.handed, ?_⟩
  rintro copy ⟨⟩
  refine ⟨refl _, fun entry member => ?_⟩
  obtain ⟨chunk, isHeld, rfl⟩ := mem_map.mp (invariant.recorded.mem_iff.mp member)
  exact ⟨chunk, invariant.handed chunk isHeld, rfl⟩

theorem Invariant.given {reader : DumpReader} (scheduled : Bool)
    (handing : Handing dump
      { state.loading with reader, handedOut := state.loading.handedOut ++ [chunk] }) :
    (state.given dump chunk reader scheduled).Invariant dump dryRun := by
  have earlier {other : TableChunk} (member : other ∈ state.held dryRun) :
      other ∈ state.loading.handedOut ++ [chunk] :=
    mem_append_left _ (invariant.handed other member)
  cases scheduled with
  | false =>
    exact ⟨handing, invariant.recorded, fun other => earlier, fun copy isCopy => (by cases isCopy)⟩
  | true =>
    have grown : held dryRun (state.given dump chunk reader true) =
        state.held dryRun ++ [chunk] := by
      cases dryRun with
      | false => rfl
      | true => exact (append_assoc _ _ _).symm
    refine ⟨handing, ?_, fun other member => ?_, fun copy isCopy => (by cases isCopy)⟩
    · rw [grown, map_append]
      exact invariant.recorded.append_right _
    · rw [grown] at member
      rcases mem_append.mp member with before | last
      · exact earlier before
      · exact mem_append_right _ last

theorem Invariant.finish {task : Nat} (isTask : state.tasks[task]? = some chunk) :
    { state with
      tasks := state.tasks.eraseIdx task
      finished := state.finished ++ [chunk]
      tablesBeingLoaded :=
        if dryRun then state.tablesBeingLoaded
        else state.tablesBeingLoaded.erase (record dump chunk) }.Invariant dump dryRun := by
  have split := perm_eraseIdx isTask
  cases dryRun with
  | true =>
    have same : (state.finished ++ state.tasks).Perm
        (state.finished ++ [chunk] ++ state.tasks.eraseIdx task) := by
      rw [append_assoc]
      exact split.append_left _
    refine ⟨invariant.handing, invariant.recorded.trans (same.map _), fun other member => ?_,
      invariant.copied⟩
    exact invariant.handed other (same.mem_iff.mpr member)
  | false =>
    refine ⟨invariant.handing, ?_, fun other member => ?_, fun copy isCopy => ?_⟩
    · have records := invariant.recorded.trans (split.map (record dump))
      exact (cons_perm_iff_perm_erase.mp records.symm).2.symm
    · exact invariant.handed other ((eraseIdx_sublist _ _).subset member)
    · obtain ⟨subset, origin⟩ := invariant.copied copy isCopy
      exact ⟨fun entry member => subset (mem_of_mem_erase member), origin⟩

end

theorem step_invariant {event : DataLoadEvent} (invariant : state.Invariant dump dryRun)
    (taken : state.step Double dump transactionalEngines dryRun event = some next) :
    next.Invariant dump dryRun := by
  cases stepped_of_step invariant.handing taken with
  | dump stepped sameHanded =>
    refine ⟨invariant.handing.step stepped, invariant.recorded, ?_, ?_⟩ <;> rw [sameHanded]
    · exact invariant.handed
    · exact invariant.copied
  | copied => exact invariant.copyTables
  | refused =>
    exact ⟨invariant.handing, invariant.recorded, invariant.handed,
      fun copy isCopy => (by cases isCopy)⟩
  | given scheduled _ _ handing => exact invariant.given scheduled handing
  | finished isTask => exact invariant.finish isTask

variable {threadsCount : Nat}

theorem invariant_of_run
    (ran : run (step Double dump transactionalEngines dryRun) (start dump threadsCount) events =
      some state) :
    state.Invariant dump dryRun :=
  run_preserves _ step_invariant (invariant_start dump threadsCount dryRun) ran

/-! ## Tables that are loaded serially -/

/-- No two of the chunks belong to the same table that is loaded serially. -/
def Exclusive (dump : DumpDirectory) (transactionalEngines : List Name)
    (tasks : List TableChunk) : Prop :=
  tasks.Pairwise fun chunk other => chunk.table = other.table →
    ∀ described, dump.tables[chunk.table]? = some described →
      described.1.loadedSerially transactionalEngines = false

theorem record_key {described : TableMetadata × Layout}
    (same : dump.tables[number]? = some described) (ofTable : chunk.table = number) :
    (record dump chunk).1 = described.1.key := by
  rw [record, ofTable, same]
  rfl

/-- The chunk that is scheduled is not one of a table that is loaded serially already. -/
theorem Invariant.exclusive (invariant : state.Invariant dump false) {event : DataLoadEvent}
    (exclusive : Exclusive dump transactionalEngines state.tasks)
    (taken : state.step Double dump transactionalEngines false event = some next) :
    Exclusive dump transactionalEngines next.tasks := by
  cases stepped_of_step invariant.handing taken with
  | dump | copied | refused => exact exclusive
  | finished => exact exclusive.sublist (eraseIdx_sublist _ _)
  | given scheduled isCopy answer =>
    cases scheduled with
    | false => exact exclusive
    | true =>
      obtain ⟨chosen, ⟨table, there, -, -⟩, -⟩ := nextTableChunk_chunk answer
      have eligible := (schedule_spec chosen).2 table there
      refine pairwise_append.mpr ⟨exclusive, pairwise_singleton _ _, ?_⟩
      intro other isTask last isLast sameTable described same
      rw [mem_singleton.mp isLast] at sameTable
      have known := invariant.handing.known _ _ _ there (sameTable ▸ same)
      have inCopy := (invariant.copied _ isCopy).1
        (invariant.recorded.mem_iff.mpr (mem_map_of_mem isTask))
      rw [← known.described]
      refine eligible (any_eq_true.mpr ⟨_, inCopy, ?_⟩)
      rw [record_key same rfl, ← known.described]
      exact decide_eq_true rfl

theorem exclusive_of_run
    (ran : run (step Double dump transactionalEngines false) (start dump threadsCount) events =
      some state) :
    Exclusive dump transactionalEngines state.tasks :=
  (run_preserves (fun state : DataLoad => state.Invariant dump false ∧
      Exclusive dump transactionalEngines state.tasks)
    (fun both taken => ⟨step_invariant both.1 taken, both.1.exclusive both.2 taken⟩)
    ⟨invariant_start dump threadsCount false, List.Pairwise.nil⟩ ran).2

/-- The number of a table is known from its key. -/
theorem number_of_key (named : dump.Named names) {left right : Nat}
    {described described' : TableMetadata × Layout} (there : dump.tables[left]? = some described)
    (there' : dump.tables[right]? = some described') (same : described.1.key = described'.1.key) :
    left = right := by
  have small : left < (dump.tables.map fun table => table.1.key).length := by
    rw [length_map]
    exact (List.getElem?_eq_some_iff.mp there).1
  refine (getElem?_inj small named.keys_nodup).mp ?_
  rw [getElem?_map, getElem?_map, there, there', Option.map_some, Option.map_some, same]

/-- A table that is in the copy was started. -/
theorem Invariant.started (named : dump.Named names) (invariant : state.Invariant dump dryRun)
    (isCopy : state.copy = some copy) (there : state.loading.reader.tables[number]? = some table)
    (inFlight : copy.any (·.1 = table.metadata.key) = true) : table.chunksConsumed ≠ 0 := by
  obtain ⟨entry, member, sameKey⟩ := any_eq_true.mp inFlight
  obtain ⟨chunk, handed, rfl⟩ := (invariant.copied copy isCopy).2 entry member
  obtain ⟨table', there', -⟩ := invariant.handing.files chunk handed
  obtain ⟨described, same, -, known⟩ := invariant.handing.described there
  obtain ⟨described', same', -, -⟩ := invariant.handing.described there'
  have keys : described'.1.key = described.1.key := by
    rw [← record_key same' rfl, ← known.described]
    exact of_decide_eq_true sameKey
  have number_eq := number_of_key named same' same keys
  have place : (number, chunk.index) ∈ state.loading.handedOut.map place := by
    rw [← number_eq]
    exact mem_map_of_mem handed
  obtain ⟨table'', there'', consumed⟩ := (invariant.handing.handed _ _).mp place
  rw [there] at there''
  cases there''
  omega

variable (Double) in
/-- A request gets a chunk if there is one that may be offered. -/
theorem Invariant.offers (named : dump.Named names) (invariant : state.Invariant dump dryRun)
    (threads : 0 < state.loading.reader.threadsCount) (isCopy : state.copy = some copy)
    (visited : order.Perm state.loading.reader.tablesWithData)
    (member : number ∈ state.loading.reader.tablesWithData)
    (there : state.loading.reader.tables[number]? = some table)
    (eligible : DumpReader.Eligible copy transactionalEngines table) :
    ∃ chunk reader, state.loading.reader.nextTableChunk Double copy transactionalEngines order =
      .chunk chunk reader := by
  rcases invariant.handing.nextTableChunk_cases Double copy transactionalEngines visited with
    refused | ⟨chunk, reader, answer, -⟩
  · exact absurd (schedule_eq_none refused) (schedule_ne_none threads
      (visited.mem_iff.mpr member) there eligible (invariant.started named isCopy there))
  · exact ⟨chunk, reader, answer⟩

theorem given_loading (state : DataLoad) (chunk : TableChunk) (reader : DumpReader)
    (scheduled : Bool) : (state.given dump chunk reader scheduled).loading =
      { state.loading with reader, handedOut := state.loading.handedOut ++ [chunk] } := by
  cases scheduled <;> rfl

/-- The number of threads is fixed, and chunks stay handed out. -/
theorem step_keeps (handing : Handing dump state.loading) {event : DataLoadEvent}
    (taken : state.step Double dump transactionalEngines dryRun event = some next) :
    next.loading.reader.threadsCount = state.loading.reader.threadsCount ∧
      state.loading.handedOut ⊆ next.loading.handedOut := by
  cases stepped_of_step handing taken with
  | dump _ sameHanded sameThreads => exact ⟨sameThreads, sameHanded ▸ refl _⟩
  | copied | refused | finished => exact ⟨rfl, refl _⟩
  | given scheduled _ answer =>
    rw [given_loading]
    exact ⟨(nextTableChunk_chunk answer).2.2, subset_append_left _ _⟩

theorem run_keeps (invariant : state.Invariant dump dryRun) {final : DataLoad}
    (ran : run (DataLoad.step Double dump transactionalEngines dryRun) state events = some final) :
    final.Invariant dump dryRun ∧
      final.loading.reader.threadsCount = state.loading.reader.threadsCount ∧
      state.loading.handedOut ⊆ final.loading.handedOut := by
  refine run_preserves (fun final : DataLoad => final.Invariant dump dryRun ∧
    final.loading.reader.threadsCount = state.loading.reader.threadsCount ∧
    state.loading.handedOut ⊆ final.loading.handedOut) (fun before taken => ?_)
    ⟨invariant, rfl, refl _⟩ ran
  obtain ⟨holds, threads, handed⟩ := before
  obtain ⟨sameThreads, stays⟩ := step_keeps holds.handing taken
  exact ⟨step_invariant holds taken, sameThreads.trans threads, List.Subset.trans handed stays⟩

/--
Unless in a dry run, two chunks of a table or partition that is loaded serially are never in
progress at the same time, and a request gets a chunk as long as there is one of a table that
may be offered.
-/
theorem serial_tables_of_run {names : List DataName} (named : dump.Named names)
    {threadsCount : Nat} (threads : 0 < threadsCount) {events : List DataLoadEvent}
    (ran : run (step Double dump transactionalEngines false) (start dump threadsCount)
      events = some state) :
    (∀ (first second : Nat) (chunk other : TableChunk) (described : TableMetadata × Layout),
      first ≠ second → state.tasks[first]? = some chunk → state.tasks[second]? = some other →
      chunk.table = other.table → dump.tables[chunk.table]? = some described →
      described.1.loadedSerially transactionalEngines = false) ∧
    (∀ (copy : List (Name × Nat)) (order : List Nat) (number : Nat) (table : TableDataInfo),
      state.copy = some copy → order.Perm state.loading.reader.tablesWithData →
      number ∈ order → state.loading.reader.tables[number]? = some table →
      DumpReader.Eligible copy transactionalEngines table →
      ∃ chunk reader, state.loading.reader.scheduleChunkProportionally Double copy
          transactionalEngines order = some chunk.table ∧
        state.loading.reader.nextTableChunk Double copy transactionalEngines order =
          .chunk chunk reader) := by
  have invariant := invariant_of_run ran
  refine ⟨fun first second chunk other described different isTask isOther sameTable same => ?_,
    fun copy order number table isCopy visited member there eligible => ?_⟩
  · have exclusive := exclusive_of_run ran
    obtain ⟨small, rfl⟩ := List.getElem?_eq_some_iff.mp isTask
    obtain ⟨small', rfl⟩ := List.getElem?_eq_some_iff.mp isOther
    rcases Nat.lt_or_gt_of_ne different with before | after
    · exact pairwise_iff_getElem.mp exclusive first second small small' before sameTable
        described same
    · exact pairwise_iff_getElem.mp exclusive second first small' small after sameTable.symm
        described (sameTable ▸ same)
  · have sameThreads := (run_keeps (invariant_start dump threadsCount false) ran).2.1
    change _ = threadsCount at sameThreads
    rw [← sameThreads] at threads
    obtain ⟨chunk, reader, answer⟩ :=
      invariant.offers Double named threads isCopy visited (visited.mem_iff.mp member) there
        eligible
    exact ⟨chunk, reader, (nextTableChunk_chunk answer).1, answer⟩

/-- The first partition is being loaded; the second one may be offered. -/
theorem serial_tables_of_run_partitions :
    ∃ state copy,
      run (step Nat sampleDump ["INNODB".toList] false) (start sampleDump 2)
        (sampleArrivals ++ [.copyTables, .next 0 [0, 1] true, .copyTables]) = some state ∧
      state.copy = some copy ∧ state.tasks.length = 1 ∧
      ∃ chunk reader, state.loading.reader.nextTableChunk Nat copy ["INNODB".toList] [0, 1] =
        .chunk chunk reader := by
  have facts : (run (step Nat sampleDump ["INNODB".toList] false) (start sampleDump 2)
      (sampleArrivals ++ [.copyTables, .next 0 [0, 1] true, .copyTables])).map (fun state =>
        (state.copy.isSome, state.tasks.length, state.loading.reader.tablesWithData,
          state.loading.reader.tables[1]?.map fun table =>
            (state.copy.getD []).any (·.1 = table.metadata.key))) =
      some (true, 1, [0, 1], some false) := by
    decide +kernel
  obtain ⟨state, ran, same⟩ := Option.map_eq_some_iff.mp facts
  simp only [Prod.mk.injEq] at same
  obtain ⟨hasCopy, one, withData, notInFlight⟩ := same
  obtain ⟨copy, isCopy⟩ := Option.isSome_iff_exists.mp hasCopy
  obtain ⟨table, there, absent⟩ := Option.map_eq_some_iff.mp notInFlight
  rw [isCopy, Option.getD_some] at absent
  obtain ⟨chunk, reader, -, answer⟩ := (serial_tables_of_run sampleDump_named (by decide) ran).2
    copy [0, 1] 1 table isCopy (by rw [withData]) (by decide) there
    (fun inFlight => by rw [absent] at inFlight; cases inFlight)
  exact ⟨state, copy, ran, isCopy, one, chunk, reader, answer⟩

/-- Chunks of two partitions of a table with such an engine are loaded at the same time. -/
theorem partitions_in_progress :
    ∃ state,
      run (step Nat sampleDump ["INNODB".toList] false) (start sampleDump 2)
        (sampleArrivals ++ [.copyTables, .next 0 [0, 1] true, .copyTables,
          .next 1 [0, 1] true]) = some state ∧
      state.tasks.map TableChunk.table = [0, 1] ∧
      sampleNames.map DataName.schema = ["shop".toList, "shop".toList] ∧
      sampleNames.map DataName.table = ["orders".toList, "orders".toList] ∧
      sampleDump.tables.map (fun table => table.1.key) = sampleNames.map DataName.key ∧
      sampleDump.tables.map (fun table => table.1.loadedSerially ["INNODB".toList]) =
        [true, true] := by
  change ∃ state ∈ (_ : Option _), _
  decide +kernel

/-! ## A table is offered again -/

def places (dump : DumpDirectory) : List (Nat × Nat) :=
  (List.range dump.tables.length).flatMap fun number =>
    (List.range ((dump.tables[number]?.map fun table => table.2.count).getD 0)).map (number, ·)

def requests (events : List DataLoadEvent) : Nat :=
  events.countP fun event =>
    match event with
    | .next .. => true
    | _ => false

/-- There are not more chunks than the dump has. -/
theorem length_handedOut_le (handing : Handing dump state.loading) :
    state.loading.handedOut.length ≤ (places dump).length := by
  rw [← length_map (f := place)]
  refine handing.once.length_le_of_subset ?_
  rintro ⟨number, index⟩ member
  obtain ⟨table, there, consumed⟩ := (handing.handed number index).mp member
  obtain ⟨described, same, -, known⟩ := handing.described there
  have small := (List.getElem?_eq_some_iff.mp same).1
  refine mem_flatMap.mpr ⟨number, mem_range.mpr small, ?_⟩
  rw [same, Option.map_some, Option.getD_some]
  refine mem_map.mpr ⟨index, mem_range.mpr ?_, rfl⟩
  have seen := known.consumed
  have count := known.count
  omega

/-- The chunk is the next one of the table, it is available, and none is being loaded. -/
structure Waiting (number index : Nat) (state : DataLoad) : Prop where
  available : ∃ table, state.loading.reader.tables[number]? = some table ∧
    table.chunksConsumed = index ∧ index < table.chunksSeen
  idle : ∀ chunk ∈ state.tasks, chunk.table ≠ number

/-- The main thread looks at a record of the table. -/
def stale (dump : DumpDirectory) (number : Nat) (state : DataLoad) : Bool :=
  (state.copy.getD []).any fun entry =>
    some entry.1 = dump.tables[number]?.map fun table => table.1.key

/-- Looking for files takes no chunk away. -/
theorem keeps_available {loading loading' : Loading} (handing : Handing dump loading)
    (stepped : Loading.step Double dump loading event = some loading')
    (sameHanded : loading'.handedOut = loading.handedOut)
    (there : loading.reader.tables[number]? = some table) :
    ∃ table', loading'.reader.tables[number]? = some table' ∧
      table'.chunksConsumed = table.chunksConsumed ∧ table.chunksSeen ≤ table'.chunksSeen := by
  cases event with
  | appear files =>
    simp only [Loading.step] at stepped
    split at stepped
    · cases stepped
      exact ⟨table, there, rfl, Nat.le_refl _⟩
    · cases stepped
  | ready other =>
    cases stepped
    simp only [getElem?_modify, there, Option.map_eq_map, Option.map_some,
      Option.some.injEq, exists_eq_left']
    split
    · exact ⟨rfl, Nat.le_refl _⟩
    · exact ⟨rfl, Nat.le_refl _⟩
  | rescan =>
    cases stepped
    obtain ⟨described, -, member, known⟩ := handing.described there
    have grown := known.rescanTable_grown (dump.owned handing.inside member)
    refine ⟨_, ?_, grown.consumed, grown.seen⟩
    simp only [rescanData, getElem?_map, there, Option.map_some]
  | request worker copy engines order =>
    simp only [Loading.step] at stepped
    split at stepped
    · next asked =>
      rcases handing.nextTableChunk_cases Double copy engines asked.2 with
        refused | ⟨chunk, reader, answer, -⟩
      · rw [refused] at stepped
        cases stepped
        exact ⟨table, there, rfl, Nat.le_refl _⟩
      · rw [answer] at stepped
        cases stepped
        have longer := congrArg List.length sameHanded
        rw [length_append] at longer
        exact absurd longer (Nat.succ_ne_self _)
    · cases stepped

section

variable (named : dump.Named names) {index : Nat} (waiting : Waiting number index state)
  (invariant : state.Invariant dump false)

include named waiting invariant

/-- After a fresh copy nothing keeps a table back that is not being loaded. -/
theorem Waiting.not_stale :
    stale dump number { state with copy := some state.tablesBeingLoaded } = false := by
  rw [← Bool.not_eq_true]
  intro isStale
  obtain ⟨entry, member, same⟩ := any_eq_true.mp isStale
  obtain ⟨chunk, isTask, rfl⟩ := mem_map.mp (invariant.recorded.mem_iff.mp member)
  obtain ⟨table, there, -⟩ := invariant.handing.files chunk (invariant.handed chunk isTask)
  obtain ⟨described, ofChunk, -, -⟩ := invariant.handing.described there
  obtain ⟨table', there', -⟩ := waiting.available
  obtain ⟨described', ofNumber, -, -⟩ := invariant.handing.described there'
  rw [record_key ofChunk rfl, ofNumber, Option.map_some, decide_eq_true_eq,
    Option.some.injEq] at same
  exact waiting.idle chunk isTask (number_of_key named ofChunk ofNumber same)

/--
As long as the chunk is not handed out, every request gets another chunk, but for one that
looks at an old copy of the records.
-/
theorem Waiting.step {event : DataLoadEvent}
    (taken : state.step Double dump transactionalEngines false event = some next) :
    (number, index) ∈ next.loading.handedOut.map place ∨
      (Waiting number index next ∧
        state.loading.handedOut.length + requests [event] + (stale dump number next).toNat ≤
          next.loading.handedOut.length + (stale dump number state).toNat) := by
  obtain ⟨table, there, consumed, less⟩ := waiting.available
  cases stepped_of_step invariant.handing taken with
  | dump stepped sameHanded =>
    obtain ⟨table', there', sameConsumed, moreSeen⟩ :=
      keeps_available invariant.handing stepped sameHanded there
    refine .inr ⟨⟨⟨table', there', sameConsumed.trans consumed, by omega⟩, waiting.idle⟩, ?_⟩
    rw [sameHanded]
    exact Nat.le_refl _
  | copied =>
    have fresh := waiting.not_stale named invariant
    refine .inr ⟨⟨waiting.available, waiting.idle⟩, ?_⟩
    rw [fresh]
    exact Nat.le_add_right _ _
  | finished =>
    refine .inr ⟨⟨waiting.available, fun other member => ?_⟩, Nat.le_refl _⟩
    exact waiting.idle other ((eraseIdx_sublist _ _).subset member)
  | @refused _ _ _ copy threads visited isCopy refused =>
    -- only a record of the table in an old copy explains the refusal
    obtain ⟨described, ofNumber, -, known⟩ := invariant.handing.described there
    have isStale : stale dump number state = true := by
      by_contra fresh
      have eligible : DumpReader.Eligible copy transactionalEngines table := by
        intro inFlight
        obtain ⟨entry, member, same⟩ := any_eq_true.mp inFlight
        refine absurd ?_ fresh
        rw [stale, isCopy, Option.getD_some, any_eq_true]
        refine ⟨entry, member, ?_⟩
        rw [ofNumber, Option.map_some, ← known.described, of_decide_eq_true same]
        exact decide_eq_true rfl
      have member : number ∈ state.loading.reader.tablesWithData :=
        (invariant.handing.withData number).mpr ⟨table, there, consumed.symm ▸ less⟩
      obtain ⟨chunk, reader, answer⟩ := invariant.offers Double named
        (Nat.zero_lt_of_lt threads) isCopy visited member there eligible
      rw [refused] at answer
      cases answer
    refine .inr ⟨⟨waiting.available, waiting.idle⟩, ?_⟩
    rw [isStale]
    exact Nat.le_refl _
  | @given _ scheduled _ _ chunk reader _ answer =>
    obtain ⟨-, ⟨table', there', sameIndex, tables⟩, -⟩ := nextTableChunk_chunk answer
    by_cases ofTable : chunk.table = number
    · refine .inl ?_
      rw [given_loading, map_append]
      refine mem_append_right _ (mem_singleton.mpr ?_)
      rw [ofTable, there] at there'
      cases there'
      rw [place, ofTable, sameIndex, consumed]
    · have kept : (state.given dump chunk reader scheduled).loading.reader.tables[number]? =
          some table := by
        rw [given_loading]
        rw [tables, getElem?_set_ne ofTable, there]
      have idle : ∀ other ∈ (state.given dump chunk reader scheduled).tasks,
          other.table ≠ number := by
        intro other member
        cases scheduled with
        | false => exact waiting.idle other member
        | true =>
          rcases mem_append.mp member with before | last
          · exact waiting.idle other before
          · rw [mem_singleton.mp last]
            exact ofTable
      have noCopy : stale dump number (state.given dump chunk reader scheduled) = false := by
        cases scheduled <;> rfl
      refine .inr ⟨⟨⟨table, kept, consumed, less⟩, idle⟩, ?_⟩
      rw [noCopy, given_loading, length_append]
      exact Nat.le_add_right _ _

/-- The requests of a run get other chunks, until the chunk is handed out. -/
theorem Waiting.run {final : DataLoad}
    (ran : run (DataLoad.step Double dump transactionalEngines false) state events = some final) :
    (number, index) ∈ final.loading.handedOut.map place ∨
      state.loading.handedOut.length + requests events ≤
        final.loading.handedOut.length + (stale dump number state).toNat := by
  induction events generalizing state with
  | nil =>
    cases ran
    exact .inr (Nat.le_add_right _ _)
  | cons event events ih =>
    unfold run at ran
    split at ran
    · cases ran
    · next after taken =>
      have invariantAfter := step_invariant invariant taken
      have split : requests (event :: events) = requests [event] + requests events := by
        rw [requests, requests, requests, ← countP_append]
        rfl
      rcases waiting.step named invariant taken with handed | ⟨waitingAfter, progress⟩
      · refine .inl ?_
        obtain ⟨chunk, member, place⟩ := mem_map.mp handed
        exact mem_map.mpr ⟨chunk, (run_keeps invariantAfter ran).2.2 member, place⟩
      · refine (ih waitingAfter invariantAfter ran).imp_right fun later => ?_
        omega

end

/--
The recorded tables are those of the chunks that were scheduled and have not finished, unless
in a dry run a chunk has finished. If it is not a dry run, the next chunk of a table none of
whose chunks is being loaded is handed out after at most as many requests as the dump has
chunks, and one more for a copy made before.
-/
theorem recorded_of_run {names : List DataName} (named : dump.Named names) {threadsCount : Nat}
    {events : List DataLoadEvent}
    (ran : run (step Double dump transactionalEngines dryRun) (start dump threadsCount)
      events = some state) :
    (state.tablesBeingLoaded.Perm (state.tasks.map (record dump)) ↔
      dryRun = false ∨ state.finished = []) ∧
    (dryRun = false → ∀ (number : Nat) (table : TableDataInfo),
      state.loading.reader.tables[number]? = some table →
      number ∈ state.loading.reader.tablesWithData →
      (∀ chunk ∈ state.tasks, chunk.table ≠ number) →
      ∀ (later : List DataLoadEvent) (final : DataLoad),
        run (step Double dump transactionalEngines dryRun) state later = some final →
        (places dump).length + 1 < requests later →
        (number, table.chunksConsumed) ∈ final.loading.handedOut.map place) := by
  have invariant := invariant_of_run ran
  refine ⟨?_, ?_⟩
  · cases dryRun with
    | false => exact iff_of_true invariant.recorded (.inl rfl)
    | true =>
      have recorded : state.tablesBeingLoaded.Perm
          ((state.finished ++ state.tasks).map (record dump)) := invariant.recorded
      constructor
      · intro same
        have lengths := (recorded.symm.trans same).length_eq
        rw [length_map, length_map, length_append] at lengths
        exact .inr (eq_nil_of_length_eq_zero (by omega))
      · rintro (real | none)
        · cases real
        · rw [none, nil_append] at recorded
          exact recorded
  · rintro rfl number table there member idle later final ranLater many
    obtain ⟨table', there', less⟩ := (invariant.handing.withData number).mp member
    rw [there] at there'
    cases there'
    have waiting : Waiting number table.chunksConsumed state := ⟨⟨table, there, rfl, less⟩, idle⟩
    refine (waiting.run named invariant ranLater).resolve_right fun progress => ?_
    have bound := length_handedOut_le (run_keeps invariant ranLater).1.handing
    have one := Bool.toNat_le (stale dump number state)
    omega

/-- The first chunk of the first partition was loaded; the second one is offered. -/
theorem recorded_of_run_partitions :
    ∃ state final,
      run (step Nat sampleDump ["INNODB".toList] false) (start sampleDump 2)
        (sampleArrivals ++ [.copyTables, .next 0 [0, 1] true, .finish 0]) = some state ∧
      state.tablesBeingLoaded.Perm (state.tasks.map (record sampleDump)) ∧
      run (step Nat sampleDump ["INNODB".toList] false) state
        [.copyTables, .next 0 [0, 1] true, .copyTables, .next 0 [1] true, .copyTables,
          .next 0 [] true, .copyTables, .next 0 [] true, .copyTables, .next 0 [] true] =
            some final ∧
      (0, 1) ∈ final.loading.handedOut.map place := by
  have facts : (run (step Nat sampleDump ["INNODB".toList] false) (start sampleDump 2)
      (sampleArrivals ++ [.copyTables, .next 0 [0, 1] true, .finish 0])).map (fun state =>
        (state.tasks, state.loading.reader.tablesWithData,
          state.loading.reader.tables[0]?.map TableDataInfo.chunksConsumed,
          (run (step Nat sampleDump ["INNODB".toList] false) state
            [.copyTables, .next 0 [0, 1] true, .copyTables, .next 0 [1] true, .copyTables,
              .next 0 [] true, .copyTables, .next 0 [] true, .copyTables,
              .next 0 [] true]).isSome)) = some ([], [0, 1], some 1, true) := by
    decide +kernel
  obtain ⟨state, ran, same⟩ := Option.map_eq_some_iff.mp facts
  simp only [Prod.mk.injEq] at same
  obtain ⟨noTasks, withData, consumed, ends⟩ := same
  obtain ⟨final, ranLater⟩ := Option.isSome_iff_exists.mp ends
  obtain ⟨table, there, one⟩ := Option.map_eq_some_iff.mp consumed
  obtain ⟨recorded, offered⟩ := recorded_of_run sampleDump_named ran
  have handed := offered rfl 0 table there (by rw [withData]; decide)
    (fun chunk member => by rw [noTasks] at member; cases member) _ final ranLater
    (by decide +kernel)
  rw [one] at handed
  exact ⟨state, final, ran, recorded.mpr (.inl rfl), ranLater, handed⟩

/-- In a dry run the second chunk of the first partition is not offered any more. -/
theorem dryRun_keeps_tables :
    ∃ state,
      run (step Nat sampleDump ["INNODB".toList] true) (start sampleDump 2)
        (sampleArrivals ++ [.copyTables, .next 0 [0, 1] true, .finish 0, .copyTables,
          .next 0 [0, 1] true, .finish 0]) = some state ∧
      ¬ state.tablesBeingLoaded.Perm (state.tasks.map (record sampleDump)) ∧
      state.tasks = [] ∧ state.loading.reader.tablesWithData = [0] ∧
      state.loading.reader.scheduleChunkProportionally Nat state.tablesBeingLoaded
        ["INNODB".toList] [0] = none := by
  change ∃ state ∈ (_ : Option _), _
  decide +kernel

end DataLoad

end MariadbShell.Load
