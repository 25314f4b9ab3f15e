import MariadbShell.Lib.Machine
import MariadbShell.Dump.FileNames

/-!
# The reader of a dump

`Dump_reader` looks for the data files of the tables of a dump that is possibly still
being written, and hands out their chunks to the threads that load them. The numbers of
type `double` by which the tables are compared are of an arbitrary type here.
-/

namespace MariadbShell.Load

open Dump (Name getTableDataFilename getTableChunkFilename)

structure FileInfo where
  name : Name
  size : Nat
deriving DecidableEq, Repr

/-- What the metadata says about the data of a table or of a partition. -/
structure TableMetadata where
  key : Name
  basename : Name
  extension : Name
  hasData : Bool
  chunked : Bool
  periodUniqueKey : Bool
  engine : Name
deriving DecidableEq, Repr

/-- `Table_data_info`; `ready` tells whether the schema of the table is. -/
structure TableDataInfo where
  metadata : TableMetadata
  ready : Bool := false
  lastChunkSeen : Bool := false
  chunksSeen : Nat := 0
  availableChunks : List (Option FileInfo) := []
  chunksConsumed : Nat := 0
deriving DecidableEq, Repr

namespace TableDataInfo

variable (table : TableDataInfo)

def consumeChunk : TableDataInfo :=
  { table with chunksConsumed := table.chunksConsumed + 1 }

def hasDataAvailable : Bool :=
  (table.availableChunks[table.chunksConsumed]?).any Option.isSome

def bytesAvailable : Nat :=
  (((table.availableChunks.drop table.chunksConsumed).takeWhile Option.isSome).map
    fun file => (file.map FileInfo.size).getD 0).sum

def allChunksAre (what : Nat) : Bool :=
  ¬ table.metadata.hasData ∨ (table.lastChunkSeen ∧ what = table.availableChunks.length)

def dataDumped : Bool :=
  table.allChunksAre table.chunksSeen

/-! ## Looking for files -/

/-- A file was found: it is put into its place. -/
def addChunk (index : Nat) (lastChunk : Bool) (file : FileInfo) :
    TableDataInfo :=
  let resized :=
    table.availableChunks ++ List.replicate (index + 1 - table.availableChunks.length) none
  { table with
    availableChunks := resized.set index (some file)
    chunksSeen := table.chunksSeen + 1
    lastChunkSeen := table.lastChunkSeen || lastChunk }

def tryToAddChunk (files : List FileInfo) (table : TableDataInfo) (name : Name) (index : Nat)
    (lastChunk : Bool) : Option TableDataInfo :=
  (files.find? (·.name = name)).map (table.addChunk index lastChunk)

def chunkName (index : Nat) (lastChunk : Bool) : Name :=
  getTableChunkFilename table.metadata.basename table.metadata.extension index lastChunk

/-- The chunks that are still missing in front of the last known one. -/
def addMissing (files : List FileInfo) : List Nat → TableDataInfo → TableDataInfo
  | [], table => table
  | index :: indexes, table =>
    if table.availableChunks[index]? = some none then
      addMissing files indexes
        ((tryToAddChunk files table (table.chunkName index false) index false).getD table)
    else addMissing files indexes table

/-- The chunks behind the last known one, up to the first that is not there. -/
def addConsecutive (files : List FileInfo) : Nat → Nat → TableDataInfo → TableDataInfo
  | 0, _, table => table
  | count + 1, index, table =>
    match tryToAddChunk files table (table.chunkName index false) index false with
    | some next => addConsecutive files count (index + 1) next
    | none =>
      (tryToAddChunk files table (table.chunkName index true) index true).getD table

/-- The only file of a table, which is looked for also if the table should have chunks. -/
def addWhole (files : List FileInfo) (table : TableDataInfo) : TableDataInfo :=
  (tryToAddChunk files table
    (getTableDataFilename table.metadata.basename table.metadata.extension) 0 true).getD table

def addChunks (files : List FileInfo) (table : TableDataInfo) : TableDataInfo :=
  let table :=
    if table.chunksSeen < table.availableChunks.length then
      addMissing files (List.range table.availableChunks.length) table
    else table
  if table.lastChunkSeen then table
  else
    addConsecutive files (files.length - table.availableChunks.length)
      table.availableChunks.length table

def rescanData (files : List FileInfo) (table : TableDataInfo) : TableDataInfo :=
  let table := table.addWhole files
  if table.metadata.chunked then table.addChunks files else table

end TableDataInfo

/-! ## The reader -/

/-- The tables are numbered; `tablesWithData` is a set of them. -/
structure DumpReader where
  tables : List TableDataInfo
  tablesWithData : List Nat := []
  threadsCount : Nat
deriving DecidableEq, Repr

structure TableChunk where
  table : Nat
  index : Nat
  chunksTotal : Nat
  file : FileInfo
  dumpComplete : Bool
deriving DecidableEq, Repr

namespace DumpReader

/-- A table is looked at if its schema is ready and not all of its data is known. -/
def rescanTable (files : List FileInfo) (table : TableDataInfo) : TableDataInfo :=
  if table.ready ∧ ¬ table.dataDumped then table.rescanData files else table

/-- `rescan_data`; a chunk was found if the number of chunks has grown. -/
def rescanData (reader : DumpReader) (files : List FileInfo) : DumpReader :=
  let tables := reader.tables.map (rescanTable files)
  let found (index : Nat) : Bool :=
    (reader.tables[index]?.map TableDataInfo.chunksSeen).getD 0 <
      (tables[index]?.map TableDataInfo.chunksSeen).getD 0
  { reader with
    tables
    tablesWithData :=
      reader.tablesWithData ++
        (List.range tables.length).filter fun index =>
          found index ∧ index ∉ reader.tablesWithData }

/-! ## Choosing a table -/

section

variable {Double : Type} [Zero Double] [NatCast Double] [Add Double] [Sub Double] [Div Double]
  [LT Double] [DecidableLT Double] (reader : DumpReader)

structure Candidates where
  best : Option Nat := none
  inProgress : List Nat := []
deriving DecidableEq, Repr

/--
A table is better than the best one if it has more bytes and is in the same state, or if it was
scheduled before and the best one was not.
-/
def isBetter (table : TableDataInfo) (best : Option Nat) : Bool :=
  match best.bind (reader.tables[·]?) with
  | none => true
  | some best =>
    (best.bytesAvailable < table.bytesAvailable ∧
      (table.chunksConsumed = 0 ↔ best.chunksConsumed = 0)) ∨
      (table.chunksConsumed ≠ 0 ∧ best.chunksConsumed = 0)

variable (tablesBeingLoaded : List (Name × Nat))

/-- One turn of the loop that looks for a table that is not being loaded. -/
def consider
    (transactionalEngines : List Name) (candidates : Candidates) (index : Nat) : Candidates :=
  match reader.tables[index]? with
  | none => candidates
  | some table =>
    let inFlight : Bool := tablesBeingLoaded.any (·.1 = table.metadata.key)
    if inFlight ∧ table.metadata.engine ≠ [] ∧
        table.metadata.engine.map Char.toUpper ∉ transactionalEngines then candidates
    else if inFlight ∧ table.metadata.periodUniqueKey then candidates
    else
      let inProgress :=
        if table.chunksConsumed ≠ 0 then candidates.inProgress ++ [index]
        else candidates.inProgress
      ⟨if ¬ inFlight ∧ reader.isBetter table candidates.best then some index
        else candidates.best, inProgress⟩

/-- The bytes of a table that are being loaded, as a part of all of them. -/
def workerWeight (key : Name) : Double :=
  let weight : Double :=
    (tablesBeingLoaded.filter (·.1 = key)).foldl (fun sum loading => sum + (loading.2 : Double)) 0
  let total : Double := ((tablesBeingLoaded.map Prod.snd).sum : Double)
  if 0 < total then weight / total else weight

def bytesOf (index : Nat) : Nat :=
  (reader.tables[index]?.map TableDataInfo.bytesAvailable).getD 0

/-- The table whose part of the available bytes is most ahead of that of the loaded ones. -/
def mostBehind (reader : DumpReader) (tablesBeingLoaded : List (Name × Nat))
    (totalBytesAvailable : Double) : List Nat → Nat → Double → Nat
  | [], best, _ => best
  | index :: indexes, best, bestDiff =>
    let key := (reader.tables[index]?.map (·.metadata.key)).getD []
    let diff := (reader.bytesOf index : Double) / totalBytesAvailable -
      workerWeight tablesBeingLoaded key
    if bestDiff < diff then
      mostBehind reader tablesBeingLoaded totalBytesAvailable indexes index diff
    else mostBehind reader tablesBeingLoaded totalBytesAvailable indexes best bestDiff

variable (Double)

/-- Of the tables in progress, one is chosen by the bytes it has. -/
def scheduleInProgress (inProgress : List Nat) : Option Nat :=
  match inProgress with
  | [] => none
  | first :: rest =>
    let total : Double := (((first :: rest).map reader.bytesOf).sum : Double)
    if 0 < total then
      some (reader.mostBehind tablesBeingLoaded total (first :: rest) first 0)
    else some first

/--
`schedule_chunk_proportionally`; the tables with data are visited in the given order.
-/
def scheduleChunkProportionally
    (transactionalEngines : List Name) (order : List Nat) : Option Nat :=
  let candidates := order.foldl (reader.consider tablesBeingLoaded transactionalEngines) {}
  match candidates.best with
  | none => reader.scheduleInProgress Double tablesBeingLoaded candidates.inProgress
  | some best =>
    if candidates.inProgress.length < reader.threadsCount ∨
        (reader.tables[best]?.map TableDataInfo.chunksConsumed).getD 0 ≠ 0 then some best
    else reader.scheduleInProgress Double tablesBeingLoaded candidates.inProgress

/-- The answer to a request: a chunk, none, or the exception that there is no such chunk. -/
inductive Answer where
  | chunk (chunk : TableChunk) (reader : DumpReader)
  | nothing
  | notAvailable

def nextTableChunk (transactionalEngines : List Name) (order : List Nat) : Answer :=
  match reader.scheduleChunkProportionally Double tablesBeingLoaded transactionalEngines order with
  | none => .nothing
  | some number =>
    match reader.tables[number]? with
    | none => .notAvailable
    | some table =>
      match table.availableChunks[table.chunksConsumed]? with
      | some (some file) =>
        let chunk : TableChunk :=
          { table := number
            index := table.chunksConsumed
            chunksTotal :=
              if table.lastChunkSeen then table.availableChunks.length else 0
            file
            dumpComplete := table.dataDumped }
        .chunk chunk
          { reader with
            tables := reader.tables.set number table.consumeChunk
            tablesWithData :=
              if table.consumeChunk.hasDataAvailable then reader.tablesWithData
              else reader.tablesWithData.erase number }
      | _ => .notAvailable

end

end DumpReader

/-! ## The dump and its reader -/

/-- The data of a table is in one file, or in a number of chunks of which one is the last. -/
inductive Layout where
  | whole
  | chunks (more : Nat)
deriving DecidableEq, Repr

def Layout.count : Layout → Nat
  | .whole => 1
  | .chunks more => more + 1

def Layout.fileName (metadata : TableMetadata) (index : Nat) : Layout → Name
  | .whole => getTableDataFilename metadata.basename metadata.extension
  | .chunks more => getTableChunkFilename metadata.basename metadata.extension index (index = more)

/--
The directory of a dump. Of the names that the reader looks for, those that belong to
files of the dump are those of the data files of the table.
-/
structure DumpDirectory where
  tables : List (TableMetadata × Layout)
  names : List Name
  whole : ∀ table ∈ tables, table.1.chunked = false → table.2 = .whole
  wholeFile : ∀ table ∈ tables,
    getTableDataFilename table.1.basename table.1.extension ∈ names → table.2 = .whole
  chunkFile : ∀ table ∈ tables, ∀ index lastChunk,
    getTableChunkFilename table.1.basename table.1.extension index lastChunk ∈ names →
      ∃ more, table.2 = .chunks more ∧ index ≤ more ∧ lastChunk = decide (index = more)

/-- A reader, the files it can see, and the chunks it has handed out. -/
structure Loading where
  reader : DumpReader
  visible : List FileInfo := []
  handedOut : List TableChunk := []
  failed : Bool := false

inductive LoadingEvent where
  /-- Files become visible. -/
  | appear (files : List FileInfo)
  /-- The schema of a table gets ready. -/
  | ready (table : Nat)
  /-- The directory is listed. -/
  | rescan
  /-- A worker asks for a chunk; the tables with data are visited in the given order. -/
  | request (worker : Nat) (tablesBeingLoaded : List (Name × Nat))
      (transactionalEngines : List Name) (order : List Nat)

namespace Loading

/-- The files can appear: they belong to the dump and were not there before. -/
def CanAppear (dump : DumpDirectory) (state : Loading) (files : List FileInfo) : Prop :=
  (∀ file ∈ files, file.name ∈ dump.names) ∧ ((state.visible ++ files).map FileInfo.name).Nodup

instance (dump : DumpDirectory) (state : Loading) (files : List FileInfo) :
    Decidable (CanAppear dump state files) :=
  inferInstanceAs (Decidable (_ ∧ _))

def step (Double : Type) [Zero Double] [NatCast Double] [Add Double] [Sub Double] [Div Double]
    [LT Double] [DecidableLT Double] (dump : DumpDirectory) (state : Loading) :
    LoadingEvent → Option Loading
  | .appear files =>
    if CanAppear dump state files then some { state with visible := state.visible ++ files }
    else none
  | .ready number =>
    some
      { state with
        reader :=
          { state.reader with
            tables := state.reader.tables.modify number fun table =>
              { table with ready := true } } }
  | .rescan => some { state with reader := state.reader.rescanData state.visible }
  | .request worker tablesBeingLoaded transactionalEngines order =>
    if worker < state.reader.threadsCount ∧ order.Perm state.reader.tablesWithData then
      match state.reader.nextTableChunk Double tablesBeingLoaded transactionalEngines order with
      | .chunk chunk reader =>
        some { state with reader, handedOut := state.handedOut ++ [chunk] }
      | .nothing => some state
      | .notAvailable => some { state with failed := true }
    else none

/-- Nothing is known about the data of the tables yet. -/
def start (dump : DumpDirectory) (threadsCount : Nat) : Loading where
  reader := { tables := dump.tables.map fun table => { metadata := table.1 }, threadsCount }

end Loading

end MariadbShell.Load
