import MariadbShell.Load.DumpReader
import MariadbShell.Dump.DistinctNames

/-!
# Every chunk is handed out once

The chunks that the reader knows of a table are always the first ones, without a gap, and
those handed out are the first of them. A request is refused, while nothing is being
loaded, only if no table has a chunk left.
-/

namespace MariadbShell.Load

open List
open Lib TableDataInfo DumpReader Dump Layout TableChunk Machine DataFiles SchemaInfo

variable {Double : Type} [Zero Double] [NatCast Double] [Add Double] [Sub Double] [Div Double]
  [LT Double] [DecidableLT Double]

/-! ## The directory of a dump -/

/-- The chunks of the data are numbered, and the last one is marked. -/
def Numbered (data : Dump.DataFiles) : Prop :=
  ∀ numbers, data.chunks = some numbers →
    ∃ more, numbers = (List.range more).map (·, false) ++ [(more, true)]

def layoutOf (data : Dump.DataFiles) : Layout :=
  match data.chunks with
  | none => .whole
  | some numbers => .chunks (numbers.length - 1)

/-- What the metadata says about the data of an object, besides of what the files tell. -/
structure Attributes where
  key : Name
  periodUniqueKey : Bool
  engine : Name
deriving DecidableEq, Repr

/-- The metadata of an object and the layout of its data. -/
def describe (attributes : Dump.Entry → Attributes) (task : Dump.Entry × Name)
    (data : Dump.DataFiles) : TableMetadata × Layout where
  fst :=
    { key := (attributes task.1).key
      basename := task.2
      extension := dataFileExtension data.format data.compression
      hasData := true
      chunked := data.chunks.isSome
      periodUniqueKey := (attributes task.1).periodUniqueKey
      engine := (attributes task.1).engine }
  snd := layoutOf data

theorem layoutOf_whole {data : Dump.DataFiles} (plain : none ∈ data.bases) :
    layoutOf data = .whole := by
  cases chunks_eq : data.chunks with
  | none => simp only [layoutOf, chunks_eq]
  | some numbers => simp [bases, chunks_eq] at plain

variable {index : Nat}

theorem layoutOf_chunks {data : Dump.DataFiles} (numbered : Numbered data) {lastChunk : Bool}
    (chunk : some (index, lastChunk) ∈ data.bases) :
    ∃ more, layoutOf data = .chunks more ∧ index ≤ more ∧ lastChunk = decide (index = more) := by
  cases chunks_eq : data.chunks with
  | none => simp [bases, chunks_eq] at chunk
  | some numbers =>
    obtain ⟨more, rfl⟩ := numbered numbers chunks_eq
    refine ⟨more, by simp [layoutOf, chunks_eq], ?_⟩
    simp only [bases, chunks_eq, map_append, map_map, map_singleton, mem_append, mem_map,
      mem_range, Function.comp_apply, Option.some.injEq, Prod.mk.injEq, mem_singleton]
      at chunk
    rcases chunk with ⟨other, small, rfl, rfl⟩ | ⟨rfl, rfl⟩
    · exact ⟨Nat.le_of_lt small, (decide_eq_false (Nat.ne_of_lt small)).symm⟩
    · exact ⟨Nat.le_refl _, (decide_eq_true rfl).symm⟩

/-- The files that a dump writes are the directory of a dump. -/
def DumpDirectory.ofDump (options : Dump.FileOptions) (schemas : List Dump.SchemaInfo)
    (attributes : Dump.Entry → Attributes)
    (distinct : ((schemas.flatMap entries).map Dump.Entry.path).Nodup)
    (numbered : ∀ entry ∈ schemas.flatMap entries, ∀ data,
      entry.data? = some data → Numbered data) : DumpDirectory where
  tables :=
    (createSchemaTasks { maxLength := maxBasenameLength }
      (schemas.flatMap entries)).filterMap fun task =>
        task.1.data?.map (describe attributes task)
  names := dumpFiles options schemas
  whole := by
    intro table member notChunked
    obtain ⟨task, -, described⟩ := mem_filterMap.mp member
    obtain ⟨data, -, rfl⟩ := Option.map_eq_some_iff.mp described
    have chunks : data.chunks = none := by simpa [describe] using notChunked
    simp only [describe, layoutOf, chunks]
  wholeFile := by
    intro table member there
    obtain ⟨task, isTask, described⟩ := mem_filterMap.mp member
    obtain ⟨data, hasData, rfl⟩ := Option.map_eq_some_iff.mp described
    have exists_ : task.2 ++ (Dump.Tail.mk none (.data data.format data.compression false)).text ∈
        dumpFiles options schemas := by
      rw [text_data, markText, append_nil]
      exact there
    exact layoutOf_whole (data_name_owned distinct isTask hasData exists_)
  chunkFile := by
    intro table member index lastChunk there
    obtain ⟨task, isTask, described⟩ := mem_filterMap.mp member
    obtain ⟨data, hasData, rfl⟩ := Option.map_eq_some_iff.mp described
    have inside := (createSchemaTasks_shaped isTask).1
    have exists_ : task.2 ++ (Dump.Tail.mk (some (index, lastChunk))
        (.data data.format data.compression false)).text ∈ dumpFiles options schemas := by
      rw [text_data]
      exact there
    exact layoutOf_chunks (numbered task.1 inside data hasData)
      (data_name_owned distinct isTask hasData exists_)

/-! ## The data of a table -/

/-- What the reader knows about the data of a table. -/
structure Known (visible : List FileInfo) (metadata : TableMetadata) (layout : Layout)
    (table : TableDataInfo) : Prop where
  described : table.metadata = metadata
  noGap : table.availableChunks.length = table.chunksSeen
  seen : ∀ index < table.chunksSeen, ∃ file ∈ visible,
    table.availableChunks[index]? = some (some file) ∧ file.name = layout.fileName metadata index
  count : table.chunksSeen ≤ layout.count
  last : table.lastChunkSeen = true ↔ table.chunksSeen = layout.count
  consumed : table.chunksConsumed ≤ table.chunksSeen

/-- The names a table looks for, where they exist, are those of its own files. -/
structure Owned (visible : List FileInfo) (metadata : TableMetadata) (layout : Layout) : Prop where
  whole : metadata.chunked = false → layout = .whole
  wholeFile : ∀ file ∈ visible,
    file.name = getTableDataFilename metadata.basename metadata.extension → layout = .whole
  chunkFile : ∀ file ∈ visible, ∀ index lastChunk,
    file.name = getTableChunkFilename metadata.basename metadata.extension index lastChunk →
      ∃ more, layout = .chunks more ∧ index ≤ more ∧ lastChunk = decide (index = more)

theorem DumpDirectory.owned (dump : DumpDirectory) {visible : List FileInfo}
    (inside : ∀ file ∈ visible, file.name ∈ dump.names) {table : TableMetadata × Layout}
    (member : table ∈ dump.tables) : Owned visible table.1 table.2 where
  whole := dump.whole table member
  wholeFile file there named := dump.wholeFile table member (named ▸ inside file there)
  chunkFile file there index lastChunk named :=
    dump.chunkFile table member index lastChunk (named ▸ inside file there)

theorem Layout.count_pos (layout : Layout) : 0 < layout.count := by
  cases layout with
  | whole => exact Nat.one_pos
  | chunks more => exact Nat.succ_pos more

namespace Known

variable {visible : List FileInfo} {metadata : TableMetadata} {layout : Layout}
  {table : TableDataInfo}

variable {lastChunk : Bool} {next : TableDataInfo}

section

variable (known : Known visible metadata layout table)

include known

theorem mono {more : List FileInfo} : Known (visible ++ more) metadata layout table :=
  { known with
    seen := by
      intro index small
      obtain ⟨file, there, chunk, named⟩ := known.seen index small
      exact ⟨file, mem_append_left more there, chunk, named⟩ }

theorem addChunk_available (lastChunk : Bool) (file : FileInfo) :
    (table.addChunk table.chunksSeen lastChunk file).availableChunks =
      table.availableChunks ++ [some file] := by
  have length := known.noGap
  simp only [addChunk]
  rw [length, Nat.add_sub_cancel_left, replicate_one, ← length,
    set_append_right _ _ (Nat.le_refl _), Nat.sub_self, set_cons_zero]

/-- The next file of the table is put behind those that are known. -/
theorem addChunk {file : FileInfo} (there : file ∈ visible)
    (named : file.name = layout.fileName metadata table.chunksSeen)
    (small : table.chunksSeen < layout.count)
    (marked : lastChunk = true ↔ table.chunksSeen + 1 = layout.count) :
    Known visible metadata layout (table.addChunk table.chunksSeen lastChunk file) where
  described := known.described
  noGap := by
    rw [known.addChunk_available, length_append, known.noGap]
    rfl
  seen := by
    intro index inside
    have length := known.noGap
    rw [known.addChunk_available]
    rcases Nat.lt_succ_iff_lt_or_eq.mp inside with before | rfl
    · obtain ⟨old, oldThere, chunk, oldNamed⟩ := known.seen index before
      refine ⟨old, oldThere, ?_, oldNamed⟩
      rw [getElem?_append_left (length ▸ before)]
      exact chunk
    · refine ⟨file, there, ?_, named⟩
      rw [getElem?_append_right (Nat.le_of_eq length), length, Nat.sub_self]
      rfl
  count := small
  last := by
    have notYet : table.lastChunkSeen = false := by
      rw [Bool.eq_false_iff]
      intro already
      exact Nat.ne_of_lt small (known.last.mp already)
    simp only [TableDataInfo.addChunk, notYet, Bool.false_or]
    exact marked
  consumed := Nat.le_succ_of_le known.consumed

theorem hasDataAvailable_iff :
    table.hasDataAvailable = true ↔ table.chunksConsumed < table.chunksSeen := by
  unfold hasDataAvailable
  constructor
  · intro available
    by_contra beyond
    rw [getElem?_eq_none (by have := known.noGap; omega)] at available
    cases available
  · intro before
    obtain ⟨file, -, chunk, -⟩ := known.seen _ before
    rw [chunk]
    rfl

theorem dataDumped_iff :
    table.dataDumped = true ↔ metadata.hasData = false ∨ table.lastChunkSeen = true := by
  unfold dataDumped allChunksAre
  rw [known.described, known.noGap]
  simp

theorem notLast_of_not_dumped (missing : ¬ table.dataDumped = true) :
    table.lastChunkSeen = false := by
  rw [Bool.eq_false_iff]
  intro last
  exact missing (known.dataDumped_iff.mpr (.inr last))

theorem few (notLast : table.lastChunkSeen = false) : table.chunksSeen < layout.count := by
  refine Nat.lt_of_le_of_ne known.count ?_
  intro all
  rw [known.last.mpr all] at notLast
  cases notLast

theorem addChunks_eq : table.addChunks visible = if table.lastChunkSeen then table
    else TableDataInfo.addConsecutive visible (visible.length - table.chunksSeen)
      table.chunksSeen table := by
  unfold addChunks
  simp only [Nat.lt_irrefl, if_false, known.noGap]

end

/-! ## Looking for files -/

/-- More files of a table are known. -/
structure Grown (visible : List FileInfo) (metadata : TableMetadata) (layout : Layout)
    (table next : TableDataInfo) : Prop where
  known : Known visible metadata layout next
  seen : table.chunksSeen ≤ next.chunksSeen
  consumed : next.chunksConsumed = table.chunksConsumed
  kept : table.availableChunks <+: next.availableChunks

theorem Grown.trans {later : TableDataInfo} (first : Grown visible metadata layout table next)
    (second : Grown visible metadata layout next later) :
    Grown visible metadata layout table later :=
  ⟨second.known, Nat.le_trans first.seen second.seen, second.consumed.trans first.consumed,
    first.kept.trans second.kept⟩

theorem Grown.file (grown : Grown visible metadata layout table next) {file : Option FileInfo}
    (before : table.availableChunks[index]? = some file) :
    next.availableChunks[index]? = some file := by
  obtain ⟨new, all⟩ := grown.kept
  rw [← all, getElem?_append_left (List.getElem?_eq_some_iff.mp before).1]
  exact before

theorem fileName_inj {more index index' : Nat} {metadata : TableMetadata}
    (same : fileName metadata index (.chunks more) =
      fileName metadata index' (.chunks more)) : index = index' := by
  have marks : metadata.basename ++ markText (some (index, decide (index = more))) =
      metadata.basename ++ markText (some (index', decide (index' = more))) :=
    append_cancel_right same
  rcases marked_eq marks with ⟨-, chunks⟩ | ⟨rest, longer⟩ | ⟨rest, longer⟩
  · exact (Prod.mk.inj (Option.some.inj chunks)).1
  · simpa using congrArg List.length longer
  · simpa using congrArg List.length longer

/-- A directory that has all files of a table has at least as many. -/
theorem count_le_length {more : Nat}
    (complete : ∀ index ≤ more, ∃ file ∈ visible,
      file.name = fileName metadata index (.chunks more)) :
    more < visible.length := by
  have distinct : ((List.range (more + 1)).map fun index =>
      fileName metadata index (.chunks more)).Nodup :=
    List.Nodup.map (fun _ _ same => fileName_inj same) nodup_range
  have inside : ((List.range (more + 1)).map fun index =>
      fileName metadata index (.chunks more)) ⊆ visible.map FileInfo.name := by
    intro name member
    obtain ⟨index, small, rfl⟩ := mem_map.mp member
    obtain ⟨file, there, named⟩ := complete index (Nat.lt_succ_iff.mp (mem_range.mp small))
    exact mem_map.mpr ⟨file, there, named⟩
  have bound := (subperm_of_subset distinct inside).length_le
  rw [length_map, length_map, length_range] at bound
  exact bound

theorem tryToAddChunk_ne_none {name : Name} {file : FileInfo} (there : file ∈ visible)
    (named : file.name = name) : table.tryToAddChunk visible name index lastChunk ≠ none := by
  unfold TableDataInfo.tryToAddChunk
  rw [ne_eq, Option.map_eq_none_iff, find?_eq_none]
  intro missing
  exact missing file there (by simpa using named)

section

variable (known : Known visible metadata layout table)

include known

theorem Grown.refl : Grown visible metadata layout table table :=
  ⟨known, Nat.le_refl _, rfl, prefix_refl _⟩

theorem tryToAddChunk {name : Name}
    (added : table.tryToAddChunk visible name index lastChunk = some next)
    (owned : ∀ file ∈ visible, file.name = name → index = table.chunksSeen ∧
      name = layout.fileName metadata index ∧ index < layout.count ∧
      (lastChunk = true ↔ index + 1 = layout.count)) :
    Grown visible metadata layout table next ∧ next.chunksSeen = table.chunksSeen + 1 ∧
      next.lastChunkSeen = (table.lastChunkSeen || lastChunk) := by
  obtain ⟨file, found, rfl⟩ := Option.map_eq_some_iff.mp added
  have there := mem_of_find?_eq_some found
  have named : file.name = name := by simpa using find?_some found
  obtain ⟨rfl, same, small, marked⟩ := owned file there named
  have added := known.addChunk there (named.trans same) small marked
  have kept := prefix_append table.availableChunks [some file]
  rw [← known.addChunk_available lastChunk] at kept
  exact ⟨⟨added, Nat.le_succ _, rfl, kept⟩, rfl, rfl⟩

variable (owned : Owned visible metadata layout)

include owned

/-- A chunk with the next number is the next one of the table. -/
theorem tryToAddNext
    (added : table.tryToAddChunk visible (table.chunkName table.chunksSeen lastChunk)
      table.chunksSeen lastChunk = some next) :
    Grown visible metadata layout table next ∧ next.chunksSeen = table.chunksSeen + 1 ∧
      next.lastChunkSeen = (table.lastChunkSeen || lastChunk) := by
  refine known.tryToAddChunk added ?_
  intro file there named
  unfold chunkName at named ⊢
  rw [known.described] at named ⊢
  obtain ⟨more, rfl, small, rfl⟩ := owned.chunkFile file there _ _ named
  refine ⟨rfl, rfl, Nat.lt_succ_of_le small, ?_⟩
  simp [Layout.count]

theorem addConsecutive (count : Nat) : Grown visible metadata layout table
    (addConsecutive visible count table.chunksSeen table) := by
  induction count generalizing table with
  | zero => exact Grown.refl known
  | succ count ih =>
    unfold TableDataInfo.addConsecutive
    cases added : table.tryToAddChunk visible (table.chunkName table.chunksSeen false)
        table.chunksSeen false with
    | some next =>
      obtain ⟨grown, seen, -⟩ := known.tryToAddNext owned added
      have later := ih grown.known
      rw [seen] at later
      exact grown.trans later
    | none =>
      cases final : table.tryToAddChunk visible (table.chunkName table.chunksSeen true)
          table.chunksSeen true with
      | none => exact Grown.refl known
      | some next => exact (known.tryToAddNext owned final).1

/-- If all files of a table are there, the search ends with the last of them. -/
theorem addConsecutive_last {more : Nat} (chunked : layout = .chunks more)
    (complete : ∀ index ≤ more, ∃ file ∈ visible, file.name = layout.fileName metadata index)
    (count : Nat) (notYet : table.chunksSeen ≤ more)
    (enough : more < table.chunksSeen + count) :
    (TableDataInfo.addConsecutive visible count table.chunksSeen table).lastChunkSeen = true := by
  induction count generalizing table with
  | zero => omega
  | succ count ih =>
    obtain ⟨file, there, named⟩ := complete table.chunksSeen notYet
    unfold TableDataInfo.addConsecutive
    cases added : table.tryToAddChunk visible (table.chunkName table.chunksSeen false)
        table.chunksSeen false with
    | some next =>
      obtain ⟨grown, seen, marked⟩ := known.tryToAddNext owned added
      have still : next.chunksSeen ≤ more := by
        have bound := grown.known.count
        have last := grown.known.last
        have before : ¬ table.lastChunkSeen = true := by
          rw [known.last, chunked]
          simp only [Layout.count]
          omega
        rw [marked, Bool.or_false, chunked] at last
        simp only [Layout.count] at bound last
        have := mt last.mpr before
        omega
      have later := ih grown.known still (by omega)
      rw [seen] at later
      exact later
    | none =>
      have called : file.name =
          table.chunkName table.chunksSeen (decide (table.chunksSeen = more)) := by
        rw [named, chunked, chunkName, known.described]
        rfl
      rcases Nat.lt_or_eq_of_le notYet with before | isLast
      · rw [decide_eq_false (Nat.ne_of_lt before)] at called
        exact absurd added (tryToAddChunk_ne_none there called)
      · rw [decide_eq_true isLast] at called
        obtain ⟨next, final⟩ := Option.ne_none_iff_exists'.mp (tryToAddChunk_ne_none there called)
        obtain ⟨-, -, marked⟩ := known.tryToAddNext owned final
        rw [final, Option.getD_some, marked, Bool.or_true]

theorem addChunks : Grown visible metadata layout table (table.addChunks visible) := by
  rw [known.addChunks_eq]
  split
  · exact Grown.refl known
  · exact known.addConsecutive owned _

variable (notLast : table.lastChunkSeen = false)

include notLast

theorem tryToAddWhole
    (added : table.tryToAddChunk visible
      (getTableDataFilename table.metadata.basename table.metadata.extension) 0 true = some next) :
    Grown visible metadata layout table next ∧ next.lastChunkSeen = true := by
  have grown := known.tryToAddChunk added (by
    intro file there named
    rw [known.described] at named ⊢
    obtain rfl := owned.wholeFile file there named
    have first : table.chunksSeen = 0 := Nat.lt_one_iff.mp (known.few notLast)
    exact ⟨first.symm, rfl, Nat.one_pos, by simp [Layout.count]⟩)
  exact ⟨grown.1, by rw [grown.2.2, Bool.or_true]⟩

theorem addWhole : Grown visible metadata layout table (table.addWhole visible) := by
  unfold TableDataInfo.addWhole
  cases added : table.tryToAddChunk visible
      (getTableDataFilename table.metadata.basename table.metadata.extension) 0 true with
  | none => exact Grown.refl known
  | some next => exact (known.tryToAddWhole owned notLast added).1

theorem addWhole_last {file : FileInfo} (there : file ∈ visible)
    (named : file.name = getTableDataFilename metadata.basename metadata.extension) :
    (table.addWhole visible).lastChunkSeen = true := by
  rw [← known.described] at named
  unfold TableDataInfo.addWhole
  cases added : table.tryToAddChunk visible
      (getTableDataFilename table.metadata.basename table.metadata.extension) 0 true with
  | none => exact absurd added (tryToAddChunk_ne_none there named)
  | some next => exact (known.tryToAddWhole owned notLast added).2

/-- Scanning for the files of a table whose last chunk is not known. -/
theorem rescanData : Grown visible metadata layout table (table.rescanData visible) := by
  have whole := known.addWhole owned notLast
  unfold TableDataInfo.rescanData
  simp only
  split
  · exact whole.trans (whole.known.addChunks owned)
  · exact whole

/-- A scan that finds all files of a table finds the last one. -/
theorem rescanData_last (complete : ∀ index < layout.count, ∃ file ∈ visible,
      file.name = layout.fileName metadata index) :
    (table.rescanData visible).lastChunkSeen = true := by
  have whole := known.addWhole owned notLast
  unfold TableDataInfo.rescanData
  simp only [whole.known.described]
  cases layout with
  | whole =>
    obtain ⟨file, there, named⟩ := complete 0 Nat.one_pos
    have found := known.addWhole_last owned notLast there named
    split
    · rw [whole.known.addChunks_eq, if_pos found]
      exact found
    · exact found
  | chunks more =>
    have chunked : metadata.chunked = true := by
      rw [← Bool.not_eq_false]
      intro isWhole
      cases owned.whole isWhole
    have complete' : ∀ index ≤ more, _ := fun index small =>
      complete index (Nat.lt_succ_of_le small)
    have enough := count_le_length complete'
    rw [if_pos chunked, whole.known.addChunks_eq]
    split
    · assumption
    · rename_i still
      have few := whole.known.few (Bool.eq_false_iff.mpr still)
      exact whole.known.addConsecutive_last owned rfl complete' _ (Nat.lt_succ_iff.mp few)
        (by omega)

omit notLast in
theorem rescanTable_grown : Grown visible metadata layout table (rescanTable visible table) := by
  unfold rescanTable
  split
  · next needed => exact known.rescanData owned (known.notLast_of_not_dumped needed.2)
  · exact Grown.refl known

end

end Known

/-! ## Choosing a table -/

/-- The engine of the table is not transactional, or the table has a period unique key. -/
def TableMetadata.loadedSerially (transactionalEngines : List Name) (metadata : TableMetadata) :
    Bool :=
  (metadata.engine ≠ [] ∧ metadata.engine.map Char.toUpper ∉ transactionalEngines) ∨
    metadata.periodUniqueKey = true

namespace DumpReader

variable {reader : DumpReader} {tablesBeingLoaded : List (Name × Nat)}
  {transactionalEngines : List Name}

/-- A table can be chosen: none of its chunks is being loaded, or several may be. -/
def Eligible (tablesBeingLoaded : List (Name × Nat)) (transactionalEngines : List Name)
    (table : TableDataInfo) : Prop :=
  tablesBeingLoaded.any (·.1 = table.metadata.key) = true →
    table.metadata.loadedSerially transactionalEngines = false

variable {candidates : Candidates} {table : TableDataInfo}

/-- Nothing changes with a table that cannot be chosen. -/
theorem consider_cases (index : Nat) :
    reader.consider tablesBeingLoaded transactionalEngines candidates index = candidates ∨
      ∃ table, reader.tables[index]? = some table ∧
        Eligible tablesBeingLoaded transactionalEngines table := by
  cases there : reader.tables[index]? with
  | none => exact .inl (by simp only [consider, there])
  | some table =>
    by_cases eligible : Eligible tablesBeingLoaded transactionalEngines table
    · exact .inr ⟨table, rfl, eligible⟩
    · simp only [Eligible, Classical.not_imp, Bool.not_eq_false, TableMetadata.loadedSerially,
        decide_eq_true_eq] at eligible
      obtain ⟨inFlight, serial⟩ := eligible
      refine .inl ?_
      simp only [consider, there, inFlight, true_and]
      split
      · rfl
      · next transactional => rw [if_pos (serial.resolve_left transactional)]

theorem consider_of_eligible (there : reader.tables[index]? = some table)
    (eligible : Eligible tablesBeingLoaded transactionalEngines table) :
    reader.consider tablesBeingLoaded transactionalEngines candidates index =
      ⟨if ¬ tablesBeingLoaded.any (·.1 = table.metadata.key) = true ∧
            reader.isBetter table candidates.best then some index else candidates.best,
        if table.chunksConsumed ≠ 0 then candidates.inProgress ++ [index]
        else candidates.inProgress⟩ := by
  cases inFlight : tablesBeingLoaded.any (·.1 = table.metadata.key) with
  | false => simp only [consider, there, inFlight, Bool.false_eq_true, false_and, if_false]
  | true =>
    have several := eligible inFlight
    simp only [TableMetadata.loadedSerially, decide_eq_false_iff_not, not_or] at several
    simp only [consider, there, inFlight, true_and, if_neg several.1, if_neg several.2]

structure Candidates.All (candidates : Candidates) (property : Nat → Prop) : Prop where
  best : ∀ index, candidates.best = some index → property index
  inProgress : ∀ index ∈ candidates.inProgress, property index

variable {indexes : List Nat}

/-- What holds for the tables that can be chosen holds for the candidates. -/
theorem foldl_consider_all {property : Nat → Prop} (all : candidates.All property)
    (holds : ∀ index ∈ indexes, ∀ table, reader.tables[index]? = some table →
      Eligible tablesBeingLoaded transactionalEngines table → property index) :
    (indexes.foldl (reader.consider tablesBeingLoaded transactionalEngines)
      candidates).All property := by
  induction indexes generalizing candidates with
  | nil => exact all
  | cons index indexes ih =>
    refine ih ?_ fun other member => holds other (mem_cons_of_mem _ member)
    obtain same | ⟨table, there, eligible⟩ := consider_cases index
    · rw [same]
      exact all
    have here := holds index mem_cons_self table there eligible
    rw [consider_of_eligible there eligible]
    refine ⟨fun best chosen => ?_, fun other started => ?_⟩
    · dsimp only at chosen
      split at chosen
      · cases chosen
        exact here
      · exact all.best best chosen
    · dsimp only at started
      split at started
      · rcases mem_append.mp started with before | last
        · exact all.inProgress other before
        · rw [mem_singleton.mp last]
          exact here
      · exact all.inProgress other started

def Candidates.Some (candidates : Candidates) : Prop :=
  candidates.best ≠ none ∨ candidates.inProgress ≠ []

theorem consider_some (found : candidates.Some) (index : Nat) :
    (reader.consider tablesBeingLoaded transactionalEngines candidates index).Some := by
  obtain same | ⟨table, there, eligible⟩ := consider_cases index
  · rw [same]
    exact found
  rw [consider_of_eligible there eligible]
  rcases found with best | inProgress
  · refine .inl ?_
    split
    · exact Option.some_ne_none index
    · exact best
  · refine .inr ?_
    dsimp only
    split
    · exact append_ne_nil_of_left_ne_nil inProgress _
    · exact inProgress

/-- A table that can be chosen is a candidate, unless it is only being loaded elsewhere. -/
theorem foldl_consider_some (there : reader.tables[index]? = some table)
    (eligible : Eligible tablesBeingLoaded transactionalEngines table)
    (started : tablesBeingLoaded.any (·.1 = table.metadata.key) = true → table.chunksConsumed ≠ 0)
    (found : index ∈ indexes ∨ candidates.Some) :
    (indexes.foldl (reader.consider tablesBeingLoaded transactionalEngines) candidates).Some := by
  induction indexes generalizing candidates with
  | nil => exact found.resolve_left not_mem_nil
  | cons first indexes ih =>
    refine ih ?_
    rcases found with member | already
    · rcases mem_cons.mp member with rfl | later
      · refine .inr ?_
        rw [consider_of_eligible there eligible]
        cases inFlight : tablesBeingLoaded.any (·.1 = table.metadata.key) with
        | true =>
          refine .inr ?_
          rw [if_pos (started inFlight)]
          exact append_ne_nil_of_right_ne_nil _ (cons_ne_nil _ _)
        | false =>
          refine .inl ?_
          cases best : candidates.best with
          | none => simp [isBetter]
          | some other =>
            split
            · exact Option.some_ne_none index
            · exact Option.some_ne_none other
      · exact .inl later
    · exact .inr (consider_some already first)

section

variable {inProgress : List Nat}

theorem mostBehind_mem {best : Nat} (total bestDiff : Double) (isBest : best ∈ inProgress)
    (inside : indexes ⊆ inProgress) :
    reader.mostBehind tablesBeingLoaded total indexes best bestDiff ∈ inProgress := by
  induction indexes generalizing best bestDiff with
  | nil => exact isBest
  | cons index indexes ih =>
    have later : indexes ⊆ inProgress := fun _ member => inside (mem_cons_of_mem _ member)
    unfold mostBehind
    simp only
    split
    · exact ih _ (inside mem_cons_self) later
    · exact ih _ isBest later

theorem scheduleInProgress_mem
    (chosen : reader.scheduleInProgress Double tablesBeingLoaded inProgress = some index) :
    index ∈ inProgress := by
  unfold scheduleInProgress at chosen
  cases inProgress with
  | nil => cases chosen
  | cons first rest =>
    simp only at chosen
    split at chosen
    · cases chosen
      exact mostBehind_mem _ _ mem_cons_self (List.Subset.refl _)
    · cases chosen
      exact mem_cons_self

/-- Only a table with data that can be chosen is chosen. -/
theorem schedule_spec {order : List Nat}
    (chosen : reader.scheduleChunkProportionally Double tablesBeingLoaded transactionalEngines
      order = some index) :
    index ∈ order ∧ ∀ table, reader.tables[index]? = some table →
      Eligible tablesBeingLoaded transactionalEngines table := by
  have all : (order.foldl (reader.consider tablesBeingLoaded transactionalEngines) {}).All
      fun index => index ∈ order ∧ ∀ table, reader.tables[index]? = some table →
        Eligible tablesBeingLoaded transactionalEngines table := by
    refine foldl_consider_all ⟨by simp, by simp⟩ fun index member table there eligible => ?_
    refine ⟨member, fun other same => ?_⟩
    rw [there] at same
    cases same
    exact eligible
  unfold scheduleChunkProportionally at chosen
  simp only at chosen
  split at chosen
  · exact all.inProgress index (scheduleInProgress_mem chosen)
  · rename_i best isBest
    split at chosen
    · exact all.best index (isBest.trans chosen)
    · exact all.inProgress index (scheduleInProgress_mem chosen)

theorem scheduleInProgress_ne_none (started : inProgress ≠ []) :
    reader.scheduleInProgress Double tablesBeingLoaded inProgress ≠ none := by
  unfold scheduleInProgress
  split
  · exact absurd rfl started
  · simp only
    split
    · exact Option.some_ne_none _
    · exact Option.some_ne_none _

/-- Some table is chosen if there is one that can be. -/
theorem schedule_ne_none {order : List Nat} (threads : 0 < reader.threadsCount)
    (member : index ∈ order) (there : reader.tables[index]? = some table)
    (eligible : Eligible tablesBeingLoaded transactionalEngines table)
    (started : tablesBeingLoaded.any (·.1 = table.metadata.key) = true → table.chunksConsumed ≠ 0) :
    reader.scheduleChunkProportionally Double tablesBeingLoaded transactionalEngines order ≠
      none := by
  have found : (order.foldl (reader.consider tablesBeingLoaded transactionalEngines) {}).Some :=
    foldl_consider_some there eligible started (.inl member)
  unfold scheduleChunkProportionally
  simp only
  split
  · next noBest => exact scheduleInProgress_ne_none (found.resolve_left (fun some_ => some_ noBest))
  · split
    · exact Option.some_ne_none _
    · next many =>
      refine scheduleInProgress_ne_none fun empty => many (.inl ?_)
      rw [empty]
      exact threads

end

/-- Only if no table is chosen, there is nothing. -/
theorem schedule_eq_none {order : List Nat}
    (refused : reader.nextTableChunk Double tablesBeingLoaded transactionalEngines order =
      .nothing) :
    reader.scheduleChunkProportionally Double tablesBeingLoaded transactionalEngines order =
      none := by
  unfold nextTableChunk at refused
  split at refused
  · assumption
  · split at refused
    · cases refused
    · split at refused <;> cases refused

end DumpReader

/-! ## Runs -/

def TableChunk.place (chunk : TableChunk) : Nat × Nat :=
  (chunk.table, chunk.index)

/-- The chunks handed out are the first ones of each table. -/
structure Handing (dump : DumpDirectory) (state : Loading) : Prop where
  inside : ∀ file ∈ state.visible, file.name ∈ dump.names
  length : state.reader.tables.length = dump.tables.length
  known : ∀ (number : Nat) table (described : TableMetadata × Layout),
    state.reader.tables[number]? = some table → dump.tables[number]? = some described →
      Known state.visible described.1 described.2 table
  distinct : state.reader.tablesWithData.Nodup
  withData : ∀ number, number ∈ state.reader.tablesWithData ↔
    ∃ table, state.reader.tables[number]? = some table ∧ table.chunksConsumed < table.chunksSeen
  once : (state.handedOut.map place).Nodup
  handed : ∀ number index, (number, index) ∈ state.handedOut.map place ↔
    ∃ table, state.reader.tables[number]? = some table ∧ index < table.chunksConsumed
  files : ∀ chunk ∈ state.handedOut, ∃ table, state.reader.tables[chunk.table]? = some table ∧
    table.availableChunks[chunk.index]? = some (some chunk.file)
  noFailure : state.failed = false

namespace Handing

variable {dump : DumpDirectory} {state : Loading} {table : TableDataInfo} {number : Nat}

theorem start (dump : DumpDirectory) (threadsCount : Nat) :
    Handing dump (Loading.start dump threadsCount) where
  inside := by simp [Loading.start]
  length := by simp [Loading.start]
  known := by
    intro number table described there same
    have fresh : table = { metadata := described.1 } := by
      simpa [Loading.start, same] using there.symm
    subst fresh
    refine ⟨rfl, rfl, by simp, Nat.zero_le _, ?_, Nat.le_refl _⟩
    have positive := described.2.count_pos
    simp only [Bool.false_eq_true, false_iff]
    omega
  distinct := nodup_nil
  withData := by
    intro number
    simp only [Loading.start, not_mem_nil, getElem?_map, false_iff]
    rintro ⟨table, there, less⟩
    obtain ⟨described, -, rfl⟩ := Option.map_eq_some_iff.mp there
    exact Nat.lt_irrefl 0 less
  once := nodup_nil
  handed := by
    intro number index
    simp only [Loading.start, map_nil, not_mem_nil, getElem?_map, false_iff]
    rintro ⟨table, there, less⟩
    obtain ⟨described, -, rfl⟩ := Option.map_eq_some_iff.mp there
    exact Nat.not_lt_zero index less
  files := by simp [Loading.start]
  noFailure := rfl

section

variable (handing : Handing dump state)

include handing

/-- Every table that the reader knows is one of the dump. -/
theorem described (there : state.reader.tables[number]? = some table) :
    ∃ described, dump.tables[number]? = some described ∧ described ∈ dump.tables ∧
      Known state.visible described.1 described.2 table := by
  have small : number < dump.tables.length := by
    rw [← handing.length]
    exact (List.getElem?_eq_some_iff.mp there).1
  have same := getElem?_eq_getElem small
  exact ⟨_, same, getElem_mem small, handing.known _ _ _ there same⟩

theorem appear {files : List FileInfo} (canAppear : Loading.CanAppear dump state files) :
    Handing dump { state with visible := state.visible ++ files } :=
  { handing with
    inside := by
      intro file member
      rcases mem_append.mp member with before | new
      · exact handing.inside file before
      · exact canAppear.1 file new
    known := fun number table described there same =>
      (handing.known number table described there same).mono }

/-- More is known about some tables. -/
theorem grow {tables : List TableDataInfo} (change : Nat → TableDataInfo → TableDataInfo)
    {tablesWithData : List Nat} (length : tables.length = state.reader.tables.length)
    (changed : ∀ number, tables[number]? = state.reader.tables[number]?.map (change number))
    (grown : ∀ (number : Nat) table (described : TableMetadata × Layout),
      state.reader.tables[number]? = some table →
      dump.tables[number]? = some described → described ∈ dump.tables →
        Known state.visible described.1 described.2 table →
          Known.Grown state.visible described.1 described.2 table (change number table))
    (distinct : tablesWithData.Nodup)
    (withData : ∀ number, number ∈ tablesWithData ↔
      ∃ table, state.reader.tables[number]? = some table ∧
        (change number table).chunksConsumed < (change number table).chunksSeen) :
    Handing dump
      { state with reader := { state.reader with tables, tablesWithData } } := by
  have growth : ∀ number table, state.reader.tables[number]? = some table →
      ∃ described, dump.tables[number]? = some described ∧
        Known.Grown state.visible described.1 described.2 table (change number table) := by
    intro number table there
    obtain ⟨described, same, member, known⟩ := handing.described there
    exact ⟨described, same, grown number table described there same member known⟩
  exact { handing with
    length := length.trans handing.length
    known := by
      intro number table described there same
      rw [changed] at there
      obtain ⟨old, before, rfl⟩ := Option.map_eq_some_iff.mp there
      obtain ⟨described', same', grown⟩ := growth number old before
      cases Option.some.inj (same.symm.trans same')
      exact grown.known
    distinct
    withData := by
      intro number
      simp only [withData, changed, Option.map_eq_some_iff, exists_exists_and_eq_and]
    handed := by
      intro number index
      simp only [handing.handed, changed, Option.map_eq_some_iff, exists_exists_and_eq_and]
      refine exists_congr fun table => and_congr_right fun there => ?_
      obtain ⟨_, -, grows⟩ := growth number table there
      rw [grows.consumed]
    files := by
      intro chunk member
      obtain ⟨table, there, file⟩ := handing.files chunk member
      obtain ⟨_, -, grows⟩ := growth chunk.table table there
      refine ⟨change chunk.table table, ?_, grows.file file⟩
      simp only [changed]
      rw [there]
      rfl }

theorem ready (number : Nat) :
    Handing dump
      { state with
        reader :=
          { state.reader with
            tables := state.reader.tables.modify number fun table =>
              { table with ready := true } } } := by
  refine handing.grow
    (fun other table => if number = other then { table with ready := true } else table)
    (length_modify _ _ _) ?_ ?_ handing.distinct ?_
  · intro other
    rw [getElem?_modify]
    rfl
  · intro other table described there same member known
    split
    · exact ⟨{ known with }, Nat.le_refl _, rfl, prefix_refl _⟩
    · exact Known.Grown.refl known
  · intro other
    rw [handing.withData]
    split
    · exact Iff.rfl
    · exact Iff.rfl

theorem rescan : Handing dump { state with reader := state.reader.rescanData state.visible } := by
  have growth : ∀ (number : Nat) table, state.reader.tables[number]? = some table →
      ∃ described : TableMetadata × Layout, Known state.visible described.1 described.2 table ∧
        Known.Grown state.visible described.1 described.2 table
          (rescanTable state.visible table) := by
    intro number table there
    obtain ⟨described, -, member, known⟩ := handing.described there
    exact ⟨described, known, known.rescanTable_grown (dump.owned handing.inside member)⟩
  refine handing.grow (fun _ => rescanTable state.visible)
    (length_map _) ?_ ?_ ?_ ?_
  · intro number
    exact getElem?_map
  · intro number table described there same member known
    exact known.rescanTable_grown (dump.owned handing.inside member)
  · refine List.Nodup.append handing.distinct (nodup_range.filter _) ?_
    intro number before new
    simp only [mem_filter, decide_eq_true_eq] at new
    exact new.2.2 before
  · intro number
    simp only [mem_append, mem_filter, mem_range, length_map, getElem?_map, decide_eq_true_eq]
    constructor
    · rintro (before | ⟨small, found, -⟩)
      · obtain ⟨table, there, less⟩ := (handing.withData number).mp before
        obtain ⟨_, -, grows⟩ := growth number table there
        refine ⟨table, there, ?_⟩
        rw [grows.consumed]
        exact Nat.lt_of_lt_of_le less grows.seen
      · have there := getElem?_eq_getElem small
        obtain ⟨_, known, grows⟩ := growth number _ there
        refine ⟨_, there, ?_⟩
        rw [there] at found
        rw [grows.consumed]
        exact Nat.lt_of_le_of_lt known.consumed found
    · rintro ⟨table, there, less⟩
      by_cases before : number ∈ state.reader.tablesWithData
      · exact .inl before
      · obtain ⟨_, known, grows⟩ := growth number table there
        refine .inr ⟨(List.getElem?_eq_some_iff.mp there).1, ?_, before⟩
        have nothing : ¬ table.chunksConsumed < table.chunksSeen := fun less =>
          before ((handing.withData number).mpr ⟨table, there, less⟩)
        rw [there]
        rw [grows.consumed] at less
        exact Nat.lt_of_le_of_lt (Nat.le_of_not_lt nothing) less

/-- The first chunk of a table that was not handed out yet is handed out. -/
theorem handOut (there : state.reader.tables[number]? = some table)
    (less : table.chunksConsumed < table.chunksSeen) {chunk : TableChunk}
    (place : chunk.place = (number, table.chunksConsumed))
    (file : table.availableChunks[table.chunksConsumed]? = some (some chunk.file)) :
    Handing dump
      { state with
        reader :=
          { state.reader with
            tables := state.reader.tables.set number table.consumeChunk
            tablesWithData :=
              if table.consumeChunk.hasDataAvailable then state.reader.tablesWithData
              else state.reader.tablesWithData.erase number }
        handedOut := state.handedOut ++ [chunk] } := by
  obtain ⟨described, same, member, known⟩ := handing.described there
  have small := (List.getElem?_eq_some_iff.mp there).1
  have next : Known state.visible described.1 described.2 table.consumeChunk :=
    { known with consumed := less }
  have after (other : Nat) : (state.reader.tables.set number table.consumeChunk)[other]? =
      if other = number then some table.consumeChunk else state.reader.tables[other]? := by
    simp only [getElem?_set, eq_comm, small, if_true]
  have places : (state.handedOut ++ [chunk]).map TableChunk.place =
      state.handedOut.map TableChunk.place ++ [(number, table.chunksConsumed)] := by
    rw [map_append, map_singleton, place]
  exact { handing with
    length := length_set.trans handing.length
    known := by
      intro other table' described' there' same'
      simp only [after] at there'
      split at there'
      · rename_i isNumber
        subst isNumber
        cases Option.some.inj there'
        cases Option.some.inj (same.symm.trans same')
        exact next
      · exact handing.known other table' described' there' same'
    distinct := by
      split
      · exact handing.distinct
      · exact handing.distinct.erase _
    withData := by
      intro other
      have before := handing.withData other
      by_cases isNumber : other = number
      · subst isNumber
        have member : other ∈ state.reader.tablesWithData := before.mpr ⟨table, there, less⟩
        have more := next.hasDataAvailable_iff
        simp only [after, if_true, Option.some.injEq, exists_eq_left']
        split
        · rename_i available
          exact iff_of_true member (more.mp available)
        · rename_i exhausted
          refine iff_of_false handing.distinct.not_mem_erase ?_
          exact mt more.mpr exhausted
      · simp only [after, isNumber, if_false]
        rw [← before]
        split
        · exact Iff.rfl
        · exact mem_erase_of_ne isNumber
    once := by
      rw [places, nodup_append]
      refine ⟨handing.once, nodup_singleton _, ?_⟩
      intro earlier member new isNew same
      rw [same, mem_singleton.mp isNew] at member
      obtain ⟨table', there', less'⟩ := (handing.handed _ _).mp member
      cases Option.some.inj (there.symm.trans there')
      exact Nat.lt_irrefl _ less'
    handed := by
      intro other index
      simp only [places, mem_append, handing.handed, mem_singleton, Prod.mk.injEq, after]
      by_cases isNumber : other = number
      · subst isNumber
        simp only [there, Option.some.injEq, exists_eq_left', if_true, true_and]
        exact Nat.lt_succ_iff_lt_or_eq.symm
      · simp only [isNumber, false_and, or_false, if_false]
    files := by
      intro other member
      simp only [after]
      rcases mem_append.mp member with before | isNew
      · obtain ⟨table', there', file'⟩ := handing.files other before
        by_cases isNumber : other.table = number
        · rw [isNumber] at there'
          cases Option.some.inj (there.symm.trans there')
          exact ⟨table.consumeChunk, if_pos isNumber, file'⟩
        · exact ⟨table', by rw [if_neg isNumber, there'], file'⟩
      · rw [mem_singleton.mp isNew]
        obtain ⟨sameTable, sameIndex⟩ := Prod.mk.inj place
        exact ⟨table.consumeChunk, if_pos sameTable, sameIndex ▸ file⟩ }

variable (Double) in
/-- A request is refused, or the first chunk of a table that is left is handed out. -/
theorem nextTableChunk_cases
    (tablesBeingLoaded : List (Name × Nat)) (transactionalEngines : List Name) {order : List Nat}
    (visited : order.Perm state.reader.tablesWithData) :
    state.reader.nextTableChunk Double tablesBeingLoaded transactionalEngines order = .nothing ∨
      ∃ chunk reader,
        state.reader.nextTableChunk Double tablesBeingLoaded transactionalEngines order =
          .chunk chunk reader ∧
        Handing dump { state with reader, handedOut := state.handedOut ++ [chunk] } := by
  unfold nextTableChunk
  cases chosen : state.reader.scheduleChunkProportionally Double tablesBeingLoaded
      transactionalEngines order with
  | none => exact .inl rfl
  | some number =>
    have member := visited.mem_iff.mp (schedule_spec chosen).1
    obtain ⟨table, there, less⟩ := (handing.withData number).mp member
    obtain ⟨_, -, -, known⟩ := handing.described there
    obtain ⟨file, -, available, -⟩ := known.seen _ less
    simp only [there, available]
    exact .inr ⟨_, _, rfl, handing.handOut there less rfl available⟩

theorem step {event : LoadingEvent} {next : Loading}
    (taken : Loading.step Double dump state event = some next) : Handing dump next := by
  cases event with
  | appear files =>
    simp only [Loading.step] at taken
    split at taken
    · rename_i canAppear
      cases Option.some.inj taken
      exact handing.appear canAppear
    · cases taken
  | ready number =>
    cases Option.some.inj taken
    exact handing.ready number
  | rescan =>
    cases Option.some.inj taken
    exact handing.rescan
  | request worker tablesBeingLoaded transactionalEngines order =>
    simp only [Loading.step] at taken
    split at taken
    · rename_i asked
      rcases handing.nextTableChunk_cases Double tablesBeingLoaded transactionalEngines
        asked.2 with refused | ⟨chunk, reader, given, handed⟩
      · rw [refused] at taken
        cases Option.some.inj taken
        exact handing
      · rw [given] at taken
        cases Option.some.inj taken
        exact handed
    · cases taken

/-- While nothing is being loaded, a request is refused only if no known chunk is left. -/
theorem all_handed (threads : 0 < state.reader.threadsCount)
    {transactionalEngines : List Name} {order : List Nat}
    (visited : order.Perm state.reader.tablesWithData)
    (refused : state.reader.nextTableChunk Double [] transactionalEngines order = .nothing)
    (there : state.reader.tables[number]? = some table) :
    table.chunksConsumed = table.chunksSeen := by
  obtain ⟨_, -, -, known⟩ := handing.described there
  refine Nat.le_antisymm known.consumed (Nat.le_of_not_lt ?_)
  intro less
  have withData := (handing.withData number).mpr ⟨table, there, less⟩
  exact absurd (schedule_eq_none refused)
    (schedule_ne_none threads (visited.mem_iff.mpr withData) there nofun nofun)

end

end Handing

/-! ## Handing out all chunks -/

namespace Loading

variable (Double) in
/-- No chunk is being loaded, and the request of a worker gets none. -/
def Idle (state : Loading) : Prop :=
  ∃ worker < state.reader.threadsCount, ∃ transactionalEngines order,
    order.Perm state.reader.tablesWithData ∧
      state.reader.nextTableChunk Double [] transactionalEngines order = .nothing

/-- The reader has seen the file of a chunk, which is one of the dump. -/
def Seen (dump : DumpDirectory) (state : Loading) (chunk : TableChunk) : Prop :=
  ∃ described table, dump.tables[chunk.table]? = some described ∧
    state.reader.tables[chunk.table]? = some table ∧
      chunk.index < described.2.count ∧
        table.availableChunks[chunk.index]? = some (some chunk.file) ∧
          chunk.file ∈ state.visible ∧
            chunk.file.name = described.2.fileName described.1 chunk.index

/-- The files of all chunks of a table can be seen. -/
def Complete (state : Loading) (described : TableMetadata × Layout) : Prop :=
  ∀ index < described.2.count, ∃ file ∈ state.visible,
    file.name = described.2.fileName described.1 index

theorem handing_of_run {dump : DumpDirectory} {threadsCount : Nat} {events : List LoadingEvent}
    {final : Loading}
    (result : run (step Double dump) (start dump threadsCount) events = some final) :
    Handing dump final :=
  run_preserves _ (fun handing taken => handing.step taken) (Handing.start dump threadsCount)
    result

/--
Whatever the order in which files become visible, the directory is listed and chunks are
requested: no chunk is handed out twice or before it was seen, and when the last chunk of every
table was seen and a worker gets nothing although no chunk is being loaded, all were handed
out. A listing with all files of a table shows its last chunk.
-/
theorem chunks_handed_out_once (dump : DumpDirectory) (threadsCount : Nat)
    (events : List LoadingEvent) (final : Loading)
    (result : run (step Double dump) (start dump threadsCount) events = some final) :
    final.failed = false ∧
      (final.handedOut.map place).Nodup ∧
      (∀ chunk ∈ final.handedOut, Seen dump final chunk) ∧
      ((∀ table ∈ final.reader.tables, table.metadata.hasData = true →
          table.lastChunkSeen = true) → final.Idle Double →
        ∀ (number : Nat) described, dump.tables[number]? = some described →
          described.1.hasData = true → ∀ index < described.2.count,
            (number, index) ∈ final.handedOut.map place) ∧
      ∀ (number : Nat) described table, dump.tables[number]? = some described →
        final.reader.tables[number]? = some table → described.1.hasData = true →
          table.ready = true → final.Complete described →
            ((final.reader.rescanData final.visible).tables[number]?.map
              lastChunkSeen) = some true := by
  have handing := handing_of_run result
  refine ⟨handing.noFailure, handing.once, ?_, ?_, ?_⟩
  · intro chunk member
    obtain ⟨table, there, file⟩ := handing.files chunk member
    obtain ⟨described, same, -, known⟩ := handing.described there
    have small : chunk.index < table.chunksSeen := by
      rw [← known.noGap]
      exact (List.getElem?_eq_some_iff.mp file).1
    obtain ⟨file', visible, file'', named⟩ := known.seen chunk.index small
    cases Option.some.inj (Option.some.inj (file.symm.trans file''))
    exact ⟨described, table, same, there, Nat.lt_of_lt_of_le small known.count, file, visible,
      named⟩
  · rintro last ⟨worker, threads, transactionalEngines, order, visited, refused⟩ number described
      same hasData index small
    have inside : number < final.reader.tables.length := by
      rw [handing.length]
      exact (List.getElem?_eq_some_iff.mp same).1
    have there := getElem?_eq_getElem inside
    have known := handing.known _ _ _ there same
    have all := known.last.mp (last _ (getElem_mem inside) (known.described ▸ hasData))
    have handed := handing.all_handed (Nat.zero_lt_of_lt threads) visited refused there
    exact (handing.handed number index).mpr ⟨_, there, by omega⟩
  · intro number described table same there hasData ready complete
    have known := handing.known _ _ _ there same
    have owned := dump.owned handing.inside (mem_of_getElem? same)
    have after : (final.reader.rescanData final.visible).tables[number]? =
        some (rescanTable final.visible table) := by
      simp only [DumpReader.rescanData, getElem?_map, there, Option.map_some]
    rw [after, Option.map_some, Option.some_inj]
    unfold rescanTable
    have dumped := known.dataDumped_iff
    split
    · next needed =>
        exact known.rescanData_last owned (known.notLast_of_not_dumped needed.2) complete
    · rename_i notNeeded
      rcases dumped.mp (by simpa [ready] using notNeeded) with none_ | last
      · rw [hasData] at none_
        cases none_
      · exact last

def shopFiles : Dump.DataFiles where
  format := .tsv
  compression := .none
  indexFiles := false
  chunks := some [(0, false), (1, true)]
  distinct := by
    rintro numbers ⟨⟩
    decide

def shop : DumpDirectory :=
  .ofDump ⟨true, true, false, false, false, false, false⟩
    [⟨"shop".toList, [⟨"orders".toList, false, some shopFiles, []⟩], []⟩]
    (fun _ => ⟨"orders".toList, false, "InnoDB".toList⟩) (by decide) (by
      intro entry member data hasData
      simp only [entries, Dump.TableInfo.entries, flatMap_cons,
        flatMap_nil, append_nil, map_nil, if_true, mem_cons, not_mem_nil, or_false] at member
      rcases member with rfl | rfl
      · cases hasData
      · cases Option.some.inj hasData
        rintro numbers ⟨⟩
        exact ⟨1, rfl⟩)

/-- The last chunk of the table appears first. -/
theorem chunks_handed_out_once_shop :
    let events : List LoadingEvent :=
      [.appear [⟨"shop@orders@@1.tsv".toList, 3⟩], .ready 0, .rescan,
        .request 0 [] [] [], .appear [⟨"shop@orders@0.tsv".toList, 5⟩], .rescan,
        .request 0 [] [] [0], .request 1 [("orders".toList, 5)] ["INNODB".toList] [0],
        .request 0 [] [] []]
    ∃ final, run (step Nat shop) (start shop 2) events = some final ∧
      final.handedOut.map place = [(0, 0), (0, 1)] ∧
      (∀ chunk ∈ final.handedOut, Seen shop final chunk) := by
  intro events
  have places : (run (step Nat shop) (start shop 2) events).map
      (·.handedOut.map place) = some [(0, 0), (0, 1)] := by
    decide +kernel
  obtain ⟨final, result, handed⟩ := Option.map_eq_some_iff.mp places
  exact ⟨final, result, handed, (chunks_handed_out_once shop 2 events final result).2.2.1⟩

end Loading

end MariadbShell.Load
