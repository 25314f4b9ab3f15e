import MariadbShell.ImportTable.Scanner.Blocks
import MariadbShell.Storage.MemoryBlocks

/-!
# Chunks of a scanned file

`scan_file` cuts a file into chunks that begin with a row. It gives the blocks of the file to
the scanner and appends them to the current chunk. A chunk that is large enough is closed at
the first row of the next block that has one; such a block belongs to two chunks, and the
smaller part of it is copied.
-/

namespace MariadbShell.ImportTable

open List Storage Dialect AllocatedFile ThreadedFile

/-! ## Chunks -/

/-- What is put in the queue: a file, the range of it that is loaded, and the offset that is
shown with the range. -/
structure ScheduledChunk where
  file : AllocatedFile
  first : Nat
  second : Nat
  fileOffset : Nat
deriving DecidableEq, Repr

/-- The variables of `scan_file`. -/
structure ScanState where
  scanner : Scanner
  chunk : Option AllocatedFile := none
  /-- `info.range.first` -/
  first : Nat := 0
  extractedBlocks : Nat := 0
deriving DecidableEq, Repr

namespace ScanFile

/-- `k_one_mb`. -/
def oneMb : Nat := 1024 * 1024

def blockSize (fileSize threads bytesPerChunk : Nat) : Nat :=
  if oneMb * threads ≤ fileSize ∧ oneMb ≤ bytesPerChunk then oneMb else 8192

variable (blockSize bytesPerChunk : Nat)

def scheduleChunk (first extractedBlocks : Nat) (chunk : AllocatedFile) : ScheduledChunk :=
  ⟨chunk, first, chunk.size, blockSize * (extractedBlocks - 1)⟩

/--
A block is divided at the start of a row for the previous chunk and the next one. Only the
smaller part is copied, so the next chunk may begin with the `fresh` bytes of a new block,
which are not in its range.
-/
def divideBlock (fresh : Nat → UInt8) (block : Bytes) (offset : Nat) : Option Bytes × Bytes :=
  if offset = 0 then (none, block)
  else if offset < block.length / 2 then (some (block.take offset), block)
  else (some (block.take offset), (List.range offset).map fresh ++ block.drop offset)

def appendBlock (chunk : AllocatedFile) : Option Bytes → Except AppendNotAllowed AllocatedFile
  | none => .ok chunk
  | some block => chunk.append blockSize block

variable (fresh : Nat → Nat → UInt8) (dialect : Dialect)

def scanBlock (state : ScanState) (block : Bytes) :
    Except AppendNotAllowed (Option ScheduledChunk × ScanState) := do
  let extractedBlocks := state.extractedBlocks + 1
  let (found, scanner) := state.scanner.scan dialect block
  match state.chunk, found with
  | none, none => return (none, { state with scanner, extractedBlocks })
  | none, some offset =>
    let chunk ← empty.append blockSize block
    return (none, ⟨scanner, some chunk, offset, extractedBlocks⟩)
  | some chunk, none =>
    let chunk ← chunk.append blockSize block
    return (none, ⟨scanner, some chunk, state.first, extractedBlocks⟩)
  | some chunk, some offset =>
    if bytesPerChunk ≤ chunk.size - state.first + offset then
      let (previous, block) := divideBlock (fresh extractedBlocks) block offset
      let chunk ← appendBlock blockSize chunk previous
      let next ← empty.append blockSize block
      return (some (scheduleChunk blockSize state.first extractedBlocks chunk),
        ⟨scanner, some next, offset, extractedBlocks⟩)
    else
      let chunk ← chunk.append blockSize block
      return (none, ⟨scanner, some chunk, state.first, extractedBlocks⟩)

/-- The loop, up to the empty block at the end of the file. -/
def scanLoop : ScanState → List Bytes → Except AppendNotAllowed (List ScheduledChunk)
  | state, [] =>
    match state.chunk with
    | some chunk =>
      if 0 < chunk.size then
        .ok [scheduleChunk blockSize state.first state.extractedBlocks chunk]
      else .ok []
    | none => .ok []
  | state, block :: blocks => do
      let (scheduled, state) ← scanBlock blockSize bytesPerChunk fresh dialect state block
      return scheduled.toList ++ (← scanLoop state blocks)

def data (chunk : ScheduledChunk) : Bytes :=
  chunk.file.read blockSize chunk.first (chunk.second - chunk.first)

end ScanFile

/-- The exceptions of `scan_file`. -/
inductive ScanError where
  | scanner (error : Scanner.UnsupportedLinesTerminatedBy)
  | append (error : AppendNotAllowed)
deriving DecidableEq, Repr

variable (dialect : Dialect)

/-- `scan_file`, for a file whose reads return the given `amounts` of bytes. -/
def scanFile (skipRows fileSize threads bytesPerChunk : Nat)
    (amounts : Nat → Nat → Nat) (fresh : Nat → Nat → UInt8) (file : Bytes) :
    Except ScanError (List ScheduledChunk) :=
  let blockSize := ScanFile.blockSize fileSize threads bytesPerChunk
  match Scanner.create dialect skipRows with
  | .error error => .error (.scanner error)
  | .ok scanner =>
    (ScanFile.scanLoop blockSize bytesPerChunk fresh dialect { scanner }
      (extracted blockSize amounts file)).mapError .append

namespace ScanFile

/-! ## Rows -/

def foundRows (dialect : Dialect) : Nat → Scanner → List Bytes → List Nat
  | _, _, [] => []
  | offset, scanner, block :: blocks =>
    ((scanner.scan dialect block).1.map (offset + ·)).toList ++
      foundRows dialect (offset + block.length) (scanner.scan dialect block).2 blocks

theorem scanRows_lt {length : Nat} (positive : 0 < length) (fuel : Nat)
    {firstRow : Option Nat} (scanner : Scanner) (inside : ∀ row ∈ firstRow, row < length) :
    ∀ row ∈ (Scanner.scanRows dialect length fuel firstRow scanner).1, row < length := by
  induction fuel generalizing firstRow scanner with
  | zero => exact inside
  | succ fuel ih =>
    unfold Scanner.scanRows
    split
    · exact inside
    · next more =>
      split
      · refine ih _ fun row member => ?_
        have data := length_pos_iff.mpr more
        cases firstRow with
        | none =>
          cases member
          omega
        | some first => exact inside row member
      · split
        · exact inside
        · exact ih _ inside
      · dsimp only
        split
        · exact ih _ inside
        · exact ih _ inside
      · split
        · exact ih _ inside
        · exact ih _ inside
        · exact ih _ inside

variable {block : Bytes}

/-- A row is found at a byte of the block. -/
theorem scan_lt (scanner : Scanner) (filled : block ≠ []) {offset : Nat}
    (found : (scanner.scan dialect block).1 = some offset) : offset < block.length := by
  unfold Scanner.scan at found
  dsimp only at found
  split at found
  · cases found
  · refine scanRows_lt dialect (length_pos_iff.mpr filled) _ _ ?_ offset found
    intro row none
    cases none

theorem foundRows_bounds (blocks : List Bytes) (offset : Nat)
    (scanner : Scanner) (filled : ∀ block ∈ blocks, block ≠ []) :
    (foundRows dialect offset scanner blocks).Pairwise (· < ·) ∧
      ∀ row ∈ foundRows dialect offset scanner blocks,
        offset ≤ row ∧ row < offset + blocks.flatten.length := by
  induction blocks generalizing offset scanner with
  | nil => exact ⟨.nil, nofun⟩
  | cons block blocks ih =>
    rw [forall_mem_cons] at filled
    obtain ⟨ascending, bounds⟩ := ih (offset + block.length) (scanner.scan dialect block).2 filled.2
    unfold foundRows
    rw [flatten_cons, length_append]
    have later : ∀ row ∈ foundRows dialect (offset + block.length) (scanner.scan dialect block).2
        blocks, offset ≤ row ∧ row < offset + (block.length + blocks.flatten.length) := by
      intro row member
      have bound := bounds row member
      omega
    cases found : (scanner.scan dialect block).1 with
    | none => exact ⟨ascending, later⟩
    | some first =>
      have inside := scan_lt dialect scanner filled.1 found
      change ((offset + first) :: _).Pairwise _ ∧ ∀ row ∈ (offset + first) :: _, _
      refine ⟨pairwise_cons.mpr ⟨fun row member => ?_, ascending⟩,
        forall_mem_cons.mpr ⟨by omega, later⟩⟩
      have bound := bounds row member
      omega

/-- The first row that is found is the first one of the parse of the whole file. -/
theorem head?_foundRows {dialect : Dialect} (suitable : Scanner.Suitable dialect)
    (blocks : List Bytes) {scanner : Scanner} {offset : Nat}
    (resting : Scanner.Resting dialect offset scanner) :
    (foundRows dialect offset scanner blocks).head? =
      (scanner.rowsFrom dialect offset blocks.flatten).head? := by
  induction blocks generalizing scanner offset with
  | nil =>
    rw [flatten_nil, resting.rowsFrom_nil suitable]
    rfl
  | cons block blocks ih =>
    obtain ⟨firstRow, next, scanned, resting', starts, bounds, shape, whole⟩ :=
      resting.scan suitable block
    rw [foundRows, scanned, flatten_cons, whole]
    cases starts with
    | nil =>
      rw [shape, head?_nil, Option.map_none, Option.map_none]
      exact ih resting'
    | cons start starts =>
      have above := (bounds start mem_cons_self).1
      have same : offset + (start - offset) = start := by omega
      rw [shape, head?_cons, Option.map_some, Option.map_some, same]
      rfl

/-! ## Ranges -/

/-- The parts of a file from each of the given offsets to the next one or to the end. -/
def cutAt (file : Bytes) : List Nat → List Bytes
  | [] => []
  | [start] => [file.drop start]
  | start :: next :: starts => (file.take next).drop start :: cutAt file (next :: starts)

/-- Consecutive parts have the rest of the file. -/
theorem flatten_cutAt {file : Bytes} {start : Nat} {starts : List Nat}
    (ascending : (start :: starts).Pairwise (· < ·)) :
    (cutAt file (start :: starts)).flatten = file.drop start := by
  induction starts generalizing start with
  | nil => exact append_nil _
  | cons next starts ih =>
    have less : start < next := rel_of_pairwise_cons ascending mem_cons_self
    rw [cutAt, flatten_cons, ih ascending.tail, drop_take]
    have same : file.drop next = (file.drop start).drop (next - start) := by
      rw [drop_drop]
      congr 1
      omega
    rw [same, take_append_drop]

section

variable {blockSize : Nat}

theorem divideBlock_spec (fresh : Nat → UInt8) {offset : Nat} (inside : offset ≤ block.length) :
    (divideBlock fresh block offset).1.getD [] = block.take offset ∧
      (divideBlock fresh block offset).2.length = block.length ∧
      (divideBlock fresh block offset).2.drop offset = block.drop offset := by
  unfold divideBlock
  split
  · next none =>
    rw [none]
    exact ⟨rfl, rfl, rfl⟩
  · split
    · exact ⟨rfl, rfl, rfl⟩
    · have length : ((List.range offset).map fresh).length = offset := by simp
      refine ⟨rfl, ?_, ?_⟩
      · rw [length_append, length, length_drop]
        omega
      · exact drop_left' length

/-- A chunk that begins with the row at `start` of the bytes that were consumed. -/
structure Open (blockSize : Nat) (consumed : Bytes) (start first : Nat) (chunk : AllocatedFile) :
    Prop where
  formed : chunk.WellFormed blockSize
  inside : first < chunk.size
  before : start ≤ consumed.length
  content : chunk.content.drop first = consumed.drop start

variable {chunk : AllocatedFile} {start first : Nat}

/-- The range of such a chunk. -/
theorem Open.data_eq {consumed : Bytes} (opened : Open blockSize consumed start first chunk)
    (positive : 0 < blockSize) (extractedBlocks : Nat) :
    data blockSize (scheduleChunk blockSize first extractedBlocks chunk) = consumed.drop start := by
  have size := opened.formed.size
  change chunk.read blockSize first (chunk.size - first) = _
  rw [opened.formed.read_eq positive opened.inside.le, Nat.min_self, ← opened.content]
  exact take_of_length_le (by rw [length_drop]; omega)

theorem Open.append {consumed block : Bytes} (opened : Open blockSize consumed start first chunk)
    (accepts : chunk.acceptsAppend = true) (small : block.length ≤ blockSize) :
    ∃ longer, chunk.append blockSize block = .ok longer ∧
      Open blockSize (consumed ++ block) start first longer ∧
      (longer.acceptsAppend = true ↔ block.length = blockSize) := by
  obtain ⟨longer, appended, formed, content, full⟩ := opened.formed.append accepts small
  have size := opened.formed.size
  have size' := formed.size
  rw [content, length_append] at size'
  have inside := opened.inside
  have before := opened.before
  refine ⟨longer, appended, ⟨formed, by omega, ?_, ?_⟩, full⟩
  · rw [length_append]
    omega
  · rw [content, drop_append_of_le_length (by omega), opened.content,
      drop_append_of_le_length before]

/-- The part of a block that belongs to the previous chunk. -/
theorem Open.appendBlock {consumed : Bytes} (opened : Open blockSize consumed start first chunk)
    (accepts : chunk.acceptsAppend = true) {previous : Option Bytes}
    (small : (previous.getD []).length ≤ blockSize) :
    ∃ closed, appendBlock blockSize chunk previous = .ok closed ∧
      Open blockSize (consumed ++ previous.getD []) start first closed := by
  cases previous with
  | none =>
    rw [Option.getD_none, append_nil]
    exact ⟨chunk, rfl, opened⟩
  | some block =>
    obtain ⟨longer, appended, opened', -⟩ := opened.append accepts small
    exact ⟨longer, appended, opened'⟩

/-- A chunk that begins in a block. -/
theorem Open.create {consumed block kept : Bytes} {offset : Nat} (inside : offset < block.length)
    (size : kept.length = block.length) (same : kept.drop offset = block.drop offset)
    (small : block.length ≤ blockSize) :
    ∃ chunk, empty.append blockSize kept = .ok chunk ∧
      Open blockSize (consumed ++ block) (consumed.length + offset) offset chunk ∧
      (chunk.acceptsAppend = true ↔ block.length = blockSize) := by
  obtain ⟨chunk, appended, formed, content, full⟩ := wellFormed_empty.append rfl (size ▸ small)
  have nothing : empty.content = [] := rfl
  rw [nothing, nil_append] at content
  refine ⟨chunk, appended, ⟨formed, ?_, ?_, ?_⟩, size ▸ full⟩
  · rw [formed.size, content, size]
    exact inside
  · rw [length_append]
    omega
  · rw [content, same, ← drop_drop, drop_left]

end

variable {blockSize : Nat} (bytesPerChunk : Nat) (fresh : Nat → Nat → UInt8) (dialect : Dialect)

/-- The block is appended to the chunk, or the chunk is closed at a row in the block. -/
theorem scanBlock_open (positive : 0 < blockSize) {state : ScanState} {consumed block : Bytes}
    {start : Nat} {chunk : AllocatedFile} (current : state.chunk = some chunk)
    (opened : Open blockSize consumed start state.first chunk)
    (accepts : chunk.acceptsAppend = true) (filled : block ≠ [])
    (small : block.length ≤ blockSize) :
    ∃ scheduled next later longer,
      scanBlock blockSize bytesPerChunk fresh dialect state block = .ok (scheduled, next) ∧
      next.scanner = (state.scanner.scan dialect block).2 ∧ next.chunk = some longer ∧
      Open blockSize (consumed ++ block) later next.first longer ∧
      (longer.acceptsAppend = true ↔ block.length = blockSize) ∧
      (scheduled = none ∧ later = start ∨
        ∃ closed offset, scheduled = some closed ∧
          (state.scanner.scan dialect block).1 = some offset ∧ later = consumed.length + offset ∧
          data blockSize closed = (consumed ++ block.take offset).drop start) := by
  obtain ⟨longer, appended, opened', full⟩ := opened.append accepts small
  unfold scanBlock
  dsimp only
  rw [current]
  cases found : (state.scanner.scan dialect block).1 with
  | none =>
    dsimp only
    rw [appended]
    exact ⟨_, _, _, _, rfl, rfl, rfl, opened', full, .inl ⟨rfl, rfl⟩⟩
  | some offset =>
    have inside := scan_lt dialect state.scanner filled found
    dsimp only
    split
    · have parts := divideBlock_spec (fresh (state.extractedBlocks + 1)) inside.le
      generalize divideBlock (fresh (state.extractedBlocks + 1)) block offset = divided at parts
      obtain ⟨previous, kept⟩ := divided
      obtain ⟨taken, size, same⟩ := parts
      have short : (previous.getD []).length ≤ blockSize :=
        taken ▸ (length_take_le' _ _).trans small
      obtain ⟨closed, added, before⟩ := opened.appendBlock accepts short
      obtain ⟨begun, created, opened', full'⟩ := Open.create inside size same small
      rw [added, created]
      refine ⟨_, _, _, _, rfl, rfl, rfl, opened', full', .inr ⟨_, offset, rfl, rfl, rfl, ?_⟩⟩
      rw [before.data_eq positive, taken]
    · rw [appended]
      exact ⟨_, _, _, _, rfl, rfl, rfl, opened', full, .inl ⟨rfl, rfl⟩⟩

theorem scanLoop_cons {state next : ScanState} {blocks : List Bytes}
    {scheduled : Option ScheduledChunk} {chunks : List ScheduledChunk}
    (step : scanBlock blockSize bytesPerChunk fresh dialect state block = .ok (scheduled, next))
    (run : scanLoop blockSize bytesPerChunk fresh dialect next blocks = .ok chunks) :
    scanLoop blockSize bytesPerChunk fresh dialect state (block :: blocks) =
      .ok (scheduled.toList ++ chunks) := by
  rw [scanLoop, step]
  change (scanLoop blockSize bytesPerChunk fresh dialect next blocks >>= fun later =>
    Except.ok (scheduled.toList ++ later)) = _
  rw [run]
  rfl

/-- The chunks from a chunk that is open on. -/
theorem scanLoop_open (positive : 0 < blockSize) (blocks : List Bytes) (state : ScanState)
    {consumed : Bytes} {start : Nat} {chunk : AllocatedFile} (current : state.chunk = some chunk)
    (opened : Open blockSize consumed start state.first chunk)
    (accepts : blocks ≠ [] → chunk.acceptsAppend = true)
    (consecutive : Consecutive blockSize blocks) (filled : ∀ block ∈ blocks, block ≠ []) :
    ∃ chunks starts, scanLoop blockSize bytesPerChunk fresh dialect state blocks = .ok chunks ∧
      chunks.map (data blockSize) = cutAt (consumed ++ blocks.flatten) (start :: starts) ∧
      starts.Sublist (foundRows dialect consumed.length state.scanner blocks) := by
  induction blocks generalizing state consumed start chunk with
  | nil =>
    have some : 0 < chunk.size := Nat.zero_lt_of_lt opened.inside
    refine ⟨[scheduleChunk blockSize state.first state.extractedBlocks chunk], [], ?_, ?_, .slnil⟩
    · rw [scanLoop, current]
      exact if_pos some
    · rw [map_singleton, opened.data_eq positive, flatten_nil, append_nil]
      rfl
  | cons block blocks ih =>
    rw [forall_mem_cons] at filled
    obtain ⟨scheduled, next, later, longer, step, scanner, current', opened', full, closed⟩ :=
      scanBlock_open bytesPerChunk fresh dialect positive current opened
        (accepts (cons_ne_nil _ _)) filled.1 consecutive.head_le
    obtain ⟨chunks, starts, run, cut, sub⟩ := ih next current' opened'
      (fun more => full.mpr (consecutive.head_eq more)) consecutive.tail filled.2
    have whole : consumed ++ block ++ blocks.flatten = consumed ++ (block :: blocks).flatten := by
      rw [append_assoc, flatten_cons]
    rw [whole] at cut
    rw [length_append, scanner] at sub
    have loop := scanLoop_cons bytesPerChunk fresh dialect step run
    unfold foundRows
    obtain ⟨rfl, rfl⟩ | ⟨closed, offset, rfl, found, rfl, content⟩ := closed
    · exact ⟨chunks, starts, loop, cut, sub.trans (sublist_append_right _ _)⟩
    · have inside := scan_lt dialect state.scanner filled.1 found
      refine ⟨closed :: chunks, (consumed.length + offset) :: starts, loop, ?_, ?_⟩
      · rw [map_cons, cut, content, cutAt, flatten_cons, take_append,
          take_of_length_le (Nat.le_add_right _ _), Nat.add_sub_cancel_left,
          take_append_of_le_length inside.le]
      · rw [found]
        exact sub.cons_cons _

/-- The chunks of a file whose first row is not found yet. -/
theorem scanLoop_closed (positive : 0 < blockSize) (blocks : List Bytes) (state : ScanState)
    (consumed : Bytes) (closed : state.chunk = none) (consecutive : Consecutive blockSize blocks)
    (filled : ∀ block ∈ blocks, block ≠ []) :
    ∃ chunks starts, scanLoop blockSize bytesPerChunk fresh dialect state blocks = .ok chunks ∧
      chunks.map (data blockSize) = cutAt (consumed ++ blocks.flatten) starts ∧
      starts.Sublist (foundRows dialect consumed.length state.scanner blocks) ∧
      starts.head? = (foundRows dialect consumed.length state.scanner blocks).head? := by
  induction blocks generalizing state consumed with
  | nil =>
    refine ⟨[], [], ?_, rfl, .slnil, rfl⟩
    rw [scanLoop, closed]
  | cons block blocks ih =>
    rw [forall_mem_cons] at filled
    have whole : consumed ++ block ++ blocks.flatten = consumed ++ (block :: blocks).flatten := by
      rw [append_assoc, flatten_cons]
    unfold foundRows
    rw [← whole, ← length_append]
    cases found : (state.scanner.scan dialect block).1 with
    | none =>
      have step : scanBlock blockSize bytesPerChunk fresh dialect state block =
          .ok (none, ⟨(state.scanner.scan dialect block).2, none, state.first,
            state.extractedBlocks + 1⟩) := by
        unfold scanBlock
        dsimp only
        rw [closed, found]
        rfl
      obtain ⟨chunks, starts, run, cut, sub, head⟩ :=
        ih ⟨(state.scanner.scan dialect block).2, none, state.first, state.extractedBlocks + 1⟩
          (consumed ++ block) rfl consecutive.tail filled.2
      exact ⟨chunks, starts, scanLoop_cons bytesPerChunk fresh dialect step run, cut, sub, head⟩
    | some offset =>
      have inside := scan_lt dialect state.scanner filled.1 found
      obtain ⟨begun, created, opened, full⟩ :=
        @Open.create blockSize consumed block block offset inside rfl rfl consecutive.head_le
      have step : scanBlock blockSize bytesPerChunk fresh dialect state block =
          .ok (none, ⟨(state.scanner.scan dialect block).2, some begun, offset,
            state.extractedBlocks + 1⟩) := by
        unfold scanBlock
        dsimp only
        rw [closed, found]
        rw [created]
        rfl
      obtain ⟨chunks, starts, run, cut, sub⟩ := scanLoop_open bytesPerChunk fresh dialect
        positive blocks
        ⟨(state.scanner.scan dialect block).2, some begun, offset, state.extractedBlocks + 1⟩
        rfl opened (fun more => full.mpr (consecutive.head_eq more)) consecutive.tail filled.2
      exact ⟨chunks, (consumed.length + offset) :: starts,
        scanLoop_cons bytesPerChunk fresh dialect step run, cut, sub.cons_cons _, rfl⟩

end ScanFile

theorem ScanFile.blockSize_pos (fileSize threads bytesPerChunk : Nat) :
    0 < blockSize fileSize threads bytesPerChunk := by
  unfold blockSize
  split <;> decide

/-- A file is cut into chunks at rows that the scanner finds, from the first of them to the end
of the file. In a suitable dialect this is the first row behind the skipped ones. -/
theorem scanFile_covers (skipRows : Nat) {scanner : Scanner}
    (created : Scanner.create dialect skipRows = .ok scanner)
    (fileSize threads bytesPerChunk : Nat) (amounts : Nat → Nat → Nat)
    (fresh : Nat → Nat → UInt8) (file : Bytes) :
    let blockSize := ScanFile.blockSize fileSize threads bytesPerChunk
    let rows := ScanFile.foundRows dialect 0 scanner (extracted blockSize amounts file)
    ∃ chunks starts,
      scanFile dialect skipRows fileSize threads bytesPerChunk amounts fresh file = .ok chunks ∧
      chunks.map (ScanFile.data blockSize) = ScanFile.cutAt file starts ∧
      starts.Pairwise (· < ·) ∧ (∀ start ∈ starts, start < file.length) ∧
      starts.Sublist rows ∧ starts.head? = rows.head? ∧
      (chunks.map (ScanFile.data blockSize)).flatten = (rows.head?.map file.drop).getD [] ∧
      (Scanner.Suitable dialect →
        rows.head? = (Scanner.rowStarts dialect skipRows file).head?) := by
  intro blockSize rows
  obtain ⟨flat, consecutive, filled⟩ := extracted_spec
    (ScanFile.blockSize_pos fileSize threads bytesPerChunk) amounts file
  obtain ⟨chunks, starts, run, cut, sub, head⟩ := ScanFile.scanLoop_closed bytesPerChunk fresh
    dialect (ScanFile.blockSize_pos fileSize threads bytesPerChunk) _ { scanner } [] rfl
    consecutive filled
  obtain ⟨ascending, bounds⟩ := ScanFile.foundRows_bounds dialect _ 0 scanner filled
  rw [nil_append, flat] at cut
  rw [flat] at bounds
  have sorted := ascending.sublist sub
  have inside : ∀ start ∈ starts, start < file.length := by
    intro start member
    have bound := (bounds start (sub.subset member)).2
    omega
  refine ⟨chunks, starts, ?_, cut, sorted, inside, sub, head, ?_, fun suitable => ?_⟩
  · unfold scanFile
    rw [created]
    dsimp only
    rw [run]
    rfl
  · rw [cut]
    change _ =
      ((ScanFile.foundRows dialect ([] : Bytes).length scanner _).head?.map file.drop).getD []
    rw [← head]
    cases starts with
    | nil => rfl
    | cons start starts => exact ScanFile.flatten_cutAt sorted
  · obtain ⟨-, resting, starts⟩ := Scanner.create_spec created
    have found := ScanFile.head?_foundRows suitable (extracted blockSize amounts file) resting
    rw [flat, starts] at found
    exact found

/-- Two rows of which the first one is skipped, read byte by byte. -/
theorem scanFile_covers_two_rows :
    let scanner : Scanner := ⟨1, ⟨[], [], false⟩, .begin, none⟩
    let amounts : Nat → Nat → Nat := fun _ _ => 1
    let fresh : Nat → Nat → UInt8 := fun _ _ => 0
    let file := ascii ['a', '\r', '\n', 'b', '\r', '\n']
    let blockSize := ScanFile.blockSize 6 4 131072
    let rows := ScanFile.foundRows csv 0 scanner
      (extracted blockSize amounts file)
    Scanner.create csv 1 = .ok scanner ∧
    ∃ chunks starts, scanFile csv 1 6 4 131072 amounts fresh file = .ok chunks ∧
      chunks.map (ScanFile.data blockSize) = ScanFile.cutAt file starts ∧
      starts.Pairwise (· < ·) ∧ (∀ start ∈ starts, start < file.length) ∧
      starts.Sublist rows ∧ starts.head? = rows.head? ∧
      (chunks.map (ScanFile.data blockSize)).flatten = (rows.head?.map file.drop).getD [] ∧
      (Scanner.Suitable csv → rows.head? = (Scanner.rowStarts csv 1 file).head?) :=
  ⟨rfl, scanFile_covers csv 1 rfl 6 4 131072 _ _ _⟩

end MariadbShell.ImportTable
