import MariadbShell.Lib.MachineInt

/-!
# Chunks of an integer column

A table is split into chunks by ranges of the first column of an index. The length of a range
is searched for with the server's estimates of its rows. Ranges with few rows are joined by a
coalescer; a single value with too many rows is split by the next column of the index.
-/

namespace MariadbShell.Dump

open Lib.MachineInt

/-! ## Keys -/

/-- The types that a column is chunked with; a decimal number is counted in units of its last
digit. -/
inductive KeyType where
  | int64
  | uint64
  | decimal (digits : Nat)
deriving DecidableEq, Repr

namespace KeyType

/-- The result of an arithmetic operation. -/
def wrap : KeyType → Int → Int
  | .int64, value => toInt64 value
  | .uint64, value => toUInt64 value
  | .decimal _, value => value

def Fits : KeyType → Int → Prop
  | .int64, value => -2 ^ 63 ≤ value ∧ value < 2 ^ 63
  | .uint64, value => 0 ≤ value ∧ value < 2 ^ 64
  | .decimal _, _ => True

instance (type : KeyType) (value : Int) : Decidable (type.Fits value) := by
  unfold Fits
  split <;> infer_instance

variable (type : KeyType)

def add (left right : Int) : Int := type.wrap (left + right)

def sub (left right : Int) : Int := type.wrap (left - right)

/-- `next_value`. -/
def next (value : Int) : Int := type.add value 1

/-- `previous_value`. -/
def previous (value : Int) : Int := type.sub value 1

/-- The number of units of a whole number. -/
def ofWhole : KeyType → Nat → Int
  | .decimal digits, whole => whole * 10 ^ digits
  | _, whole => whole

/-- Division by a whole number. `Decimal::operator/=` multiplies first to keep its digits. -/
def div : KeyType → Int → Nat → Int
  | .decimal digits, value, divisor =>
    (value * 10 ^ digits).tdiv (KeyType.ofWhole (.decimal digits) divisor)
  | _, value, divisor => value.tdiv divisor

def half (value : Int) : Int := type.div value 2

def ensureNotZero (value : Int) : Int := if value = 0 then 1 else value

def isSingleValueStep (step : Int) : Bool :=
  step ≠ 0 && type.previous step = 0

/-- `std::numeric_limits<T>::max()`. -/
def limit : KeyType → Option Int
  | .int64 => some (2 ^ 63 - 1)
  | .uint64 => some (2 ^ 64 - 1)
  | .decimal _ => none

/-- One more, unless it is the greatest `uint64_t`. -/
def saturatingNext (value : Nat) : Int :=
  if value < 2 ^ 64 - 1 then value + 1 else value

/-- `distance`, a `uint64_t` or a decimal number. -/
def distance : KeyType → Int → Int → Int
  | .decimal digits, least, greatest => next (.decimal digits) (greatest - least)
  | type, least, greatest => saturatingNext (toUInt64 (type.sub greatest least))

def cast (value : Int) : Int :=
  match type.limit with
  | none => value
  | some top => if value < top then value else top

def sum (value addend : Int) : Int :=
  match type.limit with
  | none => type.add value addend
  | some top => if type.sub top addend ≤ value then top else type.add value addend

end KeyType

/-! ## Steps -/

/-- `Chunking_info`. There is a next column in the index or not, and it can be chunked with the
integer algorithm or not. -/
structure ChunkingInfo where
  rowCount : UInt64
  rowsPerChunk : UInt64
  accuracy : UInt64
  firstColumn : Bool
  nextColumn : Option Bool
  positive : 0 < rowsPerChunk

/-- The answers of the server, in their order. -/
abbrev Estimates := Nat → UInt64

/-- The length of a range with an estimate of its rows, whether the estimate is used as it is,
and the number of estimates that were asked for. -/
structure Step where
  size : Int
  rows : UInt64
  useReturned : Bool
  asked : Nat
deriving DecidableEq, Repr

namespace ChunkingInfo

variable (type : KeyType) (info : ChunkingInfo) (estimates : Estimates)

/-- `info.rows_per_chunk + info.accuracy`. -/
def accepted : UInt64 := info.rowsPerChunk + info.accuracy

/-- The end of the range after the first phase of the search. -/
structure Expansion where
  right : Int
  rows : UInt64
  underfilled : Option (Int × UInt64)
  reachedLimit : Bool
  asked : Nat
deriving DecidableEq, Repr

/-- The first phase: the range is doubled until it has enough rows. After the last probe the
whole rest is checked. -/
def expand (start max : Int) : Nat → Int → Option (Int × UInt64) → Nat → Expansion
  | probes, range, underfilled, asked =>
    let right := min (type.sum start range) max
    let rows := estimates asked
    if info.rowsPerChunk ≤ rows then ⟨right, rows, underfilled, false, asked + 1⟩
    else if max ≤ right then ⟨right, rows, some (right, rows), false, asked + 1⟩
    else
      match probes with
      | 0 => ⟨max, estimates (asked + 1), some (right, rows), true, asked + 2⟩
      | probes + 1 =>
        expand start max probes (type.sum range range) (some (right, rows)) (asked + 1)

/-- The range before the last one is used if the last one ends at `max` and has too many
rows. -/
def useUnderfilled (start max : Int) (found : Expansion) : Expansion × Bool :=
  match found.underfilled with
  | some (right, rows) =>
    if !found.reachedLimit ∧ max ≤ found.right ∧ info.accepted < found.rows ∧ start < right then
      ({ found with right := right, rows := rows }, true)
    else (found, false)
  | none => (found, false)

/-- The second phase: a binary search for the end of the range. -/
def chop (start : Int) : Nat → Int → Int → Bool → Nat → Option (Int × UInt64 × Bool × Nat)
  | 0, _, _, _, _ => none
  | rounds + 1, left, right, useReturned, asked =>
    let rows := estimates asked
    let delta := if info.rowsPerChunk < rows then rows - info.rowsPerChunk
      else info.rowsPerChunk - rows
    if delta ≤ info.accuracy then some (right, rows, true, asked + 1)
    else if right = start then some (right, rows, useReturned, asked + 1)
    else if right ≤ left then some (right, rows, true, asked + 1)
    else if info.rowsPerChunk < rows then
      chop start rounds left
        (type.sub right (KeyType.ensureNotZero (type.half (type.sub right left)))) useReturned
        (asked + 1)
    else
      chop start rounds right (type.add right (type.half (type.sub right left))) useReturned
        (asked + 1)

/-- `k_adaptive_expansion_probes`. -/
def adaptiveExpansionProbes : Nat := 10

/-- `adaptive_step_v2`. A search in a range takes as many rounds as it has values at most. -/
def adaptiveStep (start hint max : Int) (asked : Nat) : Option Step := do
  let (found, useReturned) := info.useUnderfilled start max
    (expand type info estimates start max (adaptiveExpansionProbes - 1) hint none asked)
  if info.accepted < found.rows then
    let right := type.add start (type.half (type.sub found.right start))
    let (right, rows, useReturned, asked) ← chop type info estimates start
      ((right - start).toNat + 1) start right useReturned found.asked
    some ⟨KeyType.ensureNotZero (type.sub right start), rows, useReturned, asked⟩
  else
    some ⟨KeyType.ensureNotZero (type.sub found.right start), found.rows, useReturned, found.asked⟩

def constantStep (hint : Int) (asked : Nat) : Option Step :=
  some ⟨hint, info.rowsPerChunk, false, asked⟩

end ChunkingInfo

/-! ## Coalescer -/

/-- A range that is accumulated and the estimate of its rows. -/
structure Accumulated where
  first : Int
  last : Int
  rows : UInt64
deriving DecidableEq, Repr

/-- `Coalesce_result`: a range to dump, and whether nothing is accumulated. -/
structure CoalesceResult where
  range : Option (Int × Int)
  flushed : Bool
deriving DecidableEq, Repr

namespace ChunkCoalescer

variable (info : ChunkingInfo)

def maxRows : UInt64 := max info.rowsPerChunk 1

def usedAccuracy : UInt64 := min info.accuracy (maxRows info - 1)

def minAcceptedRows : UInt64 := maxRows info - usedAccuracy info

/-- `compute_max_accepted_rows`. -/
def maxAcceptedRows : UInt64 :=
  if 18446744073709551615 - maxRows info < usedAccuracy info then 18446744073709551615
  else maxRows info + usedAccuracy info

def flushThresholdExceeded (rows : UInt64) : Bool :=
  maxRows info < rows / 3 || rows / 3 = maxRows info && 0 < rows % 3

def readyToFlush (rows : UInt64) : Bool :=
  minAcceptedRows info ≤ rows

def canCoalesce (accumulated rows : UInt64) : Bool :=
  rows < minAcceptedRows info && rows ≤ maxAcceptedRows info &&
    accumulated ≤ maxAcceptedRows info - rows

def addWouldOverflow (left right : UInt64) : Bool :=
  18446744073709551615 - left < right

/-- `flush`: what is accumulated is to be dumped. -/
def flush (accumulated : Option Accumulated) : Option (Int × Int) :=
  accumulated.map fun current => (current.first, current.last)

/-- `coalesce`; returns what is accumulated afterwards. -/
def coalesce (accumulated : Option Accumulated) (first last : Int) (rows : UInt64)
    (final : Bool) : CoalesceResult × Option Accumulated :=
  match accumulated with
  | none =>
    if final then (⟨some (first, last), true⟩, none)
    else (⟨none, false⟩, some ⟨first, last, rows⟩)
  | some current =>
    if readyToFlush info current.rows || !canCoalesce info current.rows rows ||
        addWouldOverflow current.rows rows then
      (⟨some (current.first, current.last), false⟩, some ⟨first, last, rows⟩)
    else
      let joined : Accumulated := ⟨current.first, last, current.rows + rows⟩
      if flushThresholdExceeded info joined.rows || final then
        (⟨some (joined.first, joined.last), true⟩, none)
      else (⟨none, false⟩, some joined)

end ChunkCoalescer

/-! ## Chunks -/

/-- What is pushed for a table: a chunk with a range of keys, a chunk without rows (its
condition is `1=0`), or the chunks of the next column for a single key. -/
inductive ChunkTask where
  | chunk (first last : Int) (lastChunk : Bool)
  | empty (lastChunk : Bool)
  | nested (key : Int) (rows : UInt64)
deriving DecidableEq, Repr

namespace ChunkingInfo

variable (type : KeyType) (info : ChunkingInfo) (estimates : Estimates)

def estimatedChunks : UInt64 :=
  if 0 < info.rowsPerChunk then max (info.rowCount / info.rowsPerChunk) 1 else info.rowCount

def estimatedStep (min max : Int) : Int :=
  type.cast (KeyType.ensureNotZero (type.div (type.distance min max) info.estimatedChunks.toNat))

/-- A constant step is used if there are few chunks, or about as many keys as rows. -/
def useConstantStep (least greatest : Int) : Bool :=
  let range := type.distance least greatest
  let rows := type.ofWhole info.rowCount.toNat
  let accuracy := type.ofWhole (max (info.rowCount / 10) 1).toNat
  info.estimatedChunks < 2 || (if rows < range then range - rows else rows - range) ≤ accuracy

def nextStep (min max start : Int) (asked : Nat) : Option Step :=
  if info.useConstantStep type min max then
    info.constantStep (info.estimatedStep type min max) asked
  else adaptiveStep type info estimates start (info.estimatedStep type min max) max asked

/-- A single key with too many rows, and a next column that they can be split by. -/
def chunksDeeper (step : Step) : Bool :=
  !step.useReturned && type.isSingleValueStep step.size && info.nextColumn = some true &&
    info.accepted < step.rows

/-- The end of the range that begins at `start`. -/
def chunkEnd (max start : Int) (step : Step) : Int :=
  let offset := type.previous step.size
  if type.sub max offset < start then max else type.add start offset

/-- The tasks for a range and what is accumulated then. -/
def pushRange (accumulated : Option Accumulated) (first last : Int) (rows : UInt64)
    (final : Bool) : List ChunkTask × Option Accumulated :=
  let (result, rest) := ChunkCoalescer.coalesce info accumulated first last rows final
  let lastInDump := final && info.firstColumn
  let pushed := (result.range.map fun (first, last) =>
    ChunkTask.chunk first last (lastInDump && result.flushed)).toList
  if !result.flushed && final then
    match ChunkCoalescer.flush rest with
    | some (first, last) => (pushed ++ [.chunk first last lastInDump], none)
    | none => (pushed ++ if lastInDump then [.empty true] else [], none)
  else (pushed, rest)

/-- The tasks for a single key that is split by the next column. The last chunk of the dump
is an empty one then. -/
def pushNested (accumulated : Option Accumulated) (key : Int) (rows : UInt64) (final : Bool) :
    List ChunkTask :=
  ((ChunkCoalescer.flush accumulated).map fun (first, last) =>
    ChunkTask.chunk first last false).toList ++ .nested key rows ::
      if final && info.firstColumn then [.empty true] else []

def push (accumulated : Option Accumulated) (start last : Int) (step : Step) (final : Bool) :
    List ChunkTask × Option Accumulated :=
  if chunksDeeper type info step then (info.pushNested accumulated start step.rows final, none)
  else info.pushRange accumulated start last step.rows final

/-- The loop of `chunk_integer_column`. -/
def chunkLoop (min max : Int) : Nat → Int → Option Accumulated → Nat → Option (List ChunkTask)
  | 0, _, _, _ => none
  | rounds + 1, start, accumulated, asked => do
      let step ← nextStep type info estimates min max start asked
      let last := chunkEnd type max start step
      let final : Bool := max ≤ last
      let (pushed, rest) := push type info accumulated start last step final
      if final then some pushed
      else
        let later ← chunkLoop min max rounds (type.next last) rest step.asked
        some (pushed ++ later)

/-- `chunk_integer_column`, which divides by the number of chunks. A range takes one key at
least. -/
def chunkIntegerColumn (min max : Int) : Option (List ChunkTask) :=
  if info.estimatedChunks = 0 then none
  else chunkLoop type info estimates min max ((max - min).toNat + 1) min none 0

end ChunkingInfo

end MariadbShell.Dump
