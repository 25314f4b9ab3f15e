import MariadbShell.ImportTable.Dialect

/-!
# Files in blocks of memory

A threaded file reads a file in blocks of one size; reads may be short, and a block is read
until it is full or the file ends. Blocks are collected in an allocated file, which finds a
byte by the size of the blocks: behind a shorter block none can be appended.
-/

namespace MariadbShell.Storage

open List
open ImportTable (Bytes)

/-- All blocks have the given size, only the last one may be shorter. -/
def Consecutive (blockSize : Nat) : List Bytes → Prop
  | [] => True
  | [block] => block.length ≤ blockSize
  | block :: next :: blocks => block.length = blockSize ∧ Consecutive blockSize (next :: blocks)

namespace Consecutive

variable {blockSize : Nat} {blocks : List Bytes}

theorem tail {block : Bytes} (consecutive : Consecutive blockSize (block :: blocks)) :
    Consecutive blockSize blocks := by
  cases blocks with
  | nil => trivial
  | cons next blocks => exact consecutive.2

theorem head_eq {block : Bytes} (consecutive : Consecutive blockSize (block :: blocks))
    (more : blocks ≠ []) :
    block.length = blockSize := by
  cases blocks with
  | nil => exact absurd rfl more
  | cons next blocks => exact consecutive.1

theorem head_le {block : Bytes} (consecutive : Consecutive blockSize (block :: blocks)) :
    block.length ≤ blockSize := by
  cases blocks with
  | nil => exact consecutive
  | cons next blocks => exact Nat.le_of_eq consecutive.1

theorem append_full {last : Bytes} (full : ∀ block ∈ blocks, block.length = blockSize)
    (small : last.length ≤ blockSize) :
    Consecutive blockSize (blocks ++ [last]) := by
  induction blocks with
  | nil => exact small
  | cons block blocks ih =>
    have first := full block mem_cons_self
    have rest := ih fun other member => full other (mem_cons_of_mem _ member)
    cases blocks with
    | nil => exact ⟨first, rest⟩
    | cons next blocks => exact ⟨first, rest⟩

/-- The first blocks are found by their size. -/
theorem drop (consecutive : Consecutive blockSize blocks) (count : Nat)
    (inside : count * blockSize ≤ blocks.flatten.length) :
    Consecutive blockSize (blocks.drop count) ∧
      (blocks.drop count).flatten = blocks.flatten.drop (count * blockSize) := by
  induction count generalizing blocks with
  | zero =>
    rw [Nat.zero_mul]
    exact ⟨consecutive, rfl⟩
  | succ count ih =>
    rw [Nat.succ_mul] at inside ⊢
    cases blocks with
    | nil => exact ⟨trivial, drop_nil.symm⟩
    | cons block blocks =>
      rw [flatten_cons, length_append] at inside
      have size : block.length = blockSize := by
        by_cases more : blocks = []
        · have small := consecutive.head_le
          rw [more, flatten_nil, length_nil] at inside
          omega
        · exact consecutive.head_eq more
      obtain ⟨rest, flat⟩ := ih consecutive.tail (by omega)
      refine ⟨rest, ?_⟩
      rw [drop_succ_cons, flat, flatten_cons, Nat.add_comm, ← drop_drop, ← size, drop_left]

end Consecutive

/-! ## Threaded files -/

namespace ThreadedFile

/--
The loop of a worker over a block of which `missing` bytes are missing. A read is answered with
as many bytes as `amounts` says, but with one at least unless the file ends.
-/
def fillBlock (amounts : Nat → Nat) : Nat → Nat → Nat → Bytes → Bytes → Bytes
  | 0, _, _, block, _ => block
  | rounds + 1, reads, missing, block, rest =>
    if missing = 0 then block
    else
      let result := rest.take (max 1 (min (amounts reads) missing))
      if result = [] then block
      else
        fillBlock amounts rounds (reads + 1) (missing - result.length) (block ++ result)
          (rest.drop result.length)

/-- The blocks of the rest of a file, up to the first empty one. -/
def extractAll (blockSize : Nat) (amounts : Nat → Nat → Nat) : Nat → Nat → Bytes → List Bytes
  | 0, _, _ => []
  | count + 1, index, rest =>
    let block := fillBlock (amounts index) blockSize 0 blockSize [] rest
    if block = [] then []
    else block :: extractAll blockSize amounts count (index + 1) (rest.drop blockSize)

/-- The blocks of a file; each takes one byte of it at least. -/
def extracted (blockSize : Nat) (amounts : Nat → Nat → Nat) (file : Bytes) : List Bytes :=
  extractAll blockSize amounts file.length 0 file

/-- Short reads do not matter. -/
theorem fillBlock_eq (amounts : Nat → Nat) (rounds reads : Nat) {missing : Nat}
    (block rest : Bytes) (enough : missing ≤ rounds) :
    fillBlock amounts rounds reads missing block rest = block ++ rest.take missing := by
  induction rounds generalizing reads missing block rest with
  | zero =>
    rw [Nat.le_zero.mp enough, take_zero, append_nil]
    rfl
  | succ rounds ih =>
    unfold fillBlock
    by_cases full : missing = 0
    · rw [if_pos full, full, take_zero, append_nil]
    · rw [if_neg full]
      generalize amount : max 1 (min (amounts reads) missing) = size
      have length : (rest.take size).length = min size rest.length := length_take
      by_cases ended : rest.take size = []
      · rw [ended, length_nil] at length
        have none : rest = [] := eq_nil_of_length_eq_zero (by omega)
        rw [if_pos ended, none, take_nil, append_nil]
      · have some : 1 ≤ (rest.take size).length := length_pos_iff.mpr ended
        have total : missing = min size rest.length + (missing - min size rest.length) := by omega
        rw [if_neg ended, ih _ _ _ (by omega), append_assoc, length,
          take_eq_take_min, ← take_add, ← total]

theorem extractAll_spec {blockSize : Nat} (positive : 0 < blockSize) (amounts : Nat → Nat → Nat)
    (count index : Nat) {rest : Bytes} (enough : rest.length ≤ count) :
    (extractAll blockSize amounts count index rest).flatten = rest ∧
      Consecutive blockSize (extractAll blockSize amounts count index rest) ∧
      ∀ block ∈ extractAll blockSize amounts count index rest, block ≠ [] := by
  induction count generalizing index rest with
  | zero =>
    rw [eq_nil_of_length_eq_zero (Nat.le_zero.mp enough)]
    exact ⟨rfl, trivial, nofun⟩
  | succ count ih =>
    unfold extractAll
    rw [fillBlock_eq _ _ _ _ _ (Nat.le_refl _), nil_append]
    by_cases ended : rest.take blockSize = []
    · have none : rest = [] := by
        have length := @length_take _ blockSize rest
        rw [ended, length_nil] at length
        exact eq_nil_of_length_eq_zero (by omega)
      rw [if_pos ended, none]
      exact ⟨rfl, trivial, nofun⟩
    · have shorter := @length_drop _ blockSize rest
      obtain ⟨flat, consecutive, filled⟩ := @ih (index + 1) (rest.drop blockSize) (by omega)
      rw [if_neg ended]
      refine ⟨?_, ?_, forall_mem_cons.mpr ⟨ended, filled⟩⟩
      · rw [flatten_cons, flat, take_append_drop]
      · generalize extractAll blockSize amounts count (index + 1) _ = blocks at *
        cases blocks with
        | nil => exact length_take_le _ _
        | cons next blocks =>
          refine ⟨?_, consecutive⟩
          have more : 0 < (rest.drop blockSize).length := by
            rw [← flat, flatten_cons, length_append]
            have := length_pos_iff.mpr (filled next mem_cons_self)
            omega
          rw [length_take]
          omega

/-- The blocks of a file have its content. -/
theorem extracted_spec {blockSize : Nat} (positive : 0 < blockSize) (amounts : Nat → Nat → Nat)
    (file : Bytes) :
    (extracted blockSize amounts file).flatten = file ∧
      Consecutive blockSize (extracted blockSize amounts file) ∧
      ∀ block ∈ extracted blockSize amounts file, block ≠ [] :=
  extractAll_spec positive amounts _ 0 (Nat.le_refl _)

end ThreadedFile

/-! ## Allocated files -/

/-- The members of `Allocated_file` with the used bytes of its blocks. -/
structure AllocatedFile where
  blocks : List Bytes
  size : Nat
  acceptsAppend : Bool
deriving DecidableEq, Repr

structure AppendNotAllowed where
deriving DecidableEq, Repr

namespace AllocatedFile

variable (blockSize : Nat)

def empty : AllocatedFile := ⟨[], 0, true⟩

variable (file : AllocatedFile)

def append (block : Bytes) : Except AppendNotAllowed AllocatedFile :=
  if file.acceptsAppend then
    .ok ⟨file.blocks ++ [block], file.size + block.length, block.length = blockSize⟩
  else .error {}

/-- The loop of `read` from a position in the first of the blocks, with `left` bytes up to the
end of the file. -/
def readBlocks : List Bytes → Nat → Nat → Nat → Bytes
  | [], _, _, _ => []
  | block :: blocks, blockOffset, length, left =>
    let toRead := min (min length (blockSize - blockOffset)) left
    (block.drop blockOffset).take toRead ++ readBlocks blocks 0 (length - toRead) (left - toRead)

/-- `seek` and `read`. -/
def read (offset length : Nat) : Bytes :=
  readBlocks blockSize (file.blocks.drop (offset / blockSize)) (offset % blockSize) length
    (file.size - offset)

def content : Bytes := file.blocks.flatten

/-- The sizes of the blocks, and whether there can be more of them. -/
structure WellFormed : Prop where
  size : file.size = file.content.length
  consecutive : Consecutive blockSize file.blocks
  full : file.acceptsAppend = true → ∀ block ∈ file.blocks, block.length = blockSize

variable {blockSize}

theorem readBlocks_eq {blocks : List Bytes} (consecutive : Consecutive blockSize blocks)
    {blockOffset : Nat} (inside : blockOffset ≤ blockSize) (length left : Nat) :
    readBlocks blockSize blocks blockOffset length left =
      (blocks.flatten.drop blockOffset).take (min length left) := by
  induction blocks generalizing blockOffset length left with
  | nil => simp [readBlocks]
  | cons block blocks ih =>
    unfold readBlocks
    dsimp only
    rw [ih consecutive.tail (Nat.zero_le _), drop_zero, flatten_cons]
    by_cases more : blocks = []
    · have small := consecutive.head_le
      rw [more, flatten_nil, take_nil, append_nil, append_nil]
      have length_drop := @length_drop _ blockOffset block
      by_cases all : min (min length (blockSize - blockOffset)) left = min length left
      · rw [all]
      · rw [take_of_length_le (by omega), take_of_length_le (by omega)]
    · have size := consecutive.head_eq more
      have length_drop := @length_drop _ blockOffset block
      rw [drop_append_of_le_length (by omega), take_append]
      congr 1
      · rw [take_eq_take_iff]
        omega
      · congr 1
        omega

/-- A file is read as if its blocks were one. -/
theorem WellFormed.read_eq {file : AllocatedFile} (formed : file.WellFormed blockSize)
    (positive : 0 < blockSize) {offset : Nat} (inside : offset ≤ file.size) (length : Nat) :
    file.read blockSize offset length =
      (file.content.drop offset).take (min length (file.size - offset)) := by
  have split : offset / blockSize * blockSize + offset % blockSize = offset := by
    rw [Nat.mul_comm]
    exact Nat.div_add_mod offset blockSize
  have size := formed.size
  obtain ⟨rest, flat⟩ := formed.consecutive.drop (offset / blockSize)
    (by rw [content] at size; omega)
  rw [read, readBlocks_eq rest (Nat.mod_lt _ positive).le, flat, drop_drop, split]
  rfl

theorem wellFormed_empty : empty.WellFormed blockSize :=
  ⟨rfl, trivial, fun _ => nofun⟩

/-- A block behind full ones. -/
theorem WellFormed.append {file : AllocatedFile} (formed : file.WellFormed blockSize)
    (accepts : file.acceptsAppend = true) {block : Bytes} (small : block.length ≤ blockSize) :
    ∃ longer, file.append blockSize block = .ok longer ∧ longer.WellFormed blockSize ∧
      longer.content = file.content ++ block ∧
      (longer.acceptsAppend = true ↔ block.length = blockSize) := by
  have content : (file.blocks ++ [block]).flatten = file.blocks.flatten ++ block := by simp
  refine ⟨_, if_pos accepts, ⟨?_, ?_, fun full => ?_⟩, content, decide_eq_true_iff⟩
  · change file.size + block.length = (file.blocks ++ [block]).flatten.length
    rw [content, formed.size, length_append]
    rfl
  · exact Consecutive.append_full (formed.full accepts) small
  · intro other member
    obtain old | new := mem_append.mp member
    · exact formed.full accepts other old
    · rw [mem_singleton.mp new]
      exact of_decide_eq_true full

end AllocatedFile

end MariadbShell.Storage
