import MariadbShell.ImportTable.ReadPass

/-!
# The number of bytes a read returns

A read may return more bytes than were asked for: the search for the last row that
can be sent bounds where a line terminator starts, not where it ends. A read of at
least one byte stays within its length exactly when no terminator can reach past it.
-/

namespace MariadbShell.ImportTable

open List Lib.MachineInt Lib.Search

namespace TransactionBuffer

inductive Operation where
  | read (length : UInt32)
  | flushDone
  | markRetryPoint
  | tryRewindForRetry

variable (buffer : TransactionBuffer)

def Operation.apply : Operation → TransactionBuffer
  | .read length => (buffer.read length).2
  | .flushDone => buffer.flushDone.2
  | .markRetryPoint => buffer.markRetryPoint
  | .tryRewindForRetry => buffer.tryRewindForRetry.2

def run (operations : List Operation) : TransactionBuffer :=
  operations.foldl Operation.apply buffer

/-! ## The dialect of a buffer -/

theorem apply_dialect (operation : Operation) :
    (operation.apply buffer).dialect = buffer.dialect := by
  cases operation with
  | read length =>
    simp only [Operation.apply, read]
    split
    · rfl
    · exact (buffer.kept_readPasses _ _).dialect_eq
  | flushDone => rfl
  | markRetryPoint =>
    simp only [Operation.apply, markRetryPoint]
    split <;> rfl
  | tryRewindForRetry =>
    simp only [Operation.apply, tryRewindForRetry]
    split
    · split <;> rfl
    · rfl

/-- No operation changes the dialect. -/
theorem run_dialect (operations : List Operation) (buffer : TransactionBuffer) :
    (buffer.run operations).dialect = buffer.dialect := by
  induction operations generalizing buffer with
  | nil => rfl
  | cons operation operations ih => exact (ih _).trans (apply_dialect buffer operation)

/-! ## Reads that stay within their length -/

/-- No line terminator that starts within the length can be sent past it. -/
def StaysWithin (dialect : Dialect) (length : Nat) : Prop :=
  dialect.linesTerminatedBy.length = 1 ∨ length ≤ dialect.linesTerminatedBy.length ∨
    length = 2 ^ 32 - 1

variable {dialect : Dialect} {length : Nat} {copied : Bytes} {next buffer : TransactionBuffer}
  {filler : UInt8}

theorem wholeRows_le (supports : dialect.SupportsSubChunking) (positive : 0 < length)
    (bounded : length < 2 ^ 32) (within : StaysWithin dialect length) (data : Bytes) :
    toUInt32 (findLastRowBoundaryBefore dialect data length) ≤ length := by
  have narrowed : ∀ count : Nat,
      toUInt32 (count : Int) ≤ count ∧ toUInt32 (count : Int) < 2 ^ 32 := by
    intro count
    unfold toUInt32
    omega
  have count := narrowed (findLastRowBoundaryBefore dialect data length)
  rcases within with single | short | whole
  · exact count.1.trans (findLast_le_of_single single positive (by omega))
  · exact count.1.trans (findLast_le_of_short supports.1 positive (by omega) short)
  · omega

theorem Outcome.length_le {more : TransactionBuffer} (supports : more.dialect.SupportsSubChunking)
    (positive : 0 < length) (bounded : length < 2 ^ 32) (within : StaysWithin more.dialect length)
    (outcome : Outcome more length (.done (some copied) next)) :
    copied.length ≤ length := by
  generalize result : Pass.done (some copied) next = pass at outcome
  cases outcome with
  | flush =>
    cases result
    exact Nat.zero_le _
  | wholeRows =>
    cases result
    exact (length_consume_le _ _).trans (wholeRows_le supports positive bounded within _)
  | knownRow =>
    cases result
    exact (length_consume_le _ _).trans (Nat.min_le_left _ _)
  | retry => cases result
  | boundary | rowEnd | oversized | partialRow | lastRow =>
    cases result
    exact length_consume_le _ _

section

variable (supports : buffer.dialect.SupportsSubChunking)

include supports

theorem readPass_length_le (positive : 0 < length) (bounded : length < 2 ^ 32)
    (within : StaysWithin buffer.dialect length)
    (result : buffer.readPass length = .done (some copied) next) : copied.length ≤ length := by
  have same := (buffer.kept_readMore length).dialect_eq
  rcases buffer.readPass_cases length with sent | ⟨failed, -, failure⟩ | ⟨more, read, outcome⟩
  · rw [result] at sent
    cases sent
    exact length_consume_le _ _
  · rw [result] at failure
    cases failure
  · rw [result] at outcome
    rw [read] at same
    rw [← same] at supports within
    exact outcome.length_le supports positive bounded within

theorem readPasses_length_le {fuel : Nat} (positive : 0 < length) (bounded : length < 2 ^ 32)
    (within : StaysWithin buffer.dialect length)
    (result : readPasses fuel buffer length = (some copied, next)) : copied.length ≤ length := by
  induction fuel generalizing buffer with
  | zero => cases result
  | succ fuel ih =>
    have same := (buffer.kept_readPass length).dialect_eq
    unfold readPasses at result
    cases pass : buffer.readPass length with
    | done answer final =>
      rw [pass] at result
      cases result
      exact readPass_length_le supports positive bounded within pass
    | retry more =>
      rw [pass] at result same
      rw [← same] at supports within
      exact ih supports within result

/-- A read of a length that no terminator can overstep returns at most that many bytes. -/
theorem read_length_le {length : UInt32} (positive : 0 < length.toNat)
    (within : StaysWithin buffer.dialect length.toNat)
    (result : buffer.read length = (some copied, next)) : copied.length ≤ length.toNat := by
  unfold read at result
  by_cases disabled : buffer.maxTrxSize = 0
  · rw [if_pos disabled] at result
    exact SourceFile.length_read_le (congrArg Prod.fst result)
  · rw [if_neg disabled] at result
    exact readPasses_length_le supports positive length.toNat_lt within result

end

/-! ## Reads that overrun their length -/

def ampleLimit : UInt64 := 4611686018427387904

/-- With an ample limit, a read sends the rows whose terminators start within its length. -/
theorem read_wholeRows {length : UInt32} (ample : buffer.maxTrxSize = ampleLimit)
    (noEnd : buffer.trxEndOffset = 0) (running : buffer.eof = false)
    (sentFew : buffer.trxSize < 2 ^ 60) {served : Nat}
    (answer : buffer.file.serve buffer.file.calls = some served) {data : Bytes}
    (buffered : buffer.data ++ buffer.file.rest.take (min length.toNat (served + 1)) = data)
    (nonempty : buffer.file.rest.take (min length.toNat (served + 1)) ≠ [])
    (fits : data.length < 2 ^ 60) {rowEnd : Nat}
    (found : findLastRowBoundaryBefore buffer.dialect data length.toNat = rowEnd)
    (positive : 0 < rowEnd) (bounded : rowEnd < 2 ^ 32) :
    buffer.read length = (some (data.take rowEnd),
      { buffer with
        file := (buffer.file.read length.toNat).2
        data := data.drop rowEnd
        trxSize := buffer.trxSize + (data.take rowEnd).length
        partialRowSent := false
        oversizedRowCounted := false }) := by
  have result := readMore_serve running answer nonempty
  rw [buffered] at result
  have ample_eq : ampleLimit.toNat = 2 ^ 62 := rfl
  have left : ({ buffer with file := (buffer.file.read length.toNat).2, data } :
      TransactionBuffer).trxBytesLeft = (2 ^ 62 : Int) - buffer.trxSize := by
    simp only [trxBytesLeft, ample]
    exact toInt64_of_range (by omega) (by omega)
  have pass := (readPass_outcome noEnd (by exact noEnd) result).eq_wholeRows
    (by rw [left]; dsimp only; omega) (by rw [found]; exact positive)
  rw [found, toUInt32_natCast (by omega), sending, consume_open (by exact noEnd)] at pass
  rw [read, if_neg (by rw [ample]; decide), readPasses, pass]

/-- Some byte is neither the last byte of the line terminator nor the escape character. -/
theorem exists_filler (dialect : Dialect) :
    ∃ filler : UInt8, dialect.linesTerminatedBy.getLast? ≠ some filler ∧
      dialect.fieldsEscapedBy.head? ≠ some filler := by
  generalize dialect.linesTerminatedBy.getLast? = last
  generalize dialect.fieldsEscapedBy.head? = escape
  by_cases zero : last ≠ some 0 ∧ escape ≠ some 0
  · exact ⟨0, zero⟩
  · by_cases one : last ≠ some 1 ∧ escape ≠ some 1
    · exact ⟨1, one⟩
    · refine ⟨2, ?_⟩
      grind

/-- A part of a row that fills the read, and a terminator that crosses its end. -/
def overrunRow (dialect : Dialect) (filler : UInt8) (length : Nat) : Bytes :=
  List.replicate (length - dialect.linesTerminatedBy.length) filler ++ dialect.linesTerminatedBy

theorem length_overrunRow (longer : dialect.linesTerminatedBy.length < length) :
    (overrunRow dialect filler length).length = length := by
  rw [overrunRow, length_append, length_replicate, Nat.sub_add_cancel longer.le]

/-- A file whose second read of the given length returns one byte too many. -/
def overrunFile (dialect : Dialect) (filler : UInt8) (length : UInt32)
    (longer : dialect.linesTerminatedBy.length < length.toNat) : SourceFile where
  bytes := (dialect.linesTerminatedBy ++ [filler]) ++ overrunRow dialect filler length.toNat
  offset := 0
  calls := 0
  seekable := true
  serve := fun call => some (if call = 0 then dialect.linesTerminatedBy.length else 2 ^ 32)
  fits := by
    have bounded := length.toNat_lt
    simp only [length_append, length_overrunRow longer, length_singleton]
    omega

/-- The boundary found in the data of the first read: the end of the first row. -/
theorem findLast_overrun_first (nonempty : dialect.linesTerminatedBy ≠ [])
    (longer : dialect.linesTerminatedBy.length < length)
    (notLast : dialect.linesTerminatedBy.getLast? ≠ some filler) :
    findLastRowBoundaryBefore dialect (dialect.linesTerminatedBy ++ [filler]) length =
      dialect.linesTerminatedBy.length := by
  have start : searchStart (dialect.linesTerminatedBy ++ [filler]) length =
      dialect.linesTerminatedBy.length + 1 := by
    rw [searchStart_of_le (by simpa using longer), length_append, length_singleton]
  have last : ∀ other, 0 < other →
      other ≤ searchStart (dialect.linesTerminatedBy ++ [filler]) length →
      ¬ OccursAt dialect.linesTerminatedBy (dialect.linesTerminatedBy ++ [filler]) other := by
    -- a terminator behind the first byte would end with the filler
    intro other later _ occurs
    have ending := occurs.end_le nonempty
    rw [length_append, length_singleton] at ending
    have whole := IsPrefix.eq_of_length_le occurs (by
      rw [length_drop, length_append, length_singleton]
      omega)
    rw [drop_append_of_le_length (by have := length_pos_of_ne_nil nonempty; omega)] at whole
    exact notLast ((congrArg getLast? whole).trans getLast?_concat)
  rw [findLast_eq nonempty (by rw [start]; omega)
    (show OccursAt dialect.linesTerminatedBy _ 0 from prefix_append _ _)
    (Nat.zero_le _) last (fun escaped => Nat.lt_irrefl 0 escaped.1), Nat.zero_add]

/-- The boundary found in the data of the second read lies past the requested length. -/
theorem findLast_overrun_second (several : 2 ≤ dialect.linesTerminatedBy.length)
    (longer : dialect.linesTerminatedBy.length < length) (bounded : length < 2 ^ 64)
    (notEscape : dialect.fieldsEscapedBy.head? ≠ some filler) :
    findLastRowBoundaryBefore dialect (filler :: overrunRow dialect filler length) length =
      length + 1 := by
  have nonempty : dialect.linesTerminatedBy ≠ [] := ne_nil_of_length_pos (by omega)
  rw [overrunRow, ← cons_append, ← replicate_succ]
  generalize offset_eq : length - dialect.linesTerminatedBy.length + 1 = offset
  have size : (List.replicate offset filler ++ dialect.linesTerminatedBy).length = length + 1 := by
    rw [length_append, length_replicate]
    omega
  have start : searchStart (List.replicate offset filler ++ dialect.linesTerminatedBy) length =
      length - 1 := searchStart_of_lt (by omega) bounded (by omega)
  have occurs : OccursAt dialect.linesTerminatedBy
      (List.replicate offset filler ++ dialect.linesTerminatedBy) offset := by
    unfold OccursAt
    rw [drop_left' length_replicate]
  have last : ∀ other, offset < other →
      other ≤ searchStart (List.replicate offset filler ++ dialect.linesTerminatedBy) length →
      ¬ OccursAt dialect.linesTerminatedBy
        (List.replicate offset filler ++ dialect.linesTerminatedBy) other := by
    intro other later _ here
    have ending := here.end_le nonempty
    omega
  have plain : ¬ EscapedAt dialect
      (List.replicate offset filler ++ dialect.linesTerminatedBy) offset := by
    intro escaped
    have before := escaped.2
    rw [getElem?_append_left (by rw [length_replicate]; omega),
      getElem?_replicate_of_lt (by omega)] at before
    exact notEscape before.symm
  rw [findLast_eq nonempty (by rw [start]; omega) occurs (by rw [start]; omega) last plain]
  omega

theorem overrun_read (supports : dialect.SupportsSubChunking) {length : UInt32}
    (several : 2 ≤ dialect.linesTerminatedBy.length)
    (longer : dialect.linesTerminatedBy.length < length.toNat) (bounded : length.toNat + 1 < 2 ^ 32)
    (notLast : dialect.linesTerminatedBy.getLast? ≠ some filler)
    (notEscape : dialect.fieldsEscapedBy.head? ≠ some filler) :
    ∃ copied next,
      (run (create dialect (overrunFile dialect filler length longer) ampleLimit 0)
        [.read length]).read length = (some copied, next) ∧ length.toNat < copied.length := by
  have size : (overrunRow dialect filler length.toNat).length = length.toNat :=
    length_overrunRow longer
  have least : min length.toNat (dialect.linesTerminatedBy.length + 1) =
      (dialect.linesTerminatedBy ++ [filler]).length := by
    rw [length_append, length_singleton]
    omega
  have firstData : (overrunFile dialect filler length longer).rest.take
      (min length.toNat (dialect.linesTerminatedBy.length + 1)) =
        dialect.linesTerminatedBy ++ [filler] := by
    rw [least]
    exact take_left
  have firstRead := @read_wholeRows
    (create dialect (overrunFile dialect filler length longer) ampleLimit 0) length
    (if_pos supports) rfl rfl (Nat.two_pow_pos 60) _ rfl _ firstData
    (firstData.trans_ne (append_ne_nil_of_left_ne_nil supports.1 _))
    (by rw [length_append, length_singleton]; omega) dialect.linesTerminatedBy.length
    (findLast_overrun_first supports.1 longer notLast) (by omega) (by omega)
  rw [drop_left, take_left] at firstRead
  have secondData : ((overrunFile dialect filler length longer).read length.toNat).2.rest.take
      (min length.toNat (2 ^ 32 + 1)) = overrunRow dialect filler length.toNat := by
    rw [SourceFile.read_rest (show _ = some dialect.linesTerminatedBy.length from rfl), least,
      Nat.min_eq_left (by omega)]
    exact (congrArg (take _) drop_left).trans (take_of_length_le size.le)
  have secondRead := @read_wholeRows
    { create dialect (overrunFile dialect filler length longer) ampleLimit 0 with
      file := ((overrunFile dialect filler length longer).read length.toNat).2
      data := [filler]
      trxSize := 0 + dialect.linesTerminatedBy.length }
    length (if_pos supports) rfl rfl (by dsimp only; omega) (2 ^ 32) rfl _
    (congrArg (filler :: ·) secondData) (secondData.trans_ne (ne_nil_of_length_pos (by omega)))
    (by rw [length_cons, size]; omega) (length.toNat + 1)
    (findLast_overrun_second several longer (by omega) notEscape) (by omega) (by omega)
  rw [run, foldl_cons, Operation.apply, firstRead]
  refine ⟨_, _, secondRead, ?_⟩
  rw [take_of_length_le (by rw [length_cons, size]), length_cons, size]
  exact Nat.lt_succ_self _

/--
Reads of at least one byte never return more bytes than they ask for exactly when every length
in use stays within itself.
-/
theorem read_within_length_iff (dialect : Dialect) (supports : dialect.SupportsSubChunking)
    (allowed : UInt32 → Prop) (positive : ∀ length, allowed length → 0 < length.toNat) :
    (∀ (file : SourceFile) (limit : UInt64) (skipBytes : Nat) (operations : List Operation)
      (length : UInt32) (copied : Bytes) (next : TransactionBuffer),
      (∀ size, .read size ∈ operations → allowed size) → allowed length →
      (run (create dialect file limit skipBytes) operations).read length = (some copied, next) →
      copied.length ≤ length.toNat) ↔
    ∀ length, allowed length → StaysWithin dialect length.toNat := by
  constructor
  · intro bounded length isAllowed
    by_contra overruns
    simp only [StaysWithin] at overruns
    have nonempty := length_pos_of_ne_nil supports.1
    have top := length.toNat_lt
    obtain ⟨filler, notLast, notEscape⟩ := exists_filler dialect
    have shorter : dialect.linesTerminatedBy.length < length.toNat := by omega
    obtain ⟨copied, next, result, longer⟩ :=
      overrun_read supports (by omega) shorter (by omega) notLast notEscape
    have onlyAllowed : ∀ size, Operation.read size ∈ [Operation.read length] → allowed size := by
      intro size member
      cases mem_singleton.mp member
      exact isAllowed
    have within := bounded _ _ _ _ length copied next onlyAllowed isAllowed result
    omega
  · intro within file limit skipBytes operations length copied next _ isAllowed result
    have same : (run (create dialect file limit skipBytes) operations).dialect = dialect :=
      run_dialect operations _
    refine read_length_le ?_ (positive length isAllowed) ?_ result
    · rw [same]
      exact supports
    · rw [same]
      exact within length isAllowed

/-- The default dialect has a one-byte terminator: all of its reads stay within their length. -/
theorem read_within_length_iff_default :
    (∀ (file : SourceFile) (limit : UInt64) (skipBytes : Nat) (operations : List Operation)
      (length : UInt32) (copied : Bytes) (next : TransactionBuffer),
      (∀ size, .read size ∈ operations → 0 < size.toNat) → 0 < length.toNat →
      (run (create Dialect.default_ file limit skipBytes) operations).read length =
        (some copied, next) →
      copied.length ≤ length.toNat) ↔
    ∀ length : UInt32, 0 < length.toNat → StaysWithin Dialect.default_ length.toNat :=
  read_within_length_iff Dialect.default_ (by decide) (fun length => 0 < length.toNat)
    (fun _ positive => positive)

/--
A read of four bytes of a csv file returns five, and a read of no bytes in the
default dialect returns one.
-/
theorem read_overruns_length :
    ((run (create Dialect.csv
        ⟨[13, 10, 97, 97, 97, 13, 10], 0, 0, true, fun _ => some 99, by decide⟩ 4096 0)
        [.read 4]).read 4).1 = some [97, 97, 97, 13, 10] ∧
    ((run (create Dialect.default_
        ⟨[10, 97, 98, 10], 0, 0, true, fun _ => some 99, by decide⟩ 4096 0)
        [.read 2, .read 2]).read 0).1 = some [10] := by
  decide +kernel

end TransactionBuffer

end MariadbShell.ImportTable
