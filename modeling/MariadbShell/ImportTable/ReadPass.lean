import MariadbShell.ImportTable.RowBoundary

/-!
# What a pass of `read` can do

The building blocks of `TransactionBuffer.read`, each with the one fact its callers
need, and the inversion of a pass: `Outcome` lists every way in which a pass ends
together with the tests that led there.
-/

namespace MariadbShell.ImportTable

open List Lib.MachineInt Lib.Search

namespace SourceFile

variable {file : SourceFile}

/-- A successful read takes its bytes from the front of the unread ones. -/
theorem read_split {next : SourceFile} {count : Nat} {copied : Bytes}
    (result : file.read count = (some copied, next)) : file.rest = copied ++ next.rest := by
  unfold read at result
  split at result
  · cases result
  · cases result
    change _ = _ ++ file.bytes.drop _
    rw [← drop_drop]
    exact (prefix_iff_eq_append.mp (List.take_prefix _ _)).symm

/-- A successful read moves a prefix of the unread bytes, nothing only at the end. -/
theorem read_some {next : SourceFile} {count : Nat} {copied : Bytes} (positive : 0 < count)
    (result : file.read count = (some copied, next)) :
    next.bytes = file.bytes ∧ next.offset = file.offset + copied.length ∧
      next.serve = file.serve ∧ file.rest = copied ++ next.rest ∧
      (copied = [] → next.rest = []) := by
  have split := read_split result
  unfold read at result
  split at result
  · cases result
  · cases result
    refine ⟨rfl, rfl, rfl, split, fun empty => ?_⟩
    have ended : file.rest = [] := (take_eq_nil_iff.mp empty).resolve_left (by omega)
    exact (append_eq_nil_iff.mp (split.symm.trans ended)).2

/-- A read returns at most as many bytes as were asked for. -/
theorem length_read_le {count : Nat} {copied : Bytes} (result : (file.read count).1 = some copied) :
    copied.length ≤ count := by
  unfold read at result
  split at result
  · cases result
  · cases result
    rw [length_take]
    omega

/-- A healthy file answers every read, and stays healthy. -/
theorem read_healthy (healthy : file.Healthy) (count : Nat) :
    ∃ copied next, file.read count = (some copied, next) ∧ next.Healthy := by
  unfold read
  cases answer : file.serve file.calls with
  | none => exact absurd answer (healthy _)
  | some limit => exact ⟨_, _, rfl, healthy⟩

/-- Reading bytes away has the effect of a seek. -/
theorem readAway_rest {fuel : Nat} (healthy : file.Healthy) {skipBytes : Nat}
    (enough : skipBytes ≤ fuel) :
    (readAway fuel file skipBytes).rest = file.rest.drop skipBytes := by
  induction fuel generalizing file skipBytes with
  | zero =>
    rw [Nat.le_zero.mp enough]
    rfl
  | succ fuel ih =>
    unfold readAway
    by_cases nothing : skipBytes = 0
    · rw [if_pos nothing, nothing]
      rfl
    · rw [if_neg nothing]
      have positive : 0 < min skipBytes skipBlock := by
        unfold skipBlock
        omega
      obtain ⟨copied, next, result, healthyNext⟩ := read_healthy healthy (min skipBytes skipBlock)
      obtain ⟨-, -, -, split, ended⟩ := read_some positive result
      have within : copied.length ≤ min skipBytes skipBlock :=
        length_read_le (congrArg Prod.fst result)
      simp only [result]
      by_cases empty : copied = []
      · rw [if_pos empty, split, empty, ended empty, nil_append, drop_nil]
      · have longer := length_pos_of_ne_nil empty
        have gone : copied.drop skipBytes = [] := drop_of_length_le (by omega)
        rw [if_neg empty, ih healthyNext (by omega), split, drop_append, gone, nil_append]

/-- What is left of a file behind the bytes that are skipped. -/
theorem skip_rest (fresh : file.offset = 0) (healthy : file.Healthy) (skipBytes : Nat) :
    (file.skip skipBytes).rest = file.bytes.drop skipBytes := by
  have all : file.rest = file.bytes := by rw [rest, fresh, drop_zero]
  unfold skip
  split
  · next zero => rw [zero, all, drop_zero]
  · unfold seek
    split
    · next found =>
      split at found
      · cases found
        rfl
      · cases found
    · rw [readAway_rest healthy (Nat.le_refl skipBytes), all]

/-- What is left of the file after a read that the storage answers with enough bytes. -/
theorem read_rest {limit : Nat} (answer : file.serve file.calls = some limit) (count : Nat) :
    (file.read count).2.rest = file.rest.drop (min count (limit + 1)) := by
  simp only [read, answer, rest, ← drop_drop, length_take]
  rcases Nat.le_total (min count (limit + 1)) (file.bytes.drop file.offset).length with
    within | beyond
  · rw [Nat.min_eq_left within]
  · rw [Nat.min_eq_right beyond, drop_length, drop_of_length_le beyond]

end SourceFile

namespace TransactionBuffer

/-! ## Sending bytes -/

/-- Before the end of the transaction is known, the request alone bounds what is sent. -/
theorem consume_open {buffer : TransactionBuffer} (noEnd : buffer.trxEndOffset = 0) (length : Nat) :
    buffer.consume length = (buffer.data.take length,
      { buffer with
        data := buffer.data.drop length
        trxSize := buffer.trxSize + (buffer.data.take length).length }) := by
  simp [consume, noEnd]

/-- Once the end of the transaction is known, nothing past it is sent. -/
theorem consume_closing {buffer : TransactionBuffer} (known : 0 < buffer.trxEndOffset)
    (ordered : buffer.trxSize ≤ buffer.trxEndOffset) (bounded : buffer.trxEndOffset < 2 ^ 64)
    (length : Nat) :
    buffer.consume length =
      (buffer.data.take (min length (buffer.trxEndOffset - buffer.trxSize)),
        { buffer with
          data := buffer.data.drop (min length (buffer.trxEndOffset - buffer.trxSize))
          trxSize := buffer.trxSize +
            (buffer.data.take (min length (buffer.trxEndOffset - buffer.trxSize))).length }) := by
  have left : toUInt64 ((buffer.trxEndOffset : Int) - buffer.trxSize) =
      buffer.trxEndOffset - buffer.trxSize := by
    have exactValue : (toUInt64 ((buffer.trxEndOffset : Int) - buffer.trxSize) : Int) =
        (buffer.trxEndOffset : Int) - buffer.trxSize :=
      toUInt64_of_range (by omega) (by omega)
    omega
  have chosen : (if 0 < buffer.trxEndOffset ∧ buffer.trxEndOffset - buffer.trxSize < length then
      buffer.trxEndOffset - buffer.trxSize else length) =
        min length (buffer.trxEndOffset - buffer.trxSize) := by
    split <;> omega
  simp only [consume, left, chosen]

/-- No request is answered with more bytes than it asks for. -/
theorem length_consume_le (buffer : TransactionBuffer) (length : Nat) :
    (buffer.consume length).1.length ≤ length := by
  simp only [consume, length_take]
  split <;> omega

theorem consume_unsent (buffer : TransactionBuffer) (length : Nat) :
    (buffer.consume length).1 ++ (buffer.consume length).2.unsent = buffer.unsent := by
  simp only [consume, unsent, ← append_assoc, take_append_drop]

/-! ## Reading more data -/

variable {more : TransactionBuffer} {length : Nat}

/-- Reading more moves bytes of the file to the end of the buffered data. -/
theorem readMore_some {buffer : TransactionBuffer} {count : Nat}
    (atEnd : buffer.eof = true → buffer.file.rest = []) (positive : 0 < count)
    (result : buffer.readMore count = (some (), more)) :
    ∃ file eof copied, more = { buffer with file, eof, data := buffer.data ++ copied } ∧
      file.bytes = buffer.file.bytes ∧ file.offset = buffer.file.offset + copied.length ∧
      buffer.file.rest = copied ++ file.rest ∧
      (eof = true → file.rest = []) ∧ (copied = [] → eof = true) := by
  unfold readMore at result
  by_cases ended : buffer.eof = true
  · rw [if_pos ended] at result
    refine ⟨buffer.file, true, [], ?_, rfl, rfl, rfl, fun _ => atEnd ended, fun _ => rfl⟩
    rw [← (Prod.mk.inj result).2, ← ended, append_nil]
  · rw [if_neg ended] at result
    cases answer : buffer.file.read count with
    | mk copied next =>
      rw [answer] at result
      cases copied with
      | none => cases result
      | some copied =>
        obtain ⟨sameBytes, moved, -, split, empty⟩ := SourceFile.read_some positive answer
        cases copied with
        | nil =>
          refine ⟨next, true, [], ?_, sameBytes, moved, split, fun _ => empty rfl,
            fun _ => rfl⟩
          rw [← (Prod.mk.inj result).2, append_nil]
        | cons first others =>
          refine ⟨next, buffer.eof, first :: others, (Prod.mk.inj result).2.symm,
            sameBytes, moved, split, fun isEnd => absurd isEnd ended, by simp⟩

/-- Reading more from a healthy file succeeds. -/
theorem readMore_healthy {buffer : TransactionBuffer} (healthy : buffer.file.Healthy)
    (count : Nat) : ∃ more, buffer.readMore count = (some (), more) ∧ more.file.Healthy := by
  unfold readMore
  by_cases ended : buffer.eof = true
  · rw [if_pos ended]
    exact ⟨buffer, rfl, healthy⟩
  · rw [if_neg ended]
    obtain ⟨copied, next, result, healthyNext⟩ := SourceFile.read_healthy healthy count
    rw [result]
    cases copied with
    | nil => exact ⟨_, rfl, healthyNext⟩
    | cons first others => exact ⟨_, rfl, healthyNext⟩

/-- What one answer of the file adds to the buffered data. -/
theorem readMore_serve {buffer : TransactionBuffer} (running : buffer.eof = false)
    {limit : Nat} (answer : buffer.file.serve buffer.file.calls = some limit) {count : Nat}
    (nonempty : buffer.file.rest.take (min count (limit + 1)) ≠ []) :
    buffer.readMore count = (some (),
      { buffer with
        file := (buffer.file.read count).2
        data := buffer.data ++ buffer.file.rest.take (min count (limit + 1)) }) := by
  simp only [readMore, running, SourceFile.read, answer]
  cases copied : buffer.file.rest.take (min count (limit + 1)) with
  | nil => exact absurd copied nonempty
  | cons first others => rfl

theorem readMore_trxEndOffset (buffer : TransactionBuffer) (count : Nat) :
    (buffer.readMore count).2.trxEndOffset = buffer.trxEndOffset := by
  unfold readMore
  split
  · rfl
  · split <;> rfl

/-! ## Inversion of a pass -/

def Pass.buffer : Pass → TransactionBuffer
  | .done _ next => next
  | .retry next => next

/-- The row being sent does not fit, and no earlier row of the transaction can be flushed. -/
def ForcedRow (more : TransactionBuffer) : Prop :=
  (more.partialRowSent = true ∨ (more.lastRowInTransaction = 0 ∧ more.trxSize = 0)) ∧
    (more.lastRowInTransaction = 0 ∨ more.trxBytesLeft ≤ 0)

/--
The outcomes of a pass for a buffer whose transaction end is not known, after more
data was read into it.
-/
inductive Outcome (more : TransactionBuffer) (length : Nat) : Pass → Prop where
  | boundary (full : more.trxBytesLeft ≤ more.data.length)
      (found : 0 < more.lastRowInTransaction)
      (tested : 0 < more.trxBytesLeft ∨ more.partialRowSent = false) :
      Outcome more length
        ((more.setTrxEndOffset more.lastRowInTransaction).sending length)
  | flush (full : more.trxBytesLeft ≤ more.data.length) (whole : more.partialRowSent = false)
      (absent : more.lastRowInTransaction = 0) (nonempty : 0 < more.trxSize) :
      Outcome more length (.done (some []) (more.setTrxEndOffset 0))
  | rowEnd (full : more.trxBytesLeft ≤ more.data.length) (forced : more.ForcedRow)
      (found : 0 < findFirstRowBoundaryAfter more.dialect more.data) :
      Outcome more length
        ((more.markOversizedRow.setTrxEndOffset
          (findFirstRowBoundaryAfter more.dialect more.data)).sending length)
  | oversized (full : more.trxBytesLeft ≤ more.data.length) (forced : more.ForcedRow)
      (absent : findFirstRowBoundaryAfter more.dialect more.data = 0) :
      Outcome more length ({ more.markOversizedRow with partialRowSent := true }.sending length)
  | wholeRows (fits : more.data.length < more.trxBytesLeft)
      (found : 0 < findLastRowBoundaryBefore more.dialect more.data length) :
      Outcome more length
        ({ more with partialRowSent := false, oversizedRowCounted := false }.sending
          (toUInt32 (findLastRowBoundaryBefore more.dialect more.data length)))
  | knownRow (fits : more.data.length < more.trxBytesLeft)
      (absent : findLastRowBoundaryBefore more.dialect more.data length = 0)
      (found : 0 < more.lastRowInTransaction) :
      Outcome more length (more.sending (min length (toUInt32 more.lastRowInTransaction)))
  | partialRow (fits : more.data.length < more.trxBytesLeft)
      (absent : findLastRowBoundaryBefore more.dialect more.data length = 0)
      (unknown : more.lastRowInTransaction = 0)
      (started : more.trxSize = 0 ∨ more.partialRowSent = true) :
      Outcome more length ({ more with partialRowSent := true }.sending length)
  | lastRow (fits : more.data.length < more.trxBytesLeft)
      (absent : findLastRowBoundaryBefore more.dialect more.data length = 0)
      (unknown : more.lastRowInTransaction = 0) (nonempty : more.trxSize ≠ 0)
      (whole : more.partialRowSent = false) (ended : more.eof = true) :
      Outcome more length ((more.setTrxEndOffset more.data.length).sending length)
  | retry (fits : more.data.length < more.trxBytesLeft)
      (absent : findLastRowBoundaryBefore more.dialect more.data length = 0)
      (unknown : more.lastRowInTransaction = 0) (nonempty : more.trxSize ≠ 0)
      (whole : more.partialRowSent = false)
      (continues : more.eof = false) :
      Outcome more length (.retry more)

/-- Data that fits is sent up to the last row whose terminator starts within the request. -/
theorem Outcome.eq_wholeRows {pass : Pass} (outcome : Outcome more length pass)
    (fits : more.data.length < more.trxBytesLeft)
    (found : 0 < findLastRowBoundaryBefore more.dialect more.data length) :
    pass = { more with partialRowSent := false, oversizedRowCounted := false }.sending
      (toUInt32 (findLastRowBoundaryBefore more.dialect more.data length)) := by
  cases outcome with
  | boundary full | flush full | rowEnd full | oversized full => omega
  | wholeRows => rfl
  | knownRow _ absent | partialRow _ absent | lastRow _ absent | retry _ absent => omega

/-- Reporting an oversized row changes only its counters. -/
theorem markOversizedRow_eq (buffer : TransactionBuffer) :
    ∃ counted rows reports, buffer.markOversizedRow =
      { buffer with
        oversizedRowCounted := counted
        oversizedRows := rows
        oversizedReports := reports } := by
  unfold markOversizedRow
  split
  · exact ⟨_, _, _, rfl⟩
  · exact ⟨_, _, _, rfl⟩

theorem sendOversizedRow_outcome (full : more.trxBytesLeft ≤ more.data.length)
    (forced : more.ForcedRow) :
    Outcome more length (more.sendOversizedRow length) := by
  have sameEnd : findFirstRowBoundaryAfter more.markOversizedRow.dialect
      more.markOversizedRow.data = findFirstRowBoundaryAfter more.dialect more.data := by
    obtain ⟨counted, rows, reports, marked⟩ := more.markOversizedRow_eq
    rw [marked]
  simp only [sendOversizedRow, sameEnd]
  by_cases found : 0 < findFirstRowBoundaryAfter more.dialect more.data
  · rw [if_pos found]
    exact .rowEnd full forced found
  · rw [if_neg found]
    exact .oversized full forced (by omega)

theorem sendOverLimit_outcome (full : more.trxBytesLeft ≤ more.data.length)
    (unfilled : more.lastRowInTransaction = 0 ∨ more.trxBytesLeft ≤ 0) :
    Outcome more length (more.sendOverLimit length) := by
  unfold sendOverLimit
  by_cases started : more.partialRowSent = true
  · rw [if_pos started]
    exact sendOversizedRow_outcome full ⟨.inl started, unfilled⟩
  · rw [if_neg started]
    rw [Bool.not_eq_true] at started
    by_cases found : 0 < more.lastRowInTransaction
    · rw [if_pos found]
      exact .boundary full found (.inr started)
    · rw [if_neg found]
      by_cases nonempty : 0 < more.trxSize
      · rw [if_pos nonempty]
        exact .flush full started (by omega) nonempty
      · rw [if_neg nonempty]
        exact sendOversizedRow_outcome full ⟨.inr ⟨by omega, by omega⟩, unfilled⟩

theorem sendFitting_outcome (fits : more.data.length < more.trxBytesLeft) :
    Outcome more length (more.sendFitting length) := by
  simp only [sendFitting]
  by_cases found : 0 < findLastRowBoundaryBefore more.dialect more.data length
  · rw [if_pos found]
    exact .wholeRows fits found
  · rw [if_neg found]
    have absent : findLastRowBoundaryBefore more.dialect more.data length = 0 := by omega
    by_cases known : 0 < more.lastRowInTransaction
    · rw [if_pos known]
      exact .knownRow fits absent known
    · rw [if_neg known]
      have unknown : more.lastRowInTransaction = 0 := by omega
      by_cases empty : more.trxSize = 0
      · rw [if_pos empty]
        exact .partialRow fits absent unknown (.inl empty)
      · rw [if_neg empty]
        cases started : more.partialRowSent with
        | true =>
          have same : { more with partialRowSent := true } = more := by
            rw [← started]
          have outcome := Outcome.partialRow fits absent unknown (.inr started)
          rw [same] at outcome
          exact outcome
        | false =>
          cases ended : more.eof with
          | true =>
            exact .lastRow fits absent unknown empty started ended
          | false =>
            exact .retry fits absent unknown empty started ended

/-- Every pass over a buffer without known transaction end is one of the outcomes. -/
theorem readPass_outcome {buffer : TransactionBuffer} (noEnd : buffer.trxEndOffset = 0)
    (stillNoEnd : more.trxEndOffset = 0) (result : buffer.readMore length = (some (), more)) :
    Outcome more length (buffer.readPass length) := by
  simp only [readPass, noEnd, Nat.lt_irrefl, if_false, result]
  by_cases filled : 0 < more.trxBytesLeft ∧ more.trxBytesLeft ≤ more.data.length ∧
      0 < more.lastRowInTransaction
  · have fixedEnd : more.fillTransaction = more.setTrxEndOffset more.lastRowInTransaction :=
      if_pos filled
    have known : 0 < (more.setTrxEndOffset more.lastRowInTransaction).trxEndOffset := by
      simp only [setTrxEndOffset]
      omega
    simp only [fixedEnd, if_pos known]
    exact .boundary filled.2.1 filled.2.2 (.inl filled.1)
  · have sameEnd : more.fillTransaction = more := if_neg filled
    simp only [sameEnd, stillNoEnd, Nat.lt_irrefl, if_false]
    by_cases full : more.trxBytesLeft ≤ more.data.length
    · rw [if_pos full]
      exact sendOverLimit_outcome full (by omega)
    · rw [if_neg full]
      exact sendFitting_outcome (by omega)

/-- A pass sends up to a known end, fails to read, or is one of the outcomes. -/
theorem readPass_cases (buffer : TransactionBuffer) (length : Nat) :
    buffer.readPass length = buffer.sending length ∨
      (∃ more, buffer.readMore length = (none, more) ∧
        buffer.readPass length = .done none more) ∨
      ∃ more, buffer.readMore length = (some (), more) ∧
        Outcome more length (buffer.readPass length) := by
  by_cases known : 0 < buffer.trxEndOffset
  · exact .inl (if_pos known)
  · have noEnd : buffer.trxEndOffset = 0 := by omega
    have sameEnd := buffer.readMore_trxEndOffset length
    cases result : buffer.readMore length with
    | mk answer more =>
      rw [result] at sameEnd
      cases answer with
      | none =>
        refine .inr (.inl ⟨more, rfl, ?_⟩)
        simp only [readPass, if_neg known, result]
      | some _ => exact .inr (.inr ⟨more, rfl, readPass_outcome noEnd (sameEnd.trans noEnd) result⟩)

/-! ## What a read leaves as it is -/

section

variable (buffer : TransactionBuffer)

/-- Offset of the first byte of the file that was not sent yet. -/
def position : Nat :=
  buffer.file.offset - buffer.data.length

variable {buffer} in
theorem position_consume (within : buffer.data.length ≤ buffer.file.offset) (length : Nat) :
    (buffer.consume length).2.position = buffer.position + (buffer.consume length).1.length := by
  simp only [consume, position, length_drop, length_take]
  split <;> omega

/-- The unsent bytes are those of the file from the position of the buffer on. -/
def Anchored : Prop :=
  buffer.data.length ≤ buffer.file.offset ∧ buffer.unsent = buffer.file.bytes.drop buffer.position

/-- The second buffer serves the same load as the first, possibly from another position. -/
structure Kept (buffer next : TransactionBuffer) : Prop where
  dialect_eq : next.dialect = buffer.dialect
  limit_eq : next.maxTrxSize = buffer.maxTrxSize
  bytes_eq : next.file.bytes = buffer.file.bytes
  serve_eq : next.file.serve = buffer.file.serve
  seekable_eq : next.file.seekable = buffer.file.seekable
  retryOffset_eq : next.retryOffset = buffer.retryOffset
  retryPointValid_eq : next.retryPointValid = buffer.retryPointValid
  anchored : buffer.Anchored → next.Anchored

theorem Kept.refl : Kept buffer buffer :=
  ⟨rfl, rfl, rfl, rfl, rfl, rfl, rfl, id⟩

theorem Kept.trans {first second third : TransactionBuffer} (before : Kept first second)
    (after : Kept second third) : Kept first third :=
  ⟨after.dialect_eq.trans before.dialect_eq, after.limit_eq.trans before.limit_eq,
    after.bytes_eq.trans before.bytes_eq, after.serve_eq.trans before.serve_eq,
    after.seekable_eq.trans before.seekable_eq, after.retryOffset_eq.trans before.retryOffset_eq,
    after.retryPointValid_eq.trans before.retryPointValid_eq, after.anchored ∘ before.anchored⟩

/-- Sending moves the position by the bytes that are sent. -/
theorem kept_consume (length : Nat) : Kept buffer (buffer.consume length).2 := by
  refine ⟨rfl, rfl, rfl, rfl, rfl, rfl, rfl, fun anchored => ⟨?_, ?_⟩⟩
  · have within := anchored.1
    change (buffer.data.drop _).length ≤ buffer.file.offset
    rw [length_drop]
    omega
  · have moved := buffer.consume_unsent length
    change _ = buffer.file.bytes.drop _
    rw [position_consume anchored.1, ← drop_drop, ← anchored.2, ← moved]
    exact (drop_left ..).symm

/-- Reading from the file behind the buffered data leaves the position as it is. -/
theorem kept_append {buffer : TransactionBuffer} {file : SourceFile} {count : Nat}
    {copied : Option Bytes}
    (result : buffer.file.read count = (copied, file)) :
    Kept buffer { buffer with file, data := buffer.data ++ copied.getD [] } := by
  unfold SourceFile.read at result
  cases answer : buffer.file.serve buffer.file.calls with
  | none =>
    simp only [answer, Prod.mk.injEq] at result
    obtain ⟨rfl, rfl⟩ := result
    refine ⟨rfl, rfl, rfl, rfl, rfl, rfl, rfl, fun anchored => ?_⟩
    simp only [Option.getD_none, append_nil]
    exact anchored
  | some limit =>
    simp only [answer, Prod.mk.injEq] at result
    obtain ⟨rfl, rfl⟩ := result
    refine ⟨rfl, rfl, rfl, rfl, rfl, rfl, rfl, fun anchored => ⟨?_, ?_⟩⟩
    · have within := anchored.1
      simp only [Option.getD_some, length_append]
      omega
    · have place := anchored.2
      simp only [unsent, position, SourceFile.rest, Option.getD_some, length_append,
        append_assoc, Nat.add_sub_add_right, ← drop_drop] at place ⊢
      rw [← place, append_cancel_left_eq, length_take]
      rw [take_eq_take_min, take_append_drop]

theorem kept_readMore (count : Nat) : Kept buffer (buffer.readMore count).2 := by
  unfold readMore
  split
  · exact Kept.refl buffer
  · cases result : buffer.file.read count with
    | mk copied file =>
      have appended := kept_append result
      cases copied with
      | none =>
        rw [Option.getD_none, append_nil] at appended
        exact appended
      | some copied =>
        cases copied with
        | nil =>
          rw [Option.getD_some, append_nil] at appended
          exact appended.trans ⟨rfl, rfl, rfl, rfl, rfl, rfl, rfl, id⟩
        | cons first others => exact appended

theorem Outcome.kept {pass : Pass} (outcome : Outcome more length pass) :
    Kept more pass.buffer := by
  have sent {buffer : TransactionBuffer} (updated : Kept more buffer) (count : Nat) :
      Kept more (buffer.sending count).buffer :=
    updated.trans (buffer.kept_consume count)
  obtain ⟨counted, rows, reports, marked⟩ := more.markOversizedRow_eq
  cases outcome with
  | boundary | wholeRows | knownRow | partialRow | lastRow =>
    refine sent ?_ _
    exact ⟨rfl, rfl, rfl, rfl, rfl, rfl, rfl, id⟩
  | rowEnd | oversized =>
    rw [marked]
    refine sent ?_ _
    exact ⟨rfl, rfl, rfl, rfl, rfl, rfl, rfl, id⟩
  | flush | retry => exact ⟨rfl, rfl, rfl, rfl, rfl, rfl, rfl, id⟩

theorem kept_readPass (length : Nat) : Kept buffer (buffer.readPass length).buffer := by
  have read := buffer.kept_readMore length
  rcases buffer.readPass_cases length with sends | ⟨more, result, fails⟩ | ⟨more, result, outcome⟩
  · rw [sends]
    exact buffer.kept_consume length
  · rw [result] at read
    rw [fails]
    exact read
  · rw [result] at read
    exact read.trans outcome.kept

theorem kept_readPasses (fuel length : Nat) : Kept buffer (readPasses fuel buffer length).2 := by
  induction fuel generalizing buffer with
  | zero => exact Kept.refl buffer
  | succ fuel ih =>
    have pass := buffer.kept_readPass length
    unfold readPasses
    cases result : buffer.readPass length with
    | done copied next =>
      rw [result] at pass
      exact pass
    | retry next =>
      rw [result] at pass
      exact pass.trans (ih next)

end

/-! ## No byte is lost -/

/-- The bytes that were unsent are sent or still unsent, and the size counts what was sent. -/
def Conserved (buffer : TransactionBuffer) (copied : Bytes) (next : TransactionBuffer) : Prop :=
  copied ++ next.unsent = buffer.unsent ∧ next.trxSize = buffer.trxSize + copied.length

theorem Conserved.trans {first second third : TransactionBuffer} {copied later : Bytes}
    (before : Conserved first copied second) (after : Conserved second later third) :
    Conserved first (copied ++ later) third := by
  refine ⟨?_, ?_⟩
  · rw [append_assoc, after.1, before.1]
  · rw [after.2, before.2, length_append, Nat.add_assoc]

theorem conserved_readMore {buffer : TransactionBuffer} {count : Nat}
    (result : buffer.readMore count = (some (), more)) : Conserved buffer [] more := by
  unfold readMore at result
  split at result
  · cases result
    exact ⟨rfl, rfl⟩
  · split at result
    · cases result
    · next file answer =>
      cases result
      have split := SourceFile.read_split answer
      refine ⟨?_, rfl⟩
      simp only [unsent, nil_append, split]
    · next copied file _ answer =>
      cases result
      have split := SourceFile.read_split answer
      refine ⟨?_, rfl⟩
      simp only [unsent, nil_append, split, append_assoc]

/-- Sending from a buffer with the same unsent bytes and size. -/
theorem conserved_consume {buffer sent : TransactionBuffer}
    (sameUnsent : sent.unsent = buffer.unsent)
    (sameSize : sent.trxSize = buffer.trxSize) (length : Nat) :
    Conserved buffer (sent.consume length).1 (sent.consume length).2 := by
  refine ⟨(sent.consume_unsent length).trans sameUnsent, ?_⟩
  rw [← sameSize]
  rfl

/-- What holds for the bytes that a pass sends and the buffer after it. -/
def Pass.Sends (holds : Bytes → TransactionBuffer → Prop) : Pass → Prop
  | .done none _ => True
  | .done (some copied) next => holds copied next
  | .retry next => holds [] next

theorem Pass.Sends.imp {first second : Bytes → TransactionBuffer → Prop} {pass : Pass}
    (sends : pass.Sends first) (weaker : ∀ copied next, first copied next → second copied next) :
    pass.Sends second :=
  match pass, sends with
  | .done none _, _ => trivial
  | .done (some copied) next, sends => weaker copied next sends
  | .retry next, sends => weaker [] next sends

/-- A pass sends from the buffered data, or leaves it for the next pass. -/
theorem Outcome.conserved {pass : Pass} (outcome : Outcome more length pass) :
    pass.Sends (Conserved more) := by
  obtain ⟨counted, rows, reports, marked⟩ := more.markOversizedRow_eq
  cases outcome with
  | boundary | wholeRows | knownRow | partialRow | lastRow =>
    refine conserved_consume ?_ ?_ _ <;> rfl
  | rowEnd | oversized =>
    rw [marked]
    refine conserved_consume ?_ ?_ _ <;> rfl
  | flush | retry => exact ⟨rfl, rfl⟩

theorem conserved_readPass (buffer : TransactionBuffer) (length : Nat) :
    (buffer.readPass length).Sends (Conserved buffer) := by
  rcases buffer.readPass_cases length with sends | ⟨more, -, fails⟩ | ⟨more, result, outcome⟩
  · rw [sends]
    exact conserved_consume rfl rfl length
  · rw [fails]
    trivial
  · exact outcome.conserved.imp fun _ _ => (conserved_readMore result).trans

theorem conserved_readPasses {fuel : Nat} {buffer next : TransactionBuffer} {copied : Bytes}
    (result : readPasses fuel buffer length = (some copied, next)) :
    Conserved buffer copied next := by
  induction fuel generalizing buffer with
  | zero => cases result
  | succ fuel ih =>
    have sends := buffer.conserved_readPass length
    unfold readPasses at result
    cases pass : buffer.readPass length with
    | done answer after =>
      rw [pass] at result sends
      cases result
      exact sends
    | retry after =>
      rw [pass] at result sends
      exact sends.trans (ih result)

end TransactionBuffer

section Requests

open TransactionBuffer

variable {buffer next : TransactionBuffer} {length : UInt32} {copied : Bytes}

/-- A request that is answered reads from the buffer, unless a flush is pending. -/
theorem localInfileRead_some (result : localInfileRead buffer length = (some copied, next)) :
    (buffer.flushPending = true ∧ copied = [] ∧ next = buffer) ∨
      buffer.read length = (some copied, next) := by
  unfold localInfileRead at result
  split at result
  · next pending =>
    cases result
    exact .inl ⟨pending, rfl, rfl⟩
  · right
    split at result
    · cases result
    · next answer =>
      split at result
      · cases result
      · cases result
        exact answer

/-- A request that is not answered leaves the buffer as a read leaves it, too. -/
theorem localInfileRead_snd (buffer : TransactionBuffer) (length : UInt32) :
    (localInfileRead buffer length).2 = buffer ∨
      (localInfileRead buffer length).2 = (buffer.read length).2 := by
  unfold localInfileRead
  split
  · exact .inl rfl
  · right
    split
    · next result => rw [result]
    · next result =>
      rw [result]
      split <;> rfl

/-- Without a limit, nothing is buffered. -/
def TransactionBuffer.Direct (buffer : TransactionBuffer) : Prop :=
  buffer.maxTrxSize = 0 → buffer.data = []

/-- Requests have taken `sent` from the front of the unsent bytes. -/
structure Serves (buffer : TransactionBuffer) (sent : Bytes) (next : TransactionBuffer) : Prop where
  split : sent ++ next.unsent = buffer.unsent
  limit_eq : next.maxTrxSize = buffer.maxTrxSize
  direct : next.Direct
  size_eq : buffer.maxTrxSize ≠ 0 → next.trxSize = buffer.trxSize + sent.length

theorem Serves.trans {after : TransactionBuffer} {sent : Bytes}
    (first : Serves buffer copied after) (second : Serves after sent next) :
    Serves buffer (copied ++ sent) next where
  split := by rw [append_assoc, second.split, first.split]
  limit_eq := second.limit_eq.trans first.limit_eq
  direct := second.direct
  size_eq enabled := by
    have enabledAfter := enabled
    rw [← first.limit_eq] at enabledAfter
    rw [second.size_eq enabledAfter, first.size_eq enabled, length_append, Nat.add_assoc]

/-- A request takes its bytes from the front of the unsent ones. -/
theorem localInfileRead_conserves (direct : buffer.Direct)
    (result : localInfileRead buffer length = (some copied, next)) :
    Serves buffer copied next := by
  rcases localInfileRead_some result with ⟨-, rfl, rfl⟩ | answer
  · exact ⟨rfl, rfl, direct, fun _ => rfl⟩
  · unfold TransactionBuffer.read at answer
    split at answer
    · next disabled =>
      cases taken : buffer.file.read length.toNat with
      | mk bytes file =>
        rw [taken] at answer
        cases answer
        have split := SourceFile.read_split taken
        refine ⟨?_, rfl, fun _ => direct disabled, fun enabled => absurd disabled enabled⟩
        simp only [unsent, direct disabled, nil_append, split]
    · next enabled =>
      have kept := (buffer.kept_readPasses (buffer.file.rest.length + 2) length.toNat).limit_eq
      rw [answer] at kept
      obtain ⟨split, size⟩ := conserved_readPasses answer
      exact ⟨split, kept, fun disabled => absurd (kept.symm.trans disabled) enabled, fun _ => size⟩

/-- A statement is a run of answered requests, of which the last one is empty. -/
theorem loadTransaction_induction {sizes : Nat → UInt32}
    {motive : TransactionBuffer → Nat → Bytes → Prop}
    {fuel call nextCall : Nat} {transaction : Bytes}
    (last : ∀ {buffer call}, call + 1 = nextCall →
      localInfileRead buffer (sizes call) = (some [], next) → motive buffer call [])
    (more : ∀ {buffer after call copied rest}, copied ≠ [] →
      localInfileRead buffer (sizes call) = (some copied, after) →
      motive after (call + 1) rest → motive buffer call (copied ++ rest))
    (result : loadTransaction sizes fuel buffer call = some (transaction, next, nextCall)) :
    motive buffer call transaction := by
  induction fuel generalizing buffer call transaction with
  | zero => cases result
  | succ fuel ih =>
    unfold loadTransaction at result
    split at result
    · cases result
    · next answer =>
      cases result
      exact last rfl answer
    · next copied after nonempty answer =>
      split at result
      · cases result
      · next later =>
        cases result
        exact more nonempty answer (ih later)

/-- A statement takes its bytes from the front of the unsent ones. -/
theorem loadTransaction_conserves {sizes : Nat → UInt32} {fuel call nextCall : Nat}
    {transaction : Bytes} (direct : buffer.Direct)
    (result : loadTransaction sizes fuel buffer call = some (transaction, next, nextCall)) :
    Serves buffer transaction next := by
  revert direct
  refine loadTransaction_induction (motive := fun buffer _ sent =>
    buffer.Direct → Serves buffer sent next)
    (fun _ answer direct => localInfileRead_conserves direct answer)
    (fun _ answer later direct => ?_) result
  have first := localInfileRead_conserves direct answer
  exact first.trans (later first.direct)

end Requests

end MariadbShell.ImportTable
