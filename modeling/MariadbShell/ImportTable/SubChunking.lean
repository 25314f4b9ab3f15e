import MariadbShell.ImportTable.ReadPass

/-!
# Sub-chunking of a file in the default dialect

The transactions into which a buffer cuts such a file. While a transaction is being sent, the
buffer is in one of four phases (`Phase`): the bytes sent so far end at a row boundary, they
are a part of one oversized row, they end inside a row whose end is already buffered, or the
end of the transaction is fixed. Every read keeps the phases.
-/

namespace MariadbShell.ImportTable

open List TransactionBuffer Lib.MachineInt Lib.Search Byte

namespace SubChunking

def EndsRow (bytes : Bytes) : Prop :=
  bytes.getLast? = some newline

instance (bytes : Bytes) : Decidable (EndsRow bytes) :=
  inferInstanceAs (Decidable (_ = _))

/-- The bytes hold no line terminator, except possibly as their last byte. -/
def SingleRow (bytes : Bytes) : Prop :=
  newline ∉ bytes.dropLast

/-- The bytes respect a transaction limit, or are one row that cannot be split. -/
def FitsOrSingleRow (limit : Nat) (bytes : Bytes) : Prop :=
  bytes.length ≤ limit ∨ SingleRow bytes

variable (buffer : TransactionBuffer)

def remaining : Bytes :=
  buffer.data.take (buffer.trxEndOffset - buffer.trxSize)

/-- The facts about a buffer that hold in every phase; `sent` is what the transaction sent. -/
structure Core (sent : Bytes) : Prop where
  dialect_eq : buffer.dialect = Dialect.default_
  enabled : buffer.maxTrxSize ≠ 0
  healthy : buffer.file.Healthy
  size_eq : buffer.trxSize = sent.length
  atEnd : buffer.eof = true → buffer.file.rest = []
  bounded : sent.length + buffer.unsent.length < 2 ^ 63

/-- The end of the transaction is known and all of its bytes are buffered. -/
structure Closing (sent : Bytes) : Prop where
  known : 0 < buffer.trxEndOffset
  ordered : buffer.trxSize ≤ buffer.trxEndOffset
  buffered : buffer.trxEndOffset ≤ buffer.trxSize + buffer.data.length
  ends : EndsRow (sent ++ remaining buffer) ∨
    (buffer.eof = true ∧ buffer.trxEndOffset = buffer.trxSize + buffer.data.length)
  limited : FitsOrSingleRow buffer.maxTrxSize.toNat (sent ++ remaining buffer)

inductive Phase (sent : Bytes) : Prop where
  | boundary (noEnd : buffer.trxEndOffset = 0) (whole : buffer.partialRowSent = false)
      (rows : sent = [] ∨ (EndsRow sent ∧ sent.length < buffer.maxTrxSize.toNat))
  | partialRow (noEnd : buffer.trxEndOffset = 0) (started : buffer.partialRowSent = true)
      (one : newline ∉ sent)
  | knownRow (noEnd : buffer.trxEndOffset = 0) (whole : buffer.partialRowSent = false)
      (offset : Nat) (here : buffer.data[offset]? = some newline)
      (room : sent.length + offset + 1 < buffer.maxTrxSize.toNat)
  | closing (known : Closing buffer sent)

/-- The last row end that is buffered for the transaction is `0` as a 32-bit integer. -/
structure Narrowed : Prop where
  noEnd : buffer.trxEndOffset = 0
  fits : (buffer.data.length : Int) < buffer.trxBytesLeft
  found : 0 < buffer.lastRowInTransaction
  wraps : buffer.lastRowInTransaction % 2 ^ 32 = 0

/-- The transaction has ended: a flush is pending, the file is used up, or nothing can be sent. -/
def Finished : Prop :=
  buffer.flushPending = true ∨ (buffer.eof = true ∧ buffer.data = []) ∨ Narrowed buffer

/-- What a read of at most `length` bytes achieves. -/
structure ReadSpec (sent : Bytes) (length : Nat) (copied : Bytes)
    (next : TransactionBuffer) : Prop where
  core : Core next (sent ++ copied)
  phase : Phase next (sent ++ copied)
  unsent_eq : copied ++ next.unsent = buffer.unsent
  limit_eq : next.maxTrxSize = buffer.maxTrxSize
  length_le : copied.length ≤ length
  finished : copied = [] → Finished next

variable {buffer more : TransactionBuffer} {length : Nat} {sent : Bytes}

/-- A read is specified by the unsent bytes and the limit of the buffer it starts from. -/
theorem ReadSpec.rebase {other next : TransactionBuffer} {copied : Bytes}
    (spec : ReadSpec other sent length copied next) (sameUnsent : other.unsent = buffer.unsent)
    (sameLimit : other.maxTrxSize = buffer.maxTrxSize) :
    ReadSpec buffer sent length copied next :=
  ⟨spec.core, spec.phase, spec.unsent_eq.trans sameUnsent, spec.limit_eq.trans sameLimit,
    spec.length_le, spec.finished⟩

/-! ## Lists of bytes -/

variable {data : Bytes}

theorem endsRow_append_take {count : Nat} (positive : 0 < count)
    (last : data[count - 1]? = some newline) : EndsRow (sent ++ data.take count) := by
  have inside : count - 1 < data.length := (List.getElem?_eq_some_iff.mp last).1
  have taken : (data.take count).getLast? = some newline := by
    rw [getLast?_eq_getElem?, length_take, getElem?_take_of_lt (by omega)]
    rw [Nat.min_eq_left (by omega)]
    exact last
  unfold EndsRow
  rw [getLast?_append, taken]
  rfl

theorem newline_notMem_append_take {count : Nat} (one : newline ∉ sent)
    (absent : ∀ offset, offset < count → data[offset]? ≠ some newline) :
    newline ∉ sent ++ data.take count := by
  intro member
  rcases mem_append.mp member with early | late
  · exact one early
  · obtain ⟨offset, here⟩ := getElem?_of_mem late
    have below : offset < count := by
      have inside := (List.getElem?_eq_some_iff.mp here).1
      rw [length_take] at inside
      omega
    rw [getElem?_take_of_lt below] at here
    exact absent offset below here

theorem singleRow_append_take {count : Nat} (one : newline ∉ sent)
    (absent : ∀ offset, offset + 1 < count → data[offset]? ≠ some newline)
    (inside : count ≤ data.length) (positive : 0 < count) :
    SingleRow (sent ++ data.take count) := by
  have nonempty : data.take count ≠ [] := by
    rw [Ne, take_eq_nil_iff]
    intro empty
    rcases empty with zero | noData
    · omega
    · rw [noData, length_nil] at inside
      omega
  unfold SingleRow
  rw [dropLast_append_of_ne_nil nonempty, dropLast_eq_take, length_take,
    take_take, Nat.min_eq_left (by omega)]
  exact newline_notMem_append_take one fun offset below => absent offset (by omega)

/-! ## Limits -/

section

variable (core : Core buffer sent)

include core

/-- A limit that is not positive as a signed integer exceeds the size of every file. -/
theorem Core.trxBytesLeft_eq (positive : 0 < buffer.trxBytesLeft) :
    buffer.trxBytesLeft = (buffer.maxTrxSize.toNat : Int) - sent.length := by
  have bounded := core.bounded
  have limit := buffer.maxTrxSize.toNat_lt
  revert positive
  simp only [trxBytesLeft, core.size_eq, toInt64]
  split <;> omega

/-- Buffered data that fits leaves room in the transaction. -/
theorem Core.room_of_fits (fits : (buffer.data.length : Int) < buffer.trxBytesLeft) :
    sent.length + buffer.data.length < buffer.maxTrxSize.toNat := by
  rw [core.trxBytesLeft_eq (by omega)] at fits
  omega

/-- With room left, the search of a transaction end is bounded by that room. -/
theorem Core.lastRowInTransaction_eq (room : sent.length < buffer.maxTrxSize.toNat) :
    buffer.lastRowInTransaction =
      findLastRowBoundaryBefore Dialect.default_ buffer.data
        (buffer.maxTrxSize.toNat - sent.length) := by
  have bounded := buffer.maxTrxSize.toNat_lt
  have limit : toUInt64 buffer.trxBytesLeft = buffer.maxTrxSize.toNat - sent.length := by
    simp only [trxBytesLeft, core.size_eq, toInt64, toUInt64]
    split <;> omega
  unfold lastRowInTransaction
  rw [limit, core.dialect_eq]

/-- The end of a transaction that is found is the end of a buffered row within the limit. -/
theorem Core.lastRowInTransaction_pos (room : sent.length < buffer.maxTrxSize.toNat)
    (found : 0 < buffer.lastRowInTransaction) :
    buffer.lastRowInTransaction ≤ buffer.data.length ∧
      sent.length + buffer.lastRowInTransaction ≤ buffer.maxTrxSize.toNat ∧
      buffer.data[buffer.lastRowInTransaction - 1]? = some newline := by
  have bounded := buffer.maxTrxSize.toNat_lt
  have inside : buffer.lastRowInTransaction ≤ buffer.data.length :=
    findLast_le_length (by rw [core.dialect_eq]; decide)
  rw [core.lastRowInTransaction_eq room] at found inside ⊢
  obtain ⟨within, last⟩ := findLast_default_pos (by omega) (by omega) found
  exact ⟨inside, by omega, last⟩

/-- Data that fits and in which no transaction end is found holds no terminator. -/
theorem Core.newline_notMem_data (fits : (buffer.data.length : Int) < buffer.trxBytesLeft)
    (unknown : buffer.lastRowInTransaction = 0) :
    ∀ offset : Nat, buffer.data[offset]? ≠ some newline := by
  have room := core.room_of_fits fits
  have bounded := buffer.maxTrxSize.toNat_lt
  rw [core.lastRowInTransaction_eq (by omega)] at unknown
  intro offset here
  have inside : offset < buffer.data.length := (List.getElem?_eq_some_iff.mp here).1
  exact findLast_default_eq_zero (by omega) (by omega) unknown offset (by omega) here

end

/-! ## Sending -/

theorem Core.consume (core : Core buffer sent) (length : Nat) :
    Core (buffer.consume length).2 (sent ++ (buffer.consume length).1) where
  dialect_eq := core.dialect_eq
  enabled := core.enabled
  healthy := core.healthy
  size_eq := by
    rw [length_append, ← core.size_eq]
    rfl
  atEnd := core.atEnd
  bounded := by
    have bounded := core.bounded
    have moved := congrArg List.length (buffer.consume_unsent length)
    rw [length_append] at moved ⊢
    omega

/-- Once its end is known, a transaction sends up to that end. -/
theorem Core.consume_known (core : Core buffer sent) (known : 0 < buffer.trxEndOffset)
    (ordered : buffer.trxSize ≤ buffer.trxEndOffset)
    (buffered : buffer.trxEndOffset ≤ buffer.trxSize + buffer.data.length) (length : Nat) :
    ∃ count, count = min length (buffer.trxEndOffset - buffer.trxSize) ∧
      count ≤ buffer.data.length ∧
      buffer.consume length =
        (buffer.data.take count,
          { buffer with data := buffer.data.drop count, trxSize := buffer.trxSize + count }) := by
  have bounded := core.bounded
  have size_eq := core.size_eq
  have unsentLength : buffer.unsent.length = buffer.data.length + buffer.file.rest.length :=
    length_append
  have result := consume_closing known ordered (by omega) length
  generalize count_eq : min length (buffer.trxEndOffset - buffer.trxSize) = count at result
  have inside : count ≤ buffer.data.length := by omega
  rw [length_take, Nat.min_eq_left inside] at result
  exact ⟨count, rfl, inside, result⟩

/-- What a transaction with a known end has sent and will send stays the same. -/
theorem Core.whole_consume (core : Core buffer sent) (known : 0 < buffer.trxEndOffset)
    (ordered : buffer.trxSize ≤ buffer.trxEndOffset)
    (buffered : buffer.trxEndOffset ≤ buffer.trxSize + buffer.data.length) (length : Nat) :
    sent ++ (buffer.consume length).1 ++ remaining (buffer.consume length).2 =
      sent ++ remaining buffer := by
  obtain ⟨count, count_eq, -, result⟩ := core.consume_known known ordered buffered length
  rw [result]
  simp only [remaining, append_assoc, Nat.sub_add_eq, ← take_add]
  congr 2
  omega

/-- Sending from a transaction whose end is known keeps that end. -/
theorem Closing.sending (core : Core buffer sent) (closing : Closing buffer sent)
    (positive : 0 < length) :
    ReadSpec buffer sent length (buffer.consume length).1 (buffer.consume length).2 := by
  have known := closing.known
  have ordered := closing.ordered
  have buffered := closing.buffered
  have whole := core.whole_consume known ordered buffered length
  obtain ⟨count, count_eq, inside, result⟩ := core.consume_known known ordered buffered length
  have sizeNext : (buffer.consume length).2.trxSize = buffer.trxSize + count := by
    rw [result]
  have dataNext : (buffer.consume length).2.data.length = buffer.data.length - count := by
    rw [result]
    exact length_drop
  refine ⟨core.consume length, .closing ⟨known, ?_, ?_, ?_, ?_⟩, buffer.consume_unsent length,
    rfl, buffer.length_consume_le length, fun empty => .inl ?_⟩
  · change (buffer.consume length).2.trxSize ≤ buffer.trxEndOffset
    omega
  · change buffer.trxEndOffset ≤ _
    omega
  · rw [whole]
    refine closing.ends.imp_right fun ended => ⟨ended.1, ?_⟩
    change buffer.trxEndOffset = _
    omega
  · rw [whole]
    exact closing.limited
  · have zero : count = 0 := by
      rw [result] at empty
      have none := congrArg List.length empty
      rw [length_take, length_nil] at none
      omega
    have pending : buffer.trxEndOffset ≤ (buffer.consume length).2.trxSize := by omega
    simp only [flushPending, decide_eq_true_eq]
    exact ⟨core.enabled, known, pending⟩

/-- Sending before the end of the transaction is known. -/
theorem Core.sendingOpen (core : Core buffer sent) (noEnd : buffer.trxEndOffset = 0) {count : Nat}
    (positive : 0 < count) (within : count ≤ length)
    (stalled : buffer.data = [] → buffer.eof = true) (phase : Phase
      { buffer with
        data := buffer.data.drop count
        trxSize := buffer.trxSize + (buffer.data.take count).length }
      (sent ++ buffer.data.take count)) :
    ReadSpec buffer sent length (buffer.consume count).1 (buffer.consume count).2 := by
  have result := consume_open noEnd count
  refine ⟨core.consume count, ?_, buffer.consume_unsent count, rfl,
    (buffer.length_consume_le count).trans within, fun empty => .inr (.inl ?_)⟩
  · rw [result]
    exact phase
  · rw [result] at empty ⊢
    have noData : buffer.data = [] :=
      (take_eq_nil_iff.mp empty).resolve_left (Nat.ne_of_gt positive)
    refine ⟨stalled noData, ?_⟩
    rw [noData, drop_nil]

/-- Fixing the end of the transaction keeps the facts of all phases. -/
theorem Core.setTrxEndOffset (core : Core buffer sent) (offset : Nat) :
    Core (buffer.setTrxEndOffset offset) sent := { core with }

theorem remaining_setTrxEndOffset (offset : Nat) :
    remaining (buffer.setTrxEndOffset offset) = buffer.data.take offset := by
  simp only [remaining, setTrxEndOffset, Nat.add_sub_cancel_left]

/-- Fixing the end of the transaction inside the buffered data and sending up to it. -/
theorem Core.sendingTo (core : Core buffer sent) {offset : Nat} (positive : 0 < length)
    (nonzero : 0 < buffer.trxSize + offset) (inside : offset ≤ buffer.data.length)
    (ends : EndsRow (sent ++ buffer.data.take offset) ∨
      (buffer.eof = true ∧ offset = buffer.data.length))
    (limited : FitsOrSingleRow buffer.maxTrxSize.toNat (sent ++ buffer.data.take offset)) :
    ((buffer.setTrxEndOffset offset).sending length).Sends (ReadSpec buffer sent length) := by
  have closing : Closing (buffer.setTrxEndOffset offset) sent := by
    refine ⟨nonzero, Nat.le_add_right _ _, Nat.add_le_add_left inside _, ?_, ?_⟩
    · rw [remaining_setTrxEndOffset]
      exact ends.imp_right fun ended => ⟨ended.1, congrArg (buffer.trxSize + ·) ended.2⟩
    · rw [remaining_setTrxEndOffset]
      exact limited
  exact (closing.sending (core.setTrxEndOffset offset) positive).rebase rfl rfl

/-! ## The outcomes of a pass -/

section

variable (core : Core more sent)

include core

section

variable (noEnd : more.trxEndOffset = 0)

include noEnd

section

variable (phase : Phase more sent)

include phase

/-- A row that is forced out is the only row of its transaction. -/
theorem newline_notMem_of_forcedRow (forced : more.ForcedRow) : newline ∉ sent := by
  rcases forced.1 with started | ⟨-, empty⟩
  · cases phase with
    | boundary _ whole _ => rw [whole] at started; cases started
    | partialRow _ _ one => exact one
    | knownRow _ whole _ _ _ => rw [whole] at started; cases started
    | closing closing => exact absurd noEnd (Nat.ne_of_gt closing.known)
  · rw [core.size_eq] at empty
    rw [eq_nil_of_length_eq_zero empty]
    exact not_mem_nil

/-- There is room in a transaction that does not send a partial row. -/
theorem room_of_whole (whole : more.partialRowSent = false) :
    sent.length < more.maxTrxSize.toNat := by
  cases phase with
  | boundary _ _ rows =>
    rcases rows with empty | ⟨-, room⟩
    · rw [empty, length_nil]
      exact Nat.pos_of_ne_zero fun zero => core.enabled (UInt64.toNat_inj.mp zero)
    · exact room
  | partialRow _ started _ => rw [whole] at started; cases started
  | knownRow _ _ offset _ room => omega
  | closing closing => exact absurd noEnd (Nat.ne_of_gt closing.known)

theorem room_of_tested (tested : 0 < more.trxBytesLeft ∨ more.partialRowSent = false) :
    sent.length < more.maxTrxSize.toNat := by
  rcases tested with left | whole
  · have same := core.trxBytesLeft_eq left
    omega
  · exact room_of_whole core noEnd phase whole

theorem boundary_spec (positive : 0 < length) (found : 0 < more.lastRowInTransaction)
    (tested : 0 < more.trxBytesLeft ∨ more.partialRowSent = false) :
    ((more.setTrxEndOffset more.lastRowInTransaction).sending length).Sends
      (ReadSpec more sent length) := by
  have room := room_of_tested core noEnd phase tested
  obtain ⟨inside, within, last⟩ := core.lastRowInTransaction_pos room found
  refine core.sendingTo positive (by omega) inside (.inl (endsRow_append_take found last))
    (.inl ?_)
  rw [length_append, length_take]
  omega

theorem flush_spec (whole : more.partialRowSent = false) (absent : more.lastRowInTransaction = 0)
    (nonempty : 0 < more.trxSize) : ReadSpec more sent length [] (more.setTrxEndOffset 0) := by
  have room := room_of_whole core noEnd phase whole
  have bounded := more.maxTrxSize.toNat_lt
  have rows : EndsRow sent := by
    cases phase with
    | boundary _ _ rows =>
      rcases rows with empty | ⟨ends, -⟩
      · rw [core.size_eq, empty] at nonempty
        cases nonempty
      · exact ends
    | partialRow _ started _ => rw [whole] at started; cases started
    | knownRow _ _ offset here inside =>
      rw [core.lastRowInTransaction_eq room] at absent
      exact absurd here
        (findLast_default_eq_zero (by omega) (by omega) absent offset (by omega))
    | closing closing => exact absurd noEnd (Nat.ne_of_gt closing.known)
  have closing : Closing (more.setTrxEndOffset 0) sent := by
    refine ⟨nonempty, Nat.le_refl _, Nat.le_add_right _ _, .inl ?_, .inl ?_⟩
    · rw [remaining_setTrxEndOffset, take_zero, append_nil]
      exact rows
    · rw [remaining_setTrxEndOffset, take_zero, append_nil]
      exact Nat.le_of_lt room
  have pending : (more.setTrxEndOffset 0).flushPending = true := by
    simp only [flushPending, decide_eq_true_eq]
    exact ⟨core.enabled, nonempty, Nat.le_refl _⟩
  refine ⟨?_, ?_, rfl, rfl, Nat.zero_le _, fun _ => .inl pending⟩
  · rw [append_nil]
    exact core.setTrxEndOffset 0
  · rw [append_nil]
    exact .closing closing

theorem rowEnd_spec (positive : 0 < length) (forced : more.ForcedRow)
    (found : 0 < findFirstRowBoundaryAfter more.dialect more.data) :
    ((more.markOversizedRow.setTrxEndOffset
      (findFirstRowBoundaryAfter more.dialect more.data)).sending length).Sends
        (ReadSpec more sent length) := by
  have one := newline_notMem_of_forcedRow core noEnd phase forced
  obtain ⟨counted, reported, reports, marked⟩ := more.markOversizedRow_eq
  rw [core.dialect_eq] at found ⊢
  rw [marked]
  obtain ⟨last, first⟩ := findFirst_default_pos found
  generalize findFirstRowBoundaryAfter Dialect.default_ more.data = rowEnd at *
  have inside : rowEnd ≤ more.data.length := by
    have bound := (List.getElem?_eq_some_iff.mp last).1
    omega
  have coreMarked : Core
      { more with
        oversizedRowCounted := counted
        oversizedRows := reported
        oversizedReports := reports } sent := { core with }
  exact (coreMarked.sendingTo positive (by omega) inside (.inl (endsRow_append_take found last))
    (.inr (singleRow_append_take one first inside found))).rebase rfl rfl

theorem oversized_spec (positive : 0 < length) (stalled : more.data = [] → more.eof = true)
    (forced : more.ForcedRow) (absent : findFirstRowBoundaryAfter more.dialect more.data = 0) :
    ({ more.markOversizedRow with partialRowSent := true }.sending length).Sends
      (ReadSpec more sent length) := by
  have one := newline_notMem_of_forcedRow core noEnd phase forced
  obtain ⟨counted, reported, reports, marked⟩ := more.markOversizedRow_eq
  rw [core.dialect_eq] at absent
  rw [marked]
  have oneNext : newline ∉ sent ++ more.data.take length :=
    newline_notMem_append_take one fun offset _ here =>
      findFirst_default_eq_zero absent (mem_of_getElem? here)
  have coreMarked : Core
      { more with
        partialRowSent := true
        oversizedRowCounted := counted
        oversizedRows := reported
        oversizedReports := reports } sent := { core with }
  exact (coreMarked.sendingOpen noEnd positive (Nat.le_refl length) stalled
    (.partialRow noEnd rfl oneNext)).rebase rfl rfl

end

theorem wholeRows_spec (positive : 0 < length) (short : length < 2 ^ 32)
    (stalled : more.data = [] → more.eof = true)
    (fits : (more.data.length : Int) < more.trxBytesLeft)
    (found : 0 < findLastRowBoundaryBefore more.dialect more.data length) :
    ({ more with partialRowSent := false, oversizedRowCounted := false }.sending
      (toUInt32 (findLastRowBoundaryBefore more.dialect more.data length))).Sends
        (ReadSpec more sent length) := by
  have room := core.room_of_fits fits
  have search : findLastRowBoundaryBefore more.dialect more.data length =
      findLastRowBoundaryBefore Dialect.default_ more.data length := by
    rw [core.dialect_eq]
  rw [search] at found ⊢
  obtain ⟨within, last⟩ := findLast_default_pos positive (by omega) found
  generalize findLastRowBoundaryBefore Dialect.default_ more.data length = rowEnd at *
  rw [toUInt32_natCast (by omega)]
  have rows : EndsRow (sent ++ more.data.take rowEnd) ∧
      (sent ++ more.data.take rowEnd).length < more.maxTrxSize.toNat := by
    refine ⟨endsRow_append_take found last, ?_⟩
    rw [length_append, length_take]
    omega
  have coreWhole : Core
      { more with partialRowSent := false, oversizedRowCounted := false } sent := { core with }
  exact (coreWhole.sendingOpen noEnd found within stalled
    (.boundary noEnd rfl (.inr rows))).rebase rfl rfl

/--
A buffered row that is longer than the request is sent in parts, unless the narrowed length of
what is left of it is `0`.
-/
theorem knownRow_spec (phase : Phase more sent) (wide : 2 ≤ length) (short : length < 2 ^ 32)
    (stalled : more.data = [] → more.eof = true)
    (fits : (more.data.length : Int) < more.trxBytesLeft)
    (absent : findLastRowBoundaryBefore more.dialect more.data length = 0)
    (found : 0 < more.lastRowInTransaction) :
    (more.sending (min length (toUInt32 more.lastRowInTransaction))).Sends
      (ReadSpec more sent length) := by
  have room := core.room_of_fits fits
  rw [core.dialect_eq] at absent
  have none := findLast_default_eq_zero wide (by omega) absent
  obtain ⟨inside, within, last⟩ := core.lastRowInTransaction_pos (by omega) found
  have beyond : length ≤ more.lastRowInTransaction - 1 :=
    Nat.not_lt.mp fun below => none (more.lastRowInTransaction - 1) below last
  have narrowed : toUInt32 (more.lastRowInTransaction : Int) =
      more.lastRowInTransaction % 2 ^ 32 := by
    rw [toUInt32]
    omega
  rw [narrowed]
  generalize count_eq : min length (more.lastRowInTransaction % 2 ^ 32) = count
  rcases Nat.eq_zero_or_pos count with zero | positive
  · have wraps : more.lastRowInTransaction % 2 ^ 32 = 0 := by omega
    rw [zero, sending, consume_open noEnd]
    simp only [take_zero, drop_zero, length_nil, Nat.add_zero]
    refine ⟨?_, ?_, rfl, rfl, Nat.zero_le _, fun _ => .inr (.inr ⟨noEnd, fits, found, wraps⟩)⟩
    · rwa [append_nil]
    · rwa [append_nil]
  · have atMost : count ≤ length := by omega
    refine core.sendingOpen noEnd positive atMost stalled ?_
    cases phase with
    | partialRow _ started one =>
      exact .partialRow noEnd started
        (newline_notMem_append_take one fun offset below => none offset (by omega))
    | closing closing => exact absurd noEnd (Nat.ne_of_gt closing.known)
    | boundary _ whole _ | knownRow _ whole _ _ _ =>
      refine .knownRow noEnd whole (more.lastRowInTransaction - 1 - count) ?_ ?_
      · change (more.data.drop count)[more.lastRowInTransaction - 1 - count]? = _
        rw [getElem?_drop, Nat.add_sub_cancel' (atMost.trans beyond)]
        exact last
      · rw [length_append, length_take]
        change _ < more.maxTrxSize.toNat
        omega

theorem partialRow_spec (phase : Phase more sent) (positive : 0 < length)
    (stalled : more.data = [] → more.eof = true)
    (fits : (more.data.length : Int) < more.trxBytesLeft)
    (unknown : more.lastRowInTransaction = 0)
    (started : more.trxSize = 0 ∨ more.partialRowSent = true) :
    ({ more with partialRowSent := true }.sending length).Sends
      (ReadSpec more sent length) := by
  have forced : more.ForcedRow :=
    ⟨started.symm.imp_right fun empty => ⟨unknown, empty⟩, .inl unknown⟩
  have one := newline_notMem_of_forcedRow core noEnd phase forced
  have none := core.newline_notMem_data fits unknown
  have corePartial : Core { more with partialRowSent := true } sent := { core with }
  have oneNext := newline_notMem_append_take one fun offset (_ : offset < length) => none offset
  exact (corePartial.sendingOpen noEnd positive (Nat.le_refl length) stalled
    (.partialRow noEnd rfl oneNext)).rebase rfl rfl

end

theorem lastRow_spec (positive : 0 < length) (fits : (more.data.length : Int) < more.trxBytesLeft)
    (nonempty : more.trxSize ≠ 0) (ended : more.eof = true) :
    ((more.setTrxEndOffset more.data.length).sending length).Sends
      (ReadSpec more sent length) := by
  have room := core.room_of_fits fits
  refine core.sendingTo positive (by omega) (Nat.le_refl _) (.inr ⟨ended, rfl⟩) (.inl ?_)
  rw [take_length, length_append]
  omega

end

/-! ## A whole read -/

/-- Reading more data stays in the phase. -/
theorem readMore_spec (core : Core buffer sent) (noEnd : buffer.trxEndOffset = 0)
    (phase : Phase buffer sent) (positive : 0 < length) :
    ∃ more, buffer.readMore length = (some (), more) ∧ more.trxEndOffset = 0 ∧
      Core more sent ∧ Phase more sent ∧ more.unsent = buffer.unsent ∧
      more.maxTrxSize = buffer.maxTrxSize ∧ (more.data = [] → more.eof = true) ∧
      (more.eof = false → more.file.rest.length < buffer.file.rest.length) := by
  obtain ⟨more, result, healthy⟩ := readMore_healthy core.healthy length
  obtain ⟨file, eof, copied, rfl, -, -, split, atEnd, ended⟩ :=
    readMore_some core.atEnd positive result
  have sameUnsent : buffer.data ++ copied ++ file.rest = buffer.unsent := by
    rw [unsent, split, append_assoc]
  refine ⟨_, result, noEnd, ?_, ?_, sameUnsent, rfl, ?_, ?_⟩
  · have bounded := core.bounded
    rw [← sameUnsent] at bounded
    exact ⟨core.dialect_eq, core.enabled, healthy, core.size_eq, atEnd, bounded⟩
  · cases phase with
    | boundary noEnd whole rows => exact .boundary noEnd whole rows
    | partialRow noEnd started one => exact .partialRow noEnd started one
    | knownRow noEnd whole offset here room =>
      have inside := (List.getElem?_eq_some_iff.mp here).1
      exact .knownRow noEnd whole offset ((getElem?_append_left inside).trans here) room
    | closing closing => exact absurd noEnd (Nat.ne_of_gt closing.known)
  · exact fun empty => ended (append_eq_nil_iff.mp empty).2
  · intro continues
    have nonempty : copied ≠ [] := by
      intro empty
      exact Bool.false_ne_true (continues.symm.trans (ended empty))
    have longer := length_pos_of_ne_nil nonempty
    rw [split, length_append]
    change file.rest.length < _
    omega

/-- Every outcome of a pass answers the read as specified, or asks for another pass. -/
theorem outcome_spec (core : Core more sent) (noEnd : more.trxEndOffset = 0)
    (phase : Phase more sent) (wide : 2 ≤ length) (short : length < 2 ^ 32)
    (stalled : more.data = [] → more.eof = true) {pass : TransactionBuffer.Pass}
    (outcome : TransactionBuffer.Outcome more length pass) :
    (∃ copied next, pass = .done (some copied) next ∧ ReadSpec more sent length copied next) ∨
      (pass = .retry more ∧ more.eof = false) := by
  have positive : 0 < length := by omega
  cases outcome with
  | boundary _ found tested =>
    exact .inl ⟨_, _, rfl, boundary_spec core noEnd phase positive found tested⟩
  | flush _ whole absent nonempty =>
    exact .inl ⟨_, _, rfl, flush_spec core noEnd phase whole absent nonempty⟩
  | rowEnd _ forced found =>
    exact .inl ⟨_, _, rfl, rowEnd_spec core noEnd phase positive forced found⟩
  | oversized _ forced absent =>
    exact .inl ⟨_, _, rfl, oversized_spec core noEnd phase positive stalled forced absent⟩
  | wholeRows fits found =>
    exact .inl ⟨_, _, rfl, wholeRows_spec core noEnd positive short stalled fits found⟩
  | knownRow fits absent found =>
    exact .inl ⟨_, _, rfl, knownRow_spec core noEnd phase wide short stalled fits absent found⟩
  | partialRow fits _ unknown started =>
    exact .inl ⟨_, _, rfl, partialRow_spec core noEnd phase positive stalled fits unknown started⟩
  | lastRow fits _ _ nonempty _ ended =>
    exact .inl ⟨_, _, rfl, lastRow_spec core positive fits nonempty ended⟩
  | retry _ _ _ _ _ continues => exact .inr ⟨rfl, continues⟩

/-- Every pass either answers the read or moves bytes from the file into the buffer. -/
theorem readPass_spec (core : Core buffer sent) (phase : Phase buffer sent) (wide : 2 ≤ length)
    (short : length < 2 ^ 32) :
    (∃ copied next, buffer.readPass length = .done (some copied) next ∧
      ReadSpec buffer sent length copied next) ∨
    (∃ next, buffer.readPass length = .retry next ∧ Core next sent ∧ Phase next sent ∧
      next.unsent = buffer.unsent ∧ next.maxTrxSize = buffer.maxTrxSize ∧
      next.file.rest.length < buffer.file.rest.length) := by
  have positive : 0 < length := by omega
  by_cases known : 0 < buffer.trxEndOffset
  · refine .inl ⟨_, _, if_pos known, ?_⟩
    cases phase with
    | closing closing => exact closing.sending core positive
    | boundary noEnd _ _ | partialRow noEnd _ _ | knownRow noEnd _ _ _ _ => omega
  · have noEnd : buffer.trxEndOffset = 0 := by omega
    obtain ⟨more, result, stillNoEnd, coreMore, phaseMore, sameUnsent, sameLimit, stalled,
      consumed⟩ := readMore_spec core noEnd phase positive
    have outcome := readPass_outcome noEnd stillNoEnd result
    rcases outcome_spec coreMore stillNoEnd phaseMore wide short stalled outcome with
      ⟨copied, next, done, spec⟩ | ⟨retry, continues⟩
    · exact .inl ⟨copied, next, done, spec.rebase sameUnsent sameLimit⟩
    · exact .inr ⟨more, retry, coreMore, phaseMore, sameUnsent, sameLimit, consumed continues⟩

theorem readPasses_spec {fuel : Nat} (core : Core buffer sent) (phase : Phase buffer sent)
    (wide : 2 ≤ length) (short : length < 2 ^ 32) (enough : buffer.file.rest.length < fuel) :
    ∃ copied next, readPasses fuel buffer length = (some copied, next) ∧
      ReadSpec buffer sent length copied next := by
  induction fuel generalizing buffer with
  | zero => omega
  | succ fuel ih =>
    unfold readPasses
    rcases readPass_spec core phase wide short with
      ⟨copied, next, done, spec⟩ | ⟨next, retry, coreNext, phaseNext, sameUnsent, sameLimit,
        shorter⟩
    · rw [done]
      exact ⟨copied, next, rfl, spec⟩
    · rw [retry]
      obtain ⟨copied, final, result, spec⟩ := ih coreNext phaseNext (by omega)
      exact ⟨copied, final, result, spec.rebase sameUnsent sameLimit⟩

/-- A request that is answered by the first pass. -/
theorem localInfileRead_of_pass {next : TransactionBuffer} {length : UInt32} {copied : Bytes}
    (enabled : buffer.maxTrxSize ≠ 0) (noEnd : buffer.trxEndOffset = 0)
    (pass : buffer.readPass length.toNat = .done (some copied) next)
    (short : copied.length < 2 ^ 31) : localInfileRead buffer length = (some copied, next) := by
  have pending : ¬ buffer.flushPending = true := by
    simp only [flushPending, noEnd, decide_eq_true_eq]
    omega
  have reported : ¬ toInt32 (copied.length : Int) < 0 := by
    rw [toInt32_of_range (by omega) (by omega)]
    omega
  rw [localInfileRead, if_neg pending, TransactionBuffer.read, if_neg enabled, readPasses, pass]
  exact if_neg reported

/-- A request of the client library is answered, or the transaction has ended. -/
theorem localInfileRead_spec (core : Core buffer sent) (phase : Phase buffer sent) {length : UInt32}
    (wide : 2 ≤ length.toNat) (short : length.toNat < 2 ^ 31) :
    ∃ copied next, localInfileRead buffer length = (some copied, next) ∧
      ReadSpec buffer sent length.toNat copied next := by
  unfold localInfileRead
  by_cases pending : buffer.flushPending = true
  · rw [if_pos pending]
    refine ⟨[], buffer, rfl, ?_, ?_, rfl, rfl, Nat.zero_le _, fun _ => .inl pending⟩
    · rwa [append_nil]
    · rwa [append_nil]
  · rw [if_neg pending]
    have enough : buffer.file.rest.length < buffer.file.rest.length + 2 := by omega
    obtain ⟨copied, next, result, spec⟩ := readPasses_spec core phase wide (by omega) enough
    have reported : ¬ toInt32 (copied.length : Int) < 0 := by
      have within := spec.length_le
      rw [toInt32_of_range (by omega) (by omega)]
      omega
    have answer : buffer.read length = (some copied, next) := by
      unfold TransactionBuffer.read
      rw [if_neg core.enabled]
      exact result
    rw [answer]
    exact ⟨copied, next, if_neg reported, spec⟩

end SubChunking

end MariadbShell.ImportTable
