import MariadbShell.ImportTable.FastSubChunking
import MariadbShell.ImportTable.ReadPass

/-!
# What fast sub-chunking hands over

The invariant of the two threads has two parts: the books (`Books`) say which rows are in the
finished transactions, in the current one, in the buffer of a read request and with the writer;
the protocol (`Linked`) says where the one request or response is. One of the threads can
always go on.
-/

namespace MariadbShell.ImportTable

open List Lib.MachineInt Lib.Machine WriterState Option TransactionBuffer

/-! ## Rows and transactions -/

def solid (rows : List Bytes) : List Bytes :=
  rows.filter (· ≠ [])

/-- The rows respect a transaction limit, or there is only one. -/
def FitsOrOneRow (limit : Nat) (group : List Bytes) : Prop :=
  group.flatten.length ≤ limit ∨ ∃ row, group = [row]

theorem solid_cons_nil (rows : List Bytes) : solid ([] :: rows) = solid rows := by
  simp [solid]

theorem solid_cons {row : Bytes} (solidRow : row ≠ []) (rows : List Bytes) :
    solid (row :: rows) = row :: solid rows := by
  simp [solid, solidRow]

theorem flatten_solid (rows : List Bytes) : (solid rows).flatten = rows.flatten := by
  induction rows with
  | nil => rfl
  | cons row rows ih =>
    by_cases empty : row = []
    · rw [empty, solid_cons_nil, ih, flatten_cons, nil_append]
    · rw [solid_cons empty, flatten_cons, flatten_cons, ih]

/-- Rows that have bytes are told from none by their bytes. -/
theorem eq_nil_of_flatten {rows all : List Bytes} (among : ∀ row ∈ rows, row ∈ solid all)
    (empty : rows.flatten = []) : rows = [] := by
  rw [eq_nil_iff_forall_not_mem]
  intro row member
  have solidRow := (mem_filter.mp (among row member)).2
  have := flatten_eq_nil_iff.mp empty row member
  simp [this] at solidRow

/-! ## The books -/

namespace WriterState

/-- The writer has no request in its hands. -/
def free : WriterState → Bool
  | .serving | .answering true => false
  | _ => true

/-- The writer has seen in `close` that there is no request, or has answered it. -/
def late : WriterState → Bool
  | .answering false | .signalling | .closed => true
  | _ => false

def writing : WriterState → Bool
  | .waiting | .serving => true
  | _ => false

def finished : WriterState → Bool
  | .closing | .answering _ | .signalling | .closed => true
  | _ => false

def endMark : WriterState → List Int
  | .closed => [0]
  | _ => []

variable {writer : WriterState}

theorem endMark_of_ne (open_ : writer ≠ .closed) : writer.endMark = [] := by
  cases writer with
  | closed => exact absurd rfl open_
  | _ => rfl

theorem ne_closed_of_not_late (notLate : writer.late = false) : writer ≠ .closed := by
  rintro rfl
  cases notLate

end WriterState

namespace Transfer

/--
Which rows are in the finished transactions, in the current one and in the buffer of the
read request.
-/
structure Books (all : List Bytes) (limit : UInt64) (state : Transfer)
    (groups : List (List Bytes)) (group flight : List Bytes) : Prop where
  solid_eq : solid all = groups.flatten ++ (group ++ (flight ++ solid state.rows))
  transactions_eq : state.transactions = groups.map List.flatten
  bounded : ∀ one ∈ groups, FitsOrOneRow limit.toNat one
  group_eq : state.current ++ state.buffer.data = group.flatten
  size_eq : state.buffer.trxSize = state.current.length
  fits : FitsOrOneRow limit.toNat group
  limit_eq : state.buffer.maxTrxSize = limit
  open_ : state.buffer.trxEndOffset = 0
  pending : state.writer.writing = true →
    ∃ row rows, state.rows = row :: rows ∧ state.pendingWrite = row.length
  written : state.writer.finished = true → state.rows = []
  more : state.reader ≠ .done → state.buffer.eof = false
  left_le : state.rows.length ≤ all.length

/-- What is known about the read that the loading thread waits for. -/
inductive Reading (limit : UInt64) (state : Transfer) (flight : List Bytes) : Prop where
  | direct (length : Nat) (reader_eq : state.reader = .direct length)
      (offered : 0 < state.request.length + state.request.written.length)
      (asked : state.request.length + state.request.written.length ≤ length)
      (short : length < 2 ^ 31)
      (room : state.buffer.trxSize + state.request.length + state.request.written.length ≤
        limit.toNat)
  | expected (length : Nat) (row : Bytes) (rows : List Bytes)
      (reader_eq : state.reader = .stored length) (positive : 0 < length)
      (short : length < 2 ^ 31) (size_eq : state.buffer.trxSize = 0)
      (writing : state.writer.writing = true) (rows_eq : state.rows = row :: rows)
      (solidRow : row ≠ []) (length_eq : state.request.length = row.length)
      (empty : state.request.written = [])
  | arrived (length : Nat) (reader_eq : state.reader = .stored length) (positive : 0 < length)
      (short : length < 2 ^ 31) (size_eq : state.buffer.trxSize = 0)
      (full : state.request.length = 0) (flight_eq : flight = [state.request.written])

/-- The loading thread waits for rows, and has sent all that it had. -/
structure Waiting (limit : UInt64) (state : Transfer) (flight : List Bytes) : Prop where
  reading : Reading limit state flight
  drained : state.buffer.data = []
  written_eq : state.request.written = flight.flatten

/-- Where the read request or its response is. -/
inductive Linked (limit : UInt64) (state : Transfer) (flight : List Bytes) : Prop where
  | idle (reader_eq : state.reader = .ready) (requests_eq : state.requests = 0)
      (responses_eq : state.responses = state.writer.endMark)
      (free : state.writer.free = true) (none_ : flight = [])
  | queued (waiting : Waiting limit state flight)
      (requests_eq : state.requests = 1 ∨ (state.requests = 0 ∧ state.writer.late = true))
      (responses_eq : state.responses = state.writer.endMark)
      (free : state.writer.free = true)
      (late : state.writer.late = true → state.request.written = [])
  | held (waiting : Waiting limit state flight) (requests_eq : state.requests = 0)
      (responses_eq : state.responses = [])
      (taken : state.writer = .serving ∨ state.writer = .answering true)
  | answered (waiting : Waiting limit state flight) (requests_eq : state.requests = 0)
      (responses_eq : state.responses =
        (state.request.written.length : Int) :: state.writer.endMark)
      (free : state.writer.free = true) (some_ : state.request.written ≠ [])
  | refused (length : Nat) (row : Bytes) (rows : List Bytes)
      (reader_eq : state.reader = .direct length) (positive : 0 < length)
      (short : length < 2 ^ 31) (drained : state.buffer.data = [])
      (requests_eq : state.requests = 0) (responses_eq : state.responses = [-1])
      (writer_eq : state.writer = .waiting) (rows_eq : state.rows = row :: rows)
      (solidRow : row ≠ []) (none_ : flight = [])
  | over (reader_eq : state.reader = .done) (writer_eq : state.writer = .closed)
      (none_ : flight = []) (current_eq : state.current = []) (drained : state.buffer.data = [])

def Invariant (all : List Bytes) (limit : UInt64) (state : Transfer) : Prop :=
  ∃ groups group flight, Books all limit state groups group flight ∧ Linked limit state flight

section

variable {all : List Bytes} {limit : UInt64} {state : Transfer} {groups : List (List Bytes)}
  {group flight : List Bytes}

section

variable (books : Books all limit state groups group flight)

include books

theorem Books.group_among : ∀ row ∈ group, row ∈ solid all := by
  intro row member
  rw [books.solid_eq]
  simp [member]

theorem Books.flight_among : ∀ row ∈ flight, row ∈ solid all := by
  intro row member
  rw [books.solid_eq]
  simp [member]

theorem Books.current_le : state.current.length ≤ group.flatten.length := by
  rw [← books.group_eq, length_append]
  omega

/-- The subtraction of `trx_bytes_left` does not overflow. -/
theorem Books.trxBytesLeft_eq (small : limit.toNat < 2 ^ 63)
    (rowsFit : ∀ row ∈ all, row.length < 2 ^ 63) :
    state.buffer.trxBytesLeft = (limit.toNat : Int) - state.current.length := by
  have sent : state.current.length < 2 ^ 63 := by
    have within := books.current_le
    rcases books.fits with fit | ⟨row, rfl⟩
    · omega
    · have among := (mem_filter.mp (books.group_among row (by simp))).1
      have := rowsFit row among
      simp only [flatten_cons, flatten_nil, append_nil] at within
      omega
  rw [trxBytesLeft, books.limit_eq, books.size_eq]
  exact toInt64_of_range (by omega) (by omega)

end

/-! ## The loading thread -/

theorem deliver_nil (state : Transfer) :
    state.deliver [] =
      { state with
        current := []
        transactions := state.transactions ++ [state.current]
        buffer := state.buffer.flushDone.2
        reader := if state.buffer.flushDone.1 then .ready else .done } := by
  rw [deliver, if_neg (by decide), if_pos rfl]

theorem deliver_some {bytes : Bytes} (some_ : bytes ≠ []) (short : bytes.length < 2 ^ 31)
    (state : Transfer) :
    state.deliver bytes = { state with current := state.current ++ bytes, reader := .ready } := by
  have converted : toInt32 (bytes.length : Int) = bytes.length :=
    toInt32_of_range (by omega) (by omega)
  rw [deliver, if_neg (by omega), if_neg some_]

/-- The rows of the current statement are those of a finished one. -/
theorem Books.close (books : Books all limit state groups group [])
    (drained : state.buffer.data = []) {responses : List Int} {eof : Bool}
    (more : { state.buffer with eof }.flushDone.1 = true → eof = false) :
    Books all limit ({ state with responses, buffer := { state.buffer with eof } }.deliver [])
      (groups ++ [group]) [] [] := by
  rw [deliver_nil]
  refine
    { books with
      solid_eq := ?_
      transactions_eq := ?_
      bounded := ?_
      group_eq := drained
      size_eq := rfl
      fits := .inl (Nat.zero_le _)
      open_ := rfl
      more := fun running => more (by_contra fun last => running (if_neg last)) }
  · rw [books.solid_eq, flatten_append]
    simp
  · rw [map_append, ← books.transactions_eq, map_singleton, ← books.group_eq, drained, append_nil]
  · intro one member
    rcases mem_append.mp member with earlier | last
    · exact books.bounded one earlier
    · rw [mem_singleton.mp last]
      exact books.fits

/-- The end of a statement that is not the last one. -/
theorem Books.flush (books : Books all limit state groups group [])
    (enabled : limit ≠ 0) (running : state.reader ≠ .done) (drained : state.buffer.data = [])
    (requests_eq : state.requests = 0) (responses_eq : state.responses = state.writer.endMark)
    (free : state.writer.free = true) : Invariant all limit (state.deliver []) := by
  have again : state.buffer.flushDone.1 = true := by
    simp [flushDone, books.limit_eq, enabled, books.more running]
  refine ⟨groups ++ [group], [], [], books.close drained fun _ => books.more running, ?_⟩
  rw [deliver_nil, again]
  exact .idle rfl requests_eq responses_eq free rfl

variable {length : Nat}

/-- Bytes of the local buffer go to the client library. -/
theorem Books.consume_stored (books : Books all limit state groups group [])
    (positive : 0 < length) (short : length < 2 ^ 31) (stored : state.buffer.data ≠ [])
    (running : state.reader ≠ .done) (requests_eq : state.requests = 0)
    (responses_eq : state.responses = state.writer.endMark) (free : state.writer.free = true) :
    Invariant all limit (state.consume length) := by
  have some_ : state.buffer.data.take length ≠ [] := by
    rw [Ne, take_eq_nil_iff]
    rintro (none_ | none_)
    · omega
    · exact stored none_
  have few : (state.buffer.data.take length).length < 2 ^ 31 := by
    rw [length_take]
    omega
  rw [consume, consume_open books.open_, deliver_some some_ few]
  refine ⟨groups, group, [], ?_, .idle rfl requests_eq responses_eq free rfl⟩
  refine
    { books with
      group_eq := ?_
      size_eq := ?_
      more := fun _ => books.more running }
  · rw [← books.group_eq, append_assoc, take_append_drop]
  · rw [length_append, ← books.size_eq]

theorem Linked.of_ready (linked : Linked limit state flight) (ready : state.reader = .ready) :
    state.requests = 0 ∧ state.responses = state.writer.endMark ∧ state.writer.free = true ∧
      flight = [] := by
  have notWaiting (waiting : Waiting limit state flight) : False := by
    cases waiting.reading <;> simp_all
  cases linked with
  | idle _ requests_eq responses_eq free none_ =>
    exact ⟨requests_eq, responses_eq, free, none_⟩
  | queued waiting | held waiting | answered waiting => exact (notWaiting waiting).elim
  | refused _ _ _ reader_eq | «over» reader_eq => rw [reader_eq] at ready; cases ready

/-- A read uses the local buffer, ends the statement or waits for rows. -/
theorem Books.ask_cases (books : Books all limit state groups group flight)
    (small : limit.toNat < 2 ^ 63) (enabled : limit ≠ 0)
    (rowsFit : ∀ row ∈ all, row.length < 2 ^ 63) (positive : 0 < length) :
    (state.buffer.data ≠ [] ∧ state.ask length = state.consume length) ∨
    (state.buffer.data = [] ∧ state.buffer.trxSize ≠ 0 ∧ state.ask length = state.deliver []) ∨
    (state.buffer.data = [] ∧ ∃ room, 0 < room ∧ room ≤ length ∧
      state.buffer.trxSize + room ≤ limit.toNat ∧
        state.ask length = state.startRead room (.direct length)) := by
  have notPending : ¬ state.buffer.flushPending = true := by
    simp [flushPending, books.open_]
  have limited : ¬ state.buffer.maxTrxSize = 0 := by
    rw [books.limit_eq]
    exact enabled
  have left_eq := books.trxBytesLeft_eq small rowsFit
  have size_eq := books.size_eq
  have nonzero : limit.toNat ≠ 0 := fun zero => enabled (UInt64.toNat_inj.mp zero)
  rw [ask, if_neg notPending, if_neg limited]
  by_cases drained : state.buffer.data = []
  · rw [if_neg (not_not.mpr drained)]
    by_cases used : state.buffer.trxBytesLeft ≤ 0
    · rw [if_pos used]
      exact .inr (.inl ⟨drained, by omega, rfl⟩)
    · rw [if_neg used]
      have left : (toUInt64 state.buffer.trxBytesLeft : Int) =
          (limit.toNat : Int) - state.current.length := by
        rw [toUInt64_of_range (by omega) (by omega), left_eq]
      exact .inr (.inr ⟨drained, _, by omega, by omega, by omega, rfl⟩)
  · rw [if_pos drained]
    exact .inl ⟨drained, rfl⟩

theorem ask_invariant (small : limit.toNat < 2 ^ 63) (enabled : limit ≠ 0)
    (rowsFit : ∀ row ∈ all, row.length < 2 ^ 63) (invariant : Invariant all limit state)
    (ready : state.reader = .ready) (positive : 0 < length) (short : length < 2 ^ 31) :
    Invariant all limit (state.ask length) := by
  obtain ⟨groups, group, flight, books, linked⟩ := invariant
  obtain ⟨requests_eq, responses_eq, free, rfl⟩ := linked.of_ready ready
  have running : state.reader ≠ .done := by
    rw [ready]
    decide
  rcases books.ask_cases small enabled rowsFit positive with ⟨stored, asked⟩ |
    ⟨drained, -, asked⟩ | ⟨drained, room, some_, within, fits, asked⟩
  · rw [asked]
    exact books.consume_stored positive short stored running requests_eq responses_eq free
  · rw [asked]
    exact books.flush enabled running drained requests_eq responses_eq free
  · rw [asked]
    refine ⟨groups, group, [], { books with more := fun _ => books.more running }, ?_⟩
    refine .queued ⟨.direct length rfl some_ within short ?_, drained, rfl⟩ (.inl ?_)
      responses_eq free fun _ => rfl
    · exact fits
    · simp only [startRead, requests_eq]

/-- The end of the file is the end of the last statement. -/
theorem Books.finish (books : Books all limit state groups group [])
    (drained : state.buffer.data = []) (writer_eq : state.writer = .closed) (later : List Int) :
    Invariant all limit
      ({ state with responses := later, buffer := { state.buffer with eof := true } }.deliver
        []) := by
  have last : ({ state.buffer with eof := true } : TransactionBuffer).flushDone.1 = false := by
    simp [flushDone, drained]
  refine ⟨groups ++ [group], [], [], books.close drained (by simp [last]), ?_⟩
  simp only [deliver_nil, last]
  exact .over rfl writer_eq rfl rfl drained

/-- The rows in the buffer of the request go to the client library. -/
theorem Books.receive_rows (books : Books all limit state groups group flight)
    (waiting : Waiting limit state flight) (requests_eq : state.requests = 0)
    (free : state.writer.free = true) (some_ : state.request.written ≠ []) {later : List Int}
    (later_eq : later = state.writer.endMark) :
    Invariant all limit
      ({ state with responses := later }.receive (state.request.written.length : Int)) := by
  obtain ⟨reading, drained, written_eq⟩ := waiting
  have positive : 0 < state.request.written.length := length_pos_iff.mpr some_
  have whole : state.request.written.take
      ((state.request.written.length : Int)).toNat = state.request.written := by
    rw [Int.toNat_natCast, take_length]
  cases reading with
  | direct length reader_eq offered asked short room =>
    have running : state.reader ≠ .done := by
      rw [reader_eq]
      exact ReaderState.noConfusion
    simp only [receive, reader_eq, whole]
    rw [if_neg (by omega), if_neg (by omega), deliver_some some_ (by omega)]
    refine ⟨groups, group ++ flight, [], ?_, .idle rfl requests_eq later_eq free rfl⟩
    refine
      { books with
        solid_eq := ?_
        group_eq := ?_
        size_eq := ?_
        fits := .inl ?_
        open_ := books.open_
        more := fun _ => books.more running }
    · rw [books.solid_eq, append_assoc, nil_append]
    · rw [flatten_append, ← books.group_eq, drained, append_nil, append_nil, written_eq]
    · rw [length_append, books.size_eq, Int.toNat_natCast]
    · have size_eq := books.size_eq
      rw [flatten_append, ← books.group_eq, drained, append_nil, length_append, ← written_eq]
      omega
  | expected length row rows reader_eq positive short size_eq writing rows_eq solidRow length_eq
      empty => exact absurd empty some_
  | arrived length reader_eq allowed short size_eq full flight_eq =>
    have running : state.reader ≠ .done := by
      rw [reader_eq]
      exact ReaderState.noConfusion
    have none_ : state.current = [] := by
      rw [← length_eq_zero_iff, ← books.size_eq, size_eq]
    have group_nil : group = [] := by
      refine eq_nil_of_flatten books.group_among ?_
      rw [← books.group_eq, drained, none_, append_nil]
    simp only [receive, reader_eq]
    rw [if_neg (by omega), if_neg (by omega), full, replicate_zero, append_nil]
    have moved : Books all limit
        { state with
          responses := later
          buffer := { state.buffer with data := state.request.written } }
        groups flight [] := by
      refine
        { books with
          solid_eq := ?_
          group_eq := ?_
          fits := .inr ⟨_, flight_eq⟩
          more := fun _ => books.more running }
      · rw [books.solid_eq, group_nil, nil_append, nil_append]
      · rw [none_, nil_append, written_eq]
    exact moved.consume_stored allowed short some_ running requests_eq later_eq free

/-- The response that signals the end of the file finds an empty direct read. -/
theorem Books.receive_end (books : Books all limit state groups group flight)
    (waiting : Waiting limit state flight)
    (late : state.writer.late = true → state.request.written = []) {response : Int}
    {later : List Int} (ended : response :: later = state.writer.endMark) :
    response = 0 ∧ state.writer = .closed ∧ flight = [] ∧
      ∃ length, state.reader = .direct length := by
  have writer_eq : state.writer = .closed := by
    by_contra open_
    rw [endMark_of_ne open_] at ended
    cases ended
  rw [writer_eq] at ended late
  obtain ⟨rfl, -⟩ := List.cons.inj ended
  have none_ := eq_nil_of_flatten books.flight_among (waiting.written_eq.symm.trans (late rfl))
  refine ⟨rfl, writer_eq, none_, ?_⟩
  cases waiting.reading with
  | direct length reader_eq => exact ⟨length, reader_eq⟩
  | expected length row rows reader_eq positive short size_eq writing =>
    rw [writer_eq] at writing
    cases writing
  | arrived length reader_eq positive short size_eq full flight_eq =>
    rw [none_] at flight_eq
    cases flight_eq

/-- What the loading thread does with a response. -/
theorem receive_invariant (enabled : limit ≠ 0)
    (invariant : Invariant all limit state) {response : Int} {later : List Int}
    (responses_eq : state.responses = response :: later) (waits : state.reader.waits = true) :
    Invariant all limit ({ state with responses := later }.receive response) := by
  obtain ⟨groups, group, flight, books, linked⟩ := invariant
  cases linked with
  | idle reader_eq => rw [reader_eq] at waits; cases waits
  | queued waiting requests_eq marked free late =>
    obtain ⟨rfl, writer_eq, rfl, length, reader_eq⟩ :=
      books.receive_end waiting late (responses_eq.symm.trans marked)
    simp only [receive, reader_eq]
    exact books.finish waiting.drained writer_eq later
  | held waiting requests_eq none_ => rw [none_] at responses_eq; cases responses_eq
  | answered waiting requests_eq marked free some_ =>
    obtain ⟨rfl, rfl⟩ := List.cons.inj (responses_eq.symm.trans marked)
    exact books.receive_rows waiting requests_eq free some_ rfl
  | refused length row rows reader_eq positive short drained requests_eq marked writer_eq rows_eq
      solidRow none_ =>
      obtain ⟨rfl, rfl⟩ := List.cons.inj (responses_eq.symm.trans marked)
      have running : state.reader ≠ .done := by
        rw [reader_eq]
        exact ReaderState.noConfusion
      have books' : Books all limit { state with responses := [] } groups group [] :=
        { books with solid_eq := none_ ▸ books.solid_eq }
      have writing : state.writer.writing = true := by rw [writer_eq]; rfl
      have free : state.writer.free = true := by rw [writer_eq]; rfl
      have unmarked : [] = state.writer.endMark := by rw [writer_eq]; rfl
      simp only [receive, reader_eq]
      rw [if_neg (by decide), if_pos (by decide)]
      by_cases started : state.buffer.trxSize ≠ 0
      · rw [if_pos started]
        exact books'.flush enabled running drained requests_eq unmarked free
      · rw [if_neg started]
        obtain ⟨pendingRow, _, pending_eq, length_eq⟩ := books.pending writing
        rw [rows_eq] at pending_eq
        obtain ⟨rfl, rfl⟩ := List.cons.inj pending_eq
        refine ⟨groups, group, [], { books' with more := fun _ => books.more running }, ?_⟩
        refine .queued ⟨.expected length row rows rfl positive short (not_not.mp started) writing
          rows_eq solidRow length_eq rfl, drained, rfl⟩ (.inl ?_) unmarked free fun _ => rfl
        rw [startRead, requests_eq]
  | «over» reader_eq => rw [reader_eq] at waits; cases waits

/-! ## The writing thread -/

variable {next : Transfer}

/-- The steps of the writer. -/
inductive Wrote (state : Transfer) : Transfer → Prop
  | begin (row : Bytes) (rows : List Bytes) (writer_eq : state.writer = .between)
      (rows_eq : state.rows = row :: rows) :
      Wrote state { state with pendingWrite := row.length, writer := .waiting }
  | close (writer_eq : state.writer = .between) (rows_eq : state.rows = []) :
      Wrote state { state with writer := .closing }
  | take (writer_eq : state.writer = .waiting) (some_ : state.requests ≠ 0) :
      Wrote state { state with requests := state.requests - 1, writer := .serving }
  | serve (row : Bytes) (rows : List Bytes) (writer_eq : state.writer = .serving)
      (rows_eq : state.rows = row :: rows) : Wrote state (state.serve row rows)
  | find (writer_eq : state.writer = .closing) (some_ : state.requests ≠ 0) :
      Wrote state { state with requests := state.requests - 1, writer := .answering true }
  | answer (popped : Bool) (writer_eq : state.writer = .answering popped) :
      Wrote state
        { state with
          responses :=
            if popped ∧ state.request.written ≠ [] then
              state.responses ++ [(state.request.written.length : Int)]
            else state.responses
          writer := .signalling }
  | signal (writer_eq : state.writer = .signalling) :
      Wrote state { state with responses := state.responses ++ [0], writer := .closed }

theorem wrote_of_write (taken : state.write = some next) : Wrote state next := by
  unfold write at taken
  split at taken
  case h_1 row rows writer_eq rows_eq =>
    cases taken
    exact .begin row rows writer_eq rows_eq
  case h_2 writer_eq rows_eq =>
    cases taken
    exact .close writer_eq rows_eq
  case h_3 writer_eq =>
    split at taken
    · cases taken
    · cases taken
      exact .take writer_eq ‹_›
  case h_4 row rows writer_eq rows_eq =>
    cases taken
    exact .serve row rows writer_eq rows_eq
  case h_5 => cases taken
  case h_6 writer_eq =>
    split at taken
    · cases taken
    · cases taken
      exact .find writer_eq ‹_›
  case h_7 popped writer_eq =>
    cases taken
    exact .answer popped writer_eq
  case h_8 writer_eq =>
    cases taken
    exact .signal writer_eq
  case h_9 => cases taken

variable {writer : WriterState}

theorem Waiting.move (waiting : Waiting limit state flight) {requests pendingWrite : Nat}
    {responses : List Int} (keeps : state.writer.writing = true → writer.writing = true) :
    Waiting limit { state with writer, requests, responses, pendingWrite } flight := by
  refine ⟨?_, waiting.drained, waiting.written_eq⟩
  cases waiting.reading with
  | direct length reader_eq offered asked short room =>
    exact .direct length reader_eq offered asked short room
  | expected length row rows reader_eq positive short size_eq writing rows_eq solidRow length_eq
      empty =>
      exact .expected length row rows reader_eq positive short size_eq (keeps writing) rows_eq
        solidRow length_eq empty
  | arrived length reader_eq positive short size_eq full flight_eq =>
    exact .arrived length reader_eq positive short size_eq full flight_eq

section

variable (linked : Linked limit state flight)

include linked

/-- The writer begins a write or `close`, or has waited in `close`. -/
theorem Linked.move_idle {pendingWrite : Nat}
    (early : state.writer = .between ∨ state.writer = .closing)
    (free : writer.free = true) (endMark_eq : writer.endMark = [])
    (late : writer.late = true → state.requests = 0) :
    Linked limit { state with writer, pendingWrite } flight := by
  obtain ⟨notLate, unmarked, notWriting⟩ : state.writer.late = false ∧
      state.writer.endMark = [] ∧ state.writer.writing = false := by
    rcases early with writer_eq | writer_eq <;> rw [writer_eq] <;> exact ⟨rfl, rfl, rfl⟩
  have keeps : state.writer.writing = true → writer.writing = true := by
    rw [notWriting]
    exact nofun
  cases linked with
  | idle reader_eq requests_eq responses_eq _ none_ =>
    exact .idle reader_eq requests_eq (by rw [responses_eq, unmarked, endMark_eq]) free none_
  | queued waiting requests_eq responses_eq _ _ =>
    have one : state.requests = 1 := by
      rcases requests_eq with one | ⟨-, isLate⟩
      · exact one
      · rw [notLate] at isLate
        cases isLate
    refine .queued (waiting.move keeps) (.inl one) ?_ free ?_
    · rw [responses_eq, unmarked, endMark_eq]
    · intro isLate
      have := late isLate
      omega
  | held _ _ _ taken => rcases taken with writer_eq | writer_eq <;> simp [writer_eq] at early
  | answered waiting requests_eq responses_eq _ some_ =>
    refine .answered (waiting.move keeps) requests_eq ?_ free some_
    rw [responses_eq, unmarked, endMark_eq]
  | refused _ _ _ _ _ _ _ _ _ writer_eq | «over» _ writer_eq => simp [writer_eq] at early

/-- The writer takes the request out of the queue. -/
theorem Linked.take_request (notLate : state.writer.late = false) (some_ : state.requests ≠ 0)
    (keeps : state.writer.writing = true → writer.writing = true)
    (taken : writer = .serving ∨ writer = .answering true) :
    Linked limit { state with requests := state.requests - 1, writer } flight := by
  have unmarked := endMark_of_ne (ne_closed_of_not_late notLate)
  cases linked with
  | queued waiting requests_eq responses_eq _ _ =>
    refine .held (waiting.move keeps) ?_ (responses_eq.trans unmarked) taken
    have one : state.requests = 1 := by
      rcases requests_eq with one | ⟨zero, -⟩
      · exact one
      · exact absurd zero some_
    simp only [one]
  | idle _ requests_eq | held _ requests_eq | answered _ requests_eq
  | refused _ _ _ _ _ _ _ requests_eq => exact absurd requests_eq some_
  | «over» _ writer_eq => rw [writer_eq] at notLate; cases notLate

/-- The last steps of `close`. -/
theorem Linked.move_late (writer : WriterState)
    (last : state.writer = .answering false ∨ state.writer = .signalling)
    (free : writer.free = true) (late : writer.late = true) :
    Linked limit { state with responses := state.responses ++ writer.endMark, writer } flight := by
  obtain ⟨wasLate, unmarked, notWriting⟩ : state.writer.late = true ∧
      state.writer.endMark = [] ∧ state.writer.writing = false := by
    rcases last with writer_eq | writer_eq <;> rw [writer_eq] <;> exact ⟨rfl, rfl, rfl⟩
  have keeps : state.writer.writing = true → writer.writing = true := by
    rw [notWriting]
    exact nofun
  cases linked with
  | idle reader_eq requests_eq responses_eq _ none_ =>
    refine .idle reader_eq requests_eq ?_ free none_
    rw [responses_eq, unmarked, nil_append]
  | queued waiting requests_eq responses_eq _ empty =>
    refine .queued (waiting.move keeps) ?_ ?_ free fun _ => empty wasLate
    · exact requests_eq.imp_right fun both => ⟨both.1, late⟩
    · rw [responses_eq, unmarked, nil_append]
  | held _ _ _ taken => rcases taken with writer_eq | writer_eq <;> simp [writer_eq] at last
  | answered waiting requests_eq responses_eq _ some_ =>
    refine .answered (waiting.move keeps) requests_eq ?_ free some_
    rw [responses_eq, unmarked]
    rfl
  | refused _ _ _ _ _ _ _ _ _ writer_eq | «over» _ writer_eq => simp [writer_eq] at last

/-- The request that the writer has in its hands. -/
theorem Linked.of_not_free (notFree : state.writer.free = false) :
    Waiting limit state flight ∧ state.requests = 0 ∧ state.responses = [] := by
  cases linked with
  | held waiting requests_eq responses_eq => exact ⟨waiting, requests_eq, responses_eq⟩
  | idle _ _ _ free | queued _ _ _ free | answered _ _ _ free =>
    rw [notFree] at free
    cases free
  | refused _ _ _ _ _ _ _ _ _ writer_eq | «over» _ writer_eq =>
    rw [writer_eq] at notFree
    cases notFree

/-- The answer to the request that was found in `close`. -/
theorem Linked.answer (writer_eq : state.writer = .answering true) :
    Linked limit
      { state with
        responses :=
          if state.request.written ≠ [] then
            state.responses ++ [(state.request.written.length : Int)]
          else state.responses
        writer := .signalling } flight := by
  obtain ⟨waiting, requests_eq, responses_eq⟩ := linked.of_not_free (by rw [writer_eq]; rfl)
  have keeps : state.writer.writing = true → signalling.writing = true := by
    rw [writer_eq]
    exact id
  by_cases some_ : state.request.written ≠ []
  · rw [if_pos some_]
    refine .answered (waiting.move keeps) requests_eq ?_ rfl some_
    rw [responses_eq]
    rfl
  · rw [if_neg some_]
    exact .queued (waiting.move keeps) (.inr ⟨requests_eq, rfl⟩) responses_eq rfl
      fun _ => not_not.mp some_

end

/-- The rows in the request after one more. -/
theorem solid_append (row : Bytes) (rows : List Bytes) :
    solid [row] ++ solid rows = solid (row :: rows) := by
  rw [solid, solid, solid, ← filter_append, singleton_append]

theorem flatten_solid_singleton (row : Bytes) : (solid [row]).flatten = row := by
  rw [flatten_solid, flatten_singleton]

/-- The room in the buffer and the bytes in it after a row was copied. -/
theorem Waiting.copy (waiting : Waiting limit state flight) {row : Bytes} {rows : List Bytes}
    (rows_eq : state.rows = row :: rows) (fitting : row.length ≤ state.request.length)
    (among : ∀ one ∈ flight, one ∈ solid all) (requests : Nat) (responses : List Int) :
    Waiting limit
      { state with
        rows
        request := ⟨state.request.length - row.length, state.request.written ++ row⟩
        pendingWrite := 0
        writer := .between
        requests
        responses } (flight ++ solid [row]) := by
  obtain ⟨reading, drained, written_eq⟩ := waiting
  refine ⟨?_, drained, by rw [flatten_append, flatten_solid_singleton, ← written_eq]⟩
  cases reading with
  | direct length reader_eq offered asked short room =>
    refine .direct length reader_eq ?_ ?_ short ?_
    all_goals
      simp only [length_append]
      omega
  | expected length _ _ reader_eq positive short size_eq writing same solidRow length_eq empty =>
    rw [rows_eq] at same
    obtain ⟨rfl, rfl⟩ := List.cons.inj same
    have none_ : flight = [] := eq_nil_of_flatten among (written_eq.symm.trans empty)
    refine .arrived length reader_eq positive short size_eq ?_ ?_
    · rw [length_eq, Nat.sub_self]
    · rw [none_, empty, solid_cons solidRow]
      rfl
  | arrived length reader_eq positive short size_eq full flight_eq =>
    have empty : row = [] := by
      rw [← length_eq_zero_iff]
      omega
    refine .arrived length reader_eq positive short size_eq ?_ ?_
    · rw [full, Nat.zero_sub]
    · rw [empty, flight_eq, append_nil, solid_cons_nil]
      rfl

/-- A read that is full has bytes. -/
theorem Reading.some_of_full (reading : Reading limit state flight)
    (full : state.request.length = 0) (among : ∀ one ∈ flight, one ∈ solid all) :
    state.request.written ≠ [] := by
  cases reading with
  | direct length reader_eq offered =>
    rw [full, Nat.zero_add] at offered
    exact length_pos_iff.mp offered
  | expected length row _ _ _ _ _ _ _ solidRow length_eq =>
    rw [full] at length_eq
    exact absurd (length_eq_zero_iff.mp length_eq.symm) solidRow
  | arrived length _ _ _ _ _ flight_eq =>
    have member := among state.request.written (by simp [flight_eq])
    simpa using (mem_filter.mp member).2

/-- A row is copied into the buffer of the request, or does not fit into it. -/
theorem serve_invariant (invariant : Invariant all limit state) {row : Bytes}
    {rows : List Bytes} (writer_eq : state.writer = .serving)
    (rows_eq : state.rows = row :: rows) : Invariant all limit (state.serve row rows) := by
  obtain ⟨groups, group, flight, books, linked⟩ := invariant
  obtain ⟨waits, requests_eq, responses_eq⟩ := linked.of_not_free (by rw [writer_eq]; rfl)
  have keeps : state.writer.writing = true → waiting.writing = true := fun _ => rfl
  rw [serve]
  by_cases long : state.request.length < row.length
  · rw [if_pos long, responses_eq]
    refine ⟨groups, group, flight, { books with
      pending := fun _ => books.pending (by rw [writer_eq]; rfl)
      written := nofun }, ?_⟩
    by_cases empty : state.request.written = []
    · rw [if_pos empty]
      have none_ : flight = [] :=
        eq_nil_of_flatten books.flight_among (waits.written_eq.symm.trans empty)
      have solidRow : row ≠ [] := by
        rintro rfl
        exact Nat.not_lt_zero _ long
      cases waits.reading with
      | direct length reader_eq offered asked short room =>
        exact .refused length row rows reader_eq (by omega) short waits.drained requests_eq rfl rfl
          rows_eq solidRow none_
      | expected length _ _ _ _ _ _ _ same _ length_eq =>
        rw [rows_eq] at same
        obtain ⟨rfl, rfl⟩ := List.cons.inj same
        omega
      | arrived length _ _ _ _ _ flight_eq =>
        rw [none_] at flight_eq
        cases flight_eq
    · rw [if_neg empty]
      exact .answered (waits.move keeps) requests_eq rfl rfl empty
  · rw [if_neg long]
    have fitting : row.length ≤ state.request.length := Nat.le_of_not_lt long
    have among : ∀ one ∈ flight ++ solid [row], one ∈ solid all := by
      intro one member
      rw [books.solid_eq, rows_eq, ← solid_append]
      rcases mem_append.mp member with earlier | here <;> simp [*]
    have solid_eq : solid all =
        groups.flatten ++ (group ++ (flight ++ solid [row] ++ solid rows)) := by
      rw [books.solid_eq, rows_eq, ← solid_append, append_assoc flight]
    have left_le : rows.length ≤ all.length := by
      have before := books.left_le
      rw [rows_eq, length_cons] at before
      omega
    by_cases full : state.request.length - row.length = 0
    · rw [if_pos full, responses_eq]
      have copied := waits.copy rows_eq fitting books.flight_among state.requests
        [((state.request.written ++ row).length : Int)]
      refine ⟨groups, group, flight ++ solid [row], { books with
        solid_eq
        pending := nofun
        written := nofun
        left_le }, ?_⟩
      exact .answered copied requests_eq rfl rfl (copied.reading.some_of_full full among)
    · rw [if_neg full]
      have copied := waits.copy rows_eq fitting books.flight_among (state.requests + 1)
        state.responses
      refine ⟨groups, group, flight ++ solid [row], { books with
        solid_eq
        pending := nofun
        written := nofun
        left_le }, ?_⟩
      exact .queued copied (.inl (by rw [requests_eq])) responses_eq rfl nofun

/-- The books after a step of `close`. -/
theorem Books.close_step (books : Books all limit state groups group flight)
    (finished : state.writer.finished = true) (notWriting : writer.writing = false)
    {requests : Nat} {responses : List Int} :
    Books all limit { state with writer, requests, responses } groups group flight :=
  { books with
    pending := fun writing => absurd (notWriting.symm.trans writing) (by decide)
    written := fun _ => books.written finished }

theorem write_invariant (invariant : Invariant all limit state) (taken : state.write = some next) :
    Invariant all limit next := by
  obtain ⟨groups, group, flight, books, linked⟩ := invariant
  cases wrote_of_write taken with
  | begin row rows writer_eq rows_eq =>
    refine ⟨groups, group, flight, { books with
      pending := fun _ => ⟨row, rows, rows_eq, rfl⟩
      written := nofun }, ?_⟩
    exact linked.move_idle (.inl writer_eq) rfl rfl nofun
  | close writer_eq rows_eq =>
    refine ⟨groups, group, flight, { books with
      pending := nofun
      written := fun _ => rows_eq }, ?_⟩
    exact linked.move_idle (.inl writer_eq) rfl rfl nofun
  | take writer_eq some_ =>
    refine ⟨groups, group, flight, { books with
      pending := fun _ => books.pending (by rw [writer_eq]; rfl)
      written := nofun }, ?_⟩
    exact linked.take_request (by rw [writer_eq]; rfl) some_ (fun _ => rfl) (.inl rfl)
  | serve row rows writer_eq rows_eq =>
    exact serve_invariant ⟨groups, group, flight, books, linked⟩ writer_eq rows_eq
  | find writer_eq some_ =>
    refine ⟨groups, group, flight, books.close_step (by rw [writer_eq]; rfl) rfl, ?_⟩
    refine linked.take_request (by rw [writer_eq]; rfl) some_ ?_ (.inr rfl)
    rw [writer_eq]
    exact nofun
  | answer popped writer_eq =>
    refine ⟨groups, group, flight, books.close_step (by rw [writer_eq]; rfl) rfl, ?_⟩
    cases popped with
    | true => simpa using linked.answer writer_eq
    | false => simpa [endMark] using linked.move_late .signalling (.inl writer_eq) rfl rfl
  | signal writer_eq =>
    exact ⟨groups, group, flight, books.close_step (by rw [writer_eq]; rfl) rfl,
      linked.move_late .closed (.inr writer_eq) rfl rfl⟩

/-! ## Interleavings -/

variable {event : TransferEvent}

/-- What a step does, by its event. -/
inductive Stepped (state : Transfer) : TransferEvent → Transfer → Prop
  | write {next : Transfer} (taken : state.write = some next) : Stepped state .write next
  | timeout (writer_eq : state.writer = .closing) (requests_eq : state.requests = 0) :
      Stepped state .timeout { state with writer := .answering false }
  | ask (length : UInt32) (ready : state.reader = .ready) :
      Stepped state (.ask length) (state.ask length.toNat)
  | receive {response : Int} {responses : List Int}
      (responses_eq : state.responses = response :: responses)
      (waits : state.reader.waits = true) :
      Stepped state .receive ({ state with responses }.receive response)

theorem stepped_of_step (taken : state.step event = some next) : Stepped state event next := by
  cases event with
  | write => exact .write taken
  | timeout =>
    simp only [step] at taken
    split at taken
    case isTrue here =>
      cases taken
      exact .timeout here.1 here.2
    case isFalse => cases taken
  | ask length =>
    simp only [step] at taken
    split at taken
    case isTrue ready =>
      cases taken
      exact .ask length ready
    case isFalse => cases taken
  | receive =>
    simp only [step] at taken
    split at taken
    case h_1 => cases taken
    case h_2 response later responses_eq =>
      split at taken
      case isTrue waits =>
        cases taken
        exact .receive responses_eq waits
      case isFalse => cases taken

/-- Every step keeps the books and the protocol in order. -/
theorem step_invariant (small : limit.toNat < 2 ^ 63) (enabled : limit ≠ 0)
    (rowsFit : ∀ row ∈ all, row.length < 2 ^ 63) (invariant : Invariant all limit state)
    (sized : ReadSize state event) (taken : state.step event = some next) :
    Invariant all limit next := by
  cases stepped_of_step taken with
  | write taken => exact write_invariant invariant taken
  | timeout writer_eq requests_eq =>
    obtain ⟨groups, group, flight, books, linked⟩ := invariant
    exact ⟨groups, group, flight, books.close_step (by rw [writer_eq]; rfl) rfl,
      linked.move_idle (.inr writer_eq) rfl rfl fun _ => requests_eq⟩
  | ask length ready => exact ask_invariant small enabled rowsFit invariant ready sized.1 sized.2
  | receive responses_eq waits => exact receive_invariant enabled invariant responses_eq waits

end

theorem start_invariant (rows : List Bytes) (dialect : Dialect) (file : SourceFile)
    (limit : UInt64) : Invariant rows limit (start rows dialect file limit) := by
  refine ⟨[], [], [], ?_, .idle rfl rfl rfl rfl rfl⟩
  exact
    { solid_eq := rfl
      transactions_eq := rfl
      bounded := fun one member => nomatch member
      group_eq := rfl
      size_eq := rfl
      fits := .inl (Nat.zero_le _)
      limit_eq := rfl
      open_ := rfl
      pending := nofun
      written := nofun
      more := fun _ => rfl
      left_le := Nat.le_refl _ }

/-! ## Progress -/

section

variable {all : List Bytes} {limit : UInt64} {state : Transfer} {flight : List Bytes}

theorem Waiting.waits (waiting : Waiting limit state flight) : state.reader.waits = true := by
  cases waiting.reading with
  | direct length reader_eq | expected length _ _ reader_eq | arrived length reader_eq =>
    rw [reader_eq]
    rfl

/-- As long as the loading thread is not done, one of the threads can go on. -/
theorem progress (invariant : Invariant all limit state) (running : state.reader ≠ .done) :
    ∃ event, ReadSize state event ∧ (state.step event).isSome = true := by
  obtain ⟨groups, group, flight, books, linked⟩ := invariant
  cases linked with
  | idle reader_eq => exact ⟨.ask 1, ⟨by decide, by decide⟩, by simp [step, reader_eq]⟩
  | queued waiting requests_eq responses_eq free late =>
    cases writer_eq : state.writer with
    | closed =>
      rw [writer_eq] at responses_eq
      exact ⟨.receive, trivial, by simp [step, responses_eq, endMark, waiting.waits]⟩
    | between =>
      cases rows_eq : state.rows with
      | nil | cons row rows =>
        exact ⟨.write, trivial, by simp [step, write, writer_eq, rows_eq]⟩
    | waiting | closing =>
      have one : state.requests = 1 := by
        rcases requests_eq with one | ⟨-, impossible⟩
        · exact one
        · rw [writer_eq] at impossible
          cases impossible
      exact ⟨.write, trivial, by simp [step, write, writer_eq, one]⟩
    | serving => rw [writer_eq] at free; cases free
    | answering _ | signalling => exact ⟨.write, trivial, by simp [step, write, writer_eq]⟩
  | held waiting requests_eq responses_eq taken =>
    rcases taken with writer_eq | writer_eq
    · obtain ⟨row, rows, rows_eq, -⟩ := books.pending (by rw [writer_eq]; rfl)
      exact ⟨.write, trivial, by simp [step, write, writer_eq, rows_eq]⟩
    · exact ⟨.write, trivial, by simp [step, write, writer_eq]⟩
  | answered waiting requests_eq responses_eq =>
    exact ⟨.receive, trivial, by simp [step, responses_eq, waiting.waits]⟩
  | refused length row rows reader_eq positive short drained requests_eq responses_eq =>
    exact ⟨.receive, trivial, by simp [step, responses_eq, reader_eq, ReaderState.waits]⟩
  | «over» reader_eq => exact absurd reader_eq running

end

end Transfer

end MariadbShell.ImportTable
