import MariadbShell.ImportTable.Handover

/-!
# Runs of fast sub-chunking

However the two threads are interleaved, the transactions are the rows in their order,
cut between two rows, and every run comes to an end: a step of the loading thread makes
its demand smaller, a step of the writing thread its supply.
-/

namespace MariadbShell.ImportTable

open List Lib.MachineInt Lib.Machine TransactionBuffer

namespace Transfer

/-! ## Termination -/

variable (state : Transfer)

def unreceived : Nat :=
  state.rows.flatten.length + (if state.reader.waits then state.request.written.length else 0) +
    state.buffer.data.length

/-- How far the loading thread is from the end of a read. -/
def readerRank : ReaderState → Nat
  | .ready => 3
  | .regular | .direct _ => 2
  | .stored _ => 1
  | .failed | .done => 0

/-- The current statement has received bytes, so that it can end. -/
def statementRank : Nat :=
  if state.buffer.trxSize = 0 then 0 else 4

/-- What the loading thread has still to do; every one of its steps makes it less. -/
def demand : Nat :=
  8 * state.unreceived + state.statementRank + readerRank state.reader

/-- What the writing thread can do before the loading thread moves. -/
def supply : Nat :=
  8 * state.rows.length +
    match state.writer with
    | .between => 5
    | .waiting => if state.requests = 0 then 2 else 4
    | .serving => 3
    | .closing => 4
    | .answering _ => 3
    | .signalling => 2
    | .closed => 1

theorem supply_le : state.supply ≤ 8 * state.rows.length + 5 := by
  unfold supply
  split
  case h_2 =>
    split <;> omega
  all_goals omega

section

variable {all : List Bytes} {limit : UInt64} {state : Transfer} {groups : List (List Bytes)}
  {group flight : List Bytes}

theorem statementRank_le (state : Transfer) : state.statementRank ≤ 4 := by
  unfold statementRank
  split <;> omega

theorem statementRank_of_ne {state : Transfer} (used : state.buffer.trxSize ≠ 0) :
    state.statementRank = 4 :=
  if_neg used

theorem unreceived_of_idle (idle : state.reader.waits = false) :
    state.unreceived = state.rows.flatten.length + state.buffer.data.length := by
  rw [unreceived, idle, if_neg Bool.false_ne_true, Nat.add_zero]

theorem unreceived_of_waits (waits : state.reader.waits = true) :
    state.unreceived =
      state.rows.flatten.length + state.request.written.length + state.buffer.data.length := by
  rw [unreceived, if_pos waits]

theorem demand_le_of_ready (ready : state.reader = .ready) :
    state.demand ≤ 8 * (state.rows.flatten.length + state.buffer.data.length) + 7 := by
  have started := state.statementRank_le
  rw [demand, unreceived_of_idle (by rw [ready]; rfl), ready, readerRank]
  omega

theorem startRead_demand (state : Transfer) (length : Nat) {reader : ReaderState}
    (waits : reader.waits = true) :
    (state.startRead length reader).demand =
      8 * (state.rows.flatten.length + state.buffer.data.length) + state.statementRank +
        readerRank reader := by
  rw [demand, unreceived_of_waits waits]
  rfl

theorem deliver_nil_demand (state : Transfer) :
    (state.deliver []).demand =
      8 * (state.rows.flatten.length + state.buffer.data.length) +
        (if state.buffer.flushDone.1 then 3 else 0) := by
  rw [deliver_nil]
  cases again : state.buffer.flushDone.1 with
  | false =>
    rfl
  | true =>
    rfl

theorem consume_demand (open_ : state.buffer.trxEndOffset = 0) {length : Nat}
    (positive : 0 < length) (short : length < 2 ^ 31) (stored : state.buffer.data ≠ []) :
    (state.consume length).demand < 8 * (state.rows.flatten.length + state.buffer.data.length) := by
  have some_ : 0 < state.buffer.data.length := length_pos_iff.mpr stored
  have copied : state.buffer.data.take length ≠ [] := by
    rw [← length_pos_iff, length_take]
    omega
  have few : (state.buffer.data.take length).length < 2 ^ 31 := by
    rw [length_take]
    omega
  rw [consume, consume_open open_, deliver_some copied few]
  refine Nat.lt_of_le_of_lt (demand_le_of_ready rfl) ?_
  simp only [length_drop]
  omega

theorem ask_demand (books : Books all limit state groups group flight)
    (small : limit.toNat < 2 ^ 63) (enabled : limit ≠ 0)
    (rowsFit : ∀ row ∈ all, row.length < 2 ^ 63) (ready : state.reader = .ready) {length : Nat}
    (positive : 0 < length) (short : length < 2 ^ 31) :
    (state.ask length).demand < state.demand := by
  have before : state.demand =
      8 * (state.rows.flatten.length + state.buffer.data.length) + state.statementRank + 3 := by
    rw [demand, unreceived_of_idle (by rw [ready]; rfl), ready]
    rfl
  rcases books.ask_cases small enabled rowsFit positive with ⟨stored, asked⟩ |
    ⟨drained, used, asked⟩ | ⟨drained, room, some_, within, fits, asked⟩
  · have after := consume_demand books.open_ positive short stored
    rw [asked]
    omega
  · rw [asked, deliver_nil_demand, before, statementRank_of_ne used]
    split <;> omega
  · rw [asked, startRead_demand _ _ rfl, readerRank]
    omega

theorem receive_demand (invariant : Invariant all limit state)
    {response : Int} {later : List Int} (responses_eq : state.responses = response :: later)
    (waits : state.reader.waits = true) :
    ({ state with responses := later }.receive response).demand < state.demand := by
  obtain ⟨groups, group, flight, books, linked⟩ := invariant
  have before : state.demand =
      8 * (state.rows.flatten.length + state.request.written.length + state.buffer.data.length) +
        state.statementRank + readerRank state.reader := by
    rw [demand, unreceived_of_waits waits]
  cases linked with
  | idle reader_eq => rw [reader_eq] at waits; cases waits
  | queued waiting requests_eq marked free late =>
    obtain ⟨rfl, -, -, length, reader_eq⟩ :=
      books.receive_end waiting late (responses_eq.symm.trans marked)
    have last : ({ state.buffer with eof := true } : TransactionBuffer).flushDone.1 = false := by
      simp [flushDone, waiting.drained]
    simp only [receive, reader_eq]
    rw [if_pos trivial, deliver_nil_demand, last, before, reader_eq]
    simp only [readerRank, Bool.false_eq_true, if_false]
    omega
  | held waiting requests_eq none_ => rw [none_] at responses_eq; cases responses_eq
  | answered waiting requests_eq marked free some_ =>
    obtain ⟨rfl, rfl⟩ := List.cons.inj (responses_eq.symm.trans marked)
    have count : 0 < state.request.written.length := length_pos_iff.mpr some_
    cases waiting.reading with
    | direct length reader_eq offered asked short room =>
      simp only [receive, reader_eq, Int.toNat_natCast, take_length]
      rw [if_neg (by omega), if_neg (by omega), deliver_some some_ (by omega)]
      refine Nat.lt_of_le_of_lt (demand_le_of_ready rfl) ?_
      simp only
      omega
    | expected length row rows reader_eq positive short size_eq writing rows_eq solidRow length_eq
        empty => exact absurd empty some_
    | arrived length reader_eq positive short size_eq full flight_eq =>
      simp only [receive, reader_eq]
      rw [if_neg (by omega), if_neg (by omega), full, replicate_zero, append_nil]
      refine Nat.lt_of_lt_of_le
        (m := 8 * (state.rows.flatten.length + state.request.written.length)) ?_ ?_
      · refine consume_demand ?_ positive short ?_
        · exact books.open_
        · exact some_
      · rw [before]
        omega
  | refused length row rows reader_eq positive short drained requests_eq marked writer_eq rows_eq
      solidRow none_ =>
      obtain ⟨rfl, rfl⟩ := List.cons.inj (responses_eq.symm.trans marked)
      simp only [receive, reader_eq]
      rw [if_neg (by decide), if_pos (by decide)]
      by_cases started : state.buffer.trxSize ≠ 0
      · rw [if_pos started, deliver_nil_demand, before, statementRank_of_ne started]
        simp only [readerRank]
        split <;> omega
      · rw [if_neg started, startRead_demand _ _ rfl, before, reader_eq, readerRank, readerRank]
        simp only [statementRank]
        omega
  | «over» reader_eq => rw [reader_eq] at waits; cases waits

/-- A row that is copied stays a row that the client library has not received. -/
theorem copied_demand {copied : Transfer} {row : Bytes} {rows : List Bytes}
    (waits : state.reader.waits = true) (rows_eq : state.rows = row :: rows)
    (copiedRows : copied.rows = rows)
    (copiedBytes : copied.request.written = state.request.written ++ row)
    (copiedReader : copied.reader = state.reader) (copiedBuffer : copied.buffer = state.buffer) :
    copied.demand = state.demand := by
  have copiedWaits : copied.reader.waits = true := by rw [copiedReader, waits]
  rw [demand, demand, unreceived_of_waits waits, unreceived_of_waits copiedWaits, statementRank,
    statementRank, copiedRows, copiedBytes, copiedReader, copiedBuffer, rows_eq,
    flatten_cons, length_append, length_append]
  omega

variable {next : Transfer}

theorem write_demand (invariant : Invariant all limit state) (taken : state.write = some next) :
    next.demand = state.demand ∧ next.supply < state.supply := by
  obtain ⟨groups, group, flight, books, linked⟩ := invariant
  cases wrote_of_write taken with
  | begin row rows writer_eq =>
    refine ⟨rfl, ?_⟩
    simp only [supply, writer_eq]
    split <;> omega
  | take writer_eq some_ => exact ⟨rfl, by simp [supply, writer_eq, some_]⟩
  | serve row rows writer_eq rows_eq =>
    obtain ⟨waiting, requests_eq, -⟩ := linked.of_not_free (by rw [writer_eq]; rfl)
    have waits := waiting.waits
    rw [serve]
    by_cases long : state.request.length < row.length
    · rw [if_pos long]
      exact ⟨rfl, by simp [supply, writer_eq, requests_eq]⟩
    · rw [if_neg long]
      have fewer : 8 * rows.length + 5 < state.supply := by
        rw [supply, writer_eq, rows_eq, length_cons]
        omega
      by_cases full : state.request.length - row.length = 0
      · rw [if_pos full]
        exact ⟨copied_demand waits rows_eq rfl rfl rfl rfl, Nat.lt_of_le_of_lt (supply_le _) fewer⟩
      · rw [if_neg full]
        exact ⟨copied_demand waits rows_eq rfl rfl rfl rfl, Nat.lt_of_le_of_lt (supply_le _) fewer⟩
  | close writer_eq | find writer_eq | answer popped writer_eq | signal writer_eq =>
    exact ⟨rfl, by simp [supply, writer_eq]⟩

/-- What is left to do in a transfer of the given rows. -/
def potential (all : List Bytes) (state : Transfer) : Nat :=
  state.demand * (8 * all.length + 8) + state.supply

theorem potential_lt_of_demand (left_le : next.rows.length ≤ all.length)
    (less : next.demand < state.demand) : next.potential all < state.potential all := by
  have supply_lt : next.supply < 8 * all.length + 8 := by
    have := next.supply_le
    omega
  calc
    next.potential all < next.demand * (8 * all.length + 8) + (8 * all.length + 8) := by
      exact Nat.add_lt_add_left supply_lt _
    _ = (next.demand + 1) * (8 * all.length + 8) := by rw [Nat.add_mul, Nat.one_mul]
    _ ≤ state.demand * (8 * all.length + 8) := Nat.mul_le_mul_right _ less
    _ ≤ state.potential all := Nat.le_add_right _ _

/-- Every step leaves less to do. -/
theorem step_potential (small : limit.toNat < 2 ^ 63) (enabled : limit ≠ 0)
    (rowsFit : ∀ row ∈ all, row.length < 2 ^ 63) {event : TransferEvent}
    (invariant : Invariant all limit state) (sized : ReadSize state event)
    (taken : state.step event = some next) : next.potential all < state.potential all := by
  obtain ⟨_, _, _, after, _⟩ := step_invariant small enabled rowsFit invariant sized taken
  cases stepped_of_step taken with
  | write taken =>
    obtain ⟨same, less⟩ := write_demand invariant taken
    rw [potential, same]
    exact Nat.add_lt_add_left less _
  | timeout writer_eq =>
    refine Nat.add_lt_add_left ?_ _
    simp [supply, writer_eq]
  | ask length ready =>
    obtain ⟨_, _, _, books, _⟩ := invariant
    exact potential_lt_of_demand after.left_le
      (ask_demand books small enabled rowsFit ready sized.1 sized.2)
  | receive responses_eq waits =>
    exact potential_lt_of_demand after.left_le (receive_demand invariant responses_eq waits)

end

/-! ## Limits that disable sub-chunking -/

/-- With a limit that is no `int64_t` every statement ends at once. -/
structure Blocked (state : Transfer) : Prop where
  reader_eq : state.reader = .ready
  requests_eq : state.requests = 0
  free : state.writer.free = true
  data_eq : state.buffer.data = []
  size_eq : state.buffer.trxSize = 0
  open_ : state.buffer.trxEndOffset = 0
  more : state.buffer.eof = false
  large : 2 ^ 63 ≤ state.buffer.maxTrxSize.toNat
  current_eq : state.current = []
  transactions_eq : ∀ transaction ∈ state.transactions, transaction = []

theorem Blocked.enabled {state : Transfer} (blocked : Blocked state) :
    state.buffer.maxTrxSize ≠ 0 := by
  intro zero
  have large := blocked.large
  rw [zero] at large
  exact absurd large (by decide)

theorem Blocked.ask_eq {state : Transfer} (blocked : Blocked state) (length : Nat) :
    state.ask length = state.deliver [] := by
  have left : state.buffer.trxBytesLeft ≤ 0 := by
    have large := blocked.large
    have width := state.buffer.maxTrxSize.toNat_lt
    rw [trxBytesLeft, blocked.size_eq]
    simp only [toInt64]
    split <;> omega
  rw [ask, if_neg (by simp [flushPending, blocked.open_]), if_neg blocked.enabled,
    if_neg (not_not.mpr blocked.data_eq), if_pos left]

theorem Blocked.deliver {state : Transfer} (blocked : Blocked state) :
    Blocked (state.deliver []) := by
  have again : state.buffer.flushDone.1 = true := by
    simp [flushDone, blocked.enabled, blocked.more]
  rw [deliver_nil, again]
  refine
    { blocked with
      reader_eq := rfl
      size_eq := rfl
      open_ := rfl
      current_eq := rfl
      transactions_eq := ?_ }
  intro transaction member
  rcases mem_append.mp member with earlier | last
  · exact blocked.transactions_eq transaction earlier
  · rw [mem_singleton.mp last, blocked.current_eq]

theorem Blocked.step {state next : Transfer} {event : TransferEvent} (blocked : Blocked state)
    (taken : state.step event = some next) : Blocked next := by
  cases stepped_of_step taken with
  | write taken =>
    cases wrote_of_write taken with
    | begin | close | answer | signal => exact { blocked with free := rfl }
    | take _ some_ | find _ some_ => exact absurd blocked.requests_eq some_
    | serve row rows writer_eq =>
      have free := blocked.free
      rw [writer_eq] at free
      cases free
  | timeout => exact { blocked with free := rfl }
  | ask length =>
    rw [blocked.ask_eq]
    exact blocked.deliver
  | receive _ waits =>
    rw [blocked.reader_eq] at waits
    cases waits

variable {limit : UInt64}

theorem start_blocked (rows : List Bytes) (dialect : Dialect) (file : SourceFile)
    (large : 2 ^ 63 ≤ limit.toNat) : Blocked (start rows dialect file limit) where
  reader_eq := rfl
  requests_eq := rfl
  free := rfl
  data_eq := rfl
  size_eq := rfl
  open_ := rfl
  more := rfl
  large := large
  current_eq := rfl
  transactions_eq := fun _ member => nomatch member

/-- The client library asks and asks. -/
theorem Blocked.run_asks {state : Transfer} (blocked : Blocked state) (count : Nat) :
    Meets Transfer.step ReadSize state (List.replicate count (.ask 1)) ∧
      ∃ final, run Transfer.step state (List.replicate count (.ask 1)) = some final := by
  induction count generalizing state with
  | zero => exact ⟨trivial, state, rfl⟩
  | succ count ih =>
    have taken : state.step (.ask 1) = some (state.deliver []) := by
      simp only [Transfer.step, blocked.reader_eq, if_true, blocked.ask_eq]
    obtain ⟨meets, final, result⟩ := ih blocked.deliver
    rw [replicate_succ]
    refine ⟨⟨⟨by decide, by decide⟩, ?_⟩, final, ?_⟩
    · simpa only [taken] using meets
    · simpa only [run, taken] using result

/-! ## The transactions -/

/-- The transactions consist of whole rows and respect the limit where a row allows it. -/
def CutBetween (limit : Nat) (rows : List Bytes) (transactions : List Bytes) : Prop :=
  ∃ groups : List (List Bytes), groups.flatten = solid rows ∧
    transactions = groups.map List.flatten ∧ ∀ group ∈ groups, FitsOrOneRow limit group

/--
What was received at any time is the beginning of the rows; when the loading thread is done,
its transactions are the rows; until then one of the threads can go on, for a bounded time
only.
-/
def Transfers (limit : UInt64) : Prop :=
  ∀ (rows : List Bytes) (dialect : Dialect) (file : SourceFile),
    (∀ row ∈ rows, row.length < 2 ^ 63) →
    (∀ events final, Meets step ReadSize (start rows dialect file limit) events →
      run step (start rows dialect file limit) events = some final →
        final.transactions.flatten ++ final.current <+: rows.flatten ∧
        (final.reader = .done → CutBetween limit.toNat rows final.transactions) ∧
        (final.reader ≠ .done → ∃ event, ReadSize final event ∧ (final.step event).isSome)) ∧
    ∃ bound, ∀ events final, Meets step ReadSize (start rows dialect file limit) events →
      run step (start rows dialect file limit) events = some final → events.length ≤ bound

theorem received_front {all : List Bytes} {state : Transfer}
    (invariant : Invariant all limit state) :
    state.transactions.flatten ++ state.current <+: all.flatten := by
  obtain ⟨groups, group, flight, books, -⟩ := invariant
  have current : state.current <+: group.flatten := by
    rw [← books.group_eq]
    exact prefix_append _ _
  have finished : state.transactions.flatten = groups.flatten.flatten := by
    rw [books.transactions_eq, flatten_flatten]
  rw [← flatten_solid all, books.solid_eq, flatten_append, finished,
    prefix_append_right_inj, flatten_append]
  exact current.trans (prefix_append _ _)

theorem done_cutBetween {all : List Bytes} {state : Transfer}
    (invariant : Invariant all limit state) (done : state.reader = .done) :
    CutBetween limit.toNat all state.transactions := by
  obtain ⟨groups, group, flight, books, linked⟩ := invariant
  have notWaiting (waiting : Waiting limit state flight) : False := by
    have waits := waiting.waits
    rw [done] at waits
    cases waits
  cases linked with
  | queued waiting | held waiting | answered waiting => exact (notWaiting waiting).elim
  | idle reader_eq | refused _ _ _ reader_eq => rw [reader_eq] at done; cases done
  | «over» _ writer_eq none_ current_eq drained =>
    have rows_eq : state.rows = [] := books.written (by rw [writer_eq]; rfl)
    have group_nil : group = [] := by
      refine eq_nil_of_flatten books.group_among ?_
      rw [← books.group_eq, current_eq, drained, append_nil]
    refine ⟨groups, ?_, books.transactions_eq, books.bounded⟩
    rw [books.solid_eq, group_nil, none_, rows_eq]
    simp [solid]

theorem transfers_of_limit (enabled : limit ≠ 0) (small : limit.toNat < 2 ^ 63) :
    Transfers limit := by
  intro rows dialect file rowsFit
  have preserved (state : Transfer) (event : TransferEvent) (next : Transfer)
      (invariant : Invariant rows limit state) (sized : ReadSize state event)
      (taken : state.step event = some next) : Invariant rows limit next :=
    step_invariant small enabled rowsFit invariant sized taken
  have initial := start_invariant rows dialect file limit
  refine ⟨fun events final meets result => ?_, _, fun events final meets result =>
    run_length_le preserved (fun state event next invariant sized taken =>
      step_potential small enabled rowsFit invariant sized taken) initial meets result⟩
  have invariant := run_invariant preserved initial meets result
  exact ⟨received_front invariant, done_cutBetween invariant, progress invariant⟩

/-- Without sub-chunking a row that is longer than the buffer of the client ends the load. -/
theorem not_transfers_zero : ¬ Transfers 0 := by
  intro transfers
  obtain ⟨always, -⟩ := transfers [[97, 10]] Dialect.default_
    ⟨[], 0, 0, true, fun _ => none, by decide⟩ (by decide)
  obtain ⟨-, -, moves⟩ := always [.ask 1, .write, .write, .write, .receive] _ (by decide) rfl
  obtain ⟨event, -, enabled⟩ := moves (by decide)
  cases event <;> cases enabled

/--
Fast sub-chunking hands the rows over exactly for the maximum transaction sizes that are
neither zero nor too large for `trx_bytes_left`.
-/
theorem transfers_iff (limit : UInt64) : Transfers limit ↔ limit ≠ 0 ∧ limit.toNat < 2 ^ 63 := by
  refine ⟨fun transfers => ⟨?_, ?_⟩, fun both => transfers_of_limit both.1 both.2⟩
  · rintro rfl
    exact not_transfers_zero transfers
  · by_contra large
    let file : SourceFile := ⟨[], 0, 0, true, fun _ => none, by decide⟩
    obtain ⟨-, bound, bounded⟩ := transfers [] Dialect.default_ file fun _ member => nomatch member
    have blocked := start_blocked [] Dialect.default_ file (Nat.le_of_not_lt large)
    obtain ⟨meets, final, result⟩ := blocked.run_asks (bound + 1)
    have := bounded _ final meets result
    rw [length_replicate] at this
    omega

/-- With a maximum of `2 ^ 63` bytes the statements never receive anything. -/
theorem transfers_nothing :
    ¬ ∃ (dialect : Dialect) (file : SourceFile) (events : List TransferEvent) (final : Transfer),
      run step (start [[97, 10]] dialect file 9223372036854775808) events = some final ∧
        (final.reader = .done ∨ final.transactions.flatten ++ final.current ≠ []) := by
  rintro ⟨dialect, file, events, final, result, received⟩
  have blocked :=
    run_preserves _ Blocked.step (start_blocked [[97, 10]] dialect file (by simp)) result
  rcases received with done | some_
  · rw [blocked.reader_eq] at done
    cases done
  · rw [blocked.current_eq, append_nil] at some_
    exact some_ (flatten_eq_nil_iff.mpr blocked.transactions_eq)

end Transfer

end MariadbShell.ImportTable
