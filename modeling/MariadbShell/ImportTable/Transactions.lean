import MariadbShell.ImportTable.SubChunking

/-!
# The transactions of a file in the default dialect

The driver loop over a whole file, and the requests it consists of. The length to send is
narrowed to 32 bits, so a statement gets nothing where the last row end that is buffered for it
is a multiple of `2 ^ 32`. The file is cut at row boundaries into transactions that respect the
limit exactly if this only happens where a row was sent right before.
-/

namespace MariadbShell.ImportTable

open List TransactionBuffer Lib.MachineInt Lib.Search Dialect ImportTable

namespace SubChunking

/-- The transactions are a split of the file at row ends that respects the limit. -/
structure GoodSplit (limit : Nat) (file : Bytes) (transactions : List Bytes) : Prop where
  flatten_eq : transactions.flatten = file
  endsRow : ∀ transaction ∈ transactions.dropLast, EndsRow transaction
  limited : ∀ transaction ∈ transactions, limit < transaction.length → SingleRow transaction

/-- The sizes with which the client library may ask for data. -/
def ReadSizes (sizes : Nat → UInt32) : Prop :=
  ∀ call, 2 ≤ (sizes call).toNat ∧ (sizes call).toNat < 2 ^ 31

theorem readSizes_const {size : UInt32} (wide : 2 ≤ size.toNat) (short : size.toNat < 2 ^ 31) :
    ReadSizes fun _ => size :=
  fun _ => ⟨wide, short⟩

/-- A load in progress; `sent` is what the current statement has got so far. -/
structure Progress where
  buffer : TransactionBuffer
  call : Nat
  sent : Bytes

/-- A request is answered with data, or with none: then the next statement starts. -/
inductive Progress.Step (sizes : Nat → UInt32) (state : Progress) : Progress → Prop where
  | sends {copied : Bytes} {next : TransactionBuffer} (nonempty : copied ≠ [])
      (answer : localInfileRead state.buffer (sizes state.call) = (some copied, next)) :
      Step sizes state ⟨next, state.call + 1, state.sent ++ copied⟩
  | flushes {next : TransactionBuffer} (more : next.flushDone.1 = true)
      (answer : localInfileRead state.buffer (sizes state.call) = (some [], next)) :
      Step sizes state ⟨next.flushDone.2, state.call + 1, []⟩

/-- The states in which a load makes its requests. -/
abbrev Progress.Reaches (sizes : Nat → UInt32) : Progress → Progress → Prop :=
  Relation.ReflTransGen (Progress.Step sizes)

/-- The next request gets nothing, because a row end is narrowed to `0`. -/
def Progress.Stalls (sizes : Nat → UInt32) (state : Progress) : Prop :=
  ∃ next, localInfileRead state.buffer (sizes state.call) = (some [], next) ∧ Narrowed next

/-- The load stalls only where the current statement has sent a row. -/
def Progress.Smooth (sizes : Nat → UInt32) (start : Progress) : Prop :=
  ∀ state, start.Reaches sizes state → state.Stalls sizes → EndsRow state.sent

variable {buffer more next : TransactionBuffer} {sizes : Nat → UInt32}
  {limit length : Nat} {pass : TransactionBuffer.Pass} {state : Progress} {sent : Bytes}

/-- A finished transaction respects the limit, and ends a row in all cases but two. -/
theorem finished_transaction (core : Core buffer sent) (phase : Phase buffer sent)
    (finished : Finished buffer) :
    FitsOrSingleRow buffer.maxTrxSize.toNat sent ∧
      (EndsRow sent ∨ (buffer.eof = true ∧ buffer.data = []) ∨ Narrowed buffer) := by
  have closed : Closing buffer sent → buffer.trxEndOffset = buffer.trxSize →
      FitsOrSingleRow buffer.maxTrxSize.toNat sent ∧
        (EndsRow sent ∨ (buffer.eof = true ∧ buffer.data = [])) := by
    intro closing atSize
    have whole : sent ++ remaining buffer = sent := by
      rw [remaining, atSize, Nat.sub_self, take_zero, append_nil]
    have ends := closing.ends
    have limited := closing.limited
    rw [whole] at ends limited
    refine ⟨limited, ends.imp_right fun ended => ⟨ended.1, ?_⟩⟩
    exact eq_nil_of_length_eq_zero (by omega)
  have opened (noEnd : buffer.trxEndOffset = 0) :
      FitsOrSingleRow buffer.maxTrxSize.toNat sent := by
    cases phase with
    | partialRow _ _ one => exact .inr fun member => one (mem_of_mem_dropLast member)
    | closing closing => exact absurd noEnd (Nat.ne_of_gt closing.known)
    | boundary _ whole rows =>
      exact .inl (Nat.le_of_lt (room_of_whole core noEnd (.boundary noEnd whole rows) whole))
    | knownRow _ _ offset here room => exact .inl (by omega)
  rcases finished with pending | ⟨ended, noData⟩ | narrowed
  · simp only [flushPending, decide_eq_true_eq] at pending
    cases phase with
    | closing closing =>
      exact (closed closing (Nat.le_antisymm pending.2.2 closing.ordered)).imp_right
        (·.imp_right .inl)
    | boundary noEnd _ _ | partialRow noEnd _ _ | knownRow noEnd _ _ _ _ => omega
  · refine ⟨?_, .inr (.inl ⟨ended, noData⟩)⟩
    cases phase with
    | closing closing =>
      have buffered := closing.buffered
      have ordered := closing.ordered
      rw [noData, length_nil] at buffered
      exact (closed closing (by omega)).1
    | boundary noEnd _ _ | partialRow noEnd _ _ | knownRow noEnd _ _ _ _ =>
      exact opened noEnd
  · exact ⟨opened narrowed.noEnd, .inr (.inr narrowed)⟩

/-- One transaction: the driver reads on until the transaction has ended. -/
theorem loadTransaction_spec (sizesOk : ReadSizes sizes) (core : Core buffer sent)
    (phase : Phase buffer sent) (call : Nat) :
    ∃ transaction next nextCall,
      (∀ fuel, buffer.unsent.length < fuel →
        loadTransaction sizes fuel buffer call = some (transaction, next, nextCall)) ∧
      Core next (sent ++ transaction) ∧ transaction ++ next.unsent = buffer.unsent ∧
      next.maxTrxSize = buffer.maxTrxSize ∧
      FitsOrSingleRow buffer.maxTrxSize.toNat (sent ++ transaction) ∧
      (EndsRow (sent ++ transaction) ∨ (next.eof = true ∧ next.data = []) ∨ Narrowed next) := by
  induction size : buffer.unsent.length using Nat.strong_induction_on
    generalizing buffer sent call with
  | _ bound ih =>
    obtain ⟨copied, next, answer, spec⟩ :=
      localInfileRead_spec core phase (sizesOk call).1 (sizesOk call).2
    cases copied with
    | nil =>
      obtain ⟨limited, ends⟩ := finished_transaction spec.core spec.phase (spec.finished rfl)
      rw [spec.limit_eq] at limited
      refine ⟨[], next, call + 1, ?_, spec.core, spec.unsent_eq, spec.limit_eq, limited, ends⟩
      rintro (- | fuel) enough
      · cases enough
      simp only [loadTransaction, answer]
    | cons first others =>
      have shorter : next.unsent.length < bound := by
        have moved := congrArg List.length spec.unsent_eq
        rw [length_append, length_cons, size] at moved
        omega
      obtain ⟨transaction, final, finalCall, runs, coreFinal, unsentFinal, limitFinal, limited,
        ends⟩ := ih next.unsent.length shorter spec.core spec.phase (call + 1) rfl
      rw [spec.limit_eq] at limitFinal limited
      rw [append_assoc] at coreFinal limited ends
      refine ⟨first :: others ++ transaction, final, finalCall, ?_, coreFinal, ?_, limitFinal,
        limited, ends⟩
      · rintro (- | fuel) enough
        · cases enough
        simp only [loadTransaction, answer, runs fuel (by omega)]
      · rw [append_assoc, unsentFinal]
        exact spec.unsent_eq

/-- A new transaction starts at a row boundary. -/
theorem flushDone_spec (core : Core buffer sent) :
    Core buffer.flushDone.2 [] ∧ Phase buffer.flushDone.2 [] := by
  have bounded := core.bounded
  refine ⟨⟨core.dialect_eq, core.enabled, core.healthy, rfl, core.atEnd, ?_⟩,
    .boundary rfl rfl (.inl rfl)⟩
  change [].length + buffer.unsent.length < _
  rw [length_nil]
  omega

/-- A file without more data was sent completely. -/
theorem Core.unsent_of_finished (core : Core buffer sent) (finished : buffer.flushDone.1 = false) :
    buffer.unsent = [] := by
  have enabled := core.enabled
  simp only [flushDone, decide_eq_false_iff_not, enabled, ne_eq,
    not_false_eq_true, true_and, not_or, not_not] at finished
  rw [unsent, finished.2, core.atEnd finished.1, nil_append]

theorem not_atEnd_of_more (more : buffer.flushDone.1 = true) :
    ¬ (buffer.eof = true ∧ buffer.data = []) := by
  intro ended
  simp only [flushDone, decide_eq_true_eq, ended.1, not_true_eq_false, ended.2,
    ne_eq, or_self, and_false] at more

theorem GoodSplit.cons {file : Bytes} {transaction : Bytes} {transactions : List Bytes}
    (good : GoodSplit limit file transactions) (nonempty : transactions ≠ [])
    (ends : EndsRow transaction) (limited : FitsOrSingleRow limit transaction) :
    GoodSplit limit (transaction ++ file) (transaction :: transactions) := by
  refine ⟨?_, ?_, ?_⟩
  · rw [flatten_cons, good.flatten_eq]
  · rw [dropLast_cons_of_ne_nil nonempty]
    intro other member
    rcases mem_cons.mp member with same | later
    · rw [same]
      exact ends
    · exact good.endsRow other later
  · intro other member long
    rcases mem_cons.mp member with same | later
    · rw [same] at long ⊢
      exact limited.resolve_left (Nat.not_le.mpr long)
    · exact good.limited other later long

/-- The last request of a statement is the one that is answered with no data. -/
theorem loadTransaction_reaches {fuel call nextCall : Nat} {transaction : Bytes}
    (result : loadTransaction sizes fuel buffer call = some (transaction, next, nextCall))
    (sent : Bytes) :
    ∃ state, Progress.Reaches sizes ⟨buffer, call, sent⟩ state ∧ state.sent = sent ++ transaction ∧
      state.call + 1 = nextCall ∧
      localInfileRead state.buffer (sizes state.call) = (some [], next) := by
  refine loadTransaction_induction (motive := fun buffer call transaction => ∀ sent, ∃ state,
    Progress.Reaches sizes ⟨buffer, call, sent⟩ state ∧ state.sent = sent ++ transaction ∧
      state.call + 1 = nextCall ∧
      localInfileRead state.buffer (sizes state.call) = (some [], next))
    (fun {buffer call} same answer sent => ?_)
    (fun {buffer after call copied rest} nonempty answer later sent => ?_) result sent
  · exact ⟨⟨buffer, call, sent⟩, .refl, (append_nil sent).symm, same, answer⟩
  · obtain ⟨state, reaches, sent_eq, same, answered⟩ := later (sent ++ copied)
    exact ⟨state, .head (.sends nonempty answer) reaches, sent_eq.trans (append_assoc ..), same,
      answered⟩

/-- The driver cuts the unsent bytes into a good split, however much fuel it is given. -/
theorem loadTransactions_spec (sizesOk : ReadSizes sizes) (core : Core buffer [])
    (phase : Phase buffer []) {call : Nat} (smooth : Progress.Smooth sizes ⟨buffer, call, []⟩) :
    ∃ transactions, transactions ≠ [] ∧
      (∀ fuel, buffer.unsent.length + 1 < fuel →
        loadTransactions sizes fuel buffer call = some transactions) ∧
      GoodSplit buffer.maxTrxSize.toNat buffer.unsent transactions := by
  induction size : buffer.unsent.length using Nat.strong_induction_on
    generalizing buffer call with
  | _ bound ih =>
    obtain ⟨transaction, next, nextCall, runs, coreNext, unsentNext, limitNext, limited, ends⟩ :=
      loadTransaction_spec sizesOk core phase call
    obtain ⟨state, reaches, sent_eq, rfl, answer⟩ :=
      loadTransaction_reaches (runs _ (Nat.lt_succ_self _)) []
    rw [size] at runs
    cases more : next.flushDone.1 with
    | false =>
      have allSent := coreNext.unsent_of_finished more
      rw [allSent, append_nil] at unsentNext
      refine ⟨[transaction], cons_ne_nil _ _, ?_, ?_, ?_, ?_⟩
      · rintro (- | fuel) enough
        · cases enough
        simp only [loadTransactions, runs fuel (by omega), more]
        rfl
      · rw [← unsentNext, flatten_singleton]
      · intro other member
        cases member
      · intro other member long
        rw [mem_singleton.mp member] at long ⊢
        exact limited.resolve_left (Nat.not_le.mpr long)
    | true =>
      have endsRow : EndsRow transaction := by
        rcases ends with endsRow | ended | narrowed
        · exact endsRow
        · exact absurd ended (not_atEnd_of_more more)
        · have endsRow := smooth state reaches ⟨next, answer, narrowed⟩
          rwa [sent_eq] at endsRow
      have shorter : next.flushDone.2.unsent.length < bound := by
        have nonempty : transaction ≠ [] := by
          intro empty
          rw [empty] at endsRow
          cases endsRow
        have moved := congrArg List.length unsentNext
        have longer := length_pos_of_ne_nil nonempty
        rw [length_append, size] at moved
        change next.unsent.length < bound
        omega
      obtain ⟨coreFlushed, phaseFlushed⟩ := flushDone_spec coreNext
      obtain ⟨transactions, nonempty, rest, good⟩ :=
        ih next.flushDone.2.unsent.length shorter coreFlushed phaseFlushed
          (fun later further => smooth later (reaches.trans (.head (.flushes more answer) further)))
          rfl
      refine ⟨transaction :: transactions, cons_ne_nil _ _, ?_, ?_⟩
      · rintro (- | fuel) enough
        · cases enough
        simp only [loadTransactions, runs fuel (by omega), more, if_true, rest fuel (by omega)]
      · change GoodSplit next.maxTrxSize.toNat next.unsent transactions at good
        rw [limitNext] at good
        rw [← unsentNext]
        exact good.cons nonempty endsRow limited

/-! ## The requests of a load -/

/-- What holds whenever a load makes a request. -/
structure Progress.Valid (state : Progress) : Prop where
  core : Core state.buffer state.sent
  phase : Phase state.buffer state.sent

theorem Progress.Valid.step {later : Progress} (sizesOk : ReadSizes sizes) (valid : state.Valid)
    (step : state.Step sizes later) :
    later.Valid ∧ later.buffer.maxTrxSize = state.buffer.maxTrxSize ∧
      later.buffer.unsent <:+ state.buffer.unsent := by
  obtain ⟨copied, next, answer, spec⟩ := localInfileRead_spec valid.core valid.phase
    (sizesOk state.call).1 (sizesOk state.call).2
  cases step with
  | sends _ same =>
    cases answer.symm.trans same
    exact ⟨⟨spec.core, spec.phase⟩, spec.limit_eq, copied, spec.unsent_eq⟩
  | flushes _ same =>
    cases answer.symm.trans same
    obtain ⟨core, phase⟩ := flushDone_spec spec.core
    exact ⟨⟨core, phase⟩, spec.limit_eq, [], spec.unsent_eq⟩

theorem Progress.Valid.reaches {later : Progress} (sizesOk : ReadSizes sizes) (valid : state.Valid)
    (reaches : state.Reaches sizes later) :
    later.Valid ∧ later.buffer.maxTrxSize = state.buffer.maxTrxSize ∧
      later.buffer.unsent <:+ state.buffer.unsent := by
  induction reaches with
  | refl => exact ⟨valid, rfl, suffix_refl _⟩
  | tail _ step ih =>
    obtain ⟨valid, sameLimit, last⟩ := ih
    obtain ⟨validNext, sameNext, lastNext⟩ := valid.step sizesOk step
    exact ⟨validNext, sameNext.trans sameLimit, lastNext.trans last⟩

/-- With a limit of at most `2 ^ 32` bytes, and for less data, nothing is narrowed to `0`. -/
theorem Progress.Valid.smooth (sizesOk : ReadSizes sizes) (valid : state.Valid)
    (small : state.buffer.maxTrxSize.toNat ≤ 2 ^ 32 ∨ state.buffer.unsent.length < 2 ^ 32) :
    state.Smooth sizes := by
  rintro later reaches ⟨next, answer, narrowed⟩
  obtain ⟨validLater, sameLimit, last⟩ := valid.reaches sizesOk reaches
  obtain ⟨copied, after, answer', spec⟩ := localInfileRead_spec validLater.core validLater.phase
    (sizesOk later.call).1 (sizesOk later.call).2
  cases answer.symm.trans answer'
  have found := narrowed.found
  have wraps := narrowed.wraps
  have room := spec.core.room_of_fits narrowed.fits
  rw [append_nil, spec.limit_eq, sameLimit] at room
  have inside : next.lastRowInTransaction ≤ next.data.length :=
    findLast_le_length (by rw [spec.core.dialect_eq]; decide)
  have total := last.length_le
  rw [← spec.unsent_eq, nil_append, unsent, length_append] at total
  omega

/-- The current statement and those after it are the last ones of a whole load. -/
def Progress.Belongs (sizes : Nat → UInt32) (transactions : List Bytes) (state : Progress) :
    Prop :=
  ∃ fuel rest final nextCall others,
    loadTransaction sizes fuel state.buffer state.call = some (rest, final, nextCall) ∧
    (state.sent ++ rest) :: others <:+ transactions ∧
    (final.flushDone.1 = true →
      ∃ fuel, loadTransactions sizes fuel final.flushDone.2 nextCall = some others)

theorem loadTransactions_belongs {fuel call : Nat} {later transactions : List Bytes}
    (result : loadTransactions sizes fuel buffer call = some later)
    (last : later <:+ transactions) : Progress.Belongs sizes transactions ⟨buffer, call, []⟩ := by
  cases fuel with
  | zero => cases result
  | succ fuel =>
    unfold loadTransactions at result
    split at result
    · cases result
    · next transaction final nextCall run =>
      split at result
      · split at result
        · cases result
        · next others rest =>
          cases result
          exact ⟨fuel, transaction, final, nextCall, others, run, last, fun _ => ⟨fuel, rest⟩⟩
      · next ended =>
        cases result
        exact ⟨fuel, transaction, final, nextCall, [], run, last, fun more => absurd more ended⟩

theorem Progress.Belongs.step {later : Progress} {transactions : List Bytes}
    (belongs : state.Belongs sizes transactions) (step : state.Step sizes later) :
    later.Belongs sizes transactions := by
  obtain ⟨fuel, rest, final, nextCall, others, run, last, further⟩ := belongs
  cases fuel with
  | zero => cases run
  | succ fuel =>
    unfold loadTransaction at run
    cases step with
    | @sends copied after nonempty answer =>
      rw [answer] at run
      obtain ⟨first, rest', rfl⟩ := exists_cons_of_ne_nil nonempty
      simp only at run
      split at run
      · cases run
      · next later =>
        cases run
        rw [← append_assoc] at last
        exact ⟨fuel, _, final, nextCall, others, later, last, further⟩
    | flushes more answer =>
      rw [answer] at run
      cases run
      obtain ⟨fuel, result⟩ := further more
      exact loadTransactions_belongs result ((suffix_cons _ _).trans last)

theorem Progress.Belongs.reaches {later : Progress} {transactions : List Bytes}
    (belongs : state.Belongs sizes transactions) (reaches : state.Reaches sizes later) :
    later.Belongs sizes transactions := by
  induction reaches with
  | refl => exact belongs
  | tail _ step ih => exact ih.step step

/-- A row of the letter `a`. -/
def longRow (letters : Nat) : Bytes :=
  List.replicate letters 97 ++ [Byte.newline]

theorem length_longRow (letters : Nat) : (longRow letters).length = letters + 1 := by
  rw [longRow, length_append, length_replicate, length_singleton]

theorem longRow_newline {letters offset : Nat} :
    (longRow letters)[offset]? = some Byte.newline ↔ offset = letters := by
  unfold longRow
  rcases Nat.lt_trichotomy offset letters with below | same | above
  · rw [getElem?_append_left (by rwa [length_replicate]), getElem?_replicate_of_lt below]
    exact ⟨fun impossible => absurd impossible (by decide), fun equal => by omega⟩
  · rw [same, getElem?_append_right (by rw [length_replicate]), length_replicate, Nat.sub_self]
    simp
  · rw [getElem?_eq_none (by
      rw [length_append, length_replicate, length_singleton]
      omega)]
    simp only [reduceCtorEq, false_iff]
    omega

theorem newline_of_prefix {letters offset : Nat} {data rest : Bytes}
    (split : data ++ rest = longRow letters) (here : data[offset]? = some Byte.newline) :
    offset = letters := by
  have inside := (List.getElem?_eq_some_iff.mp here).1
  rwa [← longRow_newline, ← split, getElem?_append_left inside]

/-- Only whole rows were sent, and the limit is beyond the end of the file. -/
structure Roomy (buffer : TransactionBuffer) (sent : Bytes) : Prop where
  core : Core buffer sent
  noEnd : buffer.trxEndOffset = 0
  whole : buffer.partialRowSent = false
  room : sent.length + buffer.unsent.length < buffer.maxTrxSize.toNat
  signed : buffer.maxTrxSize.toNat < 2 ^ 63

theorem Roomy.fits (roomy : Roomy buffer sent) :
    (buffer.data.length : Int) < buffer.trxBytesLeft := by
  have room := roomy.room
  have signed := roomy.signed
  rw [unsent, length_append] at room
  rw [trxBytesLeft, roomy.core.size_eq, toInt64_of_range (by omega) (by omega)]
  omega

theorem Roomy.readMore (roomy : Roomy buffer sent) (positive : 0 < length) :
    ∃ more, buffer.readMore length = (some (), more) ∧ Roomy more sent ∧
      more.unsent = buffer.unsent ∧
      (more.file.rest = [] ∨ more.file.rest.length < buffer.file.rest.length) := by
  obtain ⟨core, noEnd, whole, room, signed⟩ := roomy
  obtain ⟨more, result, healthy⟩ := readMore_healthy core.healthy length
  obtain ⟨file, eof, copied, rfl, -, -, split, atEnd, ended⟩ :=
    readMore_some core.atEnd positive result
  have sameUnsent : buffer.data ++ copied ++ file.rest = buffer.unsent := by
    rw [unsent, split, append_assoc]
  have bounded := core.bounded
  rw [← sameUnsent] at bounded room
  refine ⟨_, result, ⟨{ core with healthy, atEnd, bounded }, noEnd, whole, room, signed⟩,
    sameUnsent, ?_⟩
  rcases eq_nil_or_concat copied with empty | ⟨front, last, nonempty⟩
  · exact .inl (atEnd (ended empty))
  · refine .inr ?_
    rw [split, nonempty, length_append, length_concat]
    change file.rest.length < _
    omega

/--
The end of the long row is known once all of it is buffered, but it is `0` as a 32-bit integer.
-/
theorem Roomy.pass_longRow (roomy : Roomy more sent)
    (unsent_eq : more.unsent = longRow (2 ^ 32 - 1)) (wide : 2 ≤ length) (short : length < 2 ^ 31)
    (outcome : TransactionBuffer.Outcome more length pass) :
    (pass = .done (some []) more ∧ more.file.rest = []) ∨
      more.file.rest ≠ [] ∧ (more.trxSize = 0 ∨ pass = .retry more) := by
  have core := roomy.core
  have fits := roomy.fits
  have room := roomy.room
  have continues (unknown : more.lastRowInTransaction = 0) : more.file.rest ≠ [] := by
    intro ended
    refine core.newline_notMem_data fits unknown (2 ^ 32 - 1) ?_
    rw [unsent, ended, append_nil] at unsent_eq
    rw [unsent_eq, longRow_newline]
  cases outcome with
  | boundary full | flush full | rowEnd full | oversized full => omega
  | wholeRows _ found =>
    rw [core.dialect_eq] at found
    obtain ⟨below, here⟩ := findLast_default_pos (by omega) (by omega) found
    have last := newline_of_prefix unsent_eq here
    omega
  | knownRow _ _ found =>
    obtain ⟨inside, -, here⟩ := core.lastRowInTransaction_pos (by omega) found
    have last := newline_of_prefix unsent_eq here
    have nothing : min length (toUInt32 (more.lastRowInTransaction : Int)) = 0 := by
      rw [show more.lastRowInTransaction = 2 ^ 32 by omega]
      exact Nat.min_zero _
    have total := congrArg List.length unsent_eq
    rw [unsent, length_append, length_longRow] at total
    refine .inl ⟨?_, eq_nil_of_length_eq_zero (by omega)⟩
    rw [sending, nothing, consume_open roomy.noEnd]
    simp only [take_zero, drop_zero, length_nil, Nat.add_zero]
  | partialRow _ _ unknown started =>
    rcases started with empty | started
    · exact .inr ⟨continues unknown, .inl empty⟩
    · exact absurd (roomy.whole.symm.trans started) Bool.false_ne_true
  | lastRow _ _ unknown _ _ ended => exact absurd (core.atEnd ended) (continues unknown)
  | retry _ _ unknown => exact .inr ⟨continues unknown, .inr rfl⟩

/-- All of the long row is buffered, and nothing of it was sent. -/
structure Stuck (buffer : TransactionBuffer) : Prop where
  roomy : Roomy buffer []
  unsent_eq : buffer.unsent = longRow (2 ^ 32 - 1)
  rest_eq : buffer.file.rest = []

/-- A read returns nothing from a stuck buffer, which stays stuck. -/
theorem Stuck.localInfileRead (stuck : Stuck buffer) {length : UInt32} (wide : 2 ≤ length.toNat)
    (short : length.toNat < 2 ^ 31) :
    ∃ next, localInfileRead buffer length = (some [], next) ∧ Stuck next := by
  obtain ⟨roomy, unsent_eq, rest_eq⟩ := stuck
  obtain ⟨more, result, roomyMore, sameUnsent, progress⟩ :=
    roomy.readMore (show 0 < length.toNat by omega)
  have nothingLeft : more.file.rest = [] :=
    progress.resolve_right (by rw [rest_eq]; exact Nat.not_lt_zero _)
  have outcome := readPass_outcome roomy.noEnd roomyMore.noEnd result
  rcases roomyMore.pass_longRow (sameUnsent.trans unsent_eq) wide short outcome with
    ⟨pass, -⟩ | ⟨continues, -⟩
  · exact ⟨more, localInfileRead_of_pass roomy.core.enabled roomy.noEnd pass (by decide),
      roomyMore, sameUnsent.trans unsent_eq, nothingLeft⟩
  · exact absurd nothingLeft continues

/-- When the long row is buffered, the next transaction is stuck. -/
theorem Roomy.flushDone_stuck (roomy : Roomy buffer sent)
    (unsent_eq : buffer.unsent = longRow (2 ^ 32 - 1)) (rest_eq : buffer.file.rest = []) :
    buffer.flushDone.1 = true ∧ Stuck buffer.flushDone.2 := by
  have room := roomy.room
  have nonempty : buffer.data ≠ [] := by
    intro empty
    have size := congrArg List.length unsent_eq
    rw [unsent, empty, rest_eq, length_longRow] at size
    cases size
  refine ⟨by simp [flushDone, roomy.core.enabled, nonempty],
    ⟨(flushDone_spec roomy.core).1, rfl, rfl, ?_, roomy.signed⟩, unsent_eq, rest_eq⟩
  change 0 + buffer.unsent.length < buffer.maxTrxSize.toNat
  omega

/-- A statement of a stuck buffer gets no data, and the next one is stuck again. -/
theorem Stuck.loadTransaction (stuck : Stuck buffer) (sizesOk : ReadSizes sizes) (call : Nat) :
    ∃ next, (∀ fuel, loadTransaction sizes (fuel + 1) buffer call = some ([], next, call + 1)) ∧
      next.flushDone.1 = true ∧ Stuck next.flushDone.2 := by
  obtain ⟨next, answer, roomy, unsent_eq, rest_eq⟩ :=
    stuck.localInfileRead (sizesOk call).1 (sizesOk call).2
  refine ⟨next, fun fuel => ?_, roomy.flushDone_stuck unsent_eq rest_eq⟩
  simp only [ImportTable.loadTransaction, answer]

/-- The driver never leaves a stuck buffer. -/
theorem Stuck.loadTransactions (stuck : Stuck buffer) (sizesOk : ReadSizes sizes)
    (fuel call : Nat) : loadTransactions sizes fuel buffer call = none := by
  induction fuel generalizing buffer call with
  | zero => rfl
  | succ fuel ih =>
    cases fuel with
    | zero => rfl
    | succ fuel =>
      obtain ⟨next, transaction, more, again⟩ := stuck.loadTransaction sizesOk call
      unfold loadTransactions
      simp only [transaction, more, if_true, ih again (call + 1)]

/-- An empty row in front of the long row is sent, and only that row. -/
theorem Roomy.firstRow (roomy : Roomy buffer [])
    (unsent_eq : buffer.unsent = Byte.newline :: longRow (2 ^ 32 - 1)) {length : UInt32}
    (wide : 2 ≤ length.toNat) (short : length.toNat < 2 ^ 31) :
    ∃ next, localInfileRead buffer length = (some [Byte.newline], next) ∧
      Roomy next [Byte.newline] ∧ next.unsent = longRow (2 ^ 32 - 1) := by
  obtain ⟨more, result, roomyMore, sameUnsent, progress⟩ :=
    roomy.readMore (show 0 < length.toNat by omega)
  have core := roomyMore.core
  obtain ⟨tail, buffered⟩ : ∃ tail, more.data = Byte.newline :: tail := by
    cases data : more.data with
    | nil =>
      have total := congrArg List.length sameUnsent
      rw [unsent, unsent, data, nil_append, length_append] at total
      have ended := progress.resolve_right (by omega)
      rw [unsent, data, ended, unsent_eq] at sameUnsent
      cases sameUnsent
    | cons first tail =>
      rw [unsent, data, unsent_eq, cons_append] at sameUnsent
      exact ⟨tail, by rw [(cons.inj sameUnsent).1]⟩
  have split : tail ++ more.file.rest = longRow (2 ^ 32 - 1) := by
    rw [unsent, buffered, unsent_eq, cons_append] at sameUnsent
    exact (cons.inj sameUnsent).2
  have rowEnd : findLastRowBoundaryBefore more.dialect more.data length.toNat = 1 := by
    rw [core.dialect_eq]
    rcases Nat.eq_zero_or_pos
        (findLastRowBoundaryBefore default_ more.data length.toNat) with zero | found
    · refine absurd ?_ (findLast_default_eq_zero wide (by omega) zero 0 (by omega))
      rw [buffered, getElem?_cons_zero]
    · obtain ⟨below, here⟩ := findLast_default_pos (by omega) (by omega) found
      by_contra other
      rw [buffered, getElem?_cons, if_neg (by rw [← buffered]; omega)] at here
      have last := newline_of_prefix split here
      rw [← buffered] at last
      omega
  have fits := roomyMore.fits
  have outcome := readPass_outcome roomy.noEnd roomyMore.noEnd result
  have pass := outcome.eq_wholeRows fits (by omega)
  have noEnd : { more with partialRowSent := false, oversizedRowCounted := false }.trxEndOffset =
      0 := roomyMore.noEnd
  rw [rowEnd, toUInt32_natCast (by omega), sending, consume_open noEnd] at pass
  simp only [buffered, take_succ_cons, take_zero, drop_succ_cons, drop_zero, length_singleton,
    core.size_eq, length_nil, Nat.zero_add] at pass
  refine ⟨_, localInfileRead_of_pass roomy.core.enabled roomy.noEnd pass (by decide),
    ⟨⟨core.dialect_eq, core.enabled, core.healthy, rfl, core.atEnd, ?_⟩, roomyMore.noEnd, rfl, ?_,
      roomyMore.signed⟩, split⟩
  · have bounded := core.bounded
    rw [unsent, buffered, cons_append, length_cons] at bounded
    change 1 + (tail ++ more.file.rest).length < _
    omega
  · have room := roomyMore.room
    rw [unsent, buffered, cons_append, length_cons] at room
    change 1 + (tail ++ more.file.rest).length < more.maxTrxSize.toNat
    omega

/-- The first request for a file that is to be split. -/
def Progress.start (limit : UInt64) (file : SourceFile) : Progress :=
  ⟨create default_ file limit 0, 0, []⟩

/-- A new buffer for a file satisfies the invariant of the read passes. -/
theorem create_spec {limit : UInt64} (positive : limit ≠ 0) {file : SourceFile}
    (healthy : file.Healthy) :
    Core (create default_ file limit 0) [] ∧ Phase (create default_ file limit 0) [] := by
  have enabled : (create default_ file limit 0).maxTrxSize = limit := rfl
  have unsent : (create default_ file limit 0).unsent = file.rest := rfl
  have fits : file.rest.length < 2 ^ 63 := by
    rw [SourceFile.rest, length_drop]
    exact Nat.lt_of_le_of_lt (Nat.sub_le _ _) file.fits
  refine ⟨⟨rfl, by rwa [enabled], healthy, rfl, ?_, ?_⟩, .boundary rfl rfl (.inl rfl)⟩
  · exact fun ended => absurd ended Bool.false_ne_true
  · rw [unsent, length_nil, Nat.zero_add]
    exact fits

/-- With a limit of at most `2 ^ 32` bytes, and for a smaller file, a load never stalls. -/
theorem smooth_of_small {limit : UInt64} (positive : limit ≠ 0) {file : SourceFile}
    (healthy : file.Healthy) (sizesOk : ReadSizes sizes)
    (small : limit.toNat ≤ 2 ^ 32 ∨ file.rest.length < 2 ^ 32) :
    (Progress.start limit file).Smooth sizes := by
  obtain ⟨core, phase⟩ := create_spec positive healthy
  exact @Progress.Valid.smooth sizes (.start limit file) sizesOk ⟨core, phase⟩ small

def rows : Bytes → List Bytes
  | [] => []
  | byte :: rest =>
    if byte = Byte.newline then [byte] :: rows rest
    else
      match rows rest with
      | [] => [[byte]]
      | row :: others => (byte :: row) :: others

theorem rows_ne_nil {bytes : Bytes} (nonempty : bytes ≠ []) : rows bytes ≠ [] := by
  cases bytes with
  | nil => exact absurd rfl nonempty
  | cons byte rest =>
    unfold rows
    split
    · exact cons_ne_nil _ _
    · split <;> exact cons_ne_nil _ _

theorem flatten_rows (bytes : Bytes) : (rows bytes).flatten = bytes := by
  induction bytes with
  | nil => rfl
  | cons byte rest ih =>
    unfold rows
    split
    · rw [flatten_cons, ih]
      rfl
    · cases others : rows rest with
      | nil =>
        rw [others] at ih
        rw [← ih]
        rfl
      | cons row others =>
        rw [← ih, others]
        rfl

/-- A row end separates rows. -/
theorem rows_append {front : Bytes} (ends : EndsRow front) (rest : Bytes) :
    rows (front ++ rest) = rows front ++ rows rest := by
  induction front with
  | nil => cases ends
  | cons byte front ih =>
    cases front with
    | nil =>
      have terminator : byte = Byte.newline := Option.some.inj ends
      simp only [cons_append, nil_append, rows, terminator, if_true]
    | cons second front =>
      have split := ih ends
      rw [cons_append, rows, split]
      conv => rhs; rw [rows]
      by_cases terminator : byte = Byte.newline
      · simp only [terminator, if_true, cons_append]
      · simp only [terminator, if_false]
        cases others : rows (second :: front) with
        | nil => exact absurd others (rows_ne_nil (cons_ne_nil _ _))
        | cons row others => rfl

theorem rows_singleRow {bytes : Bytes} (nonempty : bytes ≠ []) (one : SingleRow bytes) :
    rows bytes = [bytes] := by
  induction bytes with
  | nil => exact absurd rfl nonempty
  | cons byte rest ih =>
    cases rest with
    | nil =>
      simp only [rows]
      split <;> rfl
    | cons second rest =>
      rw [SingleRow, dropLast_cons_cons, mem_cons, not_or] at one
      rw [rows, ih (cons_ne_nil _ _) one.2, if_neg (Ne.symm one.1)]

/-- The rows of a file are the rows of its transactions. -/
theorem rows_flatten {transactions : List Bytes}
    (ends : ∀ transaction ∈ transactions.dropLast, EndsRow transaction) :
    rows transactions.flatten = transactions.flatMap rows := by
  induction transactions with
  | nil => rfl
  | cons transaction others ih =>
    cases others with
    | nil => rw [flatten_singleton, flatMap_singleton]
    | cons second others =>
      rw [dropLast_cons_cons, forall_mem_cons] at ends
      rw [flatten_cons, rows_append ends.1, ih ends.2]
      rfl

end SubChunking

end MariadbShell.ImportTable
