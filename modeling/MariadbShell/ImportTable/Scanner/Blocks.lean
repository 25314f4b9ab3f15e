import MariadbShell.ImportTable.Scanner.Loops

/-!
# Scanning a stream in blocks

The scanner finds the rows of a stream wherever the stream is cut into blocks: each
block's result is the first row start in it of the parse of the whole stream.
-/

namespace MariadbShell.ImportTable

open List

namespace Scanner

variable {dialect : Dialect} {limit length : Nat} {reader : Reader} {scanner : Scanner}

/-! ## The rows of a block -/

/-- State of the parse that the members of a scanner stand for. -/
def state (scanner : Scanner) : ParseState :=
  match scanner.skipRows, scanner.status with
  | rows + 1, _ => .skip rows
  | 0, .begin => .begin
  | 0, .linePrefix => .linePrefix
  | 0, .beginOfField => .beginOfField
  | 0, .field => .field scanner.foundEnclosedChar

/-- What a call leaves behind, and which row starts it passes. -/
structure Scanned (dialect : Dialect) (limit length : Nat) (state : ParseState) (unread : Bytes)
    (firstRow result : Option Nat) (scanner : Scanner) : Prop where
  empty : scanner.reader.data = []
  good : Good dialect scanner.state scanner.reader
  fresh : scanner.skipRows ≠ 0 → scanner.status = .begin
  passes : ∃ starts, Passes dialect limit state unread starts scanner.state scanner.reader.unread ∧
    (∀ start ∈ starts, limit - length ≤ start ∧ start < limit) ∧
    result = firstRow.or (starts.head?.map (· - (limit - length)))

/-- What holds of a scanner between two calls, behind `offset` bytes of the stream. -/
structure Resting (dialect : Dialect) (offset : Nat) (scanner : Scanner) : Prop where
  empty : scanner.reader.data = []
  good : Good dialect scanner.state scanner.reader
  fresh : scanner.skipRows ≠ 0 → scanner.status = .begin
  inside : scanner.reader.unread.length ≤ offset

/-- The row starts that the parse finds from such a scanner on. -/
def rowsFrom (scanner : Scanner) (dialect : Dialect) (offset : Nat) (bytes : Bytes) : List Nat :=
  rowStartsFrom dialect scanner.state (offset - scanner.reader.unread.length)
    (scanner.reader.unread ++ bytes)

variable {firstRow result : Option Nat} {offset : Nat}

/-- Tokens without a row start before the call. -/
theorem Scanned.after {first second : ParseState} {unread unread' : Bytes}
    (scanned : Scanned dialect limit length second unread' firstRow result scanner)
    (passes : Passes dialect limit first unread [] second unread') :
    Scanned dialect limit length first unread firstRow result scanner := by
  obtain ⟨empty, good, fresh, starts, passes', bounds, shape⟩ := scanned
  exact ⟨empty, good, fresh, starts, passes.trans passes', bounds, shape⟩

theorem scanRows_idle (length fuel : Nat) (firstRow : Option Nat) (scanner : Scanner)
    (empty : scanner.reader.data = []) :
    scanRows dialect length fuel firstRow scanner = (firstRow, scanner) := by
  cases fuel with
  | zero => rfl
  | succ fuel =>
    unfold scanRows
    rw [if_pos empty]

/-- Nothing is left to scan. -/
theorem Scanned.idle (firstRow : Option Nat) (empty : scanner.reader.data = [])
    (good : Good dialect scanner.state scanner.reader)
    (fresh : scanner.skipRows ≠ 0 → scanner.status = .begin) :
    Scanned dialect limit length scanner.state scanner.reader.unread firstRow firstRow scanner := by
  refine ⟨empty, good, fresh, [], .refl, ?_, ?_⟩
  · intro start impossible
    cases impossible
  · rw [head?_nil, Option.map_none, Option.or_none]

theorem skipLineStart_loopEnd (running : reader.endOfBlock = false) (nonempty : reader.unread ≠ [])
    (good : Good dialect .linePrefix reader) (inside : reader.unread.length ≤ limit) :
    LoopEnd dialect limit .linePrefix false afterPrefix reader.unread
      (skipLineStart dialect reader) := by
  unfold skipLineStart
  by_cases unused : dialect.linesStartingBy = []
  · rw [if_pos unused]
    have empty : reader.stack = [] := by
      rcases good with empty | impossible
      · exact empty
      · rw [unused] at impossible
        exact absurd impossible (Nat.not_lt_zero _)
    obtain ⟨chr, rest, unread⟩ := exists_cons_of_ne_nil nonempty
    have token : next dialect .linePrefix reader.unread = some (.beginOfField, 0) := by
      rw [unread]
      simp only [next, if_pos unused]
    have passes := Passes.silent inside (by simp) token
    rw [drop_zero] at passes
    exact .left (by decide) running (Good.ofStackNil empty) passes
      (Nat.add_lt_add_left (by decide) _)
  · rw [if_neg unused]
    exact whileData_loopEnd (by simp)
      (fun reader running nonempty good =>
        skipLineStartStep_simulates unused running nonempty good)
      _ reader running good inside (Nat.lt_succ_self _)

theorem skipLineStart_data_le (dialect : Dialect) (reader : Reader) :
    (skipLineStart dialect reader).2.data.length ≤ reader.data.length := by
  unfold skipLineStart
  split
  · exact Nat.le_refl _
  · exact whileData_data_le reader (skipLineStartStep_data_le dialect) _

/-- The row that starts at the first byte of the data. -/
theorem Scanned.begin {data : Bytes} (nonempty : data ≠ []) (block : data.length ≤ length)
    (within : length ≤ limit)
    (scanned : Scanned dialect limit length .linePrefix data
      (firstRow.or (some (length - data.length))) result scanner) :
    Scanned dialect limit length .begin data firstRow result scanner := by
  obtain ⟨empty, good, fresh, starts, passes, bounds, shape⟩ := scanned
  have positive := length_pos_of_ne_nil nonempty
  have token : next dialect .begin data = some (.linePrefix, 0) := by
    obtain ⟨chr, rest, rfl⟩ := exists_cons_of_ne_nil nonempty
    rfl
  have first := Passes.token (block.trans within) token
  refine ⟨empty, good, fresh, (limit - data.length) :: starts, first.trans passes, ?_, ?_⟩
  · intro start member
    rcases mem_cons.mp member with here | later
    · omega
    · exact bounds start later
  · have position : limit - data.length - (limit - length) = length - data.length := by omega
    rw [shape, head?_cons, Option.map_some, position]
    cases firstRow <;> rfl

/-- An iteration on bytes that are all on the stack leaves the rest of them there. -/
theorem Simulates.good_drop {α : Type} {state state' : ParseState} {idle : α}
    {target : α → ParseState} {stack : Bytes} {iteration : Iteration α}
    (simulates : Simulates dialect state idle target stack iteration)
    (shorter : iteration.reader.data.length ≤ 0)
    (decided : next dialect state stack = some (state', length)) :
    Good dialect state' ⟨stack.drop length, [], false⟩ := by
  have kept : ∀ {count : Nat} {reader : Reader}, reader.data.length ≤ 0 →
      reader.endOfBlock = false → reader.unread = stack.drop count →
      reader = ⟨stack.drop count, [], false⟩ := by
    rintro count ⟨front, data, endOfBlock⟩ none running rest
    obtain rfl : data = [] := eq_nil_of_length_eq_zero (Nat.le_zero.mp none)
    rw [Reader.unread, append_nil] at rest
    simp only at running rest
    rw [running, rest]
  cases simulates with
  | cut undecided => rw [undecided] at decided; cases decided
  | stay token running rest good | leave token busy running rest good =>
    rw [token] at decided
    cases decided
    rw [← kept shorter running rest]
    exact good

section

variable (suitable : Suitable dialect)

include suitable

theorem skipRow_loopEnd (rows : Nat)
    (running : reader.endOfBlock = false) (good : Good dialect (.skip rows) reader)
    (inside : reader.unread.length ≤ limit) :
    LoopEnd dialect limit (.skip rows) false (afterSkip rows) reader.unread
      (skipRow dialect reader) :=
  whileData_loopEnd (by simp)
    (fun reader running nonempty good =>
      skipRowStep_simulates suitable rows running nonempty good)
    _ reader running good inside (Nat.lt_succ_self _)

/-- The rows are skipped, or the data is used up with some rows still to skip. -/
theorem skipAll_spec (rows : Nat) (reader : Reader)
    (running : reader.endOfBlock = false) (good : Good dialect (.skipping rows) reader)
    (inside : reader.unread.length ≤ limit) :
    (∃ rows' reader', skipAll dialect rows reader = (false, rows', reader') ∧
      rows' ≠ 0 ∧ reader'.data = [] ∧ Good dialect (.skipping rows') reader' ∧
      Passes dialect limit (.skipping rows) reader.unread [] (.skipping rows') reader'.unread) ∨
    (∃ reader', skipAll dialect rows reader = (true, 0, reader') ∧
      reader'.endOfBlock = false ∧ reader'.data.length ≤ reader.data.length ∧
      Good dialect .begin reader' ∧
      Passes dialect limit (.skipping rows) reader.unread [] .begin reader'.unread) := by
  induction rows generalizing reader with
  | zero => exact .inr ⟨reader, rfl, running, Nat.le_refl _, good, .refl⟩
  | succ rows ih =>
    have ending := skipRow_loopEnd suitable rows running good inside
    have shorter : (skipRow dialect reader).2.data.length ≤ reader.data.length :=
      whileData_data_le reader (skipRowStep_data_le dialect) _
    unfold skipAll
    generalize skipRow dialect reader = result at ending shorter
    cases ending with
    | @used reader' empty good' passes =>
      exact .inl ⟨rows + 1, reader', rfl, Nat.succ_ne_zero _, empty, good', passes⟩
    | @left result reader' busy running' good' passes progress =>
      cases result with
      | false => exact absurd rfl busy
      | true =>
        rcases ih reader' running' good' (passes.1.trans inside) with
          ⟨rows', reader'', skipped, some, empty, good'', passes'⟩ |
          ⟨reader'', skipped, running'', shorter', good'', passes'⟩
        · exact .inl ⟨rows', reader'', skipped, some, empty, good'', passes.trans passes'⟩
        · exact .inr ⟨reader'', skipped, running'', shorter'.trans shorter, good'',
            passes.trans passes'⟩

theorem scanField_loopEnd (found : Option UInt8)
    (running : reader.endOfBlock = false) (good : Good dialect (.field found) reader)
    (inside : reader.unread.length ≤ limit) :
    LoopEnd dialect limit (.field found) .continued (afterField found) reader.unread
      (scanField dialect found reader) :=
  whileData_loopEnd (by simp)
    (fun reader running nonempty good =>
      scanFieldStep_simulates suitable running found nonempty good)
    _ reader running good inside (Nat.lt_succ_self _)

/-- The byte that decides whether a field is enclosed. -/
theorem beginOfField_spec (running : reader.endOfBlock = false) (nonempty : reader.unread ≠ [])
    (good : Good dialect .beginOfField reader)
    (inside : reader.unread.length ≤ limit) :
    ∃ chr after, reader.get = (some chr, after) ∧ after.endOfBlock = false ∧
      ((same (some chr) (enclosedChar dialect) = true ∧ Good dialect (.field (some chr)) after ∧
        Passes dialect limit .beginOfField reader.unread [] (.field (some chr)) after.unread) ∨
      (same (some chr) (enclosedChar dialect) = false ∧
        Good dialect (.field none) (after.ungetChr (some chr)) ∧
        Passes dialect limit .beginOfField reader.unread [] (.field none)
          (after.ungetChr (some chr)).unread)) := by
  obtain ⟨chr, rest, unread⟩ := exists_cons_of_ne_nil nonempty
  obtain ⟨after, read, running', rfl, size⟩ := Reader.get_running running unread
  have quiet : Quiet dialect.linesTerminatedBy reader.unread reader.stack.length 0 := good
  have counted := quiet.after_get suitable.lines_ne size
  rw [unread] at counted
  refine ⟨chr, after, read, running', ?_⟩
  by_cases encloses : some chr = enclosedChar dialect
  · have token : next dialect .beginOfField reader.unread = some (.field (some chr), 1) := by
      rw [unread]
      simp only [next, if_pos encloses]
    have passes := Passes.silent inside (by simp) token
    rw [unread] at passes ⊢
    exact .inl ⟨Reader.same_some_iff.mpr encloses, (counted.drop 1).weaken (Nat.zero_le 1), passes⟩
  · have token : next dialect .beginOfField reader.unread = some (.field none, 0) := by
      rw [unread]
      simp only [next, if_neg encloses]
    have passes := Passes.silent inside (by simp) token
    rw [unread] at passes ⊢
    have differs : same (some chr) (enclosedChar dialect) = false :=
      Bool.eq_false_iff.mpr fun equal => encloses (Reader.same_some_iff.mp equal)
    exact .inr ⟨differs, counted, passes⟩

theorem scanRows_spec (length fuel : Nat) (firstRow : Option Nat)
    (scanner : Scanner) (skipped : scanner.skipRows = 0)
    (running : scanner.reader.endOfBlock = false) (good : Good dialect scanner.state scanner.reader)
    (inside : scanner.reader.unread.length ≤ limit) (block : scanner.reader.data.length ≤ length)
    (within : length ≤ limit)
    (enough : 4 * scanner.reader.unread.length + scanner.state.rank < fuel) :
    Scanned dialect limit length scanner.state scanner.reader.unread firstRow
      (scanRows dialect length fuel firstRow scanner).1
      (scanRows dialect length fuel firstRow scanner).2 := by
  induction fuel generalizing firstRow scanner with
  | zero => exact absurd enough (Nat.not_lt_zero _)
  | succ fuel ih =>
    obtain ⟨skipRows, reader, status, found⟩ := scanner
    subst skipped
    by_cases empty : reader.data = []
    · rw [scanRows_idle length _ firstRow _ empty]
      exact Scanned.idle firstRow empty good (absurd rfl)
    · have nonempty : reader.unread ≠ [] := fun none =>
        empty (append_eq_nil_iff.mp none).2
      unfold scanRows
      rw [if_neg empty]
      cases status with
      | begin =>
        have unread : reader.unread = reader.data := by
          have noStack : reader.stack = [] := good
          rw [Reader.unread, noStack, nil_append]
        have later := ih (firstRow.or (some (length - reader.data.length)))
          ⟨0, reader, .linePrefix, found⟩ rfl running (Good.ofStackNil good) inside block
          (Nat.lt_of_lt_of_le (Nat.add_lt_add_left (Nat.lt_succ_self 2) _)
            (Nat.le_of_lt_succ enough))
        simp only [unread] at later ⊢
        exact Scanned.begin empty block within later
      | linePrefix =>
        have ending := skipLineStart_loopEnd running nonempty good inside
        have shorter := skipLineStart_data_le dialect reader
        generalize skipLineStart dialect reader = result at ending shorter
        cases ending with
        | @used reader' empty' good' passes =>
          exact (Scanned.idle firstRow empty' good' (absurd rfl)).after passes
        | @left result reader' busy running' good' passes progress =>
          cases result with
          | false => exact absurd rfl busy
          | true =>
            exact (ih firstRow ⟨0, reader', .beginOfField, found⟩ rfl running' good'
              (passes.1.trans inside) (shorter.trans block)
              (Nat.lt_of_lt_of_le progress (Nat.le_of_lt_succ enough))).after passes
      | beginOfField =>
        obtain ⟨chr, after, read, running', choice⟩ :=
          beginOfField_spec suitable running nonempty good inside
        have shorter := (Reader.get_data_le read).trans block
        simp only [read]
        rcases choice with ⟨encloses, good', passes⟩ | ⟨differs, good', passes⟩
        · have bound := passes.1
          rw [if_pos encloses]
          exact (ih firstRow ⟨0, after, .field, some chr⟩ rfl running' good'
            (bound.trans inside) shorter (by simp only [state, ParseState.rank] at *; omega)).after
            passes
        · have bound := passes.1
          rw [if_neg (Bool.eq_false_iff.mp differs)]
          exact (ih firstRow ⟨0, after.ungetChr (some chr), .field, none⟩ rfl running' good'
            (bound.trans inside) shorter (by simp only [state, ParseState.rank] at *; omega)).after
            passes
      | field =>
        have ending := scanField_loopEnd suitable found running good inside
        have shorter : (scanField dialect found reader).2.data.length ≤ reader.data.length :=
          whileData_data_le reader (fun reader => scanFieldStep_data_le dialect reader found) _
        generalize scanField dialect found reader = result at ending shorter
        cases ending with
        | @used reader' empty' good' passes =>
          simp only [scanRows_idle length fuel firstRow ⟨0, reader', .field, found⟩ empty']
          exact (Scanned.idle firstRow empty' good' (absurd rfl)).after passes
        | @left result reader' busy running' good' passes progress =>
          have enough' := Nat.lt_of_lt_of_le progress (Nat.le_of_lt_succ enough)
          cases result with
          | continued => exact absurd rfl busy
          | endOfField =>
            exact (ih firstRow ⟨0, reader', .beginOfField, found⟩ rfl running' good'
              (passes.1.trans inside) (shorter.trans block) enough').after passes
          | endOfLine =>
            exact (ih firstRow ⟨0, reader', .begin, found⟩ rfl running' good'
              (passes.1.trans inside) (shorter.trans block) enough').after passes

/-- One call on a block. -/
theorem scan_spec (resting : Resting dialect offset scanner) (block : Bytes) :
    Scanned dialect (offset + block.length) block.length scanner.state
      (scanner.reader.unread ++ block) none
      (scan dialect scanner block).1 (scan dialect scanner block).2 := by
  obtain ⟨skipRows, ⟨stack, data, endOfBlock⟩, status, found⟩ := scanner
  obtain ⟨empty, good, fresh, inside⟩ := resting
  subst empty
  have unread : Reader.unread ⟨stack, [], endOfBlock⟩ = stack := append_nil stack
  rw [unread] at inside ⊢
  have good' := Good.nextBlock good block
  have inside' : (stack ++ block).length ≤ offset + block.length := by
    rw [length_append]
    exact Nat.add_le_add_right inside _
  have within : block.length ≤ offset + block.length := Nat.le_add_left _ _
  have fuel_le : ∀ scanner : Scanner, 4 * scanner.reader.unread.length + scanner.state.rank <
      4 * scanner.reader.unread.length + 5 := by
    intro scanner
    have rankBound := rank_le_three scanner.state
    omega
  unfold scan
  cases skipRows with
  | zero =>
    exact scanRows_spec suitable _ _ none ⟨0, ⟨stack, block, false⟩, status, found⟩ rfl rfl good'
      inside' (Nat.le_refl _) within (fuel_le _)
  | succ rows =>
    have fresh' : status = .begin := fresh (Nat.succ_ne_zero _)
    rcases skipAll_spec suitable (rows + 1) ⟨stack, block, false⟩ rfl good' inside' with
      ⟨rows', reader', skipped, some, empty, good'', passes⟩ |
      ⟨reader', skipped, running, shorter, good'', passes⟩
    · simp only [skipped]
      obtain ⟨left, rfl⟩ := Nat.exists_eq_succ_of_ne_zero some
      exact (Scanned.idle none empty good'' fun _ => fresh').after passes
    · simp only [skipped, fresh']
      exact (scanRows_spec suitable _ _ none ⟨0, reader', .begin, found⟩ rfl running good''
        (passes.1.trans inside') shorter within (fuel_le _)).after passes

/-- A call finds the first of the row starts in its block. -/
theorem Resting.scan (resting : Resting dialect offset scanner) (block : Bytes) :
    ∃ firstRow next, scan dialect scanner block = (firstRow, next) ∧
      Resting dialect (offset + block.length) next ∧
      ∃ starts : List Nat, (∀ start ∈ starts, offset ≤ start ∧ start < offset + block.length) ∧
        firstRow = starts.head?.map (· - offset) ∧
        ∀ more, scanner.rowsFrom dialect offset (block ++ more) =
          starts ++ next.rowsFrom dialect (offset + block.length) more := by
  have scanned := scan_spec suitable resting block
  generalize scanner.scan dialect block = result at scanned ⊢
  obtain ⟨firstRow, next⟩ := result
  obtain ⟨empty, good, fresh, starts, passes, bounds, shape⟩ := scanned
  have inside : next.reader.unread.length ≤ (scanner.reader.unread ++ block).length := passes.1
  rw [length_append] at inside
  have before := resting.inside
  rw [Nat.add_sub_cancel] at bounds shape
  refine ⟨firstRow, next, rfl, ⟨empty, good, fresh, by omega⟩, starts, bounds, shape,
    fun more => ?_⟩
  have position : offset - scanner.reader.unread.length =
      offset + block.length - (scanner.reader.unread ++ block).length := by
    rw [length_append]
    omega
  rw [rowsFrom, position, ← append_assoc]
  exact passes.2 more

/-! ## The end of the stream -/

/-- A token of bytes that are all on the stack starts no row and keeps the invariant. -/
theorem Good.token {state state' : ParseState} {stack : Bytes}
    (good : Good dialect state ⟨stack, [], false⟩)
    (decided : next dialect state stack = some (state', length)) :
    state ≠ .begin ∧ Good dialect state' ⟨stack.drop length, [], false⟩ := by
  have unread : Reader.unread ⟨stack, [], false⟩ = stack := append_nil stack
  have nonempty : Reader.unread ⟨stack, [], false⟩ ≠ [] := by
    rw [unread]
    rintro rfl
    cases state <;> cases decided
  cases state with
  | begin =>
    have empty : stack = [] := good
    exact absurd (unread.trans empty) nonempty
  | skip rows =>
    have simulates := skipRowStep_simulates suitable rows rfl nonempty good
    have shorter := skipRowStep_data_le dialect ⟨stack, [], false⟩
    rw [unread] at simulates
    exact ⟨by simp, simulates.good_drop shorter decided⟩
  | linePrefix =>
    have used : dialect.linesStartingBy ≠ [] := by
      intro unused
      rcases good with empty | impossible
      · exact nonempty (unread.trans empty)
      · rw [unused] at impossible
        exact absurd impossible (Nat.not_lt_zero _)
    have simulates := skipLineStartStep_simulates used rfl nonempty good
    have shorter := skipLineStartStep_data_le dialect ⟨stack, [], false⟩
    rw [unread] at simulates
    exact ⟨by simp, simulates.good_drop shorter decided⟩
  | beginOfField =>
    obtain ⟨chr, rest, rfl⟩ := exists_cons_of_ne_nil (unread ▸ nonempty)
    have quiet : Quiet dialect.linesTerminatedBy (chr :: rest ++ []) (rest.length + 1) 0 := good
    refine ⟨by simp, ?_⟩
    simp only [next] at decided
    split at decided
    · cases decided
      exact (quiet.drop 1).weaken (Nat.zero_le 1)
    · cases decided
      exact quiet
  | field found =>
    have simulates := scanFieldStep_simulates suitable rfl found nonempty good
    have shorter := scanFieldStep_data_le dialect ⟨stack, [], false⟩ found
    rw [unread] at simulates
    exact ⟨by simp, simulates.good_drop shorter decided⟩

/-- No row starts in bytes that are all on the stack. -/
theorem rowStartsFrom_quiet (state : ParseState) (offset : Nat)
    (stack : Bytes) (good : Good dialect state ⟨stack, [], false⟩) :
    rowStartsFrom dialect state offset stack = [] := by
  induction size : 4 * stack.length + state.rank using Nat.strong_induction_on generalizing
    state offset stack with
  | _ measure ih =>
    cases token : next dialect state stack with
    | none => exact rowStartsFrom_none token
    | some result =>
      obtain ⟨state', length⟩ := result
      obtain ⟨bound, progress⟩ := next_length token
      obtain ⟨notBegin, good'⟩ := good.token suitable token
      have rankBound := rank_le_three state'
      have rest := ih (4 * (stack.drop length).length + state'.rank)
        (by rw [length_drop]; omega) state' (offset + length) _ good' rfl
      have unfolded : rowStartsFrom dialect state offset (stack ++ []) = _ :=
        rowStartsFrom_append token []
      rw [if_neg notBegin, append_nil, append_nil, rest] at unfolded
      exact unfolded

/-- No row starts in what a call leaves unread. -/
theorem Resting.rowsFrom_nil (resting : Resting dialect offset scanner) :
    scanner.rowsFrom dialect offset [] = [] := by
  obtain ⟨skipRows, ⟨stack, data, endOfBlock⟩, status, found⟩ := scanner
  obtain ⟨empty, good, -, -⟩ := resting
  subst empty
  have unread : Reader.unread ⟨stack, [], endOfBlock⟩ = stack := append_nil stack
  rw [rowsFrom, append_nil, unread]
  exact rowStartsFrom_quiet suitable _ _ stack (Good.nextBlock good [])

end

/-! ## The blocks of a stream -/

/-- For every block the first of the given row starts that lies in it, counted from the block. -/
def firstRows (starts : List Nat) : Nat → List Bytes → List (Option Nat)
  | _, [] => []
  | offset, block :: blocks =>
    (starts.find? fun start => offset ≤ start ∧ start < offset + block.length).map (· - offset) ::
      firstRows starts (offset + block.length) blocks

theorem firstRows_append {starts later : List Nat} {offset : Nat} (blocks : List Bytes)
    (before : ∀ start ∈ starts, start < offset) :
    firstRows (starts ++ later) offset blocks = firstRows later offset blocks := by
  induction blocks generalizing offset with
  | nil => rfl
  | cons block blocks ih =>
    have none : starts.find? (fun start => offset ≤ start ∧ start < offset + block.length) =
        none := by
      refine find?_eq_none.mpr fun start member => ?_
      have bound := before start member
      simp only [decide_eq_true_eq, not_and]
      omega
    unfold firstRows
    rw [find?_append, none, Option.none_or,
      ih fun start member => Nat.lt_of_lt_of_le (before start member) (Nat.le_add_right _ _)]

theorem find?_block {starts later : List Nat} {offset limit : Nat}
    (bounds : ∀ start ∈ starts, offset ≤ start ∧ start < limit)
    (after : ∀ start ∈ later, limit ≤ start) :
    (starts ++ later).find? (fun start => offset ≤ start ∧ start < limit) = starts.head? := by
  cases starts with
  | nil =>
    refine find?_eq_none.mpr fun start member => ?_
    have bound := after start member
    simp only [decide_eq_true_eq, not_and]
    omega
  | cons start starts =>
    rw [cons_append, find?_cons_of_pos, head?_cons]
    exact decide_eq_true (bounds start mem_cons_self)

/-- The results for the blocks of a stream, from any state that a call may leave behind. -/
theorem scanBlocks_eq (suitable : Suitable dialect) (blocks : List Bytes)
    (resting : Resting dialect offset scanner) :
    (∀ start ∈ scanner.rowsFrom dialect offset blocks.flatten, offset ≤ start) ∧
      scanBlocks dialect scanner blocks =
        firstRows (scanner.rowsFrom dialect offset blocks.flatten) offset blocks := by
  induction blocks generalizing scanner offset with
  | nil =>
    rw [flatten_nil, resting.rowsFrom_nil suitable]
    exact ⟨nofun, rfl⟩
  | cons block blocks ih =>
    obtain ⟨firstRow, next, scanned, resting', starts, bounds, shape, whole⟩ :=
      resting.scan suitable block
    obtain ⟨after, results⟩ := ih resting'
    rw [flatten_cons, whole]
    refine ⟨?_, ?_⟩
    · intro start member
      rcases mem_append.mp member with here | there
      · exact (bounds start here).1
      · exact Nat.le_trans (Nat.le_add_right _ _) (after start there)
    · simp only [scanBlocks, scanned, firstRows]
      rw [find?_block bounds after, firstRows_append blocks fun start member =>
        (bounds start member).2, results, shape]

/-- A new scanner has not read anything. -/
theorem create_spec {skipRows : Nat} (created : create dialect skipRows = .ok scanner) :
    dialect.linesTerminatedBy ≠ [] ∧ Resting dialect 0 scanner ∧
      ∀ bytes, scanner.rowsFrom dialect 0 bytes = rowStarts dialect skipRows bytes := by
  unfold create at created
  split at created
  · cases created
  · next accepted =>
    cases created
    refine ⟨fun empty => accepted (.inl empty),
      ⟨rfl, Good.ofStackNil rfl, fun _ => rfl, Nat.le_refl 0⟩, fun bytes => ?_⟩
    cases skipRows <;> rfl

/-- A validated dialect has no line terminator that starts with the escape character. -/
theorem not_escape_of_validate (valid : dialect.validate = .ok ()) :
    ¬ ∃ chr, dialect.linesTerminatedBy = [chr] ∧
      escapedChar dialect = some chr ∧ enclosedChar dialect = some chr := by
  rintro ⟨chr, lines, escape, -⟩
  unfold Dialect.validate at valid
  split at valid
  · cases valid
  · split at valid
    · cases valid
    · next short =>
      obtain ⟨tail, shape⟩ := head?_eq_some_iff.mp escape
      have noTail : tail = [] := by
        rw [shape, length_cons] at short
        exact eq_nil_of_length_eq_zero (by omega)
      have single : dialect.fieldsEscapedBy = [chr] := by rw [shape, noTail]
      rw [if_pos (by simp [lines, single])] at valid
      cases valid

/--
Every block gets the first row start in it, as the parse of the uncut stream finds them. In the
dialect in which one byte ends lines, escapes and encloses, the byte after the terminator is
read before the row begins.
-/
theorem scanBlocks_firstRows (dialect : Dialect) (skipRows : Nat) (scanner : Scanner)
    (created : create dialect skipRows = .ok scanner)
    (notInside : ¬ dialect.linesTerminatedBy <:+: dialect.fieldsTerminatedBy)
    (notEscape : ¬ ∃ chr, dialect.linesTerminatedBy = [chr] ∧
      escapedChar dialect = some chr ∧ enclosedChar dialect = some chr)
    (blocks : List Bytes) :
    scanBlocks dialect scanner blocks =
      firstRows (rowStarts dialect skipRows blocks.flatten) 0 blocks := by
  obtain ⟨nonempty, resting, starts⟩ := create_spec created
  have suitable : Suitable dialect := ⟨nonempty, notInside, fun chr lines escape encloses =>
    notEscape ⟨chr, lines, escape, encloses⟩⟩
  rw [(scanBlocks_eq suitable blocks resting).2, starts]

/-- A quoted line end, cut inside the quotes and inside the terminator. -/
theorem scanBlocks_firstRows_quoted :
    scanBlocks Dialect.csv ⟨0, ⟨[], [], false⟩, .begin, none⟩
        [ascii ['"', 'a', '\r'], ascii ['\n', '"', '\r'], ascii ['\n', 'b']] =
      firstRows (rowStarts Dialect.csv 0 (ascii ['"', 'a', '\r', '\n', '"', '\r', '\n', 'b'])) 0
        [ascii ['"', 'a', '\r'], ascii ['\n', '"', '\r'], ascii ['\n', 'b']] ∧
    firstRows (rowStarts Dialect.csv 0 (ascii ['"', 'a', '\r', '\n', '"', '\r', '\n', 'b'])) 0
        [ascii ['"', 'a', '\r'], ascii ['\n', '"', '\r'], ascii ['\n', 'b']] =
      [some 0, none, some 1] := by
  refine ⟨?_, by decide +kernel⟩
  exact scanBlocks_firstRows Dialect.csv 0 ⟨0, ⟨[], [], false⟩, .begin, none⟩ rfl
    (by decide +kernel)
    (by
      rintro ⟨chr, lines, -⟩
      exact absurd (congrArg List.length lines) (show ¬ 2 = 1 by decide))
    [ascii ['"', 'a', '\r'], ascii ['\n', '"', '\r'], ascii ['\n', 'b']]

/-- One byte that ends lines, escapes and encloses. -/
def tripleQuote : Dialect where
  linesTerminatedBy := [Byte.doubleQuote]
  fieldsEscapedBy := [Byte.doubleQuote]
  fieldsTerminatedBy := [Byte.tab]
  fieldsEnclosedBy := [Byte.doubleQuote]
  fieldsOptionallyEnclosed := true
  linesStartingBy := []

/-- The row after the terminator is not found in its block, nor at its place in the next one. -/
theorem scanBlocks_tripleQuote : create tripleQuote 0 = .ok ⟨0, ⟨[], [], false⟩, .begin, none⟩ ∧
    ¬ tripleQuote.linesTerminatedBy <:+: tripleQuote.fieldsTerminatedBy ∧
    rowStarts tripleQuote 0 (ascii ['a', '"', 'b', 'c']) = [0, 2] ∧
    scanBlocks tripleQuote ⟨0, ⟨[], [], false⟩, .begin, none⟩
        [ascii ['a'], ascii ['"', 'b'], ascii ['c']] = [some 0, none, some 0] ∧
    scanBlocks tripleQuote ⟨0, ⟨[], [], false⟩, .begin, none⟩
        [ascii ['a'], ascii ['"', 'b'], ascii ['c']] ≠
      firstRows (rowStarts tripleQuote 0 (ascii ['a', '"', 'b', 'c'])) 0
        [ascii ['a'], ascii ['"', 'b'], ascii ['c']] := by
  decide +kernel

end Scanner

end MariadbShell.ImportTable
