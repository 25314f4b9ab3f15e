import MariadbShell.ImportTable.Scanner.Quiet

/-!
# One iteration of the scanner's loops

Each loop over the data of a block does in one iteration what the parse does in one
token, or pushes everything back where the block ends inside the token.
-/

namespace MariadbShell.ImportTable

open List Lib.Search Bool

namespace Scanner

/-! ## Looking for the terminators -/

section Terminators

variable {dialect : Dialect} {reader : Reader} {chr : UInt8}

theorem Suitable.not_infix_tail (suitable : Suitable dialect) :
    ¬ dialect.linesTerminatedBy <:+: dialect.linesTerminatedBy.tail := by
  intro inside
  have shorter := inside.length_le
  have positive := length_pos_of_ne_nil suitable.lines_ne
  rw [length_tail] at shorter
  omega

theorem Suitable.not_infix_fields_tail (suitable : Suitable dialect) :
    ¬ dialect.linesTerminatedBy <:+: dialect.fieldsTerminatedBy.tail :=
  fun inside => suitable.notInside (inside.trans (tail_suffix _).isInfix)

/-- The stack is quiet from the byte `chr` on, which was read last. -/
abbrev QuietFrom (dialect : Dialect) (chr : UInt8) (unread stack : Bytes) (start : Nat) : Prop :=
  Quiet dialect.linesTerminatedBy (chr :: unread) (stack.length + 1) start

/-- Input that the end of the block cuts inside a terminator has no line terminator. -/
theorem Suitable.absent_of_cut (suitable : Suitable dialect) {sequence input : Bytes}
    (terminator : sequence = dialect.linesTerminatedBy ∨ sequence = dialect.fieldsTerminatedBy)
    (cut : lookahead sequence input = .cut) : ¬ dialect.linesTerminatedBy <:+: input := by
  obtain ⟨absent, shorter⟩ := lookahead_cut cut
  intro inside
  rcases terminator with lines | fields
  · rw [lines] at absent shorter
    have whole := shorter.eq_of_length_le inside.length_le
    exact absent (whole ▸ prefix_rfl)
  · rw [fields] at shorter
    exact suitable.notInside (inside.trans shorter.isInfix)

variable (running : reader.endOfBlock = false)

include running

/-- A search that fails keeps the stack quiet. -/
theorem lookFor_miss_quiet {sequence : Bytes}
    (miss : lookahead sequence (chr :: reader.unread) = .miss)
    (absent : ¬ dialect.linesTerminatedBy <+: chr :: reader.unread)
    (notInside : ¬ dialect.linesTerminatedBy <:+: sequence.tail)
    (quiet : QuietFrom dialect chr reader.unread reader.stack 0) :
    ∃ after, reader.lookFor (some chr) sequence = (.miss, after) ∧ after.endOfBlock = false ∧
      after.unread = reader.unread ∧
      QuietFrom dialect chr reader.unread after.stack 0 := by
  obtain ⟨after, failed, still, kept, extended⟩ := Reader.lookFor_miss running miss
  have rest : Quiet dialect.linesTerminatedBy reader.unread after.stack.length 0 :=
    (quiet.drop 1).extend kept extended notInside
  exact ⟨after, failed, still, kept, rest.cons absent⟩

/-- The search for a line terminator leaves nothing on the stack when it succeeds. -/
theorem lookFor_lines_hit (hit : lookahead dialect.linesTerminatedBy (chr :: reader.unread) = .hit)
    (bound : reader.stack.length + 1 ≤ dialect.linesTerminatedBy.length) :
    ∃ after, reader.lookFor (some chr) dialect.linesTerminatedBy = (.hit, after) ∧
      after.endOfBlock = false ∧
      after.unread = (chr :: reader.unread).drop dialect.linesTerminatedBy.length ∧
      after.stack = [] := by
  obtain ⟨after, found, still, rest, size⟩ := Reader.lookFor_hit running hit
  exact ⟨after, found, still, rest, eq_nil_of_length_eq_zero (by omega)⟩

theorem lookFor_lines_miss (suitable : Suitable dialect)
    (miss : lookahead dialect.linesTerminatedBy (chr :: reader.unread) = .miss)
    (quiet : QuietFrom dialect chr reader.unread reader.stack 0) :
    ∃ after, reader.lookFor (some chr) dialect.linesTerminatedBy = (.miss, after) ∧
      after.endOfBlock = false ∧ after.unread = reader.unread ∧
      QuietFrom dialect chr reader.unread after.stack 0 :=
  lookFor_miss_quiet running miss (lookahead_miss miss suitable.lines_ne).1
    suitable.not_infix_tail quiet

/-- A field terminator that is found keeps the stack quiet. -/
theorem lookFor_fields_hit
    (hit : lookahead dialect.fieldsTerminatedBy (chr :: reader.unread) = .hit)
    (quiet : QuietFrom dialect chr reader.unread reader.stack 0) :
    ∃ after, reader.lookFor (some chr) dialect.fieldsTerminatedBy = (.hit, after) ∧
      after.endOfBlock = false ∧
      after.unread = (chr :: reader.unread).drop dialect.fieldsTerminatedBy.length ∧
      Quiet dialect.linesTerminatedBy after.unread after.stack.length 0 := by
  obtain ⟨after, found, still, rest, size⟩ := Reader.lookFor_hit running hit
  refine ⟨after, found, still, rest, ?_⟩
  rw [size, rest]
  have dropped := quiet.drop dialect.fieldsTerminatedBy.length
  rw [Nat.zero_sub] at dropped
  exact dropped

end Terminators

/-! ## Iterations -/

/-- What an iteration of a loop in a state of the parse may do with the unread bytes. -/
inductive Simulates {α : Type} (dialect : Dialect) (state : ParseState) (idle : α)
    (target : α → ParseState) (unread : Bytes) : Iteration α → Prop
  | cut {iteration : Iteration α} (undecided : next dialect state unread = none)
      (shape : iteration = .again ⟨unread, [], true⟩ ∨ iteration = .stop idle ⟨unread, [], true⟩)
      (good : Good dialect state ⟨unread, [], true⟩) :
      Simulates dialect state idle target unread iteration
  | stay {length : Nat} {reader : Reader}
      (token : next dialect state unread = some (state, length))
      (running : reader.endOfBlock = false) (rest : reader.unread = unread.drop length)
      (good : Good dialect state reader) :
      Simulates dialect state idle target unread (.again reader)
  | leave {length : Nat} {reader : Reader} {result : α}
      (token : next dialect state unread = some (target result, length))
      (busy : result ≠ idle) (running : reader.endOfBlock = false)
      (rest : reader.unread = unread.drop length) (good : Good dialect (target result) reader) :
      Simulates dialect state idle target unread (.stop result reader)

section Skipping

variable {dialect : Dialect} {reader : Reader}

/-- State after a row was skipped, while `rows` more rows follow. -/
def afterSkip (rows : Nat) : Bool → ParseState
  | true => .skipping rows
  | false => .skip rows

theorem skipRowStep_simulates (suitable : Suitable dialect) (rows : Nat)
    (running : reader.endOfBlock = false) (nonempty : reader.unread ≠ [])
    (quiet : Quiet dialect.linesTerminatedBy reader.unread reader.stack.length 0) :
    Simulates dialect (.skip rows) false (afterSkip rows) reader.unread
      (skipRowStep dialect reader) := by
  obtain ⟨chr, rest, unread⟩ := exists_cons_of_ne_nil nonempty
  obtain ⟨reader', read, running', rfl, size⟩ := Reader.get_running running unread
  rw [unread] at quiet ⊢
  have after := quiet.after_get suitable.lines_ne size
  by_cases escape : some chr = escapedChar dialect
  · cases unread' : reader'.unread with
    | nil =>
      have step : skipRowStep dialect reader = .again ⟨[chr], [], true⟩ := by
        simp only [skipRowStep, read, Reader.same_some_iff, if_pos escape,
          Reader.get_of_nil unread', if_true]
        rw [← escape]
        rfl
      refine .cut ?_ (.inl step) (Quiet.of_size_le ?_)
      · simp only [next, if_pos escape, if_true]
      · exact Nat.le_add_left_of_le (length_pos_of_ne_nil suitable.lines_ne)
    | cons escaped rest =>
      obtain ⟨reader'', read', running'', rfl, size'⟩ := Reader.get_running running' unread'
      have step : skipRowStep dialect reader = .again reader'' := by
        simp only [skipRowStep, read, Reader.same_some_iff, if_pos escape, read', running'',
          false_eq_true, if_false]
      have token : next dialect (.skip rows) (chr :: escaped :: reader''.unread) =
          some (.skip rows, 2) := by
        simp only [next, if_pos escape, reduceCtorEq, if_false]
      rw [step]
      refine .stay token running'' rfl ?_
      have dropped := quiet.drop 2
      rw [unread'] at dropped
      have bound : reader''.stack.length = reader.stack.length - 2 := by omega
      rw [← bound] at dropped
      exact dropped
  · have decided : next dialect (.skip rows) (chr :: reader'.unread) =
        (lookahead dialect.linesTerminatedBy (chr :: reader'.unread)).select
          (some (.skipping rows, dialect.linesTerminatedBy.length)) (some (.skip rows, 1)) := by
      simp only [next, if_neg escape]
    cases outcome : lookahead dialect.linesTerminatedBy (chr :: reader'.unread) with
    | hit =>
      rw [outcome] at decided
      have bound := after 0 (Nat.le_refl 0) (lookahead_hit outcome).2
      obtain ⟨reader'', found, running'', rest, empty⟩ :=
        lookFor_lines_hit running' outcome (by omega)
      have step : skipRowStep dialect reader = .stop true reader'' := by
        simp only [skipRowStep, read, Reader.same_some_iff, if_neg escape, found]
      rw [step]
      exact .leave decided (by decide) running'' rest (Good.ofStackNil empty)
    | cut =>
      rw [outcome] at decided
      have step : skipRowStep dialect reader = .again ⟨chr :: reader'.unread, [], true⟩ := by
        simp only [skipRowStep, read, Reader.same_some_iff, if_neg escape,
          Reader.lookFor_cut running' outcome, if_true]
        rfl
      have absent := suitable.absent_of_cut (.inl rfl) outcome
      exact .cut decided (.inl step) (Quiet.of_absent absent).pushedBack
    | miss =>
      rw [outcome] at decided
      obtain ⟨reader'', failed, running'', rest, quiet'⟩ :=
        lookFor_lines_miss running' suitable outcome after
      have step : skipRowStep dialect reader = .again reader'' := by
        simp only [skipRowStep, read, Reader.same_some_iff, if_neg escape, failed, running'',
          false_eq_true, if_false]
      rw [step]
      refine .stay decided running'' rest ?_
      rw [← rest] at quiet'
      exact quiet'.drop 1

def afterPrefix : Bool → ParseState
  | true => .beginOfField
  | false => .linePrefix

theorem skipLineStartStep_simulates (used : dialect.linesStartingBy ≠ [])
    (running : reader.endOfBlock = false) (nonempty : reader.unread ≠ [])
    (good : Good dialect .linePrefix reader) :
    Simulates dialect .linePrefix false afterPrefix reader.unread
      (skipLineStartStep dialect reader) := by
  obtain ⟨chr, rest, unread⟩ := exists_cons_of_ne_nil nonempty
  obtain ⟨reader', read, running', rfl, size⟩ := Reader.get_running running unread
  have positive := length_pos_of_ne_nil used
  have room : reader.stack.length < dialect.linesStartingBy.length := by
    rcases good with empty | room
    · rw [empty]
      exact positive
    · exact room
  rw [unread]
  have decided : next dialect .linePrefix (chr :: reader'.unread) =
      (lookahead dialect.linesStartingBy (chr :: reader'.unread)).select
        (some (.beginOfField, dialect.linesStartingBy.length)) (some (.linePrefix, 1)) := by
    simp only [next, if_neg used]
  cases outcome : lookahead dialect.linesStartingBy (chr :: reader'.unread) with
  | hit =>
    rw [outcome] at decided
    obtain ⟨reader'', found, running'', rest, size'⟩ := Reader.lookFor_hit running' outcome
    have step : skipLineStartStep dialect reader = .stop true reader'' := by
      simp only [skipLineStartStep, read, found]
    rw [step]
    refine .leave decided (by decide) running'' rest (Good.ofStackNil ?_)
    exact eq_nil_of_length_eq_zero (by omega)
  | cut =>
    rw [outcome] at decided
    obtain ⟨absent, shorter⟩ := lookahead_cut outcome
    have step : skipLineStartStep dialect reader = .again ⟨chr :: reader'.unread, [], true⟩ := by
      simp only [skipLineStartStep, read, Reader.lookFor_cut running' outcome, if_true]
      rfl
    refine .cut decided (.inl step) (.inr ?_)
    refine Nat.lt_of_le_of_ne shorter.length_le fun same => absent ?_
    rw [shorter.eq_of_length same]
  | miss =>
    rw [outcome] at decided
    obtain ⟨reader'', failed, running'', rest, extended⟩ := Reader.lookFor_miss running' outcome
    have step : skipLineStartStep dialect reader = .again reader'' := by
      simp only [skipLineStartStep, read, failed, running'', false_eq_true, if_false]
    rw [step]
    refine .stay decided running'' rest (.inr ?_)
    rcases extended with same | ⟨bound, -⟩
    · omega
    · rw [length_tail] at bound
      omega

end Skipping

section Fields

variable {dialect : Dialect} {reader : Reader}

def afterField (found : Option UInt8) : FieldStatus → ParseState
  | .continued => .field found
  | .endOfField => .beginOfField
  | .endOfLine => .begin

/-- The search for both terminators from a byte of a field on. -/
def searchTerminators (dialect : Dialect) (chr : UInt8) (pushBack missed : Reader → Reader)
    (reader : Reader) : Iteration FieldStatus :=
  match reader.lookFor (some chr) dialect.linesTerminatedBy with
  | (.hit, next) => .stop .endOfLine next
  | (.cut, next) => .stop .continued (pushBack next)
  | (.miss, next) =>
    match next.lookFor (some chr) dialect.fieldsTerminatedBy with
    | (.hit, next) => .stop .endOfField next
    | (.cut, next) => .stop .continued (pushBack next)
    | (.miss, next) => .again (missed next)

variable (suitable : Suitable dialect) (running : reader.endOfBlock = false)

include suitable running

/-- The search behind the bytes `front`, which a terminator that is cut pushes back too. -/
theorem searchTerminators_simulates {found : Option UInt8} {chr : UInt8}
    {pushBack missed : Reader → Reader} (front : Bytes)
    (quiet : QuietFrom dialect chr reader.unread reader.stack 0)
    (decided : next dialect (.field found) (front ++ chr :: reader.unread) =
      (lookahead dialect.linesTerminatedBy (chr :: reader.unread)).select
        (some (.begin, front.length + dialect.linesTerminatedBy.length))
        ((lookahead dialect.fieldsTerminatedBy (chr :: reader.unread)).select
          (some (.beginOfField, front.length + dialect.fieldsTerminatedBy.length))
          (some (.field found, 1))))
    (pushed : ∀ rest, pushBack ⟨rest, [], true⟩ = ⟨front ++ chr :: rest, [], true⟩)
    (calm : ¬ dialect.linesTerminatedBy <:+: chr :: reader.unread →
      Good dialect (.field found) ⟨front ++ chr :: reader.unread, [], true⟩)
    (goes : ∀ after : Reader, after.endOfBlock = false → after.unread = reader.unread →
      QuietFrom dialect chr reader.unread after.stack 0 →
      (missed after).endOfBlock = false ∧
        (missed after).unread = (front ++ chr :: reader.unread).drop 1 ∧
        Good dialect (.field found) (missed after)) :
    Simulates dialect (.field found) .continued (afterField found) (front ++ chr :: reader.unread)
      (searchTerminators dialect chr pushBack missed reader) := by
  have behind : ∀ length, (front ++ chr :: reader.unread).drop (front.length + length) =
      (chr :: reader.unread).drop length := fun length => by rw [← drop_drop, drop_left]
  unfold searchTerminators
  cases lines : lookahead dialect.linesTerminatedBy (chr :: reader.unread) with
  | hit =>
    rw [lines] at decided
    have bound := quiet 0 (Nat.le_refl 0) (lookahead_hit lines).2
    obtain ⟨after, hit, running', rest, empty⟩ := lookFor_lines_hit running lines (by omega)
    rw [hit]
    exact .leave decided (by decide) running' (rest.trans (behind _).symm) (Good.ofStackNil empty)
  | cut =>
    rw [lines] at decided
    rw [Reader.lookFor_cut running lines]
    exact .cut decided (.inr (congrArg _ (pushed _)))
      (calm (suitable.absent_of_cut (.inl rfl) lines))
  | miss =>
    rw [lines] at decided
    have absent := (lookahead_miss lines suitable.lines_ne).1
    obtain ⟨after, failed, running', same, quiet'⟩ :=
      lookFor_lines_miss running suitable lines quiet
    rw [failed]
    rw [← same] at decided absent quiet' calm goes behind ⊢
    cases fields : lookahead dialect.fieldsTerminatedBy (chr :: after.unread) with
    | hit =>
      rw [fields] at decided
      obtain ⟨last, hit, running'', rest, good⟩ := lookFor_fields_hit running' fields quiet'
      simp only [hit]
      exact .leave decided (by decide) running'' (rest.trans (behind _).symm) good
    | cut =>
      rw [fields] at decided
      simp only [Reader.lookFor_cut running' fields]
      exact .cut decided (.inr (congrArg _ (pushed _)))
        (calm (suitable.absent_of_cut (.inr rfl) fields))
    | miss =>
      rw [fields] at decided
      obtain ⟨last, failed', running'', rest, quiet''⟩ :=
        lookFor_miss_quiet running' fields absent suitable.not_infix_fields_tail quiet'
      simp only [failed']
      obtain ⟨still, unread, good⟩ := goes last running'' rest quiet''
      exact .stay decided still unread good

/-- The byte of an enclosing character was read, and `reader` has what follows. -/
theorem afterEnclosure_simulates {enclosing : UInt8}
    (quiet : QuietFrom dialect enclosing reader.unread reader.stack 1)
    (plain : next dialect (.field (some enclosing)) (enclosing :: reader.unread) =
      nextPlain dialect (some enclosing) enclosing reader.unread) :
    Simulates dialect (.field (some enclosing)) .continued (afterField (some enclosing))
      (enclosing :: reader.unread) (afterEnclosure dialect (some enclosing) reader) := by
  cases unread : reader.unread with
  | nil =>
    rw [unread] at plain
    have step : afterEnclosure dialect (some enclosing) reader =
        .stop .continued ⟨[enclosing], [], true⟩ := by
      simp only [afterEnclosure, Reader.get_of_nil unread, if_true]
      rfl
    refine .cut ?_ (.inr step) (Quiet.of_size_le (Nat.le_add_right _ _))
    rw [plain]
    simp only [nextPlain, if_true]
  | cons second rest =>
    obtain ⟨reader', read, running', rfl, size⟩ := Reader.get_running running unread
    rw [unread] at plain quiet
    have tail : QuietFrom dialect second reader'.unread reader'.stack 0 :=
      (quiet.drop 1).after_get suitable.lines_ne size
    by_cases doubled : second = enclosing
    · have step : afterEnclosure dialect (some enclosing) reader = .again reader' := by
        simp only [afterEnclosure, read, running', false_eq_true, if_false,
          Reader.same_some_iff, doubled, if_true]
      rw [step]
      have token : next dialect (.field (some enclosing)) (enclosing :: second :: reader'.unread) =
          some (.field (some enclosing), 2) := by
        rw [plain]
        simp only [nextPlain, doubled, if_true]
      exact .stay token running' rfl ((tail.drop 1).weaken (Nat.zero_le 1))
    · have other : ¬ some second = some enclosing := fun same => doubled (Option.some.inj same)
      have step : afterEnclosure dialect (some enclosing) reader =
          searchTerminators dialect second
            (fun next => (next.ungetChr (some second)).ungetChr (some enclosing))
            (fun next => next.ungetChr (some second)) reader' := by
        simp only [afterEnclosure, read, running', false_eq_true, if_false,
          Reader.same_some_iff, if_neg other]
        rfl
      rw [step]
      refine searchTerminators_simulates suitable running' [enclosing] tail ?_ (fun _ => rfl)
        (fun absent => (Quiet.of_absent absent).cons_later.pushedBack) ?_
      · rw [singleton_append, plain, length_singleton, Nat.add_comm 1, Nat.add_comm 1]
        simp only [nextPlain, if_true, if_neg doubled]
      · intro after running'' same quiet'
        have whole : (after.ungetChr (some second)).unread = second :: reader'.unread :=
          congrArg (second :: ·) same
        rw [QuietFrom, ← whole] at quiet'
        exact ⟨running'', whole, quiet'.weaken (Nat.zero_le 1)⟩

theorem scanPlain_enclosed {enclosing chr : UInt8}
    (quiet : QuietFrom dialect chr reader.unread reader.stack 1)
    (plain : next dialect (.field (some enclosing)) (chr :: reader.unread) =
      nextPlain dialect (some enclosing) chr reader.unread) :
    Simulates dialect (.field (some enclosing)) .continued (afterField (some enclosing))
      (chr :: reader.unread) (scanPlain dialect (some enclosing) (some chr) reader) := by
  by_cases encloses : chr = enclosing
  · rw [encloses] at plain quiet ⊢
    have step : scanPlain dialect (some enclosing) (some enclosing) reader =
        afterEnclosure dialect (some enclosing) reader := by
      simp only [scanPlain, scanEnclosure, reduceCtorEq, if_false, Reader.same_some_iff, if_true]
    rw [step]
    exact afterEnclosure_simulates suitable running quiet plain
  · have other : ¬ some chr = some enclosing := fun same => encloses (Option.some.inj same)
    have step : scanPlain dialect (some enclosing) (some chr) reader = .again reader := by
      simp only [scanPlain, scanEnclosure, reduceCtorEq, if_false, Reader.same_some_iff,
        if_neg other]
    have token : next dialect (.field (some enclosing)) (chr :: reader.unread) =
        some (.field (some enclosing), 1) := by
      rw [plain]
      simp only [nextPlain, if_neg encloses]
    rw [step]
    exact .stay token running rfl ((quiet.drop 1).weaken (Nat.zero_le 1))

theorem scanPlain_unenclosed {chr : UInt8}
    (quiet : QuietFrom dialect chr reader.unread reader.stack 0)
    (plain : next dialect (.field none) (chr :: reader.unread) =
      nextPlain dialect none chr reader.unread) :
    Simulates dialect (.field none) .continued (afterField none) (chr :: reader.unread)
      (scanPlain dialect none (some chr) reader) := by
  have step : scanPlain dialect none (some chr) reader =
      searchTerminators dialect chr (fun next => next.ungetChr (some chr)) id reader := by
    simp only [scanPlain, scanEnclosure, if_true, Reader.same_some_iff, reduceCtorEq, if_false]
    rfl
  rw [step]
  refine searchTerminators_simulates suitable running [] quiet ?_ (fun _ => rfl)
    (fun absent => (Quiet.of_absent absent).pushedBack) fun after running' same quiet' => ?_
  · rw [length_nil, Nat.zero_add, Nat.zero_add]
    exact plain
  · rw [← same] at quiet' ⊢
    exact ⟨running', rfl, quiet'.drop 1⟩

/-- First offset at which a line terminator ends a field. -/
def fieldStart : Option UInt8 → Nat
  | none => 0
  | some _ => 1

omit suitable running in
theorem good_field {found : Option UInt8} :
    Good dialect (.field found) reader ↔
      Quiet dialect.linesTerminatedBy reader.unread reader.stack.length (fieldStart found) := by
  cases found <;> exact Iff.rfl

theorem scanPlain_simulates {chr : UInt8} (found : Option UInt8)
    (quiet : QuietFrom dialect chr reader.unread reader.stack (fieldStart found))
    (plain : next dialect (.field found) (chr :: reader.unread) =
      nextPlain dialect found chr reader.unread) :
    Simulates dialect (.field found) .continued (afterField found) (chr :: reader.unread)
      (scanPlain dialect found (some chr) reader) := by
  cases found with
  | none => exact scanPlain_unenclosed suitable running quiet plain
  | some enclosing => exact scanPlain_enclosed suitable running quiet plain

omit running in
/--
An escape character that is the enclosing one, too: the byte after it was read and pushed back,
which no line terminator of one byte may follow.
-/
theorem quiet_after_lookback {found : Option UInt8} {chr : UInt8} {rest : Bytes} {size : Nat}
    (escape : some chr = escapedChar dialect)
    (encloses : escapedChar dialect = enclosedChar dialect)
    (quiet : Quiet dialect.linesTerminatedBy (chr :: rest) size (fieldStart found)) :
    Quiet dialect.linesTerminatedBy (chr :: rest) (size - 2 + 1 + 1) (fieldStart found) := by
  intro offset above occurs
  have bound := quiet offset above occurs
  have positive := length_pos_of_ne_nil suitable.lines_ne
  cases offset with
  | succ offset => omega
  | zero =>
    by_contra short
    have one : dialect.linesTerminatedBy.length = 1 := by omega
    obtain ⟨symbol, shape⟩ := length_eq_one_iff.mp one
    have same : symbol = chr := by
      rw [shape] at occurs
      exact (cons_prefix_cons.mp occurs).1
    rw [same] at shape
    exact suitable.notEscape chr shape escape.symm (encloses ▸ escape.symm)

theorem scanFieldStep_simulates (found : Option UInt8) (nonempty : reader.unread ≠ [])
    (good : Good dialect (.field found) reader) :
    Simulates dialect (.field found) .continued (afterField found) reader.unread
      (scanFieldStep dialect found reader) := by
  have quiet := good_field.mp good
  obtain ⟨chr, rest, unread⟩ := exists_cons_of_ne_nil nonempty
  obtain ⟨reader', read, running', rfl, size⟩ := Reader.get_running running unread
  rw [unread] at quiet ⊢
  have after := quiet.after_get suitable.lines_ne size
  by_cases escape : some chr = escapedChar dialect
  · cases unread' : reader'.unread with
    | nil =>
      have step : scanFieldStep dialect found reader = .stop .continued ⟨[chr], [], true⟩ := by
        simp only [scanFieldStep, read, Reader.same_some_iff, if_pos escape,
          Reader.get_of_nil unread', if_true]
        rw [← escape]
        rfl
      refine .cut ?_ (.inr step) (good_field.mpr (Quiet.of_size_le ?_))
      · simp only [next, if_pos escape]
      · exact Nat.le_add_left_of_le (length_pos_of_ne_nil suitable.lines_ne)
    | cons escaped rest =>
      obtain ⟨reader'', read', running'', rfl, size'⟩ := Reader.get_running running' unread'
      rw [unread'] at quiet
      by_cases continues : escapedChar dialect ≠ enclosedChar dialect ∨
          some escaped = escapedChar dialect
      · have step : scanFieldStep dialect found reader = .again reader'' := by
          simp only [scanFieldStep, read, Reader.same_some_iff, if_pos escape, read', running'',
            false_eq_true, if_false, if_pos continues]
        have token : next dialect (.field found) (chr :: escaped :: reader''.unread) =
            some (.field found, 2) := by
          simp only [next, if_pos escape, if_pos continues]
        rw [step]
        refine .stay token running'' rfl (good_field.mpr ?_)
        have dropped := quiet.drop 2
        have bound : reader''.stack.length = reader.stack.length - 2 := by omega
        rw [← bound] at dropped
        exact dropped.weaken (Nat.sub_le _ _)
      · have step : scanFieldStep dialect found reader =
            scanPlain dialect found (some chr) (reader''.ungetChr (some escaped)) := by
          simp only [scanFieldStep, read, Reader.same_some_iff, if_pos escape, read', running'',
            false_eq_true, if_false, if_neg continues]
          rw [escape]
        have pushed : (reader''.ungetChr (some escaped)).unread = escaped :: reader''.unread := rfl
        have stack_eq : (reader''.ungetChr (some escaped)).stack.length =
            reader.stack.length - 2 + 1 := by
          have grown : (reader''.ungetChr (some escaped)).stack.length =
              reader''.stack.length + 1 := rfl
          omega
        have encloses : escapedChar dialect = enclosedChar dialect :=
          not_not.mp fun differs => continues (.inl differs)
        have plain : next dialect (.field found) (chr :: escaped :: reader''.unread) =
            nextPlain dialect found chr (escaped :: reader''.unread) := by
          simp only [next, if_pos escape, if_neg continues]
        rw [step]
        rw [← pushed] at plain quiet ⊢
        refine @scanPlain_simulates _ (reader''.ungetChr _) suitable running'' _ found ?_ plain
        rw [QuietFrom, stack_eq]
        exact quiet_after_lookback suitable escape encloses quiet
  · have step : scanFieldStep dialect found reader =
        scanPlain dialect found (some chr) reader' := by
      simp only [scanFieldStep, read, Reader.same_some_iff, if_neg escape]
    have plain : next dialect (.field found) (chr :: reader'.unread) =
        nextPlain dialect found chr reader'.unread := by
      simp only [next, if_neg escape]
    rw [step]
    exact scanPlain_simulates suitable running' found after plain

end Fields

end Scanner

end MariadbShell.ImportTable
