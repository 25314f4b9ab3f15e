import MariadbShell.ImportTable.Scanner.Model

/-!
# The parse of an uncut stream

The rows of a stream of bytes, found by a single left-to-right parse that looks ahead
in the whole stream. `next` recognises one token; it is undecided where the stream
ends inside a token, and a decision never changes when the stream is continued.
-/

namespace MariadbShell.ImportTable

open List Lib.Search

namespace Scanner

/-- Whether a sequence starts the input, is absent, or is cut by the end of the input. -/
def lookahead (sequence input : Bytes) : Match :=
  if sequence = [] then .miss
  else if sequence <+: input then .hit
  else if input <+: sequence then .cut
  else .miss

/-- Choose by the outcome of looking ahead; a cut sequence leaves the choice open. -/
def Match.select {α : Type} (outcome : Match) (onHit onMiss : Option α) : Option α :=
  match outcome with
  | .hit => onHit
  | .miss => onMiss
  | .cut => none

/-- State of the parse; `skip rows` has `rows + 1` rows still to skip. -/
inductive ParseState where
  | skip (rows : Nat)
  | begin
  | linePrefix
  | beginOfField
  | field (found : Option UInt8)
deriving DecidableEq, Repr

namespace ParseState

/-- State in which a number of rows is still to be skipped. -/
def skipping : Nat → ParseState
  | 0 => .begin
  | rows + 1 => .skip rows

/-- Number of tokens without bytes that can follow in a row. -/
def rank : ParseState → Nat
  | .begin => 3
  | .linePrefix => 2
  | .beginOfField => 1
  | .skip _ | .field _ => 0

end ParseState

section Tokens

variable (dialect : Dialect)

/-- A byte of a field, or the end of the field, outside of an escape sequence. -/
def nextPlain (found : Option UInt8) (chr : UInt8) (rest : Bytes) : Option (ParseState × Nat) :=
  match found with
  | none =>
    (lookahead dialect.linesTerminatedBy (chr :: rest)).select
      (some (.begin, dialect.linesTerminatedBy.length))
      ((lookahead dialect.fieldsTerminatedBy (chr :: rest)).select
        (some (.beginOfField, dialect.fieldsTerminatedBy.length))
        (some (.field none, 1)))
  | some enclosing =>
    if chr = enclosing then
      match rest with
      | [] => none
      | second :: _ =>
        if second = enclosing then some (.field found, 2)
        else
          (lookahead dialect.linesTerminatedBy rest).select
            (some (.begin, dialect.linesTerminatedBy.length + 1))
            ((lookahead dialect.fieldsTerminatedBy rest).select
              (some (.beginOfField, dialect.fieldsTerminatedBy.length + 1))
              (some (.field found, 1)))
    else some (.field found, 1)

/-- The next token of the input: the state after it and its length. -/
def next : ParseState → Bytes → Option (ParseState × Nat)
  | _, [] => none
  | .skip rows, chr :: rest =>
    if some chr = escapedChar dialect then
      if rest = [] then none else some (.skip rows, 2)
    else
      (lookahead dialect.linesTerminatedBy (chr :: rest)).select
        (some (.skipping rows, dialect.linesTerminatedBy.length))
        (some (.skip rows, 1))
  | .begin, _ :: _ => some (.linePrefix, 0)
  | .linePrefix, chr :: rest =>
    if dialect.linesStartingBy = [] then some (.beginOfField, 0)
    else
      (lookahead dialect.linesStartingBy (chr :: rest)).select
        (some (.beginOfField, dialect.linesStartingBy.length))
        (some (.linePrefix, 1))
  | .beginOfField, chr :: _ =>
    if some chr = enclosedChar dialect then some (.field (some chr), 1)
    else some (.field none, 0)
  | .field found, chr :: rest =>
    if some chr = escapedChar dialect then
      match rest with
      | [] => none
      | second :: _ =>
        if escapedChar dialect ≠ enclosedChar dialect ∨ some second = escapedChar dialect then
          some (.field found, 2)
        else nextPlain dialect found chr rest
    else nextPlain dialect found chr rest

/-- The row starts from a state and an offset on, in at most `fuel` tokens. -/
def parse : Nat → ParseState → Nat → Bytes → List Nat
  | 0, _, _, _ => []
  | fuel + 1, state, offset, input =>
    match next dialect state input with
    | none => []
    | some (following, length) =>
      (if state = .begin then [offset] else []) ++
        parse fuel following (offset + length) (input.drop length)

/-- The row starts from a state and an offset on. -/
def rowStartsFrom (state : ParseState) (offset : Nat) (input : Bytes) : List Nat :=
  parse dialect (4 * input.length + state.rank + 1) state offset input

/-- The offsets at which the rows of a stream start, after the skipped rows. -/
def rowStarts (skipRows : Nat) (stream : Bytes) : List Nat :=
  rowStartsFrom dialect (.skipping skipRows) 0 stream

end Tokens

/-! ## Looking ahead -/

variable {input sequence : Bytes}

theorem lookahead_append (decided : lookahead sequence input ≠ .cut) (more : Bytes) :
    lookahead sequence (input ++ more) = lookahead sequence input := by
  unfold lookahead at *
  by_cases unused : sequence = []
  · rw [if_pos unused, if_pos unused]
  · rw [if_neg unused] at decided ⊢
    rw [if_neg unused]
    by_cases starts : sequence <+: input
    · rw [if_pos starts, if_pos (starts.trans (prefix_append _ _))]
    · rw [if_neg starts] at decided ⊢
      by_cases ends : input <+: sequence
      · rw [if_pos ends] at decided
        exact absurd rfl decided
      · have absent : ¬ sequence <+: input ++ more := by
          intro longer
          rcases prefix_or_prefix_of_prefix longer (prefix_append input more) with
            shorter | shorter
          · exact starts shorter
          · exact ends shorter
        have undecided : ¬ input ++ more <+: sequence := fun longer =>
          ends ((prefix_append _ _).trans longer)
        rw [if_neg absent, if_neg undecided, if_neg ends]

theorem lookahead_hit (hit : lookahead sequence input = .hit) :
    sequence ≠ [] ∧ sequence <+: input := by
  unfold lookahead at hit
  by_cases unused : sequence = []
  · rw [if_pos unused] at hit
    cases hit
  · rw [if_neg unused] at hit
    by_cases starts : sequence <+: input
    · exact ⟨unused, starts⟩
    · rw [if_neg starts] at hit
      split at hit <;> cases hit

theorem lookahead_cut (cut : lookahead sequence input = .cut) :
    ¬ sequence <+: input ∧ input <+: sequence := by
  unfold lookahead at cut
  by_cases unused : sequence = []
  · rw [if_pos unused] at cut
    cases cut
  · rw [if_neg unused] at cut
    by_cases starts : sequence <+: input
    · rw [if_pos starts] at cut
      cases cut
    · rw [if_neg starts] at cut
      split at cut
      · next shorter => exact ⟨starts, shorter⟩
      · cases cut

theorem lookahead_miss (miss : lookahead sequence input = .miss) (used : sequence ≠ []) :
    ¬ sequence <+: input ∧ ¬ input <+: sequence := by
  unfold lookahead at miss
  rw [if_neg used] at miss
  by_cases starts : sequence <+: input
  · rw [if_pos starts] at miss
    cases miss
  · rw [if_neg starts] at miss
    split at miss
    · cases miss
    · next longer => exact ⟨starts, longer⟩

/-- A choice that was made stays the same when the input is continued. -/
theorem select_append {α : Type} {onHit onMiss onMiss' : Option α} {result : α}
    (made : (lookahead sequence input).select onHit onMiss = some result) (more : Bytes)
    (later : onMiss = some result → onMiss' = some result) :
    (lookahead sequence (input ++ more)).select onHit onMiss' = some result := by
  cases outcome : lookahead sequence input with
  | hit =>
    rw [outcome] at made
    rw [lookahead_append (by rw [outcome]; decide), outcome]
    exact made
  | miss =>
    rw [outcome] at made
    rw [lookahead_append (by rw [outcome]; decide), outcome]
    exact later made
  | cut =>
    rw [outcome] at made
    cases made

/-- A choice was made for one of its two alternatives. -/
theorem select_cases {α : Type} {onHit onMiss : Option α} {result : α}
    (made : (lookahead sequence input).select onHit onMiss = some result) :
    (sequence ≠ [] ∧ sequence <+: input ∧ onHit = some result) ∨ onMiss = some result := by
  cases outcome : lookahead sequence input with
  | hit =>
    rw [outcome] at made
    exact .inl ⟨(lookahead_hit outcome).1, (lookahead_hit outcome).2, made⟩
  | miss =>
    rw [outcome] at made
    exact .inr made
  | cut =>
    rw [outcome] at made
    cases made

/-! ## Tokens -/

section Tokens

variable {dialect : Dialect}

theorem nextPlain_append {found : Option UInt8} {chr : UInt8} {rest : Bytes}
    {result : ParseState × Nat} (decided : nextPlain dialect found chr rest = some result)
    (more : Bytes) : nextPlain dialect found chr (rest ++ more) = some result := by
  cases found with
  | none => exact select_append decided more fun later => select_append later more id
  | some enclosing =>
    simp only [nextPlain] at decided ⊢
    by_cases encloses : chr = enclosing
    · rw [if_pos encloses] at decided ⊢
      cases rest with
      | nil => cases decided
      | cons second tail =>
        simp only [cons_append] at decided ⊢
        by_cases doubled : second = enclosing
        · rw [if_pos doubled] at decided ⊢
          exact decided
        · rw [if_neg doubled] at decided ⊢
          exact select_append decided more fun later => select_append later more id
    · rw [if_neg encloses] at decided ⊢
      exact decided

variable {input : Bytes} {state following : ParseState}

/-- A recognised token does not depend on what follows the input. -/
theorem next_append {result : ParseState × Nat} (decided : next dialect state input = some result)
    (more : Bytes) :
    next dialect state (input ++ more) = some result := by
  cases input with
  | nil => cases state <;> cases decided
  | cons chr rest =>
    cases state with
    | skip rows =>
      simp only [next, cons_append] at decided ⊢
      by_cases escape : some chr = escapedChar dialect
      · rw [if_pos escape] at decided ⊢
        cases rest with
        | nil => cases decided
        | cons second tail => exact decided
      · rw [if_neg escape] at decided ⊢
        exact select_append decided more id
    | begin => exact decided
    | linePrefix =>
      simp only [next, cons_append] at decided ⊢
      by_cases unused : dialect.linesStartingBy = []
      · rw [if_pos unused] at decided ⊢
        exact decided
      · rw [if_neg unused] at decided ⊢
        exact select_append decided more id
    | beginOfField => exact decided
    | field found =>
      simp only [next, cons_append] at decided ⊢
      by_cases escape : some chr = escapedChar dialect
      · rw [if_pos escape] at decided ⊢
        cases rest with
        | nil => cases decided
        | cons second tail =>
          simp only [cons_append] at decided ⊢
          split at decided
          · next continues => rw [if_pos continues]; exact decided
          · next plain =>
            rw [if_neg plain]
            exact nextPlain_append decided more
      · rw [if_neg escape] at decided ⊢
        exact nextPlain_append decided more

/-- A token of a field has at least one byte and lies in the input. -/
theorem nextPlain_length {found : Option UInt8} {chr : UInt8} {rest : Bytes} {length : Nat}
    (decided : nextPlain dialect found chr rest = some (following, length)) :
    0 < length ∧ length ≤ rest.length + 1 := by
  have field : ∀ {state : ParseState},
      some (state, 1) = some (following, length) → 0 < length ∧ length ≤ rest.length + 1 := by
    intro state same
    cases same
    omega
  cases found with
  | none =>
    rcases select_cases decided with ⟨used, starts, same⟩ | later
    · cases same
      exact ⟨length_pos_of_ne_nil used, starts.length_le⟩
    · rcases select_cases later with ⟨used, starts, same⟩ | same
      · cases same
        exact ⟨length_pos_of_ne_nil used, starts.length_le⟩
      · exact field same
  | some enclosing =>
    simp only [nextPlain] at decided
    by_cases encloses : chr = enclosing
    · rw [if_pos encloses] at decided
      cases rest with
      | nil => cases decided
      | cons second tail =>
        simp only [] at decided
        by_cases doubled : second = enclosing
        · rw [if_pos doubled] at decided
          cases decided
          exact ⟨Nat.two_pos, Nat.le_add_left _ _⟩
        · rw [if_neg doubled] at decided
          rcases select_cases decided with ⟨used, starts, same⟩ | later
          · cases same
            exact ⟨Nat.succ_pos _, Nat.succ_le_succ starts.length_le⟩
          · rcases select_cases later with ⟨used, starts, same⟩ | same
            · cases same
              exact ⟨Nat.succ_pos _, Nat.succ_le_succ starts.length_le⟩
            · exact field same
    · rw [if_neg encloses] at decided
      exact field decided

/-- A token lies in the input and has a byte, unless it lowers the rank of the state. -/
theorem next_length {length : Nat} (decided : next dialect state input = some (following, length)) :
    length ≤ input.length ∧ (0 < length ∨ following.rank < state.rank) := by
  cases input with
  | nil => cases state <;> cases decided
  | cons chr rest =>
    cases state with
    | skip rows =>
      simp only [next] at decided
      by_cases escape : some chr = escapedChar dialect
      · rw [if_pos escape] at decided
        cases rest with
        | nil => cases decided
        | cons second tail =>
          cases decided
          exact ⟨Nat.le_add_left _ _, .inl Nat.two_pos⟩
      · rw [if_neg escape] at decided
        rcases select_cases decided with ⟨used, starts, same⟩ | same
        · cases same
          exact ⟨starts.length_le, .inl (length_pos_of_ne_nil used)⟩
        · cases same
          exact ⟨Nat.le_add_left _ _, .inl Nat.one_pos⟩
    | begin =>
      cases decided
      exact ⟨Nat.zero_le _, .inr (by decide)⟩
    | linePrefix =>
      simp only [next] at decided
      by_cases unused : dialect.linesStartingBy = []
      · rw [if_pos unused] at decided
        cases decided
        exact ⟨Nat.zero_le _, .inr (by decide)⟩
      · rw [if_neg unused] at decided
        rcases select_cases decided with ⟨used, starts, same⟩ | same
        · cases same
          exact ⟨starts.length_le, .inl (length_pos_of_ne_nil used)⟩
        · cases same
          exact ⟨Nat.le_add_left _ _, .inl Nat.one_pos⟩
    | beginOfField =>
      simp only [next] at decided
      split at decided
      · cases decided
        exact ⟨Nat.le_add_left _ _, .inl Nat.one_pos⟩
      · cases decided
        exact ⟨Nat.zero_le _, .inr (by decide)⟩
    | field found =>
      have plain : nextPlain dialect found chr rest = some (following, length) →
          length ≤ (chr :: rest).length ∧ (0 < length ∨ following.rank < 0) :=
        fun result => ⟨(nextPlain_length result).2, .inl (nextPlain_length result).1⟩
      simp only [next] at decided
      by_cases escape : some chr = escapedChar dialect
      · rw [if_pos escape] at decided
        cases rest with
        | nil => cases decided
        | cons second tail =>
          simp only [] at decided
          split at decided
          · cases decided
            exact ⟨Nat.le_add_left _ _, .inl Nat.two_pos⟩
          · exact plain decided
      · rw [if_neg escape] at decided
        exact plain decided

/-! ## The rows of a stream -/

theorem rank_le_three (state : ParseState) : state.rank ≤ 3 := by
  cases state <;> simp [ParseState.rank]

/-- Enough fuel finds every row. -/
theorem parse_eq {fuel : Nat} {offset : Nat} (enough : 4 * input.length + state.rank < fuel) :
    parse dialect fuel state offset input = rowStartsFrom dialect state offset input := by
  have stable : ∀ {first second : Nat} {state : ParseState} {offset : Nat} {input : Bytes},
      4 * input.length + state.rank < first → 4 * input.length + state.rank < second →
      parse dialect first state offset input = parse dialect second state offset input := by
    intro first
    induction first with
    | zero =>
      intro second state offset input impossible
      exact absurd impossible (Nat.not_lt_zero _)
    | succ first ih =>
      intro second state offset input enoughFirst enoughSecond
      cases second with
      | zero => exact absurd enoughSecond (Nat.not_lt_zero _)
      | succ second =>
        unfold parse
        cases token : next dialect state input with
        | none => rfl
        | some result =>
          obtain ⟨following, length⟩ := result
          obtain ⟨inside, progress⟩ := next_length token
          have rankBound := rank_le_three following
          have shorter : 4 * (input.drop length).length + following.rank <
              4 * input.length + state.rank := by
            rw [length_drop]
            omega
          exact congrArg _ (ih (by omega) (by omega))
  exact stable enough (Nat.lt_succ_self _)

theorem rowStartsFrom_none {offset : Nat} (undecided : next dialect state input = none) :
    rowStartsFrom dialect state offset input = [] := by
  unfold rowStartsFrom parse
  rw [undecided]

/-- One token of the input, whatever follows it. -/
theorem rowStartsFrom_append {offset length : Nat}
    (token : next dialect state input = some (following, length)) (more : Bytes) :
    rowStartsFrom dialect state offset (input ++ more) =
      (if state = .begin then [offset] else []) ++
        rowStartsFrom dialect following (offset + length) (input.drop length ++ more) := by
  obtain ⟨inside, progress⟩ := next_length token
  have rankBound := rank_le_three following
  have rest : (input ++ more).drop length = input.drop length ++ more :=
    drop_append_of_le_length inside
  rw [rowStartsFrom, parse, next_append token more]
  simp only [rest]
  rw [parse_eq]
  rw [length_append, length_append, length_drop]
  omega

end Tokens

end Scanner

end MariadbShell.ImportTable
