import MariadbShell.ImportTable.Scanner.Reader

/-!
# Quiet stacks

The invariant of the scanner: no line terminator that the parse could meet ends
before the end of the stack. It makes the stack empty whenever a row begins, so that
the position in the block is the position of the row.
-/

namespace MariadbShell.ImportTable

open List Lib.Search

namespace Scanner

/-- Terminators at `start` or later do not end before the first `size` bytes do. -/
def Quiet (terminator unread : Bytes) (size start : Nat) : Prop :=
  ∀ offset, start ≤ offset → OccursAt terminator unread offset → size ≤ offset + terminator.length

namespace Quiet

variable {terminator unread : Bytes} {size start : Nat}

theorem weaken {later : Nat} (quiet : Quiet terminator unread size start)
    (order : start ≤ later) : Quiet terminator unread size later :=
  fun offset above occurs => quiet offset (order.trans above) occurs

theorem drop (quiet : Quiet terminator unread size start) (count : Nat) :
    Quiet terminator (unread.drop count) (size - count) (start - count) := by
  intro offset above occurs
  have bound := quiet (count + offset) (by omega) (occursAt_drop.mp occurs)
  omega

/-- Short stacks are quiet. -/
theorem of_size_le (small : size ≤ start + terminator.length) :
    Quiet terminator unread size start :=
  fun offset above _ => by omega

section

variable (quiet : Quiet terminator unread size 0)

include quiet

/-- Bytes of a sequence without terminators extend a quiet stack. -/
theorem extend {stack data sequence : Bytes} (split : stack ++ data = unread)
    (extended : Reader.Extended size stack.length stack sequence)
    (absent : ¬ terminator <:+: sequence) : Quiet terminator unread stack.length 0 := by
  rcases extended with same | ⟨-, front⟩
  · rw [same]
    exact quiet
  · intro offset _ occurs
    by_contra early
    refine absent ?_
    have size_eq : stack.dropLast.length = stack.length - 1 := length_dropLast
    have inFront : OccursAt terminator stack.dropLast offset := by
      obtain ⟨last, shape⟩ : ∃ last, stack.dropLast ++ [last] = stack :=
        ⟨stack.getLast (ne_nil_of_length_pos (by omega)), dropLast_append_getLast _⟩
      rw [← split, ← shape, append_assoc] at occurs
      exact occurs.of_append (by omega)
    have infixFront : terminator <:+: stack.dropLast :=
      inFront.isInfix.trans (drop_suffix _ _).isInfix
    exact infixFront.trans front.isInfix

/-- A byte before the stack, where no terminator starts. -/
theorem cons {chr : UInt8} (absent : ¬ terminator <+: chr :: unread) :
    Quiet terminator (chr :: unread) (size + 1) 0 := by
  intro offset _ occurs
  cases offset with
  | zero => exact absurd occurs absent
  | succ offset =>
    have bound := quiet offset (Nat.zero_le _) occurs
    omega

/-- A byte before the stack, which no terminator may start at. -/
theorem cons_later {chr : UInt8} : Quiet terminator (chr :: unread) (size + 1) 1 := by
  intro offset above occurs
  cases offset with
  | zero => exact absurd above (Nat.not_succ_le_zero 0)
  | succ offset =>
    have bound := quiet offset (Nat.zero_le _) occurs
    omega

end

theorem of_absent (absent : ¬ terminator <:+: unread) : Quiet terminator unread size start :=
  fun _ _ occurs => absurd (occurs.isInfix.trans (drop_suffix _ _).isInfix) absent

/-- One byte that is read from a quiet stack is counted with it. -/
theorem after_get {before : Nat} (used : terminator ≠ [])
    (quiet : Quiet terminator unread before start) (size_eq : size = before - 1) :
    Quiet terminator unread (size + 1) start := by
  intro offset above occurs
  have bound := quiet offset above occurs
  have positive := length_pos_of_ne_nil used
  omega

/-- Everything was pushed back at the end of the block. -/
theorem pushedBack {input : Bytes} (quiet : Quiet terminator input input.length start) :
    Quiet terminator (Reader.unread ⟨input, [], true⟩) input.length start := by
  rw [Reader.unread, append_nil]
  exact quiet

/-- Input that follows the stack does not disturb it. -/
theorem append {stack : Bytes} (quiet : Quiet terminator stack stack.length start)
    (more : Bytes) : Quiet terminator (stack ++ more) stack.length start := by
  intro offset above occurs
  by_contra early
  exact early (quiet offset above (occurs.of_append (by omega)))

end Quiet

/-- The dialects for which the stack stays quiet. -/
structure Suitable (dialect : Dialect) : Prop where
  lines_ne : dialect.linesTerminatedBy ≠ []
  notInside : ¬ dialect.linesTerminatedBy <:+: dialect.fieldsTerminatedBy
  notEscape : ∀ chr, dialect.linesTerminatedBy = [chr] → escapedChar dialect = some chr →
    enclosedChar dialect ≠ some chr

/-- The invariant of a reader in a state of the parse. -/
def Good (dialect : Dialect) (state : ParseState) (reader : Reader) : Prop :=
  match state with
  | .begin => reader.stack = []
  | .linePrefix => reader.stack = [] ∨ reader.stack.length < dialect.linesStartingBy.length
  | .skip _ | .beginOfField | .field none =>
    Quiet dialect.linesTerminatedBy reader.unread reader.stack.length 0
  | .field (some _) => Quiet dialect.linesTerminatedBy reader.unread reader.stack.length 1

theorem Good.ofStackNil {dialect : Dialect} {state : ParseState} {reader : Reader}
    (empty : reader.stack = []) : Good dialect state reader := by
  have quiet : ∀ start,
      Quiet dialect.linesTerminatedBy reader.unread reader.stack.length start := by
    intro start
    rw [empty]
    exact Quiet.of_size_le (Nat.zero_le _)
  cases state with
  | begin => exact empty
  | linePrefix => exact .inl empty
  | skip | beginOfField => exact quiet 0
  | field found =>
    cases found with
    | none => exact quiet 0
    | some => exact quiet 1

/-- The next block leaves the invariant as it is. -/
theorem Good.nextBlock {dialect : Dialect} {state : ParseState} {stack : Bytes} {ended : Bool}
    (good : Good dialect state ⟨stack, [], ended⟩) (block : Bytes) :
    Good dialect state ⟨stack, block, false⟩ := by
  have quiet : ∀ start,
      Quiet dialect.linesTerminatedBy (stack ++ []) stack.length start →
        Quiet dialect.linesTerminatedBy (stack ++ block) stack.length start := by
    intro start before
    rw [append_nil] at before
    exact before.append block
  cases state with
  | begin => exact good
  | linePrefix => exact good
  | skip | beginOfField => exact quiet 0 good
  | field found =>
    cases found with
    | none => exact quiet 0 good
    | some => exact quiet 1 good

end Scanner

end MariadbShell.ImportTable
