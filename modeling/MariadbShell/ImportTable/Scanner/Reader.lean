import MariadbShell.ImportTable.Scanner.Parse

/-!
# Reading ahead in a block

What looking for a sequence does to a reader. The bytes that are read next stay the
same unless the sequence is found; a failed search may leave bytes of the block on
the stack, all but the last of which belong to the sequence.
-/

namespace MariadbShell.ImportTable

open List Lib.Search

namespace Scanner

namespace Reader

variable {chr : UInt8} {reader : Reader}

theorem get_of_unread {rest : Bytes} (nonempty : reader.unread = chr :: rest) :
    ∃ stack data, reader.get = (some chr, ⟨stack, data, reader.endOfBlock⟩) ∧
      stack ++ data = rest ∧ stack.length = reader.stack.length - 1 := by
  obtain ⟨stack, data, endOfBlock⟩ := reader
  cases stack with
  | cons first stack =>
    obtain ⟨sameFirst, sameRest⟩ := List.cons.inj nonempty
    refine ⟨stack, data, ?_, sameRest, rfl⟩
    rw [← sameFirst]
    rfl
  | nil =>
    cases data with
    | nil => cases nonempty
    | cons first data =>
      obtain ⟨sameFirst, sameRest⟩ := List.cons.inj nonempty
      refine ⟨[], data, ?_, sameRest, rfl⟩
      rw [← sameFirst]
      rfl

theorem get_of_nil (empty : reader.unread = []) : reader.get = (none, ⟨[], [], true⟩) := by
  obtain ⟨stack, data, endOfBlock⟩ := reader
  obtain ⟨noStack, noData⟩ := append_eq_nil_iff.mp empty
  simp only at noStack noData
  rw [noStack, noData]
  rfl

theorem foldl_unget (matched : Bytes) (reader : Reader) :
    matched.foldl unget reader =
      ⟨matched.reverse ++ reader.stack, reader.data, reader.endOfBlock⟩ := by
  induction matched generalizing reader with
  | nil => rfl
  | cons last others ih =>
    rw [foldl_cons, ih, reverse_cons, append_assoc]
    rfl

/-- Bytes that a failed match leaves on the stack in addition to those that were there. -/
def Extended (before after : Nat) (stack sequence : Bytes) : Prop :=
  after = before ∨ (after ≤ sequence.length ∧ stack.dropLast <+: sequence)

/-- The next byte of a block that has not ended. -/
theorem get_running {rest : Bytes} (running : reader.endOfBlock = false)
    (nonempty : reader.unread = chr :: rest) :
    ∃ after, reader.get = (some chr, after) ∧ after.endOfBlock = false ∧ after.unread = rest ∧
      after.stack.length = reader.stack.length - 1 := by
  obtain ⟨stack, data, read, split, size⟩ := get_of_unread nonempty
  rw [running] at read
  exact ⟨_, read, rfl, split, size⟩

/-- The bytes that the sequence and the block have in common are matched. -/
theorem matchRest_append (common rest matched : Bytes) {reader : Reader} {others : Bytes}
    (running : reader.endOfBlock = false) (unread : reader.unread = common ++ others) :
    ∃ after : Reader, matchRest (common ++ rest) matched reader =
        matchRest rest (common.reverse ++ matched) after ∧
      after.endOfBlock = false ∧ after.unread = others ∧
      after.stack.length = reader.stack.length - common.length := by
  induction common generalizing matched reader with
  | nil => exact ⟨reader, rfl, running, unread, rfl⟩
  | cons chr common ih =>
    obtain ⟨next, read, running', unread', size⟩ := get_running running unread
    obtain ⟨after, same, running'', rest', size'⟩ := ih (chr :: matched) running' unread'
    refine ⟨after, ?_, running'', rest', ?_⟩
    · rw [reverse_cons, append_assoc, singleton_append, ← same, cons_append]
      simp only [matchRest, read, if_true]
    · rw [size', size, length_cons]
      omega

/-- Sequences of which neither starts the other differ in a byte. -/
theorem exists_diverging {left right : Bytes} (absent : ¬ left <+: right)
    (longer : ¬ right <+: left) :
    ∃ common expected rest chr others, left = common ++ expected :: rest ∧
      right = common ++ chr :: others ∧ chr ≠ expected := by
  induction left generalizing right with
  | nil => exact absurd nil_prefix absent
  | cons expected rest ih =>
    cases right with
    | nil => exact absurd nil_prefix longer
    | cons chr others =>
      by_cases same : chr = expected
      · subst same
        rw [cons_prefix_cons, not_and] at absent longer
        obtain ⟨common, expected, rest, other, others, rfl, rfl, differs⟩ :=
          ih (absent rfl) (longer rfl)
        exact ⟨chr :: common, expected, rest, other, others, rfl, rfl, differs⟩
      · exact ⟨[], expected, rest, chr, others, rfl, rfl, same⟩

/-! ## Looking for a sequence -/

theorem same_some_iff {expected : Option UInt8} :
    same (some chr) expected = true ↔ some chr = expected := by
  simp [same]

section

variable (running : reader.endOfBlock = false)

include running

variable {sequence : Bytes}

theorem lookFor_hit (hit : lookahead sequence (chr :: reader.unread) = .hit) :
    ∃ after, reader.lookFor (some chr) sequence = (.hit, after) ∧ after.endOfBlock = false ∧
      after.unread = (chr :: reader.unread).drop sequence.length ∧
      after.stack.length = reader.stack.length + 1 - sequence.length := by
  obtain ⟨used, starts⟩ := lookahead_hit hit
  obtain ⟨first, tail, rfl⟩ := exists_cons_of_ne_nil used
  obtain ⟨rfl, others, unread⟩ := cons_prefix_cons.mp starts
  obtain ⟨after, found, running', rest, size⟩ := matchRest_append tail [] [] running unread.symm
  refine ⟨after, ?_, running', ?_, ?_⟩
  · unfold lookFor contains
    rw [head?_cons, if_pos (same_some_iff.mpr rfl), tail_cons, ← append_nil tail, found]
    rfl
  · rw [rest, ← unread, length_cons, drop_succ_cons, drop_left]
  · rw [size, length_cons]
    omega

theorem lookFor_cut (cut : lookahead sequence (chr :: reader.unread) = .cut) :
    reader.lookFor (some chr) sequence = (.cut, ⟨reader.unread, [], true⟩) := by
  obtain ⟨absent, more, shape⟩ := lookahead_cut cut
  cases more with
  | nil => exact absurd (by rw [← shape, append_nil]) absent
  | cons expected more =>
    obtain ⟨after, failed, -, unread, -⟩ :=
      matchRest_append reader.unread (expected :: more) [] running (append_nil _).symm
    unfold lookFor contains
    rw [← shape, cons_append, head?_cons, if_pos (same_some_iff.mpr rfl), tail_cons, failed]
    simp only [matchRest, get_of_nil unread, reduceCtorEq, if_false, if_true, foldl_unget]
    rw [append_nil, append_nil, reverse_reverse]

theorem lookFor_miss (miss : lookahead sequence (chr :: reader.unread) = .miss) :
    ∃ after, reader.lookFor (some chr) sequence = (.miss, after) ∧ after.endOfBlock = false ∧
      after.unread = reader.unread ∧
      Extended reader.stack.length after.stack.length after.stack sequence.tail := by
  by_cases sameFirst : some chr = sequence.head?
  · cases sequence with
    | nil => cases sameFirst
    | cons first tail =>
      obtain ⟨absent, longer⟩ := lookahead_miss miss (cons_ne_nil _ _)
      cases Option.some.inj sameFirst
      rw [cons_prefix_cons, not_and] at absent longer
      obtain ⟨common, expected, rest, other, others, rfl, unread, differs⟩ :=
        exists_diverging (absent rfl) (longer rfl)
      obtain ⟨middle, stops, running', unread', size⟩ :=
        matchRest_append common (expected :: rest) [] running unread
      obtain ⟨last, read, running'', unread'', size'⟩ := get_running running' unread'
      refine ⟨⟨common ++ other :: last.stack, last.data, false⟩, ?_, rfl, ?_, ?_⟩
      · unfold lookFor contains
        rw [if_pos (same_some_iff.mpr sameFirst), tail_cons, stops]
        simp only [matchRest, read, Option.some.injEq, differs, if_false, running'', foldl_unget,
          Bool.false_eq_true, append_nil, reverse_reverse, ungetChr, unget, Option.getD_some]
      · rw [unread, ← unread'']
        exact append_assoc _ (other :: last.stack) _
      · by_cases used : reader.stack.length ≤ common.length
        -- the stack was used up, and the byte that differs comes from the block
        · have empty : last.stack = [] := eq_nil_of_length_eq_zero (by omega)
          rw [empty, tail_cons]
          refine .inr ⟨?_, ?_⟩
          · simp
          · rw [dropLast_concat]
            exact prefix_append _ _
        · refine .inl ?_
          rw [length_append, length_cons]
          omega
  · refine ⟨reader, ?_, running, rfl, .inl rfl⟩
    unfold lookFor
    rw [if_neg (fun found => sameFirst (same_some_iff.mp found))]

end

end Reader

end Scanner

end MariadbShell.ImportTable
