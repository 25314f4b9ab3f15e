import MariadbShell.ImportTable.Scanner.Step

/-!
# The loops of the scanner

A loop over the data of a block passes whole tokens of the parse, and stops with the
data used up or with the state of the parse that its result stands for.
-/

namespace MariadbShell.ImportTable

open List

namespace Scanner

/-! ## The data only gets shorter -/

namespace Reader

variable {reader after : Reader}

theorem get_data_le {chr : Option UInt8} (read : reader.get = (chr, after)) :
    after.data.length ≤ reader.data.length := by
  obtain ⟨stack, data, endOfBlock⟩ := reader
  cases stack with
  | cons first stack =>
    cases read
    exact Nat.le_refl _
  | nil =>
    cases data with
    | cons first data =>
      cases read
      exact Nat.le_succ _
    | nil =>
      cases read
      exact Nat.le_refl _

theorem matchRest_data_le {rest matched : Bytes} {found : Bool}
    (searched : matchRest rest matched reader = (found, after)) :
    after.data.length ≤ reader.data.length := by
  induction rest generalizing matched reader with
  | nil =>
    cases searched
    exact Nat.le_refl _
  | cons expected rest ih =>
    unfold matchRest at searched
    cases read : reader.get with
    | mk chr next =>
      have shorter := get_data_le read
      simp only [read] at searched
      split at searched
      · exact (ih searched).trans shorter
      · rw [foldl_unget] at searched
        cases searched
        split
        · exact shorter
        · exact shorter

theorem lookFor_data_le {chr : Option UInt8} {sequence : Bytes} {outcome : Match}
    (searched : reader.lookFor chr sequence = (outcome, after)) :
    after.data.length ≤ reader.data.length := by
  unfold lookFor contains at searched
  cases rest : matchRest sequence.tail [] reader with
  | mk found next =>
    have shorter := matchRest_data_le rest
    rw [rest] at searched
    split at searched
    · cases found with
      | true =>
        cases searched
        exact shorter
      | false =>
        simp only [] at searched
        split at searched
        · cases searched
          exact shorter
        · cases searched
          exact shorter
    · cases searched
      exact Nat.le_refl _

end Reader

def Iteration.reader {α : Type} : Iteration α → Reader
  | .stop _ reader => reader
  | .again reader => reader

section DataLength

open Reader

variable (dialect : Dialect) (reader : Reader)

theorem skipRowStep_data_le :
    (skipRowStep dialect reader).reader.data.length ≤ reader.data.length := by
  unfold skipRowStep
  cases read : reader.get with
  | mk chr after =>
    simp only []
    split
    · cases escaped : after.get with
      | mk chr' after' =>
        have shorter := (get_data_le escaped).trans (get_data_le read)
        split <;> exact shorter
    · cases searched : after.lookFor chr dialect.linesTerminatedBy with
      | mk outcome after' =>
        have shorter := (lookFor_data_le searched).trans (get_data_le read)
        cases outcome with
        | hit => exact shorter
        | miss | cut =>
          simp only [Iteration.reader]
          split <;> exact shorter

theorem skipLineStartStep_data_le :
    (skipLineStartStep dialect reader).reader.data.length ≤ reader.data.length := by
  unfold skipLineStartStep
  cases read : reader.get with
  | mk chr after =>
    simp only []
    cases searched : after.lookFor chr dialect.linesStartingBy with
    | mk outcome after' =>
      have shorter := (lookFor_data_le searched).trans (get_data_le read)
      cases outcome with
      | hit => exact shorter
      | miss | cut =>
        simp only [Iteration.reader]
        split <;> exact shorter

theorem afterEnclosure_data_le (found : Option UInt8) :
    (afterEnclosure dialect found reader).reader.data.length ≤ reader.data.length := by
  unfold afterEnclosure
  cases read : reader.get with
  | mk chr after =>
    have once := get_data_le read
    simp only []
    split
    · exact once
    · split
      · exact once
      · cases lines : after.lookFor chr dialect.linesTerminatedBy with
        | mk outcome after' =>
          have shorter := (lookFor_data_le lines).trans once
          cases outcome with
          | hit | cut => exact shorter
          | miss =>
            simp only []
            cases fields : after'.lookFor chr dialect.fieldsTerminatedBy with
            | mk outcome' after'' =>
              have shortest := (lookFor_data_le fields).trans shorter
              cases outcome' <;> exact shortest

theorem scanEnclosure_data_le (found chr : Option UInt8) :
    (scanEnclosure dialect found chr reader).reader.data.length ≤ reader.data.length := by
  unfold scanEnclosure
  split
  · exact afterEnclosure_data_le dialect reader found
  · split
    · cases fields : reader.lookFor chr dialect.fieldsTerminatedBy with
      | mk outcome after =>
        have shorter := lookFor_data_le fields
        cases outcome <;> exact shorter
    · exact Nat.le_refl _

theorem scanPlain_data_le (found chr : Option UInt8) :
    (scanPlain dialect found chr reader).reader.data.length ≤ reader.data.length := by
  unfold scanPlain
  split
  · cases lines : reader.lookFor chr dialect.linesTerminatedBy with
    | mk outcome after =>
      have shorter := lookFor_data_le lines
      cases outcome with
      | hit | cut => exact shorter
      | miss => exact (scanEnclosure_data_le dialect after found chr).trans shorter
  · exact scanEnclosure_data_le dialect reader found chr

theorem scanFieldStep_data_le (found : Option UInt8) :
    (scanFieldStep dialect found reader).reader.data.length ≤ reader.data.length := by
  unfold scanFieldStep
  cases read : reader.get with
  | mk chr after =>
    simp only []
    split
    · cases escaped : after.get with
      | mk chr' after' =>
        have shorter := (get_data_le escaped).trans (get_data_le read)
        split
        · exact shorter
        · split
          · exact shorter
          · exact (scanPlain_data_le dialect _ found _).trans shorter
    · exact (scanPlain_data_le dialect _ found _).trans (get_data_le read)

theorem whileData_data_le {α : Type} {body : Reader → Iteration α} {idle : α}
    (shrinks : ∀ reader, (body reader).reader.data.length ≤ reader.data.length) (fuel : Nat) :
    (whileData body idle fuel reader).2.data.length ≤ reader.data.length := by
  induction fuel generalizing reader with
  | zero => exact Nat.le_refl _
  | succ fuel ih =>
    have once := shrinks reader
    unfold whileData
    split
    · exact Nat.le_refl _
    · split
      · next stopped => rw [stopped] at once; exact once
      · next again => rw [again] at once; exact (ih _).trans once

end DataLength

/-! ## Whole tokens -/

/-- From one place of a stream to a later one the parse finds the given row starts. -/
def Passes (dialect : Dialect) (limit : Nat) (state : ParseState) (unread : Bytes)
    (starts : List Nat) (state' : ParseState) (unread' : Bytes) : Prop :=
  unread'.length ≤ unread.length ∧ ∀ more,
    rowStartsFrom dialect state (limit - unread.length) (unread ++ more) =
      starts ++ rowStartsFrom dialect state' (limit - unread'.length) (unread' ++ more)

namespace Passes

variable {dialect : Dialect} {limit : Nat} {state state' state'' : ParseState}
  {unread unread' unread'' : Bytes} {starts starts' : List Nat}

theorem refl : Passes dialect limit state unread [] state unread :=
  ⟨Nat.le_refl _, fun _ => rfl⟩

theorem trans (first : Passes dialect limit state unread starts state' unread')
    (second : Passes dialect limit state' unread' starts' state'' unread'') :
    Passes dialect limit state unread (starts ++ starts') state'' unread'' := by
  refine ⟨second.1.trans first.1, fun more => ?_⟩
  rw [first.2, second.2, append_assoc]

theorem token {length : Nat} (inside : unread.length ≤ limit)
    (decided : next dialect state unread = some (state', length)) :
    Passes dialect limit state unread (if state = .begin then [limit - unread.length] else [])
      state' (unread.drop length) := by
  obtain ⟨bound, -⟩ := next_length decided
  refine ⟨?_, fun more => ?_⟩
  · rw [length_drop]
    exact Nat.sub_le _ _
  · rw [rowStartsFrom_append decided more, length_drop]
    have position : limit - unread.length + length = limit - (unread.length - length) := by
      omega
    rw [position]

/-- A token of a state in which no row starts. -/
theorem silent {length : Nat} (inside : unread.length ≤ limit) (notBegin : state ≠ .begin)
    (decided : next dialect state unread = some (state', length)) :
    Passes dialect limit state unread [] state' (unread.drop length) := by
  have passes := token inside decided
  rw [if_neg notBegin] at passes
  exact passes

end Passes

/-! ## Running a loop -/

/-- The two ways in which a loop in a state of the parse ends. -/
inductive LoopEnd {α : Type} (dialect : Dialect) (limit : Nat) (state : ParseState) (idle : α)
    (target : α → ParseState) (unread : Bytes) : α × Reader → Prop
  | used {reader : Reader} (empty : reader.data = []) (good : Good dialect state reader)
      (passes : Passes dialect limit state unread [] state reader.unread) :
      LoopEnd dialect limit state idle target unread (idle, reader)
  | left {result : α} {reader : Reader} (busy : result ≠ idle)
      (running : reader.endOfBlock = false) (good : Good dialect (target result) reader)
      (passes : Passes dialect limit state unread [] (target result) reader.unread)
      (progress : 4 * reader.unread.length + (target result).rank <
        4 * unread.length + state.rank) :
      LoopEnd dialect limit state idle target unread (result, reader)

theorem whileData_loopEnd {α : Type} {dialect : Dialect} {limit : Nat} {state : ParseState}
    {idle : α} {target : α → ParseState} {body : Reader → Iteration α}
    (notBegin : state ≠ .begin)
    (simulates : ∀ reader : Reader, reader.endOfBlock = false → reader.unread ≠ [] →
      Good dialect state reader → Simulates dialect state idle target reader.unread (body reader))
    (fuel : Nat) (reader : Reader) (running : reader.endOfBlock = false)
    (good : Good dialect state reader) (inside : reader.unread.length ≤ limit)
    (enough : reader.unread.length < fuel) :
    LoopEnd dialect limit state idle target reader.unread (whileData body idle fuel reader) := by
  induction fuel generalizing reader with
  | zero => exact absurd enough (Nat.not_lt_zero _)
  | succ fuel ih =>
    unfold whileData
    by_cases empty : reader.data = []
    · rw [if_pos empty]
      exact .used empty good .refl
    · rw [if_neg empty]
      have nonempty : reader.unread ≠ [] := fun none =>
        empty (append_eq_nil_iff.mp none).2
      have step := simulates reader running nonempty good
      generalize body reader = iteration at step
      cases step with
      | cut undecided shape good' =>
        have pushed : Reader.unread ⟨reader.unread, [], true⟩ = reader.unread := append_nil _
        have used : LoopEnd dialect limit state idle target reader.unread
            (idle, ⟨reader.unread, [], true⟩) :=
          .used rfl good' (by rw [pushed]; exact .refl)
        rcases shape with again | stopped
        · rw [again]
          cases fuel with
          | zero => exact used
          | succ fuel =>
            exact used
        · rw [stopped]
          exact used
      | @stay length reader' token running' rest good' =>
        obtain ⟨bound, progress⟩ := next_length token
        have passes := Passes.silent inside notBegin token
        have shorter : reader'.unread.length = reader.unread.length - length := by
          rw [rest, length_drop]
        rw [← rest] at passes
        have ending := ih reader' running' good' (by omega) (by omega)
        simp only []
        generalize whileData body idle fuel reader' = result at ending
        cases ending with
        | used empty' good'' passes' => exact .used empty' good'' (passes.trans passes')
        | left busy running'' good'' passes' progress' =>
          exact .left busy running'' good'' (passes.trans passes') (by omega)
      | @leave length reader' result token busy running' rest good' =>
        obtain ⟨bound, progress⟩ := next_length token
        have passes := Passes.silent inside notBegin token
        have shorter : reader'.unread.length = reader.unread.length - length := by
          rw [rest, length_drop]
        have rankBound := rank_le_three (target result)
        rw [← rest] at passes
        exact .left busy running' good' passes (by omega)

end Scanner

end MariadbShell.ImportTable
