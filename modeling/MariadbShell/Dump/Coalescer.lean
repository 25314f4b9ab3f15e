import MariadbShell.Dump.IntegerChunks

/-!
# Ranges that are coalesced

Ranges with estimates of their rows are given to the coalescer one after the other, and in the
end it is flushed. Each range that it returns is joined from consecutive ones. All ranges are
used once and in their order, the estimates are added up, and those of joined ranges are in the
accepted limits.
-/

namespace MariadbShell.Dump

open List

namespace ChunkCoalescer

variable (info : ChunkingInfo)

/-- The result of a call, with the number of rows, and what is accumulated then. -/
structure Coalesced where
  emitted : Option Accumulated
  flushed : Bool
  rest : Option Accumulated
deriving DecidableEq, Repr

def joinRange (current range : Accumulated) : Accumulated :=
  ⟨current.first, range.last, current.rows + range.rows⟩

/-- `coalesce`. -/
def coalesceRange (accumulated : Option Accumulated) (range : Accumulated) (final : Bool) :
    Coalesced :=
  match accumulated with
  | none => if final then ⟨some range, true, none⟩ else ⟨none, false, some range⟩
  | some current =>
    if readyToFlush info current.rows || !canCoalesce info current.rows range.rows ||
        addWouldOverflow current.rows range.rows then
      ⟨some current, false, some range⟩
    else if flushThresholdExceeded info (current.rows + range.rows) || final then
      ⟨some (joinRange current range), true, none⟩
    else ⟨none, false, some (joinRange current range)⟩

/-- The chunks of a column are made with these calls. -/
theorem coalesce_eq (accumulated : Option Accumulated) (range : Accumulated) (final : Bool) :
    coalesce info accumulated range.first range.last range.rows final =
      (⟨flush (coalesceRange info accumulated range final).emitted,
        (coalesceRange info accumulated range final).flushed⟩,
        (coalesceRange info accumulated range final).rest) := by
  cases accumulated with
  | none => cases final <;> rfl
  | some current =>
    unfold coalesce coalesceRange
    dsimp only
    split
    · rfl
    · split <;> rfl

/-- The ranges that are returned for a sequence of calls and a flush. -/
def run : Option Accumulated → List (Accumulated × Bool) → List Accumulated
  | accumulated, [] => accumulated.toList
  | accumulated, (range, final) :: more =>
    let result := coalesceRange info accumulated range final
    result.emitted.toList ++ run result.rest more

/-! ## Limits -/

theorem maxRows_eq : maxRows info = info.rowsPerChunk := by
  change (if info.rowsPerChunk ≤ 1 then 1 else info.rowsPerChunk) = info.rowsPerChunk
  have positive := UInt64.lt_iff_toNat_lt.mp info.positive
  split
  · next small =>
    exact UInt64.toNat_inj.mp (Nat.le_antisymm positive small)
  · rfl

theorem usedAccuracy_le : (usedAccuracy info).toNat ≤ info.accuracy.toNat := by
  change (if info.accuracy ≤ maxRows info - 1 then info.accuracy else maxRows info - 1).toNat ≤ _
  split
  · exact Nat.le_refl _
  · next large =>
    rw [UInt64.le_iff_toNat_le] at large
    omega

theorem maxAcceptedRows_le :
    (maxAcceptedRows info).toNat ≤ info.rowsPerChunk.toNat + info.accuracy.toNat := by
  have accuracy := usedAccuracy_le info
  have small := (maxRows info).toNat_lt
  have rest : (18446744073709551615 - maxRows info).toNat =
      18446744073709551615 - (maxRows info).toNat :=
    UInt64.toNat_sub_of_le _ _ (UInt64.le_iff_toNat_le.mpr (Nat.le_of_lt_succ small))
  unfold maxAcceptedRows
  rw [← maxRows_eq info]
  split
  · next large =>
    rw [UInt64.lt_iff_toNat_lt] at large
    change 18446744073709551615 ≤ _
    omega
  · rw [UInt64.toNat_add]
    exact Nat.le_trans (Nat.mod_le _ _) (Nat.add_le_add_left accuracy _)

/-- The rows of a range that can be joined, together with those that are accumulated. -/
theorem rows_le_of_canCoalesce {accumulated rows : UInt64}
    (can : canCoalesce info accumulated rows = true) :
    accumulated.toNat + rows.toNat ≤ (maxAcceptedRows info).toNat := by
  simp only [canCoalesce, Bool.and_eq_true, decide_eq_true_eq] at can
  obtain ⟨⟨-, bounded⟩, fits⟩ := can
  have difference := UInt64.toNat_sub_of_le _ _ bounded
  rw [UInt64.le_iff_toNat_le] at bounded fits
  omega

/-! ## Groups -/

structure IsMerged (group : List Accumulated) (merged : Accumulated) : Prop where
  first : group.head?.map Accumulated.first = some merged.first
  last : group.getLast?.map Accumulated.last = some merged.last
  rows : merged.rows.toNat = (group.map fun range => range.rows.toNat).sum
  accepted : 2 ≤ group.length → merged.rows.toNat ≤ info.rowsPerChunk.toNat + info.accuracy.toNat

/-- A group of ranges and what it is joined to, if there are any. -/
def Holds (group : List Accumulated) : Option Accumulated → Prop
  | none => group = []
  | some merged => IsMerged info group merged

theorem isMerged_singleton (range : Accumulated) : IsMerged info [range] range :=
  ⟨rfl, rfl, (Nat.add_zero _).symm, fun long => absurd long (Nat.not_succ_le_self 1)⟩

theorem IsMerged.join {group : List Accumulated} {current range : Accumulated}
    (merged : IsMerged info group current)
    (can : canCoalesce info current.rows range.rows = true) :
    IsMerged info (group ++ [range]) (joinRange current range) := by
  have bounded := rows_le_of_canCoalesce info can
  have small := (maxAcceptedRows info).toNat_lt
  have total : (current.rows + range.rows).toNat = current.rows.toNat + range.rows.toNat := by
    rw [UInt64.toNat_add, Nat.mod_eq_of_lt (by omega)]
  have nonempty : group ≠ [] := by
    rintro rfl
    exact nomatch merged.first
  refine ⟨?_, ?_, ?_, fun _ => ?_⟩
  · rw [head?_append_of_ne_nil _ nonempty]
    exact merged.first
  · rw [getLast?_concat]
    rfl
  · rw [map_append, sum_append, ← merged.rows]
    exact total
  · exact Nat.le_trans (Nat.le_of_eq total) (Nat.le_trans bounded (maxAcceptedRows_le info))

/-- In a call, the ranges so far and the new one are divided into those that are returned and
those that are kept. -/
theorem coalesceRange_spec {group : List Accumulated} {accumulated : Option Accumulated}
    (holds : Holds info group accumulated) (range : Accumulated) (final : Bool) :
    ∃ done kept, done ++ kept = group ++ [range] ∧
      Holds info done (coalesceRange info accumulated range final).emitted ∧
      Holds info kept (coalesceRange info accumulated range final).rest := by
  cases accumulated with
  | none =>
    cases holds
    cases final with
    | true => exact ⟨[range], [], rfl, isMerged_singleton info range, rfl⟩
    | false => exact ⟨[], [range], rfl, rfl, isMerged_singleton info range⟩
  | some current =>
    unfold coalesceRange
    dsimp only
    split
    · exact ⟨group, [range], rfl, holds, isMerged_singleton info range⟩
    · next small =>
      have can : canCoalesce info current.rows range.rows = true := by
        simp only [Bool.or_eq_true, Bool.not_eq_true', not_or, Bool.not_eq_false] at small
        exact small.1.2
      have joined := IsMerged.join info holds can
      split
      · exact ⟨group ++ [range], [], append_nil _, joined, rfl⟩
      · exact ⟨[], group ++ [range], rfl, rfl, joined⟩

theorem run_spec (inputs : List (Accumulated × Bool)) {group : List Accumulated}
    {accumulated : Option Accumulated} (holds : Holds info group accumulated) :
    ∃ groups : List (List Accumulated), groups.flatten = group ++ inputs.map Prod.fst ∧
      List.Forall₂ (IsMerged info) groups (run info accumulated inputs) := by
  induction inputs generalizing group accumulated with
  | nil =>
    cases accumulated with
    | none => exact ⟨[], by rw [show group = [] from holds]; rfl, .nil⟩
    | some merged => exact ⟨[group], by simp, .cons holds .nil⟩
  | cons input more ih =>
    obtain ⟨range, final⟩ := input
    obtain ⟨done, kept, parts, emitted, rest⟩ := coalesceRange_spec info holds range final
    obtain ⟨groups, flat, all⟩ := ih rest
    have inputs : done ++ groups.flatten = group ++ ((range, final) :: more).map Prod.fst := by
      rw [flat, ← append_assoc, parts, append_assoc]
      rfl
    unfold run
    dsimp only
    cases found : (coalesceRange info accumulated range final).emitted with
    | none =>
      rw [found] at emitted
      cases emitted
      exact ⟨groups, inputs, all⟩
    | some merged =>
      rw [found] at emitted
      exact ⟨done :: groups, inputs, .cons emitted all⟩

/--
The coalescer returns ranges that are joined from consecutive ones, without a gap and without a
range that is used twice.
-/
theorem run_groups (inputs : List (Accumulated × Bool)) :
    ∃ groups : List (List Accumulated), groups.flatten = inputs.map Prod.fst ∧
      List.Forall₂ (IsMerged info) groups (run info none inputs) :=
  @run_spec info inputs [] none rfl

end ChunkCoalescer

end MariadbShell.Dump
