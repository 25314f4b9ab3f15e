import MariadbShell.Dump.ChunkRanges
import MariadbShell.Lib.Traced

/-!
# What is computed while a column is chunked

The functions that chunk an integer column, with a trace of the additions and subtractions of
keys and of the ranges whose rows are estimated; these begin at the start of a chunk and end at
the greatest key at the latest. A signed column overflows when its keys are too far apart, and
when the greatest key is the greatest value of the type.
-/

namespace MariadbShell.Dump

open Lib Lib.MachineInt Traced KeyType

inductive ChunkEvent where
  /-- an addition or a subtraction of keys, with its exact result -/
  | computed (exact : Int)
  /-- the rows of a range of keys are estimated -/
  | probed (first last : Int)
deriving DecidableEq, Repr

abbrev Chunking (Value : Type) : Type := Traced ChunkEvent Value

/-! ## Keys -/

namespace KeyType

variable (type : KeyType)

def tracedAdd (left right : Int) : Chunking Int := do
  emit (.computed (left + right))
  return type.add left right

def tracedSub (left right : Int) : Chunking Int := do
  emit (.computed (left - right))
  return type.sub left right

def tracedEnsureNotZero (value : Int) : Chunking Int :=
  if value = 0 then type.tracedAdd value 1 else return value

/-- `is_single_value_step`. -/
def tracedIsSingleValueStep (step : Int) : Chunking Bool :=
  if step ≠ 0 then return (← type.tracedSub step 1) = 0 else return false

/-- `distance`. The addition for an integer type is one of unsigned numbers. -/
def tracedDistance (least greatest : Int) : Chunking Int := do
  let difference ← type.tracedSub greatest least
  match type with
  | .decimal digits => tracedAdd (.decimal digits) difference 1
  | _ => return saturatingNext (toUInt64 difference)

/-- `sum`. -/
def tracedSum (value addend : Int) : Chunking Int :=
  match type.limit with
  | none => type.tracedAdd value addend
  | some top => do
      if (← type.tracedSub top addend) ≤ value then return top else type.tracedAdd value addend

@[simp] theorem tracedAdd_value (left right : Int) :
    (type.tracedAdd left right).value = type.add left right := rfl

@[simp] theorem tracedSub_value (left right : Int) :
    (type.tracedSub left right).value = type.sub left right := rfl

@[simp] theorem tracedEnsureNotZero_value (value : Int) :
    (type.tracedEnsureNotZero value).value = ensureNotZero value := by
  unfold tracedEnsureNotZero ensureNotZero
  by_cases zero : value = 0
  · rw [if_pos zero, if_pos zero, zero]
    cases type <;> rfl
  · rw [if_neg zero, if_neg zero]
    rfl

@[simp] theorem tracedIsSingleValueStep_value (step : Int) :
    (type.tracedIsSingleValueStep step).value = type.isSingleValueStep step := by
  by_cases zero : step = 0
  · simp [tracedIsSingleValueStep, isSingleValueStep, zero]
  · simp only [tracedIsSingleValueStep, isSingleValueStep, previous, zero, ne_eq,
      not_false_eq_true, if_true, decide_true, Bool.true_and]
    rfl

@[simp] theorem tracedDistance_value (least greatest : Int) :
    (type.tracedDistance least greatest).value = type.distance least greatest := by
  cases type <;> rfl

@[simp] theorem tracedSum_value (value addend : Int) :
    (type.tracedSum value addend).value = type.sum value addend := by
  cases limit : type.limit with
  | none => simp [tracedSum, sum, limit]
  | some top =>
    simp only [tracedSum, sum, limit]
    exact value_ite (type.sub top addend ≤ value) (pure top) (type.tracedAdd value addend)

end KeyType

/-! ## Steps -/

namespace ChunkingInfo

variable (type : KeyType) (info : ChunkingInfo) (estimates : Estimates)

/-- The first phase of `adaptive_step_v2`. The debug log shows the width of each range. -/
def tracedExpand (start max : Int) : Nat → Int → Option (Int × UInt64) → Nat → Chunking Expansion
  | probes, range, underfilled, asked => do
      let right := min (← type.tracedSum start range) max
      let _ ← type.tracedSub right start
      emit (.probed start right)
      let rows := estimates asked
      if info.rowsPerChunk ≤ rows then return ⟨right, rows, underfilled, false, asked + 1⟩
      else if max ≤ right then return ⟨right, rows, some (right, rows), false, asked + 1⟩
      else
        match probes with
        | 0 => do
            emit (.probed start max)
            return ⟨max, estimates (asked + 1), some (right, rows), true, asked + 2⟩
        | probes + 1 => do
            tracedExpand start max probes (← type.tracedSum range range) (some (right, rows))
              (asked + 1)

def tracedChop (start : Int) :
    Nat → Int → Int → Bool → Nat → Chunking (Option (Int × UInt64 × Bool × Nat))
  | 0, _, _, _, _ => return none
  | rounds + 1, left, right, useReturned, asked => do
      emit (.probed start right)
      let rows := estimates asked
      let delta := if info.rowsPerChunk < rows then rows - info.rowsPerChunk
        else info.rowsPerChunk - rows
      if delta ≤ info.accuracy then return some (right, rows, true, asked + 1)
      else if right = start then return some (right, rows, useReturned, asked + 1)
      else if right ≤ left then return some (right, rows, true, asked + 1)
      else if info.rowsPerChunk < rows then do
        let shift ← type.tracedEnsureNotZero (type.half (← type.tracedSub right left))
        tracedChop start rounds left (← type.tracedSub right shift) useReturned (asked + 1)
      else do
        let shift := type.half (← type.tracedSub right left)
        tracedChop start rounds right (← type.tracedAdd right shift) useReturned (asked + 1)

def tracedStep (start right : Int) (rows : UInt64) (useReturned : Bool) (asked : Nat) :
    Chunking Step := do
  let size ← type.tracedEnsureNotZero (← type.tracedSub right start)
  return ⟨size, rows, useReturned, asked⟩

/-- `adaptive_step_v2`. -/
def tracedAdaptiveStep (start hint max : Int) (asked : Nat) : Chunking (Option Step) := do
  let (found, useReturned) := info.useUnderfilled start max
    (← tracedExpand type info estimates start max (adaptiveExpansionProbes - 1) hint none asked)
  if info.accepted < found.rows then
    let right ← type.tracedAdd start (type.half (← type.tracedSub found.right start))
    match ← tracedChop type info estimates start ((right - start).toNat + 1) start right useReturned
        found.asked with
    | none => return none
    | some (right, rows, useReturned, asked) =>
      return some (← tracedStep type start right rows useReturned asked)
  else return some (← tracedStep type start found.right found.rows useReturned found.asked)

def tracedNextStep (min max start : Int) (asked : Nat) : Chunking (Option Step) :=
  if info.useConstantStep type min max then
    return info.constantStep (info.estimatedStep type min max) asked
  else tracedAdaptiveStep type info estimates start (info.estimatedStep type min max) max asked

def tracedChunkEnd (max start : Int) (step : Step) : Chunking Int := do
  let offset ← type.tracedSub step.size 1
  if (← type.tracedSub max offset) < start then return max else type.tracedAdd start offset

/-- The coalescer expects a range to begin behind the accumulated one. -/
def tracedExpectedBegin (accumulated : Option Accumulated) (step : Step) : Chunking Unit :=
  match accumulated with
  | some current =>
    if chunksDeeper type info step then return ()
    else do
      let _ ← type.tracedAdd current.last 1
      return ()
  | none => return ()

/-- The loop of `chunk_integer_column`. The start of the next range is computed behind the
last range as well. -/
def tracedChunkLoop (min max : Int) :
    Nat → Int → Option Accumulated → Nat → Chunking (Option (List ChunkTask))
  | 0, _, _, _ => return none
  | rounds + 1, start, accumulated, asked => do
      match ← tracedNextStep type info estimates min max start asked with
      | none => return none
      | some step =>
        let _ ← type.tracedIsSingleValueStep step.size
        let last ← tracedChunkEnd type max start step
        let final : Bool := max ≤ last
        let next ← type.tracedAdd last 1
        tracedExpectedBegin type info accumulated step
        let (pushed, rest) := push type info accumulated start last step final
        if final then return some pushed
        else return (← tracedChunkLoop min max rounds next rest step.asked).map (pushed ++ ·)

/-- `chunk_integer_column`. -/
def tracedChunkIntegerColumn (min max : Int) : Chunking (Option (List ChunkTask)) := do
  let _ ← type.tracedDistance min max
  if info.estimatedChunks = 0 then return none
  else tracedChunkLoop type info estimates min max ((max - min).toNat + 1) min none 0

@[simp] theorem tracedExpand_value (start max : Int) (probes : Nat) (range : Int)
    (underfilled : Option (Int × UInt64)) (asked : Nat) :
    (tracedExpand type info estimates start max probes range underfilled asked).value =
      expand type info estimates start max probes range underfilled asked := by
  induction probes generalizing range underfilled asked with
  | zero =>
    unfold tracedExpand expand
    simp
  | succ probes ih =>
    unfold tracedExpand expand
    simp [ih]

@[simp] theorem tracedChop_value (start : Int) (rounds : Nat) (left right : Int)
    (useReturned : Bool) (asked : Nat) :
    (tracedChop type info estimates start rounds left right useReturned asked).value =
      chop type info estimates start rounds left right useReturned asked := by
  induction rounds generalizing left right asked with
  | zero => rfl
  | succ rounds ih =>
    unfold tracedChop chop
    simp [ih]

@[simp] theorem tracedStep_value (start right : Int) (rows : UInt64) (useReturned : Bool)
    (asked : Nat) :
    (tracedStep type start right rows useReturned asked).value =
      ⟨ensureNotZero (type.sub right start), rows, useReturned, asked⟩ := by
  simp [tracedStep]

@[simp] theorem tracedAdaptiveStep_value (start hint max : Int) (asked : Nat) :
    (tracedAdaptiveStep type info estimates start hint max asked).value =
      adaptiveStep type info estimates start hint max asked := by
  unfold tracedAdaptiveStep adaptiveStep
  simp only [value_bind, tracedExpand_value]
  generalize info.useUnderfilled start max _ = used
  obtain ⟨found, useReturned⟩ := used
  split
  · simp only [value_bind, tracedSub_value, tracedAdd_value, tracedChop_value]
    cases chop type info estimates start _ start _ useReturned found.asked with
    | none => rfl
    | some result => simp
  · simp

@[simp] theorem tracedNextStep_value (min max start : Int) (asked : Nat) :
    (tracedNextStep type info estimates min max start asked).value =
      nextStep type info estimates min max start asked := by
  unfold tracedNextStep nextStep
  simp

@[simp] theorem tracedChunkEnd_value (max start : Int) (step : Step) :
    (tracedChunkEnd type max start step).value = chunkEnd type max start step := by
  exact value_ite (type.sub max (type.previous step.size) < start) (pure max)
    (type.tracedAdd start (type.previous step.size))

/-- The trace does not change what is computed. -/
theorem tracedChunkLoop_value (min max : Int) (rounds : Nat) (start : Int)
    (accumulated : Option Accumulated) (asked : Nat) :
    (tracedChunkLoop type info estimates min max rounds start accumulated asked).value =
      chunkLoop type info estimates min max rounds start accumulated asked := by
  induction rounds generalizing start accumulated asked with
  | zero => rfl
  | succ rounds ih =>
    unfold tracedChunkLoop chunkLoop
    simp only [value_bind, tracedNextStep_value]
    cases nextStep type info estimates min max start asked with
    | none => rfl
    | some step =>
      simp only [value_bind, tracedChunkEnd_value, tracedAdd_value,
        Option.bind_eq_bind, Option.bind_some]
      by_cases final : max ≤ chunkEnd type max start step
      · simp [final]
      · simp only [final, decide_false, Bool.false_eq_true, if_false, value_bind, ih,
          next]
        cases chunkLoop type info estimates min max rounds _ _ step.asked <;> rfl

theorem tracedChunkIntegerColumn_value (min max : Int) :
    (tracedChunkIntegerColumn type info estimates min max).value =
      chunkIntegerColumn type info estimates min max := by
  unfold tracedChunkIntegerColumn chunkIntegerColumn
  simp [tracedChunkLoop_value]

end ChunkingInfo

/-! ## Events of the search -/

section

variable {type : KeyType} {holds : ChunkEvent → Prop}

namespace KeyType

@[simp] theorem all_tracedAdd (left right : Int) :
    (type.tracedAdd left right).All holds ↔ holds (.computed (left + right)) := by
  simp [tracedAdd]

@[simp] theorem all_tracedSub (left right : Int) :
    (type.tracedSub left right).All holds ↔ holds (.computed (left - right)) := by
  simp [tracedSub]

variable (computed : ∀ exact, type.Fits exact → holds (.computed exact))

include computed

theorem all_tracedEnsureNotZero (value : Int) : (type.tracedEnsureNotZero value).All holds := by
  unfold tracedEnsureNotZero
  split
  · next zero =>
    rw [all_tracedAdd, zero]
    exact computed _ (by cases type <;> simp [Fits])
  · exact all_pure value

theorem all_tracedIsSingleValueStep {step : Int} (less : type.Fits (step - 1))
    (positive : 1 ≤ step) : (type.tracedIsSingleValueStep step).All holds := by
  rw [tracedIsSingleValueStep, if_pos (by omega), all_bind, all_tracedSub]
  exact ⟨computed _ less, all_pure _⟩

theorem all_tracedSum {value addend : Int} (fits : type.Fits value) (fits' : type.Fits addend)
    (nonneg : 0 ≤ addend) : (type.tracedSum value addend).All holds := by
  have cut : ∀ top, type.limit = some top → type.Fits top →
      (∀ other, type.Fits other → other ≤ top) → (type.tracedSum value addend).All holds := by
    intro top limit fits_top greatest
    have bound' := greatest addend fits'
    have inside : type.Fits (top - addend) := fits_zero.between fits_top (by omega) (by omega)
    have rest : type.sub top addend = top - addend := wrap_of_fits inside
    simp only [tracedSum, limit, all_bind, all_tracedSub, tracedSub_value, rest]
    refine ⟨computed _ inside, ?_⟩
    split
    · exact all_pure top
    · rw [all_tracedAdd]
      exact computed _ (fits.between fits_top (by omega) (by omega))
  cases type with
  | int64 | uint64 => exact cut _ rfl (by decide) fun other fits => by have := fits.2; omega
  | decimal digits => exact (all_tracedAdd value addend).mpr (computed _ trivial)

end KeyType

namespace ChunkingInfo

variable {keys : KeyRange type} (info : ChunkingInfo) (estimates : Estimates)
  (computed : ∀ exact, type.Fits exact → holds (.computed exact))

include computed

variable {start : Int}
  (probed : ∀ last, start ≤ last → last ≤ keys.max → holds (.probed start last))
  (width : type.Fits (keys.max - keys.min)) (above : keys.min ≤ start)

include probed width above

theorem all_tracedExpand (below : start ≤ keys.max) (probes : Nat) {range : Int}
    (underfilled : Option (Int × UInt64)) (asked : Nat) (fits : type.Fits range)
    (nonneg : 0 ≤ range) :
    (tracedExpand type info estimates start keys.max probes range underfilled asked).All holds := by
  have fits_start := keys.fits above below
  have body : ∀ {range : Int}, type.Fits range → 0 ≤ range →
      (type.tracedSum start range).All holds ∧
        holds (.computed (min (type.sum start range) keys.max - start)) ∧
        holds (.probed start (min (type.sum start range) keys.max)) := by
    intro range fits nonneg
    have grown := (sum_spec fits_start fits nonneg).1
    have inside : type.Fits (min (type.sum start range) keys.max - start) :=
      fits_zero.between width (by omega) (by omega)
    exact ⟨all_tracedSum computed fits_start fits nonneg, computed _ inside,
      probed _ (by omega) (by omega)⟩
  induction probes generalizing range underfilled asked with
  | zero =>
    obtain ⟨sum, difference, probe⟩ := body fits nonneg
    unfold tracedExpand
    simp only [all_bind, sum, tracedSum_value, all_tracedSub, difference, all_emit, probe, true_and]
    split
    · exact all_pure _
    split
    · exact all_pure _
    · exact (all_bind _ _).mpr ⟨(all_emit _).mpr (probed _ below (Int.le_refl _)), all_pure _⟩
  | succ probes ih =>
    obtain ⟨sum, difference, probe⟩ := body fits nonneg
    have doubled := sum_spec fits fits nonneg
    unfold tracedExpand
    simp only [all_bind, sum, tracedSum_value, all_tracedSub, difference, all_emit, probe, true_and]
    split
    · exact all_pure _
    split
    · exact all_pure _
    · rw [all_bind, tracedSum_value]
      exact ⟨all_tracedSum computed fits fits nonneg,
        ih _ _ doubled.2 (Int.le_trans nonneg doubled.1)⟩

theorem all_tracedChop (rounds : Nat) {left right : Int} (useReturned : Bool) (asked : Nat)
    (first : start ≤ left) (ordered : left ≤ right) (behind : 2 * right - left ≤ keys.max) :
    (tracedChop type info estimates start rounds left right useReturned asked).All holds := by
  induction rounds generalizing left right asked with
  | zero => exact all_pure none
  | succ rounds ih =>
    have probe := probed right (by omega) (by omega)
    have difference : type.Fits (right - left) := fits_zero.between width (by omega) (by omega)
    unfold tracedChop
    dsimp only
    rw [all_bind, all_emit]
    refine ⟨probe, ?_⟩
    generalize (if info.rowsPerChunk < estimates asked then estimates asked - info.rowsPerChunk
      else info.rowsPerChunk - estimates asked) = delta
    split
    · exact all_pure _
    split
    · exact all_pure _
    split
    · exact all_pure _
    have half : type.half (type.sub right left) = (right - left) / 2 := by
      rw [keys.sub_eq width (by omega) ordered (by omega), half_eq (by omega)]
    split
    · have positive := @KeyType.ensureNotZero_pos ((right - left) / 2) (by omega)
      have bounded := @KeyType.ensureNotZero_le ((right - left) / 2)
      have inside : type.Fits (right - ensureNotZero ((right - left) / 2)) :=
        keys.fits (by omega) (by omega)
      have shrunk : type.sub right (ensureNotZero ((right - left) / 2)) =
          right - ensureNotZero ((right - left) / 2) := wrap_of_fits inside
      simp only [all_bind, all_tracedSub, tracedSub_value, half, tracedEnsureNotZero_value, shrunk]
      exact ⟨computed _ difference, all_tracedEnsureNotZero computed _,
        computed _ inside, ih _ first (by omega) (by omega)⟩
    · have inside : type.Fits (right + (right - left) / 2) := keys.fits (by omega) (by omega)
      have grown : type.add right ((right - left) / 2) = right + (right - left) / 2 :=
        wrap_of_fits inside
      simp only [all_bind, all_tracedSub, tracedSub_value, half,
        all_tracedAdd, tracedAdd_value, grown]
      exact ⟨computed _ difference, computed _ inside, ih _ (by omega) (by omega) (by omega)⟩

omit probed in
theorem all_tracedStep {right : Int} (lower : start ≤ right) (upper : right ≤ keys.max)
    (rows : UInt64) (useReturned : Bool) (asked : Nat) :
    (tracedStep type start right rows useReturned asked).All holds := by
  have difference : type.Fits (right - start) := fits_zero.between width (by omega) (by omega)
  rw [tracedStep, all_bind, all_bind, all_tracedSub]
  exact ⟨computed _ difference, all_tracedEnsureNotZero computed _, all_pure _⟩

theorem all_tracedAdaptiveStep (below : start ≤ keys.max) {hint : Int} (fits : type.Fits hint)
    (nonneg : 0 ≤ hint) (asked : Nat) :
    (tracedAdaptiveStep type info estimates start hint keys.max asked).All holds := by
  have nothing : ∀ last ∈ (none : Option (Int × UInt64)), last.1 ≤ keys.max := by simp
  have searched := useUnderfilled_inside info (expand_inside info estimates above below
    (adaptiveExpansionProbes - 1) asked fits nonneg nothing)
  unfold tracedAdaptiveStep
  rw [all_bind, tracedExpand_value]
  refine ⟨all_tracedExpand info estimates computed probed width above below _ _ _ fits nonneg, ?_⟩
  generalize info.useUnderfilled start keys.max _ = used at searched
  obtain ⟨found, useReturned⟩ := used
  obtain ⟨lower, upper, -⟩ := searched
  dsimp only at lower upper ⊢
  split
  · have difference : type.Fits (found.right - start) :=
      fits_zero.between width (by omega) (by omega)
    have half : type.half (type.sub found.right start) = (found.right - start) / 2 := by
      rw [keys.sub_eq width above lower upper, half_eq (by omega)]
    have inside : type.Fits (start + (found.right - start) / 2) := keys.fits (by omega) (by omega)
    have middle : type.add start ((found.right - start) / 2) = start + (found.right - start) / 2 :=
      wrap_of_fits inside
    obtain ⟨last, rows, used, total, run, first, final⟩ := chop_spec info estimates width
      above ((start + (found.right - start) / 2 - start).toNat + 1) useReturned found.asked
      (Int.le_refl start) (by omega) (by omega) (Nat.lt_succ_self _)
    simp only [all_bind, all_tracedSub, tracedSub_value, half,
      all_tracedAdd, tracedAdd_value, middle, tracedChop_value, run]
    refine ⟨computed _ difference, computed _ inside, ?_, ?_, all_pure _⟩
    · exact all_tracedChop info estimates computed probed width above _ _ _ (Int.le_refl start)
        (by omega) (by omega)
    · exact all_tracedStep computed width above first final rows used total
  · rw [all_bind]
    exact ⟨all_tracedStep computed width above lower upper _ _ _, all_pure _⟩

omit probed in
theorem all_tracedChunkEnd {step : Step} (within : Step.Within keys step) :
    (tracedChunkEnd type keys.max start step).All holds := by
  have offset := previous_eq width within
  obtain ⟨first, last⟩ := within
  have less : type.Fits (step.size - 1) := fits_zero.between width (by omega) (by omega)
  have behind : type.Fits (keys.max - (step.size - 1)) := keys.fits (by omega) (by omega)
  have rest : type.sub keys.max (step.size - 1) = keys.max - (step.size - 1) := wrap_of_fits behind
  unfold previous at offset
  simp only [tracedChunkEnd, all_bind, all_tracedSub, tracedSub_value, offset, rest]
  refine ⟨computed _ less, computed _ behind, ?_⟩
  split
  · exact all_pure _
  · exact (all_tracedAdd _ _).mpr (computed _ (keys.fits (by omega) (by omega)))

end ChunkingInfo

end

/-! ## Overflows -/

/-- Sums and differences are values of the type. -/
def ChunkEvent.Fits (type : KeyType) : ChunkEvent → Prop
  | .computed exact => type.Fits exact
  | .probed _ _ => True

namespace ChunkingInfo

variable {type : KeyType} {keys : KeyRange type} (info : ChunkingInfo) (estimates : Estimates)

theorem fits_tracedNextStep (width : type.Fits (keys.max - keys.min)) {start : Int}
    (above : keys.min ≤ start) (below : start ≤ keys.max) (asked : Nat) :
    (tracedNextStep type info estimates keys.min keys.max start asked).All
      (ChunkEvent.Fits type) := by
  obtain ⟨first, -, fits⟩ := estimatedStep_spec info width
  unfold tracedNextStep
  split
  · exact all_pure _
  · exact all_tracedAdaptiveStep info estimates (fun _ => id) (fun _ _ _ => trivial) width above
      below fits (by omega) asked

variable {accumulated : Option Accumulated}

theorem fits_tracedExpectedBegin {start : Int} (fits : type.Fits start)
    (ends : EndsBefore start accumulated) (step : Step) :
    (tracedExpectedBegin type info accumulated step).All (ChunkEvent.Fits type) := by
  cases accumulated with
  | none => exact all_pure _
  | some current =>
    obtain ⟨-, rfl⟩ := ends current rfl
    unfold tracedExpectedBegin
    dsimp only
    split
    · exact all_pure _
    · rw [all_bind, all_tracedAdd]
      exact ⟨fits, all_pure _⟩

/-- The loop steps behind the greatest key, and nothing else of it can overflow. -/
theorem fits_tracedChunkLoop_iff (width : type.Fits (keys.max - keys.min)) (rounds : Nat)
    {start : Int} (asked : Nat) (above : keys.min ≤ start) (below : start ≤ keys.max)
    (ends : EndsBefore start accumulated) (enough : (keys.max - start).toNat < rounds) :
    (tracedChunkLoop type info estimates keys.min keys.max rounds start accumulated asked).All
      (ChunkEvent.Fits type) ↔ type.Fits (keys.max + 1) := by
  induction rounds generalizing start accumulated asked with
  | zero => omega
  | succ rounds ih =>
    obtain ⟨step, found, within⟩ := nextStep_spec info estimates width above below asked
    have ended := chunkEnd_spec width above within
    obtain ⟨positive, longest⟩ := id within
    have less : type.Fits (step.size - 1) := fits_zero.between width (by omega) (by omega)
    have single := @KeyType.all_tracedIsSingleValueStep type (ChunkEvent.Fits type)
      (fun _ => id) _ less positive
    have ending := @all_tracedChunkEnd type (ChunkEvent.Fits type) keys (fun _ => id) start width
      above _ within
    have expected := fits_tracedExpectedBegin info (keys.fits above below) ends step
    have pushed := push_spec info width
      (decide (keys.max ≤ min (start + (step.size - 1)) keys.max)) below within ends
    unfold tracedChunkLoop
    simp only [all_bind, tracedNextStep_value, found,
      fits_tracedNextStep info estimates width above below asked, single, ending,
      all_tracedAdd, expected, tracedChunkEnd_value, ended, true_and]
    by_cases reached : keys.max ≤ min (start + (step.size - 1)) keys.max
    · have final : min (start + (step.size - 1)) keys.max = keys.max := by omega
      simp only [final, Int.le_refl, decide_true, if_true, all_pure, and_true]
      exact Iff.rfl
    · have before : min (start + (step.size - 1)) keys.max = start + (step.size - 1) := by omega
      have inside : type.Fits (start + (step.size - 1) + 1) := keys.fits (by omega) (by omega)
      have next : type.add (start + (step.size - 1)) 1 = start + (step.size - 1) + 1 :=
        wrap_of_fits inside
      rw [before] at reached
      simp only [before, reached, decide_false, Bool.false_eq_true, if_false] at pushed ⊢
      rw [all_bind, tracedAdd_value, next]
      simp only [all_pure, and_true]
      rw [ih step.asked (by omega) (by omega) pushed.1 (by omega)]
      exact and_iff_right inside

/-- What has to be a value of the type: the width of the range, and the key behind it. -/
theorem fits_tracedChunkIntegerColumn_iff (keys : KeyRange type) :
    (tracedChunkIntegerColumn type info estimates keys.min keys.max).All (ChunkEvent.Fits type) ↔
      type.Fits (keys.max - keys.min) ∧ type.Fits (keys.max + 1) := by
  have distance : (type.tracedDistance keys.min keys.max).All (ChunkEvent.Fits type) ↔
      type.Fits (keys.max - keys.min) := by
    cases type with
    | int64 => simp [tracedDistance, ChunkEvent.Fits]
    | uint64 => simp [tracedDistance, ChunkEvent.Fits]
    | decimal digits => simp [tracedDistance, ChunkEvent.Fits, KeyType.Fits]
  rw [tracedChunkIntegerColumn, all_bind, distance, if_neg info.estimatedChunks_ne_zero]
  refine and_congr_right fun width => ?_
  exact fits_tracedChunkLoop_iff info estimates width _ 0 (Int.le_refl _) keys.ordered
    (by simp [EndsBefore]) (Nat.lt_succ_self _)

/--
Whatever the estimates are, chunking a signed column overflows if its keys are `2 ^ 63` or more
apart, or if its greatest key is the greatest value of the type.
-/
theorem chunkIntegerColumn_no_overflow_iff (keys : KeyRange .int64) :
    (tracedChunkIntegerColumn .int64 info estimates keys.min keys.max).All
        (ChunkEvent.Fits .int64) ↔
      keys.max - keys.min < 2 ^ 63 ∧ keys.max < 2 ^ 63 - 1 := by
  have ordered := keys.ordered
  have least := keys.fits_min.1
  rw [fits_tracedChunkIntegerColumn_iff]
  simp only [KeyType.Fits]
  omega

/-- A column with the greatest value, and one with a wide range of values. -/
theorem chunkIntegerColumn_overflows :
    (let keys : KeyRange .int64 := ⟨2 ^ 63 - 1, 2 ^ 63 - 1, by decide, by decide, by decide⟩
    ¬ (tracedChunkIntegerColumn .int64 ⟨20, 2, 0, true, none, by decide⟩ (fun _ => 1)
      keys.min keys.max).All (ChunkEvent.Fits .int64)) ∧
    (let keys : KeyRange .int64 := ⟨-2 ^ 62, 2 ^ 62, by decide, by decide, by decide⟩
    ¬ (tracedChunkIntegerColumn .int64 ⟨20, 2, 0, true, none, by decide⟩ (fun _ => 1)
      keys.min keys.max).All (ChunkEvent.Fits .int64)) := by
  constructor
  · intro keys fits
    exact absurd ((fits_tracedChunkIntegerColumn_iff _ _ keys).mp fits).2 (by decide)
  · intro keys fits
    exact absurd ((fits_tracedChunkIntegerColumn_iff _ _ keys).mp fits).1 (by decide)

/-! ## The search of an unsigned column -/

/-- An estimate is for a range from `start` on that ends at `max` at the latest. -/
def ChunkEvent.ProbesWithin (start max : Int) : ChunkEvent → Prop
  | .computed _ => True
  | .probed first last => first = start ∧ start ≤ last ∧ last ≤ max

/--
Whatever the estimates are, the search ends between its start and the greatest key, and so does
the range of the length that it returns.
-/
theorem adaptiveStep_terminates_within (start hint max : UInt64) (ordered : start ≤ max)
    (asked : Nat) :
    let search := tracedAdaptiveStep .uint64 info estimates start.toNat hint.toNat max.toNat asked
    search.All (ChunkEvent.ProbesWithin start.toNat max.toNat) ∧
      ∃ step, search.value = some step ∧ 1 ≤ step.size ∧
        start.toNat + (step.size - 1) ≤ max.toNat ∧
        (start.toNat + step.size ≤ max.toNat ∨ step.size = 1) := by
  have fits : ∀ value : UInt64, uint64.Fits value.toNat := fun value =>
    ⟨Int.natCast_nonneg _, by exact_mod_cast value.toNat_lt⟩
  have below : (start.toNat : Int) ≤ max.toNat := by
    exact_mod_cast UInt64.le_iff_toNat_le.mp ordered
  let keys : KeyRange .uint64 := ⟨start.toNat, max.toNat, below, fits start, fits max⟩
  have width : uint64.Fits (keys.max - keys.min) :=
    fits_zero.between (fits max) (Int.sub_nonneg_of_le below)
      (Int.sub_le_self _ (Int.natCast_nonneg _))
  refine ⟨?_, ?_⟩
  · exact @all_tracedAdaptiveStep .uint64 (ChunkEvent.ProbesWithin start.toNat max.toNat) keys info
      estimates (fun _ _ => trivial) keys.min (fun _ lower upper => ⟨rfl, lower, upper⟩) width
      (Int.le_refl _) below _ (fits hint) (Int.natCast_nonneg _) asked
  · obtain ⟨step, found, positive, longest⟩ := @adaptiveStep_spec .uint64 keys info estimates width
      keys.min _ (Int.le_refl _) below (fits hint) (Int.natCast_nonneg _) asked
    refine ⟨step, (tracedAdaptiveStep_value ..).trans found, positive, ?_, ?_⟩
    · change step.size ≤ Max.max ((max.toNat : Int) - start.toNat) 1 at longest
      omega
    · change step.size ≤ Max.max ((max.toNat : Int) - start.toNat) 1 at longest
      omega

/-- Estimates that do not grow with the range. -/
theorem adaptiveStep_terminates_within_three :
    let search := tracedAdaptiveStep .uint64 ⟨20, 2, 0, true, none, by decide⟩
      (fun asked => if asked % 2 = 0 then 1 else 9) (3 : UInt64).toNat (2 : UInt64).toNat
      (40 : UInt64).toNat 0
    search.All (ChunkEvent.ProbesWithin (3 : UInt64).toNat (40 : UInt64).toNat) ∧
      ∃ step, search.value = some step ∧ 1 ≤ step.size ∧
        (3 : UInt64).toNat + (step.size - 1) ≤ (40 : UInt64).toNat ∧
        ((3 : UInt64).toNat + step.size ≤ (40 : UInt64).toNat ∨ step.size = 1) :=
  adaptiveStep_terminates_within _ _ 3 2 40 (by decide) 0

end ChunkingInfo

end MariadbShell.Dump
