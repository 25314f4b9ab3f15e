import MariadbShell.Dump.IntegerChunks
import MariadbShell.Lib.Tiling

/-!
# Ranges of the chunks

Whatever the estimates are, the ranges that are pushed for a column follow each other without
gaps from the least key to the greatest one. The arithmetic of the keys does not overflow as
long as the width of the range is a value of their type.
-/

namespace MariadbShell.Dump

open List Lib Lib.MachineInt KeyType ChunkCoalescer

/-! ## Arithmetic without overflow -/

namespace KeyType

variable {type : KeyType}

theorem wrap_of_fits {value : Int} (fits : type.Fits value) : type.wrap value = value := by
  cases type with
  | int64 => exact toInt64_of_range fits.1 fits.2
  | uint64 => exact toUInt64_of_range fits.1 fits.2
  | decimal digits => rfl

theorem Fits.between {lower upper value : Int} (low : type.Fits lower) (high : type.Fits upper)
    (above : lower ≤ value) (below : value ≤ upper) : type.Fits value := by
  cases type with
  | int64 | uint64 => exact ⟨Int.le_trans low.1 above, Int.lt_of_le_of_lt below high.2⟩
  | decimal digits => trivial

theorem fits_zero : type.Fits 0 := by
  cases type <;> simp [Fits]

theorem half_eq {value : Int} (nonneg : 0 ≤ value) : type.half value = value / 2 := by
  cases type with
  | int64 => exact Int.tdiv_eq_ediv_of_nonneg nonneg
  | uint64 => exact Int.tdiv_eq_ediv_of_nonneg nonneg
  | decimal digits =>
    have scale : (0 : Int) < 10 ^ digits := Int.pow_pos (by decide)
    have cancel : (value * 10 ^ digits).tdiv (2 * 10 ^ digits) = value.tdiv 2 :=
      Int.mul_tdiv_mul_of_pos_left value 2 scale
    exact cancel.trans (Int.tdiv_eq_ediv_of_nonneg nonneg)

theorem ensureNotZero_pos {value : Int} (nonneg : 0 ≤ value) : 1 ≤ ensureNotZero value := by
  unfold ensureNotZero
  split <;> omega

theorem ensureNotZero_le {value : Int} : ensureNotZero value ≤ max value 1 := by
  unfold ensureNotZero
  split <;> omega

/-- A sum that is cut at the greatest value of the type. -/
theorem sum_spec {value addend : Int} (fits : type.Fits value) (fits' : type.Fits addend)
    (nonneg : 0 ≤ addend) : value ≤ type.sum value addend ∧ type.Fits (type.sum value addend) := by
  have cut : ∀ top, type.limit = some top → type.Fits top →
      (∀ other, type.Fits other → other ≤ top) →
      value ≤ type.sum value addend ∧ type.Fits (type.sum value addend) := by
    intro top limit fits_top greatest
    have bound := greatest value fits
    have bound' := greatest addend fits'
    have rest : type.sub top addend = top - addend :=
      wrap_of_fits (fits_zero.between fits_top (by omega) (by omega))
    simp only [sum, limit]
    split
    · exact ⟨bound, fits_top⟩
    · next small =>
      have inside : type.Fits (value + addend) := fits.between fits_top (by omega) (by omega)
      rw [add, wrap_of_fits inside]
      exact ⟨by omega, inside⟩
  cases type with
  | int64 | uint64 => exact cut _ rfl (by decide) fun other fits => by have := fits.2; omega
  | decimal digits => exact ⟨Int.le_add_of_nonneg_right nonneg, trivial⟩

end KeyType

structure KeyRange (type : KeyType) where
  min : Int
  max : Int
  ordered : min ≤ max
  fits_min : type.Fits min
  fits_max : type.Fits max

namespace KeyRange

variable {type : KeyType} (keys : KeyRange type)

theorem fits {value : Int} (above : keys.min ≤ value) (below : value ≤ keys.max) :
    type.Fits value :=
  keys.fits_min.between keys.fits_max above below

/-- The distance of two keys. -/
theorem sub_eq (width : type.Fits (keys.max - keys.min)) {left right : Int}
    (above : keys.min ≤ left) (ordered : left ≤ right) (below : right ≤ keys.max) :
    type.sub right left = right - left :=
  wrap_of_fits (fits_zero.between width (by omega) (by omega))

theorem add_eq {left right : Int} (above : keys.min ≤ left + right)
    (below : left + right ≤ keys.max) : type.add left right = left + right :=
  wrap_of_fits (keys.fits above below)

theorem distance_bounds (width : type.Fits (keys.max - keys.min)) :
    0 ≤ type.distance keys.min keys.max ∧
      type.distance keys.min keys.max ≤ keys.max - keys.min + 1 := by
  have ordered := keys.ordered
  have difference := keys.sub_eq width (Int.le_refl _) ordered (Int.le_refl _)
  have unsigned : keys.max - keys.min < 2 ^ 64 →
      0 ≤ saturatingNext (toUInt64 (keys.max - keys.min)) ∧
        saturatingNext (toUInt64 (keys.max - keys.min)) ≤ keys.max - keys.min + 1 := by
    intro small
    have same := toUInt64_of_range (Int.sub_nonneg_of_le ordered) small
    unfold saturatingNext
    split <;> omega
  cases type with
  | int64 =>
    have same : distance .int64 keys.min keys.max =
        saturatingNext (toUInt64 (keys.max - keys.min)) :=
      congrArg (fun width => saturatingNext (toUInt64 width)) difference
    rw [same]
    exact unsigned (by have := width.2; omega)
  | uint64 =>
    have same : distance .uint64 keys.min keys.max =
        saturatingNext (toUInt64 (keys.max - keys.min)) :=
      congrArg (fun width => saturatingNext (toUInt64 width)) difference
    rw [same]
    exact unsigned width.2
  | decimal digits =>
    change 0 ≤ keys.max - keys.min + 1 ∧ keys.max - keys.min + 1 ≤ keys.max - keys.min + 1
    omega

end KeyRange

theorem KeyType.div_bounds {type : KeyType} {value : Int} (nonneg : 0 ≤ value) (divisor : Nat) :
    0 ≤ type.div value divisor ∧ type.div value divisor ≤ value := by
  have whole : 0 ≤ value.tdiv divisor ∧ value.tdiv divisor ≤ value :=
    ⟨Int.tdiv_nonneg nonneg (Int.natCast_nonneg _), Int.tdiv_le_self divisor nonneg⟩
  cases type with
  | int64 => exact whole
  | uint64 => exact whole
  | decimal digits =>
    have scale : (0 : Int) < 10 ^ digits := Int.pow_pos (by decide)
    have cancel : (value * 10 ^ digits).tdiv (divisor * 10 ^ digits) = value.tdiv divisor :=
      Int.mul_tdiv_mul_of_pos_left value divisor scale
    rw [← cancel] at whole
    exact whole

theorem KeyType.cast_spec {type : KeyType} {value : Int} (positive : 1 ≤ value) :
    1 ≤ type.cast value ∧ type.cast value ≤ value ∧ type.Fits (type.cast value) := by
  have cut : ∀ top, type.limit = some top → 1 ≤ top → type.Fits top →
      1 ≤ type.cast value ∧ type.cast value ≤ value ∧ type.Fits (type.cast value) := by
    intro top limit large fits
    simp only [cast, limit]
    split
    · exact ⟨positive, Int.le_refl _, fits_zero.between fits (by omega) (by omega)⟩
    · exact ⟨large, by omega, fits⟩
  cases type with
  | int64 => exact cut _ rfl (by decide) (by decide)
  | uint64 => exact cut _ rfl (by decide) (by decide)
  | decimal digits => exact ⟨positive, Int.le_refl _, trivial⟩

/-! ## Steps -/

namespace ChunkingInfo

variable {type : KeyType} {keys : KeyRange type} (info : ChunkingInfo) (estimates : Estimates)

/-- The search stays between its start and the greatest key. -/
def Expansion.Inside (start max : Int) (found : Expansion) : Prop :=
  start ≤ found.right ∧ found.right ≤ max ∧ ∀ last ∈ found.underfilled, last.1 ≤ max

variable {start : Int}

theorem expand_inside (above : keys.min ≤ start) (below : start ≤ keys.max) (probes : Nat)
    {range : Int} {underfilled : Option (Int × UInt64)} (asked : Nat) (fits : type.Fits range)
    (nonneg : 0 ≤ range) (inside : ∀ last ∈ underfilled, last.1 ≤ keys.max) :
    (expand type info estimates start keys.max probes range underfilled asked).Inside start
      keys.max := by
  have grown := sum_spec (keys.fits above below) fits nonneg
  have lower : start ≤ min (type.sum start range) keys.max := by omega
  have upper : min (type.sum start range) keys.max ≤ keys.max := by omega
  have found : ∀ rows : UInt64, ∀ last ∈ some (min (type.sum start range) keys.max, rows),
      last.1 ≤ keys.max := by
    rintro rows last ⟨⟩
    exact upper
  induction probes generalizing range underfilled asked with
  | zero =>
    unfold expand
    dsimp only
    split
    · exact ⟨lower, upper, inside⟩
    · split
      · exact ⟨lower, upper, found _⟩
      · exact ⟨below, Int.le_refl _, found _⟩
  | succ probes ih =>
    have doubled := sum_spec fits fits nonneg
    have further := sum_spec (keys.fits above below) doubled.2 (by omega)
    unfold expand
    dsimp only
    split
    · exact ⟨lower, upper, inside⟩
    · split
      · exact ⟨lower, upper, found _⟩
      · refine ih _ doubled.2 (by omega) (found _) further (by omega) (by omega) ?_
        rintro rows last ⟨⟩
        exact Int.min_le_right _ _

theorem useUnderfilled_inside {max : Int} {found : Expansion} (inside : found.Inside start max) :
    (info.useUnderfilled start max found).1.Inside start max := by
  obtain ⟨lower, upper, last⟩ := inside
  unfold useUnderfilled
  split
  · next right rows seen =>
    split
    · next used => exact ⟨Int.le_of_lt used.2.2.2, last _ seen, last⟩
    · exact ⟨lower, upper, last⟩
  · exact ⟨lower, upper, last⟩

/--
The second phase ends, as the two ends come closer in every round, and stays in the range: the
right end is behind its middle.
-/
theorem chop_spec (width : type.Fits (keys.max - keys.min)) (above : keys.min ≤ start)
    (rounds : Nat) {left right : Int} (useReturned : Bool) (asked : Nat) (first : start ≤ left)
    (ordered : left ≤ right) (behind : 2 * right - left ≤ keys.max)
    (enough : (right - left).toNat < rounds) :
    ∃ last rows used total,
      chop type info estimates start rounds left right useReturned asked =
        some (last, rows, used, total) ∧ start ≤ last ∧ last ≤ keys.max := by
  induction rounds generalizing left right asked with
  | zero => omega
  | succ rounds ih =>
    unfold chop
    dsimp only
    generalize (if info.rowsPerChunk < estimates asked then estimates asked - info.rowsPerChunk
      else info.rowsPerChunk - estimates asked) = delta
    split
    · exact ⟨_, _, _, _, rfl, by omega, by omega⟩
    split
    · exact ⟨_, _, _, _, rfl, by omega, by omega⟩
    split
    · exact ⟨_, _, _, _, rfl, by omega, by omega⟩
    next longer =>
    rw [keys.sub_eq width (by omega) ordered (by omega), half_eq (by omega)]
    split
    · have positive := @KeyType.ensureNotZero_pos ((right - left) / 2) (by omega)
      have bounded := @KeyType.ensureNotZero_le ((right - left) / 2)
      have shrunk : type.sub right (ensureNotZero ((right - left) / 2)) =
          right - ensureNotZero ((right - left) / 2) :=
        wrap_of_fits (keys.fits (by omega) (by omega))
      exact ih _ first (by omega) (by omega) (by omega)
    · rw [keys.add_eq (by omega) (by omega)]
      exact ih _ (by omega) (by omega) (by omega) (by omega)

/-- A step is not longer than the range of the keys. -/
def Step.Within (keys : KeyRange type) (step : Step) : Prop :=
  1 ≤ step.size ∧ step.size ≤ keys.max - keys.min + 1

section

variable (width : type.Fits (keys.max - keys.min))

include width

theorem adaptiveStep_spec {start hint : Int} (above : keys.min ≤ start) (below : start ≤ keys.max)
    (fits : type.Fits hint) (nonneg : 0 ≤ hint) (asked : Nat) :
    ∃ step, adaptiveStep type info estimates start hint keys.max asked = some step ∧
      1 ≤ step.size ∧ step.size ≤ max (keys.max - start) 1 := by
  have sized : ∀ right, start ≤ right → right ≤ keys.max →
      1 ≤ ensureNotZero (type.sub right start) ∧
        ensureNotZero (type.sub right start) ≤ max (keys.max - start) 1 := by
    intro right lower upper
    rw [keys.sub_eq width above lower upper]
    have positive := @KeyType.ensureNotZero_pos (right - start) (by omega)
    have bounded := @KeyType.ensureNotZero_le (right - start)
    exact ⟨positive, by omega⟩
  unfold adaptiveStep
  have nothing : ∀ last ∈ (none : Option (Int × UInt64)), last.1 ≤ keys.max := by simp
  have searched := useUnderfilled_inside info (expand_inside info estimates above below
    (adaptiveExpansionProbes - 1) asked fits nonneg nothing)
  generalize info.useUnderfilled start keys.max _ = used at searched
  obtain ⟨found, useReturned⟩ := used
  obtain ⟨lower, upper, -⟩ := searched
  dsimp only at lower upper ⊢
  split
  · rw [keys.sub_eq width above lower upper, half_eq (by omega), keys.add_eq (by omega) (by omega)]
    obtain ⟨last, rows, used, total, run, lower, upper⟩ := chop_spec info estimates width
      above ((start + (found.right - start) / 2 - start).toNat + 1) useReturned found.asked
      (Int.le_refl start) (by omega) (by omega) (Nat.lt_succ_self _)
    rw [run]
    exact ⟨_, rfl, sized last lower upper⟩
  · exact ⟨_, rfl, sized found.right lower upper⟩

theorem estimatedStep_spec :
    1 ≤ info.estimatedStep type keys.min keys.max ∧
      info.estimatedStep type keys.min keys.max ≤ keys.max - keys.min + 1 ∧
      type.Fits (info.estimatedStep type keys.min keys.max) := by
  have ordered := keys.ordered
  obtain ⟨nonneg, bounded⟩ := keys.distance_bounds width
  obtain ⟨lower, upper⟩ := @KeyType.div_bounds type _ nonneg info.estimatedChunks.toNat
  have step := @KeyType.ensureNotZero_le
    (type.div (type.distance keys.min keys.max) info.estimatedChunks.toNat)
  obtain ⟨first, last, fits⟩ := @KeyType.cast_spec type _ (ensureNotZero_pos lower)
  exact ⟨first, by rw [estimatedStep]; omega, fits⟩

theorem nextStep_spec (above : keys.min ≤ start) (below : start ≤ keys.max) (asked : Nat) :
    ∃ step, nextStep type info estimates keys.min keys.max start asked = some step ∧
      Step.Within keys step := by
  obtain ⟨first, last, fits⟩ := estimatedStep_spec info width
  unfold nextStep
  split
  · exact ⟨_, rfl, first, last⟩
  · obtain ⟨step, found, positive, longest⟩ :=
      adaptiveStep_spec info estimates width above below fits (by omega) asked
    exact ⟨step, found, positive, by omega⟩

theorem previous_eq {step : Step} (within : Step.Within keys step) :
    type.previous step.size = step.size - 1 := by
  obtain ⟨first, last⟩ := within
  exact wrap_of_fits (fits_zero.between width (by omega) (by omega))

/-- A range is not empty and ends at the greatest key at the latest. -/
theorem chunkEnd_spec (above : keys.min ≤ start) {step : Step} (within : Step.Within keys step) :
    chunkEnd type keys.max start step = min (start + (step.size - 1)) keys.max := by
  obtain ⟨first, last⟩ := within
  have rest : type.sub keys.max (step.size - 1) = keys.max - (step.size - 1) :=
    wrap_of_fits (keys.fits (by omega) (by omega))
  simp only [chunkEnd, previous_eq width ⟨first, last⟩]
  split
  · omega
  · rw [keys.add_eq (by omega) (by omega)]
    omega

end

end ChunkingInfo

/-! ## Coalescer -/

/-- The range that is accumulated ends in front of `start`. -/
def EndsBefore (start : Int) (accumulated : Option Accumulated) : Prop :=
  ∀ current ∈ accumulated, current.first ≤ current.last ∧ current.last + 1 = start

/-- The first key that was not pushed, if all keys before `start` were coalesced. -/
def firstKept (accumulated : Option Accumulated) (start : Int) : Int :=
  (accumulated.map Accumulated.first).getD start

theorem tiles_flush {accumulated : Option Accumulated} {start : Int}
    (ends : EndsBefore start accumulated) :
    Tiles (firstKept accumulated start) (flush accumulated).toList start := by
  cases accumulated with
  | none => exact .nil _
  | some current =>
    obtain ⟨ordered, rfl⟩ := ends current rfl
    exact Tiles.singleton ordered

/-- A range is pushed or stays with what is accumulated. -/
theorem coalesce_spec (info : ChunkingInfo) {accumulated : Option Accumulated} {first last : Int}
    (rows : UInt64) (final : Bool) (ends : EndsBefore first accumulated) (ordered : first ≤ last) :
    let (result, rest) := coalesce info accumulated first last rows final
    EndsBefore (last + 1) rest ∧
      Tiles (firstKept accumulated first) result.range.toList (firstKept rest (last + 1)) ∧
      (result.flushed = true → rest = none) := by
  have kept : ∀ current : Accumulated, current.first ≤ current.last → current.last = last →
      EndsBefore (last + 1) (some current) := by
    rintro current filled rfl other ⟨⟩
    exact ⟨filled, rfl⟩
  cases accumulated with
  | none =>
    cases final with
    | true => exact ⟨nofun, Tiles.singleton ordered, fun _ => rfl⟩
    | false => exact ⟨kept ⟨first, last, rows⟩ ordered rfl, .nil _, nofun⟩
  | some current =>
    obtain ⟨filled, rfl⟩ := ends current rfl
    simp only [coalesce]
    split
    · exact ⟨kept ⟨_, last, rows⟩ ordered rfl, Tiles.singleton filled, nofun⟩
    · have joined : current.first ≤ last := by omega
      split
      · exact ⟨nofun, Tiles.singleton joined, fun _ => rfl⟩
      · exact ⟨kept ⟨current.first, last, current.rows + rows⟩ joined rfl, .nil _, nofun⟩

/-! ## Chunks -/

/-- The keys of a task; all rows of a single key are in the chunks of the next column. -/
def ChunkTask.keys : ChunkTask → Option (Int × Int)
  | .chunk first last _ => some (first, last)
  | .empty _ => none
  | .nested key _ => some (key, key)

namespace ChunkingInfo

variable {type : KeyType} {keys : KeyRange type} (info : ChunkingInfo) (estimates : Estimates)

theorem keys_chunks (range : Option (Int × Int)) (lastChunk : Bool) :
    (range.map fun (first, last) => ChunkTask.chunk first last lastChunk).toList.filterMap
      ChunkTask.keys = range.toList := by
  cases range <;> rfl

theorem keys_empty (final : Bool) :
    (if final then [ChunkTask.empty true] else []).filterMap ChunkTask.keys = [] := by
  cases final <;> rfl

variable {accumulated : Option Accumulated}

theorem pushRange_spec {first last : Int} (rows : UInt64) (final : Bool)
    (ends : EndsBefore first accumulated) (ordered : first ≤ last) :
    let (pushed, rest) := info.pushRange accumulated first last rows final
    EndsBefore (last + 1) rest ∧
      Tiles (firstKept accumulated first) (pushed.filterMap ChunkTask.keys)
        (firstKept rest (last + 1)) ∧
      (final = true → rest = none) := by
  have coalesced := coalesce_spec info rows final ends ordered
  unfold pushRange
  generalize coalesce info accumulated first last rows final = pair at coalesced
  obtain ⟨result, rest⟩ := pair
  obtain ⟨later, tiles, flushed⟩ := coalesced
  dsimp only at later tiles flushed ⊢
  split
  · have more := tiles.append (tiles_flush later)
    cases rest with
    | none =>
      refine ⟨nofun, ?_, fun _ => rfl⟩
      rw [flush, Option.map_none]
      rw [filterMap_append, keys_chunks, keys_empty]
      exact more
    | some current =>
      refine ⟨nofun, ?_, fun _ => rfl⟩
      rw [flush, Option.map_some]
      rw [filterMap_append, keys_chunks]
      exact more
  · next closed =>
    rw [keys_chunks]
    refine ⟨later, tiles, fun last => flushed ?_⟩
    simpa [last] using closed

theorem pushNested_spec {key : Int} (rows : UInt64) (final : Bool)
    (ends : EndsBefore key accumulated) :
    Tiles (firstKept accumulated key)
      ((info.pushNested accumulated key rows final).filterMap ChunkTask.keys) (key + 1) := by
  have tiles := (tiles_flush ends).append (Tiles.singleton (Int.le_refl key))
  have nested : (ChunkTask.nested key rows).keys = some (key, key) := rfl
  rw [pushNested, filterMap_append, keys_chunks, filterMap_cons_some nested, keys_empty]
  exact tiles

section

variable (width : type.Fits (keys.max - keys.min))

include width

/-- A range of one key ends where it begins. -/
theorem size_of_isSingleValueStep {step : Step} (within : Step.Within keys step)
    (single : type.isSingleValueStep step.size = true) : step.size = 1 := by
  have zero : type.previous step.size = 0 := by
    simp only [isSingleValueStep, Bool.and_eq_true, decide_eq_true_eq] at single
    exact single.2
  rw [previous_eq width within] at zero
  omega

theorem push_spec {start : Int} {step : Step} (final : Bool) (below : start ≤ keys.max)
    (within : Step.Within keys step) (ends : EndsBefore start accumulated) :
    let last := min (start + (step.size - 1)) keys.max
    let pushed := push type info accumulated start last step final
    EndsBefore (last + 1) pushed.2 ∧
      Tiles (firstKept accumulated start) (pushed.1.filterMap ChunkTask.keys)
        (firstKept pushed.2 (last + 1)) ∧
      (final = true → pushed.2 = none) := by
  have positive := within.1
  unfold push
  split
  · next deeper =>
    have single : type.isSingleValueStep step.size = true := by
      simp only [chunksDeeper, Bool.and_eq_true] at deeper
      exact deeper.1.1.2
    have size := size_of_isSingleValueStep width within single
    have last : min (start + (step.size - 1)) keys.max = start := by omega
    rw [last]
    exact ⟨nofun, info.pushNested_spec step.rows final ends, fun _ => rfl⟩
  · exact info.pushRange_spec step.rows final ends (by omega)

/-- The loop goes on to the greatest key. -/
theorem chunkLoop_spec (rounds : Nat) {start : Int} {accumulated : Option Accumulated}
    (asked : Nat) (above : keys.min ≤ start) (below : start ≤ keys.max)
    (ends : EndsBefore start accumulated) (enough : (keys.max - start).toNat < rounds) :
    ∃ tasks, chunkLoop type info estimates keys.min keys.max rounds start accumulated asked =
        some tasks ∧
      Tiles (firstKept accumulated start) (tasks.filterMap ChunkTask.keys) (keys.max + 1) := by
  induction rounds generalizing start accumulated asked with
  | zero => omega
  | succ rounds ih =>
    obtain ⟨step, found, within⟩ := nextStep_spec info estimates width above below asked
    have positive := within.1
    unfold chunkLoop
    rw [found, Option.bind_eq_bind, Option.bind_some, chunkEnd_spec width above within]
    dsimp only
    have pushed := push_spec info width
      (decide (keys.max ≤ min (start + (step.size - 1)) keys.max)) below within ends
    dsimp only at pushed
    generalize push type info accumulated start _ step _ = pair at pushed ⊢
    obtain ⟨tasks, rest⟩ := pair
    obtain ⟨later, tiles, done⟩ := pushed
    split
    · next reached =>
      rw [done reached] at tiles
      have final : min (start + (step.size - 1)) keys.max = keys.max := by
        have := of_decide_eq_true reached
        omega
      rw [final] at tiles
      exact ⟨tasks, rfl, tiles⟩
    · next further =>
      have shorter := of_decide_eq_false (Bool.eq_false_iff.mpr further)
      have before : min (start + (step.size - 1)) keys.max = start + (step.size - 1) := by omega
      have next : type.next (start + (step.size - 1)) = start + (step.size - 1) + 1 :=
        wrap_of_fits (keys.fits (by omega) (by omega))
      rw [before] at later tiles ⊢
      rw [next]
      obtain ⟨more, run, behind⟩ := ih step.asked (by omega) (by omega) later (by omega)
      rw [run]
      refine ⟨tasks ++ more, rfl, ?_⟩
      rw [filterMap_append]
      exact tiles.append behind

end

theorem estimatedChunks_ne_zero : info.estimatedChunks ≠ 0 := by
  unfold estimatedChunks
  rw [if_pos info.positive]
  generalize info.rowCount / info.rowsPerChunk = chunks
  change (if chunks ≤ 1 then 1 else chunks) ≠ 0
  split
  · decide
  · grind

/--
Whatever the estimates are, the ranges of the tasks ascend from the least key to the greatest
one without gaps.
-/
theorem chunkIntegerColumn_tiles (keys : KeyRange type)
    (narrow : type = .int64 → keys.max - keys.min < 2 ^ 63) :
    ∃ tasks, chunkIntegerColumn type info estimates keys.min keys.max = some tasks ∧
      Tiles keys.min (tasks.filterMap ChunkTask.keys) (keys.max + 1) ∧
      (tasks.filterMap ChunkTask.keys).Pairwise (fun range other => range.2 < other.1) ∧
      ∀ key, (∃ range ∈ tasks.filterMap ChunkTask.keys, range.1 ≤ key ∧ key ≤ range.2) ↔
        keys.min ≤ key ∧ key ≤ keys.max := by
  have width : type.Fits (keys.max - keys.min) := by
    have ordered := keys.ordered
    cases type with
    | int64 => exact ⟨by omega, narrow rfl⟩
    | uint64 =>
      have least := keys.fits_min.1
      have greatest := keys.fits_max.2
      exact ⟨by omega, by omega⟩
    | decimal digits => trivial
  obtain ⟨tasks, run, tiles⟩ := @chunkLoop_spec type keys info estimates width
    ((keys.max - keys.min).toNat + 1) keys.min none 0 (Int.le_refl _) keys.ordered nofun
    (Nat.lt_succ_self _)
  change Tiles keys.min _ _ at tiles
  refine ⟨tasks, ?_, tiles, tiles.ascending, fun key => ?_⟩
  · rw [chunkIntegerColumn, if_neg info.estimatedChunks_ne_zero, run]
  · rw [tiles.mem_iff, Int.lt_add_one_iff]

/-- The ranges of a signed column, with estimates that grow. -/
theorem chunkIntegerColumn_tiles_signed :
    let keys : KeyRange .int64 := ⟨-3, 4, by decide, by decide, by decide⟩
    ∃ tasks, chunkIntegerColumn .int64 ⟨20, 2, 0, true, none, by decide⟩ UInt64.ofNat
        keys.min keys.max = some tasks ∧
      Tiles keys.min (tasks.filterMap ChunkTask.keys) (keys.max + 1) ∧
      (tasks.filterMap ChunkTask.keys).Pairwise (fun range other => range.2 < other.1) ∧
      ∀ key, (∃ range ∈ tasks.filterMap ChunkTask.keys, range.1 ≤ key ∧ key ≤ range.2) ↔
        keys.min ≤ key ∧ key ≤ keys.max :=
  chunkIntegerColumn_tiles _ _ _ fun _ => by decide

end ChunkingInfo

end MariadbShell.Dump
