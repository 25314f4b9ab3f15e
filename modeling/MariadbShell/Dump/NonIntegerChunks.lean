import MariadbShell.Dump.IntegerChunks

/-!
# Chunks of other columns

A table whose index does not begin with a number is chunked by queries for the boundaries of
its chunks: for the last row of a chunk and the first one of the next. Rows of the index are
compared column by column with a condition that is built for a given row.
-/

namespace MariadbShell.Dump

open List

/-! ## Conditions -/

inductive Direction where
  | less
  | greater
deriving DecidableEq, Repr

inductive Comparison where
  /-- `<` or `>`, with `=` behind it if `eq` is set -/
  | ordered (direction : Direction) (eq : Bool)
  | equal
deriving DecidableEq, Repr

inductive Condition (Value : Type) where
  | always
  | column (index : Nat) (op : Comparison) (value : Value)
  | or (first second : Condition Value)
  | and (first second : Condition Value)
deriving DecidableEq, Repr

section

variable {Value : Type} [LinearOrder Value]

def Comparison.holds : Comparison → Value → Value → Bool
  | .ordered .less eq, left, right => left < right || eq && left = right
  | .ordered .greater eq, left, right => right < left || eq && left = right
  | .equal, left, right => left = right

/-- The answer of the server for a row. -/
def Condition.eval (row : List Value) : Condition Value → Bool
  | .always => true
  | .column index op value => row[index]?.any (op.holds · value)
  | .or first second => first.eval row || second.eval row
  | .and first second => first.eval row && second.eval row

namespace Condition

/-- A column in front of those that are compared already. -/
def compareColumn (direction : Direction) (result : Condition Value) (cell : Value × Nat) :
    Condition Value :=
  .or (.column cell.2 (.ordered direction false) cell.1)
    (.and (.column cell.2 .equal cell.1) result)

/-- `compare`, from the last column of the index to the first one that is used. -/
def compare (indexColumn : Nat) (direction : Direction) (eq : Bool) (value : List Value) :
    Condition Value :=
  match (value.zipIdx indexColumn).reverse with
  | [] => .always
  | (last, index) :: others =>
    others.foldl (compareColumn direction) (.column index (.ordered direction eq) last)

def compareGe (value : List Value) : Condition Value := compare 0 .greater true value

def compareLe (value : List Value) : Condition Value := compare 0 .less true value

def between (first last : List Value) : Condition Value :=
  .and (compareGe first) (compareLe last)

end Condition

end

/-! ## Queries -/

/-- A table with the rows of its index in their order. The `filter` is the condition that all
queries and all chunks share. -/
structure IndexedTable (Value : Type) [LinearOrder Value] where
  columns : Nat
  keys : List (List Value)
  filter : List Value → Bool
  sized : ∀ key ∈ keys, key.length = columns + 1
  sorted : keys.Pairwise (· < ·)

structure KeyChunk (Value : Type) where
  boundary : Condition Value
  index : Nat
  lastChunk : Bool
deriving DecidableEq, Repr

namespace IndexedTable

variable {Value : Type} [LinearOrder Value] (table : IndexedTable Value) (info : ChunkingInfo)

def select (condition : Condition Value) : List (List Value) :=
  table.keys.filter fun key => table.filter key && condition.eval key

/-- `LIMIT offset,count`. -/
def query (condition : Condition Value) (offset count : Nat) : List (List Value) :=
  ((table.select condition).drop offset).take count

/-- The loop of `chunk_non_integer_column`. -/
def chunkKeys (last : List Value) : Nat → List Value → Nat → Option (List (KeyChunk Value))
  | 0, _, _ => none
  | rounds + 1, rangeBegin, index =>
    let result := table.query (.compareGe rangeBegin) (info.rowsPerChunk - 1).toNat 2
    let rangeEnd := result[0]?.getD last
    let chunk : KeyChunk Value := ⟨.between rangeBegin rangeEnd, index, rangeEnd = last⟩
    if rangeEnd = last then some [chunk]
    else (chunk :: ·) <$> chunkKeys last rounds (result[1]?.getD last) (index + 1)

/-- `chunk_non_integer_column`. Each chunk has one of the rows at least. -/
def chunkNonIntegerColumn (first last : List Value) : Option (List (KeyChunk Value)) :=
  chunkKeys table info last table.keys.length first 0

/-- `chunk_column` of such a table: the least and the greatest row are asked for. -/
def chunkColumn : Option (List (KeyChunk Value)) :=
  match (table.select .always)[0]?, (table.select .always).reverse[0]? with
  | some first, some last => chunkNonIntegerColumn table info first last
  | _, _ => some [⟨.always, 0, true⟩]

end IndexedTable

/-! ## Comparison of rows -/

section

open Condition Comparison

variable {Value : Type} [LinearOrder Value]

omit [LinearOrder Value] in
theorem Condition.compare_cons (indexColumn : Nat) (direction : Direction) (eq : Bool)
    (cell : Value) {rest : List Value} (more : rest ≠ []) :
    compare indexColumn direction eq (cell :: rest) =
      compareColumn direction (compare (indexColumn + 1) direction eq rest)
        (cell, indexColumn) := by
  have filled : (rest.zipIdx (indexColumn + 1)).reverse ≠ [] := by
    simpa using more
  unfold compare
  rw [zipIdx_cons, reverse_cons]
  cases columns : (rest.zipIdx (indexColumn + 1)).reverse with
  | nil => exact absurd columns filled
  | cons last others =>
    obtain ⟨value, index⟩ := last
    rw [cons_append]
    dsimp only
    rw [foldl_append]
    rfl

theorem cons_le_cons {left right : Value} {rest others : List Value} :
    left :: rest ≤ right :: others ↔ left < right ∨ left = right ∧ rest ≤ others := by
  rw [← not_lt, cons_lt_cons_iff]
  rcases lt_trichotomy left right with less | rfl | greater
  · simp [less, less.not_gt, less.ne']
  · simp
  · simp [greater, greater.not_gt, greater.ne']

/-- The order of a row and a value that is compared with it. -/
def Direction.Ordered : Direction → List Value → List Value → Prop
  | .less, row, value => row ≤ value
  | .greater, row, value => value ≤ row

theorem Direction.ordered_cons (direction : Direction) {left right : Value}
    {rest others : List Value} :
    direction.Ordered (left :: rest) (right :: others) ↔
      (ordered direction false).holds left right = true ∨
        left = right ∧ direction.Ordered rest others := by
  cases direction with
  | less => simp [Direction.Ordered, cons_le_cons, holds]
  | greater => simp [Direction.Ordered, cons_le_cons, holds, eq_comm]

/-- The condition that is built for a row is the order of the rows. -/
theorem Condition.eval_compare (direction : Direction) {value row : List Value} {indexColumn : Nat}
    (filled : value ≠ []) (sized : (row.drop indexColumn).length = value.length) :
    (compare indexColumn direction true value).eval row = true ↔
      direction.Ordered (row.drop indexColumn) value := by
  induction value generalizing indexColumn with
  | nil => exact absurd rfl filled
  | cons cell rest ih =>
    have inside : indexColumn < row.length := by
      rw [length_drop, length_cons] at sized
      omega
    have split := drop_eq_getElem_cons inside
    have shorter : (row.drop (indexColumn + 1)).length = rest.length := by
      rw [split] at sized
      exact Nat.succ.inj sized
    rw [split, direction.ordered_cons]
    cases rest with
    | nil =>
      rw [length_eq_zero_iff.mp shorter]
      have same : direction.Ordered ([] : List Value) [] := by cases direction <;> exact le_rfl
      cases direction <;>
        simp [compare, Condition.eval, holds, getElem?_eq_getElem inside, same]
    | cons next others =>
      have later := ih (cons_ne_nil _ _) shorter
      rw [compare_cons _ _ _ _ (cons_ne_nil _ _)]
      simp only [compareColumn, eval, getElem?_eq_getElem inside, Option.any_some,
        Bool.or_eq_true, Bool.and_eq_true, later]
      simp only [holds, decide_eq_true_eq]

theorem Condition.eval_compareGe {value row : List Value} (filled : value ≠ [])
    (sized : row.length = value.length) : (compareGe value).eval row = true ↔ value ≤ row :=
  eval_compare .greater filled sized

theorem Condition.eval_between {first last row : List Value} (filled : first ≠ [])
    (sized : row.length = first.length) (sized' : last.length = first.length) :
    (between first last).eval row = true ↔ first ≤ row ∧ row ≤ last := by
  have filled' : last ≠ [] := by
    rintro rfl
    exact filled (length_eq_zero_iff.mp sized'.symm)
  rw [between, Condition.eval, Bool.and_eq_true, eval_compareGe filled sized]
  exact and_congr_right fun _ => eval_compare .less filled' (sized.trans sized'.symm)

end

/-! ## Ranges of an ordered list -/

section

variable {Key : Type} [LinearOrder Key]

theorem le_getLast_of_sorted {keys : List Key} {last : Key} (sorted : keys.Pairwise (· < ·))
    (final : keys.getLast? = some last) : ∀ key ∈ keys, key ≤ last := by
  obtain ⟨front, rfl⟩ := getLast?_eq_some_iff.mp final
  intro key member
  obtain earlier | same := mem_append.mp member
  · exact ((pairwise_append.mp sorted).2.2 key earlier last (mem_singleton_self _)).le
  · exact (mem_singleton.mp same).le

/-- A condition on the least and the greatest key of a part of an ordered list. -/
theorem filter_between_eq {before page later : List Key} {first last : Key} {holds : Key → Bool}
    (sorted : (before ++ (page ++ later)).Pairwise (· < ·)) (head : page.head? = some first)
    (final : page.getLast? = some last)
    (between : ∀ key ∈ before ++ (page ++ later), (holds key = true ↔ first ≤ key ∧ key ≤ last)) :
    (before ++ (page ++ later)).filter holds = page := by
  obtain ⟨rest, rfl⟩ := head?_eq_some_iff.mp head
  obtain ⟨-, tail, split⟩ := pairwise_append.mp sorted
  obtain ⟨ascending, -, behind⟩ := pairwise_append.mp tail
  have least : ∀ key ∈ first :: rest, first ≤ key := by
    intro key member
    obtain rfl | member := mem_cons.mp member
    · exact le_rfl
    · exact (rel_of_pairwise_cons ascending member).le
  have greatest := le_getLast_of_sorted ascending final
  have lower : before.filter holds = [] := by
    refine filter_eq_nil_iff.mpr fun key member inside => ?_
    have above := ((between key (mem_append_left _ member)).mp inside).1
    exact absurd (split key member first (mem_cons_self ..)) above.not_gt
  have middle : (first :: rest).filter holds = first :: rest := by
    refine filter_eq_self.mpr fun key member => ?_
    exact (between key (mem_append_right _ (mem_append_left _ member))).mpr
      ⟨least key member, greatest key member⟩
  have upper : later.filter holds = [] := by
    refine filter_eq_nil_iff.mpr fun key member inside => ?_
    have below := ((between key (mem_append_right _ (mem_append_right _ member))).mp inside).2
    exact absurd (behind last (mem_of_getLast? final) key member) below.not_gt
  rw [filter_append, filter_append, lower, middle, upper, append_nil, nil_append]

omit [LinearOrder Key] in
/-- The last key, if there are not more keys than those of a page. -/
theorem getElem?_getD_of_length_le {rest : List Key} {last : Key} {size : Nat}
    (final : rest.getLast? = some last) (positive : 1 ≤ size) (short : rest.length ≤ size) :
    rest[size - 1]?.getD last = last := by
  rw [getLast?_eq_getElem?] at final
  obtain equal | less := Nat.eq_or_lt_of_le short
  · rw [← equal, final, Option.getD_some]
  · rw [getElem?_eq_none (by omega), Option.getD_none]

end

/-! ## Chunks -/

namespace IndexedTable

variable {Value : Type} [LinearOrder Value] (table : IndexedTable Value) (info : ChunkingInfo)

def rows : List (List Value) := table.keys.filter table.filter

theorem select_eq (condition : Condition Value) :
    table.select condition = table.rows.filter condition.eval := by
  rw [rows, filter_filter]
  exact filter_congr fun key _ => Bool.and_comm _ _

theorem sorted_rows : table.rows.Pairwise (· < ·) :=
  table.sorted.filter _

theorem length_of_mem_rows {row : List Value} (member : row ∈ table.rows) :
    row.length = table.columns + 1 :=
  table.sized row (mem_of_mem_filter member)

section

variable {before page later : List (List Value)} {first last : List Value}
  (split : table.rows = before ++ (page ++ later)) (head : page.head? = some first)
  (final : page.getLast? = some last)

include split head final

/-- The rows of a chunk between two of the rows. -/
theorem select_between : table.select (.between first last) = page := by
  have sized : ∀ row ∈ page, row.length = table.columns + 1 := fun row member =>
    table.length_of_mem_rows (split ▸ mem_append_right _ (mem_append_left _ member))
  have sized_first := sized first (mem_of_mem_head? head)
  have sized_last := sized last (mem_of_getLast? final)
  have filled : first ≠ [] := by
    rintro rfl
    exact nomatch sized_first
  rw [select_eq, split]
  refine filter_between_eq (split ▸ table.sorted_rows) head final fun row member => ?_
  have sized_row := table.length_of_mem_rows (split.symm ▸ member)
  exact Condition.eval_between filled (sized_row.trans sized_first.symm)
    (sized_last.trans sized_first.symm)

end

/-- The rows from one of the rows on. -/
theorem select_compareGe {before rest : List (List Value)} {first : List Value}
    (split : table.rows = before ++ rest) (head : rest.head? = some first) :
    table.select (.compareGe first) = rest := by
  have member : first ∈ table.rows := split ▸ mem_append_right _ (mem_of_mem_head? head)
  have sized_first := table.length_of_mem_rows member
  have filled : first ≠ [] := by
    rintro rfl
    exact nomatch sized_first
  have nonempty : rest ≠ [] := by
    rintro rfl
    exact nomatch head
  have final := getLast?_eq_some_getLast nonempty
  have sorted := table.sorted_rows
  rw [split, ← append_nil rest] at sorted
  have greatest : ∀ row ∈ before ++ (rest ++ []), row ≤ rest.getLast nonempty := by
    refine le_getLast_of_sorted sorted ?_
    rw [append_nil, getLast?_append, final, Option.some_or]
  have selected : (before ++ (rest ++ [])).filter (Condition.compareGe first).eval = rest := by
    refine filter_between_eq sorted head final fun row member => ?_
    have kept : row ∈ table.rows := by simpa [split] using member
    have sized_row := table.length_of_mem_rows kept
    rw [Condition.eval_compareGe filled (sized_row.trans sized_first.symm)]
    exact (and_iff_left (greatest row member)).symm
  rw [append_nil] at selected
  rw [select_eq, split, selected]

/-- The rows of the chunks, in their order; only the last of the chunks is marked as such. -/
structure Covered (rest : List (List Value)) (chunks : List (KeyChunk Value)) : Prop where
  rows : (chunks.map fun chunk => table.select chunk.boundary).flatten = rest
  bounded : ∀ chunk ∈ chunks, (table.select chunk.boundary).length ≤ info.rowsPerChunk.toNat
  marked : ∃ others final, chunks = others ++ [final] ∧ final.lastChunk = true ∧
    ∀ other ∈ others, other.lastChunk = false

theorem Covered.single {rest : List (List Value)} {chunk : KeyChunk Value}
    (rows : table.select chunk.boundary = rest) (small : rest.length ≤ info.rowsPerChunk.toNat)
    (final : chunk.lastChunk = true) : Covered table info rest [chunk] := by
  refine ⟨?_, ?_, [], chunk, rfl, final, nofun⟩
  · simpa using rows
  · simpa [rows] using small

theorem Covered.cons {page later : List (List Value)} {chunk : KeyChunk Value}
    {chunks : List (KeyChunk Value)} (rows : table.select chunk.boundary = page)
    (small : page.length ≤ info.rowsPerChunk.toNat) (further : chunk.lastChunk = false)
    (covered : Covered table info later chunks) :
    Covered table info (page ++ later) (chunk :: chunks) := by
  obtain ⟨others, final, rfl, marked, unmarked⟩ := covered.marked
  refine ⟨?_, ?_, chunk :: others, final, rfl, marked, ?_⟩
  · rw [map_cons, flatten_cons, rows, covered.rows]
  · rw [forall_mem_cons, rows]
    exact ⟨small, covered.bounded⟩
  · rw [forall_mem_cons]
    exact ⟨further, unmarked⟩

/-- Each round takes the rows of a chunk from the rest. -/
theorem chunkKeys_spec (rounds : Nat) {before rest : List (List Value)} {first last : List Value}
    (index : Nat) (split : table.rows = before ++ rest) (head : rest.head? = some first)
    (final : rest.getLast? = some last) (enough : rest.length ≤ rounds) :
    ∃ chunks, chunkKeys table info last rounds first index = some chunks ∧
      Covered table info rest chunks := by
  induction rounds generalizing before rest first index with
  | zero =>
    rw [length_eq_zero_iff.mp (Nat.le_zero.mp enough)] at head
    exact nomatch head
  | succ rounds ih =>
    have positive : 1 ≤ info.rowsPerChunk.toNat := UInt64.lt_iff_toNat_lt.mp info.positive
    have offset : (info.rowsPerChunk - 1).toNat = info.rowsPerChunk.toNat - 1 :=
      UInt64.toNat_sub_of_le _ _ (UInt64.le_iff_toNat_le.mpr positive)
    have fetched : ∀ position < 2,
        (table.query (.compareGe first) (info.rowsPerChunk - 1).toNat 2)[position]? =
          rest[info.rowsPerChunk.toNat - 1 + position]? := by
      intro position small
      rw [query, table.select_compareGe split head, offset, getElem?_take_of_lt small,
        getElem?_drop]
    unfold chunkKeys
    simp only [fetched 0 (by decide), fetched 1 (by decide), Nat.add_zero,
      Nat.sub_add_cancel positive]
    obtain long | short := Nat.lt_or_ge info.rowsPerChunk.toNat rest.length
    · have last_page : (rest.take info.rowsPerChunk.toNat).getLast? =
          rest[info.rowsPerChunk.toNat - 1]? := by
        rw [getLast?_take, if_neg (by omega), getElem?_eq_getElem (by omega), Option.some_or]
      have first_page : (rest.take info.rowsPerChunk.toNat).head? = some first := by
        rw [head?_take, if_neg (by omega), head]
      have first_later : (rest.drop info.rowsPerChunk.toNat).head? =
          rest[info.rowsPerChunk.toNat]? := head?_drop
      have last_later : (rest.drop info.rowsPerChunk.toNat).getLast? = some last := by
        rw [getLast?_drop, if_neg (by omega), final]
      have parts := take_append_drop info.rowsPerChunk.toNat rest
      have small := length_take_le info.rowsPerChunk.toNat rest
      have shorter := @length_drop _ info.rowsPerChunk.toNat rest
      rw [getElem?_eq_getElem (by omega)] at last_page first_later ⊢
      rw [getElem?_eq_getElem (by omega), Option.getD_some, Option.getD_some]
      generalize rest.take info.rowsPerChunk.toNat = page at *
      generalize rest.drop info.rowsPerChunk.toNat = later at *
      generalize rest[info.rowsPerChunk.toNat - 1] = rangeEnd at *
      generalize rest[info.rowsPerChunk.toNat] = next at *
      have apart : rangeEnd ≠ last := by
        have sorted := table.sorted_rows
        rw [split, ← parts] at sorted
        have less := (pairwise_append.mp (pairwise_append.mp sorted).2.1).2.2 rangeEnd
          (mem_of_getLast? last_page) last (mem_of_getLast? last_later)
        exact less.ne
      obtain ⟨chunks, run, covered⟩ := @ih (before ++ page) later next (index + 1)
        (by rw [split, ← parts, append_assoc]) first_later last_later (by omega)
      rw [if_neg apart, run, ← parts]
      refine ⟨_, rfl, covered.cons table info ?_ small (decide_eq_false apart)⟩
      exact table.select_between (by rw [split, ← parts]) first_page last_page
    · rw [getElem?_getD_of_length_le final positive short, if_pos rfl]
      refine ⟨_, rfl, Covered.single table info ?_ short (decide_eq_true rfl)⟩
      exact table.select_between (by rw [split, append_nil]) head final

/-- The chunks of a table have each of its rows once, in the order of the index. -/
theorem chunkColumn_covers :
    ∃ chunks, table.chunkColumn info = some chunks ∧ Covered table info table.rows chunks := by
  have whole : table.select .always = table.rows := by
    rw [select_eq]
    exact filter_eq_self.mpr fun _ _ => rfl
  unfold chunkColumn
  rw [whole]
  cases rows : table.rows with
  | nil =>
    refine ⟨_, rfl, Covered.single table info (whole.trans rows) (Nat.zero_le _) rfl⟩
  | cons first rest =>
    have final := getLast?_eq_some_getLast (cons_ne_nil first rest)
    have reversed : (first :: rest).reverse[0]? =
        some ((first :: rest).getLast (cons_ne_nil first rest)) := by
      rw [← head?_eq_getElem?, head?_reverse, final]
    rw [reversed]
    have enough : (first :: rest).length ≤ table.keys.length :=
      rows ▸ length_filter_le table.filter table.keys
    exact @chunkKeys_spec _ _ table info _ [] _ _ _ 0 rows rfl final enough

end IndexedTable

end MariadbShell.Dump
