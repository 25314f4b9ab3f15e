import MariadbShell.Dump.Compatibility
import MariadbShell.Sql.Tokens

/-!
# Scanning the definitions of a table

What the loops of `check_create_table_for_indexes` do with well-formed definitions and
options, and what is left of the text without the ranges that they collect.
-/

namespace MariadbShell.Dump

open List
open ImportTable (Bytes ascii)
open Sql DefinitionInfo Chr

/-! ## Ranges that are cut out -/

/-- The ranges end within `before`, of which they leave `kept`. -/
def Cuts (offsets : Offsets) (before kept : Bytes) : Prop :=
  ∀ rest more, (∀ range ∈ more.head?, before.length ≤ range.1) →
    replaceAtOffsets (before ++ rest) (offsets ++ more) [] =
      kept ++ replaceBehind (before ++ rest) [] before.length more

theorem replaceBehind_keep {before text rest : Bytes} {more : Offsets}
    (behind : ∀ range ∈ more.head?, (before ++ text).length ≤ range.1) :
    replaceBehind (before ++ (text ++ rest)) [] before.length more =
      text ++ replaceBehind (before ++ (text ++ rest)) [] (before ++ text).length more := by
  have dropped : (before ++ (text ++ rest)).drop (before ++ text).length = rest := by
    rw [← append_assoc, drop_left]
  cases more with
  | nil => rw [replaceBehind, replaceBehind, dropped, drop_left]
  | cons range more =>
    have start := behind range rfl
    rw [length_append] at start
    have split : range.1 - before.length = text.length + (range.1 - (before ++ text).length) := by
      rw [length_append]
      omega
    rw [replaceBehind, replaceBehind, dropped, drop_left, split, take_length_add_append]
    simp only [append_assoc]

namespace Cuts

variable {offsets : Offsets} {before kept : Bytes}

theorem nil (before : Bytes) : Cuts [] before before := by
  intro rest more behind
  have kept := @replaceBehind_keep [] before rest more behind
  exact kept

theorem keep (cuts : Cuts offsets before kept) (text : Bytes) :
    Cuts offsets (before ++ text) (kept ++ text) := by
  intro rest more behind
  have inside : ∀ range ∈ more.head?, before.length ≤ range.1 := by
    intro range member
    have start := behind range member
    rw [length_append] at start
    omega
  have cut := cuts (text ++ rest) more inside
  rw [replaceBehind_keep behind, ← append_assoc before] at cut
  exact cut.trans (append_assoc kept text _).symm

theorem cut (cuts : Cuts offsets before kept) (text : Bytes) :
    Cuts (offsets ++ [(before.length, (before ++ text).length)]) (before ++ text) kept := by
  intro rest more behind
  rw [append_assoc, append_assoc, cuts (text ++ rest) _ (by rintro _ ⟨rfl⟩; exact le_rfl),
    singleton_append, replaceBehind, Nat.sub_self, take_zero, append_assoc]
  rfl

-- What precedes a range does not depend on where it ends.
theorem replaceBehind_split (text : Bytes) (init : Offsets) (previous start : Nat) :
    ∃ front, ∀ stop more, replaceBehind text [] previous (init ++ (start, stop) :: more) =
      front ++ replaceBehind text [] stop more := by
  induction init generalizing previous with
  | nil => exact ⟨_, fun stop more => by rw [nil_append, replaceBehind, append_nil]⟩
  | cons range init ih =>
    obtain ⟨front, front_eq⟩ := ih range.2
    exact ⟨_, fun stop more => by
      rw [cons_append, replaceBehind, front_eq, ← append_assoc]⟩

theorem extend {init : Offsets} {start : Nat}
    (cuts : Cuts (init ++ [(start, before.length)]) before kept)
    (text : Bytes) : Cuts (init ++ [(start, (before ++ text).length)]) (before ++ text) kept := by
  intro rest more behind
  obtain ⟨front, front_eq⟩ := replaceBehind_split (before ++ text ++ rest) init 0 start
  have same := cuts (text ++ rest) [] (by simp)
  rw [append_nil, ← append_assoc before, replaceAtOffsets, front_eq] at same
  rw [replaceAtOffsets, append_assoc init, singleton_append, front_eq, append_cancel_right same]

/-- A clause is removed with the comma in front of it. -/
theorem removeClause (cuts : Cuts offsets before kept) (text rest : Bytes) (start : Nat) :
    Cuts (Dump.removeClause (before ++ Chr.comma :: (text ++ rest)) offsets before.length start
      (before.length + 1 + text.length)) (before ++ Chr.comma :: text) kept := by
  have comma : (before ++ Chr.comma :: (text ++ rest))[before.length]? = some Chr.comma := by
    simp
  have stop : before.length + 1 + text.length = (before ++ Chr.comma :: text).length := by
    rw [length_append, length_cons]
    omega
  rw [Dump.removeClause, if_pos comma, stop]
  split
  · rename_i previous last found
    obtain ⟨init, rfl⟩ := getLast?_eq_some_iff.mp found
    split
    · rename_i same
      rw [dropLast_concat]
      exact extend (same ▸ cuts) _
    · exact cuts.cut _
  · rename_i none_
    rw [getLast?_eq_none_iff.mp none_] at cuts
    exact cuts.cut _

theorem replaceAtOffsets_eq (cuts : Cuts offsets before kept) :
    replaceAtOffsets before offsets [] = kept := by
  have all := cuts [] [] (by simp)
  rwa [append_nil, append_nil, replaceBehind, drop_length, append_nil] at all

end Cuts

/-! ## Statements -/

/-- A comment does not follow directly. -/
def blankFirst (gap : List GapPart) : Bool :=
  gap.head?.all GapPart.isBlank

/-- Parentheses are balanced, and a comma stands only between them. -/
def nested : Nat → List Piece → Bool
  | depth, [] => depth = 0
  | depth, piece :: pieces =>
    if piece.lexeme = .punctuation openParenthesis then nested (depth + 1) pieces
    else if piece.lexeme = .punctuation closeParenthesis then
      depth ≠ 0 ∧ nested (depth - 1) pieces
    else if piece.lexeme = .punctuation comma then depth ≠ 0 ∧ nested depth pieces
    else nested depth pieces

/-- A definition of a column, an index or a constraint. -/
structure Clause where
  gap : List GapPart
  first : Lexeme
  more : List Piece
  trail : List GapPart

namespace Clause

variable (clause : Clause)

def pieces : List Piece :=
  ⟨clause.gap, clause.first⟩ :: clause.more

/-- The text between two commas. -/
def text : Bytes :=
  piecesText clause.pieces clause.trail

/-- The text from the first token on. -/
def body : Bytes :=
  clause.first.text ++ piecesText clause.more clause.trail

theorem text_eq : clause.text = gapText clause.gap ++ clause.body := by
  simp [text, body, pieces, piecesText]

def hasWord (words : List String) : Bool :=
  clause.more.any fun piece => isWord piece.lexeme.text words

structure Fits (clause : Clause) : Prop where
  blank : blankFirst clause.gap = true
  spaced : blankFirst (firstGap clause.more clause.trail) = true
  nested : nested 0 clause.more = true

instance (clause : Clause) : Decidable clause.Fits :=
  decidable_of_iff (blankFirst clause.gap = true ∧
      blankFirst (firstGap clause.more clause.trail) = true ∧ Dump.nested 0 clause.more = true)
    ⟨fun ⟨blank, spaced, nested⟩ => ⟨blank, spaced, nested⟩,
      fun ⟨blank, spaced, nested⟩ => ⟨blank, spaced, nested⟩⟩

end Clause

/-- The definitions, the parenthesis that closes them and what follows it. -/
def definitionPieces (clause : Clause) : List Clause → List Piece → List Piece
  | [], rest => clause.pieces ++ ⟨clause.trail, .punctuation closeParenthesis⟩ :: rest
  | next :: clauses, rest =>
    clause.pieces ++ ⟨clause.trail, .punctuation comma⟩ :: definitionPieces next clauses rest

/-! ## Tokens of a definition -/

theorem toLower_eq_punctuation {chr other : UInt8} (isPunct : SqlIterator.isPunctuation chr = true)
    (same : toLower other = toLower chr) : other = chr := by
  unfold SqlIterator.isPunctuation at isPunct
  unfold toLower at same
  simp only [comma, semicolon, openParenthesis, closeParenthesis, equal, atSign] at isPunct
  grind

theorem caseEq_punctuation {chr : UInt8} (isPunct : SqlIterator.isPunctuation chr = true)
    (token : Bytes) : caseEq token [chr] = true ↔ token = [chr] := by
  rw [caseEq, decide_eq_true_eq]
  constructor
  · intro same
    cases token with
    | nil => cases same
    | cons first rest =>
      injection same with first_eq rest_eq
      rw [toLower_eq_punctuation isPunct first_eq, map_eq_nil_iff.mp rest_eq]
  · rintro rfl
    rfl

theorem lexeme_of_text {lexeme : Lexeme} {hint : Bool} {gap : List GapPart} {rest : Bytes}
    (fits : lexeme.Fits hint gap rest) {chr : UInt8}
    (isPunct : SqlIterator.isPunctuation chr = true) (text : lexeme.text = [chr]) :
    lexeme = .punctuation chr := by
  cases lexeme with
  | run chars =>
    obtain ⟨all, -⟩ := fits
    change chars = [chr] at text
    rw [text] at all
    simp [isRunChar, isPunct] at all
  | punctuation other => exact congrArg _ (singleton_inj.mp text)
  | string quote body => simp [Lexeme.text] at text
  | name identifier => simp [Lexeme.text, quoteIdentifier] at text
  | member owner part => simp [Lexeme.text, quoteIdentifier] at text
  | everyMember owner => simp [Lexeme.text, quoteIdentifier] at text

theorem nextDdlToken_eq {it : SqlIterator} {hint : Bool} {before : Bytes} {piece : Piece}
    {pieces : List Piece} {last : List GapPart}
    (reads : Reads it hint before (piece :: pieces) last) :
    ∃ later, nextDdlToken it = .ok (piece.lexeme.text, later) ∧
      Reads later (gapState hint piece.gap) (before ++ gapText piece.gap ++ piece.lexeme.text)
        pieces last := by
  obtain ⟨later, next_eq, reached⟩ := reads.nextToken
  exact ⟨later, by rw [nextDdlToken, next_eq]; rfl, reached⟩

theorem read_punctuation (fulltextOnly : Bool) (state : DefinitionInfo × Bytes) {chr : UInt8}
    (isParenthesis : chr = openParenthesis ∨ chr = closeParenthesis) :
    read fulltextOnly state [chr] = state := by
  have other : ∀ words ∈ [["KEY", "INDEX"], ["FOREIGN"], ["AUTO_INCREMENT"], ["AS"], ["STORED"]],
      isWord [chr] words = false := by
    rcases isParenthesis with rfl | rfl <;> decide
  unfold DefinitionInfo.read
  simp only [other _ (mem_cons_self), other ["FOREIGN"] (by simp),
    other ["AUTO_INCREMENT"] (by simp), other ["AS"] (by simp), other ["STORED"] (by simp)]
  simp

/-- What is known behind the tokens of a definition. -/
def readPieces (fulltextOnly : Bool) (state : DefinitionInfo × Bytes) (pieces : List Piece) :
    DefinitionInfo × Bytes :=
  pieces.foldl (fun state piece => read fulltextOnly state piece.lexeme.text) state

section

variable {it : SqlIterator} {hint : Bool} {before : Bytes} {pieces rest : List Piece}
  {last trail : List GapPart}

/-- One turn of the loop over the tokens of a definition. -/
theorem definitionLoop_piece {piece : Piece} {depth : Nat}
    (balanced : nested depth (piece :: pieces) = true)
    (reads : Reads it hint before (piece :: (pieces ++ rest)) last) {next : SqlIterator}
    (next_eq : nextDdlToken it = .ok (piece.lexeme.text, next))
    (fulltextOnly : Bool) (token : Bytes) (state : DefinitionInfo × Bytes) :
    ∃ inner, nested inner pieces = true ∧ ∀ fuel,
      definitionLoop fulltextOnly (fuel + 1) { it, braceCount := depth + 1, token, state } =
        definitionLoop fulltextOnly fuel
          { it := next
            braceCount := inner + 1
            token := piece.lexeme.text
            state := read fulltextOnly state piece.lexeme.text } := by
  have is (chr : UInt8) (isPunct : SqlIterator.isPunctuation chr = true) :
      caseEq piece.lexeme.text [chr] = true ↔ piece.lexeme = .punctuation chr := by
    rw [caseEq_punctuation isPunct]
    exact ⟨lexeme_of_text reads.formed.2.1 isPunct, fun same => by rw [same]; rfl⟩
  have opens := is openParenthesis (by decide)
  have closes := is closeParenthesis (by decide)
  have commas := is comma (by decide)
  have turn (fuel : Nat) := definitionLoop.eq_def fulltextOnly (fuel + 1)
    { it, braceCount := depth + 1, token, state }
  simp only [reads.valid, Nat.zero_lt_succ, and_self, if_true, next_eq, opens, closes, commas]
    at turn
  rw [nested] at balanced
  split at balanced
  · rename_i isOpen
    refine ⟨depth + 1, balanced, fun fuel => ?_⟩
    rw [turn, if_pos isOpen, isOpen]
    exact congrArg _ (by rw [Lexeme.text, read_punctuation _ _ (.inl rfl)])
  · rename_i notOpen
    simp only [if_neg notOpen] at turn
    split at balanced
    · rename_i isClose
      obtain ⟨positive, balanced⟩ := of_decide_eq_true balanced
      obtain ⟨depth, rfl⟩ := Nat.exists_eq_succ_of_ne_zero positive
      refine ⟨depth, balanced, fun fuel => ?_⟩
      rw [turn, if_pos isClose, isClose]
      exact congrArg _ (by rw [Lexeme.text, read_punctuation _ _ (.inr rfl)]; rfl)
    · rename_i notClose
      simp only [if_neg notClose] at turn
      split at balanced
      · obtain ⟨positive, balanced⟩ := of_decide_eq_true balanced
        refine ⟨depth, balanced, fun fuel => ?_⟩
        rw [turn, if_neg (by omega)]
      · rename_i notComma
        exact ⟨depth, balanced, fun fuel => by rw [turn, if_neg (fun both => notComma both.2)]⟩

/-- The loop over the tokens of a definition ends behind the comma or the parenthesis. -/
theorem definitionLoop_eq {stop : UInt8}
    (stop_ : stop = comma ∨ stop = closeParenthesis) {depth : Nat}
    (balanced : nested depth pieces = true)
    (reads : Reads it hint before (pieces ++ ⟨trail, .punctuation stop⟩ :: rest) last)
    (fulltextOnly : Bool) (token : Bytes) (state : DefinitionInfo × Bytes) :
    ∃ later hint', Reads later hint' (before ++ piecesText pieces trail ++ [stop]) rest last ∧
      ∀ fuel, pieces.length + 2 ≤ fuel →
        definitionLoop fulltextOnly fuel { it, braceCount := depth + 1, token, state } =
          .ok
            { it := later
              braceCount := if stop = comma then 1 else 0
              token := [stop]
              state := readPieces fulltextOnly state pieces } := by
  induction pieces generalizing it hint before depth token state with
  | nil =>
    obtain rfl : depth = 0 := by simpa [nested] using balanced
    obtain ⟨later, next_eq, reached⟩ := nextDdlToken_eq reads
    refine ⟨later, _, by simpa [piecesText, Lexeme.text] using reached, ?_⟩
    rintro (- | - | fuel) enough
    · simp at enough
    · simp at enough
    · rw [definitionLoop, if_pos ⟨reads.valid, Nat.one_pos⟩, next_eq]
      rcases stop_ with rfl | rfl
      · rfl
      · simp only [Lexeme.text]
        rw [if_neg (by decide), if_pos (by decide), definitionLoop, if_neg (by simp)]
        rfl
  | cons piece pieces ih =>
    obtain ⟨next, next_eq, reached⟩ := nextDdlToken_eq reads
    obtain ⟨inner, balanced', turn⟩ := definitionLoop_piece balanced reads next_eq
      fulltextOnly token state
    obtain ⟨later, hint', done, looped⟩ := ih balanced' reached piece.lexeme.text
      (read fulltextOnly state piece.lexeme.text)
    refine ⟨later, hint', ?_, ?_⟩
    · simpa [piecesText] using done
    · rintro (- | fuel) enough
      · simp at enough
      · rw [turn, looped fuel (by rw [length_cons] at enough; omega)]
        rfl

end

/-! ## Definitions -/

namespace Clause

/-- What is known behind the definition, and the column with `AUTO_INCREMENT`. -/
def info (clause : Clause) (fulltextOnly : Bool) (autoIncrement : Bytes) :
    DefinitionInfo × Bytes :=
  readPieces fulltextOnly (begin fulltextOnly clause.first.text, autoIncrement)
    clause.more

/-- The definition is taken out of the statement. -/
def moved (clause : Clause) (fulltextOnly : Bool) (autoIncrement : Bytes) : Bool :=
  let (info, autoIncrement) := clause.info fulltextOnly autoIncrement
  info.indexDeclaration ∧
    ¬ (autoIncrement ≠ [] ∧ ¬ info.constraint ∧ autoIncrement <:+: clause.body)

/-- The statements that are deferred behind the definition. -/
def defer (clause : Clause) (fulltextOnly : Bool) (autoIncrement : Bytes)
    (deferred : DeferredStatements) : DeferredStatements :=
  let info := (clause.info fulltextOnly autoIncrement).1
  let seen : DeferredStatements :=
    { deferred with
      indexInfo :=
        { deferred.indexInfo with
          hasVirtualColumns := deferred.indexInfo.hasVirtualColumns || info.generatedVirtual } }
  if clause.moved fulltextOnly autoIncrement then seen.emplace info.storage (strStrip clause.body)
  else seen

end Clause

section

variable {check : IndexCheck} {hint : Bool} {before kept : Bytes} {rest : List Piece}
  {last : List GapPart} {fulltextOnly : Bool}

variable {clause : Clause}

theorem endDefinition_eq {statement : Bytes} {scan : DefinitionScan}
    (state : scan.state = clause.info fulltextOnly check.autoIncrementColumn) {start stop : Nat}
    (stop_eq : scan.it.position - scan.token.length = stop)
    (clause_eq : (statement.drop start).take (stop - start) = clause.body) (potentialComma : Nat) :
    endDefinition statement check potentialComma start scan =
      { it := scan.it
        braceCount := scan.braceCount
        autoIncrementColumn := (clause.info fulltextOnly check.autoIncrementColumn).2
        offsets :=
          if clause.moved fulltextOnly check.autoIncrementColumn then
            removeClause statement check.offsets potentialComma start stop
          else check.offsets
        deferred := clause.defer fulltextOnly check.autoIncrementColumn check.deferred } := by
  unfold endDefinition Clause.defer Clause.moved
  simp only [state, stop_eq, clause_eq, decide_eq_true_eq]
  by_cases declared : (clause.info fulltextOnly check.autoIncrementColumn).1.indexDeclaration = true
  · rw [if_neg (not_not.mpr declared)]
    simp only [declared, true_and]
    split <;> rfl
  · simp only [declared, not_false_eq_true, if_true, false_and, if_false, Bool.false_eq_true]

theorem checkDefinition_eq (fits : clause.Fits) {mark stop : UInt8}
    (stop_ : stop = Chr.comma ∨ stop = closeParenthesis)
    (reads : Reads check.it hint (before ++ [mark])
      (clause.pieces ++ ⟨clause.trail, .punctuation stop⟩ :: rest) last)
    (some_ : rest ≠ []) (blank : blankFirst (firstGap rest last) = true)
    (inside : check.braceCount = 1) (cuts : Cuts check.offsets before kept)
    (comma : mark = Chr.comma ∨ clause.moved fulltextOnly check.autoIncrementColumn = false)
    (tableName : Bytes) :
    ∃ later hint', checkDefinition check.it.text tableName fulltextOnly check = .ok later ∧
      Reads later.it hint' (before ++ mark :: clause.text ++ [stop]) rest last ∧
      later.braceCount = (if stop = Chr.comma then 1 else 0) ∧
      later.autoIncrementColumn = (clause.info fulltextOnly check.autoIncrementColumn).2 ∧
      Cuts later.offsets (before ++ mark :: clause.text)
        (kept ++ if clause.moved fulltextOnly check.autoIncrementColumn then []
          else mark :: clause.text) ∧
      later.deferred = clause.defer fulltextOnly check.autoIncrementColumn check.deferred := by
  have offset : check.it.offset = before.length + 1 := by
    rw [reads.offset_eq fits.blank, length_append, length_singleton]
  have text : check.it.text = before ++ mark :: (clause.text ++ stop :: piecesText rest last) := by
    rw [reads.text_eq]
    simp [piecesText, Clause.text, Lexeme.text]
  have enough : clause.more.length + 2 ≤ check.it.text.length + 1 := by
    have length := reads.formed.length_le
    have text := congrArg List.length reads.text_eq
    simp only [Clause.pieces, length_append, length_cons] at length text
    omega
  rw [Clause.pieces, cons_append] at reads
  obtain ⟨it, next_eq, begun⟩ := nextDdlToken_eq reads
  have gap_eq : firstGap (clause.more ++ ⟨clause.trail, .punctuation stop⟩ :: rest) last =
      firstGap clause.more clause.trail := by
    cases clause.more with
    | nil => rfl
    | cons piece more => rfl
  have begun_offset := begun.offset_eq (by rw [gap_eq]; exact fits.spaced)
  obtain ⟨later, hint', reached, looped⟩ := definitionLoop_eq stop_ fits.nested begun
    fulltextOnly clause.first.text
    (begin fulltextOnly clause.first.text, check.autoIncrementColumn)
  have looped := looped _ enough
  rw [Nat.zero_add] at looped
  have valid : later.valid = true := by
    obtain ⟨piece, more, rfl⟩ := exists_cons_of_ne_nil some_
    exact reached.valid
  have reached_eq : before ++ [mark] ++ gapText clause.gap ++ clause.first.text ++
      piecesText clause.more clause.trail ++ [stop] = before ++ mark :: clause.text ++ [stop] := by
    simp [Clause.text_eq, Clause.body]
  rw [reached_eq] at reached
  have start_eq : it.offset - clause.first.text.length =
      (before ++ mark :: gapText clause.gap).length := by
    rw [begun_offset]
    simp only [length_append, length_cons, length_nil]
    omega
  have stop_eq : later.offset - 1 = before.length + 1 + clause.text.length := by
    rw [reached.offset_eq blank]
    simp only [length_append, length_cons, length_nil]
    omega
  have clause_eq : (check.it.text.drop (before ++ mark :: gapText clause.gap).length).take
      (before.length + 1 + clause.text.length - (before ++ mark :: gapText clause.gap).length) =
        clause.body := by
    have split : check.it.text = (before ++ mark :: gapText clause.gap) ++
        (clause.body ++ stop :: piecesText rest last) := by
      rw [text, clause.text_eq]
      simp
    have length : before.length + 1 + clause.text.length -
        (before ++ mark :: gapText clause.gap).length = clause.body.length := by
      rw [clause.text_eq]
      simp only [length_append, length_cons]
      omega
    rw [split, drop_left, length, take_left]
  have checked : checkDefinition check.it.text tableName fulltextOnly check =
      .ok
        { it := later
          braceCount := if stop = Chr.comma then 1 else 0
          autoIncrementColumn := (clause.info fulltextOnly check.autoIncrementColumn).2
          offsets :=
            if clause.moved fulltextOnly check.autoIncrementColumn then
              removeClause check.it.text check.offsets before.length
                (before ++ mark :: gapText clause.gap).length
                (before.length + 1 + clause.text.length)
            else check.offsets
          deferred := clause.defer fulltextOnly check.autoIncrementColumn check.deferred } := by
    simp only [checkDefinition, next_eq, SqlIterator.position, inside, looped, start_eq,
      valid, offset, Nat.add_sub_cancel, not_true, if_false]
    refine congrArg Except.ok (endDefinition_eq ?_ ?_ clause_eq _)
    · rfl
    · exact stop_eq
  refine ⟨_, hint', checked, reached, rfl, rfl, ?_, rfl⟩
  cases moved : clause.moved fulltextOnly check.autoIncrementColumn with
  | true =>
    obtain rfl := comma.resolve_right (by rw [moved]; decide)
    simp only [if_true, append_nil]
    rw [text]
    exact cuts.removeClause _ _ _
  | false =>
    exact cuts.keep _

/-- The text of the definitions that stay, with the marks in front of them. -/
def keptClauses (fulltextOnly : Bool) : Bytes → UInt8 → List Clause → Bytes
  | _, _, [] => []
  | autoIncrement, mark, clause :: clauses =>
    (if clause.moved fulltextOnly autoIncrement then [] else mark :: clause.text) ++
      keptClauses fulltextOnly (clause.info fulltextOnly autoIncrement).2 comma clauses

def deferClauses (fulltextOnly : Bool) :
    Bytes → DeferredStatements → List Clause → DeferredStatements
  | _, deferred, [] => deferred
  | autoIncrement, deferred, clause :: clauses =>
    deferClauses fulltextOnly (clause.info fulltextOnly autoIncrement).2
      (clause.defer fulltextOnly autoIncrement deferred) clauses

/-- The loop over the definitions ends behind the last parenthesis. -/
theorem definitionsLoop_eq {clauses : List Clause}
    (fits : ∀ other ∈ clause :: clauses, other.Fits) {mark : UInt8}
    (reads : Reads check.it hint (before ++ [mark]) (definitionPieces clause clauses rest) last)
    (some_ : rest ≠ []) (blank : blankFirst (firstGap rest last) = true)
    (inside : check.braceCount = 1) (cuts : Cuts check.offsets before kept)
    (comma : mark = Chr.comma ∨ clause.moved fulltextOnly check.autoIncrementColumn = false)
    (tableName : Bytes) :
    ∃ later hint', (∀ fuel, clauses.length + 2 ≤ fuel →
        definitionsLoop check.it.text tableName fulltextOnly fuel check = .ok later) ∧
      Reads later.it hint'
        (before ++ mark :: clause.text ++ (clauses.flatMap fun other => Chr.comma :: other.text) ++
          [closeParenthesis]) rest last ∧
      Cuts later.offsets
        (before ++ mark :: clause.text ++ clauses.flatMap fun other => Chr.comma :: other.text)
        (kept ++ keptClauses fulltextOnly check.autoIncrementColumn mark (clause :: clauses)) ∧
      later.deferred =
        deferClauses fulltextOnly check.autoIncrementColumn check.deferred (clause :: clauses) := by
  have fits_clause := fits clause mem_cons_self
  induction clauses generalizing clause check hint before kept mark with
  | nil =>
    obtain ⟨later, hint', checked, reached, braces, auto, cut, deferred⟩ :=
      checkDefinition_eq fits_clause (.inr rfl) reads some_ blank inside cuts comma tableName
    refine ⟨later, hint', ?_, by simpa using reached, ?_, deferred⟩
    · rintro (- | - | fuel) enough
      · simp at enough
      · simp at enough
      · have outside : ¬ (later.it.valid = true ∧ 0 < later.braceCount) := by
          rw [braces]
          exact fun both => absurd both.2 (by decide)
        rw [definitionsLoop, if_pos ⟨reads.valid, by omega⟩, checked]
        simp only [definitionsLoop, if_neg outside]
    · simpa [keptClauses] using cut
  | cons next clauses ih =>
    have fits_next := fits next (by simp)
    obtain ⟨later, hint', checked, reached, braces, auto, cut, deferred⟩ :=
      checkDefinition_eq fits_clause (.inl rfl) reads
        (by cases clauses <;> simp [definitionPieces, Clause.pieces])
        (by cases clauses <;> exact fits_next.blank) inside cuts comma tableName
    obtain ⟨final, hint'', looped, done, cut', deferred'⟩ :=
      ih (fun other member => fits other (mem_cons_of_mem _ member)) reached braces cut
        (.inl rfl) fits_next
    have text : later.it.text = check.it.text := by
      rw [reached.text_eq, reads.text_eq]
      simp [definitionPieces, piecesText, Clause.text, Lexeme.text]
    rw [auto] at cut' deferred'
    refine ⟨final, hint'', ?_, by simpa using done, by simpa [keptClauses] using cut', ?_⟩
    · rintro (- | fuel) enough
      · simp at enough
      · rw [definitionsLoop, if_pos ⟨by cases clauses <;> exact reads.valid, by omega⟩, checked,
          ← text]
        exact looped fuel (by rw [length_cons] at enough; omega)
    · rw [deferred', deferred]
      rfl

end

/-! ## Options -/

/-- An option `ENGINE` or `SECONDARY_ENGINE`, or a token of another option. -/
inductive TableOption where
  | other (piece : Piece)
  | engine (keyword : Piece) (equal : Option (List GapPart)) (name : Piece)
  | secondaryEngine (keyword : Piece) (equal : Option (List GapPart)) (name : Piece)

def equalPieces : Option (List GapPart) → List Piece
  | none => []
  | some gap => [⟨gap, .punctuation equal⟩]

namespace TableOption

def pieces : TableOption → List Piece
  | .other piece => [piece]
  | .engine keyword equal name | .secondaryEngine keyword equal name =>
    keyword :: (equalPieces equal ++ [name])

def text (option : TableOption) : Bytes :=
  piecesText option.pieces []

def keptText : TableOption → Bytes
  | .secondaryEngine keyword equal name =>
    if isWord name.lexeme.text ["NULL"] then text (.secondaryEngine keyword equal name)
    else gapText keyword.gap
  | option => option.text

/-- The option in front of a gap. -/
def Fits (gap : List GapPart) : TableOption → Prop
  | .other piece => isWord piece.lexeme.text ["SECONDARY_ENGINE", "ENGINE"] = false
  | .engine keyword _ name =>
    isWord keyword.lexeme.text ["ENGINE"] = true ∧ name.lexeme ≠ .punctuation Chr.equal
  | .secondaryEngine keyword equal name =>
    isWord keyword.lexeme.text ["SECONDARY_ENGINE"] = true ∧
      name.lexeme ≠ .punctuation Chr.equal ∧
        blankFirst (firstGap (equalPieces equal ++ [name]) []) = true ∧ blankFirst gap = true

def engineName (current : Bytes) : TableOption → Bytes
  | .engine _ _ name => name.lexeme.text
  | _ => current

/-- The statement that sets the secondary engine. -/
def alter (tableName current : Bytes) : TableOption → Bytes
  | .secondaryEngine _ _ name =>
    if isWord name.lexeme.text ["NULL"] then current
    else ascii "ALTER TABLE ".toList ++ tableName ++ ascii " SECONDARY_ENGINE=".toList ++
      name.lexeme.text ++ [semicolon]
  | _ => current

end TableOption

def optionPieces (options : List TableOption) : List Piece :=
  options.flatMap TableOption.pieces

def OptionsFit (last : List GapPart) : List TableOption → Prop
  | [] => True
  | option :: options =>
    option.Fits (firstGap (optionPieces options) last) ∧ OptionsFit last options

section

variable {it : SqlIterator} {hint : Bool} {before kept : Bytes} {rest : List Piece}
  {last : List GapPart}

theorem readEngine_eq {equal : Option (List GapPart)} {name : Piece}
    (reads : Reads it hint before (equalPieces equal ++ name :: rest) last)
    (other : name.lexeme ≠ .punctuation Chr.equal) :
    ∃ later hint', readEngine it = .ok (name.lexeme.text, later) ∧
      Reads later hint' (before ++ piecesText (equalPieces equal ++ [name]) []) rest last := by
  have notEqual : ∀ {hint gap rest}, name.lexeme.Fits hint gap rest →
      caseEq name.lexeme.text [Chr.equal] = false := by
    intro hint gap rest fits
    rw [← Bool.not_eq_true, caseEq_punctuation (by decide)]
    exact fun text => other (lexeme_of_text fits (by decide) text)
  cases equal with
  | none =>
    obtain ⟨later, next_eq, reached⟩ := nextDdlToken_eq reads
    refine ⟨later, _, ?_, by simpa [piecesText, equalPieces, gapText] using reached⟩
    simp only [readEngine, next_eq, notEqual reads.formed.2.1, Bool.false_eq_true, if_false]
  | some gap =>
    obtain ⟨next, first_eq, begun⟩ := nextDdlToken_eq reads
    obtain ⟨later, next_eq, reached⟩ := nextDdlToken_eq begun
    refine ⟨later, _, ?_, by simpa [piecesText, equalPieces, gapText] using reached⟩
    simp only [readEngine, first_eq, Lexeme.text, next_eq]
    rfl

theorem isWord_cons (token : Bytes) (word : String) (words : List String) :
    isWord token (word :: words) = (isWord token [word] || isWord token words) := by
  simp [isWord]

/-- A token is one of several words, none of which is one of the others. -/
theorem isWord_disjoint {token : Bytes} {words others : List String}
    (member : isWord token words = true)
    (disjoint : ∀ word ∈ words, isWord (ascii word.toList) others = false) :
    isWord token others = false := by
  obtain ⟨word, among, same⟩ := any_eq_true.mp member
  rw [← disjoint word among]
  rw [caseEq, decide_eq_true_eq] at same
  simp only [isWord, caseEq, same]

theorem optionsLoop_option {check : IndexCheck} {option : TableOption}
    (fits : option.Fits (firstGap rest last))
    (reads : Reads check.it hint before (option.pieces ++ rest) last)
    (cuts : Cuts check.offsets before kept) (tableName engine : Bytes) :
    ∃ later hint', (∀ fuel, optionsLoop tableName (fuel + 1) engine check =
        optionsLoop tableName fuel (option.engineName engine) later) ∧
      Reads later.it hint' (before ++ option.text) rest last ∧
      Cuts later.offsets (before ++ option.text) (kept ++ option.keptText) ∧
      later.deferred =
        { check.deferred with
          secondaryEngine := option.alter tableName check.deferred.secondaryEngine } := by
  cases option with
  | other piece =>
    have other : isWord piece.lexeme.text ["SECONDARY_ENGINE", "ENGINE"] = false := fits
    rw [isWord_cons, Bool.or_eq_false_iff] at other
    obtain ⟨next, next_eq, reached⟩ := nextDdlToken_eq reads
    refine ⟨{ check with it := next }, gapState hint piece.gap, fun fuel => ?_, ?_, cuts.keep _,
      rfl⟩
    · rw [optionsLoop, if_pos reads.valid, next_eq]
      simp only [other, Bool.false_eq_true, if_false]
      rfl
    · simpa [TableOption.text, TableOption.pieces, piecesText, gapText] using reached
  | engine keyword equal name =>
    rw [TableOption.pieces, cons_append, append_assoc, singleton_append] at reads
    obtain ⟨next, next_eq, begun⟩ := nextDdlToken_eq reads
    obtain ⟨later, hint', read_eq, reached⟩ := readEngine_eq begun fits.2
    have notSecondary : isWord keyword.lexeme.text ["SECONDARY_ENGINE"] = false :=
      isWord_disjoint fits.1 (by decide)
    refine ⟨{ check with it := later }, hint', fun fuel => ?_, ?_, cuts.keep _, rfl⟩
    · rw [optionsLoop, if_pos reads.valid, next_eq]
      simp only [notSecondary, fits.1, Bool.false_eq_true, if_false, if_true, read_eq]
      rfl
    · simpa [TableOption.text, TableOption.pieces, piecesText, gapText] using reached
  | secondaryEngine keyword equal name =>
    obtain ⟨isKeyword, notEqual, inner, blank⟩ := fits
    rw [TableOption.pieces, cons_append, append_assoc, singleton_append] at reads
    obtain ⟨next, next_eq, begun⟩ := nextDdlToken_eq reads
    obtain ⟨later, hint', read_eq, reached⟩ := readEngine_eq begun notEqual
    have text : before ++ TableOption.text (.secondaryEngine keyword equal name) =
        before ++ gapText keyword.gap ++ (keyword.lexeme.text ++
          piecesText (equalPieces equal ++ [name]) []) := by
      simp [TableOption.text, TableOption.pieces, piecesText]
    rw [append_assoc, ← text] at reached
    by_cases null : isWord name.lexeme.text ["NULL"] = true
    · refine ⟨{ check with it := later }, hint', fun fuel => ?_, reached, ?_, ?_⟩
      · rw [optionsLoop, if_pos reads.valid, next_eq]
        simp only [isKeyword, if_true, read_eq, null]
        rfl
      · rw [TableOption.keptText, if_pos null]
        exact cuts.keep _
      · rw [TableOption.alter, if_pos null]
    · have start : next.position - keyword.lexeme.text.length =
          (before ++ gapText keyword.gap).length := by
        have offset := begun.offset_eq (by cases equal <;> exact inner)
        rw [SqlIterator.position, offset, length_append, Nat.add_sub_cancel]
      have stop : later.position = (before ++ gapText keyword.gap ++ (keyword.lexeme.text ++
          piecesText (equalPieces equal ++ [name]) [])).length := by
        rw [← text]
        exact reached.offset_eq blank
      let deferred : DeferredStatements :=
        { check.deferred with
          secondaryEngine := TableOption.alter tableName check.deferred.secondaryEngine
            (.secondaryEngine keyword equal name) }
      refine ⟨{ check with
          it := later
          offsets := check.offsets ++ [((before ++ gapText keyword.gap).length, later.position)]
          deferred }, hint', fun fuel => ?_, reached, ?_, rfl⟩
      · rw [optionsLoop, if_pos reads.valid, next_eq]
        simp only [isKeyword, if_true, read_eq, null, start, if_false, deferred,
          TableOption.alter, Bool.false_eq_true]
        rfl
      · rw [TableOption.keptText, if_neg null, text, stop]
        exact (cuts.keep _).cut _

theorem optionsLoop_eq {check : IndexCheck} {options : List TableOption}
    (fits : OptionsFit last options)
    (reads : Reads check.it hint before (optionPieces options) last)
    (cuts : Cuts check.offsets before kept) (tableName engine : Bytes) :
    ∃ later, (∀ fuel, options.length + 2 ≤ fuel →
        optionsLoop tableName fuel engine check =
          .ok (options.foldl TableOption.engineName engine, later)) ∧
      Cuts later.offsets (before ++ piecesText (optionPieces options) last)
        (kept ++ (options.flatMap TableOption.keptText ++ gapText last)) ∧
      later.deferred =
        { check.deferred with
          secondaryEngine :=
            options.foldl (TableOption.alter tableName) check.deferred.secondaryEngine } := by
  induction options generalizing check hint before kept engine with
  | nil =>
    by_cases valid : check.it.valid = true
    · obtain ⟨next, next_eq, reached⟩ := reads.nextToken_nil
      have token_eq : nextDdlToken check.it = .ok ([], next) := by
        rw [nextDdlToken, next_eq]
        rfl
      refine ⟨{ check with it := next }, ?_, cuts.keep _, rfl⟩
      rintro (- | - | fuel) enough
      · simp at enough
      · simp at enough
      · rw [optionsLoop, if_pos valid, token_eq]
        change optionsLoop tableName (fuel + 1) engine { check with it := next } = _
        rw [optionsLoop, if_neg (by rw [reached.not_valid]; decide)]
        rfl
    · refine ⟨check, ?_, cuts.keep _, rfl⟩
      rintro (- | fuel) enough
      · simp at enough
      · rw [optionsLoop, if_neg valid]
        rfl
  | cons option options ih =>
    obtain ⟨next, hint', turn, reached, cut, deferred⟩ :=
      optionsLoop_option fits.1 reads cuts tableName engine
    obtain ⟨later, looped, cut', deferred'⟩ := ih fits.2 reached cut (option.engineName engine)
    refine ⟨later, ?_, ?_, ?_⟩
    · rintro (- | fuel) enough
      · simp at enough
      · rw [turn, looped fuel (by rw [length_cons] at enough; omega)]
        rfl
    · simpa [optionPieces, piecesText, TableOption.text, gapText] using cut'
    · rw [deferred', deferred]
      rfl

end

end MariadbShell.Dump
