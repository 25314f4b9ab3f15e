import MariadbShell.Dump.DdlScan

/-!
# Which indexes are created later

A statement `CREATE TABLE` as the server prints it: columns, then other definitions, then
options. The definitions that are taken out of it are clauses of indexes and foreign keys,
and the rest of the text stays.
-/

namespace MariadbShell.Dump

open List
open ImportTable (Bytes ascii)
open Sql Clause Chr

/-! ## Statements -/

namespace Clause

def isIndex (clause : Clause) : Bool :=
  isWord clause.first.text ["FULLTEXT", "UNIQUE", "KEY", "INDEX", "SPATIAL"]

def isConstraint (clause : Clause) : Bool :=
  isWord clause.first.text ["CONSTRAINT"]

/-- A constraint, with or without a name, that is a key. -/
def isKeyConstraint (clause : Clause) : Bool :=
  clause.isConstraint &&
    (clause.more.dropWhile fun piece => piece.lexeme.text.head? = some backtick).head?.any
      fun piece => isWord piece.lexeme.text ["FOREIGN", "UNIQUE", "PRIMARY"]

def isAutoIncrement (clause : Clause) : Bool :=
  clause.hasWord ["AUTO_INCREMENT"]

end Clause

structure TableParts where
  create : Piece
  table : Piece
  name : List Piece
  opening : List GapPart
  column : Clause
  columns : List Clause
  definitions : List Clause
  options : List TableOption
  last : List GapPart

namespace TableParts

def pieces (parts : TableParts) : List Piece :=
  parts.create :: parts.table ::
    (parts.name ++ ⟨parts.opening, .punctuation openParenthesis⟩ ::
      definitionPieces parts.column (parts.columns ++ parts.definitions)
        (optionPieces parts.options))

def head (parts : TableParts) : Bytes :=
  piecesText (parts.create :: parts.table :: parts.name) parts.opening

/-- The text with the given definitions behind the columns, and the given text of the options. -/
def textWith (parts : TableParts) (definitions : List Clause)
    (optionText : TableOption → Bytes) : Bytes :=
  parts.head ++ openParenthesis :: parts.column.text ++
    ((parts.columns ++ definitions).flatMap fun clause => comma :: clause.text) ++
    closeParenthesis :: (parts.options.flatMap optionText ++ gapText parts.last)

def text (parts : TableParts) : Bytes :=
  parts.textWith parts.definitions TableOption.text

end TableParts

/-- A statement that the server prints. -/
structure CreateTable extends TableParts where
  isCreate : isWord create.lexeme.text ["CREATE"] = true
  isTable : isWord table.lexeme.text ["TABLE"] = true
  plain : ∀ piece ∈ name, piece.lexeme ≠ .punctuation openParenthesis
  formed : Formed false toTableParts.pieces last
  fits : ∀ clause ∈ column :: (columns ++ definitions), clause.Fits
  isColumn : ∀ clause ∈ column :: columns, ∃ identifier, clause.first = .name identifier
  isOther : ∀ clause ∈ definitions, clause.first.text.head? ≠ some backtick
  /-- Names are quoted, so the words `KEY` and `INDEX` tell that a constraint is a key. -/
  isKey : ∀ clause ∈ definitions, clause.isConstraint = true →
    clause.hasWord ["KEY", "INDEX"] = true → clause.isKeyConstraint = true
  oneAutoIncrement : ∀ first ∈ column :: columns, ∀ second ∈ column :: columns,
    first.isAutoIncrement = true → second.isAutoIncrement = true → first.first = second.first
  hasOptions : options ≠ []
  spaced : blankFirst (firstGap (optionPieces options) last) = true
  optionsFit : OptionsFit last options

theorem definitionPieces_text (clause : Clause) (clauses : List Clause) (rest : List Piece)
    (last : List GapPart) :
    piecesText (definitionPieces clause clauses rest) last =
      clause.text ++ (clauses.flatMap fun other => comma :: other.text) ++
        closeParenthesis :: piecesText rest last := by
  induction clauses generalizing clause with
  | nil => simp [definitionPieces, piecesText, Clause.text, Lexeme.text]
  | cons next clauses ih =>
    have split : piecesText (definitionPieces clause (next :: clauses) rest) last =
        clause.text ++ comma :: piecesText (definitionPieces next clauses rest) last := by
      simp [definitionPieces, piecesText, Clause.text, Lexeme.text]
    rw [split, ih]
    simp

theorem optionPieces_text (options : List TableOption) (last : List GapPart) :
    piecesText (optionPieces options) last = options.flatMap TableOption.text ++ gapText last := by
  have each : TableOption.text = fun option => option.pieces.flatMap
      fun piece => gapText piece.gap ++ piece.lexeme.text := by
    funext option
    simp [TableOption.text, piecesText, gapText]
  rw [piecesText, optionPieces, flatMap_assoc, each]

theorem TableParts.pieces_text (parts : TableParts) :
    piecesText parts.pieces parts.last = parts.head ++ [openParenthesis] ++
      piecesText (definitionPieces parts.column (parts.columns ++ parts.definitions)
        (optionPieces parts.options)) parts.last := by
  simp [TableParts.pieces, TableParts.head, piecesText, Lexeme.text]

theorem TableParts.text_eq (parts : TableParts) :
    parts.text = piecesText parts.pieces parts.last := by
  rw [parts.pieces_text, definitionPieces_text, optionPieces_text, TableParts.text,
    TableParts.textWith]
  simp

/-! ## Columns and other definitions -/

section

variable {fulltextOnly : Bool} {clause : Clause} {autoIncrement : Bytes}

theorem read_column {info : DefinitionInfo} (notConstraint : info.constraint = false)
    (named : info.columnName ≠ []) (token : Bytes) :
    ∃ later, DefinitionInfo.read fulltextOnly (info, autoIncrement) token =
        (later, if ¬ fulltextOnly ∧ isWord token ["AUTO_INCREMENT"] then info.columnName
          else autoIncrement) ∧
      later.constraint = false ∧ later.columnName = info.columnName ∧
        later.indexDeclaration = info.indexDeclaration := by
  unfold DefinitionInfo.read
  simp only [notConstraint, Bool.false_eq_true, if_false, named, ne_eq, not_false_eq_true, if_true]
  split
  · exact ⟨info, rfl, notConstraint, rfl, rfl⟩
  · split
    · exact ⟨_, rfl, rfl, rfl, rfl⟩
    · split
      · exact ⟨_, rfl, rfl, rfl, rfl⟩
      · exact ⟨info, rfl, notConstraint, rfl, rfl⟩

variable {info : DefinitionInfo}

theorem readPieces_column (notConstraint : info.constraint = false) (named : info.columnName ≠ [])
    (pieces : List Piece) :
    (readPieces fulltextOnly (info, autoIncrement) pieces).1.indexDeclaration =
        info.indexDeclaration ∧
      (readPieces fulltextOnly (info, autoIncrement) pieces).2 =
        if ¬ fulltextOnly ∧ (pieces.any fun piece =>
          isWord piece.lexeme.text ["AUTO_INCREMENT"]) then info.columnName else autoIncrement := by
  induction pieces generalizing info autoIncrement with
  | nil => simp [readPieces]
  | cons piece pieces ih =>
    obtain ⟨later, read_eq, constraint_eq, name_eq, declaration_eq⟩ :=
      @read_column fulltextOnly autoIncrement info notConstraint named piece.lexeme.text
    rw [readPieces, foldl_cons, read_eq, ← readPieces, any_cons]
    obtain ⟨declared, auto⟩ := ih constraint_eq (name_eq ▸ named)
    rw [declared, auto, name_eq, declaration_eq]
    refine ⟨rfl, ?_⟩
    by_cases word : isWord piece.lexeme.text ["AUTO_INCREMENT"] = true
    · cases fulltextOnly <;> simp [word]
    · simp [word]

/-- A column stays; it may be the one with `AUTO_INCREMENT`. -/
theorem info_column (isColumn : ∃ identifier, clause.first = .name identifier) :
    (clause.info fulltextOnly autoIncrement).1.indexDeclaration = false ∧
      (clause.info fulltextOnly autoIncrement).2 =
        if ¬ fulltextOnly ∧ clause.isAutoIncrement then clause.first.text else autoIncrement := by
  obtain ⟨identifier, first⟩ := isColumn
  have begin_eq : DefinitionInfo.begin fulltextOnly clause.first.text =
      { columnName := clause.first.text } := by
    rw [DefinitionInfo.begin, if_pos (by rw [first]; rfl)]
  rw [info, begin_eq]
  exact readPieces_column rfl (by rw [first]; simp [Lexeme.text, quoteIdentifier]) clause.more

theorem readPieces_other (notConstraint : info.constraint = false) (unnamed : info.columnName = [])
    (pieces : List Piece) :
    readPieces fulltextOnly (info, autoIncrement) pieces = (info, autoIncrement) := by
  have same (token : Bytes) : DefinitionInfo.read fulltextOnly (info, autoIncrement) token =
      (info, autoIncrement) := by
    simp [DefinitionInfo.read, notConstraint, unnamed]
  induction pieces with
  | nil => rfl
  | cons piece pieces ih => rw [readPieces, foldl_cons, same, ← readPieces, ih]

theorem readPieces_constraint (isConstraint : info.constraint = true) (pieces : List Piece) :
    readPieces fulltextOnly (info, autoIncrement) pieces =
      ({ info with
        indexDeclaration := info.indexDeclaration ||
          pieces.any fun piece => isWord piece.lexeme.text ["KEY", "INDEX"]
        storage :=
          if pieces.any fun piece => isWord piece.lexeme.text ["FOREIGN"] then .foreignKeys
          else info.storage }, autoIncrement) := by
  induction pieces generalizing info with
  | nil => simp [readPieces]
  | cons piece pieces ih =>
    have exclusive : isWord piece.lexeme.text ["KEY", "INDEX"] = true →
        isWord piece.lexeme.text ["FOREIGN"] = false :=
      fun key => isWord_disjoint key (by decide)
    rw [readPieces, foldl_cons, ← readPieces, DefinitionInfo.read, any_cons, any_cons]
    simp only [isConstraint, if_true]
    split
    · rename_i key
      rw [ih rfl]
      simp [key, exclusive key]
    · rename_i notKey
      split
      · rename_i foreign
        rw [ih rfl]
        simp [notKey, foreign]
      · rename_i notForeign
        rw [ih isConstraint]
        simp [notKey, notForeign, isConstraint]

/-- The definition is one of those that are looked for. -/
def Clause.declares (clause : Clause) (fulltextOnly : Bool) : Bool :=
  if fulltextOnly then isWord clause.first.text ["FULLTEXT"]
  else clause.isIndex || clause.isConstraint && clause.hasWord ["KEY", "INDEX"]

/-- The list that the definition is put into. -/
def Clause.storage (clause : Clause) : IndexStorage :=
  if isWord clause.first.text ["FULLTEXT"] then .fulltext
  else if isWord clause.first.text ["SPATIAL"] then .spatial
  else if clause.isConstraint && clause.hasWord ["FOREIGN"] then .foreignKeys
  else .regular

theorem not_constraint (index : clause.isIndex = true) : clause.isConstraint = false :=
  isWord_disjoint index (by decide)

theorem isWord_of_subset {token : Bytes} {words others : List String}
    (member : isWord token words = true) (subset : words ⊆ others) :
    isWord token others = true := by
  obtain ⟨word, among, same⟩ := any_eq_true.mp member
  exact any_eq_true.mpr ⟨word, subset among, same⟩

/-- Other definitions than columns. -/
theorem info_other (isOther : clause.first.text.head? ≠ some backtick) :
    ∃ info, clause.info fulltextOnly autoIncrement = (info, autoIncrement) ∧
      info.indexDeclaration = clause.declares fulltextOnly ∧ info.generatedVirtual = false ∧
      (clause.declares fulltextOnly = true →
        info.constraint = clause.isConstraint ∧ info.storage = clause.storage) := by
  rw [info, DefinitionInfo.begin, if_neg isOther]
  cases fulltextOnly with
  | true =>
    by_cases fulltext : isWord clause.first.text ["FULLTEXT"] = true
    · have notConstraint := @not_constraint clause (isWord_of_subset fulltext (by simp))
      simp only [if_true, fulltext]
      refine ⟨_, readPieces_other rfl rfl _, ?_, rfl, fun _ => ⟨notConstraint.symm, ?_⟩⟩
      · simp [declares, fulltext]
      · simp [storage, fulltext]
    · simp only [if_true, fulltext, Bool.false_eq_true, if_false]
      refine ⟨_, readPieces_other rfl rfl _, ?_, rfl, fun declared => ?_⟩
      · simp [declares, fulltext]
      · simp [declares, fulltext] at declared
  | false =>
    by_cases index : clause.isIndex = true
    · have notConstraint := not_constraint index
      rw [if_pos (show isWord _ _ = true from index)]
      refine ⟨_, readPieces_other rfl rfl _, ?_, rfl, fun _ => ⟨notConstraint.symm, ?_⟩⟩
      · simp [declares, index]
      · simp [storage, notConstraint]
    · rw [if_neg (show ¬ isWord _ _ = true from index)]
      have notIndex : isWord clause.first.text ["FULLTEXT"] = false ∧
          isWord clause.first.text ["SPATIAL"] = false :=
        ⟨Bool.eq_false_iff.mpr fun word => index (isWord_of_subset word (by simp)),
          Bool.eq_false_iff.mpr fun word => index (isWord_of_subset word (by simp))⟩
      by_cases constraint : clause.isConstraint = true
      · rw [readPieces_constraint (show isWord _ _ = true from constraint)]
        refine ⟨_, rfl, ?_, rfl, fun _ => ⟨rfl, ?_⟩⟩
        · simp [declares, index, constraint, hasWord]
        · simp [storage, notIndex, constraint, hasWord]
      · have other : ({ constraint := isWord clause.first.text ["CONSTRAINT"] } :
            DefinitionInfo).constraint = false := by
          simpa [isConstraint] using constraint
        refine ⟨_, readPieces_other other rfl _, ?_, rfl, fun declared => ?_⟩
        · simp [declares, index, constraint]
        · simp [declares, index, constraint] at declared

theorem moved_column (isColumn : ∃ identifier, clause.first = .name identifier) :
    clause.moved fulltextOnly autoIncrement = false := by
  have declared := (@info_column fulltextOnly clause autoIncrement isColumn).1
  simp [moved, declared]

def DeferredStatements.list (deferred : DeferredStatements) : IndexStorage → List Bytes
  | .regular => deferred.indexInfo.regular
  | .fulltext => deferred.indexInfo.fulltext
  | .spatial => deferred.indexInfo.spatial
  | .foreignKeys => deferred.foreignKeys

theorem list_emplace (deferred : DeferredStatements) (target : IndexStorage) (text : Bytes)
    (storage : IndexStorage) :
    (deferred.emplace target text).list storage =
      deferred.list storage ++ if target = storage then [text] else [] := by
  cases target <;> cases storage <;> simp [DeferredStatements.emplace, DeferredStatements.list]

/-- The statement that is put into a list. -/
def Clause.statement (clause : Clause) : Bytes :=
  strStrip clause.body

theorem list_defer (clause : Clause) (fulltextOnly : Bool) (autoIncrement : Bytes)
    (deferred : DeferredStatements) (storage : IndexStorage) :
    (clause.defer fulltextOnly autoIncrement deferred).list storage =
      deferred.list storage ++
        if clause.moved fulltextOnly autoIncrement &&
          (clause.info fulltextOnly autoIncrement).1.storage = storage then [clause.statement]
        else [] := by
  rw [defer]
  cases clause.moved fulltextOnly autoIncrement with
  | false =>
    simp only [Bool.false_eq_true, if_false, Bool.false_and, append_nil]
    cases storage <;> rfl
  | true =>
    simp only [if_true, list_emplace, Bool.true_and, decide_eq_true_eq]
    cases storage <;> rfl

/-- The column with `AUTO_INCREMENT` behind some columns. -/
def autoIncrementOf (fulltextOnly : Bool) (autoIncrement : Bytes) (columns : List Clause) : Bytes :=
  columns.foldl (fun autoIncrement column =>
    if ¬ fulltextOnly ∧ column.isAutoIncrement then column.first.text else autoIncrement)
    autoIncrement

theorem autoIncrementOf_cases (fulltextOnly : Bool) (autoIncrement : Bytes)
    (columns : List Clause) :
    (autoIncrementOf fulltextOnly autoIncrement columns = autoIncrement ∧
      (fulltextOnly = false → ∀ column ∈ columns, ¬ column.isAutoIncrement = true)) ∨
    ∃ column ∈ columns, fulltextOnly = false ∧ column.isAutoIncrement = true ∧
      autoIncrementOf fulltextOnly autoIncrement columns = column.first.text := by
  induction columns generalizing autoIncrement with
  | nil => exact .inl ⟨rfl, fun _ _ member => absurd member not_mem_nil⟩
  | cons column columns ih =>
    rw [autoIncrementOf, foldl_cons, ← autoIncrementOf]
    rcases ih (if ¬ fulltextOnly ∧ column.isAutoIncrement then column.first.text
      else autoIncrement) with ⟨same, none_⟩ | ⟨other, member, found⟩
    · by_cases auto : ¬ fulltextOnly ∧ column.isAutoIncrement
      · rw [if_pos auto] at same ⊢
        exact .inr ⟨column, mem_cons_self, by simpa using auto.1, auto.2, same⟩
      · rw [if_neg auto] at same ⊢
        refine .inl ⟨same, fun mode other member => ?_⟩
        rcases mem_cons.mp member with rfl | later
        · exact fun isAuto => auto ⟨by simp [mode], isAuto⟩
        · exact none_ mode other later
    · exact .inr ⟨other, mem_cons_of_mem _ member, found⟩

theorem keptClauses_columns {columns : List Clause}
    (isColumn : ∀ column ∈ columns, ∃ identifier, column.first = .name identifier)
    (autoIncrement : Bytes) (clauses : List Clause) :
    keptClauses fulltextOnly autoIncrement comma (columns ++ clauses) =
      (columns.flatMap fun column => comma :: column.text) ++
        keptClauses fulltextOnly (autoIncrementOf fulltextOnly autoIncrement columns) comma
          clauses := by
  induction columns generalizing autoIncrement with
  | nil => rfl
  | cons column columns ih =>
    have first := isColumn column mem_cons_self
    rw [cons_append, keptClauses, moved_column first, (info_column first).2,
      ih (fun other member => isColumn other (mem_cons_of_mem _ member))]
    simp [autoIncrementOf]

theorem deferClauses_columns {columns : List Clause}
    (isColumn : ∀ column ∈ columns, ∃ identifier, column.first = .name identifier)
    (autoIncrement : Bytes) (deferred : DeferredStatements) (clauses : List Clause) :
    ∃ seen : DeferredStatements, (∀ storage, seen.list storage = deferred.list storage) ∧
      deferClauses fulltextOnly autoIncrement deferred (columns ++ clauses) =
        deferClauses fulltextOnly (autoIncrementOf fulltextOnly autoIncrement columns) seen
          clauses := by
  induction columns generalizing autoIncrement deferred with
  | nil => exact ⟨deferred, fun _ => rfl, rfl⟩
  | cons column columns ih =>
    have first := isColumn column mem_cons_self
    obtain ⟨seen, lists, rest⟩ :=
      ih (fun other member => isColumn other (mem_cons_of_mem _ member))
        (column.info fulltextOnly autoIncrement).2
        (column.defer fulltextOnly autoIncrement deferred)
    refine ⟨seen, fun storage => ?_, ?_⟩
    · rw [lists, defer, moved_column first]
      cases storage <;> rfl
    · rw [cons_append, deferClauses, rest, (info_column first).2]
      rfl

theorem keptClauses_other {clauses : List Clause}
    (isOther : ∀ clause ∈ clauses, clause.first.text.head? ≠ some backtick)
    (autoIncrement : Bytes) :
    keptClauses fulltextOnly autoIncrement comma clauses =
      (clauses.filter fun clause => !clause.moved fulltextOnly autoIncrement).flatMap
        fun clause => comma :: clause.text := by
  induction clauses with
  | nil => rfl
  | cons clause clauses ih =>
    obtain ⟨info, info_eq, -⟩ :=
      @info_other fulltextOnly clause autoIncrement (isOther clause mem_cons_self)
    rw [keptClauses, info_eq, ih fun other member => isOther other (mem_cons_of_mem _ member)]
    cases moved : clause.moved fulltextOnly autoIncrement with
    | true => simp [moved]
    | false => simp [moved]

theorem deferClauses_other {clauses : List Clause}
    (isOther : ∀ clause ∈ clauses, clause.first.text.head? ≠ some backtick)
    (autoIncrement : Bytes) (deferred : DeferredStatements) (storage : IndexStorage) :
    (deferClauses fulltextOnly autoIncrement deferred clauses).list storage =
      deferred.list storage ++ (clauses.filter fun clause =>
        clause.moved fulltextOnly autoIncrement && clause.storage = storage).map
          statement := by
  induction clauses generalizing deferred with
  | nil => simp [deferClauses]
  | cons clause clauses ih =>
    obtain ⟨info, info_eq, declared, virtual, known⟩ :=
      @info_other fulltextOnly clause autoIncrement (isOther clause mem_cons_self)
    rw [deferClauses, info_eq, ih fun other member => isOther other (mem_cons_of_mem _ member),
      list_defer, info_eq, filter_cons]
    cases moved : clause.moved fulltextOnly autoIncrement with
    | false => simp
    | true =>
      have declares : clause.declares fulltextOnly = true := by
        rw [Clause.moved, info_eq, decide_eq_true_eq] at moved
        rw [← declared]
        exact moved.1
      rw [(known declares).2]
      by_cases same : clause.storage = storage
      · simp [same]
      · simp [same]

end

theorem deferClauses_secondaryEngine (fulltextOnly : Bool) (autoIncrement : Bytes)
    (deferred : DeferredStatements) (clauses : List Clause) :
    (deferClauses fulltextOnly autoIncrement deferred clauses).secondaryEngine =
      deferred.secondaryEngine := by
  induction clauses generalizing autoIncrement deferred with
  | nil => rfl
  | cons clause clauses ih =>
    rw [deferClauses, ih, defer]
    split
    · cases (clause.info fulltextOnly autoIncrement).1.storage <;> rfl
    · rfl

/-! ## The whole statement -/

theorem skipToDefinitions_eq {it : SqlIterator} {hint : Bool} {before : Bytes}
    {name rest : List Piece} {opening last : List GapPart}
    (plain : ∀ piece ∈ name, piece.lexeme ≠ .punctuation openParenthesis)
    (reads : Reads it hint before (name ++ ⟨opening, .punctuation openParenthesis⟩ :: rest) last) :
    ∃ later hint', (∀ fuel, name.length < fuel → skipToDefinitions fuel it = .ok later) ∧
      Reads later hint' (before ++ piecesText name opening ++ [openParenthesis]) rest last := by
  induction name generalizing it hint before with
  | nil =>
    obtain ⟨later, next_eq, reached⟩ := nextDdlToken_eq reads
    refine ⟨later, _, ?_, by simpa [piecesText, Lexeme.text] using reached⟩
    rintro (- | fuel) enough
    · simp at enough
    · rw [skipToDefinitions, if_pos reads.valid, next_eq]
      rfl
  | cons piece name ih =>
    obtain ⟨next, next_eq, reached⟩ := nextDdlToken_eq reads
    obtain ⟨later, hint', skipped, done⟩ :=
      ih (fun other member => plain other (mem_cons_of_mem _ member)) reached
    refine ⟨later, hint', ?_, by simpa [piecesText] using done⟩
    rintro (- | fuel) enough
    · simp at enough
    · have other : piece.lexeme.text ≠ [openParenthesis] := fun text =>
        plain piece mem_cons_self (lexeme_of_text reads.formed.2.1 (by decide) text)
      rw [skipToDefinitions, if_pos reads.valid, next_eq]
      simp only [if_neg other]
      exact skipped fuel (by rw [length_cons] at enough; omega)

theorem definitionPieces_length (clause : Clause) (clauses : List Clause) (rest : List Piece) :
    clauses.length + 2 + rest.length ≤ (definitionPieces clause clauses rest).length := by
  induction clauses generalizing clause with
  | nil =>
    simp only [definitionPieces, Clause.pieces, length_append, length_cons, length_nil]
    omega
  | cons next clauses ih =>
    have inner := ih next
    simp only [definitionPieces, Clause.pieces, length_append, length_cons]
    omega

theorem options_length (options : List TableOption) :
    options.length ≤ (optionPieces options).length := by
  induction options with
  | nil => exact Nat.zero_le _
  | cons option options ih =>
    have some_ : 0 < option.pieces.length := by
      cases option <;> simp [TableOption.pieces]
    simp only [optionPieces, flatMap_cons, length_append, length_cons] at ih ⊢
    omega

namespace CreateTable

variable (table : CreateTable)

/-- The text of the column with `AUTO_INCREMENT`, or none. -/
def autoIncrement (fulltextOnly : Bool) : Bytes :=
  autoIncrementOf fulltextOnly [] (table.column :: table.columns)

theorem optionPieces_ne_nil : optionPieces table.options ≠ [] := by
  intro none_
  have length := options_length table.options
  rw [none_] at length
  exact table.hasOptions (eq_nil_of_length_eq_zero (Nat.le_zero.mp length))

theorem checked (tableName : Bytes) (fulltextOnly : Bool) :
    ∃ deferred : DeferredStatements,
      checkCreateTableForIndexes table.text tableName fulltextOnly =
          .ok (if isWord (table.options.foldl TableOption.engineName []) ["Lakehouse"] then {}
            else deferred) ∧
        deferred.rewritten = table.textWith
          (table.definitions.filter fun clause =>
            !clause.moved fulltextOnly (table.autoIncrement fulltextOnly)) TableOption.keptText ∧
        (∀ storage, deferred.list storage = (table.definitions.filter fun clause =>
          clause.moved fulltextOnly (table.autoIncrement fulltextOnly) &&
            clause.storage = storage).map statement) ∧
        deferred.secondaryEngine = table.options.foldl (TableOption.alter tableName) [] := by
  obtain ⟨it, created, reads⟩ := create_reads table.formed true
  rw [← table.text_eq] at created
  have length := table.formed.length_le
  rw [← table.text_eq] at length
  have inner := definitionPieces_length table.column (table.columns ++ table.definitions)
    (optionPieces table.options)
  have outer := options_length table.options
  simp only [TableParts.pieces, length_cons, length_append] at length inner
  -- the words in front of the definitions
  obtain ⟨first, create_eq, reads⟩ := nextDdlToken_eq reads
  obtain ⟨second, table_eq, reads⟩ := nextDdlToken_eq reads
  have read_eq : readCreateTable table.text = .ok second := by
    simp only [readCreateTable, created, Except.mapError, create_eq, table.isCreate, table_eq,
      table.isTable, not_true, if_false]
  obtain ⟨it, hint, skipped, reads⟩ := skipToDefinitions_eq table.plain reads
  have skip_eq := skipped (table.text.length + 1) (by omega)
  have head_eq : [] ++ gapText table.create.gap ++ table.create.lexeme.text ++
      gapText table.table.gap ++ table.table.lexeme.text ++ piecesText table.name table.opening =
        table.head := by
    simp [TableParts.head, piecesText]
  rw [head_eq] at reads
  -- the definitions
  have text_eq : it.text = table.text := by
    rw [reads.text_eq, table.text_eq, table.pieces_text]
  have isColumn := table.isColumn table.column mem_cons_self
  obtain ⟨check, hint, looped, reads, cuts, deferred⟩ :=
    @definitionsLoop_eq { it } hint table.head table.head (optionPieces table.options) table.last
      fulltextOnly table.column (table.columns ++ table.definitions) table.fits _ reads
      table.optionPieces_ne_nil table.spaced rfl (Cuts.nil _) (.inr (moved_column isColumn))
      tableName
  have loop_eq := looped (table.text.length + 1) (by rw [length_append]; omega)
  -- the options
  obtain ⟨final, done, cuts, rest⟩ :=
    optionsLoop_eq table.optionsFit reads (cuts.keep [closeParenthesis]) tableName []
  have option_eq := done (table.text.length + 1) (by omega)
  rw [text_eq] at loop_eq
  refine ⟨{ final.deferred with rewritten := replaceAtOffsets table.text final.offsets [] },
    ?_, ?_, fun storage => ?_, ?_⟩
  · simp only [checkCreateTableForIndexes, read_eq, skip_eq, loop_eq, option_eq]
    split <;> rfl
  · have text : table.head ++ openParenthesis :: table.column.text ++
        ((table.columns ++ table.definitions).flatMap fun other => comma :: other.text) ++
          [closeParenthesis] ++ piecesText (optionPieces table.options) table.last =
            table.text := by
      rw [optionPieces_text, TableParts.text, TableParts.textWith]
      simp
    rw [text] at cuts
    rw [cuts.replaceAtOffsets_eq, keptClauses, moved_column isColumn, (info_column isColumn).2,
      keptClauses_columns fun other member => table.isColumn other (mem_cons_of_mem _ member),
      keptClauses_other table.isOther]
    simp [TableParts.textWith, autoIncrement, autoIncrementOf]
  · obtain ⟨seen, lists, columns_eq⟩ := @deferClauses_columns fulltextOnly
      (table.column :: table.columns) table.isColumn [] {} table.definitions
    have same : ({ final.deferred with
        rewritten := replaceAtOffsets table.text final.offsets [] } : DeferredStatements).list
          storage = check.deferred.list storage := by
      rw [rest]
      cases storage <;> rfl
    rw [same, deferred]
    change (deferClauses fulltextOnly [] {}
      (table.column :: table.columns ++ table.definitions)).list storage = _
    rw [columns_eq, deferClauses_other table.isOther, lists]
    cases storage <;> rfl
  · rw [rest, deferred, deferClauses_secondaryEngine]

/-- A definition is taken out of the statement. -/
def moves (fulltextOnly : Bool) (clause : Clause) : Bool :=
  clause.declares fulltextOnly && (clause.isConstraint ||
    !(table.column :: table.columns).any fun column =>
      !fulltextOnly && column.isAutoIncrement && column.first.text <:+: clause.body)

theorem named_iff (fulltextOnly : Bool) (body : Bytes) :
    table.autoIncrement fulltextOnly ≠ [] ∧ table.autoIncrement fulltextOnly <:+: body ↔
      ∃ column ∈ table.column :: table.columns,
        fulltextOnly = false ∧ column.isAutoIncrement = true ∧ column.first.text <:+: body := by
  rw [autoIncrement]
  constructor
  · rintro ⟨some_, named⟩
    rcases autoIncrementOf_cases fulltextOnly [] (table.column :: table.columns) with
      ⟨none_, -⟩ | ⟨column, member, mode, auto, same⟩
    · exact absurd none_ some_
    · exact ⟨column, member, mode, auto, same ▸ named⟩
  · rintro ⟨column, member, mode, auto, named⟩
    rcases autoIncrementOf_cases fulltextOnly [] (table.column :: table.columns) with
      ⟨-, other⟩ | ⟨last, among, -, lastAuto, same⟩
    · exact absurd auto (other mode column member)
    · rw [same, table.oneAutoIncrement last among column member lastAuto auto]
      obtain ⟨identifier, first⟩ := table.isColumn column member
      exact ⟨by rw [first]; simp [Lexeme.text, quoteIdentifier], named⟩

variable {clause : Clause}

theorem moved_eq (isOther : clause.first.text.head? ≠ some backtick) (fulltextOnly : Bool) :
    clause.moved fulltextOnly (table.autoIncrement fulltextOnly) =
      table.moves fulltextOnly clause := by
  obtain ⟨info, info_eq, declared, -, known⟩ :=
    @info_other fulltextOnly clause (table.autoIncrement fulltextOnly) isOther
  rw [moved, info_eq, moves]
  simp only [declared]
  cases declares : clause.declares fulltextOnly with
  | false => simp
  | true =>
    have named := table.named_iff fulltextOnly clause.body
    rw [(known declares).1]
    cases clause.isConstraint with
    | true => simp
    | false =>
      rw [Bool.eq_iff_iff]
      simp only [Bool.false_or, Bool.true_and, any_eq_false,
        Bool.and_eq_true, decide_eq_true_eq, true_and, Bool.false_eq_true, not_false_eq_true,
        Bool.not_eq_eq_eq_not, Bool.not_true]
      rw [named]
      simp

def engine : Bytes :=
  table.options.foldl TableOption.engineName []

/--
The definitions that are moved are left out of the statement, and each of them is in one of the
lists.
-/
structure Defers (fulltextOnly : Bool) (moved : Clause → Bool) (deferred : DeferredStatements) :
    Prop where
  rewritten : deferred.rewritten =
    table.textWith (table.definitions.filter fun clause => !moved clause) TableOption.keptText
  lists : ∀ storage, deferred.list storage = (table.definitions.filter fun clause =>
    moved clause && clause.storage = storage).map statement
  isKey : ∀ clause ∈ table.definitions, moved clause = true →
    clause.isIndex = true ∨ clause.isKeyConstraint = true
  autoIncrement : fulltextOnly = false → ∀ clause ∈ table.definitions, moved clause = true →
    clause.isConstraint = false → ∀ column ∈ table.column :: table.columns,
      column.isAutoIncrement = true → ∀ piece ∈ clause.more, piece.lexeme ≠ column.first

theorem isKey_of_moves (member : clause ∈ table.definitions) {fulltextOnly : Bool}
    (moved : table.moves fulltextOnly clause = true) :
    clause.isIndex = true ∨ clause.isKeyConstraint = true := by
  rw [moves, Bool.and_eq_true, declares] at moved
  cases fulltextOnly with
  | true => exact .inl (isWord_of_subset moved.1 (by simp))
  | false =>
    have declared := moved.1
    simp only [Bool.false_eq_true, if_false, Bool.or_eq_true, Bool.and_eq_true] at declared
    exact declared.imp_right fun both => table.isKey clause member both.1 both.2

theorem body_infix {piece : Piece} (member : piece ∈ clause.more) :
    piece.lexeme.text <:+: clause.body := by
  obtain ⟨before, after, split⟩ := append_of_mem member
  refine ⟨clause.first.text ++
    before.flatMap (fun piece => gapText piece.gap ++ piece.lexeme.text) ++ gapText piece.gap,
    piecesText after clause.trail, ?_⟩
  simp [body, split, piecesText]

theorem not_named_of_moves (moved : table.moves false clause = true)
    (notConstraint : clause.isConstraint = false) {column : Clause}
    (member : column ∈ table.column :: table.columns) (auto : column.isAutoIncrement = true) :
    ∀ piece ∈ clause.more, piece.lexeme ≠ column.first := by
  intro piece among same
  rw [moves, Bool.and_eq_true, notConstraint, Bool.false_or, Bool.not_eq_true',
    any_eq_false] at moved
  have notNamed := moved.2 column member
  have named := body_infix among
  rw [same] at named
  simp [auto, named] at notNamed

/--
The definitions of indexes and foreign keys are taken out of the statement, except for tables
of the engine `Lakehouse`.
-/
theorem checkCreateTableForIndexes_defers (tableName : Bytes) (fulltextOnly : Bool) :
    ∃ deferred, table.Defers fulltextOnly (table.moves fulltextOnly) deferred ∧
      checkCreateTableForIndexes table.text tableName fulltextOnly =
        .ok (if isWord table.engine ["Lakehouse"] then {} else deferred) := by
  obtain ⟨deferred, checked, rewritten, lists, -⟩ := table.checked tableName fulltextOnly
  have moved : ∀ clause ∈ table.definitions,
      clause.moved fulltextOnly (table.autoIncrement fulltextOnly) =
        table.moves fulltextOnly clause :=
    fun clause member => table.moved_eq (table.isOther clause member) fulltextOnly
  refine ⟨deferred, ⟨?_, fun storage => ?_, ?_, ?_⟩, checked⟩
  · rw [rewritten, filter_congr fun clause member => by rw [moved clause member]]
  · rw [lists, filter_congr fun clause member => by rw [moved clause member]]
  · exact fun clause member => table.isKey_of_moves member
  · rintro rfl clause - isMoved notConstraint column among auto
    exact table.not_named_of_moves isMoved notConstraint among auto

end CreateTable

/-! ## A table that is left alone -/

def behindBlank (lexeme : Lexeme) : Piece :=
  ⟨[.space space], lexeme⟩

def lakehouseParts : TableParts where
  create := ⟨[], .run (ascii "CREATE".toList)⟩
  table := behindBlank (.run (ascii "TABLE".toList))
  name := [behindBlank (.name (ascii "t".toList))]
  opening := [.space space]
  column :=
    { gap := [.space newline]
      first := .name (ascii "a".toList)
      more := [behindBlank (.run (ascii "int".toList))]
      trail := [] }
  columns := []
  definitions :=
    [{ gap := [.space newline]
       first := .run (ascii "KEY".toList)
       more :=
        [behindBlank (.name (ascii "a".toList)), behindBlank (.punctuation openParenthesis),
          ⟨[], .name (ascii "a".toList)⟩, ⟨[], .punctuation closeParenthesis⟩]
       trail := [.space newline] }]
  options :=
    [.engine (behindBlank (.run (ascii "ENGINE".toList))) (some [])
      ⟨[], .run (ascii "Lakehouse".toList)⟩]
  last := []

def lakehouseTable : CreateTable where
  toTableParts := lakehouseParts
  isCreate := by decide
  isTable := by decide
  plain := by decide
  formed := by decide
  fits := by decide
  isColumn := by
    intro clause member
    obtain rfl := mem_singleton.mp member
    exact ⟨_, rfl⟩
  isOther := by decide
  isKey := by decide
  oneAutoIncrement := by decide
  hasOptions := cons_ne_nil _ _
  spaced := by decide
  optionsFit := ⟨⟨by decide, by decide⟩, trivial⟩

/-- Nothing of the statement is left for a table of the engine `Lakehouse`. -/
theorem lakehouse_not_rewritten :
    checkCreateTableForIndexes lakehouseTable.text (ascii "t".toList) false = .ok {} ∧
      ∀ moved deferred, lakehouseTable.Defers false moved deferred → deferred ≠ {} := by
  obtain ⟨deferred, checked, -⟩ := lakehouseTable.checked (ascii "t".toList) false
  refine ⟨checked.trans ?_, ?_⟩
  · rw [if_pos (by decide)]
  · rintro moved deferred defers rfl
    have rewritten := defers.rewritten
    simp [TableParts.textWith] at rewritten

end MariadbShell.Dump
