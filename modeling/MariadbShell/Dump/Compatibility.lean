import MariadbShell.Sql.SqlString

/-!
# Indexes that are created later

`check_create_table_for_indexes` takes the clauses for indexes and foreign keys out of a
statement `CREATE TABLE`, so that they are added when the data is loaded.
-/

namespace MariadbShell.Dump

open ImportTable (Bytes ascii)
open Sql Chr

/-! ## Ranges of a text -/

/-- Ranges, from the first character to the one behind the last. -/
abbrev Offsets := List (Nat × Nat)

/-- The ranges behind `previous` are replaced. -/
def replaceBehind (text target : Bytes) : Nat → Offsets → Bytes
  | previous, [] => text.drop previous
  | previous, (start, stop) :: offsets =>
    (text.drop previous).take (start - previous) ++ target ++ replaceBehind text target stop offsets

def replaceAtOffsets (text : Bytes) (offsets : Offsets) (target : Bytes) : Bytes :=
  replaceBehind text target 0 offsets

/-- The characters that `str_strip` removes. -/
def isStripped (chr : UInt8) : Bool :=
  chr = space ∨ chr = carriageReturn ∨ chr = newline ∨ chr = tab

def strStrip (text : Bytes) : Bytes :=
  ((text.dropWhile isStripped).reverse.dropWhile isStripped).reverse

/-! ## Deferred statements -/

structure IndexInfo where
  fulltext : List Bytes := []
  spatial : List Bytes := []
  regular : List Bytes := []
  hasVirtualColumns : Bool := false
deriving DecidableEq, Repr

structure DeferredStatements where
  rewritten : Bytes := []
  indexInfo : IndexInfo := {}
  foreignKeys : List Bytes := []
  secondaryEngine : Bytes := []
deriving DecidableEq, Repr

/-- What the pointer `storage` refers to. -/
inductive IndexStorage where
  | regular
  | fulltext
  | spatial
  | foreignKeys
deriving DecidableEq, Repr

def DeferredStatements.emplace (deferred : DeferredStatements) (storage : IndexStorage)
    (clause : Bytes) : DeferredStatements :=
  let info := deferred.indexInfo
  match storage with
  | .regular => { deferred with indexInfo := { info with regular := info.regular ++ [clause] } }
  | .fulltext => { deferred with indexInfo := { info with fulltext := info.fulltext ++ [clause] } }
  | .spatial => { deferred with indexInfo := { info with spatial := info.spatial ++ [clause] } }
  | .foreignKeys => { deferred with foreignKeys := deferred.foreignKeys ++ [clause] }

/-- Exceptions; the last one stands for a loop that does not end. -/
inductive IndexCheckError where
  | lex (error : LexError)
  | notCreateTable
  | incomplete (tableName : Bytes)
  | noEnd
deriving DecidableEq, Repr

def IndexCheckError.message : IndexCheckError → Bytes
  | .lex error => error.message
  | .notCreateTable =>
    ascii "Index check can be only performed on create table statements".toList
  | .incomplete tableName =>
    ascii "Incomplete create_definition in create table statement of table ".toList ++ tableName
  | .noEnd => []

/-- `str_caseeq` with one of several words. -/
def isWord (token : Bytes) (words : List String) : Bool :=
  words.any fun word => caseEq token (ascii word.toList)

/-! ## Definitions -/

def nextDdlToken (it : SqlIterator) : Except IndexCheckError (Bytes × SqlIterator) :=
  it.nextToken.mapError .lex

def skipToDefinitions : Nat → SqlIterator → Except IndexCheckError SqlIterator
  | 0, _ => .error .noEnd
  | fuel + 1, it =>
    if it.valid then
      match nextDdlToken it with
      | .error error => .error error
      | .ok (token, it) =>
        if token = [openParenthesis] then .ok it else skipToDefinitions fuel it
    else .ok it

/-- The variables of the loop over the definitions that each definition begins with. -/
structure DefinitionInfo where
  indexDeclaration : Bool := false
  constraint : Bool := false
  columnName : Bytes := []
  generatedVirtual : Bool := false
  storage : IndexStorage := .regular
deriving DecidableEq, Repr

def DefinitionInfo.begin (fulltextOnly : Bool) (token : Bytes) : DefinitionInfo :=
  if token.head? = some backtick then { columnName := token }
  else if fulltextOnly then
    if isWord token ["FULLTEXT"] then { indexDeclaration := true, storage := .fulltext } else {}
  else if isWord token ["FULLTEXT", "UNIQUE", "KEY", "INDEX", "SPATIAL"] then
    { indexDeclaration := true
      storage :=
        if isWord token ["FULLTEXT"] then .fulltext
        else if isWord token ["SPATIAL"] then .spatial
        else .regular }
  else { constraint := isWord token ["CONSTRAINT"] }

/-- Any other token; the second component is the column with `AUTO_INCREMENT`. -/
def DefinitionInfo.read (fulltextOnly : Bool) (state : DefinitionInfo × Bytes) (token : Bytes) :
    DefinitionInfo × Bytes :=
  let (info, autoIncrementColumn) := state
  if info.constraint then
    if isWord token ["KEY", "INDEX"] then
      ({ info with indexDeclaration := true }, autoIncrementColumn)
    else if isWord token ["FOREIGN"] then
      ({ info with storage := .foreignKeys }, autoIncrementColumn)
    else state
  else if info.columnName ≠ [] then
    if ¬ fulltextOnly ∧ isWord token ["AUTO_INCREMENT"] then (info, info.columnName)
    else if isWord token ["AS"] then ({ info with generatedVirtual := true }, autoIncrementColumn)
    else if isWord token ["STORED"] then
      ({ info with generatedVirtual := false }, autoIncrementColumn)
    else state
  else state

structure DefinitionScan where
  it : SqlIterator
  braceCount : Nat
  token : Bytes
  state : DefinitionInfo × Bytes

def definitionLoop (fulltextOnly : Bool) :
    Nat → DefinitionScan → Except IndexCheckError DefinitionScan
  | 0, _ => .error .noEnd
  | fuel + 1, scan =>
    if scan.it.valid ∧ 0 < scan.braceCount then
      match nextDdlToken scan.it with
      | .error error => .error error
      | .ok (token, it) =>
        let scan := { scan with it, token }
        if caseEq token [openParenthesis] then
          definitionLoop fulltextOnly fuel { scan with braceCount := scan.braceCount + 1 }
        else if caseEq token [closeParenthesis] then
          definitionLoop fulltextOnly fuel { scan with braceCount := scan.braceCount - 1 }
        else if scan.braceCount = 1 ∧ caseEq token [comma] then .ok scan
        else
          definitionLoop fulltextOnly fuel
            { scan with state := DefinitionInfo.read fulltextOnly scan.state token }
    else .ok scan

/-- Variables of `check_create_table_for_indexes`. -/
structure IndexCheck where
  it : SqlIterator
  braceCount : Nat := 1
  autoIncrementColumn : Bytes := []
  offsets : Offsets := []
  deferred : DeferredStatements := {}

/-- The range of a clause is removed, with the comma in front of it or behind it. -/
def removeClause (statement : Bytes) (offsets : Offsets) (potentialComma start stop : Nat) :
    Offsets :=
  if statement[potentialComma]? = some comma then
    match offsets.getLast? with
    | some (previous, last) =>
      if last = potentialComma then offsets.dropLast ++ [(previous, stop)]
      else offsets ++ [(potentialComma, stop)]
    | none => [(potentialComma, stop)]
  else if statement[stop]? = some comma then offsets ++ [(start, stop + 1)]
  else offsets ++ [(start, stop)]

/-- The end of a definition: an index is taken out unless it is on the `AUTO_INCREMENT` column. -/
def endDefinition (statement : Bytes) (check : IndexCheck) (potentialComma start : Nat)
    (scan : DefinitionScan) : IndexCheck :=
  let (info, autoIncrementColumn) := scan.state
  let stop := scan.it.position - scan.token.length
  let clause := (statement.drop start).take (stop - start)
  let check :=
    { check with
      it := scan.it
      braceCount := scan.braceCount
      autoIncrementColumn
      deferred :=
        { check.deferred with
          indexInfo :=
            { check.deferred.indexInfo with
              hasVirtualColumns :=
                check.deferred.indexInfo.hasVirtualColumns || info.generatedVirtual } } }
  if ¬ info.indexDeclaration then check
  else if autoIncrementColumn ≠ [] ∧ ¬ info.constraint ∧ autoIncrementColumn <:+: clause then check
  else
    { check with
      offsets := removeClause statement check.offsets potentialComma start stop
      deferred := check.deferred.emplace info.storage (strStrip clause) }

def checkDefinition (statement tableName : Bytes) (fulltextOnly : Bool) (check : IndexCheck) :
    Except IndexCheckError IndexCheck :=
  let potentialComma := check.it.position - 1
  match nextDdlToken check.it with
  | .error error => .error error
  | .ok (token, it) =>
    let start := it.position - token.length
    let scan : DefinitionScan :=
      { it
        braceCount := check.braceCount
        token
        state := (DefinitionInfo.begin fulltextOnly token, check.autoIncrementColumn) }
    match definitionLoop fulltextOnly (statement.length + 1) scan with
    | .error error => .error error
    | .ok scan =>
      if ¬ scan.it.valid then .error (.incomplete tableName)
      else .ok (endDefinition statement check potentialComma start scan)

def definitionsLoop (statement tableName : Bytes) (fulltextOnly : Bool) :
    Nat → IndexCheck → Except IndexCheckError IndexCheck
  | 0, _ => .error .noEnd
  | fuel + 1, check =>
    if check.it.valid ∧ 0 < check.braceCount then
      match checkDefinition statement tableName fulltextOnly check with
      | .error error => .error error
      | .ok check => definitionsLoop statement tableName fulltextOnly fuel check
    else .ok check

/-! ## Table options -/

/-- `[=] engine_name`. -/
def readEngine (it : SqlIterator) : Except IndexCheckError (Bytes × SqlIterator) :=
  match nextDdlToken it with
  | .error error => .error error
  | .ok (engine, it) =>
    if caseEq engine [equal] then nextDdlToken it else .ok (engine, it)

/-- The loop over the options; the first component of the result is the name of the engine. -/
def optionsLoop (tableName : Bytes) :
    Nat → Bytes → IndexCheck → Except IndexCheckError (Bytes × IndexCheck)
  | 0, _, _ => .error .noEnd
  | fuel + 1, engine, check =>
    if check.it.valid then
      match nextDdlToken check.it with
      | .error error => .error error
      | .ok (token, it) =>
        if isWord token ["SECONDARY_ENGINE"] then
          let start := it.position - token.length
          match readEngine it with
          | .error error => .error error
          | .ok (secondaryEngine, it) =>
            if isWord secondaryEngine ["NULL"] then
              optionsLoop tableName fuel engine { check with it }
            else
              optionsLoop tableName fuel engine
                { check with
                  it
                  offsets := check.offsets ++ [(start, it.position)]
                  deferred :=
                    { check.deferred with
                      secondaryEngine :=
                        ascii "ALTER TABLE ".toList ++ tableName ++
                          ascii " SECONDARY_ENGINE=".toList ++ secondaryEngine ++
                          [semicolon] } }
        else if isWord token ["ENGINE"] then
          match readEngine it with
          | .error error => .error error
          | .ok (engine, it) => optionsLoop tableName fuel engine { check with it }
        else optionsLoop tableName fuel engine { check with it }
    else .ok (engine, check)

/-! ## The whole statement -/

def readCreateTable (statement : Bytes) : Except IndexCheckError SqlIterator :=
  match (SqlIterator.create statement 0 false true).mapError .lex with
  | .error error => .error error
  | .ok it =>
    match nextDdlToken it with
    | .error error => .error error
    | .ok (token, it) =>
      if ¬ isWord token ["CREATE"] then .error .notCreateTable
      else
        match nextDdlToken it with
        | .error error => .error error
        | .ok (token, it) =>
          if ¬ isWord token ["TABLE"] then .error .notCreateTable else .ok it

def checkCreateTableForIndexes (statement tableName : Bytes) (fulltextOnly : Bool) :
    Except IndexCheckError DeferredStatements :=
  match readCreateTable statement with
  | .error error => .error error
  | .ok it =>
    match skipToDefinitions (statement.length + 1) it with
    | .error error => .error error
    | .ok it =>
      match definitionsLoop statement tableName fulltextOnly (statement.length + 1) { it } with
      | .error error => .error error
      | .ok check =>
        match optionsLoop tableName (statement.length + 1) [] check with
        | .error error => .error error
        | .ok (engine, check) =>
          if isWord engine ["Lakehouse"] then .ok {}
          else
            .ok
              { check.deferred with
                rewritten := replaceAtOffsets statement check.offsets [] }

end MariadbShell.Dump
