import MariadbShell.Lib.LowerBound
import MariadbShell.Sql.SqlString

/-!
# Reserved words and identifiers

`quote_identifier_if_needed` quotes reserved words, which it looks up with a binary search, and
names with characters that an identifier does not have. Two neighbouring words of the table are
in the wrong order and not found. Characters outside of ASCII are not quoted, but
`span_quotable_sql_identifier` does not read them without quotes.
-/

namespace MariadbShell.Sql

open List
open ImportTable (Bytes)
open Lib.LowerBound Chr

/-! ## The table -/

def literalBytes (literal : String) : Bytes :=
  literal.toByteArray.data.toList

/-- `operator<` of `std::string_view`. -/
def precedes : Bytes → Bytes → Bool
  | [], [] => false
  | [], _ :: _ => true
  | _ :: _, [] => false
  | chr :: text, other :: rest => chr < other || (chr = other && precedes text rest)

def reservedKeywordLiterals : List String :=
  ["ACCESSIBLE", "ADD", "ADMIN", "ALL", "ALTER", "ANALYZE", "AND", "ARRAY", "AS", "ASC",
    "ASENSITIVE", "BEFORE", "BETWEEN", "BIGINT", "BINARY", "BLOB", "BOTH", "BY", "CALL",
    "CASCADE", "CASE", "CHANGE", "CHAR", "CHARACTER", "CHECK", "COLLATE", "COLUMN", "CONDITION",
    "CONSTRAINT", "CONTINUE", "CONVERT", "CREATE", "CROSS", "CUBE", "CUME_DIST", "CURRENT_DATE",
    "CURRENT_TIME", "CURRENT_TIMESTAMP", "CURRENT_USER", "CURSOR", "DATABASE", "DATABASES",
    "DAY_HOUR", "DAY_MICROSECOND", "DAY_MINUTE", "DAY_SECOND", "DEC", "DECIMAL", "DECLARE",
    "DEFAULT", "DELAYED", "DELETE", "DENSE_RANK", "DESC", "DESCRIBE", "DETERMINISTIC", "DISTINCT",
    "DISTINCTROW", "DIV", "DOUBLE", "DROP", "DUAL", "EACH", "ELSE", "ELSEIF", "EMPTY", "ENCLOSED",
    "ESCAPED", "EXCEPT", "EXISTS", "EXIT", "EXPLAIN", "FALSE", "FETCH", "FIRST_VALUE", "FLOAT",
    "FLOAT4", "FLOAT8", "FOR", "FORCE", "FOREIGN", "FROM", "FULL", "FULLTEXT", "FUNCTION",
    "GENERATED", "GET", "GET_MASTER_PUBLIC_KEY", "GRANT", "GROUP", "GROUPING", "GROUPS", "HAVING",
    "HIGH_PRIORITY", "HOUR_MICROSECOND", "HOUR_MINUTE", "HOUR_SECOND", "IF", "IGNORE", "IN",
    "INDEX", "INFILE", "INNER", "INOUT", "INSENSITIVE", "INSERT", "INT", "INT1", "INT2", "INT3",
    "INT4", "INT8", "INTEGER", "INTERVAL", "INTERSECT", "INTO", "IO_AFTER_GTIDS",
    "IO_BEFORE_GTIDS", "IS", "ITERATE", "JOIN", "JSON_TABLE", "KEY", "KEYS", "KILL", "LAG",
    "LAST_VALUE", "LATERAL", "LEAD", "LEADING", "LEAVE", "LEFT", "LIKE", "LIMIT", "LINEAR",
    "LINES", "LOAD", "LOCALTIME", "LOCALTIMESTAMP", "LOCK", "LONG", "LONGBLOB", "LONGTEXT",
    "LOOP", "LOW_PRIORITY", "MASTER_BIND", "MASTER_SSL_VERIFY_SERVER_CERT", "MATCH", "MAXVALUE",
    "MEDIUMBLOB", "MEDIUMINT", "MEDIUMTEXT", "MEMBER", "MIDDLEINT", "MINUTE_MICROSECOND",
    "MINUTE_SECOND", "MOD", "MODIFIES", "NATURAL", "NONBLOCKING", "NOT", "NO_WRITE_TO_BINLOG",
    "NTH_VALUE", "NTILE", "NULL", "NUMERIC", "OF", "ON", "OPTIMIZE", "OPTIMIZER_COSTS", "OPTION",
    "OPTIONALLY", "OR", "ORDER", "OUT", "OUTER", "OUTFILE", "OVER", "PARTITION", "PERCENT_RANK",
    "PERSIST", "PERSIST_ONLY", "PRECISION", "PRIMARY", "PROCEDURE", "PURGE", "RANGE", "RANK",
    "READ", "READS", "READ_WRITE", "REAL", "RECURSIVE", "REFERENCES", "REGEXP", "RELEASE",
    "RENAME", "REPEAT", "REPLACE", "REQUIRE", "RESIGNAL", "RESTRICT", "RETURN", "REVOKE", "RIGHT",
    "RLIKE", "ROLE", "ROW", "ROWS", "ROW_NUMBER", "SCHEMA", "SCHEMAS", "SECOND_MICROSECOND",
    "SELECT", "SENSITIVE", "SEPARATOR", "SET", "SHOW", "SIGNAL", "SMALLINT", "SPATIAL",
    "SPECIFIC", "SQL", "SQLEXCEPTION", "SQLSTATE", "SQLWARNING", "SQL_BIG_RESULT",
    "SQL_CALC_FOUND_ROWS", "SQL_SMALL_RESULT", "SSL", "STARTING", "STORED", "STRAIGHT_JOIN",
    "SYSTEM", "TABLE", "TERMINATED", "THEN", "TINYBLOB", "TINYINT", "TINYTEXT", "TO", "TRAILING",
    "TRIGGER", "TRUE", "UNDO", "UNION", "UNIQUE", "UNLOCK", "UNSIGNED", "UPDATE", "USAGE", "USE",
    "USING", "UTC_DATE", "UTC_TIME", "UTC_TIMESTAMP", "VALUES", "VARBINARY", "VARCHAR",
    "VARCHARACTER", "VARYING", "VIRTUAL", "WHEN", "WHERE", "WHILE", "WINDOW", "WITH", "WRITE",
    "XOR", "YEAR_MONTH", "ZEROFILL"]

def reservedKeywords : List Bytes :=
  reservedKeywordLiterals.map literalBytes

def toUpper (chr : UInt8) : UInt8 :=
  if 97 ≤ chr ∧ chr ≤ 122 then chr - 32 else chr

def strUpper (word : Bytes) : Bytes :=
  word.map toUpper

def isReservedWord (word : Bytes) : Bool :=
  let upper := strUpper word
  reservedKeywords[lowerBound (precedes · upper) reservedKeywords]? = some upper

def misplaced : List Bytes :=
  [literalBytes "INTERVAL", literalBytes "INTERSECT"]

theorem precedes_irrefl (text : Bytes) : precedes text text = false := by
  induction text with
  | nil => rfl
  | cons chr text ih => simp [precedes, ih]

theorem precedes_trans {first second third : Bytes} (left : precedes first second = true)
    (right : precedes second third = true) : precedes first third = true := by
  induction first generalizing second third with
  | nil =>
    cases second with
    | nil => cases left
    | cons chr second =>
      cases third with
      | nil => cases right
      | cons other third => rfl
  | cons chr first ih =>
    cases second with
    | nil => cases left
    | cons chr' second =>
      cases third with
      | nil => cases right
      | cons chr'' third =>
        simp only [precedes, Bool.or_eq_true, Bool.and_eq_true, decide_eq_true_eq]
          at left right ⊢
        rcases left with less | ⟨rfl, less⟩
        · rcases right with less' | ⟨rfl, -⟩
          · exact .inl (UInt8.lt_trans less less')
          · exact .inl less
        · rcases right with less' | ⟨rfl, less'⟩
          · exact .inl less'
          · exact .inr ⟨rfl, ih less less'⟩

theorem precedes_asymm {first second : Bytes} (less : precedes first second = true) :
    precedes second first = false := by
  by_contra both
  have self := precedes_trans less (Bool.not_eq_false _ ▸ both)
  rw [precedes_irrefl] at self
  cases self

/-- The table, in order but for the two words. -/
theorem reservedKeywords_eq :
    reservedKeywords = reservedKeywords.take 113 ++ (misplaced ++ reservedKeywords.drop 115) := by
  have behind : reservedKeywords.drop 113 = misplaced ++ reservedKeywords.drop 115 := by
    simp only [reservedKeywords, ← map_drop]
    exact congrArg (map literalBytes) (show reservedKeywordLiterals.drop 113 =
      ["INTERVAL", "INTERSECT"] ++ reservedKeywordLiterals.drop 115 from rfl)
  rw [← behind, take_append_drop]

theorem reservedKeywords_chain :
    (reservedKeywords.take 113 ++ (misplaced.reverse ++ reservedKeywords.drop 115)).IsChain
      fun left right => precedes left right = true := by
  decide +kernel

instance : Trans (fun left right : Bytes => precedes left right = true)
    (fun left right : Bytes => precedes left right = true)
    (fun left right : Bytes => precedes left right = true) :=
  ⟨precedes_trans⟩

/-- The search finds an element that has all smaller ones in front of it. -/
theorem getElem_lowerBound {left right : List Bytes} {word : Bytes}
    (before : ∀ element ∈ left, precedes element word = true)
    (after : ∀ element ∈ right, precedes word element = true) :
    (left ++ word :: right)[lowerBound (precedes · word) (left ++ word :: right)]? = some word := by
  have bound : lowerBound (precedes · word) (left ++ word :: right) = left.length := by
    refine lowerBound_append before fun element inside => ?_
    rcases mem_cons.mp inside with rfl | behind
    · exact precedes_irrefl element
    · exact precedes_asymm (after element behind)
  rw [bound, getElem?_append_right (Nat.le_refl _), Nat.sub_self, getElem?_cons_zero]

theorem getElem_lowerBound_of_mem {upper : Bytes} (listed : upper ∈ reservedKeywords)
    (placed : upper ∉ misplaced) :
    reservedKeywords[lowerBound (precedes · upper) reservedKeywords]? = some upper := by
  have sorted := isChain_iff_pairwise.mp reservedKeywords_chain
  rw [reservedKeywords_eq] at listed
  rw [reservedKeywords_eq]
  generalize reservedKeywords.take 113 = front at *
  generalize reservedKeywords.drop 115 = back at *
  obtain ⟨frontSorted, restSorted, ordered⟩ := pairwise_append.mp sorted
  obtain ⟨-, backSorted, ordered'⟩ := pairwise_append.mp restSorted
  rcases mem_append.mp listed with inFront | inRest
  · obtain ⟨left, right, rfl⟩ := append_of_mem inFront
    obtain ⟨-, tail, before⟩ := pairwise_append.mp frontSorted
    rw [append_assoc]
    refine getElem_lowerBound (fun element inside => before element inside upper (by simp))
      fun element inside => ?_
    rcases mem_append.mp inside with inRight | inRest
    · exact rel_of_pairwise_cons tail inRight
    · exact ordered upper (by simp) element (by simpa using inRest)
  · have inBack := (mem_append.mp inRest).resolve_left placed
    obtain ⟨left, right, rfl⟩ := append_of_mem inBack
    obtain ⟨-, tail, before⟩ := pairwise_append.mp backSorted
    rw [← append_assoc misplaced, ← append_assoc]
    refine getElem_lowerBound (fun element inside => ?_)
      fun element inside => rel_of_pairwise_cons tail inside
    rcases mem_append.mp inside with inFront | inside
    · exact ordered element inFront upper (by simp)
    · rcases mem_append.mp inside with inMisplaced | inLeft
      · exact ordered' element (mem_reverse.mpr inMisplaced) upper (by simp)
      · exact before element inLeft upper (by simp)

theorem not_found_misplaced : ∀ upper ∈ misplaced,
    reservedKeywords[lowerBound (precedes · upper) reservedKeywords]? ≠ some upper := by
  decide +kernel

/-- The words that the search finds. -/
theorem isReservedWord_iff (word : Bytes) : isReservedWord word = true ↔
    strUpper word ∈ reservedKeywords ∧ strUpper word ∉ misplaced := by
  rw [isReservedWord, decide_eq_true_eq]
  constructor
  · intro found
    refine ⟨mem_of_getElem? found, fun wrong => ?_⟩
    exact not_found_misplaced _ wrong found
  · rintro ⟨listed, placed⟩
    exact getElem_lowerBound_of_mem listed placed

theorem misplaced_subset : ∀ upper ∈ misplaced, upper ∈ reservedKeywords := by
  intro upper member
  rw [reservedKeywords_eq]
  exact mem_append_right _ (mem_append_left _ member)

/-! ## Names that are read back -/

theorem isNameChar_iff : ∀ chr, isNameChar chr = true ↔ isIdentifierChar chr = true ∧ chr < 128 :=
  forall_byte (by decide +kernel)

theorem isNameChar_of_isIdentifierChar_false : ∀ chr,
    isIdentifierChar chr = false → isNameChar chr = false :=
  forall_byte (by decide +kernel)

theorem takeWhile_append_of_head {name rest : Bytes}
    (ends : ∀ chr ∈ rest.head?, isIdentifierChar chr = false) :
    (name ++ rest).takeWhile isNameChar = name.takeWhile isNameChar := by
  have stops : rest.takeWhile isNameChar = [] := by
    cases rest with
    | nil => rfl
    | cons chr rest =>
      exact takeWhile_cons_of_neg
        (Bool.not_eq_true _ ▸ isNameChar_of_isIdentifierChar_false _ (ends chr rfl))
  rw [takeWhile_append, stops]
  split <;> rename_i all
  · rw [append_nil]
    exact (List.takeWhile_prefix _).eq_of_length all |>.symm
  · rfl

theorem length_quoteIdentifier (quote : UInt8) (identifier : Bytes) :
    identifier.length < (quoteIdentifier quote identifier).length := by
  have longer : identifier.length ≤
      (identifier.flatMap fun chr => if chr = quote then [quote, quote] else [chr]).length := by
    induction identifier with
    | nil => simp
    | cons chr identifier ih =>
      rw [flatMap_cons, length_append]
      split <;> simp only [length_cons] <;> omega
  simp only [quoteIdentifier, length_cons, length_append]
  omega

/-- A quoted name is longer, so a name that stays as it is was not quoted. -/
theorem quoteIdentifierIfNeeded_eq_iff (reserved : Bytes → Bool) (quote : UInt8)
    (identifier : Bytes) : quoteIdentifierIfNeeded reserved quote identifier = identifier ↔
      reserved identifier = false ∧ (∀ chr ∈ identifier, isIdentifierChar chr = true) ∧
        ¬ identifier.all isDigit := by
  rw [quoteIdentifierIfNeeded]
  split <;> rename_i needed
  · have longer := length_quoteIdentifier quote identifier
    constructor
    · intro same
      rw [same] at longer
      omega
    · rintro ⟨free, chars, digits⟩
      simp [free, digits] at needed
      obtain ⟨chr, inside, other⟩ := needed
      rw [chars chr inside] at other
      cases other
  · simpa using needed

theorem not_quote_of_isIdentifierChar {chr : UInt8} (inside : isIdentifierChar chr = true) :
    chr ≠ backtick ∧ chr ≠ doubleQuote := by
  constructor
  · rintro rfl
    cases inside
  · rintro rfl
    cases inside

/-- A name that is not quoted is read back if it has ASCII characters only. -/
theorem spanQuotableSqlIdentifier_unquoted {identifier rest : Bytes} (allowAnsiQuotes : Bool)
    (ends : ∀ chr ∈ rest.head?, isIdentifierChar chr = false)
    (chars : ∀ chr ∈ identifier, isIdentifierChar chr = true)
    (digits : ¬ identifier.all isDigit) :
    spanQuotableSqlIdentifier allowAnsiQuotes (identifier ++ rest) = .ok (identifier, rest) ↔
      ∀ chr ∈ identifier, chr < 128 := by
  have name := @takeWhile_append_of_head identifier rest ends
  cases identifier with
  | nil => exact absurd rfl digits
  | cons first identifier =>
    obtain ⟨noBacktick, noQuote⟩ := not_quote_of_isIdentifierChar (chars first (by simp))
    rw [cons_append] at name ⊢
    rw [spanQuotableSqlIdentifier, if_neg (by simp [noBacktick, noQuote])]
    simp only [name]
    constructor
    · intro read
      have same : (first :: identifier).takeWhile isNameChar = first :: identifier := by
        split at read
        · cases read
        · split at read
          · cases read
          · simp only [Except.ok.injEq, Prod.mk.injEq] at read
            exact read.1
      intro chr inside
      exact ((isNameChar_iff chr).mp (takeWhile_eq_self_iff.mp same chr inside)).2
    · intro plain
      have same : (first :: identifier).takeWhile isNameChar = first :: identifier :=
        takeWhile_eq_self_iff.mpr fun chr inside =>
          (isNameChar_iff chr).mpr ⟨chars chr inside, plain chr inside⟩
      rw [same, if_neg digits]
      simp

/-- A quoted name is read back unless its closing quote is doubled by the text behind it. -/
theorem spanQuotableSqlIdentifier_quoted {quote : UInt8} {allowAnsiQuotes : Bool}
    (accepted : quote = backtick ∨ (allowAnsiQuotes ∧ quote = doubleQuote))
    (identifier rest : Bytes) :
    spanQuotableSqlIdentifier allowAnsiQuotes (quoteIdentifier quote identifier ++ rest) =
      .ok (identifier, rest) ↔ rest.head? ≠ some quote := by
  have text : quoteIdentifier quote identifier ++ rest = quote ::
      (identifier.flatMap (fun chr => if chr = quote then [quote, quote] else [chr]) ++
        quote :: rest) := by
    simp [quoteIdentifier]
  rw [text, spanQuotableSqlIdentifier, if_pos accepted]
  exact quotedName_eq_iff quote identifier rest

/--
A name of identifier characters, not all of them digits, that is not in the list of reserved
words or is one of the misplaced words.
-/
def IsPlainName (identifier : Bytes) : Prop :=
  (∀ chr ∈ identifier, isIdentifierChar chr = true) ∧ ¬ identifier.all isDigit ∧
    (strUpper identifier ∈ reservedKeywords → strUpper identifier ∈ misplaced)

instance (identifier : Bytes) : Decidable (IsPlainName identifier) :=
  inferInstanceAs (Decidable (_ ∧ _ ∧ _))

theorem isReservedWord_eq_false_iff (identifier : Bytes) : isReservedWord identifier = false ↔
    (strUpper identifier ∈ reservedKeywords → strUpper identifier ∈ misplaced) := by
  rw [← Bool.not_eq_true, isReservedWord_iff, not_and, not_not]

/-- Plain names are written as they are, other names in quotes. -/
theorem quoteIdentifierIfNeeded_cases (quote : UInt8) (identifier : Bytes) :
    (IsPlainName identifier ∧
        quoteIdentifierIfNeeded isReservedWord quote identifier = identifier) ∨
      (¬ IsPlainName identifier ∧
        quoteIdentifierIfNeeded isReservedWord quote identifier ≠ identifier ∧
        quoteIdentifierIfNeeded isReservedWord quote identifier =
          quoteIdentifier quote identifier) := by
  have plain := quoteIdentifierIfNeeded_eq_iff isReservedWord quote identifier
  rw [isReservedWord_eq_false_iff, and_comm, and_assoc] at plain
  change _ ↔ IsPlainName identifier at plain
  rw [← plain]
  by_cases same : quoteIdentifierIfNeeded isReservedWord quote identifier = identifier
  · exact .inl ⟨same, same⟩
  · refine .inr ⟨same, same, ?_⟩
    rw [quoteIdentifierIfNeeded] at same ⊢
    split
    · rfl
    · next needed =>
      rw [if_neg needed] at same
      exact absurd rfl same

/--
A plain name is read back and is no reserved word exactly if it has only ASCII characters and
is no misplaced word; any other name exactly if the text behind it does not double its quote.
-/
theorem quoteIdentifierIfNeeded_read_iff {quote : UInt8} {allowAnsiQuotes : Bool}
    {identifier rest : Bytes}
    (accepted : quote = backtick ∨ (allowAnsiQuotes ∧ quote = doubleQuote))
    (ends : ∀ chr ∈ rest.head?, isIdentifierChar chr = false) :
    (spanQuotableSqlIdentifier allowAnsiQuotes
        (quoteIdentifierIfNeeded isReservedWord quote identifier ++ rest) = .ok (identifier, rest) ∧
      (quoteIdentifierIfNeeded isReservedWord quote identifier = identifier →
        strUpper identifier ∉ reservedKeywords)) ↔
      if IsPlainName identifier then
        (∀ chr ∈ identifier, chr < 128) ∧ strUpper identifier ∉ misplaced
      else rest.head? ≠ some quote := by
  rcases quoteIdentifierIfNeeded_cases quote identifier with
    ⟨plain, same⟩ | ⟨notPlain, changed, quoted⟩
  · obtain ⟨chars, digits, listed⟩ := plain
    rw [if_pos ⟨chars, digits, listed⟩, same,
      spanQuotableSqlIdentifier_unquoted allowAnsiQuotes ends chars digits]
    have unlisted : strUpper identifier ∉ reservedKeywords ↔ strUpper identifier ∉ misplaced :=
      not_congr ⟨listed, misplaced_subset _⟩
    simp only [true_implies, unlisted]
  · rw [if_neg notPlain, and_iff_left fun same => absurd same changed, quoted]
    exact spanQuotableSqlIdentifier_quoted accepted identifier rest

theorem quoteIdentifierIfNeeded_read_name :
    spanQuotableSqlIdentifier false (quoteIdentifierIfNeeded isReservedWord backtick
        (literalBytes "actor") ++ literalBytes " (") =
      .ok (literalBytes "actor", literalBytes " (") := by
  refine ((quoteIdentifierIfNeeded_read_iff (.inl rfl) (by decide +kernel)).mpr ?_).1
  decide +kernel

/-- A reserved word and a word with an umlaut. -/
theorem quoteIdentifierIfNeeded_interval :
    quoteIdentifierIfNeeded isReservedWord backtick (literalBytes "interval") =
        literalBytes "interval" ∧
      strUpper (literalBytes "interval") ∈ reservedKeywords ∧
      quoteIdentifierIfNeeded isReservedWord backtick (literalBytes "ä") = literalBytes "ä" ∧
      spanQuotableSqlIdentifier false (literalBytes "ä") = .error .identifierCharacter := by
  decide +kernel

end MariadbShell.Sql
