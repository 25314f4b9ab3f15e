import MariadbShell.Sql.Iterator

/-!
# Quoting and SQL strings

The functions that quote values and identifiers, and `sqlstring`, which binds values to
the placeholders `?` and `!` of a template.
-/

namespace MariadbShell.Sql

open ImportTable (Bytes ascii)
open Chr

/-! ## Quoting -/

/-- What `escape_sql_string` writes for a character. -/
def escapeSqlChar (quotingChar : UInt8) (wildcards noBackslashQuotes : Bool) (chr : UInt8) :
    Bytes :=
  let escaped (escape : UInt8) : Bytes :=
    if noBackslashQuotes then [chr] else [backslash, escape]
  if chr = nul then escaped 48
  else if chr = newline then escaped 110
  else if chr = carriageReturn then escaped 114
  else if chr = backslash then escaped backslash
  else if chr = quote ∨ chr = doubleQuote then
    if chr = quotingChar then [if noBackslashQuotes then chr else backslash, chr] else [chr]
  else if chr = controlZ then escaped 90
  else if chr = underscore ∧ wildcards then escaped underscore
  else if chr = percent ∧ wildcards then escaped percent
  else [chr]

def escapeSqlString (quotingChar : UInt8) (wildcards noBackslashQuotes : Bool) (text : Bytes) :
    Bytes :=
  text.flatMap (escapeSqlChar quotingChar wildcards noBackslashQuotes)

def quoteSqlString (text : Bytes) : Bytes :=
  quote :: escapeSqlString quote false false text ++ [quote]

/-- What `escape_backticks` writes for a character. -/
def escapeBackticksChar (chr : UInt8) : Bytes :=
  if chr = nul then [backslash, 48]
  else if chr = newline then [backslash, 110]
  else if chr = carriageReturn then [backslash, 114]
  else if chr = controlZ then [backslash, 90]
  else if chr = backtick then [backtick, backtick]
  else [chr]

def escapeBackticks (text : Bytes) : Bytes :=
  text.flatMap escapeBackticksChar

section

variable {α : Type} [DecidableEq α]

/-- `quote_identifier`: quotes inside of the name are doubled. -/
def quoteIdentifier (quote : α) (identifier : List α) : List α :=
  quote :: identifier.flatMap (fun chr => if chr = quote then [quote, quote] else [chr]) ++ [quote]

/-- Doubled quotes are read as single ones. -/
theorem quotedName_doubled (quote : α) (identifier text : List α) :
    quotedName quote false
      (identifier.flatMap (fun chr => if chr = quote then [quote, quote] else [chr]) ++ text) =
      (quotedName quote false text).map fun (name, rest) => (identifier ++ name, rest) := by
  induction identifier with
  | nil => cases read : quotedName quote false text <;> simp [read, Except.map]
  | cons chr identifier ih =>
    by_cases same : chr = quote
    · cases read : quotedName quote false text <;>
        simp [same, quotedName, ih, read, Except.map]
    · cases read : quotedName quote false text <;>
        simp [same, quotedName, ih, read, Except.map]

/-- A quoted name is read back unless the text behind it doubles the closing quote. -/
theorem quotedName_eq_iff (quote : α) (identifier rest : List α) :
    quotedName quote false
      (identifier.flatMap (fun chr => if chr = quote then [quote, quote] else [chr]) ++
        quote :: rest) = .ok (identifier, rest) ↔ rest.head? ≠ some quote := by
  rw [quotedName_doubled]
  cases rest with
  | nil => simp [quotedName, Except.map]
  | cons chr rest =>
    by_cases same : chr = quote
    · cases read : quotedName quote false rest <;> simp [same, quotedName, read, Except.map]
    · simp [same, quotedName, Except.map]

/-- A quoted name ends at the first quote that is not doubled. -/
theorem quoteIdentifier_append_inj {quote : α} {left right rest rest' : List α}
    (ends : rest.head? ≠ some quote) (ends' : rest'.head? ≠ some quote)
    (same : quoteIdentifier quote left ++ rest = quoteIdentifier quote right ++ rest') :
    left = right ∧ rest = rest' := by
  simp only [quoteIdentifier, List.cons_append, List.append_assoc, List.nil_append,
    List.cons.injEq, true_and] at same
  have read := (quotedName_eq_iff quote left rest).mpr ends
  rw [same, (quotedName_eq_iff quote right rest').mpr ends'] at read
  exact ⟨(congrArg Prod.fst (Except.ok.inj read)).symm,
    (congrArg Prod.snd (Except.ok.inj read)).symm⟩

end

/-- `quote_identifier_if_needed`, for given reserved words. -/
def quoteIdentifierIfNeeded (reserved : Bytes → Bool) (quote : UInt8) (identifier : Bytes) :
    Bytes :=
  if reserved identifier ∨ ¬ identifier.all isIdentifierChar ∨ identifier.all isDigit then
    quoteIdentifier quote identifier
  else identifier

/-! ## Templates -/

inductive SqlStringError where
  | moreArguments
  | expectedEscape
  | unboundPlaceholders
  | lex (error : LexError)
deriving DecidableEq, Repr

def SqlStringError.message : SqlStringError → Bytes
  | .moreArguments => ascii "Error formatting SQL query: more arguments than escapes".toList
  | .expectedEscape =>
    ascii ("Error formatting SQL query: internal error, expected ? or ! escape " ++
      "got something else").toList
  | .unboundPlaceholders => ascii "Unbound placeholders left in query".toList
  | .lex error => error.message

/-- Formatting flags, with the reserved words that `QuoteOnlyIfNeeded` looks at. -/
structure SqlStringFormat where
  quoteOnlyIfNeeded : Bool := false
  noBackslashEscapes : Bool := false
  reserved : Bytes → Bool := fun _ => false

structure SqlString where
  formatted : Bytes
  formatStringLeft : Bytes

namespace SqlString

/-- The position of the first placeholder; `!=` is not one. -/
def escapePosition : Nat → SqlIterator → Except LexError Nat
  | 0, it => .ok it.position
  | fuel + 1, it =>
    match it.rest with
    | [] => .ok it.position
    | chr :: _ =>
      if chr = questionMark then .ok it.position
      else
        match it.next with
        | .error error => .error error
        | .ok later =>
          if chr ≠ exclamation then escapePosition fuel later
          else if later.rest.head? ≠ some equal then .ok it.position
          else
            match later.next with
            | .error error => .error error
            | .ok behind => escapePosition fuel behind

/-- The position at which the template is cut. -/
def nextEscapePosition (formatString : Bytes) : Except LexError Nat :=
  match SqlIterator.create formatString 0 true true with
  | .error error => .error error
  | .ok it => escapePosition (formatString.length + 1) it

/-- `consume_until_next_escape`, with the text appended. -/
def consumeUntilNextEscape (sql : SqlString) : Except SqlStringError SqlString :=
  match nextEscapePosition sql.formatStringLeft with
  | .error error => .error (.lex error)
  | .ok position =>
    .ok
      { formatted := sql.formatted ++ sql.formatStringLeft.take position
        formatStringLeft := sql.formatStringLeft.drop position }

theorem consumeUntilNextEscape_eq {formatted left : Bytes} (position : Nat)
    (found : nextEscapePosition left = .ok position) :
    consumeUntilNextEscape ⟨formatted, left⟩ =
      .ok ⟨formatted ++ left.take position, left.drop position⟩ := by
  simp only [consumeUntilNextEscape, found]

def create (formatString : Bytes) : Except SqlStringError SqlString :=
  consumeUntilNextEscape { formatted := [], formatStringLeft := formatString }

/-- The text that stands for a value at a placeholder. -/
def quoted (format : SqlStringFormat) (escape : UInt8) (value : Bytes) :
    Except SqlStringError Bytes :=
  if escape = exclamation then
    .ok (if format.quoteOnlyIfNeeded then
        quoteIdentifierIfNeeded format.reserved backtick value
      else quoteIdentifier backtick value)
  else if escape = questionMark then
    .ok (quote :: escapeSqlString quote false format.noBackslashEscapes value ++ [quote])
  else .error .expectedEscape

/-- `operator<<` for a string. -/
def bind (format : SqlStringFormat) (sql : SqlString) (value : Bytes) :
    Except SqlStringError SqlString :=
  match sql.formatStringLeft with
  | [] => .error .moreArguments
  | escape :: left =>
    match quoted format escape value with
    | .error error => .error error
    | .ok text =>
      consumeUntilNextEscape
        { formatted := sql.formatted ++ text, formatStringLeft := left }

/-- `str`, which first checks that every placeholder is bound. -/
def str (sql : SqlString) : Except SqlStringError Bytes :=
  match sql.formatStringLeft with
  | [] => .ok sql.formatted
  | escape :: left =>
    if (escape = exclamation ∧ left.head? ≠ some equal) ∨ escape = questionMark then
      .error .unboundPlaceholders
    else .ok (sql.formatted ++ sql.formatStringLeft)

def bindAll (format : SqlStringFormat) : SqlString → List Bytes → Except SqlStringError Bytes
  | sql, [] => sql.str
  | sql, value :: values =>
    match sql.bind format value with
    | .error error => .error error
    | .ok next => bindAll format next values

theorem bindAll_cons {format : SqlStringFormat} {sql next : SqlString} {value : Bytes}
    (values : List Bytes) (bound : sql.bind format value = .ok next) :
    sql.bindAll format (value :: values) = next.bindAll format values := by
  simp only [bindAll, bound]

end SqlString

def sqlformat (format : SqlStringFormat) (formatString : Bytes) (values : List Bytes) :
    Except SqlStringError Bytes :=
  match SqlString.create formatString with
  | .error error => .error error
  | .ok sql => sql.bindAll format values

theorem sqlformat_eq {format : SqlStringFormat} {formatString : Bytes} {sql : SqlString}
    (values : List Bytes) (created : SqlString.create formatString = .ok sql) :
    sqlformat format formatString values = sql.bindAll format values := by
  simp only [sqlformat, created]

end MariadbShell.Sql
