import MariadbShell.Sql.Spans

/-!
# The SQL iterator

`SQL_iterator` visits the characters of a text that are not part of comments and, on
request, not part of quoted text. The loops of the source are bounded by the number of
characters that are left: every turn of a loop moves the iterator forward.
-/

namespace MariadbShell.Sql

open ImportTable (Bytes ascii)
open Chr

def npos : Nat := 2 ^ 64 - 1

structure SqlIterator where
  text : Bytes
  offset : Nat
  commentHint : Bool := false
  skipQuoted : Bool := true
  dollarQuotes : Bool := true
deriving DecidableEq, Repr

namespace SqlIterator

variable (it : SqlIterator)

def rest : Bytes :=
  it.text.drop it.offset

def valid : Bool :=
  it.offset < it.text.length

def position : Nat :=
  it.offset

def setPosition (position : Nat) : SqlIterator :=
  { it with offset := position }

/-- Move behind spanned text, or to the end if it has none. -/
def jump : Option Nat → SqlIterator
  | some count => { it with offset := it.offset + count }
  | none => { it with offset := it.text.length }

/-! ## Moving to the next character -/

/-- The start of a comment; hints and conditional comments are entered. -/
def slash (tail : Bytes) : Option SqlIterator :=
  match tail with
  | second :: inner =>
    if second = Chr.star then
      if inner.head? = some exclamation ∨ inner.head? = some plus then
        some
          { it with
            commentHint := true
            offset := it.offset + 3 + (inner.tail.takeWhile isDigit).length }
      else some (it.jump (spanCstyleComment it.rest))
    else none
  | [] => none

/--
One turn of the loop of `operator++`: the iterator moves on, or it stays at a character
that is visited.
-/
def turn : Except LexError (Option SqlIterator) :=
  let quoted (count : Option Nat) : Option SqlIterator :=
    if it.skipQuoted then some (it.jump count) else none
  match it.rest with
  | [] => .ok none
  | chr :: tail =>
    if chr = quote then .ok (quoted (spanQuotedStringSq it.rest))
    else if chr = doubleQuote then .ok (quoted (spanQuotedStringDq it.rest))
    else if chr = backtick then .ok (quoted (spanQuotedSqlIdentifierBt it.rest))
    else if chr = Chr.slash then .ok (it.slash tail)
    else if chr = Chr.star then
      if it.commentHint ∧ tail.head? = some Chr.slash then
        .ok (some { it with offset := it.offset + 2, commentHint := false })
      else .ok none
    else if chr = Chr.hash then .ok (some (it.jump (some (1 + spanToEol tail))))
    else if chr = minus then
      if tail.head? = some minus ∧ tail[1]?.any isSpace then
        .ok (some (it.jump (some (2 + spanToEol tail.tail))))
      else .ok none
    else if chr = dollar then
      if it.dollarQuotes then
        (spanDollarQuotedStringOrDollarIdentifier it.rest).map fun count =>
          if it.rest[count - 1]? = some dollar ∧ it.skipQuoted then
            some (it.jump (some count))
          else none
      else .ok none
    else .ok none

/-- The loop of `operator++`, at most `fuel` turns. -/
def settle : Nat → SqlIterator → Except LexError SqlIterator
  | 0, it => .ok it
  | fuel + 1, it =>
    match it.turn with
    | .error error => .error error
    | .ok none => .ok it
    | .ok (some next) => settle fuel next

/-- `operator++`. -/
def next : Except LexError SqlIterator :=
  if it.text.length < it.offset + 1 then .error .outOfRange
  else settle it.rest.length { it with offset := it.offset + 1 }

def create (text : Bytes) (offset : Nat) (skipQuoted dollarQuotes : Bool) :
    Except LexError SqlIterator :=
  settle (text.length + 1) { text, offset, skipQuoted, dollarQuotes }

/-! ## Tokens -/

def skipSpaces : Nat → SqlIterator → Except LexError SqlIterator
  | 0, it => .ok it
  | fuel + 1, it =>
    match it.rest with
    | [] => .ok it
    | chr :: _ =>
      if isSpace chr then
        match it.next with
        | .error error => .error error
        | .ok later => skipSpaces fuel later
      else .ok it

def substring (start stop : Nat) : Bytes :=
  (it.text.drop start).take (stop - start)

def isPunctuation (chr : UInt8) : Bool :=
  chr = comma ∨ chr = semicolon ∨ chr = openParenthesis ∨
    chr = closeParenthesis ∨ chr = equal ∨ chr = atSign

/-- The end of a token after its last character `previous`; it has one at least. -/
def endToken (start previous : Nat) : Except LexError (Bytes × SqlIterator) :=
  if it.offset = start then it.next.map fun later => (it.substring start (previous + 1), later)
  else .ok (it.substring start (previous + 1), it)

/-- The loop of `next_token_and_offset` over the characters of a token. -/
def tokenLoop (start : Nat) : Nat → Nat → SqlIterator → Except LexError (Bytes × SqlIterator)
  | 0, previous, it => it.endToken start previous
  | fuel + 1, previous, it =>
    let goOn (it : SqlIterator) : Except LexError (Bytes × SqlIterator) :=
      match it.next with
      | .error error => .error error
      | .ok later =>
        if later.valid then tokenLoop start fuel it.offset later
        else later.endToken start it.offset
    match it.rest with
    | [] => it.endToken start previous
    | chr :: _ =>
      if isPunctuation chr then it.endToken start previous
      else if chr = quote ∨ chr = doubleQuote then
        if it.skipQuoted then goOn it else it.endToken start previous
      else if chr = backtick then
        if it.skipQuoted then goOn it
        else if it.offset = start ∨ it.text[it.offset - 1]? = some dot then
          let named : SqlIterator :=
            { it with
              offset := ((spanQuotedSqlIdentifierBt it.rest).map (it.offset + ·)).getD npos }
          if named.rest.head? = some dot then goOn named
          else .ok (named.substring start named.offset, named)
        else it.endToken start previous
      else if isSpace chr ∨ 1 < it.offset - previous then it.endToken start previous
      else if chr = colon then
        match it.next with
        | .error error => .error error
        | .ok later => later.endToken start it.offset
      else goOn it

/-- `next_token_and_offset`, without the offset. -/
def nextToken : Except LexError (Bytes × SqlIterator) :=
  match skipSpaces it.rest.length it with
  | .error error => .error error
  | .ok it =>
    let start := it.offset
    let spanned (count : Option Nat) : Except LexError (Bytes × SqlIterator) :=
      let behind := { it with offset := (count.map (start + ·)).getD npos }
      .ok (behind.substring start behind.offset, behind)
    match it.rest with
    | [] => .ok ([], it)
    | chr :: _ =>
      if it.skipQuoted then tokenLoop start (it.rest.length + 1) start it
      else if chr = quote then spanned (spanQuotedStringSq it.rest)
      else if chr = doubleQuote then spanned (spanQuotedStringDq it.rest)
      else if chr = dollar ∧ it.dollarQuotes then
        match spanDollarQuotedStringOrDollarIdentifier it.rest with
        | .error error => .error error
        | .ok count => spanned (some count)
      else tokenLoop start (it.rest.length + 1) start it

end SqlIterator

end MariadbShell.Sql
