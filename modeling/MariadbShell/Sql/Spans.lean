import MariadbShell.Lib.Search
import MariadbShell.ImportTable.Dialect

/-!
# Spans of SQL text

The functions of `utils_lexing.h`. A span is taken of the text from an offset on and
gives the number of characters it covers; `none` stands for `npos`.
-/

namespace MariadbShell.Sql

open ImportTable (Bytes ascii)
open Lib.Search

/-! ## Characters -/

namespace Chr

def nul : UInt8 := 0
def tab : UInt8 := 9
def newline : UInt8 := 10
def carriageReturn : UInt8 := 13
def controlZ : UInt8 := 26
def space : UInt8 := 32
def exclamation : UInt8 := 33
def doubleQuote : UInt8 := 34
def hash : UInt8 := 35
def dollar : UInt8 := 36
def percent : UInt8 := 37
def quote : UInt8 := 39
def openParenthesis : UInt8 := 40
def closeParenthesis : UInt8 := 41
def star : UInt8 := 42
def plus : UInt8 := 43
def comma : UInt8 := 44
def minus : UInt8 := 45
def dot : UInt8 := 46
def slash : UInt8 := 47
def colon : UInt8 := 58
def semicolon : UInt8 := 59
def equal : UInt8 := 61
def questionMark : UInt8 := 63
def atSign : UInt8 := 64
def backslash : UInt8 := 92
def underscore : UInt8 := 95
def backtick : UInt8 := 96

end Chr

/-- A property of bytes that was decided for each of them. -/
theorem forall_byte {holds : UInt8 → Prop} (all : ∀ index : Fin 256, holds (UInt8.ofFin index)) :
    ∀ chr, holds chr :=
  fun chr => all chr.toFin

/-! The character classes of the C locale. -/

variable (chr : UInt8)

def isDigit : Bool :=
  48 ≤ chr ∧ chr ≤ 57

def isAlpha : Bool :=
  (65 ≤ chr ∧ chr ≤ 90) ∨ (97 ≤ chr ∧ chr ≤ 122)

def isAlnum : Bool :=
  isAlpha chr ∨ isDigit chr

def isSpace : Bool :=
  (9 ≤ chr ∧ chr ≤ 13) ∨ chr = Chr.space

def isXdigit : Bool :=
  isDigit chr ∨ (65 ≤ chr ∧ chr ≤ 70) ∨ (97 ≤ chr ∧ chr ≤ 102)

/-- The number of a hexadecimal digit. -/
def hexValue : UInt8 :=
  if 48 ≤ chr ∧ chr ≤ 57 then chr - 48
  else if 65 ≤ chr ∧ chr ≤ 70 then chr - 55
  else if 97 ≤ chr ∧ chr ≤ 102 then chr - 87
  else 0

/-- The hexadecimal digit of a number below 16. -/
def hexChar (value : UInt8) : UInt8 :=
  if value < 10 then 48 + value else 55 + value

def toLower : UInt8 :=
  if 65 ≤ chr ∧ chr ≤ 90 then chr + 32 else chr

/-- `str_caseeq`. -/
def caseEq (left right : Bytes) : Bool :=
  left.map toLower = right.map toLower

/-- The characters of `k_dollar_quoted_string_span_chars`: digits, letters, `_`, non-ASCII. -/
def isDollarQuoteChar : Bool :=
  (48 ≤ chr ∧ chr ≤ 57) ∨ (65 ≤ chr ∧ chr ≤ 90) ∨ chr = 95 ∨ (97 ≤ chr ∧ chr ≤ 122) ∨ 128 ≤ chr

/-! ## Quoted text -/

/-- The text of a string behind its opening quote; a backslash escapes the next character. -/
def spanStringBody (quote : UInt8) : Bytes → Option Nat
  | [] => none
  | [chr] => if chr = quote then some 1 else none
  | chr :: second :: text =>
    if chr = quote then some 1
    else if chr = Chr.backslash then (spanStringBody quote text).map (· + 2)
    else (spanStringBody quote (second :: text)).map (· + 1)

/-- `span_quoted_string_sq` and `span_quoted_string_dq`. -/
def spanQuotedString (quote : UInt8) (text : Bytes) : Option Nat :=
  (spanStringBody quote text.tail).map (· + 1)

def spanQuotedStringSq : Bytes → Option Nat :=
  spanQuotedString Chr.quote

def spanQuotedStringDq : Bytes → Option Nat :=
  spanQuotedString Chr.doubleQuote

/-- The text of an identifier behind its opening quote; a doubled quote does not end it. -/
def spanIdentifierBody (quote : UInt8) : Bytes → Option Nat
  | [] => none
  | [chr] => if chr = quote then some 1 else none
  | chr :: second :: text =>
    if chr = quote then
      if second = quote then (spanIdentifierBody quote text).map (· + 2) else some 1
    else (spanIdentifierBody quote (second :: text)).map (· + 1)

def spanQuotedSqlIdentifierBt (text : Bytes) : Option Nat :=
  (spanIdentifierBody Chr.backtick text.tail).map (· + 1)

/-! ## Comments -/

/-- `span_to_eol`, with the newline. -/
def spanToEol (text : Bytes) : Nat :=
  min (text.findIdx (· = Chr.newline) + 1) text.length

/--
`span_cstyle_comment`. A comment has at least four characters, so the check of the
length of the whole text never matters.
-/
def spanCstyleComment (text : Bytes) : Option Nat :=
  (find [Chr.star, Chr.slash] (text.drop 2) 0).map (· + 4)

/-! ## Identifiers and dollar quotes -/

/-- The characters of `k_identifier_chars`, and those outside of ASCII. -/
def isIdentifierChar : Bool :=
  isAlnum chr ∨ chr = Chr.underscore ∨ chr = Chr.dollar ∨ 128 ≤ chr

/-- `span_unquoted_identifier`; the first character was checked by the caller. -/
def spanUnquotedIdentifier (text : Bytes) : Nat :=
  (text.tail.takeWhile isIdentifierChar).length + 1

inductive LexError where
  | unterminated (tag : Bytes)
  | outOfRange
  | identifierSyntax
  | identifierCharacter
  | identifierDigits
deriving DecidableEq, Repr

def LexError.message : LexError → Bytes
  | .unterminated tag => ascii "Unterminated ".toList ++ tag ++ ascii " quoted string".toList
  | .outOfRange => ascii "SQL_string_iterator offset out of range".toList
  | .identifierSyntax => ascii "Invalid syntax in identifier".toList
  | .identifierCharacter => ascii "Invalid character in identifier".toList
  | .identifierDigits =>
    ascii ("Invalid identifier: identifiers may begin with a digit but unless " ++
      "quoted may not consist solely of digits.").toList

def spanDollarQuotedStringOrDollarIdentifier (text : Bytes) : Except LexError Nat :=
  match find [Chr.dollar] text.tail 0 with
  | none => .ok (spanUnquotedIdentifier text)
  | some inner =>
    let tag := text.take (inner + 2)
    if (text.tail.take inner).all isDollarQuoteChar then
      match find tag (text.drop tag.length) 0 with
      | none => .error (.unterminated tag)
      | some content => .ok (tag.length + content + tag.length)
    else .ok (spanUnquotedIdentifier text)

/-! ## Names that may be quoted -/

/--
The loop of `span_quotable_sql_identifier` over a quoted name, after `esc`: the name and
the text behind it.
-/
def quotedName {α : Type} [DecidableEq α] (quote : α) :
    Bool → List α → Except LexError (List α × List α)
  | esc, [] => if esc then .ok ([], []) else .error .identifierSyntax
  | esc, chr :: text =>
    if chr = quote then
      if esc then (quotedName quote false text).map fun (name, rest) => (chr :: name, rest)
      else quotedName quote true text
    else if esc then .ok ([], chr :: text)
    else (quotedName quote false text).map fun (name, rest) => (chr :: name, rest)

/-- The characters of a name that is not quoted. -/
def isNameChar : Bool :=
  isAlnum chr ∨ chr = Chr.underscore ∨ chr = Chr.dollar

/-- `span_quotable_sql_identifier`: the name and the text behind it. -/
def spanQuotableSqlIdentifier (allowAnsiQuotes : Bool) (text : Bytes) :
    Except LexError (Bytes × Bytes) :=
  match text with
  | [] => .ok ([], [])
  | chr :: tail =>
    if chr = Chr.backtick ∨ (allowAnsiQuotes ∧ chr = Chr.doubleQuote) then
      quotedName chr false tail
    else
      let name := text.takeWhile isNameChar
      if name = [] then .error .identifierCharacter
      else if name.all isDigit then .error .identifierDigits
      else .ok (name, text.drop name.length)

end MariadbShell.Sql
