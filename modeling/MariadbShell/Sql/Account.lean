import MariadbShell.Sql.SqlString

/-!
# Account names

`make_account` quotes a user and a host name for statements such as `GRANT`, and
`split_account` reads account names in any notation that the server has for them. What
the first one writes is read back by the second one.
-/

namespace MariadbShell.Sql

open List
open ImportTable (Bytes ascii)
open Lib.Search SqlString Chr

/-! ## String literals -/

inductive AccountError where
  | literalCharacter
  | literalSyntax
  | hostSymbol
  | hostQuotes
  | emptyUser
  | invalidUser (user : Bytes)
  | syntaxError (account : Bytes)
  | lex (error : LexError)
deriving DecidableEq, Repr

def AccountError.message : AccountError → Bytes
  | .literalCharacter => ascii "Invalid character in string literal".toList
  | .literalSyntax => ascii "Invalid syntax in string literal".toList
  | .hostSymbol => ascii "Malformed hostname (illegal symbol: '@')".toList
  | .hostQuotes =>
    ascii ("Malformed hostname. Cannot use \"'\" or '\"' " ++
      "characters on the hostname without quotes").toList
  | .emptyUser => ascii "User name must not be empty.".toList
  | .invalidUser user => ascii "Invalid user name: ".toList ++ user
  | .syntaxError account =>
    ascii "Invalid syntax in account name '".toList ++ account ++ [quote]
  | .lex error => error.message

/-- The values of `esc`: nothing is pending, a backslash, or a quote. -/
inductive Escape where
  | none
  | backslash
  | quote
deriving DecidableEq, Repr

/-- The character that stands behind a backslash for another one. -/
def unescape (chr : UInt8) : UInt8 :=
  if chr = 110 then newline
  else if chr = 116 then tab
  else if chr = 98 then 8
  else if chr = 114 then carriageReturn
  else if chr = 48 then nul
  else if chr = 90 then controlZ
  else chr

/-- The loop over a quoted literal: its value and the text behind it. -/
def literalLoop (quote : UInt8) : Escape → Bytes → Except AccountError (Bytes × Bytes)
  | esc, [] => if esc = .quote then .ok ([], []) else .error .literalSyntax
  | esc, chr :: text =>
    let push (value : UInt8) : Except AccountError (Bytes × Bytes) :=
      (literalLoop quote .none text).map fun (out, rest) => (value :: out, rest)
    if esc = .quote ∧ chr ≠ quote then .ok ([], chr :: text)
    else if chr = quote then
      if esc = .none then literalLoop quote .quote text else push chr
    else if chr = backslash then
      if esc = .backslash then push chr else literalLoop quote .backslash text
    else push (if esc = .backslash then unescape chr else chr)

def isLiteralChar (chr : UInt8) : Bool :=
  isAlnum chr ∨ chr = underscore ∨ chr = dollar ∨ chr = dot ∨ chr = percent

/-- `span_quotable_string_literal`: the value and the text behind the literal. -/
def spanQuotableStringLiteral (allowNumberAtBeginning : Bool) (text : Bytes) :
    Except AccountError (Bytes × Bytes) :=
  match text with
  | [] => .ok ([], [])
  | chr :: tail =>
    if chr = quote ∨ chr = doubleQuote then literalLoop chr .none tail
    else if ¬ isAlpha chr ∧ ¬ (allowNumberAtBeginning ∧ isDigit chr) ∧ chr ≠ underscore ∧
        chr ≠ dollar ∧ chr ≠ percent then
      .error .literalCharacter
    else .ok (text.takeWhile isLiteralChar, text.dropWhile isLiteralChar)

/-! ## Splitting -/

inductive AutoQuote where
  | no
  | host
  | userAndHost
deriving DecidableEq, Repr

structure Account where
  user : Bytes
  host : Bytes
deriving DecidableEq, Repr

/--
`span_account_hostname_relaxed` for the host that starts at `position`: the host and the
offset that is returned, which is one in the quoted text if quotes were added.
-/
def spanAccountHostnameRelaxed (autoQuoteHosts : Bool) (account : Bytes) (position : Nat) :
    Except AccountError (Bytes × Nat) :=
  let text := account.drop position
  let reached (out rest : Bytes) : Bytes × Nat := (out, account.length - rest.length)
  match text with
  | [] => .ok ([], position)
  | chr :: _ =>
    if atSign ∈ text then .error .hostSymbol
    else if chr = backtick then
      match spanQuotableSqlIdentifier false text with
      | .error error => .error (.lex error)
      | .ok (out, rest) => .ok (reached out rest)
    else
      let isQuoted := account.getLast? = some chr ∧ (chr = quote ∨ chr = doubleQuote)
      if ¬ isQuoted ∧ (quote ∈ text ∨ doubleQuote ∈ text) then .error .hostQuotes
      else
        let quoted := account.take position ++ quote :: escapeBackticks text ++ [quote]
        let requote : Except AccountError (Bytes × Nat) :=
          (spanQuotableStringLiteral true (quoted.drop position)).map fun (out, rest) =>
            (out, quoted.length - rest.length)
        match spanQuotableStringLiteral true text with
        | .ok (out, rest) =>
          if rest ≠ [] ∧ autoQuoteHosts ∧ ¬ isQuoted then requote else .ok (reached out rest)
        | .error _ => if autoQuoteHosts then requote else .ok ([], 0)

variable (autoQuote : AutoQuote)

/-- The user name in front of an account, and the offset behind it. -/
def splitUser (account : Bytes) :
    Except AccountError (Bytes × Option Nat) :=
  let reached (rest : Bytes) : Option Nat := some (account.length - rest.length)
  match account with
  | [] => .error .emptyUser
  | chr :: _ =>
    if chr = backtick then
      match spanQuotableSqlIdentifier false account with
      | .error error => .error (.lex error)
      | .ok (user, rest) => .ok (user, reached rest)
    else if chr = quote ∨ chr = doubleQuote then
      (spanQuotableStringLiteral false account).map fun (user, rest) => (user, reached rest)
    else
      match rfind [atSign] account account.length with
      | none => .ok (account, none)
      | some position =>
        if position = 0 then .error .emptyUser
        else if autoQuote ≠ .userAndHost ∧ atSign ∈ account.take position then
          .error (.invalidUser (account.take position))
        else .ok (account.take position, some position)

def skipGrantsHost : Bytes :=
  ascii "skip-grants host".toList

def splitAccount (account : Bytes) : Except AccountError Account :=
  match splitUser autoQuote account with
  | .error error => .error error
  | .ok (user, none) => .ok ⟨user, []⟩
  | .ok (user, some position) =>
    let parsed : Except AccountError (Bytes × Nat) :=
      if account[position]? ≠ some atSign then .ok ([], position)
      else if account.length ≤ position + 1 then .ok ([], position + 1)
      else if account.drop (position + 1) = skipGrantsHost then
        .ok (skipGrantsHost, account.length)
      else spanAccountHostnameRelaxed (autoQuote ≠ .no) account (position + 1)
    match parsed with
    | .error error => .error error
    | .ok (host, reached) =>
      if reached < account.length then .error (.syntaxError account) else .ok ⟨user, host⟩

def makeAccount (noBackslashEscapes : Bool) (user host : Bytes) : Except SqlStringError Bytes :=
  sqlformat { noBackslashEscapes } (ascii ['?', '@', '?']) [user, host]

/-! ## Reading an account back -/

/-- An account is the quoted user, an at sign and the quoted host. -/
theorem makeAccount_eq (user host : Bytes) :
    makeAccount false user host = .ok (quoteSqlString user ++ atSign :: quoteSqlString host) := by
  have created : create (ascii ['?', '@', '?']) = .ok ⟨[], questionMark :: ascii ['@', '?']⟩ :=
    consumeUntilNextEscape_eq 0 (by decide)
  have first (text : Bytes) : consumeUntilNextEscape ⟨text, ascii ['@', '?']⟩ =
      .ok ⟨text ++ [atSign], [questionMark]⟩ :=
    consumeUntilNextEscape_eq 1 (by decide)
  have second (text : Bytes) : consumeUntilNextEscape ⟨text, []⟩ = .ok ⟨text ++ [], []⟩ :=
    consumeUntilNextEscape_eq 0 (by decide)
  have bound (text value left : Bytes) :
      bind {} ⟨text, questionMark :: left⟩ value =
        consumeUntilNextEscape ⟨text ++ quoteSqlString value, left⟩ := rfl
  rw [makeAccount, sqlformat_eq _ created,
    bindAll_cons _ ((bound [] user (ascii ['@', '?'])).trans (first _)),
    bindAll_cons _ ((bound _ host []).trans (second _))]
  simp [bindAll, str]

/-- The loop over a literal reads an escaped character back. -/
theorem literalLoop_escapeSqlChar (chr : UInt8) (text : Bytes) :
    literalLoop quote .none (escapeSqlChar quote false false chr ++ text) =
      (literalLoop quote .none text).map fun (out, rest) => (chr :: out, rest) := by
  unfold escapeSqlChar
  by_cases isNul : chr = nul
  · subst isNul
    rfl
  by_cases isNewline : chr = newline
  · subst isNewline
    rfl
  by_cases isReturn : chr = carriageReturn
  · subst isReturn
    rfl
  by_cases isBackslash : chr = backslash
  · subst isBackslash
    rfl
  by_cases isQuote : chr = quote
  · subst isQuote
    rfl
  by_cases isControlZ : chr = controlZ
  · subst isControlZ
    rfl
  · simp [isNul, isNewline, isReturn, isBackslash, isQuote, isControlZ, literalLoop]

theorem literalLoop_escapeSqlString (text rest : Bytes) :
    literalLoop quote .none (escapeSqlString quote false false text ++ rest) =
      (literalLoop quote .none rest).map fun (out, behind) => (text ++ out, behind) := by
  induction text with
  | nil =>
    change literalLoop quote .none rest = _
    cases literalLoop quote .none rest <;> rfl
  | cons chr text ih =>
    rw [escapeSqlString, flatMap_cons, append_assoc, literalLoop_escapeSqlChar]
    change (literalLoop _ _ (escapeSqlString quote false false text ++ rest)).map _ = _
    rw [ih]
    cases literalLoop quote .none rest <;> rfl

/-- A quoted string is read back when no quote comes behind it. -/
theorem spanQuotableStringLiteral_quoteSqlString (allowNumber : Bool) (text rest : Bytes)
    (noQuote : rest.head? ≠ some quote) :
    spanQuotableStringLiteral allowNumber (quoteSqlString text ++ rest) = .ok (text, rest) := by
  have closed : literalLoop quote .none (quote :: rest) = .ok ([], rest) := by
    cases rest with
    | nil => rfl
    | cons chr rest =>
      have other : chr ≠ quote := by simpa using noQuote
      simp [literalLoop, other]
  change literalLoop quote .none
    ((escapeSqlString quote false false text ++ [quote]) ++ rest) = _
  rw [append_assoc, literalLoop_escapeSqlString, singleton_append, closed]
  simp [Except.map]

theorem eq_of_atSign_mem_escapeSqlChar {chr : UInt8}
    (member : atSign ∈ escapeSqlChar quote false false chr) : chr = atSign := by
  simp only [escapeSqlChar, Bool.false_eq_true, if_false, and_false] at member
  split_ifs at member
  all_goals
    first
    | exact (mem_singleton.mp member).symm
    | subst_vars
      exact absurd member (by decide)

/-- Escaping brings no at sign into a text. -/
theorem atSign_not_mem_quoteSqlString {text : Bytes} (absent : atSign ∉ text) :
    atSign ∉ quoteSqlString text := by
  intro member
  rw [quoteSqlString, cons_append, mem_cons, mem_append, mem_singleton] at member
  rcases member with same | member | same
  · revert same
    decide
  · obtain ⟨chr, inside, escaped⟩ := mem_flatMap.mp member
    rw [eq_of_atSign_mem_escapeSqlChar escaped] at inside
    exact absent inside
  · revert same
    decide

theorem splitUser_quoteSqlString (user rest : Bytes) :
    splitUser autoQuote (quoteSqlString user ++ atSign :: rest) =
      .ok (user, some (quoteSqlString user).length) := by
  have literal := spanQuotableStringLiteral_quoteSqlString false user (atSign :: rest)
    (by rw [head?_cons]; decide)
  have starts : quoteSqlString user ++ atSign :: rest =
      quote :: (escapeSqlString quote false false user ++ [quote] ++ atSign :: rest) := rfl
  unfold splitUser
  rw [starts]
  simp only
  rw [if_neg (by decide), ← starts, literal]
  simp [Except.map]

theorem spanAccountHostnameRelaxed_quoteSqlString (autoQuoteHosts : Bool) (before : Bytes)
    {host : Bytes} (absent : atSign ∉ host) :
    spanAccountHostnameRelaxed autoQuoteHosts (before ++ quoteSqlString host) before.length =
      .ok (host, (before ++ quoteSqlString host).length) := by
  have literal := spanQuotableStringLiteral_quoteSqlString true host [] (by decide)
  rw [append_nil] at literal
  have starts : quoteSqlString host =
      quote :: (escapeSqlString quote false false host ++ [quote]) := rfl
  have last : (before ++ quoteSqlString host).getLast? = some quote := by
    rw [starts, ← cons_append, ← append_assoc, getLast?_concat]
  unfold spanAccountHostnameRelaxed
  rw [drop_left, last, starts]
  simp only
  rw [← starts, if_neg (atSign_not_mem_quoteSqlString absent), if_neg (by decide),
    if_neg (by simp), literal]
  simp

/--
The account that is made for a user and a host without an at sign is split into exactly these,
whatever quoting is asked for.
-/
theorem split_made_account (user : Bytes) {host : Bytes} (absent : atSign ∉ host) :
    ∃ account, makeAccount false user host = .ok account ∧
      splitAccount autoQuote account = .ok ⟨user, host⟩ := by
  refine ⟨_, makeAccount_eq user host, ?_⟩
  have long : ¬ (quoteSqlString user ++ atSign :: quoteSqlString host).length ≤
      (quoteSqlString user).length + 1 := by
    simp [quoteSqlString]
  have before : quoteSqlString user ++ atSign :: quoteSqlString host =
      (quoteSqlString user ++ [atSign]) ++ quoteSqlString host := by simp
  have hostText : (quoteSqlString user ++ atSign :: quoteSqlString host).drop
      ((quoteSqlString user).length + 1) = quoteSqlString host := by
    simp
  have notSkipped : ¬ quoteSqlString host = skipGrantsHost := by
    intro same
    exact absurd (congrArg List.head? same) (by rw [quoteSqlString]; simp; decide)
  have parsed := spanAccountHostnameRelaxed_quoteSqlString (autoQuote ≠ .no)
    (quoteSqlString user ++ [atSign]) absent
  rw [← before, length_append, length_singleton] at parsed
  unfold splitAccount
  rw [splitUser_quoteSqlString]
  simp only
  rw [if_neg long, hostText, if_neg notSkipped, parsed]
  simp

theorem split_made_account_quotes :
    atSign ∉ ascii "local'\\host".toList ∧
      ∃ account, makeAccount false (ascii "a'@\\ \"`".toList ++ [nul])
        (ascii "local'\\host".toList) = .ok account ∧
          splitAccount .no account =
            .ok ⟨ascii "a'@\\ \"`".toList ++ [nul], ascii "local'\\host".toList⟩ :=
  ⟨by decide, split_made_account .no _ (by decide)⟩

end MariadbShell.Sql
