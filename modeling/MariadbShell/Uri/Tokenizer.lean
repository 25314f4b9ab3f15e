import MariadbShell.Sql.Spans

/-!
# The tokenizer of the URI code

`BaseTokenizer` cuts a range of a text into tokens by rules that are set for each component of
a URI: characters that are tokens of their own, and complex tokens, which are tried in the
order in which they were set. A complex token is a longest run of characters of a group, or one
character of each of several groups.
-/

namespace MariadbShell.Uri

open ImportTable (Bytes ascii)
open Sql Chr

/-! ## Characters -/

/-- `count` consecutive characters. -/
def characters (first : UInt8) (count : Nat) : Bytes :=
  (List.range count).map fun index => first + index.toUInt8

/-- `:/?#[]@`. -/
def delimiters : Bytes :=
  [colon, slash, questionMark, Chr.hash, 91, 93, atSign]

/-- The characters `!$&'()*+,;=`. -/
def subDelimiters : Bytes :=
  [exclamation, dollar, 38, quote, openParenthesis, closeParenthesis,
    Chr.star, plus, comma, semicolon, equal]

def digit : Bytes := characters 48 10

def hexDigit : Bytes := characters 65 6 ++ characters 97 6 ++ digit

def alphanumeric : Bytes := characters 65 26 ++ characters 97 26 ++ digit

/-- Letters, digits and `-._~`. -/
def unreserved : Bytes := alphanumeric ++ [minus, dot, underscore, 126]

/-- What `pctencode` writes for a character; `k_reserved_chars` holds for all but `unreserved`. -/
def pctencodeChar (chr : UInt8) : Bytes :=
  if chr ∈ unreserved then [chr]
  else [percent, hexChar (chr >>> 4), hexChar (chr &&& 15)]

def pctencode (text : Bytes) : Bytes :=
  text.flatMap pctencodeChar

def pctdecode : Bytes → Bytes
  | [] => []
  | chr :: rest =>
    match rest with
    | high :: low :: others =>
      if chr = percent ∧ high ∈ hexDigit ∧ low ∈ hexDigit then
        (hexValue high <<< 4 ||| hexValue low) :: pctdecode others
      else chr :: pctdecode (high :: low :: others)
    | others => chr :: pctdecode others

/-! ## Tokens -/

inductive TokenType where
  | simple (chr : UInt8)
  | alphanumeric
  | pctEncoded
  | unreserved
  | subDelims
  | delims
  | digits
  | hexDigits
  | zoneDelimiter
  | final
  | unknown
deriving DecidableEq, Repr

structure Token where
  type : TokenType
  text : Bytes
deriving DecidableEq, Repr

/-- A rule for a complex token. -/
inductive Pattern where
  /-- a run of characters of the group -/
  | sequence (group : Bytes)
  /-- a character of each of the groups -/
  | vector (groups : List Bytes)
deriving DecidableEq, Repr

structure Rules where
  simple : Bytes := []
  complex : List (TokenType × Pattern) := []
  /-- `_final_group`: the rest of the text is one token from such a character on -/
  finalGroup : Bytes := []
  allowSpaces : Bool := false
  allowUnknownTokens : Bool := false
deriving DecidableEq, Repr

/-- Exceptions of the tokenizer, the parser and the encoder. -/
inductive UriError where
  | illegalSpace (position : Nat)
  | illegalCharacter (chr : UInt8) (position : Nat)
  | noTokensLeft
  | expectedToken (expected : TokenType) (found : Token)
  | invalidScheme (text : Bytes)
  | oneExtension (text : Bytes)
  | schemeMissing
  | missingUserInformation
  | missingUserName
  | invalidAddress
  | unexpectedData (text : Bytes) (position : Nat)
  | emptyPipe
  | octetOutOfBounds (octet : Bytes) (position : Nat)
  | ipv6Value (value : Bytes)
  | emptyZone
  | ipv6Segments
  | portOutOfRange
  | missingPort
  | unexpectedPortData (text : Bytes)
  | sshPath
  | oneValue (name : Bytes)
  | attributePairs
  | emptyAttribute
  | reservedAttribute
  | duplicateAttribute (name : Bytes)
deriving DecidableEq, Repr

variable {Value Result : Type}

theorem ok_bind (value : Value) (next : Value → Except UriError Result) :
    (Except.ok value >>= next) = next value := rfl

theorem error_bind (error : UriError) (next : Value → Except UriError Result) :
    (Except.error error >>= next) = .error error := rfl

/-- A computation that succeeds does so step by step. -/
theorem bind_ok {first : Except UriError Value} {next : Value → Except UriError Result}
    {result : Result} (done : (first >>= next) = .ok result) :
    ∃ value, first = .ok value ∧ next value = .ok result := by
  cases first with
  | error error => cases done
  | ok value => exact ⟨value, rfl, done⟩

theorem map_ok {first : Except UriError Value} {next : Value → Result}
    {result : Result} (done : next <$> first = .ok result) :
    ∃ value, first = .ok value ∧ next value = result := by
  cases first with
  | error error => cases done
  | ok value => exact ⟨value, rfl, Except.ok.inj done⟩

/-- Whether the text begins with a character of each of the groups. -/
def matchesAll : List Bytes → Bytes → Bool
  | [], _ => true
  | _ :: _, [] => false
  | group :: groups, chr :: rest => chr ∈ group && matchesAll groups rest

/-- How many characters of the text the rule takes, zero when it does not apply. -/
def Pattern.count : Pattern → Bytes → Nat
  | .sequence group, text => (text.takeWhile (· ∈ group)).length
  | .vector groups, text => if matchesAll groups text then groups.length else 0

/-- The first of the rules that applies, with the number of characters that it takes. -/
def readComplex : List (TokenType × Pattern) → Bytes → Option (TokenType × Nat)
  | [], _ => none
  | (type, pattern) :: others, text =>
    if pattern.count text = 0 then readComplex others text else some (type, pattern.count text)

/-- The token of the unknown characters that were met last. -/
def flush (pending : Bytes) : List Token :=
  if pending = [] then [] else [⟨.unknown, pending⟩]

/-- `get_tokens`: `skip` characters belong to the token that was read last, `left` ones are
left of the range. A complex token may go beyond the range. -/
def getTokens (rules : Rules) : Nat → Nat → Nat → Bytes → Bytes → Except UriError (List Token)
  | _, _, _, pending, [] => .ok (flush pending)
  | skip + 1, left, position, pending, _ :: rest =>
    getTokens rules skip (left - 1) (position + 1) pending rest
  | 0, 0, _, pending, _ :: _ => .ok (flush pending)
  | 0, left + 1, position, pending, chr :: rest =>
    if isSpace chr ∧ rules.allowSpaces = false then .error (.illegalSpace position)
    else if chr ∈ rules.simple then
      (flush pending ++ [⟨.simple chr, [chr]⟩] ++ ·) <$>
        getTokens rules 0 left (position + 1) [] rest
    else
      match readComplex rules.complex (chr :: rest) with
      | some (type, count) =>
        let token : Token := ⟨type, (chr :: rest).take count⟩
        if chr ∈ rules.finalGroup then
          .ok (flush pending ++ [token, ⟨.final, (chr :: rest).drop (count - 1)⟩])
        else
          (flush pending ++ [token] ++ ·) <$>
            getTokens rules (count - 1) left (position + 1) [] rest
      | none =>
        if chr ∈ rules.finalGroup then .ok (flush pending ++ [⟨.final, chr :: rest⟩])
        else if rules.allowUnknownTokens then
          getTokens rules 0 left (position + 1) (pending ++ [chr]) rest
        else .error (.illegalCharacter chr position)

/-- `process`, for the characters from `first` up to but not including `stop`. -/
def process (rules : Rules) (input : Bytes) (first stop : Nat) : Except UriError (List Token) :=
  getTokens rules 0 (stop - first) first [] (input.drop first)

def consumeToken (type : TokenType) : List Token → Except UriError (Bytes × List Token)
  | [] => .error .noTokensLeft
  | token :: rest =>
    if token.type = type then .ok (token.text, rest) else .error (.expectedToken type token)

/-- `pos_token_type_is`, counted from the current token. -/
def tokenTypeIs (tokens : List Token) (index : Nat) (type : TokenType) : Bool :=
  tokens[index]?.map Token.type = some type

/-- The rule for a `pct-encoded` token. -/
def pctEncodedRule : TokenType × Pattern :=
  (.pctEncoded, .vector [[percent], hexDigit, hexDigit])

def Token.decoded (token : Token) : Bytes :=
  if token.type = .pctEncoded then pctdecode token.text else token.text

end MariadbShell.Uri
