import MariadbShell.Lib.Decimal
import MariadbShell.Uri.Tokenizer

/-!
# The URI encoder

`Uri_encoder` writes connection data as a URI. Each component is cut into tokens by rules
of its own; characters that no rule takes are percent-encoded, and what looks like a
percent-encoded character already is left as it is.
-/

namespace MariadbShell.Uri

open ImportTable (Bytes ascii)
open Lib.Decimal
open Sql Chr

/-- The kinds of URIs, `Type`. -/
inductive Kind where
  | devApi
  | ssh
  | file
  | generic
deriving DecidableEq, Repr

/-- The parts that a URI is written with, `Tokens_mask`. -/
structure Format where
  scheme : Bool := false
  user : Bool := false
  password : Bool := false
  transport : Bool := false
  path : Bool := false
  query : Bool := false
deriving DecidableEq, Repr

def Format.full : Format :=
  { scheme := true, user := true, password := true, transport := true, path := true,
    query := true }

/-- What a URI is written from and read into. The keys of path and schema are the same. -/
structure ConnectionData where
  scheme : Option Bytes := none
  schemeExtension : Bytes := []
  user : Option Bytes := none
  password : Option Bytes := none
  host : Option Bytes := none
  port : Option Nat := none
  socket : Option Bytes := none
  pipe : Option Bytes := none
  schema : Option Bytes := none
  attributes : List (Bytes × Option Bytes) := []
  connectionAttributes : List (Bytes × Bytes) := []
deriving DecidableEq, Repr

/-! ## Components -/

/-- `Uri_encoder::process`. The tokens of these rules are never refused. -/
def encodeWith (rules : Rules) (data : Bytes) : Bytes :=
  match process rules data 0 data.length with
  | .ok tokens =>
    tokens.flatMap fun token =>
      if token.type = .unknown then pctencode token.text else token.text
  | .error _ => []

def schemeRules : Rules :=
  { simple := [plus], complex := [(.alphanumeric, .sequence alphanumeric)] }

def encodeScheme (data extension : Bytes) : Except UriError Bytes := do
  let tokens ← process schemeRules data 0 data.length
  let (scheme, tokens) ← consumeToken .alphanumeric tokens
  if tokens ≠ [] then throw (.invalidScheme data)
  if extension ≠ [] then return scheme ++ [plus] ++ extension else return scheme

def encodeUserinfoRules : Rules :=
  { complex := [pctEncodedRule, (.unreserved, .sequence unreserved),
      (.subDelims, .sequence subDelimiters)],
    allowSpaces := true, allowUnknownTokens := true }

def encodeUserinfo : Bytes → Bytes :=
  encodeWith encodeUserinfoRules

def encodeHostRules : Rules :=
  { simple := [dot, colon],
    complex := [pctEncodedRule, (.digits, .sequence digit), (.hexDigits, .sequence hexDigit),
      (.subDelims, .sequence subDelimiters), (.unreserved, .sequence unreserved)],
    allowSpaces := true, allowUnknownTokens := true }

variable (inet6 : Bytes → Bool)

/-- `Net::is_ipv6`, for a given test of the protocol family of a numeric address. -/
def isIpv6 (host : Bytes) : Bool :=
  host ≠ [] && host.head? ≠ some 91 && inet6 (host.takeWhile (· ≠ percent))

def encodeHost (data : Bytes) : Bytes :=
  let host := encodeWith encodeHostRules data
  if isIpv6 inet6 data then [91] ++ host ++ [93] else host

def portRules : Rules :=
  { complex := [(.digits, .sequence digit)], allowUnknownTokens := true }

/-- `encode_port`, of the text of a number. -/
def encodePort (data : Bytes) : Except UriError Bytes := do
  let tokens ← process portRules data 0 data.length
  match tokens with
  | [] => throw .noTokensLeft
  | token :: others =>
    if token.type ≠ .digits then throw (.unexpectedPortData token.text)
    let extraData := others.flatMap Token.text
    if extraData ≠ [] then throw (.unexpectedPortData extraData)
    if 65535 < value token.text then throw .portOutOfRange
    return decimal (value token.text)

/-- The delimiters that attribute values keep, `!$'()*+;=`. -/
def valueDelimiters : Bytes :=
  [exclamation, dollar, quote, openParenthesis, closeParenthesis, Chr.star, plus, semicolon, equal]

def encodeValueRules : Rules :=
  { complex := [pctEncodedRule, (.unreserved, .sequence unreserved),
      (.delims, .sequence valueDelimiters)],
    allowSpaces := true, allowUnknownTokens := true }

def encodeValue : Bytes → Bytes :=
  encodeWith encodeValueRules

/-- `encode_socket`: a leading slash stays. -/
def encodeSocket (data : Bytes) : Bytes :=
  let socket := encodeWith encodeValueRules data
  if caseEq (socket.take 3) (ascii ['%', '2', 'F']) then slash :: socket.drop 3 else socket

def encodePathSegmentRules (skipAlreadyEncoded : Bool) : Rules :=
  { simple := [colon, atSign],
    complex := (if skipAlreadyEncoded then [pctEncodedRule] else []) ++
      [(.unreserved, .sequence unreserved), (.subDelims, .sequence subDelimiters)],
    allowSpaces := true, allowUnknownTokens := true }

def encodePathSegment (data : Bytes) (skipAlreadyEncoded : Bool) : Bytes :=
  encodeWith (encodePathSegmentRules skipAlreadyEncoded) data

def pctencodePath (path : Bytes) : Bytes :=
  [slash].intercalate ((path.splitOn slash).map (encodePathSegment · false))

/-- The delimiters that attribute names keep, `!$'()*+,;`. -/
def attributeDelimiters : Bytes :=
  [exclamation, dollar, quote, openParenthesis, closeParenthesis, Chr.star, plus, comma, semicolon]

def encodeAttributeRules : Rules :=
  { complex := [pctEncodedRule, (.unreserved, .sequence unreserved),
      (.subDelims, .sequence attributeDelimiters)],
    allowSpaces := true, allowUnknownTokens := true }

def encodeAttribute : Bytes → Bytes :=
  encodeWith encodeAttributeRules

def encodeQueryAttribute : Bytes × Option Bytes → Bytes
  | (name, none) => encodeAttribute name
  | (name, some value) => encodeAttribute name ++ [equal] ++ encodeValue value

/-! ## The URI -/

def fileScheme : Bytes := ascii ['f', 'i', 'l', 'e']

def localhost : Bytes := ascii ['l', 'o', 'c', 'a', 'l', 'h', 'o', 's', 't']

def pipeStart : Bytes := [backslash, backslash, dot, backslash]

def encodeTransport (data : ConnectionData) : Except UriError Bytes :=
  match data.pipe, data.socket with
  | some pipe, _ => return pipeStart ++ encodeValue pipe
  | none, some socket => return encodeSocket socket
  | none, none => do
      let host := data.host.getD []
      let target :=
        if host ≠ [] then encodeHost inet6 host
        else if data.scheme.getD [] ≠ fileScheme then localhost
        else []
      match data.port with
      | some port => return target ++ [colon] ++ (← encodePort (decimal port))
      | none => return target

def encodeUserData (format : Format) (data : ConnectionData) : Bytes :=
  let userData :=
    match data.user with
    | some user =>
      if format.user then
        encodeUserinfo user ++
          (match data.password with
          | some password =>
            if format.password then [colon] ++ encodeUserinfo password else []
          | none => [])
      else []
    | none => []
  if userData ≠ [] then userData ++ [atSign] else []

def encodePath (kind : Kind) (format : Format) (data : ConnectionData) : Bytes :=
  match data.schema with
  | some schema =>
    if format.path then
      if kind = .devApi then [slash] ++ encodePathSegment schema true
      else pctencodePath schema
    else []
  | none => []

def encodeQuery (format : Format) (data : ConnectionData) : Bytes :=
  if format.query ∧ data.attributes ≠ [] then
    [questionMark] ++ [38].intercalate (data.attributes.map encodeQueryAttribute)
  else []

def encodeUri (kind : Kind) (format : Format) (data : ConnectionData) :
    Except UriError Bytes := do
  let scheme := data.scheme.getD []
  let host := data.host.getD []
  let front ←
    if format.scheme ∧ scheme ≠ [] then encodeScheme scheme data.schemeExtension else pure []
  if kind = .file ∨ kind = .generic ∧ scheme = fileScheme then
    let front := if front ≠ [] then front ++ [colon] else front
    if format.transport then
      return front ++ (if host ≠ [] then [slash, slash] ++ encodeHost inet6 host else []) ++
        data.schema.getD []
    else return front
  else
    let front := if front ≠ [] then front ++ [colon, slash, slash] else front
    let transport ← if format.transport then encodeTransport inet6 data else pure []
    return front ++ encodeUserData format data ++ transport ++ encodePath kind format data ++
      encodeQuery format data

end MariadbShell.Uri
