import MariadbShell.Uri.Encoder

/-!
# The URI parser

`Uri_parser` first cuts the input into chunks by searching for separators, and then reads
each chunk with rules of its own. Chunks are ranges of the input, here with the offset
behind their last character.
-/

namespace MariadbShell.Uri

open ImportTable (Bytes ascii)
open Lib.Decimal
open Lib.Search
open Sql Token Chr

abbrev Range := Nat × Nat

structure Chunks where
  userInfo : Option Range := none
  target : Option Range := none
  path : Option Range := none
  query : Option Range := none
deriving DecidableEq, Repr

variable (input : Bytes)

/-- `get_input_chunk`. -/
def inputChunk (range : Range) : Bytes :=
  (input.drop range.1).take (range.2 - range.1)

/-- `input_contains`, at an index. -/
def inputContains (input what : Bytes) (index : Nat) : Bool :=
  OccursAt what input index

namespace Key

def scheme : Bytes := ascii ['s', 'c', 'h', 'e', 'm', 'e']

def user : Bytes := ascii ['u', 's', 'e', 'r']

def password : Bytes := ascii ['p', 'a', 's', 's', 'w', 'o', 'r', 'd']

def host : Bytes := ascii ['h', 'o', 's', 't']

def socket : Bytes := ascii ['s', 'o', 'c', 'k', 'e', 't']

def pipe : Bytes := ascii ['p', 'i', 'p', 'e']

def schema : Bytes := ascii ['s', 'c', 'h', 'e', 'm', 'a']

def tlsVersion : Bytes := ascii "tls-version".toList

def tlsVersions : Bytes := ascii "tls-versions".toList

def tlsCiphersuites : Bytes := ascii "tls-ciphersuites".toList

def connectionAttributes : Bytes := ascii "connection-attributes".toList

end Key

namespace ConnectionData

def addAttribute (data : ConnectionData) (name value : Bytes) : ConnectionData :=
  { data with attributes := data.attributes ++ [(name, some value)] }

/-- `set`; a name that is not that of a field, in any case, is the name of an attribute. -/
def set (data : ConnectionData) (name value : Bytes) : ConnectionData :=
  if caseEq name Key.scheme then { data with scheme := some value }
  else if caseEq name Key.user then { data with user := some value }
  else if caseEq name Key.password then { data with password := some value }
  else if caseEq name Key.host then { data with host := some value }
  else if caseEq name Key.socket then { data with socket := some value }
  else if caseEq name Key.pipe then { data with pipe := some value }
  else if caseEq name Key.schema then { data with schema := some value }
  else data.addAttribute name value

def setConnectionAttribute (data : ConnectionData) (key value : Bytes) :
    Except UriError ConnectionData :=
  if key = [] then .error .emptyAttribute
  else if key.head? = some underscore then .error .reservedAttribute
  else if data.connectionAttributes.any fun entry => caseEq entry.1 key then
    .error (.duplicateAttribute key)
  else .ok { data with connectionAttributes := data.connectionAttributes ++ [(key, value)] }

/-- One round of `set_connection_attributes`. -/
def setConnectionPair (data : ConnectionData) (pair : Bytes) : Except UriError ConnectionData :=
  if pair = [] then .ok data
  else
    match pair.splitOn equal with
    | [key] => data.setConnectionAttribute key []
    | [key, value] => data.setConnectionAttribute key value
    | _ => .error .attributePairs

def setConnectionAttributes (data : ConnectionData) (pairs : List Bytes) :
    Except UriError ConnectionData :=
  pairs.foldlM setConnectionPair data

/-- `set` of several values, which all other options refuse. -/
def setValues (data : ConnectionData) (name : Bytes) (values : List Bytes) :
    Except UriError ConnectionData :=
  if name = Key.connectionAttributes then data.setConnectionAttributes values
  else if caseEq name Key.tlsVersions then
    .ok (data.addAttribute Key.tlsVersion ([comma].intercalate values))
  else if caseEq name Key.tlsCiphersuites then
    .ok (data.addAttribute Key.tlsCiphersuites ([colon].intercalate values))
  else .error (.oneValue name)

end ConnectionData

/-! ## Scheme, user and chunks -/

/-- `parse_scheme`, of the text in front of the first `:/`. -/
def parseScheme (position : Nat) (data : ConnectionData) :
    Except UriError ConnectionData := do
  let tokens ← process schemeRules input 0 position
  let (scheme, tokens) ← consumeToken .alphanumeric tokens
  if tokens = [] then return { data with scheme := some scheme }
  let (_, tokens) ← consumeToken (.simple plus) tokens
  let (extension, tokens) ← consumeToken .alphanumeric tokens
  if tokens ≠ [] then throw (.oneExtension (inputChunk input (0, position)))
  return { data with scheme := some scheme, schemeExtension := extension }

def parseUserinfoRules : Rules :=
  { simple := [colon],
    complex := [pctEncodedRule, (.unreserved, .sequence unreserved),
      (.subDelims, .sequence subDelimiters)],
    finalGroup := [colon] }

/-- The loop of `parse_userinfo`: the user, and the password behind the first colon. -/
def collectUserinfo : List Token → Bytes → Option Bytes → Bytes × Option Bytes
  | [], user, password => (user, password)
  | token :: rest, user, password =>
    if token.type = .simple colon then collectUserinfo rest user (some (password.getD []))
    else
      match password with
      | some password => collectUserinfo rest user (some (password ++ token.decoded))
      | none => collectUserinfo rest (user ++ token.decoded) none

def parseUserinfo (chunk : Option Range) (data : ConnectionData) :
    Except UriError ConnectionData :=
  match chunk with
  | none => .ok data
  | some range => do
      let tokens ← process parseUserinfoRules input range.1 range.2
      let (user, password) := collectUserinfo tokens [] none
      if user = [] then throw .missingUserName
      match password with
      | some password => return { data with user := some user, password := some password }
      | none => return { data with user := some user }

/-- Where the rest begins behind the scheme; `none` for the path of a local file. -/
def behindScheme (position : Nat) (scheme : Option Bytes) : Option Nat :=
  if position + 3 ≤ input.length then
    if input[position + 2]? = some slash then some (position + 3)
    else if scheme = some fileScheme then none
    else some (position + 2)
  else some 0

/-- The chunk of the user information, and where the rest begins behind it. -/
def splitUserInfo (first : Nat) : Except UriError (Option Range × Nat) :=
  match find [atSign] input first with
  | none => .ok (none, first)
  | some position =>
    -- an `@` behind a slash belongs to the path or to the query
    let beforeSlash : Bool :=
      match find [Chr.slash] input first with
      | none => true
      | some slash => decide (position < slash)
    if beforeSlash then
      if first < position then .ok (some (first, position), position + 1)
      else .error .missingUserInformation
    else .ok (none, first)

/-- The chunk of the path, and where the target ends. -/
def splitPath (kind : Kind) (input : Bytes) (first stop : Nat) : Option Range × Nat :=
  let found :=
    if kind = .generic then find [slash] input first else rfind [slash] input (stop - 1)
  let pathOffset := if kind = .generic then 0 else 1
  match found with
  | none => (none, stop)
  | some position =>
    let hasPath : Bool :=
      if inputContains input [openParenthesis, slash] first ∨
          inputContains input [openParenthesis, dot] first ∨
          inputContains input (openParenthesis :: pipeStart) first then
        match find [closeParenthesis] input first with
        | none => false
        | some closing => decide (closing < position)
      else true
    if first < position ∧ hasPath then
      if position + 1 < stop then (some (position + pathOffset, stop), position)
      else (none, stop - 1)
    else (none, stop)

/-- The chunk of the query, and where what is in front of it ends. -/
def splitQuery (first : Nat) : Option Range × Nat :=
  match find [questionMark] input first with
  | some position =>
    -- in front of the first character, the last offset wraps around
    (some (position, input.length), if position = 0 then 2 ^ 64 else position)
  | none => (none, input.length)

/-- The rest of `preprocess`, from behind the scheme on. -/
def splitRest (kind : Kind) (input : Bytes) (first : Nat) : Except UriError Chunks := do
  let (userInfo, first) ← splitUserInfo input first
  let (query, stop) := splitQuery input first
  let (path, stop) := splitPath kind input first stop
  if first < stop then return { userInfo, target := some (first, stop), path, query }
  else throw .invalidAddress

def preprocess (kind : Kind) (input : Bytes) : Except UriError (ConnectionData × Chunks) :=
  match find [colon, slash] input 0 with
  | none => do return ({}, ← splitRest kind input 0)
  | some 0 => .error .schemeMissing
  | some position => do
      let data ← parseScheme input position {}
      match behindScheme input position data.scheme with
      | none => return (data, { path := some (position + 1, input.length) })
      | some first => return (data, ← splitRest kind input first)

/-! ## Values -/

variable (allowSpaces : Bool)

def parseUnencodedRules : Rules :=
  { complex := [pctEncodedRule, (.unreserved, .sequence (unreserved ++ [backslash])),
      (.delims, .sequence delimiters)],
    allowSpaces }

/-- `parse_unencoded_value`, with the number of characters read. -/
def parseUnencodedValue (input : Bytes) (range : Range) :
    Except UriError (Bytes × Nat) := do
  let tokens ← process (parseUnencodedRules allowSpaces) input range.1 range.2
  return (tokens.flatMap decoded, (tokens.flatMap text).length)

def parseEncodedRules (finalizers forbiddenDelimiters : Bytes) : Rules :=
  { complex := [pctEncodedRule, (.unreserved, .sequence unreserved),
      (.delims, .sequence ((valueDelimiters ++ [colon, comma]).filter
        fun chr => chr ∉ finalizers ++ forbiddenDelimiters))],
    finalGroup := finalizers,
    allowSpaces }

/-- `parse_encoded_value`, with the number of characters read. -/
def parseEncodedValue (input : Bytes) (range : Range)
    (finalizers forbiddenDelimiters : Bytes) : Except UriError (Bytes × Nat) := do
  let tokens ← process (parseEncodedRules allowSpaces finalizers forbiddenDelimiters) input
    range.1 range.2
  let tokens := tokens.takeWhile (·.type ≠ .final)
  return (tokens.flatMap decoded, (tokens.flatMap text).length)

/-- `parse_value`, with the offset behind it: a value in parentheses is not encoded. -/
def parseValue (input : Bytes) (range : Range)
    (finalizers forbiddenDelimiters : Bytes) : Except UriError (Bytes × Nat) :=
  let encoded := do
    let (value, count) ← parseEncodedValue allowSpaces input range finalizers forbiddenDelimiters
    return (value, range.1 + count)
  if input[range.1]? = some openParenthesis then
    match find [closeParenthesis] input range.1 with
    | some closing =>
      if closing < range.2 then do
        let (value, count) ← parseUnencodedValue allowSpaces input (range.1 + 1, closing)
        return (value, range.1 + 1 + count + 1)
      else encoded
    | none => encoded
  else encoded

/-! ## Hosts -/

/-- The loop of `parse_ipv4` over the remaining octets. -/
def parseOctets : Nat → List Token → Nat → Except UriError (Bytes × List Token × Nat)
  | 0, tokens, offset => .ok ([], tokens, offset)
  | remaining + 1, tokens, offset => do
      let (octet, tokens) ← consumeToken .digits tokens
      if 255 < value octet then throw (.octetOutOfBounds octet offset)
      if remaining = 0 then return (octet, tokens, offset + octet.length)
      let (_, tokens) ← consumeToken (.simple dot) tokens
      let (host, tokens, offset) ← parseOctets remaining tokens (offset + octet.length + 1)
      return (octet ++ [dot] ++ host, tokens, offset)

/-- `parse_ipv4`: the address, empty when the tokens are not those of one. -/
def parseIpv4 (tokens : List Token) (offset : Nat) : Except UriError (Bytes × List Token × Nat) :=
  if tokenTypeIs tokens 0 .digits ∧ tokenTypeIs tokens 1 (.simple dot) ∧
      tokenTypeIs tokens 2 .digits ∧ tokenTypeIs tokens 3 (.simple dot) ∧
      tokenTypeIs tokens 4 .digits ∧ tokenTypeIs tokens 5 (.simple dot) ∧
      tokenTypeIs tokens 6 .digits then
    parseOctets 4 tokens offset
  else .ok ([], tokens, offset)

def parseIpv6Rules : Rules :=
  { simple := [colon, dot, 91, 93],
    complex := [(.digits, .sequence digit), (.hexDigits, .sequence hexDigit),
      (.zoneDelimiter, .vector [[percent], [50], [53]]), (.unreserved, .sequence unreserved),
      pctEncodedRule] }

/-- The variables of the loop of `parse_ipv6`. -/
structure Ipv6State where
  host : Bytes := []
  ipv4Found : Bool := false
  ipv4Allowed : Bool := false
  colonAllowed : Bool := false
  doubleColonAllowed : Bool := true
  lastWasColon : Bool := false
  segmentCount : Nat := 0
deriving DecidableEq, Repr

def readSegment : List Token → Except UriError (Bytes × List Token)
  | [] => .error .noTokensLeft
  | token :: rest =>
    if token.type = .hexDigits ∨ token.type = .digits then do
      let (value, rest) ← readSegment rest
      return (token.text ++ value, rest)
    else .ok ([], token :: rest)

/-- The zone, up to the closing bracket. -/
def readZone : List Token → Nat → Except UriError (Bytes × List Token × Nat)
  | [], _ => .error .noTokensLeft
  | token :: rest, offset =>
    if token.type = .simple 93 then .ok ([], token :: rest, offset)
    else if token.type = .simple colon ∨ token.type = .simple 91 then
      .error (.unexpectedData token.text offset)
    else do
      let text :=
        if token.type = .zoneDelimiter ∨ token.type = .pctEncoded then pctdecode token.text
        else token.text
      let (zone, rest, offset) ← readZone rest (offset + token.text.length)
      return (text ++ zone, rest, offset)

/-- The exception for a token that must not stand at its place. -/
def throwUnexpectedData (tokens : List Token) (offset : Nat) :
    Except UriError (Ipv6State × List Token × Nat) :=
  match tokens with
  | [] => .error .noTokensLeft
  | token :: _ => .error (.unexpectedData token.text offset)

variable (state : Ipv6State)

/-- What the loop does while the host is empty. -/
def ipv6Begin (tokens : List Token) (offset : Nat) :
    Except UriError (Ipv6State × List Token × Nat) := do
  if tokenTypeIs tokens 0 (.simple colon) then
    let (_, tokens) ← consumeToken (.simple colon) tokens
    let (_, tokens) ← consumeToken (.simple colon) tokens
    return ({ state with host := [colon, colon], colonAllowed := false,
                         doubleColonAllowed := false, ipv4Allowed := true,
                         lastWasColon := true }, tokens, offset + 2)
  if tokenTypeIs tokens 0 .unreserved ∨ tokenTypeIs tokens 0 .pctEncoded ∨
      tokenTypeIs tokens 0 .zoneDelimiter ∨ tokenTypeIs tokens 0 (.simple 91) ∨
      tokenTypeIs tokens 0 (.simple dot) then
    throwUnexpectedData tokens offset
  else
    let (value, tokens) ← readSegment tokens
    if 4 < value.length then throw (.ipv6Value value)
    return ({ state with host := value, segmentCount := state.segmentCount + 1,
                         colonAllowed := true, doubleColonAllowed := true }, tokens,
      offset + value.length)

/-- The last branch of the loop: a segment behind a colon, a colon behind a segment. -/
def ipv6Alternate (tokens : List Token) (offset : Nat) :
    Except UriError (Ipv6State × List Token × Nat) := do
  let (state, tokens, offset) ←
    if state.lastWasColon then do
      let (value, rest) ← readSegment tokens
      if value = [] then throwUnexpectedData rest offset
      else if 4 < value.length then throw (.ipv6Value value)
      else pure ({ state with host := state.host ++ value,
                              segmentCount := state.segmentCount + 1 }, rest,
        offset + value.length)
    else do
      let (_, rest) ← consumeToken (.simple colon) tokens
      pure ({ state with host := state.host ++ [colon] }, rest, offset + 1)
  let lastWasColon := !state.lastWasColon
  return ({ state with lastWasColon, ipv4Allowed := lastWasColon,
                       colonAllowed := !lastWasColon || state.doubleColonAllowed }, tokens, offset)

/-- What the loop does behind the first part of the host. -/
def ipv6Continue (tokens : List Token) (offset : Nat) :
    Except UriError (Ipv6State × List Token × Nat) := do
  let (ipv4, tokens, offset) ←
    if state.ipv4Allowed then parseIpv4 tokens offset else pure ([], tokens, offset)
  if state.ipv4Allowed ∧ ipv4 ≠ [] then
    return ({ state with host := state.host ++ ipv4, ipv4Found := true }, tokens, offset)
  if tokenTypeIs tokens 0 .unreserved ∨ tokenTypeIs tokens 0 .pctEncoded then
    throwUnexpectedData tokens offset
  else if tokenTypeIs tokens 0 .zoneDelimiter then
    let (zone, tokens, offset) ← readZone tokens offset
    if zone.length ≤ 1 then throw .emptyZone
    return ({ state with host := state.host ++ zone }, tokens, offset)
  else if state.colonAllowed ∧ tokenTypeIs tokens 0 (.simple colon) then
    let (_, tokens) ← consumeToken (.simple colon) tokens
    let doubleColonAllowed := state.doubleColonAllowed && !state.lastWasColon
    return ({ state with host := state.host ++ [colon], doubleColonAllowed,
                         colonAllowed := doubleColonAllowed, ipv4Allowed := true,
                         lastWasColon := true }, tokens, offset + 1)
  else ipv6Alternate state tokens offset

/-- The body of the loop of `parse_ipv6`. -/
def ipv6Round (tokens : List Token) (offset : Nat) :
    Except UriError (Ipv6State × List Token × Nat) :=
  if state.host = [] then ipv6Begin state tokens offset else ipv6Continue state tokens offset

/-- The loop of `parse_ipv6`, up to the closing bracket; each round takes a token. -/
def ipv6Loop : Nat → Ipv6State → List Token → Nat →
    Except UriError (Ipv6State × List Token × Nat)
  | 0, _, _, _ => .error .noTokensLeft
  | rounds + 1, state, tokens, offset =>
    if tokenTypeIs tokens 0 (.simple 93) then .ok (state, tokens, offset)
    else do
      let (state, tokens, offset) ← ipv6Round state tokens offset
      ipv6Loop rounds state tokens offset

/-- Whether the number of segments fits the specification. -/
def Ipv6State.segmentsFit : Bool :=
  let all := if state.ipv4Found then 6 else 8
  if state.doubleColonAllowed then state.segmentCount = all else state.segmentCount < all

/-- `parse_ipv6`: the host, and the offset behind it. -/
def parseIpv6 (range : Range) : Except UriError (Bytes × Nat) := do
  let tokens ← process parseIpv6Rules input range.1 range.2
  let (_, tokens) ← consumeToken (.simple 91) tokens
  let (state, tokens, offset) ← ipv6Loop (tokens.length + 1) {} tokens (range.1 + 1)
  let _ ← consumeToken (.simple 93) tokens
  if state.segmentsFit then return (state.host, offset + 1) else throw .ipv6Segments

def parsePortRules : Rules :=
  { simple := [colon], complex := [(.digits, .sequence digit)] }

def parsePort (range : Range) : Except UriError Nat := do
  let tokens ← process parsePortRules input range.1 range.2
  let (_, tokens) ← consumeToken (.simple colon) tokens
  if tokens = [] then throw .missingPort
  let (port, tokens) ← consumeToken .digits tokens
  if 65535 < value port then throw .portOutOfRange
  if tokens ≠ [] then
    throw (.unexpectedData (inputChunk input (range.1 + 1 + port.length, range.2))
      (range.1 + 1 + port.length))
  return value port

def parseHostRules : Rules :=
  { simple := [dot, colon],
    complex := [pctEncodedRule, (.digits, .sequence digit), (.hexDigits, .sequence hexDigit),
      (.subDelims, .sequence subDelimiters), (.unreserved, .sequence unreserved)] }

/-- The host of `parse_host` that is not an IPv6 address, and the offset behind it. -/
def parseHostName (range : Range) : Except UriError (Bytes × Nat) := do
  let tokens ← process parseHostRules input range.1 range.2
  let (host, tokens, offset) ← parseIpv4 tokens range.1
  if host ≠ [] then return (host, offset)
  let name := tokens.takeWhile (·.type ≠ .simple colon)
  return (name.flatMap decoded, offset + (name.flatMap text).length)

def parseHost (range : Range) (data : ConnectionData) :
    Except UriError ConnectionData := do
  let (host, offset) ←
    if input[range.1]? = some 91 then parseIpv6 input range else parseHostName input range
  let data := { data with host := some host }
  if offset < range.2 then return { data with port := some (← parsePort input (offset, range.2)) }
  else return data

/-! ## Target, path and query -/

/-- The branch of `parse_target` for sockets. -/
def parseSocket (input : Bytes) (range : Range) (data : ConnectionData) :
    Except UriError ConnectionData := do
  let slash : Bool := input[range.1]? = some Chr.slash
  if slash ∧ data.scheme = some fileScheme then
    return { data with host := some localhost }
  let start := if slash then range.1 + 1 else range.1
  let (data, offset) ←
    if data.scheme ≠ some fileScheme then do
      let (value, offset) ← parseValue allowSpaces input (start, range.2) [] []
      let socket := (if slash then [Chr.slash] else []) ++ value
      pure ({ data with socket := some socket }, offset)
    else pure (data, start)
  if offset < range.2 then
    throw (.unexpectedData (inputChunk input (offset, range.2)) offset)
  return data

/-- The branch of `parse_target` for Windows pipes. -/
def parsePipe (input : Bytes) (range : Range) (data : ConnectionData) :
    Except UriError ConnectionData := do
  let unencodedPipe : Bool := input[range.1]? ≠ some backslash
  let start := if unencodedPipe then range.1 else range.1 + 4
  let (value, offset) ← parseValue allowSpaces input (start, range.2) [] [colon]
  let pipe := if unencodedPipe then value.drop 4 else value
  if pipe = [] then throw .emptyPipe
  if offset < range.2 then
    throw (.unexpectedData (inputChunk input (offset, range.2)) offset)
  return { data with pipe := some pipe }

def parseTarget (input : Bytes) (chunk : Option Range)
    (data : ConnectionData) : Except UriError ConnectionData :=
  match chunk with
  | none => .ok data
  | some range =>
    if inputContains input [dot] range.1 ∧ range.1 + 1 = range.2 then
      .ok { data with host := some [dot] }
    else if inputContains input [dot] range.1 ∨ inputContains input [slash] range.1 ∨
        inputContains input [openParenthesis, dot] range.1 ∨
        inputContains input [openParenthesis, slash] range.1 then
      parseSocket allowSpaces input range data
    else if inputContains input pipeStart range.1 ∨
        inputContains input (openParenthesis :: pipeStart) range.1 then
      parsePipe allowSpaces input range data
    else parseHost input range data

def parsePathRules : Rules :=
  { simple := [colon, atSign, slash],
    complex := [pctEncodedRule, (.unreserved, .sequence unreserved),
      (.subDelims, .sequence subDelimiters)] }

def parsePath (kind : Kind) (input : Bytes) (chunk : Option Range) (data : ConnectionData) :
    Except UriError ConnectionData :=
  match chunk with
  | none => .ok data
  | some range =>
    match kind with
    | .ssh => .error .sshPath
    | .devApi => do
        let tokens ← process parsePathRules input range.1 range.2
        let schema := tokens.flatMap decoded
        if schema = [] then return data else return { data with schema := some schema }
    | .file => .ok { data with schema := some (inputChunk input range) }
    | .generic =>
      let chunk := inputChunk input range
      let path := if data.scheme = some fileScheme then chunk else pctdecode chunk
      .ok { data with schema := some path }

def parseAttributeRules : Rules :=
  { complex := [pctEncodedRule, (.unreserved, .sequence unreserved),
      (.subDelims, .sequence attributeDelimiters)],
    finalGroup := [equal, 38] }

def isValueArray (range : Range) : Bool :=
  input[range.1]? = some 91 &&
    match find [93] input range.1 with
    | some closing => closing < range.2
    | none => false

/-- The loop of `parse_values`, up to the closing bracket; each round takes a character. -/
def parseValues (input : Bytes) (closing : Nat) :
    Nat → Nat → Except UriError (List Bytes × Nat)
  | 0, _ => .error .noTokensLeft
  | rounds + 1, offset =>
    if input[offset]? = some 93 then .ok ([], offset + 1)
    else do
      let (value, offset) ← parseValue false input (offset + 1, closing) [comma, 93] []
      let (values, offset) ← parseValues input closing rounds offset
      return (value :: values, offset)

/-- `parse_attribute`, with the offset behind it. -/
def parseAttribute (stop offset : Nat) (data : ConnectionData) :
    Except UriError (ConnectionData × Nat) := do
  let offset := offset + 1
  let tokens ← process parseAttributeRules input offset stop
  let name := (tokens.takeWhile (·.type ≠ .final)).flatMap decoded
  let pause := (tokens.dropWhile (·.type ≠ .final)).head?
  let hasValue : Bool := pause.bind (·.text.head?) = some equal
  let offset := offset + name.length + (if hasValue then 1 else 0)
  if hasValue then
    if isValueArray input (offset, stop) then
      let closing := (find [93] input offset).getD input.length
      let (values, offset) ← parseValues input closing input.length offset
      return (← data.setValues name values, offset)
    else
      let (value, offset) ← parseValue false input (offset, stop) [38] []
      return (data.set name value, offset)
  else return (data.set name [], offset)

/-- The loop of `parse_query`; each round takes a character. -/
def parseQuery (input : Bytes) (stop : Nat) : Nat → Nat → ConnectionData →
    Except UriError ConnectionData
  | 0, _, data => .ok data
  | rounds + 1, offset, data =>
    if offset + 1 < stop then do
      let (data, offset) ← parseAttribute input stop offset data
      parseQuery input stop rounds offset data
    else .ok data

/-- `parse_query`. -/
def parseQueryChunk (chunk : Option Range) (data : ConnectionData) :
    Except UriError ConnectionData :=
  match chunk with
  | none => .ok data
  | some range => parseQuery input range.2 input.length range.1 data

def parse (kind : Kind) (input : Bytes) : Except UriError ConnectionData := do
  if input = [] then throw .noTokensLeft
  let (data, chunks) ← preprocess kind input
  let data ← parseUserinfo input chunks.userInfo data
  -- spaces are refused once the scheme or the user information has been read
  let allowSpaces : Bool := data.scheme = none ∧ chunks.userInfo = none
  let data ← parseTarget allowSpaces input chunks.target data
  let data ← parsePath kind input chunks.path data
  parseQueryChunk input chunks.query data

end MariadbShell.Uri
