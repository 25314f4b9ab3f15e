import MariadbShell.Lib.Separated
import MariadbShell.Uri.Hosts
import MariadbShell.Uri.Query

/-!
# Reading back a whole URI

The parts of a URI are told apart by their characters: the separators that `preprocess` looks
for do not occur in the parts in front of them. The connection comes back unless its host, an
empty schema or a value in parentheses is read as something else.
-/

namespace MariadbShell.Uri

open List
open ImportTable (Bytes ascii)
open Lib.Decimal
open Lib.Search
open Lib.Separated
open Sql Attribute Chr

set_option maxRecDepth 2000

/-! ## User information -/

def userGroups : List (TokenType × Bytes) :=
  [(.unreserved, unreserved), (.subDelims, subDelimiters)]

def userRaw : UInt8 → Bool :=
  isRaw [] userGroups

theorem userRaw_eq (chr : UInt8) :
    userRaw chr = decide (isAlnum chr = true ∨ chr ∈ marks ++ subDelimiters) :=
  isRaw_eq _ (fun chr => by simp [userGroups]) chr

theorem userGroups_free : ∀ chr ∈ [atSign, colon, questionMark],
    ∀ group ∈ userGroups, chr ∉ group.2 := by
  simp only [userGroups, forall_mem_cons, mem_unreserved]
  decide

theorem userGroups_plain : ∀ group ∈ userGroups, percent ∉ group.2 ∧ group.1.ofGroup = true := by
  simp only [userGroups, forall_mem_cons, mem_unreserved]
  decide

theorem encodes_user : Encodes encodeUserinfoRules userGroups :=
  .of_raw rfl ⟨rfl, rfl, rfl⟩ userRaw_eq (by decide) (by decide)

theorem readsBack_user : ReadsBack parseUserinfoRules userGroups (fun _ => .pctEncoded) userRaw :=
  .of_groups rfl (by simp) (fun group member => ⟨group, member, List.Subset.refl _⟩)
    (by decide) userRaw_eq (by decide) (by decide) userGroups_plain

def userTokens (text : Bytes) : List Token :=
  codedTokens parseUserinfoRules.simple userGroups (fun _ => .pctEncoded) userRaw 0 text

def passwordText : Option Bytes → Bytes
  | some password => colon :: encoded userRaw password
  | none => []

def passwordTokens : Option Bytes → List Token
  | some password => ⟨.simple colon, [colon]⟩ :: userTokens password
  | none => []

theorem userTokens_type (text : Bytes) : ∀ token ∈ userTokens text,
    token.type ≠ .simple Chr.colon := by
  intro token member colon
  have stands := ((codedTokens_type readsBack_user text token member).2 _ colon).1
  rw [userRaw_eq] at stands
  exact absurd stands (by decide)

/-- Texts without a colon belong to the user in front of the colon and to the password behind. -/
theorem collectUserinfo_text {tokens : List Token}
    (plain : ∀ token ∈ tokens, token.type ≠ .simple colon) (rest : List Token)
    (user : Bytes) (password : Option Bytes) :
    collectUserinfo (tokens ++ rest) user password =
      collectUserinfo rest (if password = none then user ++ tokens.flatMap Token.decoded else user)
        (password.map (· ++ tokens.flatMap Token.decoded)) := by
  induction tokens generalizing user password with
  | nil => simp
  | cons token tokens ih =>
    obtain ⟨other, others⟩ := forall_mem_cons.mp plain
    cases password <;> rw [cons_append, collectUserinfo, if_neg other] <;> simp [ih others]

theorem userTokens_decoded (text : Bytes) : (userTokens text).flatMap Token.decoded = text :=
  codedTokens_decoded readsBack_user text

theorem collectUserinfo_eq (user : Bytes) (password : Option Bytes) :
    collectUserinfo (userTokens user ++ passwordTokens password) [] none = (user, password) := by
  rw [collectUserinfo_text (userTokens_type user), userTokens_decoded, if_pos rfl, nil_append]
  cases password with
  | none => rfl
  | some password =>
    rw [passwordTokens, Option.map_none, collectUserinfo, if_pos rfl, ← append_nil (userTokens _),
      collectUserinfo_text (userTokens_type password), userTokens_decoded]
    rfl

/-- The user and the password are read back. -/
theorem parseUserinfo_eq (front : Bytes) {user : Bytes} (nonempty : user ≠ [])
    (password : Option Bytes) (post : Bytes) {data : ConnectionData}
    (fresh : data.password = none) :
    parseUserinfo (front ++ (encoded userRaw user ++ passwordText password ++ Chr.atSign :: post))
        (some (front.length, front.length + (encoded userRaw user ++ passwordText password).length))
        data =
      .ok { data with user := some user, password } := by
  have atSign := userGroups_free Chr.atSign (by simp)
  have colon := userGroups_free Chr.colon (by simp)
  have tokens : process parseUserinfoRules
      (front ++ (encoded userRaw user ++ passwordText password ++ Chr.atSign :: post)) front.length
      (front.length + (encoded userRaw user ++ passwordText password).length) =
        .ok (userTokens user ++ passwordTokens password) := by
    rw [process_chunk, length_append, Nat.add_comm, append_assoc]
    cases password with
    | none =>
      rw [passwordText, nil_append, length_nil, Nat.zero_add,
        getTokens_encoded_end readsBack_user user (stops_cons atSign post), passwordTokens,
        append_nil]
      rfl
    | some password =>
      rw [passwordText, cons_append, length_cons,
        getTokens_encoded readsBack_user user (stops_cons colon _),
        getTokens_simple (by decide) (by decide),
        getTokens_encoded_end readsBack_user password (stops_cons atSign post)]
      rfl
  rw [parseUserinfo]
  simp only [tokens, ok_bind, collectUserinfo_eq, nonempty, if_false]
  cases password with
  | none =>
    exact congrArg (fun password => Except.ok { data with user := some user, password }) fresh
  | some password => rfl

/-! ## Paths -/

def pathRaw : UInt8 → Bool :=
  isRaw [colon, atSign] userGroups

theorem pathRaw_eq (chr : UInt8) : pathRaw chr =
    decide (isAlnum chr = true ∨ chr ∈ marks ++ colon :: atSign :: subDelimiters) := by
  refine isRaw_eq _ (fun chr => ?_) chr
  simp only [userGroups, flatMap_cons, flatMap_nil, append_nil, mem_append,
    mem_cons, not_mem_nil, or_false]
  grind

theorem encodes_path : Encodes (encodePathSegmentRules true) userGroups :=
  .of_raw rfl ⟨rfl, rfl, rfl⟩ pathRaw_eq (by decide) (by decide)

theorem readsBack_path : ReadsBack parsePathRules userGroups (fun _ => .pctEncoded) pathRaw :=
  .of_groups rfl (by decide) (fun group member => ⟨group, member, List.Subset.refl _⟩)
    (by decide) pathRaw_eq (by decide) (by decide) userGroups_plain

/-- A schema is read back. -/
theorem parsePath_eq (front : Bytes) {schema : Bytes} (nonempty : schema ≠ []) {post : Bytes}
    (ends : ∀ chr ∈ post.head?, chr = questionMark) (data : ConnectionData) :
    parsePath .devApi (front ++ (encoded pathRaw schema ++ post))
        (some (front.length, front.length + (encoded pathRaw schema).length)) data =
      .ok { data with schema := some schema } := by
  have stops : ∀ chr ∈ post.head?, ∀ group ∈ userGroups, chr ∉ group.2 := by
    intro chr head
    rw [ends chr head]
    exact userGroups_free _ (by simp)
  have decoded := codedTokens_decoded readsBack_path schema
  rw [parsePath]
  simp only [process_chunk, getTokens_encoded_end readsBack_path schema stops, ok_bind, decoded,
    nonempty, if_false]
  rfl

/-! ## Schemes -/

/-- A scheme with its extension, which may be empty. -/
structure Scheme where
  name : Bytes
  extension : Bytes
  nonempty : name ≠ []
  nameChars : ∀ chr ∈ name, chr ∈ alphanumeric
  extensionChars : ∀ chr ∈ extension, chr ∈ alphanumeric

def Scheme.text (scheme : Scheme) : Bytes :=
  scheme.name ++ if scheme.extension = [] then [] else plus :: scheme.extension

variable {chr : UInt8}

theorem Scheme.mem_text (scheme : Scheme) (member : chr ∈ scheme.text) :
    chr ∈ plus :: alphanumeric := by
  rw [Scheme.text, mem_append] at member
  obtain inside | behind := member
  · exact .tail _ (scheme.nameChars chr inside)
  · split at behind
    · cases behind
    · obtain rfl | inside := mem_cons.mp behind
      · exact .head _
      · exact .tail _ (scheme.extensionChars chr inside)

/-- The token of letters and digits. -/
theorem getTokens_alphanumeric {run post : Bytes} (nonempty : run ≠ [])
    (inside : ∀ chr ∈ run, chr ∈ alphanumeric) (stops : ∀ chr ∈ post.head?, chr ∉ alphanumeric)
    (left position : Nat) :
    getTokens schemeRules 0 (left + run.length) position [] (run ++ post) =
      (⟨.alphanumeric, run⟩ :: ·) <$>
        getTokens schemeRules 0 left (position + run.length) [] post := by
  refine getTokens_run (fun chr rest member => ?_) (fun chr member => ?_) nonempty inside stops left
    position
  · rw [schemeRules, readComplex_sequence, if_pos member]
  · have alnum := mem_alphanumeric.mp member
    refine ⟨?_, isSpace_of_isAlnum _ alnum, nofun⟩
    rw [schemeRules, mem_singleton]
    rintro rfl
    exact absurd alnum (by decide)

/-- The scheme is written. -/
theorem encodeScheme_eq (scheme : Scheme) :
    encodeScheme scheme.name scheme.extension = .ok scheme.text := by
  have tokens := getTokens_alphanumeric scheme.nonempty scheme.nameChars
    (by simp : ∀ chr ∈ ([] : Bytes).head?, chr ∉ alphanumeric) 0 0
  rw [Nat.zero_add, append_nil] at tokens
  have tokens : process schemeRules scheme.name 0 scheme.name.length =
      .ok [⟨.alphanumeric, scheme.name⟩] := tokens
  rw [encodeScheme, tokens, Scheme.text]
  by_cases empty : scheme.extension = []
  · simp [empty]
    rfl
  · simp [empty]
    rfl

/-- The scheme is read back. -/
theorem parseScheme_eq (scheme : Scheme) (rest : Bytes) (data : ConnectionData)
    (fresh : data.schemeExtension = []) :
    parseScheme (scheme.text ++ Chr.colon :: rest) scheme.text.length data =
      .ok { data with scheme := some scheme.name, schemeExtension := scheme.extension } := by
  have colon : Chr.colon ∉ alphanumeric := by decide
  have plus : Chr.plus ∉ alphanumeric := by decide
  rw [parseScheme, process, drop_zero, Nat.sub_zero, Scheme.text]
  by_cases empty : scheme.extension = []
  · have tokens := getTokens_alphanumeric scheme.nonempty scheme.nameChars
      (stops_cons colon rest) 0 0
    rw [Nat.zero_add, getTokens_end] at tokens
    rw [if_pos empty, append_nil, tokens]
    simp only [Functor.map, Except.map, ok_bind, consumeToken, if_true, empty]
    exact congrArg (fun schemeExtension =>
      Except.ok { data with scheme := some scheme.name, schemeExtension }) fresh
  · have tokens := getTokens_alphanumeric empty scheme.extensionChars (stops_cons colon rest) 0
      (scheme.name.length + 1)
    rw [Nat.zero_add, getTokens_end] at tokens
    have size : (scheme.name ++ Chr.plus :: scheme.extension).length =
        scheme.extension.length + 1 + scheme.name.length := by
      simp
      omega
    rw [if_neg empty, size, append_assoc, cons_append,
      getTokens_alphanumeric scheme.nonempty scheme.nameChars (stops_cons plus _),
      getTokens_simple (by decide) (by decide), Nat.zero_add, tokens]
    rfl

/-! ## Chunks -/

theorem splitUserInfo_eq (front : Bytes) {userInfo : Bytes} (nonempty : userInfo ≠ [])
    (noAtSign : atSign ∉ userInfo) (noSlash : Chr.slash ∉ userInfo) (rest : Bytes) :
    splitUserInfo (front ++ (userInfo ++ atSign :: rest)) front.length =
      .ok (some (front.length, front.length + userInfo.length),
        front.length + userInfo.length + 1) := by
  have filled := length_pos_of_ne_nil nonempty
  rw [splitUserInfo, find_symbol noAtSign front rest]
  simp only
  rw [if_pos, if_pos (by omega)]
  split
  · rfl
  · next slash found =>
    obtain ⟨above, occurs, -⟩ := find_some found
    refine decide_eq_true ?_
    by_contra inside
    have absent : Chr.slash ∉ userInfo ++ [atSign] := by
      rw [mem_append, mem_singleton, not_or]
      exact ⟨noSlash, by decide⟩
    rw [append_cons userInfo] at occurs
    exact not_occursAt_of_not_mem absent above rest (by simp; omega) occurs

def pathText : Option Bytes → Bytes
  | some schema => slash :: encoded pathRaw schema
  | none => []

def pathRange (start : Nat) : Option Bytes → Option Range
  | some schema =>
    if schema = [] then none else some (start + 1, start + 1 + (encoded pathRaw schema).length)
  | none => none

theorem slash_not_mem_path (schema : Bytes) : slash ∉ encoded pathRaw schema :=
  not_mem_encoded schema ((pathRaw_eq _).trans (by decide)) (by decide)

theorem splitPath_eq (front : Bytes) (host : Host) (port : Option Nat)
    (noSlash : slash ∉ host.written ++ portText port) (schema : Option Bytes)
    (rest : Bytes) :
    splitPath .devApi (front ++ (host.written ++ portText port ++ (pathText schema ++ rest)))
        front.length
        (front.length + (host.written ++ portText port).length + (pathText schema).length) =
      (pathRange (front.length + (host.written ++ portText port).length) schema,
        front.length + (host.written ++ portText port).length) := by
  have noMarker {chr : UInt8} (marker : chr ∈ [dot, slash, openParenthesis,
      backslash]) (chars : Bytes) :
      inputContains (front ++ (host.written ++ portText port ++ (pathText schema ++ rest)))
        (chr :: chars) front.length = false := by
    rw [append_assoc]
    exact host.inputContains_eq_false front _ marker chars
  have filled : 0 < (host.written ++ portText port).length := by
    obtain ⟨first, others, same, -⟩ := host.written_first
    simp [same]
  generalize host.written ++ portText port = target at *
  unfold splitPath
  simp only [reduceCtorEq, if_false, noMarker (mem_cons_of_mem _ (mem_cons_of_mem _
    mem_cons_self)), Bool.false_eq_true, or_self, and_true]
  cases schema with
  | none =>
    rw [pathText, length_nil, Nat.add_zero, nil_append, pathRange]
    split
    · rfl
    · next position found =>
      obtain ⟨below, occurs, -⟩ := rfind_some (by simp) found
      rw [if_neg]
      intro inside
      exact not_occursAt_of_not_mem noSlash (by omega) rest (by omega) occurs
  | some schema =>
    have last := rfind_symbol (slash_not_mem_path schema) (front ++ target) rest
    have stop : front.length + target.length + (pathText (some schema)).length - 1 =
        (front ++ target).length + (encoded pathRaw schema).length := by
      simp [pathText]
    rw [append_assoc] at last
    rw [stop, pathText, cons_append, last, length_append]
    simp only
    rw [if_pos (by omega), pathRange]
    by_cases empty : schema = []
    · simp [empty]
    · have more : 0 < (encoded pathRaw schema).length :=
        length_pos_of_ne_nil (mt encoded_eq_nil.mp empty)
      rw [if_pos (by simp; omega), if_neg empty, length_cons]
      congr 3
      omega

/-! ## Connections -/

/-- Connection data with a user, a host and attributes that have values; no text holds what
looks like a percent-encoded character. -/
structure Connection where
  scheme : Option Scheme
  user : Bytes
  password : Option Bytes
  host : Host
  port : Option Nat
  schema : Option Bytes
  attributes : List Attribute
  userNonempty : user ≠ []
  portFits : ∀ number ∈ port, number ≤ 65535
  unescaped : ∀ text ∈ [user, host.text] ++ password.toList ++ schema.toList ++
    attributes.map Attribute.value, containsPctCode text = false

namespace Connection

def data (connection : Connection) : ConnectionData where
  scheme := connection.scheme.map Scheme.name
  schemeExtension := (connection.scheme.map Scheme.extension).getD []
  user := some connection.user
  password := connection.password
  host := some connection.host.text
  port := connection.port
  schema := connection.schema
  attributes := connection.attributes.map Attribute.pair

def Readable (connection : Connection) : Prop :=
  connection.host.Readable ∧ connection.schema ≠ some [] ∧ ValuesReadable connection.attributes

end Connection

def schemeText : Option Scheme → Bytes
  | some scheme => scheme.text ++ [colon, slash, slash]
  | none => []

def queryText : List Attribute → Bytes
  | [] => []
  | entry :: others => questionMark :: (entry.text ++ moreAttributes others)

namespace Connection

variable (connection : Connection)

def userInfo : Bytes :=
  encoded userRaw connection.user ++ passwordText connection.password

def target : Bytes :=
  connection.host.written ++ portText connection.port

/-- What stands behind the target. -/
def behind : Bytes :=
  pathText connection.schema ++ queryText connection.attributes

def uri : Bytes :=
  schemeText connection.scheme ++
    (connection.userInfo ++ atSign :: (connection.target ++ connection.behind))

end Connection

theorem encodeQueryAttribute_eq (entry : Attribute) (free : containsPctCode entry.value = false) :
    encodeQueryAttribute entry.pair = entry.text := by
  have plain : percent ∉ entry.name := by
    intro member
    exact absurd (entry.plain _ member) (by decide)
  have noCode : containsPctCode entry.name = false := by
    rw [← append_nil entry.name, containsPctCode_append plain]
    rfl
  have name : encodeAttribute entry.name = entry.name := by
    rw [encodeAttribute, encodeWith_eq encodes_attribute noCode]
    exact encoded_of_raw fun chr member => attributeRaw_of_unreserved (entry.plain chr member)
  rw [pair, encodeQueryAttribute, name, encodeValue, encodeWith_eq encodes_value free,
    text, append_assoc]
  rfl

theorem intercalate_texts (entry : Attribute) (others : List Attribute) :
    [38].intercalate ((entry :: others).map text) = entry.text ++ moreAttributes others := by
  induction others generalizing entry with
  | nil => simp [moreAttributes, List.intercalate]
  | cons next others ih =>
    have rest := ih next
    simp only [List.intercalate, map_cons, intersperse_cons_cons, flatten_cons]
      at rest ⊢
    rw [rest]
    simp [moreAttributes]

theorem encodePort_eq {port : Nat} (small : port ≤ 65535) :
    encodePort (decimal port) = .ok (decimal port) := by
  have tokens := @getTokens_run portRules .digits digit
    (fun _ rest member => readComplex_digits [] member rest) (by decide) (decimal port) []
    (decimal_ne_nil port) (fun chr member => mem_digit.mpr (isDigit_of_mem_decimal member))
    (by simp) 0 0
  rw [Nat.zero_add, append_nil] at tokens
  have tokens : process portRules (decimal port) 0 (decimal port).length =
      .ok [⟨.digits, decimal port⟩] := tokens
  have fits : ¬ 65535 < port := by omega
  rw [encodePort, tokens]
  simp [ok_bind, value_decimal, fits]
  rfl

theorem encodeTransport_eq {inet6 : Bytes → Bool} (test : FamilyTest inet6)
    (connection : Connection) :
    encodeTransport inet6 connection.data = .ok connection.target := by
  have nonempty : connection.host.text ≠ [] := by
    cases connection.host with
    | name text valid => exact valid.nonempty
    | ipv6 host => simp [Host.text, Ipv6Host.text, host.address.text_ne_nil]
  have host := encodeHost_eq test connection.host (connection.unescaped _ (by simp))
  rw [encodeTransport, Connection.data]
  simp only [Option.getD_some, nonempty, ne_eq, not_false_eq_true, if_true, host]
  cases port : connection.port with
  | none =>
    rw [Connection.target, port, portText, append_nil]
    rfl
  | some number =>
    rw [Connection.target, port, portText]
    simp [encodePort_eq (connection.portFits number port)]

variable (connection : Connection)

theorem Connection.encoded_user_ne_nil : encoded userRaw connection.user ≠ [] :=
  mt encoded_eq_nil.mp connection.userNonempty

theorem encodeUserData_eq :
    encodeUserData .full connection.data = connection.userInfo ++ [atSign] := by
  have user : encodeUserinfo connection.user = encoded userRaw connection.user :=
    encodeWith_eq encodes_user (connection.unescaped _ (by simp))
  rw [encodeUserData, Connection.data, Connection.userInfo]
  simp only [Format.full, if_true, user]
  cases secret : connection.password with
  | none => simp [passwordText, connection.encoded_user_ne_nil]
  | some password =>
    have written : encodeUserinfo password = encoded userRaw password :=
      encodeWith_eq encodes_user (connection.unescaped _ (by simp [secret]))
    simp [passwordText, written]

theorem encodePath_eq : encodePath .devApi .full connection.data = pathText connection.schema := by
  rw [encodePath, Connection.data]
  cases given : connection.schema with
  | none => rfl
  | some schema =>
    have written : encodePathSegment schema true = encoded pathRaw schema :=
      encodeWith_eq encodes_path (connection.unescaped _ (by simp [given]))
    simp [Format.full, written, pathText]

theorem encodeQuery_eq : encodeQuery .full connection.data = queryText connection.attributes := by
  have texts : (connection.attributes.map Attribute.pair).map encodeQueryAttribute =
      connection.attributes.map Attribute.text := by
    rw [map_map]
    refine map_congr_left fun entry member => ?_
    exact encodeQueryAttribute_eq entry (connection.unescaped _ (by
      simp only [mem_append]
      exact .inr (mem_map_of_mem member)))
  rw [encodeQuery, Connection.data]
  simp only [texts]
  cases given : connection.attributes with
  | nil => rfl
  | cons entry others =>
    rw [intercalate_texts]
    simp [Format.full, queryText]

/-- The encoder writes the URI. -/
theorem encodeUri_eq {inet6 : Bytes → Bool} (test : FamilyTest inet6) (connection : Connection) :
    encodeUri inet6 .devApi .full connection.data = .ok connection.uri := by
  have transport := encodeTransport_eq test connection
  rw [encodeUri, encodeUserData_eq, encodePath_eq, encodeQuery_eq, Connection.uri,
    Connection.behind]
  cases given : connection.scheme with
  | none =>
    have scheme : connection.data.scheme = none := by simp [Connection.data, given]
    simp [scheme, Format.full, transport, schemeText]
  | some scheme' =>
    have scheme : connection.data.scheme = some scheme'.name := by
      simp [Connection.data, given]
    have extension : connection.data.schemeExtension = scheme'.extension := by
      simp [Connection.data, given]
    have filled : scheme'.text ≠ [] := by simp [Scheme.text, scheme'.nonempty]
    simp [scheme, extension, Format.full, transport, schemeText, scheme'.nonempty,
      encodeScheme_eq, ok_bind, filled]

/-! ## Characters of the parts -/

theorem separators_not_userRaw : ∀ chr ∈ [atSign, slash], userRaw chr = false ∧
    chr ≠ percent ∧ chr ∉ hexDigit ∧ chr ≠ colon := by
  simp only [userRaw_eq, mem_hexDigit]
  decide

theorem Connection.userInfo_free
    (separator : chr ∈ [atSign, slash]) : chr ∉ connection.userInfo := by
  obtain ⟨reserved, plain, hex, colon⟩ := separators_not_userRaw chr separator
  rw [Connection.userInfo, mem_append, not_or]
  refine ⟨not_mem_encoded _ reserved ⟨plain, hex⟩, ?_⟩
  cases connection.password with
  | none => simp [passwordText]
  | some password =>
    rw [passwordText, mem_cons, not_or]
    exact ⟨colon, not_mem_encoded _ reserved ⟨plain, hex⟩⟩

theorem separators_not_hostRaw : ∀ chr ∈ [slash, questionMark], hostRaw chr = false ∧
    chr ≠ percent ∧ chr ∉ hexDigit ∧ chr ≠ colon ∧ chr ≠ 91 ∧ chr ≠ 93 := by
  simp only [hostRaw_eq, mem_hexDigit]
  decide

theorem Connection.target_free
    (separator : chr ∈ [slash, questionMark]) : chr ∉ connection.target := by
  obtain ⟨reserved, plain, hex, colon, opening, closing⟩ := separators_not_hostRaw chr separator
  have coded (text : Bytes) := not_mem_encoded text reserved ⟨plain, hex⟩
  rw [Connection.target, mem_append, not_or]
  constructor
  · cases connection.host with
    | name text valid => exact coded text
    | ipv6 host =>
      simp [Host.written, bracketed, coded, opening, closing]
  · cases connection.port with
    | none => simp [portText]
    | some port =>
      rw [portText, mem_cons, not_or]
      refine ⟨colon, fun member => hex ?_⟩
      exact mem_append_right _ (mem_digit.mpr (isDigit_of_mem_decimal member))

theorem questionMark_not_mem_path (schema : Option Bytes) : questionMark ∉ pathText schema := by
  cases schema with
  | none => simp [pathText]
  | some schema =>
    rw [pathText, mem_cons, not_or]
    exact ⟨by decide, not_mem_encoded schema ((pathRaw_eq _).trans (by decide)) (by decide)⟩

theorem Attribute.slash_not_mem (entry : Attribute) : slash ∉ entry.text := by
  rw [text, mem_append, mem_cons, not_or, not_or]
  refine ⟨fun member => ?_, by decide, ?_⟩
  · exact absurd (mem_unreserved.mp (entry.plain _ member)) (by decide)
  · exact not_mem_encoded entry.value ((valueRaw_eq _).trans (by decide)) (by decide)

theorem slash_not_mem_query (attributes : List Attribute) : slash ∉ queryText attributes := by
  cases attributes with
  | nil => simp [queryText]
  | cons entry others =>
    have other : slash ≠ questionMark ∧ slash ≠ 38 := by decide
    simp [queryText, moreAttributes, other, slash_not_mem]

/-- No colon stands in front of the slash of the path. -/
theorem Connection.target_last : connection.target.getLast? ≠ some colon := by
  intro last
  rw [Connection.target] at last
  cases given : connection.port with
  | some port =>
    rw [given, portText, append_cons, getLast?_append_of_ne_nil _ (decimal_ne_nil port)] at last
    exact absurd (isDigit_of_mem_decimal (mem_of_getLast? last)) (by decide)
  | none =>
    rw [given, portText, append_nil] at last
    cases host : connection.host with
    | ipv6 host' =>
      rw [host, Host.written, bracketed, getLast?_concat] at last
      cases last
    | name text valid =>
      rw [host, Host.written] at last
      obtain ⟨-, inside⟩ | percent | hex := mem_encoded (mem_of_getLast? last)
      · exact valid.noColon inside
      · cases percent
      · exact absurd hex (by decide)

/-! ## Reading the URI -/

/-- Without a scheme there is no `:/`. -/
theorem find_scheme_none {before after : Bytes} (noSlash : Chr.slash ∉ before)
    (noSlash' : Chr.slash ∉ after) (last : before.getLast? ≠ some Chr.colon)
    (schema : Option Bytes) :
    find [Chr.colon, Chr.slash] (before ++ (pathText schema ++ after)) 0 = none := by
  refine find_eq_none fun offset _ occurs => ?_
  obtain ⟨colon, slash⟩ := occursAt_pair.mp occurs
  have beyond : before.length ≤ offset + 1 := by
    by_contra inside
    rw [getElem?_append_left (by omega)] at slash
    exact noSlash (mem_of_getElem? slash)
  rw [getElem?_append_right beyond] at slash
  have start : offset + 1 = before.length := by
    cases schema with
    | none => exact absurd (mem_of_getElem? slash) noSlash'
    | some schema =>
      by_contra later
      obtain ⟨index, shift⟩ : ∃ index, offset + 1 - before.length = index + 1 :=
        ⟨offset - before.length, by omega⟩
      rw [shift, pathText, cons_append, getElem?_cons_succ] at slash
      obtain inside | inside := mem_append.mp (mem_of_getElem? slash)
      · exact slash_not_mem_path schema inside
      · exact noSlash' inside
  rw [getElem?_append_left (by omega)] at colon
  rw [getLast?_eq_getElem?, ← start] at last
  exact last colon

def queryRange (start : Nat) (attributes : List Attribute) : Option Range :=
  if attributes = [] then none else some (start, start + (queryText attributes).length)

/-- The chunks of the URI, when the user information begins at the offset. -/
def Connection.chunks (start : Nat) : Chunks :=
  let first := start + connection.userInfo.length + 1
  let stop := first + connection.target.length
  { userInfo := some (start, start + connection.userInfo.length),
    target := some (first, stop),
    path := pathRange stop connection.schema,
    query := queryRange (stop + (pathText connection.schema).length) connection.attributes }

theorem Connection.target_pos : 0 < connection.target.length := by
  obtain ⟨first, others, same, -⟩ := connection.host.written_first
  simp [Connection.target, same]

/-- The query is what follows the first question mark behind the user information. -/
theorem splitQuery_eq (front : Bytes) :
    splitQuery (front ++ (connection.target ++ connection.behind)) front.length =
      (queryRange (front.length + connection.target.length + (pathText connection.schema).length)
          connection.attributes,
        front.length + connection.target.length + (pathText connection.schema).length) := by
  have absent : questionMark ∉ connection.target ++ pathText connection.schema := by
    rw [mem_append, not_or]
    exact ⟨connection.target_free (by simp), questionMark_not_mem_path _⟩
  have longer := connection.target_pos
  rw [Connection.behind, ← append_assoc connection.target, splitQuery]
  cases connection.attributes with
  | nil =>
    rw [queryText, append_nil, find_symbol_none absent front, queryRange, if_pos rfl]
    simp [Nat.add_assoc]
  | cons entry others =>
    rw [queryText, find_symbol absent front, queryRange, if_neg (by simp)]
    simp only
    rw [if_neg (by rw [length_append]; omega)]
    simp [queryText, Nat.add_assoc]

theorem splitRest_eq (front : Bytes) :
    splitRest .devApi (front ++
        (connection.userInfo ++ atSign :: (connection.target ++ connection.behind))) front.length =
      .ok (connection.chunks front.length) := by
  have user := @splitUserInfo_eq front connection.userInfo
    (append_ne_nil_of_left_ne_nil connection.encoded_user_ne_nil _)
    (connection.userInfo_free (by simp)) (connection.userInfo_free (by simp))
  have path := splitPath_eq (front ++ (connection.userInfo ++ [atSign])) connection.host
    connection.port (connection.target_free (by simp)) connection.schema
    (queryText connection.attributes)
  have query := splitQuery_eq connection (front ++ (connection.userInfo ++ [atSign]))
  rw [← Connection.target, ← Connection.behind] at path
  have whole (rest : Bytes) : front ++ (connection.userInfo ++ [atSign]) ++ rest =
      front ++ (connection.userInfo ++ atSign :: rest) := by
    simp
  have start : (front ++ (connection.userInfo ++ [atSign])).length =
      front.length + connection.userInfo.length + 1 := by
    simp
    omega
  have longer := connection.target_pos
  rw [whole, start] at path query
  rw [splitRest, user, ok_bind]
  simp only [query, path]
  rw [if_pos (by omega)]
  rfl

theorem preprocess_eq :
    preprocess .devApi connection.uri = .ok
      ({ scheme := connection.data.scheme, schemeExtension := connection.data.schemeExtension },
        connection.chunks (schemeText connection.scheme).length) := by
  have rest := splitRest_eq connection (schemeText connection.scheme)
  rw [preprocess, Connection.uri]
  cases given : connection.scheme with
  | none =>
    have noSlash : slash ∉ connection.userInfo ++ atSign :: connection.target := by
      rw [mem_append, mem_cons, not_or, not_or]
      exact ⟨connection.userInfo_free (by simp), by decide, connection.target_free (by simp)⟩
    have last : (connection.userInfo ++ atSign :: connection.target).getLast? ≠
        some colon := by
      rw [append_cons, getLast?_append_of_ne_nil _ (ne_nil_of_length_pos connection.target_pos)]
      exact connection.target_last
    have absent := find_scheme_none noSlash (slash_not_mem_query connection.attributes) last
      connection.schema
    rw [append_assoc, cons_append, ← Connection.behind] at absent
    rw [given, schemeText, nil_append, length_nil] at rest
    rw [schemeText, nil_append, absent]
    simp only [rest, ok_bind, Connection.data, given, length_nil]
    rfl
  | some scheme =>
    have noColon : colon ∉ scheme.text := fun member =>
      absurd (scheme.mem_text member) (by decide)
    obtain ⟨position, size⟩ : ∃ position, scheme.text.length = position + 1 :=
      Nat.exists_eq_succ_of_ne_zero (by simp [Scheme.text, scheme.nonempty])
    rw [given, schemeText] at rest
    rw [schemeText]
    generalize connection.userInfo ++ atSign :: (connection.target ++ connection.behind) = body
      at rest ⊢
    have found := find_of_free (by simp) (free_of_not_mem noColon [slash])
    have read := parseScheme_eq scheme (slash :: slash :: body) {} rfl
    have behind : behindScheme (scheme.text ++ colon :: slash :: slash :: body)
        scheme.text.length (some scheme.name) = some (scheme.text.length + 3) := by
      rw [behindScheme, if_pos (by simp), if_pos (by simp)]
    simp only [append_assoc, cons_append, nil_append, length_append,
      length_cons, length_nil, Nat.zero_add, Nat.reduceAdd] at found read rest ⊢
    rw [size] at found read behind rest ⊢
    simp only [found, read, ok_bind, behind, rest, Connection.data, given]
    rfl

def Connection.parsed : ConnectionData :=
  { connection.data with
    schema := if connection.schema = some [] then none else connection.schema,
    attributes := [] }

theorem pathEnds (attributes : List Attribute) :
    ∀ chr ∈ (queryText attributes).head?, chr = questionMark := by
  cases attributes <;> simp [queryText, eq_comm]

theorem targetEnds (schema : Option Bytes) (attributes : List Attribute) :
    ∀ chr ∈ (pathText schema ++ queryText attributes).head?, hostRaw chr = false := by
  intro chr head
  cases schema with
  | some schema =>
    obtain rfl : slash = chr := by simpa [pathText] using head
    exact (separators_not_hostRaw _ (by simp)).1
  | none =>
    rw [pathEnds attributes chr head]
    exact (separators_not_hostRaw _ (by simp)).1

theorem parsePath_range (front : Bytes) (schema : Option Bytes) {post : Bytes}
    (ends : ∀ chr ∈ post.head?, chr = questionMark) {data : ConnectionData}
    (fresh : data.schema = none) :
    parsePath .devApi (front ++ (pathText schema ++ post)) (pathRange front.length schema) data =
      .ok { data with schema := if schema = some [] then none else schema } := by
  have skipped : parsePath .devApi (front ++ (pathText schema ++ post)) none data =
      .ok { data with schema := none } := by
    rw [parsePath, ← fresh]
  cases schema with
  | none => exact skipped
  | some schema =>
    by_cases empty : schema = []
    · subst empty
      exact skipped
    · have read := parsePath_eq (front ++ [slash]) empty ends data
      rw [append_assoc, length_append, length_singleton] at read
      rw [pathRange, if_neg empty, if_neg (by simpa using empty)]
      exact read

def Connection.front : Bytes :=
  schemeText connection.scheme ++ (connection.userInfo ++ [atSign])

theorem Connection.uri_eq :
    connection.uri = connection.front ++ (connection.target ++ connection.behind) := by
  simp [Connection.uri, Connection.front]

theorem Connection.front_length : connection.front.length =
    (schemeText connection.scheme).length + connection.userInfo.length + 1 := by
  simp [Connection.front]
  omega

def Connection.begun : ConnectionData :=
  { scheme := connection.data.scheme, schemeExtension := connection.data.schemeExtension,
    user := some connection.user, password := connection.password }

def Connection.queryChunk : Option Range :=
  queryRange (connection.front.length + connection.target.length +
    (pathText connection.schema).length) connection.attributes

/-- The user information is read; the target is next. -/
theorem parse_uri : parse .devApi connection.uri =
    (parseTarget false connection.uri
      (some (connection.front.length, connection.front.length + connection.target.length))
      connection.begun >>= fun data =>
    parsePath .devApi connection.uri
      (pathRange (connection.front.length + connection.target.length) connection.schema)
      data >>= fun data =>
    parseQueryChunk connection.uri connection.queryChunk data) := by
  have user := @parseUserinfo_eq (schemeText connection.scheme) connection.user
    connection.userNonempty connection.password (connection.target ++ connection.behind)
  rw [← Connection.userInfo, ← Connection.uri] at user
  have nonempty : connection.uri ≠ [] := by simp [Connection.uri]
  rw [parse, preprocess_eq]
  simp only [nonempty, if_false, ok_bind, Connection.chunks, user, ← connection.front_length]
  simp [Connection.begun, Connection.queryChunk]

/-- A host that is not readable is refused. -/
theorem parse_refused (unreadable : ¬ connection.host.Readable) :
    ∃ error, parse .devApi connection.uri = .error error := by
  obtain ⟨error, failed⟩ := @parseTarget_refused connection.front connection.port
    connection.behind (targetEnds _ _)
    connection.begun connection.host unreadable false
  rw [← Connection.target, ← connection.uri_eq] at failed
  refine ⟨error, ?_⟩
  rw [parse_uri, failed]
  rfl

/-- Otherwise all but the query is read back, with an empty schema lost. -/
theorem parse_readable (readable : connection.host.Readable) :
    parse .devApi connection.uri =
      parseQueryChunk connection.uri connection.queryChunk connection.parsed := by
  have target := @parseTarget_readable connection.front connection.port
    connection.behind (targetEnds _ _)
    connection.begun connection.host readable connection.portFits rfl false
  rw [← Connection.target, ← connection.uri_eq] at target
  have path := @parsePath_range (connection.front ++ connection.target) connection.schema
    (queryText connection.attributes) (pathEnds connection.attributes)
    { connection.begun with host := some connection.host.text, port := connection.port } rfl
  rw [append_assoc, ← Connection.behind, ← connection.uri_eq, length_append] at path
  rw [parse_uri, target, ok_bind, path, ok_bind]
  rfl

theorem parsed_eq_iff :
    { connection.parsed with attributes := connection.attributes.map pair } =
      connection.data ↔ connection.schema ≠ some [] := by
  by_cases empty : connection.schema = some []
  · simp [Connection.parsed, Connection.data, empty]
  · simp [Connection.parsed, Connection.data, empty]

/-- The query comes back when its values are readable. -/
theorem parseQueryChunk_iff :
    parseQueryChunk connection.uri connection.queryChunk connection.parsed = .ok connection.data ↔
      connection.schema ≠ some [] ∧ ValuesReadable connection.attributes := by
  rw [← parsed_eq_iff]
  cases given : connection.attributes with
  | nil => simp [Connection.queryChunk, queryRange, given, parseQueryChunk, ValuesReadable,
      Connection.parsed]
  | cons entry others =>
    have whole : connection.uri = connection.front ++ (connection.target ++
        pathText connection.schema) ++ questionMark :: (entry.text ++ moreAttributes others) := by
      rw [connection.uri_eq, Connection.behind, given, queryText]
      simp
    have chunk : connection.queryChunk = some ((connection.front ++ (connection.target ++
        pathText connection.schema)).length, connection.uri.length) := by
      rw [Connection.queryChunk, queryRange, if_neg (by simp [given]), connection.uri_eq]
      simp [Connection.behind, Nat.add_assoc]
    have rounds : others.length < connection.uri.length := by
      have short := length_le_more others
      rw [whole]
      simp
      omega
    rw [chunk, parseQueryChunk]
    by_cases readable : ValuesReadable (entry :: others)
    · rw [parseQuery_readable whole readable rounds, and_iff_left readable, Except.ok.injEq]
      rfl
    · refine iff_of_false (fun read => ?_) fun both => readable both.2
      refine parseQuery_misread whole readable rounds read ?_
      simp [Connection.data, Connection.parsed, given]

/-- The URI of a connection is read back as the same data exactly when the connection is
readable. -/
theorem parse_encodeUri {inet6 : Bytes → Bool} (test : FamilyTest inet6) (connection : Connection) :
    (encodeUri inet6 .devApi .full connection.data >>= parse .devApi) = .ok connection.data ↔
      connection.Readable := by
  rw [encodeUri_eq test, ok_bind, Connection.Readable]
  by_cases readable : connection.host.Readable
  · rw [parse_readable connection readable, parseQueryChunk_iff, and_iff_right readable]
  · obtain ⟨error, failed⟩ := parse_refused connection readable
    simp [failed, readable]

/-- A test of the protocol family by the colons that only IPv6 addresses have. -/
def hasColon (text : Bytes) : Bool :=
  colon ∈ text

theorem Ipv6Address.colon_mem_text (address : Ipv6Address) : colon ∈ address.text := by
  obtain ⟨front, back, ipv4, fits⟩ := address
  cases back with
  | some back => simp [Ipv6Address.text]
  | none =>
    have long : 2 ≤ front.length := by
      cases ipv4 <;> simp at fits <;> omega
    obtain _ | ⟨first, _ | ⟨second, others⟩⟩ := front
    · simp at long
    · simp at long
    · rw [Ipv6Address.text, lastParts, map_cons, cons_append, colons_cons _ (by simp)]
      simp

theorem familyTest_hasColon : FamilyTest hasColon where
  address := fun address => decide_eq_true address.colon_mem_text
  colon := fun _ => of_decide_eq_true

def plainHost : Host :=
  .name (ascii ['h']) ⟨by decide, by decide, by decide⟩

theorem plainHost_readable : plainHost.Readable := by
  intro octets rest first
  have none : octetsFirst 4 (ascii ['h']) = none := by decide
  cases none.symm.trans first

/-- The user `u` on the host `h`, with a certificate file. -/
def certificateConnection (file : Bytes) (unescaped : containsPctCode file = false) :
    Connection where
  scheme := none
  user := ascii ['u']
  password := none
  host := plainHost
  port := none
  schema := none
  attributes := [{
    name := ascii ['s', 's', 'l', '-', 'c', 'a']
    value := file
    plain := by decide +kernel
    other := by decide +kernel }]
  userNonempty := by decide
  portFits := by simp
  unescaped := by
    simp [unescaped]
    decide

/-- The file name `(a` comes back. -/
theorem parse_encodeUri_certificate :
    (encodeUri hasColon .devApi .full
      (certificateConnection (ascii ['(', 'a']) (by decide)).data >>= parse .devApi) =
        .ok (certificateConnection (ascii ['(', 'a']) (by decide)).data :=
  (parse_encodeUri familyTest_hasColon (certificateConnection (ascii ['(', 'a']) (by decide))).mpr
    ⟨plainHost_readable, by decide, by decide⟩

/-- The parentheses of a file name are lost. -/
theorem parse_encodeUri_parenthesised :
    (encodeUri hasColon .devApi .full
      (certificateConnection (ascii ['(', 'a', ')']) (by decide)).data >>= parse .devApi) =
        .ok (certificateConnection (ascii ['a']) (by decide)).data ∧
      (certificateConnection (ascii ['a']) (by decide)).data ≠
        (certificateConnection (ascii ['(', 'a', ')']) (by decide)).data := by
  decide +kernel

/-- The user and the password are not longer than what is read for them. -/
theorem length_collectUserinfo (tokens : List Token) (user : Bytes) (password : Option Bytes) :
    (collectUserinfo tokens user password).1.length +
        ((collectUserinfo tokens user password).2.getD []).length ≤
      user.length + (password.getD []).length + (tokens.flatMap Token.decoded).length := by
  fun_induction collectUserinfo tokens user password with
  | case1 => simp
  | case2 user password token tokens _ ih =>
    rw [flatMap_cons, length_append]
    rw [Option.getD_some] at ih
    omega
  | case3 user token tokens _ password ih =>
    rw [flatMap_cons, length_append]
    rw [Option.getD_some, length_append] at ih
    rw [Option.getD_some]
    omega
  | case4 user token tokens _ ih =>
    rw [flatMap_cons, length_append]
    rw [length_append] at ih
    omega

/-- What is read as user and password is not longer than the user information is wide. -/
theorem length_parseUserinfo {front userInfo post : Bytes} {data result : ConnectionData}
    (fresh : data.password = none)
    (read : parseUserinfo (front ++ (userInfo ++ atSign :: post))
      (some (front.length, front.length + userInfo.length)) data = .ok result) :
    ∃ user password, result = { data with user := some user, password } ∧
      (user.length + (password.getD []).length : Int) ≤ width userInfo := by
  rw [parseUserinfo, process_chunk] at read
  obtain ⟨tokens, tokenized, read⟩ := bind_ok read
  have coded : isRaw parseUserinfoRules.simple userGroups percent = false := by
    rw [isRaw_eq (colon :: subDelimiters) fun chr => by
      simp [userGroups, parseUserinfoRules, or_left_comm]]
    decide
  have covers := @getTokens_covers userGroups parseUserinfoRules rfl coded (by decide)
    userGroups_plain (atSign :: post) (stops_cons ⟨by decide, userGroups_free _ (by simp)⟩ post)
    0 _ userInfo [] tokens (Nat.zero_le _) (by simp) tokenized
  have wide := length_decoded coded covers.kinds
  rw [covers.text_eq, nil_append, drop_zero] at wide
  have short := length_collectUserinfo tokens [] none
  simp only [length_nil, Option.getD_none] at short
  refine ⟨(collectUserinfo tokens [] none).1, (collectUserinfo tokens [] none).2, ?_, by omega⟩
  cases collected : collectUserinfo tokens [] none with
  | mk user password =>
    rw [collected] at read
    simp only at read
    split at read
    · cases read
    · cases password <;> cases read <;> simp [fresh]

/-- Nothing in a host separates it from other parts of the URI. -/
theorem not_mem_encodeHost {inet6 : Bytes → Bool} {chr : UInt8}
    (separator : chr ∈ [slash, questionMark]) (host : Bytes) : chr ∉ encodeHost inet6 host := by
  obtain ⟨reserved, notPercent, -, -, opening, closing⟩ := separators_not_hostRaw chr separator
  have absent := not_mem_encodeWith encodes_host reserved notPercent host
  rw [encodeHost]
  split
  · simp [opening, closing, absent]
  · exact absent

/-- The URI of a user and a host is read in two steps. -/
theorem parse_userHost {userInfo target : Bytes} (filled : userInfo ≠ []) (more : target ≠ [])
    (free : ∀ chr ∈ [atSign, slash], chr ∉ userInfo)
    (free' : ∀ chr ∈ [slash, questionMark], chr ∉ target) :
    parse .devApi (userInfo ++ atSign :: target) =
      (parseUserinfo (userInfo ++ atSign :: target) (some (0, userInfo.length)) {} >>=
        parseTarget false (userInfo ++ atSign :: target)
          (some (userInfo.length + 1, userInfo.length + 1 + target.length))) := by
  have absent {needle : Bytes} (inside : slash ∈ needle) {offset : Nat} :
      ¬ OccursAt needle (userInfo ++ atSign :: target) offset := by
    intro occurs
    rcases mem_append.mp (mem_of_mem_drop (occurs.subset inside)) with member | member
    · exact free slash (by simp) member
    · exact free' slash (by simp) ((mem_cons.mp member).resolve_left (by decide))
  have user := splitUserInfo_eq [] filled (free _ (by simp)) (free _ (by simp)) target
  have query := find_symbol_none (free' questionMark (by simp)) (userInfo ++ [atSign])
  have path (stop : Nat) : rfind [slash] (userInfo ++ atSign :: target) stop = none := by
    cases result : rfind [slash] (userInfo ++ atSign :: target) stop with
    | none => rfl
    | some found => exact absurd (rfind_some (by simp) result).2.1 (absent (by simp))
  have size : (userInfo ++ atSign :: target).length = userInfo.length + 1 + target.length := by
    rw [append_cons, length_append, length_append]
    rfl
  have longer := length_pos_of_ne_nil more
  rw [append_assoc, singleton_append, length_append, length_singleton] at query
  rw [nil_append, length_nil, Nat.zero_add] at user
  rw [parse, if_neg (by simp), preprocess, find_eq_none fun _ _ => absent (by simp)]
  simp only [splitRest, user, ok_bind, splitQuery, query, splitPath, path, reduceCtorEq,
    if_false, size, if_pos (by omega : userInfo.length + 1 < userInfo.length + 1 + target.length),
    pure_bind, and_false, decide_false, parsePath, parseQueryChunk]
  exact bind_congr fun _ => bind_pure _

/-- At the end of any URI, the target is read as a host and perhaps a port. -/
def ReadsAsHost (target : Bytes) : Prop :=
  target ≠ [] ∧ ∃ host port, ∀ (front : Bytes) (data : ConnectionData), data.port = none →
    parseTarget false (front ++ target) (some (front.length, front.length + target.length)) data =
      .ok { data with host := some host, port }

/--
On a host that is read, the user and the password come back exactly if neither of them holds
a percent code.
-/
theorem parse_encodeUri_user_iff {inet6 : Bytes → Bool} {host user password : Bytes}
    (reads : ReadsAsHost (encodeHost inet6 host)) (nonempty : user ≠ []) :
    (∃ data, (encodeUri inet6 .devApi .full
        { user := some user, password := some password, host := some host } >>=
      parse .devApi) = .ok data ∧ data.user = some user ∧ data.password = some password) ↔
      containsPctCode user = false ∧ containsPctCode password = false := by
  obtain ⟨more, name, port, target⟩ := reads
  have given : host ≠ [] := by
    rintro rfl
    exact more rfl
  let userInfo := encodeUserinfo user ++ colon :: encodeUserinfo password
  have written : encodeUri inet6 .devApi .full
      { user := some user, password := some password, host := some host } =
        .ok (userInfo ++ atSign :: encodeHost inet6 host) := by
    simp [encodeUri, encodeTransport, given, encodeUserData, encodePath, encodeQuery, Format.full,
      userInfo]
    rfl
  have free : ∀ chr ∈ [atSign, slash], chr ∉ userInfo := by
    intro chr separator
    obtain ⟨reserved, notPercent, -, notColon⟩ := separators_not_userRaw chr separator
    have absent := not_mem_encodeWith encodes_user reserved notPercent
    rw [mem_append, mem_cons, not_or, not_or]
    exact ⟨absent user, notColon, absent password⟩
  have place := target (userInfo ++ [atSign])
  rw [append_assoc, singleton_append, length_append, length_singleton] at place
  rw [written, ok_bind,
    parse_userHost (by simp [userInfo]) more free fun _ => (not_mem_encodeHost · host)]
  constructor
  · rintro ⟨data, read, sameUser, samePassword⟩
    obtain ⟨begun, parsed, read⟩ := bind_ok read
    obtain ⟨user', password', rfl, short⟩ := @length_parseUserinfo [] userInfo _ _ _ rfl
      (by simpa using parsed)
    cases (place _ rfl).symm.trans read
    cases sameUser
    cases samePassword
    obtain ⟨userWidth, userFree⟩ := width_encodeWith encodes_user user
    obtain ⟨passwordWidth, passwordFree⟩ := width_encodeWith encodes_user password
    have together : width userInfo =
        width (encodeUserinfo user) + 1 + width (encodeUserinfo password) := by
      rw [width_append, ← singleton_append, width_append, add_assoc]
      rfl
    rw [together, encodeUserinfo] at short
    simp only [Option.getD_some] at short
    exact ⟨userFree (by omega), passwordFree (by omega)⟩
  · rintro ⟨userFree, passwordFree⟩
    have read := @parseUserinfo_eq [] user nonempty (some password) (encodeHost inet6 host) {} rfl
    have plain : userInfo = encoded userRaw user ++ passwordText (some password) := by
      simp only [userInfo, encodeUserinfo, encodeWith_eq encodes_user userFree,
        encodeWith_eq encodes_user passwordFree]
      rfl
    rw [← plain, nil_append, length_nil, Nat.zero_add] at read
    rw [read, ok_bind, place _ rfl]
    exact ⟨_, rfl, rfl, rfl⟩

/-- Readable hosts without a percent code are read. -/
theorem Host.Readable.readsAsHost {inet6 : Bytes → Bool} (test : FamilyTest inet6) {host : Host}
    (readable : host.Readable) (plain : containsPctCode host.text = false) :
    ReadsAsHost (encodeHost inet6 host.text) := by
  rw [encodeHost_eq test host plain]
  obtain ⟨first, rest, same, -⟩ := host.written_first
  refine ⟨by simp [same], host.text, none, fun front data fresh => ?_⟩
  simpa [portText] using
    @parseTarget_readable front none [] (by simp) data host readable (by simp) fresh false

/-- A host with a percent code is read, and a password with a percent sign comes back. -/
theorem parse_encodeUri_secret :
    ∃ data, (encodeUri hasColon .devApi .full
        { user := some (ascii ['u']), password := some (ascii ['p', '%', '@']),
          host := some (ascii ['a', '%', '4', '1']) } >>= parse .devApi) = .ok data ∧
      data.user = some (ascii ['u']) ∧ data.password = some (ascii ['p', '%', '@']) := by
  have written : encodeHost hasColon (ascii ['a', '%', '4', '1']) = [97, 37, 52, 49] := by
    decide +kernel
  refine (parse_encodeUri_user_iff ?_ (by decide)).mpr (by decide)
  rw [written]
  refine ⟨cons_ne_nil _ _, [97, 65], none, fun front data fresh => ?_⟩
  have tokens : process parseHostRules (front ++ [97, 37, 52, 49]) front.length
      (front.length + 4) = .ok [⟨.hexDigits, [97]⟩, ⟨.pctEncoded, [37, 52, 49]⟩] :=
    process_chunk parseHostRules front [97, 37, 52, 49] []
  have name : parseHostName (front ++ [97, 37, 52, 49]) (front.length, front.length + 4) =
      .ok ([97, 65], front.length + 4) := by
    rw [parseHostName, tokens]
    rfl
  simp [parseTarget, inputContains, OccursAt, pipeStart, dot, slash, openParenthesis, backslash,
    parseHost, name, ok_bind, ← fresh]
  rfl

/-- The password `p%20` comes back with a space. -/
theorem parse_encodeUri_code :
    (encodeUri hasColon .devApi .full
        { user := some (ascii ['u']), password := some (ascii ['p', '%', '2', '0']),
          host := some (ascii ['h']) } >>= parse .devApi) =
      .ok { user := some (ascii ['u']), password := some (ascii ['p', ' ']),
            host := some (ascii ['h']) } := by
  decide +kernel

end MariadbShell.Uri
