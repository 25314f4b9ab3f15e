import MariadbShell.Sql.MatchWild
import MariadbShell.Sql.SqlString

/-!
# Privileges of an account

`User_privileges` reads the rows that `SHOW GRANTS` reports and tells which of the
privileges that an operation needs are missing at a schema or a table. A map from levels
to sets of privileges is a function here, as no level has an empty set of its own.
-/

namespace MariadbShell.Grants

open ImportTable (Bytes ascii)
open Sql Chr

/-! ## Names with wildcards -/

/-- `k_wildcard`, which stands for any schema or any table. -/
def wildcard : Bytes := [Chr.star]

def isSqlWildcard (chr : UInt8) : Bool :=
  chr = underscore ∨ chr = percent

def hasSqlWildcard (text : Bytes) : Bool :=
  text.any isSqlWildcard

/-- The loop of `get_sort` over the characters up to the first wildcard. -/
def sortFrom : Nat → Bytes → Nat
  | position, [] => if position = 0 then 0 else 128
  | position, [chr] =>
    if isSqlWildcard chr then
      min (if position = 0 ∧ chr = percent then 1 else position + 2) 127
    else 128
  | position, chr :: next :: text =>
    if chr = backslash then sortFrom (position + 2) text
    else if isSqlWildcard chr then min (position + 2) 127
    else sortFrom (position + 1) (next :: text)

/-- `get_sort` of a C string. -/
def getSort (text : Bytes) : Nat :=
  sortFrom 0 (text.takeWhile (· ≠ nul))

/-! ## Privileges -/

/-- `{level -> {privileges}}`. -/
abbrev Privileges := Bytes → List Bytes

def Privileges.add (map : Privileges) (level : Bytes) (privileges : List Bytes) : Privileges :=
  fun other => if other = level then map level ++ privileges else map other

/-- `{schema -> {privileges}}`, ordered by `SQL_wild_compare`. -/
abbrev WildcardPrivileges := List (Bytes × List Bytes)

/-- A new schema is put behind those that do not come after it. -/
def WildcardPrivileges.emplace (entry : Bytes × List Bytes) :
    WildcardPrivileges → WildcardPrivileges
  | [] => [entry]
  | first :: entries =>
    if getSort first.1 < getSort entry.1 then entry :: first :: entries
    else first :: emplace entry entries

def WildcardPrivileges.add (map : WildcardPrivileges) (schema : Bytes) (privileges : List Bytes) :
    WildcardPrivileges :=
  if map.any (·.1 = schema) then
    map.map fun entry => if entry.1 = schema then (entry.1, entry.2 ++ privileges) else entry
  else map.emplace (schema, privileges)

structure AllPrivileges where
  wildcard : WildcardPrivileges := []
  regular : Privileges := fun _ => []

/-- Members of `User_privileges` that the rows of `SHOW GRANTS` are read into. -/
structure UserPrivileges where
  partialRevokes : Bool
  allPrivileges : List Bytes
  privileges : AllPrivileges := {}
  grantablePrivileges : AllPrivileges := {}
  revokedPrivileges : Privileges := fun _ => []

/-! ## Levels -/

/-- The lambda `quote` of `privilege_level`. -/
def quoteName (name : Bytes) : Bytes :=
  if name = wildcard then name else quoteIdentifier backtick name

def privilegeLevel (schema table : Bytes) : Bytes :=
  quoteName schema ++ dot :: quoteName table

def isDatabasePrivilegeLevel (schema table : Bytes) : Bool :=
  schema ≠ wildcard ∧ table = wildcard

/-- Exceptions of `parse_grant`; the last one stands for a loop that does not end. -/
inductive GrantError where
  | lex (error : LexError)
  | unsupported (type : Bytes)
  | expectedDot (name : Bytes) (chr : UInt8)
  | expectedObject (name : Bytes)
  | expectedEnd (name : Bytes) (chr : UInt8)
  | noEnd
deriving DecidableEq, Repr

def GrantError.message : GrantError → Bytes
  | .lex error => error.message
  | .unsupported type => ascii "Unsupported grant statement: ".toList ++ type
  | .expectedDot name chr =>
    ascii "Invalid object name '".toList ++ name ++
      ascii "', expected '.', but got: '".toList ++ chr :: ascii "'.".toList
  | .expectedObject name =>
    ascii "Invalid object name '".toList ++ name ++ ascii "', expected object name after '.'".toList
  | .expectedEnd name chr =>
    ascii "Invalid object name '".toList ++ name ++
      ascii "', expected end of name, but got: '".toList ++ chr :: ascii "'.".toList
  | .noEnd => []

/-- A name or `*`, and the text behind it. -/
def splitName (text : Bytes) : Except GrantError (Bytes × Bytes) :=
  if text.head? = some Chr.star then .ok (wildcard, text.tail)
  else (spanQuotableSqlIdentifier false text).mapError .lex

def splitPrivLevel (text : Bytes) : Except GrantError (Bytes × Bytes) :=
  if text = [] then .ok ([], [])
  else
    match splitName text with
    | .error error => .error error
    | .ok (schema, []) => .ok (schema, [])
    | .ok (schema, chr :: rest) =>
      if chr ≠ dot then .error (.expectedDot text chr)
      else if rest = [] then .error (.expectedObject text)
      else
        match splitName rest with
        | .error error => .error error
        | .ok (object, []) => .ok (schema, object)
        | .ok (_, chr :: _) => .error (.expectedEnd text chr)

/-! ## Reading a row -/

def allSchemaPrivileges : List Bytes :=
  ["ALTER", "ALTER ROUTINE", "CREATE", "CREATE ROUTINE", "CREATE TEMPORARY TABLES", "CREATE VIEW",
    "DELETE", "DROP", "EVENT", "EXECUTE", "INDEX", "INSERT", "LOCK TABLES", "REFERENCES", "SELECT",
    "SHOW VIEW", "TRIGGER", "UPDATE"].map fun name : String => ascii name.toList

def allTablePrivileges : List Bytes :=
  ["ALTER", "CREATE", "CREATE VIEW", "DELETE", "DROP", "INDEX", "INSERT", "REFERENCES", "SELECT",
    "SHOW VIEW", "TRIGGER", "UPDATE"].map fun name : String => ascii name.toList

/-- `k_grant_all`. -/
def grantAll : Bytes := ascii "GRANT ALL PRIVILEGES ON ".toList

def nextToken (it : SqlIterator) : Except GrantError (Bytes × SqlIterator) :=
  it.nextToken.mapError .lex

def skipColumns : Nat → SqlIterator → Except GrantError SqlIterator
  | 0, _ => .error .noEnd
  | fuel + 1, it =>
    match nextToken it with
    | .error error => .error error
    | .ok (token, it) =>
      if caseEq token [closeParenthesis] then .ok it else skipColumns fuel it

/-- The token behind a list of columns, and whether there was one. -/
def columns (fuel : Nat) (token : Bytes) (it : SqlIterator) :
    Except GrantError (Bool × Bytes × SqlIterator) :=
  if caseEq token [openParenthesis] then
    match skipColumns fuel it with
    | .error error => .error error
    | .ok it => (nextToken it).map fun (token, it) => (true, token, it)
  else .ok (false, token, it)

/--
The loops over the privileges of a row. The row is left out, with the result `none`, if it
is about a role: `last` is the word in front of the account.
-/
def privilegeLoop (last : Bytes) : Nat → SqlIterator → Bytes → Bool → List Bytes →
    Except GrantError (Option (List Bytes × SqlIterator))
  | 0, _, _, _, _ => .error .noEnd
  | fuel + 1, it, privilege, addPrivilege, privileges =>
    match nextToken it with
    | .error error => .error error
    | .ok (token, it) =>
      if caseEq token last then .ok none
      else
        match columns fuel token it with
        | .error error => .error error
        | .ok (columnLevel, token, it) =>
          let addPrivilege := addPrivilege && !columnLevel
          let added := if addPrivilege then privileges.insert privilege else privileges
          if caseEq token [comma] then
            match nextToken it with
            | .error error => .error error
            | .ok (privilege, it) => privilegeLoop last fuel it privilege true added
          else if caseEq token (ascii "ON".toList) then .ok (some (added, it))
          else
            privilegeLoop last fuel it (privilege ++ space :: token) addPrivilege
              privileges

inductive GrantKind where
  | grant
  | revoke
  | deny
deriving DecidableEq, Repr

def GrantKind.last : GrantKind → Bytes
  | .grant | .deny => ascii "TO".toList
  | .revoke => ascii "FROM".toList

def GrantKind.word : GrantKind → Bytes
  | .grant => ascii "GRANT".toList
  | .revoke => ascii "REVOKE".toList
  | .deny => ascii "DENY".toList

/-- The privileges of a row up to the word `ON`; `none` inside stands for all of them. -/
def readPrivileges (statement : Bytes) (kind : GrantKind) (it : SqlIterator) :
    Except GrantError (Option (Option (List Bytes) × SqlIterator)) :=
  if kind = .grant ∧ caseEq (statement.take grantAll.length) grantAll then
    .ok (some (none, it.setPosition grantAll.length))
  else
    match nextToken it with
    | .error error => .error error
    | .ok (privilege, it) =>
      (privilegeLoop kind.last (statement.length + 1) it privilege true []).map fun read =>
        read.map fun (privileges, it) => (some privileges, it)

/-- The level of a row, or `none` if it is about a routine. -/
def readLevel (it : SqlIterator) : Except GrantError (Option (Bytes × SqlIterator)) :=
  match nextToken it with
  | .error error => .error error
  | .ok (level, it) =>
    if caseEq level (ascii "FUNCTION".toList) ∨ caseEq level (ascii "PROCEDURE".toList) then
      .ok none
    else if caseEq level (ascii "TABLE".toList) then (nextToken it).map some
    else .ok (some (level, it))

/-- The loop that looks for `GRANT OPTION`. -/
def grantOption : Nat → SqlIterator → Except GrantError Bool
  | 0, _ => .error .noEnd
  | fuel + 1, it =>
    if it.valid then
      match nextToken it with
      | .error error => .error error
      | .ok (token, it) =>
        if caseEq token (ascii "GRANT".toList) then
          match nextToken it with
          | .error error => .error error
          | .ok (token, it) =>
            if caseEq token (ascii "OPTION".toList) then .ok true else grantOption fuel it
        else grantOption fuel it
    else .ok false

namespace UserPrivileges

variable (user : UserPrivileges)

def isWildcardPrivilegeLevel (schema table : Bytes) : Bool :=
  ¬ user.partialRevokes ∧ isDatabasePrivilegeLevel schema table ∧ hasSqlWildcard schema

/-- The privileges that `ALL` stands for at a level. -/
def privilegesOf (schema table : Bytes) : Option (List Bytes) → List Bytes
  | some privileges => privileges
  | none =>
    if schema = wildcard then user.allPrivileges
    else if table = wildcard then allSchemaPrivileges
    else allTablePrivileges

/-- Store the privileges of a row where `get_target` says. -/
def store (kind : GrantKind) (level schema table : Bytes)
    (privileges : List Bytes) (withGrantOption : Bool) : UserPrivileges :=
  if user.isWildcardPrivilegeLevel schema table then
    if withGrantOption then
      { user with
        grantablePrivileges :=
          { user.grantablePrivileges with
            wildcard := user.grantablePrivileges.wildcard.add schema privileges } }
    else
      { user with
        privileges :=
          { user.privileges with
            wildcard := user.privileges.wildcard.add schema privileges } }
  else if withGrantOption then
    { user with
      grantablePrivileges :=
        { user.grantablePrivileges with
          regular := user.grantablePrivileges.regular.add level privileges } }
  else
    match kind with
    | .grant =>
      { user with
        privileges :=
          { user.privileges with regular := user.privileges.regular.add level privileges } }
    | .revoke | .deny =>
      { user with revokedPrivileges := user.revokedPrivileges.add level privileges }

/-- The rest of `parse_grant` behind the privileges. -/
def parseLevel (kind : GrantKind) (fuel : Nat)
    (privileges : Option (List Bytes)) (it : SqlIterator) : Except GrantError UserPrivileges :=
  match readLevel it with
  | .error error => .error error
  | .ok none => .ok user
  | .ok (some (level, it)) =>
    match splitPrivLevel level with
    | .error error => .error error
    | .ok (schema, table) =>
      match grantOption fuel it with
      | .error error => .error error
      | .ok withGrantOption =>
        let privileges := user.privilegesOf schema table privileges
        .ok (if privileges = [] then user
          else user.store kind level schema table privileges withGrantOption)

/-- A row about the privilege `PROXY`. -/
def isProxy (privileges : Option (List Bytes)) : Bool :=
  match privileges with
  | some [privilege] => caseEq privilege (ascii "PROXY".toList)
  | _ => false

/-- `parse_grant` behind the first word of the row. -/
def parseAs (statement : Bytes) (kind : GrantKind) (it : SqlIterator) :
    Except GrantError UserPrivileges :=
  match readPrivileges statement kind it with
  | .error error => .error error
  | .ok none => .ok user
  | .ok (some (privileges, it)) =>
    if isProxy privileges then .ok user
    else user.parseLevel kind (statement.length + 1) privileges it

def parseGrant (statement : Bytes) : Except GrantError UserPrivileges :=
  match (SqlIterator.create statement 0 false true).mapError .lex with
  | .error error => .error error
  | .ok it =>
    match nextToken it with
    | .error error => .error error
    | .ok (type, it) =>
      if caseEq type GrantKind.grant.word then user.parseAs statement .grant it
      else if caseEq type GrantKind.revoke.word then user.parseAs statement .revoke it
      else if caseEq type GrantKind.deny.word then user.parseAs statement .deny it
      else if caseEq type (ascii "SET".toList) then .ok user
      else .error (.unsupported type)

/-- `parse_user_grants`: the rows are read one after the other. -/
def parseUserGrants : UserPrivileges → List Bytes → Except GrantError UserPrivileges
  | user, [] => .ok user
  | user, statement :: statements =>
    match user.parseGrant statement with
    | .error error => .error error
    | .ok next => parseUserGrants next statements

end UserPrivileges

/-! ## Missing privileges -/

/-- The lambda `copy` of `get_privileges_at_level`. -/
def AllPrivileges.at_ (privileges : AllPrivileges) (schema table : Bytes) : List Bytes :=
  let regular := privileges.regular (privilegeLevel schema table)
  if regular ≠ [] then regular
  else if isDatabasePrivilegeLevel schema table then
    ((privileges.wildcard.find? fun entry => matchSqlWild schema entry.1).map Prod.snd).getD []
  else []

def getPrivilegesAtLevel (privileges : AllPrivileges) (schema table : Bytes) : List Bytes :=
  privileges.at_ wildcard wildcard ++
    if schema ≠ wildcard then
      privileges.at_ schema wildcard ++
        if table ≠ wildcard then privileges.at_ schema table else []
    else []

namespace UserPrivileges

def revokedAt (user : UserPrivileges) (schema : Bytes) : List Bytes :=
  if schema ≠ wildcard then user.revokedPrivileges (privilegeLevel schema wildcard) else []

def getMissingPrivileges (user : UserPrivileges) (requiredPrivileges : List Bytes)
    (schema table : Bytes) : List Bytes :=
  let left (privileges : AllPrivileges) : List Bytes :=
    (getPrivilegesAtLevel privileges schema table).filter (· ∉ user.revokedAt schema)
  let actual := left user.privileges ++ left user.grantablePrivileges
  requiredPrivileges.filter (· ∉ actual)

end UserPrivileges

end MariadbShell.Grants
