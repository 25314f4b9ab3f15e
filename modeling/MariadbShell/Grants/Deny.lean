import MariadbShell.Grants.ShowGrants

/-!
# Denied privileges

A row `DENY` takes a privilege away whatever the other rows grant. It is stored like a
partial revoke, which is looked up for a schema only, and a schema with wildcards is stored
among the granted privileges.
-/

namespace MariadbShell.Grants

open List
open ImportTable (Bytes ascii)
open Sql UserPrivileges Level GrantRow List.Subset

/-! ## What is denied -/

/-- The missing privileges that are reported for an account with the given rows. -/
def reported (partialRevokes : Bool) (allPrivileges : List Bytes) (rows : List GrantRow)
    (required : List Bytes) (schema table : Bytes) : Except GrantError (List Bytes) :=
  (parseUserGrants { partialRevokes, allPrivileges } (rows.map text)).map
    fun user => user.getMissingPrivileges required schema table

def GrantRow.Concerns (row : GrantRow) (privilege : Bytes) : Prop :=
  match row.privileges with
  | none => True
  | some (first, more) => ∃ name ∈ first :: more, name.text = privilege

/-- The schema of a level is a pattern if it has wildcards, unless partial revokes are on. -/
def Level.Covers (partialRevokes : Bool) (level : Level) (schema table : Bytes) : Prop :=
  match level with
  | .global => True
  | .schema name =>
    if ¬ partialRevokes ∧ hasSqlWildcard name then matchSqlWild schema name = true
    else schema = name
  | .table owner name => schema = owner ∧ table = name

/--
For all rows before and after it, the privileges that a row `DENY` denies are missing, and it
never makes a missing privilege available.
-/
structure Respected (partialRevokes : Bool) (allPrivileges : List Bytes) (deny : GrantRow) :
    Prop where
  keeps : ∀ before after required schema table missing,
    reported partialRevokes allPrivileges (before ++ after) required schema table = .ok missing →
      ∃ more, reported partialRevokes allPrivileges (before ++ deny :: after) required schema
        table = .ok more ∧ missing ⊆ more
  denies : ∀ before after required (schema table : ObjectName) privilege, privilege ∈ required →
    deny.Concerns privilege → deny.level.Covers partialRevokes schema table →
      ∃ missing, reported partialRevokes allPrivileges (before ++ deny :: after) required schema
        table = .ok missing ∧ privilege ∈ missing

/-- The row names its privileges and is about a schema without wildcards. -/
def OfSchema (partialRevokes : Bool) (row : GrantRow) : Prop :=
  row.privileges.isSome = true ∧ row.withGrantOption = false ∧
    ∃ name, row.level = .schema name ∧ (partialRevokes = true ∨ hasSqlWildcard name = false)

theorem reported_eq (partialRevokes : Bool) (allPrivileges : List Bytes) (rows : List GrantRow)
    (required : List Bytes) (schema table : Bytes) :
    reported partialRevokes allPrivileges rows required schema table =
      .ok ((rows.foldl apply
        { partialRevokes, allPrivileges }).getMissingPrivileges required schema table) := by
  rw [reported, parseUserGrants_eq]
  rfl

/-! ## Privileges that are missing -/

namespace UserPrivileges

variable {user : UserPrivileges} {required : List Bytes} {schema table privilege : Bytes}

theorem missing_of_revoked (needed : privilege ∈ required)
    (revoked : privilege ∈ user.revokedAt schema) :
    privilege ∈ user.getMissingPrivileges required schema table := by
  simp only [getMissingPrivileges, mem_filter, mem_append, decide_eq_true_eq]
  exact ⟨needed, by rintro (⟨-, notRevoked⟩ | ⟨-, notRevoked⟩) <;> exact notRevoked revoked⟩

/-- A privilege that is granted at the global level and not revoked is not missing. -/
theorem not_missing
    (granted : privilege ∈ user.privileges.regular (privilegeLevel wildcard wildcard))
    (notRevoked : privilege ∉ user.revokedAt schema) :
    privilege ∉ user.getMissingPrivileges required schema table := by
  simp only [getMissingPrivileges, mem_filter, mem_append, decide_eq_true_eq]
  rintro ⟨-, missing⟩
  refine missing (.inl ⟨mem_append_left _ ?_, notRevoked⟩)
  rw [AllPrivileges.at_, if_pos (ne_nil_of_mem granted)]
  exact granted

/-- One account has the same privileges as another one, but more is revoked. -/
structure RevokesMore (user other : UserPrivileges) : Prop where
  partialRevokes : other.partialRevokes = user.partialRevokes
  allPrivileges : other.allPrivileges = user.allPrivileges
  privileges : other.privileges = user.privileges
  grantable : other.grantablePrivileges = user.grantablePrivileges
  revoked : ∀ level, user.revokedPrivileges level ⊆ other.revokedPrivileges level

variable {other : UserPrivileges}

theorem RevokesMore.missing (more : RevokesMore user other) :
    user.getMissingPrivileges required schema table ⊆
      other.getMissingPrivileges required schema table := by
  intro privilege missing
  have revoked : user.revokedAt schema ⊆ other.revokedAt schema := by
    unfold revokedAt
    split
    · exact more.revoked _
    · exact refl _
  simp only [getMissingPrivileges, mem_filter, mem_append, decide_eq_true_eq,
    more.privileges, more.grantable] at missing ⊢
  refine ⟨missing.1, fun available => missing.2 ?_⟩
  exact available.imp (And.imp_right (mt (@revoked privilege)))
    (And.imp_right (mt (@revoked privilege)))

theorem mem_add {map : Privileges} {level : Bytes} {privileges : List Bytes} {other : Bytes} :
    privilege ∈ map.add level privileges other ↔
      privilege ∈ map other ∨ other = level ∧ privilege ∈ privileges := by
  unfold Privileges.add
  split
  · rename_i same
    rw [same]
    simp
  · rename_i different
    simp [different]

theorem store_revokesMore (more : RevokesMore user other) (kind : GrantKind) (level : Bytes)
    (privileges : List Bytes) (withGrantOption : Bool) :
    RevokesMore (user.store kind level schema table privileges withGrantOption)
      (other.store kind level schema table privileges withGrantOption) := by
  obtain ⟨same, all, granted, grantable, revoked⟩ := more
  unfold store isWildcardPrivilegeLevel
  rw [same]
  split
  · split
    · exact ⟨rfl, all, granted, by simp only [grantable], revoked⟩
    · exact ⟨rfl, all, by simp only [granted], grantable, revoked⟩
  · split
    · exact ⟨rfl, all, granted, by simp only [grantable], revoked⟩
    · cases kind with
      | grant => exact ⟨rfl, all, by simp only [granted], grantable, revoked⟩
      | revoke | deny =>
        refine ⟨rfl, all, granted, grantable, ?_⟩
        intro other privilege member
        rw [mem_add] at member ⊢
        exact member.imp_left (@revoked other privilege)

theorem apply_revokesMore (more : RevokesMore user other) (row : GrantRow) :
    RevokesMore (user.apply row) (other.apply row) := by
  have named : ∀ schema table names, other.privilegesOf schema table names =
      user.privilegesOf schema table names := by
    intro schema table names
    unfold privilegesOf
    rw [more.allPrivileges]
  unfold apply applyAs
  simp only [named]
  split
  · exact more
  · exact store_revokesMore more _ _ _ _

theorem foldl_revokesMore (more : RevokesMore user other) (rows : List GrantRow) :
    RevokesMore (rows.foldl apply user) (rows.foldl apply other) := by
  induction rows generalizing user other with
  | nil => exact more
  | cons row rows ih => exact ih (apply_revokesMore more row)

end UserPrivileges

/-! ## Rows that are respected -/

theorem names_of_named {row : GrantRow} (named : row.privileges.isSome = true) :
    ∃ names, row.names = some names ∧ names ≠ [] ∧
      ∀ privilege, privilege ∈ names ↔ row.Concerns privilege := by
  obtain ⟨⟨first, more⟩, some_⟩ := Option.isSome_iff_exists.mp named
  refine ⟨readNames first more, ?_, ?_, ?_⟩
  · rw [names, some_]
  · exact ne_nil_of_mem (mem_readNames.mpr ⟨first, mem_cons_self, rfl⟩)
  · intro privilege
    rw [mem_readNames, GrantRow.Concerns, some_]

namespace OfSchema

variable {partialRevokes : Bool} {deny : GrantRow}

/-- The privileges of the row are revoked at its schema. -/
theorem apply_eq (ofSchema : OfSchema partialRevokes deny) (isDeny : deny.kind = .deny)
    {user : UserPrivileges} (same : user.partialRevokes = partialRevokes) :
    ∃ names, (∀ privilege, privilege ∈ names ↔ deny.Concerns privilege) ∧
      user.apply deny =
        { user with
          revokedPrivileges := user.revokedPrivileges.add deny.level.lexeme.text names } := by
  obtain ⟨named, notGrantable, name, level, plain⟩ := ofSchema
  obtain ⟨names, names_eq, some_, concerns⟩ := names_of_named named
  refine ⟨names, concerns, ?_⟩
  have notWild : user.isWildcardPrivilegeLevel deny.level.schemaName deny.level.tableName =
      false := by
    rw [isWildcardPrivilegeLevel, level, same]
    rcases plain with on | noWildcard
    · simp [on]
    · simp [schemaName, noWildcard]
  simp only [apply, applyAs, names_eq, privilegesOf,
    if_neg some_, store, notWild, notGrantable, Bool.false_eq_true, if_false, isDeny]

theorem revokesMore (ofSchema : OfSchema partialRevokes deny) (isDeny : deny.kind = .deny)
    {user : UserPrivileges} (same : user.partialRevokes = partialRevokes) :
    UserPrivileges.RevokesMore user (user.apply deny) := by
  obtain ⟨names, -, applied⟩ := ofSchema.apply_eq isDeny same
  rw [applied]
  refine ⟨rfl, rfl, rfl, rfl, ?_⟩
  intro level privilege member
  exact mem_add.mpr (.inl member)

end OfSchema

section

variable (user : UserPrivileges)

include user

theorem apply_partialRevokes (row : GrantRow) :
    (user.apply row).partialRevokes = user.partialRevokes := by
  unfold apply applyAs store
  simp only
  split
  · rfl
  · split
    · split <;> rfl
    · split
      · rfl
      · cases row.kind <;> rfl

theorem foldl_partialRevokes (rows : List GrantRow) :
    (rows.foldl apply user).partialRevokes = user.partialRevokes := by
  induction rows generalizing user with
  | nil => rfl
  | cons row rows ih => rw [foldl_cons, ih, apply_partialRevokes]

/-- What is revoked stays revoked. -/
theorem apply_revoked (row : GrantRow) (level : Bytes) :
    user.revokedPrivileges level ⊆ (user.apply row).revokedPrivileges level := by
  unfold apply applyAs store
  simp only
  split
  · exact refl _
  · split
    · split <;> exact refl _
    · split
      · exact refl _
      · cases row.kind with
        | grant => exact refl _
        | revoke | deny =>
          exact fun privilege member => mem_add.mpr (.inl member)

theorem foldl_revoked (rows : List GrantRow) (level : Bytes) :
    user.revokedPrivileges level ⊆
      (rows.foldl apply user).revokedPrivileges level := by
  induction rows generalizing user with
  | nil => exact refl _
  | cons row rows ih => exact List.Subset.trans (apply_revoked user row level) (ih _)

end

variable {deny : GrantRow} {partialRevokes : Bool}

theorem OfSchema.respected (ofSchema : OfSchema partialRevokes deny) (isDeny : deny.kind = .deny)
    (allPrivileges : List Bytes) :
    Respected partialRevokes allPrivileges deny where
  keeps := by
    intro before after required schema table missing result
    rw [reported_eq, foldl_append] at result
    cases result
    rw [reported_eq, foldl_append]
    refine ⟨_, rfl, ?_⟩
    have more := ofSchema.revokesMore isDeny (foldl_partialRevokes
      { partialRevokes, allPrivileges } before)
    exact (foldl_revokesMore more after).missing
  denies := by
    intro before after required schema table privilege needed concerns covers
    rw [reported_eq, foldl_append, foldl_cons]
    refine ⟨_, rfl, missing_of_revoked needed ?_⟩
    obtain ⟨names, named, applied⟩ := ofSchema.apply_eq isDeny (foldl_partialRevokes
      { partialRevokes, allPrivileges } before)
    obtain ⟨-, -, name, level, plain⟩ := ofSchema
    have same : schema.1 = name.1 := by
      rw [level, Level.Covers] at covers
      rwa [if_neg (by rcases plain with on | noWildcard <;> simp [*])] at covers
    rw [revokedAt, if_pos schema.2]
    refine foldl_revoked _ after _ ?_
    rw [applied, mem_add]
    refine .inr ⟨?_, (named privilege).mpr concerns⟩
    rw [text_eq, level, same]
    rfl

/-! ## Rows that are not respected -/

/-- A name that a pattern matches. -/
def unescape : Bytes → Bytes
  | [] => []
  | [chr] => [chr]
  | chr :: next :: pattern =>
    if chr = Chr.backslash then next :: unescape pattern else chr :: unescape (next :: pattern)

theorem hasSqlWildcard_unescape (pattern : Bytes) :
    hasSqlWildcard (unescape pattern) = hasSqlWildcard pattern := by
  fun_induction unescape pattern with
  | case1 | case2 => rfl
  | case3 next pattern ih =>
    rw [hasSqlWildcard, any_cons, ← hasSqlWildcard, ih]
    rfl
  | case4 chr next pattern other ih =>
    rw [hasSqlWildcard, any_cons, ← hasSqlWildcard, ih]
    rfl

theorem like_unescape (pattern : Bytes) : Like (unescape pattern) pattern := by
  unfold Like
  fun_induction unescape pattern with
  | case1 => exact .nil
  | case2 chr => exact matches_symbolOf chr .nil
  | case3 next pattern ih => exact ih.literal
  | case4 chr next pattern other ih =>
    rw [symbols, if_neg (show ¬ chr = wildEscape from other)]
    exact matches_symbolOf chr ih

def grantGlobally (name : PrivilegeName) : GrantRow :=
  { kind := .grant, privileges := some (name, []), level := .global, user := [], host := none }

theorem apply_grantGlobally (user : UserPrivileges) (name : PrivilegeName) :
    user.apply (grantGlobally name) =
      { user with
        privileges :=
          { user.privileges with
            regular := user.privileges.regular.add (privilegeLevel wildcard wildcard)
              [name.text] } } := by
  have notWild : user.isWildcardPrivilegeLevel wildcard wildcard = false := by
    simp [isWildcardPrivilegeLevel, isDatabasePrivilegeLevel]
  rw [apply, applyAs]
  simp only [grantGlobally, store, schemaName, tableName, notWild]
  rfl

/-- What a row `DENY` revokes, if it revokes anything. -/
theorem revoked_of_deny {user : UserPrivileges} (isDeny : deny.kind = .deny)
    {level privilege : Bytes} (revoked : privilege ∈ (user.apply deny).revokedPrivileges level) :
    privilege ∈ user.revokedPrivileges level ∨
      level = deny.level.lexeme.text ∧ deny.withGrantOption = false ∧
        user.isWildcardPrivilegeLevel deny.level.schemaName deny.level.tableName = false ∧
        ∃ names, deny.names = some names ∧ privilege ∈ names := by
  have listed : ∃ names, deny.names = some names := by
    unfold names
    split
    · exact ⟨_, rfl⟩
    · exact ⟨_, by rw [isDeny]; rfl⟩
  obtain ⟨names, names_eq⟩ := listed
  rw [apply, applyAs, names_eq] at revoked
  simp only [store, isDeny] at revoked
  split at revoked
  · exact .inl revoked
  · split at revoked
    · split at revoked <;> exact .inl revoked
    · rename_i notWild
      split at revoked
      · exact .inl revoked
      · rename_i notGrantable
        refine (mem_add.mp revoked).imp_right fun added => ?_
        exact ⟨added.1, by simpa using notGrantable, by simpa using notWild, names, names_eq,
          added.2⟩

/-- A row `DENY` leaves what is granted at the other levels. -/
theorem regular_of_deny {user : UserPrivileges} (isDeny : deny.kind = .deny) :
    (user.apply deny).privileges.regular = user.privileges.regular := by
  rw [apply, applyAs]
  simp only [store, isDeny]
  split
  · rfl
  · split
    · split <;> rfl
    · split <;> rfl

def selectPrivilege : PrivilegeName :=
  ⟨⟨ascii "SELECT".toList, by decide, by decide⟩, [], by decide, by decide, by decide⟩

/-- The first of the privileges that a row is about. -/
def GrantRow.sample (row : GrantRow) : PrivilegeName :=
  match row.privileges with
  | some (first, _) => first
  | none => selectPrivilege

theorem GrantRow.concerns_sample (row : GrantRow) : row.Concerns row.sample.text := by
  unfold Concerns sample
  cases row.privileges with
  | none => trivial
  | some privileges => exact ⟨privileges.1, mem_cons_self, rfl⟩

theorem Level.exists_covers (partialRevokes : Bool) (level : Level) :
    ∃ schema table : ObjectName, level.Covers partialRevokes schema table := by
  let other : ObjectName := ⟨[], by decide⟩
  cases level with
  | global => exact ⟨other, other, trivial⟩
  | table owner name => exact ⟨owner, name, rfl, rfl⟩
  | schema name =>
    by_cases pattern : ¬ partialRevokes ∧ hasSqlWildcard name
    · have notWildcard : unescape name ≠ wildcard := by
        intro same
        have has := hasSqlWildcard_unescape name
        rw [same, pattern.2] at has
        cases has
      refine ⟨⟨unescape name, notWildcard⟩, other, ?_⟩
      rw [Covers, if_pos pattern]
      exact matchSqlWild_of_like (like_unescape name)
    · refine ⟨name, other, ?_⟩
      rw [Covers, if_neg pattern]

/-- A privilege that is granted globally has to be revoked at the schema. -/
theorem Respected.revoked {allPrivileges : List Bytes}
    (respected : Respected partialRevokes allPrivileges deny) (isDeny : deny.kind = .deny)
    {schema table : ObjectName} (covers : deny.level.Covers partialRevokes schema table) :
    privilegeLevel schema wildcard = deny.level.lexeme.text ∧ deny.withGrantOption = false ∧
      ¬ (¬ partialRevokes ∧
        isDatabasePrivilegeLevel deny.level.schemaName deny.level.tableName ∧
        hasSqlWildcard deny.level.schemaName) ∧
      ∃ names, deny.names = some names ∧ deny.sample.text ∈ names := by
  obtain ⟨missing, result, member⟩ := respected.denies [grantGlobally deny.sample] []
    [deny.sample.text] schema table _ (mem_singleton_self _) deny.concerns_sample covers
  rw [reported_eq, singleton_append, foldl_cons, foldl_cons, foldl_nil] at result
  cases result
  rw [apply_grantGlobally] at member
  by_contra notRevoked
  refine not_missing ?_ ?_ member
  · rw [regular_of_deny isDeny, mem_add]
    exact .inr ⟨rfl, mem_singleton_self _⟩
  · rw [revokedAt, if_pos schema.2]
    intro revoked
    rcases revoked_of_deny isDeny revoked with before | ⟨level, notGrantable, notWild, named⟩
    · exact not_mem_nil before
    · refine notRevoked ⟨level, notGrantable, ?_, named⟩
      simpa [isWildcardPrivilegeLevel] using notWild

theorem Respected.ofSchema {allPrivileges : List Bytes}
    (respected : Respected partialRevokes allPrivileges deny) (isDeny : deny.kind = .deny) :
    OfSchema partialRevokes deny := by
  obtain ⟨schema, table, covers⟩ := deny.level.exists_covers partialRevokes
  obtain ⟨same, notGrantable, notWild, names, names_eq, member⟩ := respected.revoked isDeny covers
  refine ⟨?_, notGrantable, ?_⟩
  · -- `ALL PRIVILEGES` is read as the name of a privilege.
    by_contra all
    have none_ : deny.privileges = none := by simpa using all
    rw [GrantRow.names, none_, isDeny] at names_eq
    rw [sample, none_, ← Option.some.inj names_eq] at member
    revert member
    decide
  · rw [text_eq, privilegeLevel, privilegeLevel, quoteName_eq] at same
    cases level : deny.level with
    | schema name =>
      refine ⟨name, rfl, ?_⟩
      rw [level] at notWild
      have database : isDatabasePrivilegeLevel name wildcard = true := by
        simp [isDatabasePrivilegeLevel, name.2]
      simp only [schemaName, tableName, database] at notWild
      cases partialRevokes with
      | true => exact .inl rfl
      | false => exact .inr (by simpa using notWild)
    | global =>
      rw [level] at same
      injection same with first
      exact absurd first (by decide)
    | table owner name =>
      rw [level] at same covers
      rw [covers.1] at same
      rw [schemaName, tableName, quoteName_eq, quoteName_eq] at same
      injection append_cancel_left same with _ rest
      injection rest with first
      exact absurd first (by decide)

/--
Of the rows `DENY`, only those that name their privileges and a schema without wildcards are
respected.
-/
theorem deny_respected_iff (partialRevokes : Bool) (allPrivileges : List Bytes) (deny : GrantRow)
    (isDeny : deny.kind = .deny) :
    Respected partialRevokes allPrivileges deny ↔ OfSchema partialRevokes deny :=
  ⟨fun respected => respected.ofSchema isDeny, fun ofSchema => ofSchema.respected isDeny _⟩

def denySelect (level : Level) : GrantRow :=
  { kind := .deny
    privileges := some (selectPrivilege, [])
    level
    user := ascii "u".toList
    host := some (ascii "%".toList) }

theorem deny_respected_iff_shop :
    Respected false [] (denySelect (.schema ⟨ascii "shop".toList, by decide⟩)) ∧
      ¬ Respected false [] (denySelect .global) := by
  refine ⟨(deny_respected_iff _ _ _ rfl).mpr ⟨rfl, rfl, _, rfl, .inr (by decide)⟩, ?_⟩
  intro respected
  obtain ⟨-, -, name, level, -⟩ := (deny_respected_iff _ _ _ rfl).mp respected
  cases level

/--
A privilege that is denied globally or for a table is available, and a row that denies one
for the schemas `a_b` makes it available there.
-/
theorem deny_not_respected :
    (reported false [] [grantGlobally selectPrivilege, denySelect .global]
      [selectPrivilege.text] (ascii "s".toList) (ascii "t".toList) = .ok []) ∧
    (reported false []
      [grantGlobally selectPrivilege,
        denySelect (.table ⟨ascii "s".toList, by decide⟩ ⟨ascii "t".toList, by decide⟩)]
      [selectPrivilege.text] (ascii "s".toList) (ascii "t".toList) = .ok []) ∧
    (reported false [] [] [selectPrivilege.text] (ascii "a_b".toList) (ascii "t".toList) =
      .ok [selectPrivilege.text]) ∧
    reported false [] [denySelect (.schema ⟨ascii "a_b".toList, by decide⟩)]
      [selectPrivilege.text] (ascii "a_b".toList) (ascii "t".toList) = .ok [] := by
  simp only [reported_eq]
  decide +kernel

end MariadbShell.Grants
