import MariadbShell.Lib.Keyed
import MariadbShell.Sql.Account

/-!
# Filters of users, schemas, tables and triggers

`Filtering_options`: what was included and excluded by name, what the filters let through, and
the checks that refuse contradicting requests. A trigger that was included by name is lost when
all triggers of its table are included too. An excluded routine is found without regard to case
only if it is not included as it is spelled.
-/

namespace MariadbShell.Db

open List
open ImportTable (Bytes ascii)
open Lib.Keyed
open Sql (Account)

/-! ## Checks of two lists -/

/-- `find_matches`: whether the callback finds a conflict under a key of both maps. -/
def findMatches {Value : Type} (included excluded : List (Bytes × Value))
    (conflict : Value → Value → Bool) : Bool :=
  if included.length < excluded.length then
    included.any fun entry => (get entry.1 excluded).any fun value => conflict entry.2 value
  else excluded.any fun entry => (get entry.1 included).any fun value => conflict value entry.2

/-- `error_on_conflicts` for two sets of names. -/
def errorOnConflicts (included excluded : List Bytes) : Bool :=
  if included.length < excluded.length then included.any (· ∈ excluded)
  else excluded.any (· ∈ included)

theorem findMatches_of_get {Value : Type} {included excluded : List (Bytes × Value)}
    {conflict : Value → Value → Bool} {key : Bytes} {left right : Value}
    (found : get key included = some left) (found' : get key excluded = some right)
    (both : conflict left right = true) : findMatches included excluded conflict = true := by
  unfold findMatches
  split
  · exact any_eq_true.mpr ⟨(key, left), mem_of_get found, by simp [found', both]⟩
  · exact any_eq_true.mpr ⟨(key, right), mem_of_get found', by simp [found, both]⟩

variable {included excluded : List Bytes}

theorem errorOnConflicts_of_mem {name : Bytes} (inside : name ∈ included)
    (outside : name ∈ excluded) : errorOnConflicts included excluded = true := by
  unfold errorOnConflicts
  split
  · exact any_eq_true.mpr ⟨name, inside, decide_eq_true outside⟩
  · exact any_eq_true.mpr ⟨name, outside, decide_eq_true inside⟩

/-! ## Users -/

structure UserFilters where
  included : List Account
  excluded : List Account

namespace UserFilters

/-- Whether an entry of a filter stands for the account; an empty host stands for all. -/
def covers (account entry : Account) : Bool :=
  entry.user = account.user ∧ (entry.host = [] ∨ entry.host = account.host)

def isIncluded (filters : UserFilters) (account : Account) : Bool :=
  if filters.excluded.any (covers account) then false
  else if filters.included = [] then true
  else filters.included.any (covers account)

def errorOnConflicts (filters : UserFilters) : Bool :=
  filters.included.any fun included => filters.excluded.any fun excluded =>
    included.user = excluded.user ∧ (included.host = excluded.host ∨ excluded.host = [])

theorem isIncluded_of_mem {filters : UserFilters} (clean : filters.errorOnConflicts = false)
    {account : Account} (inside : account ∈ filters.included) :
    filters.isIncluded account = true := by
  have passed : filters.excluded.any (covers account) = false := by
    simp only [errorOnConflicts, any_eq_false, any_eq_true, not_exists, not_and,
      decide_eq_true_eq] at clean
    refine any_eq_false.mpr fun entry member hit => ?_
    simp only [covers, decide_eq_true_eq] at hit
    exact clean account inside entry member hit.1.symm (hit.2.symm.imp_left Eq.symm)
  have nonempty : filters.included ≠ [] := ne_nil_of_mem inside
  rw [isIncluded, passed, if_neg nonempty]
  exact any_eq_true.mpr ⟨account, inside, by simp [covers]⟩

end UserFilters

/-! ## Schemas -/

structure SchemaFilters where
  included : List Bytes
  excluded : List Bytes

namespace SchemaFilters

def isIncluded (filters : SchemaFilters) (schema : Bytes) : Bool :=
  if schema ∈ filters.excluded then false
  else filters.included = [] ∨ schema ∈ filters.included

def errorOnConflicts (filters : SchemaFilters) : Bool :=
  Db.errorOnConflicts filters.included filters.excluded

/-- The check of the schemas that other filters refer to. -/
def checkSchemas {Value : Type} (filters : SchemaFilters) (list : List (Bytes × Value))
    (included : Bool) : Bool :=
  list.any fun entry =>
    (included ∧ entry.1 ∈ filters.excluded) ∨ (filters.included ≠ [] ∧ entry.1 ∉ filters.included)

theorem isIncluded_of_mem {filters : SchemaFilters} (clean : filters.errorOnConflicts = false)
    {schema : Bytes} (inside : schema ∈ filters.included) : filters.isIncluded schema = true := by
  have passed : schema ∉ filters.excluded := by
    intro outside
    rw [errorOnConflicts, errorOnConflicts_of_mem inside outside] at clean
    cases clean
  simp [isIncluded, passed, inside]

theorem isIncluded_of_get {Value : Type} {filters : SchemaFilters}
    {list : List (Bytes × Value)} (clean : filters.checkSchemas list true = false)
    {schema : Bytes} {value : Value} (found : get schema list = some value) :
    filters.isIncluded schema = true := by
  simp only [checkSchemas, any_eq_false, decide_eq_true_eq, not_or, not_and, not_not] at clean
  obtain ⟨passed, listed⟩ := clean _ (mem_of_get found)
  by_cases every : filters.included = []
  · simp [isIncluded, passed, every]
  · simp [isIncluded, passed, listed every]

end SchemaFilters

/-! ## Objects of schemas -/

abbrev ObjectFilter := List (Bytes × List Bytes)

structure ObjectFilters where
  schemas : SchemaFilters
  included : ObjectFilter
  excluded : ObjectFilter

namespace ObjectFilters

def isIncluded (filters : ObjectFilters) (schema object : Bytes) : Bool :=
  if ¬ filters.schemas.isIncluded schema then false
  else if (get schema filters.excluded).any (object ∈ ·) then false
  else if filters.included = [] then true
  else (get schema filters.included).any (object ∈ ·)

/-- `is_included_ci`; `fold` stands for the conversion to wide characters of one case. -/
def isIncludedCi {Folded : Type} [DecidableEq Folded] (fold : Bytes → Folded)
    (filters : ObjectFilters) (schema object : Bytes) : Bool :=
  let containsCi (objects : List Bytes) : Bool := objects.any fun entry => fold object = fold entry
  if ¬ filters.schemas.isIncluded schema then false
  else if filters.isIncluded schema object then true
  else if (get schema filters.excluded).any containsCi then false
  else if filters.included = [] then true
  else (get schema filters.included).any containsCi

/-- `is_included` with another comparison of the names of objects. -/
def isIncludedBy (same : Bytes → Bytes → Bool) (filters : ObjectFilters)
    (schema object : Bytes) : Bool :=
  if ¬ filters.schemas.isIncluded schema then false
  else if (get schema filters.excluded).any (List.any · (same object)) then false
  else if filters.included = [] then true
  else (get schema filters.included).any (List.any · (same object))

def add (filter : ObjectFilter) (request : Bytes × Bytes) : ObjectFilter :=
  alter request.1 (fun objects => (objects.getD []).insert request.2) filter

def errorOnConflicts (filters : ObjectFilters) : Bool :=
  findMatches filters.included filters.excluded Db.errorOnConflicts

def errorOnCrossFiltersConflicts (filters : ObjectFilters) : Bool :=
  filters.schemas.checkSchemas filters.included true ||
    filters.schemas.checkSchemas filters.excluded false

theorem isIncluded_iff {filters : ObjectFilters} {schema object : Bytes} :
    filters.isIncluded schema object = true ↔
      filters.schemas.isIncluded schema = true ∧
        (get schema filters.excluded).any (object ∈ ·) = false ∧
        (filters.included = [] ∨ (get schema filters.included).any (object ∈ ·) = true) := by
  unfold isIncluded
  split_ifs <;> simp_all

theorem isIncluded_of_get {filters : ObjectFilters} (clean : filters.errorOnConflicts = false)
    (cross : filters.errorOnCrossFiltersConflicts = false) {schema object : Bytes}
    {objects : List Bytes} (found : get schema filters.included = some objects)
    (inside : object ∈ objects) : filters.isIncluded schema object = true := by
  rw [errorOnCrossFiltersConflicts, Bool.or_eq_false_iff] at cross
  refine isIncluded_iff.mpr
    ⟨SchemaFilters.isIncluded_of_get cross.1 found, ?_, .inr (by simp [found, inside])⟩
  cases other : get schema filters.excluded with
  | none => rfl
  | some names =>
    refine decide_eq_false fun outside => ?_
    rw [errorOnConflicts,
      findMatches_of_get found other (errorOnConflicts_of_mem inside outside)] at clean
    cases clean

/--
The look-up without regard to case is one of names compared so, unless the object is included
as it is spelled and excluded in another spelling.
-/
theorem isIncludedCi_eq_iff {Folded : Type} [DecidableEq Folded] (fold : Bytes → Folded)
    (filters : ObjectFilters) (schema object : Bytes) :
    filters.isIncludedCi fold schema object =
        filters.isIncludedBy (fun left right => fold left = fold right) schema object ↔
      (filters.isIncluded schema object = true →
        ∀ objects, get schema filters.excluded = some objects →
          ∀ entry ∈ objects, fold object ≠ fold entry) := by
  by_cases spelled : filters.isIncluded schema object = true
  · obtain ⟨schemaIncluded, -, listed⟩ := isIncluded_iff.mp spelled
    have folded : filters.included = [] ∨ (get schema filters.included).any
        (List.any · fun entry => fold object = fold entry) = true := by
      refine listed.imp_right fun found => ?_
      cases entry : get schema filters.included with
      | none => simp [entry] at found
      | some objects =>
        have inside : object ∈ objects := by simpa [entry] using found
        exact any_eq_true.mpr ⟨object, inside, decide_eq_true rfl⟩
    have others : filters.isIncludedBy (fun left right => fold left = fold right) schema object =
        true ↔ (get schema filters.excluded).any
          (List.any · fun entry => fold object = fold entry) = false := by
      unfold isIncludedBy
      split_ifs <;> simp_all
    have answer : filters.isIncludedCi fold schema object = true := by
      simp [isIncludedCi, schemaIncluded, spelled]
    rw [answer, eq_comm, others]
    cases get schema filters.excluded with
    | none => simp
    | some objects => simp [spelled]
  · simp [isIncludedCi, isIncludedBy, spelled]

/-- An excluded routine, spelled in lower case by the server. -/
theorem isIncludedCi_lower_case :
    let filters : ObjectFilters := ⟨⟨[], []⟩, [], [(ascii "s".toList, [ascii "P".toList])]⟩
    filters.isIncludedCi (·.map Sql.toLower) (ascii "s".toList) (ascii "p".toList) = true ∧
      filters.isIncludedBy (fun left right => left.map Sql.toLower = right.map Sql.toLower)
        (ascii "s".toList) (ascii "p".toList) = false := by
  decide

end ObjectFilters

/-! ## Triggers -/

abbrev TriggerFilter := List (Bytes × ObjectFilter)

structure TriggerFilters where
  tables : ObjectFilters
  included : TriggerFilter
  excluded : TriggerFilter

namespace TriggerFilters

/-- The set of triggers that a filter holds for a table. -/
def find (filter : TriggerFilter) (schema table : Bytes) : Option (List Bytes) :=
  (get schema filter).bind (get table)

/-- Whether a set of triggers stands for the trigger; an empty one stands for all. -/
def covers (trigger : Bytes) (triggers : List Bytes) : Bool :=
  triggers = [] ∨ trigger ∈ triggers

def isIncluded (filters : TriggerFilters) (schema table trigger : Bytes) : Bool :=
  if ¬ filters.tables.isIncluded schema table then false
  else if (find filters.excluded schema table).any (covers trigger) then false
  else if filters.included = [] then true
  else (find filters.included schema table).any (covers trigger)

/-- The set of a table when a trigger is added; an empty name stands for all triggers. -/
def addName (trigger : Bytes) : Option (List Bytes) → List Bytes
  | none => if trigger = [] then [] else [trigger]
  | some triggers =>
    if trigger = [] then [] else if triggers ≠ [] then triggers.insert trigger else triggers

def add (filter : TriggerFilter) (request : Bytes × Bytes × Bytes) :
    TriggerFilter :=
  alter request.1 (fun tables => alter request.2.1 (addName request.2.2) (tables.getD [])) filter

def errorOnConflicts (filters : TriggerFilters) : Bool :=
  findMatches filters.included filters.excluded fun included excluded =>
    findMatches included excluded fun included excluded =>
      if included ≠ [] ∧ excluded ≠ [] then Db.errorOnConflicts included excluded
      else if (included = []) ≠ (excluded = []) then excluded = []
      else true

def checkTables (expected : ObjectFilter) (actual : List Bytes) : Bool :=
  expected.any (·.1 ∉ actual)

/-- The check of the tables that triggers refer to. -/
def checkTriggers (filters : TriggerFilters) (list : TriggerFilter) (included : Bool) : Bool :=
  list.any fun entry =>
    (included && (get entry.1 filters.tables.excluded).any fun tables =>
      entry.2.any (·.1 ∈ tables)) ||
    match get entry.1 filters.tables.included with
    | none => filters.tables.included ≠ [] && checkTables entry.2 []
    | some tables => checkTables entry.2 tables

def errorOnCrossFiltersConflicts (filters : TriggerFilters) : Bool :=
  filters.tables.schemas.checkSchemas filters.included true ||
    filters.tables.schemas.checkSchemas filters.excluded false ||
    filters.checkTriggers filters.included true || filters.checkTriggers filters.excluded false

variable {schema table : Bytes}

theorem find_eq_some {filter : TriggerFilter} {triggers : List Bytes}
    (found : find filter schema table = some triggers) :
    ∃ tables, get schema filter = some tables ∧ get table tables = some triggers :=
  Option.bind_eq_some_iff.mp found

/-- The tables of included triggers are included. -/
theorem isIncluded_table {filters : TriggerFilters} {triggers : List Bytes}
    (clean : filters.errorOnCrossFiltersConflicts = false)
    (found : find filters.included schema table = some triggers) :
    filters.tables.isIncluded schema table = true := by
  obtain ⟨tables, found, inner⟩ := find_eq_some found
  simp only [errorOnCrossFiltersConflicts, Bool.or_eq_false_iff] at clean
  obtain ⟨⟨⟨schemas, -⟩, checked⟩, -⟩ := clean
  rw [checkTriggers, any_eq_false] at checked
  have passed := checked _ (mem_of_get found)
  have member := mem_of_get inner
  simp only [Bool.or_eq_true, not_or, Bool.not_eq_true] at passed
  refine ObjectFilters.isIncluded_iff.mpr
    ⟨SchemaFilters.isIncluded_of_get schemas found, ?_, ?_⟩
  · cases other : get schema filters.tables.excluded with
    | none => rfl
    | some excluded =>
      have free := passed.1
      rw [other] at free
      have absent := any_eq_false.mp free _ member
      exact decide_eq_false (by simpa using absent)
  · have listed := passed.2
    cases other : get schema filters.tables.included with
    | none =>
      rw [other] at listed
      by_contra missing
      have nonempty : filters.tables.included ≠ [] := fun empty => missing (.inl empty)
      simp only [nonempty, ne_eq, not_false_eq_true, decide_true, Bool.true_and, checkTables,
        any_eq_false] at listed
      exact listed _ member (by simp)
    | some included =>
      rw [other] at listed
      have present := any_eq_false.mp listed _ member
      exact .inr (by simpa using present)

/-- What the check of the triggers of one table lets pass. -/
theorem of_errorOnConflicts {filters : TriggerFilters} (clean : filters.errorOnConflicts = false)
    (found : find filters.included schema table = some included)
    (found' : find filters.excluded schema table = some excluded) :
    excluded ≠ [] ∧ ∀ trigger ∈ included, trigger ∉ excluded := by
  obtain ⟨tables, found, inner⟩ := find_eq_some found
  obtain ⟨tables', found', inner'⟩ := find_eq_some found'
  by_contra conflict
  refine Bool.false_ne_true (clean.symm.trans ?_)
  refine findMatches_of_get found found' (findMatches_of_get inner inner' ?_)
  by_cases every : excluded = []
  · by_cases all : included = [] <;> simp [every]
  · have nonempty : included ≠ [] := by
      rintro rfl
      exact conflict ⟨every, fun _ none_ => absurd none_ not_mem_nil⟩
    rw [if_pos ⟨nonempty, every⟩]
    simp only [every, ne_eq, not_false_eq_true, true_and, not_forall, not_not] at conflict
    obtain ⟨trigger, inside, outside⟩ := conflict
    exact errorOnConflicts_of_mem inside outside

theorem find_add (filter : TriggerFilter) (request : Bytes × Bytes × Bytes) (schema table : Bytes) :
    find (add filter request) schema table =
      if schema = request.1 ∧ table = request.2.1 then
        some (addName request.2.2 (find filter schema table))
      else find filter schema table := by
  have inner (tables : Option ObjectFilter) :
      get table (tables.getD []) = tables.bind (get table) := by
    cases tables <;> rfl
  rw [find, add, get_alter]
  by_cases here : schema = request.1
  · by_cases there : table = request.2.1
    · rw [if_pos here, if_pos ⟨here, there⟩, Option.bind_some, get_alter, if_pos there,
        ← there, inner, ← here, find]
    · rw [if_pos here, if_neg (there ·.2), Option.bind_some, get_alter, if_neg there, inner,
        ← here, find]
  · rw [if_neg here, if_neg (here ·.1), find]

/-- What the requests for a table leave in the filter. -/
def Holds (asked : Bytes → Prop) : Option (List Bytes) → Prop
  | none => ∀ trigger, ¬ asked trigger
  | some triggers =>
    (asked [] ∧ triggers = []) ∨
      (¬ asked [] ∧ triggers ≠ [] ∧ ∀ trigger, trigger ∈ triggers ↔ asked trigger)

theorem Holds.addName {asked : Bytes → Prop} {found : Option (List Bytes)}
    (holds : Holds asked found) (trigger : Bytes) :
    Holds (fun other => asked other ∨ other = trigger) (some (addName trigger found)) := by
  by_cases all : trigger = []
  · left
    subst all
    exact ⟨.inr rfl, by cases found <;> rfl⟩
  cases found with
  | none =>
    right
    rw [TriggerFilters.addName, if_neg all]
    refine ⟨?_, cons_ne_nil _ _, fun other => ?_⟩
    · rintro (asked | same)
      · exact holds _ asked
      · exact all same.symm
    · rw [mem_singleton]
      exact ⟨.inr, Or.rec (absurd · (holds other)) id⟩
  | some triggers =>
    rw [TriggerFilters.addName, if_neg all]
    rcases holds with ⟨asked, rfl⟩ | ⟨notAll, nonempty, listed⟩
    · exact .inl ⟨.inl asked, rfl⟩
    · right
      rw [if_pos nonempty]
      refine ⟨?_, ne_nil_of_mem mem_insert_self, fun other => ?_⟩
      · rintro (asked | same)
        · exact notAll asked
        · exact all same.symm
      · rw [mem_insert_iff, listed, or_comm]

theorem holds_requests (requests : List (Bytes × Bytes × Bytes)) (schema table : Bytes) :
    Holds (fun trigger => (schema, table, trigger) ∈ requests)
      (find (requests.foldl add []) schema table) := by
  induction requests using List.reverseRecOn with
  | nil => exact fun _ => not_mem_nil
  | append_singleton requests request ih =>
    obtain ⟨schema', table', trigger'⟩ := request
    rw [foldl_append, foldl_cons, foldl_nil, find_add]
    simp only [mem_append, mem_singleton, Prod.mk.injEq]
    split
    · next here =>
      obtain ⟨rfl, rfl⟩ := here
      simpa using ih.addName trigger'
    · next other =>
      have unchanged (trigger : Bytes) :
          ¬ (schema = schema' ∧ table = table' ∧ trigger = trigger') :=
        fun same => other ⟨same.1, same.2.1⟩
      simpa only [unchanged, or_false] using ih

end TriggerFilters

/-! ## All filters -/

/-- What the options ask for, in the order of the requests. -/
structure FilterRequests where
  includedUsers : List Account := []
  excludedUsers : List Account := []
  includedSchemas : List Bytes := []
  excludedSchemas : List Bytes := []
  includedTables : List (Bytes × Bytes) := []
  excludedTables : List (Bytes × Bytes) := []
  includedTriggers : List (Bytes × Bytes × Bytes) := []
  excludedTriggers : List (Bytes × Bytes × Bytes) := []

namespace FilterRequests

open TriggerFilters (Holds covers find holds_requests)

variable (requests : FilterRequests)

def users : UserFilters :=
  ⟨requests.includedUsers, requests.excludedUsers⟩

def schemas : SchemaFilters :=
  ⟨requests.includedSchemas.foldl (fun names name => names.insert name) [],
    requests.excludedSchemas.foldl (fun names name => names.insert name) []⟩

def tables : ObjectFilters :=
  ⟨requests.schemas, requests.includedTables.foldl ObjectFilters.add [],
    requests.excludedTables.foldl ObjectFilters.add []⟩

def triggers : TriggerFilters :=
  ⟨requests.tables, requests.includedTriggers.foldl TriggerFilters.add [],
    requests.excludedTriggers.foldl TriggerFilters.add []⟩

/-- Whether one of the checks of the filters reports a conflict. -/
def conflicts : Bool :=
  requests.users.errorOnConflicts || requests.schemas.errorOnConflicts ||
    requests.tables.errorOnConflicts || requests.triggers.errorOnConflicts ||
    requests.tables.errorOnCrossFiltersConflicts || requests.triggers.errorOnCrossFiltersConflicts

theorem mem_schemas {names : List Bytes} {name : Bytes} (asked : name ∈ names) :
    name ∈ names.foldl (fun names name => names.insert name) [] := by
  induction names using List.reverseRecOn with
  | nil => cases asked
  | append_singleton names last ih =>
    rw [foldl_append, foldl_cons, foldl_nil, mem_insert_iff]
    rcases mem_append.mp asked with earlier | now
    · exact .inr (ih earlier)
    · exact .inl (mem_singleton.mp now)

theorem get_tables {requests : List (Bytes × Bytes)} {schema object : Bytes}
    (asked : (schema, object) ∈ requests) :
    ∃ objects, get schema (requests.foldl ObjectFilters.add []) = some objects ∧
      object ∈ objects := by
  induction requests using List.reverseRecOn with
  | nil => cases asked
  | append_singleton requests last ih =>
    rw [foldl_append, foldl_cons, foldl_nil, ObjectFilters.add, get_alter]
    rcases mem_append.mp asked with earlier | now
    · obtain ⟨objects, found, inside⟩ := ih earlier
      split
      · next here =>
        rw [← here, found]
        exact ⟨_, rfl, mem_insert_of_mem inside⟩
      · exact ⟨objects, found, inside⟩
    · obtain rfl := mem_singleton.mp now
      rw [if_pos rfl]
      exact ⟨_, rfl, mem_insert_self⟩

/--
An included trigger is let through unless its whole table was included as well and the trigger
was excluded by name.
-/
theorem isIncluded_trigger_iff {requests : FilterRequests} {schema table trigger : Bytes}
    (clean : requests.triggers.errorOnConflicts = false)
    (cross : requests.triggers.errorOnCrossFiltersConflicts = false)
    (asked : (schema, table, trigger) ∈ requests.includedTriggers) :
    requests.triggers.isIncluded schema table trigger = true ↔
      ¬ ((schema, table, []) ∈ requests.includedTriggers ∧
        (schema, table, trigger) ∈ requests.excludedTriggers) := by
  have inside : Holds _ (find requests.triggers.included _ _) :=
    holds_requests requests.includedTriggers schema table
  have outside : Holds _ (find requests.triggers.excluded _ _) :=
    holds_requests requests.excludedTriggers schema table
  cases found : find requests.triggers.included schema table with
  | none =>
    rw [found] at inside
    exact absurd asked (inside trigger)
  | some included =>
    rw [found] at inside
    have covered : covers trigger included = true := by
      rcases inside with ⟨-, every⟩ | ⟨-, -, listed⟩
      · simp [covers, every]
      · simp [covers, listed, asked]
    have answer : requests.triggers.isIncluded schema table trigger = true ↔
        (find requests.triggers.excluded schema table).any
          (covers trigger) = false := by
      have table' := TriggerFilters.isIncluded_table cross found
      simp only [TriggerFilters.isIncluded]
      split_ifs <;> simp_all
    rw [answer]
    cases found' : find requests.triggers.excluded schema table with
    | none =>
      rw [found'] at outside
      simp [outside trigger]
    | some excluded =>
      rw [found'] at outside
      obtain ⟨some_, apart⟩ := TriggerFilters.of_errorOnConflicts clean found found'
      obtain ⟨-, -, listed'⟩ := outside.resolve_left (some_ ·.2)
      rcases inside with ⟨all, every⟩ | ⟨notAll, -, listed⟩
      · simp [covers, some_, listed', all]
      · have free := apart trigger ((listed trigger).mpr asked)
        simp [covers, some_, free, notAll]

/--
Without conflicts, all users, schemas and tables that were included are let through, and a
trigger unless its whole table was included and it was excluded by name.
-/
theorem included_iff (clean : requests.conflicts = false) :
    (∀ account ∈ requests.includedUsers, requests.users.isIncluded account = true) ∧
      (∀ schema ∈ requests.includedSchemas, requests.schemas.isIncluded schema = true) ∧
      (∀ table ∈ requests.includedTables, requests.tables.isIncluded table.1 table.2 = true) ∧
      ∀ trigger ∈ requests.includedTriggers, trigger.2.2 ≠ [] →
        (requests.triggers.isIncluded trigger.1 trigger.2.1 trigger.2.2 = true ↔
          ¬ ((trigger.1, trigger.2.1, []) ∈ requests.includedTriggers ∧
            trigger ∈ requests.excludedTriggers)) := by
  simp only [conflicts, Bool.or_eq_false_iff] at clean
  obtain ⟨⟨⟨⟨⟨users, schemas⟩, tables⟩, triggers⟩, crossTables⟩, crossTriggers⟩ := clean
  refine ⟨?_, ?_, ?_, ?_⟩
  · intro account asked
    exact UserFilters.isIncluded_of_mem users asked
  · intro schema asked
    exact SchemaFilters.isIncluded_of_mem schemas (mem_schemas asked)
  · intro table asked
    obtain ⟨objects, found, inside⟩ := get_tables asked
    exact ObjectFilters.isIncluded_of_get tables crossTables found inside
  · intro trigger asked _
    exact isIncluded_trigger_iff triggers crossTriggers asked

/-- A trigger is asked for with all others of its table, one of which is excluded. -/
theorem included_iff_one :
    let s := ascii "s".toList
    let t := ascii "t".toList
    let q := ascii "q".toList
    let r := ascii "r".toList
    let requests : FilterRequests :=
      { includedSchemas := [s]
        excludedSchemas := [r]
        includedTables := [(s, t)]
        excludedTables := [(s, r)]
        includedTriggers := [(s, t, q), (s, t, [])]
        excludedTriggers := [(s, t, r)] }
    requests.conflicts = false ∧ requests.triggers.isIncluded s t q = true ∧
      requests.triggers.isIncluded s t r = false := by
  refine ⟨by decide, ?_, by decide⟩
  exact ((included_iff _ (by decide)).2.2.2 (_, _, _) mem_cons_self (by decide)).mpr
    (by decide)

/-- The trigger is asked for, but lost among all triggers of the table. -/
theorem included_trigger_lost :
    let s := ascii "s".toList
    let t := ascii "t".toList
    let r := ascii "r".toList
    let requests : FilterRequests :=
      { includedTriggers := [(s, t, r), (s, t, [])], excludedTriggers := [(s, t, r)] }
    requests.conflicts = false ∧ (s, t, r) ∈ requests.includedTriggers ∧
      requests.triggers.isIncluded s t r = false := by
  decide

end FilterRequests

end MariadbShell.Db
