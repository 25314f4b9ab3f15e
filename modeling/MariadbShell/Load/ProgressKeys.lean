import MariadbShell.Lib.Decimal
import MariadbShell.Lib.Separated
import MariadbShell.ImportTable.Dialect

/-!
# Keys of the load progress log

The operations of a load and the keys under which the progress log keeps their status.
Names are put between backticks as they are, so a name that holds the text between two
names makes the key of another operation.
-/

namespace MariadbShell.Load

open List
open ImportTable (Bytes ascii)
open Lib.Decimal
open Lib.Search
open Lib.Separated

/-! ## Operations -/

inductive GlobalKind where
  | createUsers
  | maskingPolicyDdl
  | gtidUpdate
deriving DecidableEq, Repr

inductive SchemaKind where
  | schemaDdl
  | viewDdl
deriving DecidableEq, Repr

inductive TableKind where
  | tableDdl
  | triggersDdl
  | tableIndexes
  | analyzeTable
  | secondaryLoad
deriving DecidableEq, Repr

inductive Kind where
  | global (kind : GlobalKind)
  | schema (kind : SchemaKind)
  | table (kind : TableKind)
  | tableChunk
  | tableSubchunk
  | bulkLoad
deriving DecidableEq, Repr

def GlobalKind.op : GlobalKind → Bytes
  | .createUsers => ascii "CREATE-USERS".toList
  | .maskingPolicyDdl => ascii "MASKING-POLICY-DDL".toList
  | .gtidUpdate => ascii "GTID-UPDATE".toList

def SchemaKind.op : SchemaKind → Bytes
  | .schemaDdl => ascii "SCHEMA-DDL".toList
  | .viewDdl => ascii "VIEW-DDL".toList

def TableKind.op : TableKind → Bytes
  | .tableDdl => ascii "TABLE-DDL".toList
  | .triggersDdl => ascii "TRIGGERS-DDL".toList
  | .tableIndexes => ascii "TABLE-INDEX".toList
  | .analyzeTable => ascii "TABLE-ANALYZE".toList
  | .secondaryLoad => ascii "SECONDARY-LOAD".toList

def Kind.op : Kind → Bytes
  | .global kind => kind.op
  | .schema kind => kind.op
  | .table kind => kind.op
  | .tableChunk => ascii "TABLE-DATA".toList
  | .tableSubchunk => ascii "TABLE-SUB-DATA".toList
  | .bulkLoad => ascii "TABLE-DATA-BULK".toList

/-- The status entries; an empty partition name stands for no partition. -/
inductive Operation where
  | ofInstance (kind : GlobalKind)
  | ofSchema (kind : SchemaKind) (schema : Bytes)
  | ofTable (kind : TableKind) (schema table : Bytes)
  | tableChunk (schema table partition : Bytes) (chunk : Int)
  | tableSubchunk (schema table partition : Bytes) (chunk : Int) (subchunk : Nat)
  | bulkLoad (schema table partition : Bytes)
deriving DecidableEq, Repr

namespace Operation

def kind : Operation → Kind
  | .ofInstance kind => .global kind
  | .ofSchema kind _ => .schema kind
  | .ofTable kind _ _ => .table kind
  | .tableChunk .. => .tableChunk
  | .tableSubchunk .. => .tableSubchunk
  | .bulkLoad .. => .bulkLoad

/-! ## Keys -/

def backtick : UInt8 := 96

def colon : UInt8 := 58

def separator : Bytes :=
  [backtick, colon, backtick]

/-- The names of a table and, if there is one, of its partition. -/
def tableNames (schema table partition : Bytes) : Bytes :=
  schema ++ (separator ++ (table ++ if partition ≠ [] then separator ++ partition else []))

/-- What the key says about an operation of a kind. -/
def details : Operation → Bytes
  | .ofInstance _ => []
  | .ofSchema _ schema => [colon, backtick] ++ (schema ++ [backtick])
  | .ofTable _ schema table =>
    [colon, backtick] ++ (schema ++ (separator ++ (table ++ [backtick])))
  | .tableChunk schema table partition chunk =>
    [colon, backtick] ++ (tableNames schema table partition ++
      ([backtick, colon] ++ decimalInt chunk))
  | .tableSubchunk schema table partition chunk subchunk =>
    [colon, backtick] ++ (tableNames schema table partition ++
      ([backtick, colon] ++ (decimalInt chunk ++ colon :: decimal subchunk)))
  | .bulkLoad schema table partition =>
    [colon, backtick] ++ (tableNames schema table partition ++ [backtick])

def key (operation : Operation) : Bytes :=
  operation.kind.op ++ operation.details

end Operation

/-! ## The kind in a key -/

def Kind.ofOp (op : Bytes) : Option Kind :=
  [.global .createUsers, .global .maskingPolicyDdl, .global .gtidUpdate, .schema .schemaDdl,
    .schema .viewDdl, .table .tableDdl, .table .triggersDdl, .table .tableIndexes,
    .table .analyzeTable, .table .secondaryLoad, .tableChunk, .tableSubchunk, .bulkLoad].find?
      fun kind => kind.op = op

theorem Kind.ofOp_op (kind : Kind) : Kind.ofOp kind.op = some kind := by
  rcases kind with kind | kind | kind | _ | _ | _ <;> first | rfl | cases kind <;> rfl

theorem Kind.op_inj {left right : Kind} (same : left.op = right.op) : left = right := by
  have found := Kind.ofOp_op left
  rw [same, Kind.ofOp_op] at found
  exact (Option.some.inj found).symm

theorem Kind.colon_not_mem_op (kind : Kind) : Operation.colon ∉ kind.op := by
  rcases kind with kind | kind | kind | _ | _ | _ <;> first | decide | cases kind <;> decide

namespace Operation

theorem details_colon (operation : Operation) :
    ∃ rest, operation.details ++ [colon] = [colon] ++ rest := by
  cases operation with
  | ofInstance kind => exact ⟨[], rfl⟩
  | _ => exact ⟨_, rfl⟩

/-- The key of an operation tells its kind. -/
theorem key_split {left right : Operation} (same : left.key = right.key) :
    left.kind = right.kind ∧ left.details = right.details := by
  obtain ⟨rest, restEq⟩ := left.details_colon
  obtain ⟨rest', restEq'⟩ := right.details_colon
  have longer : left.kind.op ++ ([colon] ++ rest) = right.kind.op ++ ([colon] ++ rest') := by
    rw [← restEq, ← restEq', ← append_assoc, ← append_assoc]
    exact congrArg (· ++ [colon]) same
  obtain ⟨ops, rests⟩ := split_first (free_singleton (Kind.colon_not_mem_op _))
    (free_singleton (Kind.colon_not_mem_op _)) longer
  refine ⟨Kind.op_inj ops, ?_⟩
  rw [rests, ← restEq'] at restEq
  exact append_cancel_right restEq

/-! ## Names that can be told apart -/

/-- Schemas and tables have names. -/
def Named : Operation → Prop
  | .ofInstance _ => True
  | .ofSchema _ schema => schema ≠ []
  | .ofTable _ schema table | .tableChunk schema table _ _ | .tableSubchunk schema table _ _ _
  | .bulkLoad schema table _ => schema ≠ [] ∧ table ≠ []

instance : DecidablePred Named
  | .ofInstance _ => .isTrue trivial
  | .ofSchema _ schema => inferInstanceAs (Decidable (schema ≠ []))
  | .ofTable _ schema table | .tableChunk schema table _ _ | .tableSubchunk schema table _ _ _
  | .bulkLoad schema table _ => inferInstanceAs (Decidable (schema ≠ [] ∧ table ≠ []))

/-- The name of a table can be found in front of a partition or at the end of the names. -/
def TableFree (table partition : Bytes) : Prop :=
  if partition ≠ [] then Free separator table.tail
  else ∀ offset < table.tail.length, offset + separator.length < table.tail.length →
    ¬ OccursAt separator table.tail offset

instance (table partition : Bytes) : Decidable (TableFree table partition) :=
  inferInstanceAs (Decidable (if partition ≠ [] then _ else _))

def NamesFree (schema table partition : Bytes) : Prop :=
  Free separator schema.tail ∧ TableFree table partition

instance (schema table partition : Bytes) : Decidable (NamesFree schema table partition) :=
  inferInstanceAs (Decidable (_ ∧ _))

/--
Behind their first characters, the names of an operation do not hold the text that is put
between two names.
-/
def Apart : Operation → Prop
  | .ofInstance _ | .ofSchema .. => True
  | .ofTable _ schema _ => Free separator schema.tail
  | .tableChunk schema table partition _ | .tableSubchunk schema table partition _ _
  | .bulkLoad schema table partition => NamesFree schema table partition

instance : DecidablePred Apart
  | .ofInstance _ | .ofSchema .. => .isTrue trivial
  | .ofTable _ schema _ => inferInstanceAs (Decidable (Free separator schema.tail))
  | .tableChunk schema table partition _ | .tableSubchunk schema table partition _ _
  | .bulkLoad schema table partition =>
    inferInstanceAs (Decidable (NamesFree schema table partition))

def Separable (operation : Operation) : Prop :=
  operation.Named ∧ operation.Apart

instance : DecidablePred Separable :=
  fun operation => inferInstanceAs (Decidable (operation.Named ∧ operation.Apart))

/-- The names in front of the first separator are the same, as each has a first character. -/
theorem split_name {name name' rest rest' : Bytes} (named : name ≠ []) (named' : name' ≠ [])
    (free : Free separator name.tail) (free' : Free separator name'.tail)
    (same : name ++ (separator ++ rest) = name' ++ (separator ++ rest')) :
    name = name' ∧ rest = rest' := by
  obtain ⟨first, more, rfl⟩ := exists_cons_of_ne_nil named
  obtain ⟨first', more', rfl⟩ := exists_cons_of_ne_nil named'
  obtain ⟨rfl, tails⟩ := List.cons.inj same
  obtain ⟨rfl, rests⟩ := split_first free free' tails
  exact ⟨rfl, rests⟩

/-- A name that holds a separator behind its first character can be cut there. -/
theorem cut_of_not_free_tail {name : Bytes} (taken : ¬ Free separator name.tail) :
    ∃ before behind, before ≠ [] ∧ before ≠ name ∧
      ∀ rest, before ++ (separator ++ (behind ++ rest)) = name ++ (separator ++ rest) := by
  obtain ⟨before, behind, shorter, cut⟩ := cut_of_not_free taken
  cases name with
  | nil => exact absurd shorter (Nat.not_lt_zero _)
  | cons first more =>
    refine ⟨first :: before, behind, cons_ne_nil _ _, ?_, fun rest => ?_⟩
    · rintro ⟨⟩
      exact Nat.lt_irrefl _ shorter
    · rw [cons_append, cons_append, ← append_assoc more]
      rw [tail_cons] at cut
      simp only [cut, append_assoc]

/-- A table in a partition is not taken for a table without one. -/
theorem not_tableFree_append {table partition : Bytes} (named : table ≠ [])
    (nonempty : partition ≠ []) : ¬ TableFree (table ++ (separator ++ partition)) [] := by
  intro free
  obtain ⟨first, more, rfl⟩ := exists_cons_of_ne_nil named
  have positive := length_pos_of_ne_nil nonempty
  have inside : more.length + separator.length < (more ++ (separator ++ partition)).length := by
    rw [length_append, length_append]
    omega
  refine free more.length (by exact Nat.lt_of_le_of_lt (Nat.le_add_right _ _) inside) inside ?_
  rw [cons_append, tail_cons, OccursAt, drop_left]
  exact prefix_append _ _

theorem tableNames_inj {schema schema' table table' partition partition' : Bytes}
    (named : schema ≠ [] ∧ table ≠ []) (named' : schema' ≠ [] ∧ table' ≠ [])
    (free : NamesFree schema table partition) (free' : NamesFree schema' table' partition')
    (same : tableNames schema table partition = tableNames schema' table' partition') :
    schema = schema' ∧ table = table' ∧ partition = partition' := by
  obtain ⟨schemaFree, tableFree⟩ := free
  obtain ⟨schemaFree', tableFree'⟩ := free'
  obtain ⟨schemas, rests⟩ := split_name named.1 named'.1 schemaFree schemaFree' same
  refine ⟨schemas, ?_⟩
  split at rests <;> split at rests
  case isFalse.isFalse empty empty' =>
    rw [append_nil, append_nil] at rests
    exact ⟨rests, by rw [not_not.mp empty, not_not.mp empty']⟩
  case isFalse.isTrue empty some' =>
    rw [append_nil] at rests
    rw [not_not.mp empty, rests] at tableFree
    exact absurd tableFree (not_tableFree_append named'.2 some')
  case isTrue.isFalse some_ empty' =>
    rw [append_nil] at rests
    rw [not_not.mp empty', ← rests] at tableFree'
    exact absurd tableFree' (not_tableFree_append named.2 some_)
  case isTrue.isTrue some_ some' =>
    rw [TableFree, if_pos some_] at tableFree
    rw [TableFree, if_pos some'] at tableFree'
    exact split_name named.2 named'.2 tableFree tableFree' rests

/-- What follows the names is behind the last backtick. -/
theorem split_names {names names' rest rest' : Bytes} (absent : backtick ∉ rest)
    (absent' : backtick ∉ rest')
    (same : [colon, backtick] ++ (names ++ backtick :: rest) =
      [colon, backtick] ++ (names' ++ backtick :: rest')) : names = names' ∧ rest = rest' :=
  split_last absent absent' (append_cancel_left same)

theorem backtick_not_mem_decimal (number : Nat) : backtick ∉ decimal number := by
  intro member
  exact absurd (decimal_digits member) (by decide)

theorem backtick_not_mem_decimalInt (number : Int) : backtick ∉ decimalInt number := by
  intro member
  exact absurd (decimalInt_symbols member) (by decide)

theorem colon_not_mem_decimal (number : Nat) : colon ∉ decimal number := by
  intro member
  exact absurd (decimal_digits member) (by decide)

/-- Operations whose names can be told apart have keys of their own. -/
theorem key_inj {left right : Operation} (separable : left.Separable)
    (separable' : right.Separable) (same : left.key = right.key) : left = right := by
  obtain ⟨kinds, texts⟩ := key_split same
  cases left with
  | ofInstance kind =>
    cases right with
    | ofInstance kind' =>
      cases kinds
      rfl
    | _ => cases kinds
  | ofSchema kind schema =>
    cases right with
    | ofSchema kind' schema' =>
      cases kinds
      obtain ⟨rfl, -⟩ := split_names (by simp) (by simp) texts
      rfl
    | _ => cases kinds
  | ofTable kind schema table =>
    cases right with
    | ofTable kind' schema' table' =>
      cases kinds
      obtain ⟨rfl, tables⟩ := split_name separable.1.1 separable'.1.1 separable.2 separable'.2
        (append_cancel_left texts)
      rw [append_cancel_right tables]
    | _ => cases kinds
  | tableChunk schema table partition chunk =>
    cases right with
    | tableChunk schema' table' partition' chunk' =>
      have absent (number : Int) : backtick ∉ colon :: decimalInt number := by
        rw [mem_cons]
        rintro (same | member)
        · exact absurd same (by decide)
        · exact backtick_not_mem_decimalInt number member
      obtain ⟨names, numbers⟩ := split_names (absent chunk) (absent chunk') texts
      obtain ⟨rfl, rfl, rfl⟩ := tableNames_inj separable.1 separable'.1 separable.2
        separable'.2 names
      rw [decimalInt_inj (List.cons.inj numbers).2]
    | _ => cases kinds
  | tableSubchunk schema table partition chunk subchunk =>
    cases right with
    | tableSubchunk schema' table' partition' chunk' subchunk' =>
      have absent (number : Int) (sub : Nat) :
          backtick ∉ colon :: (decimalInt number ++ colon :: decimal sub) := by
        rw [mem_cons, mem_append, mem_cons]
        rintro (same | member | same | member)
        · exact absurd same (by decide)
        · exact backtick_not_mem_decimalInt number member
        · exact absurd same (by decide)
        · exact backtick_not_mem_decimal sub member
      obtain ⟨names, numbers⟩ := split_names (absent chunk subchunk) (absent chunk' subchunk') texts
      obtain ⟨rfl, rfl, rfl⟩ := tableNames_inj separable.1 separable'.1 separable.2
        separable'.2 names
      obtain ⟨chunks, subchunks⟩ := split_last (colon_not_mem_decimal subchunk)
        (colon_not_mem_decimal subchunk') (List.cons.inj numbers).2
      rw [decimalInt_inj chunks, decimal_inj subchunks]
    | _ => cases kinds
  | bulkLoad schema table partition =>
    cases right with
    | bulkLoad schema' table' partition' =>
      obtain ⟨names, -⟩ := split_names (by simp) (by simp) texts
      obtain ⟨rfl, rfl, rfl⟩ := tableNames_inj separable.1 separable'.1 separable.2
        separable'.2 names
      rfl
    | _ => cases kinds

/-! ## Names that are mistaken for others -/

/-- The names of a table that cannot be told apart are those of another table. -/
theorem tableNames_collision {schema table partition : Bytes} (named : schema ≠ [] ∧ table ≠ [])
    (taken : ¬ NamesFree schema table partition) :
    ∃ schema' table' partition', (schema' ≠ [] ∧ table' ≠ []) ∧
      (schema', table', partition') ≠ (schema, table, partition) ∧
      tableNames schema' table' partition' = tableNames schema table partition := by
  by_cases schemaFree : Free separator schema.tail
  · have tableTaken : ¬ TableFree table partition := fun tableFree => taken ⟨schemaFree, tableFree⟩
    by_cases empty : partition = []
    · obtain ⟨first, more, rfl⟩ := exists_cons_of_ne_nil named.2
      rw [TableFree, if_neg (by simpa using empty), tail_cons] at tableTaken
      push Not at tableTaken
      obtain ⟨offset, -, inside, behind, occurs⟩ := tableTaken
      have cut : more = more.take offset ++ (separator ++ behind) := by
        rw [occurs, take_append_drop]
      have behind_ne : behind ≠ [] := by
        rintro rfl
        have lengths := congrArg List.length occurs
        rw [append_nil, length_drop] at lengths
        omega
      refine ⟨schema, first :: more.take offset, behind, ⟨named.1, cons_ne_nil _ _⟩, ?_, ?_⟩
      · intro same
        simp only [Prod.mk.injEq] at same
        exact behind_ne (same.2.2.trans empty)
      · rw [tableNames, tableNames, if_pos behind_ne, if_neg (by simpa using empty), cons_append,
          ← cut, append_nil]
    · rw [TableFree, if_pos empty] at tableTaken
      obtain ⟨before, behind, nonempty, different, cut⟩ := cut_of_not_free_tail tableTaken
      refine ⟨schema, before, behind ++ partition, ⟨named.1, nonempty⟩, ?_, ?_⟩
      · intro same
        exact different (Prod.mk.inj (Prod.mk.inj same).2).1
      · rw [tableNames, tableNames, if_pos (by simp [empty]), if_pos empty, cut]
  · obtain ⟨before, behind, nonempty, different, cut⟩ := cut_of_not_free_tail schemaFree
    refine ⟨before, behind ++ table, partition, ⟨nonempty, by simp [named.2]⟩, ?_, ?_⟩
    · intro same
      exact different (Prod.mk.inj same).1
    · rw [tableNames, tableNames, append_assoc behind, cut]

theorem key_collision {operation : Operation} (named : operation.Named)
    (taken : ¬ operation.Apart) :
    ∃ other : Operation, other.Named ∧ other ≠ operation ∧ other.kind = operation.kind ∧
      other.key = operation.key := by
  cases operation with
  | ofInstance kind => exact absurd trivial taken
  | ofSchema kind schema => exact absurd trivial taken
  | ofTable kind schema table =>
    obtain ⟨before, behind, nonempty, different, cut⟩ := cut_of_not_free_tail taken
    refine ⟨.ofTable kind before (behind ++ table), ⟨nonempty, by simp [named.2]⟩, ?_, rfl, ?_⟩
    · intro same
      exact different (ofTable.inj same).2.1
    · simp only [key, Operation.kind, details, append_assoc behind, cut]
  | tableChunk schema table partition chunk =>
    obtain ⟨schema', table', partition', named', differ, names⟩ := tableNames_collision named taken
    refine ⟨.tableChunk schema' table' partition' chunk, named', ?_, rfl, ?_⟩
    · intro same
      cases same
      exact differ rfl
    · simp only [key, kind, details, names]
  | tableSubchunk schema table partition chunk subchunk =>
    obtain ⟨schema', table', partition', named', differ, names⟩ := tableNames_collision named taken
    refine ⟨.tableSubchunk schema' table' partition' chunk subchunk, named', ?_, rfl, ?_⟩
    · intro same
      cases same
      exact differ rfl
    · simp only [key, kind, details, names]
  | bulkLoad schema table partition =>
    obtain ⟨schema', table', partition', named', differ, names⟩ := tableNames_collision named taken
    refine ⟨.bulkLoad schema' table' partition', named', ?_, rfl, ?_⟩
    · intro same
      cases same
      exact differ rfl
    · simp only [key, kind, details, names]

/--
Distinct operations have distinct keys if no name holds the text between two names behind its
first character; an operation with such a name shares its key with another one of its kind.
-/
theorem keys_distinct (operation : Operation) :
    (operation.Separable → ∀ other : Operation, other.Separable → operation ≠ other →
      operation.key ≠ other.key) ∧
      (operation.Named → ¬ operation.Separable →
        ∃ other : Operation, other.Named ∧ other ≠ operation ∧ other.kind = operation.kind ∧
          other.key = operation.key) :=
  ⟨fun separable _ separable' differ same => differ (key_inj separable separable' same),
    fun named taken => key_collision named fun apart => taken ⟨named, apart⟩⟩

theorem keys_distinct_backticks :
    Separable (.tableChunk (ascii "a`b".toList) (ascii "c:".toList) (ascii "`:d".toList) 0) ∧
      Separable (.tableChunk (ascii "a`b".toList) (ascii "c:".toList) [] 0) ∧
        key (.tableChunk (ascii "a`b".toList) (ascii "c:".toList) (ascii "`:d".toList) 0) ≠
          key (.tableChunk (ascii "a`b".toList) (ascii "c:".toList) [] 0) :=
  ⟨by decide, by decide, (keys_distinct _).1 (by decide) _ (by decide) (by decide)⟩

/-- Two tables whose status is kept under one key. -/
theorem keys_collide :
    Operation.ofTable .tableDdl (ascii "a`:`b".toList) (ascii "c".toList) ≠
        .ofTable .tableDdl (ascii "a".toList) (ascii "b`:`c".toList) ∧
      key (.ofTable .tableDdl (ascii "a`:`b".toList) (ascii "c".toList)) =
        key (.ofTable .tableDdl (ascii "a".toList) (ascii "b`:`c".toList)) := by
  decide

end Operation

end MariadbShell.Load
