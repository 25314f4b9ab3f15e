import MariadbShell.Dump.DeferredIndexes

/-!
# Re-creation of indexes

The task that adds the indexes of a table once its data is loaded. The definitions are put
into batches, one statement `ALTER TABLE` for each; a batch that fills the directory for
temporary files is cut in two.
-/

namespace MariadbShell.Load.IndexRecreation

open List
open Dump (IndexInfo IndexStorage)
open ImportTable (Bytes ascii)
open Sql

/-- A definition of an index, with the list that it comes from. -/
structure Definition where
  storage : IndexStorage
  text : Bytes
deriving DecidableEq, Repr

def fulltext (info : IndexInfo) : List Definition := info.fulltext.map (⟨.fulltext, ·⟩)

def spatial (info : IndexInfo) : List Definition := info.spatial.map (⟨.spatial, ·⟩)

def regular (info : IndexInfo) : List Definition := info.regular.map (⟨.regular, ·⟩)

/-- The batches in the order of their statements; the first one can be empty. -/
def batches (supportsParallelIndexCreation : Bool) (info : IndexInfo) :
    List (List Definition) :=
  let singleBatch := !supportsParallelIndexCreation || info.hasVirtualColumns || info.fulltext ≠ []
  ((fulltext info).take 1 ++ (if singleBatch then spatial info else []) ++ regular info) ::
    ((if ¬ singleBatch ∧ info.spatial ≠ [] then [spatial info] else []) ++
      ((fulltext info).drop 1).map fun definition => [definition])

def query (key : Bytes) (batch : List Definition) : Bytes :=
  (ascii "ALTER TABLE ".toList ++ key ++ Chr.space ::
    batch.flatMap fun definition =>
      ascii "ADD ".toList ++ definition.text ++ [Chr.comma]).dropLast

inductive AlterResult where
  | success
  | tempFileWriteFailure
  | error
deriving DecidableEq, Repr

structure Alter where
  definitions : List Definition
  query : Bytes
  success : Bool
deriving DecidableEq, Repr

/--
The loop of `execute`: the statements, and whether none of them ended the task. The server
answers the statement of the given number.
-/
def execute (key : Bytes) (server : Nat → List Definition → AlterResult) (number : Nat) :
    List (List Definition) → List Alter × Bool
  | [] => ([], true)
  | batch :: rest =>
    match server number batch with
    | .success =>
      let others := execute key server (number + 1) rest
      (⟨batch, query key batch, true⟩ :: others.1, others.2)
    | .tempFileWriteFailure =>
      if batch.length ≤ 1 then ([⟨batch, query key batch, false⟩], false)
      else
        let newSize := batch.length / 2
        let others :=
          execute key server (number + 1) (batch.take newSize :: batch.drop newSize :: rest)
        (⟨batch, query key batch, false⟩ :: others.1, others.2)
    | .error => ([⟨batch, query key batch, false⟩], false)
termination_by batches => (batches.map fun batch => max 1 (2 * batch.length - 1)).sum
decreasing_by
  all_goals
    simp only [map_cons, sum_cons, length_take, length_drop]
    omega

/-- Statements fail for want of space only, and only those with two or more indexes. -/
def OnlySpace (server : Nat → List Definition → AlterResult) : Prop :=
  ∀ number batch, server number batch = .success ∨
    server number batch = .tempFileWriteFailure ∧ 2 ≤ batch.length

variable {server : Nat → List Definition → AlterResult}

/-- The statements that succeed add the definitions of the batches, in their order. -/
theorem execute_success (key : Bytes) (onlySpace : OnlySpace server) (number : Nat)
    (list : List (List Definition)) :
    (execute key server number list).2 = true ∧
      ((execute key server number list).1.filter (·.success)).flatMap (·.definitions) =
        list.flatten := by
  induction number, list using execute.induct key server with
  | case1 number =>
    rw [execute]
    exact ⟨rfl, rfl⟩
  | case2 number batch rest answer ih =>
    rw [execute, answer]
    exact ⟨ih.1, congrArg (batch ++ ·) ih.2⟩
  | case3 number batch rest answer small =>
    obtain success | ⟨-, large⟩ := onlySpace number batch
    · rw [answer] at success
      cases success
    · omega
  | case4 number batch rest answer large newSize ih =>
    rw [execute, answer]
    dsimp only
    rw [if_neg large]
    refine ⟨ih.1, ih.2.trans ?_⟩
    simp only [flatten_cons, ← append_assoc, take_append_drop]
  | case5 number batch rest answer =>
    obtain success | ⟨full, -⟩ := onlySpace number batch
    · rw [answer] at success
      cases success
    · rw [answer] at full
      cases full

/-- A part of a batch is the batch of a statement. -/
theorem execute_sublist (key : Bytes) (number : Nat) (list : List (List Definition)) :
    ∀ alter ∈ (execute key server number list).1,
      ∃ batch ∈ list, alter.definitions.Sublist batch := by
  induction number, list using execute.induct key server with
  | case1 number =>
    rw [execute]
    exact fun _ => nofun
  | case2 number batch rest answer ih =>
    rw [execute, answer]
    refine forall_mem_cons.mpr ⟨⟨batch, mem_cons_self, .refl _⟩, ?_⟩
    intro alter member
    obtain ⟨other, inside, part⟩ := ih alter member
    exact ⟨other, mem_cons_of_mem _ inside, part⟩
  | case3 number batch rest answer small =>
    rw [execute, answer]
    dsimp only
    rw [if_pos small]
    exact forall_mem_singleton.mpr ⟨batch, mem_cons_self, .refl _⟩
  | case4 number batch rest answer large newSize ih =>
    rw [execute, answer]
    dsimp only
    rw [if_neg large]
    refine forall_mem_cons.mpr ⟨⟨batch, mem_cons_self, .refl _⟩, ?_⟩
    intro alter member
    obtain ⟨other, inside, part⟩ := ih alter member
    rw [mem_cons, mem_cons] at inside
    rcases inside with rfl | rfl | inside
    · exact ⟨batch, mem_cons_self, part.trans (take_sublist _ _)⟩
    · exact ⟨batch, mem_cons_self, part.trans (drop_sublist _ _)⟩
    · exact ⟨other, mem_cons_of_mem _ inside, part⟩
  | case5 number batch rest answer =>
    rw [execute, answer]
    exact forall_mem_singleton.mpr ⟨batch, mem_cons_self, .refl _⟩

/-- The batches hold each definition once. -/
theorem flatten_batches (parallel : Bool) (info : IndexInfo) :
    (batches parallel info).flatten.Perm (fulltext info ++ spatial info ++ regular info) := by
  have singles (list : List Definition) :
      (list.map fun definition => [definition]).flatten = list := by
    simp [← flatMap_def]
  simp only [batches, flatten_cons, flatten_append, singles]
  by_cases single : (!parallel || info.hasVirtualColumns || info.fulltext ≠ []) = true
  · rw [if_pos single, if_neg fun other => other.1 single, flatten_nil, nil_append]
    calc
      _ = (fulltext info).take 1 ++ ((spatial info ++ regular info) ++ (fulltext info).drop 1) := by
        simp only [append_assoc]
      List.Perm _ ((fulltext info).take 1 ++ ((fulltext info).drop 1 ++
          (spatial info ++ regular info))) :=
        perm_append_comm.append_left _
      _ = fulltext info ++ spatial info ++ regular info := by
        rw [← append_assoc, take_append_drop, append_assoc]
  · have none_ : fulltext info = [] := by simp_all [fulltext]
    rw [if_neg single, none_]
    by_cases empty : info.spatial = []
    · simp [empty, spatial]
    · rw [if_pos ⟨single, empty⟩]
      simpa using perm_append_comm

theorem fulltext_batches (parallel : Bool) (info : IndexInfo) :
    ∀ batch ∈ batches parallel info, batch.countP (·.storage = .fulltext) ≤ 1 := by
  have spatials : (spatial info).countP (·.storage = .fulltext) = 0 := by
    simp [spatial]
  have regulars : (regular info).countP (·.storage = .fulltext) = 0 := by
    simp [regular]
  refine forall_mem_cons.mpr ⟨?_, fun batch member => ?_⟩
  · rw [countP_append, countP_append]
    have first := @countP_le_length _ (·.storage = .fulltext) ((fulltext info).take 1)
    rw [length_take] at first
    split <;> simp only [spatials, countP_nil] <;> omega
  · rcases mem_append.mp member with other | other
    · split at other
      · rw [mem_singleton.mp other, spatials]
        exact Nat.zero_le 1
      · cases other
    · obtain ⟨definition, -, rfl⟩ := mem_map.mp other
      exact countP_le_length

/--
However often statements with two or more indexes run out of space, every definition is added
by one successful statement, and none has two fulltext indexes.
-/
theorem execute_exactly_once (key : Bytes) (parallel : Bool) (info : IndexInfo)
    (onlySpace : OnlySpace server) :
    let result := execute key server 0 (batches parallel info)
    result.2 = true ∧
      ((result.1.filter (·.success)).flatMap (·.definitions)).Perm
        (fulltext info ++ spatial info ++ regular info) ∧
      ∀ alter ∈ result.1, alter.definitions.countP (·.storage = .fulltext) ≤ 1 := by
  obtain ⟨ended, added⟩ := execute_success key onlySpace 0 (batches parallel info)
  refine ⟨ended, ?_, ?_⟩
  · rw [added]
    exact flatten_batches parallel info
  · intro alter member
    obtain ⟨batch, inside, part⟩ := execute_sublist key 0 _ alter member
    exact part.countP_le.trans (fulltext_batches parallel info batch inside)

/-- The directory for temporary files is full for the first statement. -/
def fullAtFirst (number : Nat) (batch : List Definition) : AlterResult :=
  if number = 0 ∧ 2 ≤ batch.length then .tempFileWriteFailure else .success

theorem onlySpace_fullAtFirst : OnlySpace fullAtFirst := by
  intro number batch
  unfold fullAtFirst
  split
  · next full => exact .inr ⟨rfl, full.2⟩
  · exact .inl rfl

/-- Three indexes; the directory is full for the first statement. -/
theorem execute_exactly_once_split :
    let server : Nat → List Definition → AlterResult :=
      fun number batch => if number = 0 ∧ 2 ≤ batch.length then .tempFileWriteFailure else .success
    let info : IndexInfo := ⟨[ascii "a".toList], [], [ascii "b".toList, ascii "c".toList], false⟩
    OnlySpace server ∧ (execute [] server 0 (batches true info)).2 = true :=
  ⟨onlySpace_fullAtFirst, (execute_exactly_once [] true _ onlySpace_fullAtFirst).1⟩

/--
The indexes that are taken out of a statement are added again, each by one successful
statement, however often the space runs out.
-/
theorem deferred_added_once (table : Dump.CreateTable) (tableName key : Bytes)
    (fulltextOnly parallel : Bool) (onlySpace : OnlySpace server) :
    ∃ deferred, Dump.checkCreateTableForIndexes table.text tableName fulltextOnly = .ok deferred ∧
      let result := execute key server 0 (batches parallel deferred.indexInfo)
      result.2 = true ∧ ((result.1.filter (·.success)).flatMap (·.definitions)).Perm
        (if Dump.isWord table.engine ["Lakehouse"] then []
          else [IndexStorage.fulltext, .spatial, .regular].flatMap fun storage =>
            ((table.definitions.filter fun clause =>
              table.moves fulltextOnly clause && clause.storage = storage).map
                Dump.Clause.statement).map (.mk storage)) := by
  obtain ⟨deferred, checked, -, lists, -⟩ := table.checked tableName fulltextOnly
  obtain ⟨ended, added⟩ := execute_success key onlySpace 0 (batches parallel
    (if Dump.isWord table.engine ["Lakehouse"] then {} else deferred).indexInfo)
  refine ⟨_, checked, ended, added ▸ (flatten_batches parallel _).trans ?_⟩
  split
  · exact .nil
  · have moved (storage : IndexStorage) : (table.definitions.filter fun clause =>
        table.moves fulltextOnly clause && clause.storage = storage).map Dump.Clause.statement =
          deferred.list storage := by
      rw [lists]
      refine congrArg _ (filter_congr fun clause member => ?_)
      rw [table.moved_eq (table.isOther clause member) fulltextOnly]
    simp only [moved]
    rw [append_assoc, ← append_nil (regular _)]
    rfl

/-- A table with the keys `b` and `a`. -/
def twoKeysTable : Dump.CreateTable :=
  { Dump.lakehouseTable with
    definitions :=
      { gap := [.space Chr.newline]
        first := .run (ascii "KEY".toList)
        more :=
          [Dump.behindBlank (.name (ascii "b".toList)),
            Dump.behindBlank (.punctuation Chr.openParenthesis), ⟨[], .name (ascii "a".toList)⟩,
            ⟨[], .punctuation Chr.closeParenthesis⟩]
        trail := [.space Chr.newline] } :: Dump.lakehouseTable.definitions
    options := [.other ⟨[], .run (ascii "x".toList)⟩]
    formed := by decide
    fits := by decide
    isOther := by decide
    isKey := by decide
    hasOptions := cons_ne_nil _ _
    spaced := by decide
    optionsFit := ⟨rfl, trivial⟩ }

/-- The statement with both keys fails, and each of them is added by a statement of its own. -/
theorem deferred_added_once_two_keys :
    OnlySpace fullAtFirst ∧
      ∃ deferred, Dump.checkCreateTableForIndexes twoKeysTable.text [] false = .ok deferred ∧
        let result := execute [] fullAtFirst 0 (batches true deferred.indexInfo)
        result.2 = true ∧
          result.1.map (fun alter => (alter.definitions.length, alter.success)) =
            [(2, false), (1, true), (1, true)] := by
  obtain ⟨deferred, checked, ended, -⟩ :=
    deferred_added_once twoKeysTable [] [] false true onlySpace_fullAtFirst
  refine ⟨onlySpace_fullAtFirst, deferred, checked, ended, ?_⟩
  have statements : (Dump.checkCreateTableForIndexes twoKeysTable.text [] false).toOption.map
      (fun deferred => (execute [] fullAtFirst 0 (batches true deferred.indexInfo)).1.map
        fun alter => (alter.definitions.length, alter.success)) =
        some [(2, false), (1, true), (1, true)] := by
    decide +kernel
  rw [checked] at statements
  exact Option.some.inj statements

end MariadbShell.Load.IndexRecreation
