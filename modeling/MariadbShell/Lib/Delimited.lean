import Mathlib

/-!
# Lines of delimited fields

Reading lines with a fixed number of fields, for any way of reading one field. What
was written as fields with separators between them and a line end after the last one
is read back as soon as each field is, in front of a separator and of a line end.
-/

namespace MariadbShell.Lib.Delimited

open List

inductive FieldEnd where
  | field
  | line
  | file
deriving DecidableEq, Repr

section Reading

variable {Symbol Value : Type} [DecidableEq Symbol]
  (readField : List Symbol → Option (Value × FieldEnd × List Symbol)) (lineEnd : List Symbol)

/-- The fields of a line with the given number of columns, and what follows the line. -/
def readLine : Nat → List Symbol → Option (List Value × List Symbol)
  | 0, input =>
    if lineEnd <+: input then some ([], input.drop lineEnd.length) else none
  | 1, input =>
    match readField input with
    | some (value, .line, rest) | some (value, .file, rest) => some ([value], rest)
    | _ => none
  | columns + 2, input =>
    match readField input with
    | some (value, .field, rest) =>
      (readLine (columns + 1) rest).map fun line => (value :: line.1, line.2)
    | _ => none

/-- The lines of the input, of which there are at most `fuel`. -/
def readLines (columns : Nat) : Nat → List Symbol → Option (List (List Value))
  | 0, input => if input = [] then some [] else none
  | fuel + 1, input =>
    if input = [] then some []
    else
      (readLine readField lineEnd columns input).bind fun line =>
        (readLines columns fuel line.2).map fun lines => line.1 :: lines

/-- The lines of a file. -/
def decode (columns : Nat) (file : List Symbol) : Option (List (List Value)) :=
  readLines readField lineEnd columns file.length file

end Reading

/-- A line of fields with separators between them. -/
def line {Symbol : Type} (separator lineEnd : List Symbol) (field : Nat → List Symbol)
    (columns : Nat) : List Symbol :=
  ((List.range columns).map fun index =>
    (if index ≠ 0 then separator else []) ++ field index).flatten ++ lineEnd

section RoundTrip

variable {Symbol Value : Type} [DecidableEq Symbol]
  {readField : List Symbol → Option (Value × FieldEnd × List Symbol)}
  {separator lineEnd : List Symbol}

/-- A field is read back in front of a separator and in front of a line end. -/
structure Reads (readField : List Symbol → Option (Value × FieldEnd × List Symbol))
    (separator lineEnd field : List Symbol) (value : Value) : Prop where
  separated : ∀ rest, readField (field ++ (separator ++ rest)) = some (value, .field, rest)
  ended : ∀ rest, readField (field ++ (lineEnd ++ rest)) = some (value, .line, rest)

variable {columns : Nat} {field : Nat → List Symbol}

/-- The columns of a line from one of them on. -/
theorem readLine_from {value : Nat → Value}
    (reads : ∀ index, index < columns →
      Reads readField separator lineEnd (field index) (value index))
    (rest : List Symbol) (more index : Nat) (inside : index + more < columns) :
    readLine readField lineEnd (more + 1)
        (field index ++ (((List.range' (index + 1) more).map fun later =>
          separator ++ field later).flatten ++ (lineEnd ++ rest))) =
      some ((List.range' index (more + 1)).map value, rest) := by
  induction more generalizing index with
  | zero =>
    rw [range'_zero, map_nil, flatten_nil, nil_append]
    unfold readLine
    rw [(reads index inside).ended rest]
    rfl
  | succ more ih =>
    have later := ih (index + 1) (by omega)
    rw [range'_succ, map_cons, flatten_cons, append_assoc, append_assoc]
    unfold readLine
    rw [(reads index (by omega)).separated]
    simp only [later]
    rfl

theorem readLine_line {value : Nat → Value}
    (reads : ∀ index, index < columns →
      Reads readField separator lineEnd (field index) (value index))
    (rest : List Symbol) :
    readLine readField lineEnd columns (line separator lineEnd field columns ++ rest) =
      some ((List.range columns).map value, rest) := by
  unfold line
  cases columns with
  | zero =>
    unfold readLine
    rw [range_zero, map_nil, flatten_nil, nil_append, if_pos (prefix_append _ _), drop_left]
    rfl
  | succ more =>
    have later : (List.range' 1 more).map (fun index =>
        (if index ≠ 0 then separator else []) ++ field index) =
        (List.range' 1 more).map fun index => separator ++ field index := by
      refine map_congr_left fun index member => ?_
      obtain ⟨place, -, rfl⟩ := mem_range'.mp member
      rw [if_pos (by omega)]
    rw [range_eq_range', range'_succ, map_cons, later,
      flatten_cons, if_neg (by simp), nil_append, append_assoc, append_assoc]
    have whole := readLine_from reads rest more 0 (by omega)
    rw [whole, range'_succ, map_cons]

/-- Lines that are read back one by one make up a file that is read back. -/
theorem decode_lines {Record : Type} {write : Record → List Symbol} {read : Record → List Value}
    (records : List Record) (nonempty : ∀ record ∈ records, write record ≠ [])
    (reads : ∀ record ∈ records, ∀ rest, readLine readField lineEnd columns (write record ++ rest) =
      some (read record, rest)) :
    decode readField lineEnd columns (records.map write).flatten = some (records.map read) := by
  have enough : records.length ≤ (records.map write).flatten.length := by
    clear reads
    induction records with
    | nil => exact Nat.le_refl 0
    | cons record records ih =>
      have positive := length_pos_of_ne_nil (nonempty record mem_cons_self)
      have rest := ih fun other member => nonempty other (mem_cons_of_mem _ member)
      rw [map_cons, flatten_cons, length_append, length_cons]
      omega
  unfold decode
  generalize (records.map write).flatten.length = fuel at enough
  induction records generalizing fuel with
  | nil => cases fuel <;> rfl
  | cons record records ih =>
    cases fuel with
    | zero => exact absurd enough (Nat.not_succ_le_zero _)
    | succ fuel =>
      have later := ih (fun other member => nonempty other (mem_cons_of_mem _ member))
        (fun other member => reads other (mem_cons_of_mem _ member)) fuel
        (Nat.le_of_succ_le_succ enough)
      unfold readLines
      rw [map_cons, flatten_cons, if_neg, reads record mem_cons_self]
      · simp only [Option.bind_some, later, Option.map_some, map_cons]
      · intro empty
        exact nonempty record mem_cons_self (append_eq_nil_iff.mp empty).1

end RoundTrip

end MariadbShell.Lib.Delimited
