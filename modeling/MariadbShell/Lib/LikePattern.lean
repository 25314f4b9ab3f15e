import Mathlib

/-!
# Wildcard patterns

A pattern is a list of symbols, which stand for a letter, for any one letter or for any
text. A run of wildcards behind a symbol for any text matches the texts that have a letter
for each of the symbols for one letter.
-/

namespace MariadbShell.Lib.LikePattern

open List

variable {α : Type}

inductive Symbol (α : Type) where
  | literal (letter : α)
  | one
  | many
deriving DecidableEq, Repr

namespace Symbol

def isWild : Symbol α → Bool
  | literal _ => false
  | one | many => true

/-- The number of letters that the symbol takes at least. -/
def width : Symbol α → Nat
  | literal _ | one => 1
  | many => 0

def accepts [DecidableEq α] (letter : α) : Symbol α → Bool
  | literal other => letter = other
  | one | many => true

end Symbol

inductive Matches : List (Symbol α) → List α → Prop where
  | nil : Matches [] []
  | literal {letter : α} {pattern : List (Symbol α)} {text : List α} :
      Matches pattern text → Matches (.literal letter :: pattern) (letter :: text)
  | one {letter : α} {pattern : List (Symbol α)} {text : List α} :
      Matches pattern text → Matches (.one :: pattern) (letter :: text)
  | many {pattern : List (Symbol α)} {skipped text : List α} :
      Matches pattern text → Matches (.many :: pattern) (skipped ++ text)

/-- The number of letters of the shortest texts that match. -/
def width (pattern : List (Symbol α)) : Nat :=
  (pattern.map Symbol.width).sum

@[simp] theorem width_nil : width ([] : List (Symbol α)) = 0 :=
  rfl

@[simp] theorem width_cons (symbol : Symbol α) (pattern : List (Symbol α)) :
    width (symbol :: pattern) = symbol.width + width pattern :=
  sum_cons

@[simp] theorem width_append (first second : List (Symbol α)) :
    width (first ++ second) = width first + width second := by
  rw [width, map_append, sum_append, width, width]

variable {pattern : List (Symbol α)} {text : List α}

theorem Matches.width_le (matched : Matches pattern text) : width pattern ≤ text.length := by
  induction matched with
  | nil => exact Nat.le_refl _
  | literal _ ih | one _ ih =>
    rw [width_cons, Symbol.width, length_cons]
    omega
  | many _ ih =>
    rw [width_cons, Symbol.width, length_append]
    omega

theorem matches_one_iff :
    Matches (.one :: pattern) text ↔
      ∃ letter rest, text = letter :: rest ∧ Matches pattern rest := by
  constructor
  · intro matched
    cases matched with
    | one rest => exact ⟨_, _, rfl, rest⟩
  · rintro ⟨letter, rest, rfl, matched⟩
    exact matched.one

theorem matches_many_iff :
    Matches (.many :: pattern) text ↔
      ∃ skipped rest, text = skipped ++ rest ∧ Matches pattern rest := by
  constructor
  · intro matched
    cases matched with
    | many rest => exact ⟨_, _, rfl, rest⟩
  · rintro ⟨skipped, rest, rfl, matched⟩
    exact matched.many

theorem Matches.skip (matched : Matches (.many :: pattern) text) (skipped : List α) :
    Matches (.many :: pattern) (skipped ++ text) := by
  obtain ⟨more, rest, rfl, inner⟩ := matches_many_iff.mp matched
  exact matches_many_iff.mpr ⟨skipped ++ more, rest, (append_assoc ..).symm, inner⟩

/-- A symbol for any text takes nothing, or a letter and any text. -/
theorem matches_many_cons_iff :
    Matches (.many :: pattern) text ↔
      Matches pattern text ∨ Matches (.one :: .many :: pattern) text := by
  rw [matches_one_iff]
  constructor
  · intro matched
    obtain ⟨skipped, rest, rfl, inner⟩ := matches_many_iff.mp matched
    cases skipped with
    | nil => exact .inl inner
    | cons letter skipped => exact .inr ⟨letter, skipped ++ rest, rfl, inner.many⟩
  · rintro (matched | ⟨letter, rest, rfl, matched⟩)
    · exact matches_many_iff.mpr ⟨[], text, rfl, matched⟩
    · exact matched.skip [letter]

theorem matches_single_iff [DecidableEq α] {symbol : Symbol α} (single : symbol ≠ .many) :
    Matches (symbol :: pattern) text ↔
      ∃ letter rest, text = letter :: rest ∧ symbol.accepts letter ∧ Matches pattern rest := by
  cases symbol with
  | many => exact absurd rfl single
  | one => simp [matches_one_iff, Symbol.accepts]
  | literal letter =>
    constructor
    · intro matched
      cases matched with
      | literal rest => exact ⟨_, _, rfl, decide_eq_true rfl, rest⟩
    · rintro ⟨other, rest, rfl, accepted, matched⟩
      obtain rfl := of_decide_eq_true accepted
      exact matched.literal

/-- Without wildcards there is one text that matches. -/
theorem matches_literals_iff {letters : List α} :
    Matches (letters.map .literal) text ↔ text = letters := by
  induction letters generalizing text with
  | nil =>
    constructor
    · intro matched
      cases matched
      rfl
    · rintro rfl
      exact .nil
  | cons letter letters ih =>
    constructor
    · intro matched
      cases matched with
      | literal rest => rw [ih.mp rest]
    · rintro rfl
      exact (ih.mpr rfl).literal

/-- A run of wildcards takes a text that is long enough. -/
theorem matches_run_iff {run rest : List (Symbol α)} (wild : ∀ symbol ∈ run, symbol.isWild = true) :
    Matches (.many :: (run ++ rest)) text ↔
      ∃ skipped tail, text = skipped ++ tail ∧ width run ≤ skipped.length ∧ Matches rest tail := by
  induction run generalizing text with
  | nil => simp [matches_many_iff]
  | cons symbol run ih =>
    have ih {text : List α} := @ih text fun other member =>
      wild other (mem_cons_of_mem _ member)
    cases symbol with
    | literal letter => cases wild _ (mem_cons_self ..)
    | many =>
      rw [cons_append, width_cons, Symbol.width, Nat.zero_add, ← ih]
      constructor
      · intro matched
        obtain ⟨skipped, tail, rfl, again⟩ := matches_many_iff.mp matched
        obtain ⟨more, tail, rfl, inner⟩ := matches_many_iff.mp again
        exact matches_many_iff.mpr ⟨skipped ++ more, tail, by simp, inner⟩
      · intro matched
        exact matches_many_iff.mpr ⟨[], text, rfl, matched⟩
    | one =>
      rw [width_cons, Symbol.width]
      constructor
      · intro matched
        obtain ⟨skipped, tail, rfl, again⟩ := matches_many_iff.mp matched
        obtain ⟨letter, tail, rfl, inner⟩ := matches_one_iff.mp again
        obtain ⟨more, tail, rfl, long, inner⟩ := ih.mp (matches_many_iff.mpr ⟨[], tail, rfl, inner⟩)
        refine ⟨skipped ++ letter :: more, tail, by simp, ?_, inner⟩
        rw [length_append, length_cons]
        omega
      · rintro ⟨skipped, tail, rfl, long, matched⟩
        -- the letter for this symbol is the last one that the others leave
        cases skipped with
        | nil =>
          rw [length_nil] at long
          omega
        | cons letter skipped =>
          rw [length_cons] at long
          obtain ⟨before, after, same, matched⟩ :=
            matches_many_iff.mp (ih.mpr ⟨skipped, tail, rfl, by omega, matched⟩)
          obtain ⟨front, last, split⟩ : ∃ front last, letter :: before = front ++ [last] :=
            ⟨_, _, (dropLast_append_getLast (cons_ne_nil letter before)).symm⟩
          refine matches_many_iff.mpr ⟨front, last :: after, ?_, matched.one⟩
          rw [cons_append, same, ← cons_append, split, append_assoc]
          rfl

end MariadbShell.Lib.LikePattern
