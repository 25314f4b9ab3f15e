import MariadbShell.Lib.LikePattern
import MariadbShell.Sql.Spans

/-!
# Matching with SQL wildcards

`match_sql_wild` compares a text with a pattern of `LIKE`. Behind a `%` the matcher skips the
wildcards that follow, but takes no character for a `_` among them. It accepts every text that
matches, and others as well unless such a `_` is the last thing in the pattern that needs a
character.
-/

namespace MariadbShell.Sql

open List
open ImportTable (Bytes)
open Lib.LikePattern Symbol

/-! ## The matcher -/

def wildEscape : UInt8 := Chr.backslash
def wildOne : UInt8 := Chr.underscore
def wildMany : UInt8 := Chr.percent

/-- The character at the front of a pattern; a backslash before another one escapes it. -/
def front (chr : UInt8) : Bytes → UInt8
  | [] => chr
  | next :: _ => if chr = wildEscape then next else chr

def behind (chr : UInt8) : Bytes → Bytes
  | [] => []
  | next :: pattern => if chr = wildEscape then pattern else next :: pattern

/--
The loop over the characters in front of the next wildcard: what is left of the text and of
the pattern, or `none` if they differ.
-/
def compareLiterals : Bytes → Bytes → Option (Bytes × Bytes)
  | text, [] => some (text, [])
  | [], chr :: pattern =>
    if chr = wildMany ∨ chr = wildOne then some ([], chr :: pattern) else none
  | first :: text, chr :: pattern =>
    if chr = wildMany ∨ chr = wildOne then some (first :: text, chr :: pattern)
    else if front chr pattern = first then compareLiterals text (behind chr pattern)
    else none

/-- The loop over the wildcards behind a `%`. -/
def skipWildcards (text : Bytes) : Bytes → Option Bytes
  | [] => some []
  | chr :: pattern =>
    if chr = wildMany then skipWildcards text pattern
    else if chr = wildOne then
      if text = [] then none else skipWildcards text pattern
    else some (chr :: pattern)

/-- The loop that looks for a place of the text from which on the rest matches. -/
def searchFrom (cmp : UInt8) (compare : Bytes → Bool) : Bytes → Bool
  | [] => false
  | first :: text =>
    if first ≠ cmp then searchFrom cmp compare text
    else compare (first :: text) || searchFrom cmp compare text

theorem length_behind_le (chr : UInt8) (pattern : Bytes) :
    (behind chr pattern).length ≤ pattern.length := by
  cases pattern with
  | nil => exact Nat.le_refl _
  | cons next pattern =>
    rw [behind]
    split
    · exact Nat.le_succ _
    · exact Nat.le_refl _

theorem length_of_compareLiterals {text pattern left rest : Bytes}
    (compared : compareLiterals text pattern = some (left, rest)) :
    rest.length ≤ pattern.length := by
  fun_induction compareLiterals text pattern with
  | case1 | case2 | case4 =>
    cases compared
    exact Nat.le_refl _
  | case3 | case6 => cases compared
  | case5 text chr pattern _ ih =>
    have shorter := length_behind_le chr pattern
    rw [length_cons]
    exact (ih compared).trans (by omega)

theorem length_of_skipWildcards {text pattern rest : Bytes}
    (skipped : skipWildcards text pattern = some rest) : rest.length ≤ pattern.length := by
  fun_induction skipWildcards text pattern with
  | case1 | case5 =>
    cases skipped
    exact Nat.le_refl _
  | case2 _ ih | case4 _ _ _ ih => exact (ih skipped).trans (Nat.le_succ _)
  | case3 => cases skipped

/-- Whether `wild_compare_full` returns 0, for a text that is not a pattern itself. -/
def wildCompareFull (text pattern : Bytes) : Bool :=
  match _compared : compareLiterals text pattern with
  | none => false
  | some (text, []) => text.isEmpty
  | some (text, chr :: rest) =>
    if chr = wildOne then
      match text with
      | [] => false
      | _ :: text => wildCompareFull text rest
    else
      match _skipped : skipWildcards text rest with
      | none => false
      | some [] => true
      | some (next :: rest) =>
        searchFrom (front next rest) (fun text => wildCompareFull text (next :: rest)) text
termination_by pattern.length
decreasing_by
  · have := length_of_compareLiterals _compared
    simp only [length_cons] at this
    omega
  · have := length_of_compareLiterals _compared
    have := length_of_skipWildcards _skipped
    simp only [length_cons] at *
    omega

def matchSqlWild (text pattern : Bytes) : Bool :=
  wildCompareFull text pattern

/-! ## Patterns -/

def symbolOf (chr : UInt8) : Symbol UInt8 :=
  if chr = wildMany then .many else if chr = wildOne then .one else .literal chr

/-- The symbols of a pattern; a backslash at its end stands for itself. -/
def symbols : Bytes → List (Symbol UInt8)
  | [] => []
  | [chr] => [symbolOf chr]
  | chr :: next :: pattern =>
    if chr = wildEscape then .literal next :: symbols pattern
    else symbolOf chr :: symbols (next :: pattern)

/-- The text matches the pattern by the rules of `LIKE`. -/
def Like (text pattern : Bytes) : Prop :=
  Matches (symbols pattern) text

inductive Accepts : List (Symbol UInt8) → Bytes → Prop where
  | nil : Accepts [] []
  | literal {letter : UInt8} {pattern : List (Symbol UInt8)} {text : Bytes} :
      Accepts pattern text → Accepts (.literal letter :: pattern) (letter :: text)
  | one {letter : UInt8} {pattern : List (Symbol UInt8)} {text : Bytes} :
      Accepts pattern text → Accepts (.one :: pattern) (letter :: text)
  /-- a run of wildcards at the end takes any text, but not the empty one if it has a `_` -/
  | last {run : List (Symbol UInt8)} {text : Bytes} :
      (∀ symbol ∈ run, symbol.isWild = true) → (.one ∈ run → text ≠ []) →
      Accepts (.many :: run) text
  /-- any other run of wildcards behind a `%` takes any text -/
  | search {run pattern : List (Symbol UInt8)} {letter : UInt8} {skipped text : Bytes} :
      (∀ symbol ∈ run, symbol.isWild = true) → Accepts (.literal letter :: pattern) text →
      Accepts (.many :: (run ++ .literal letter :: pattern)) (skipped ++ text)

variable {text : Bytes}

theorem accepts_nil_iff : Accepts [] text ↔ text = [] := by
  constructor
  · intro accepts
    cases accepts
    rfl
  · rintro rfl
    exact .nil

variable {letter : UInt8} {pattern run : List (Symbol UInt8)}

theorem accepts_literal_iff :
    Accepts (.literal letter :: pattern) text ↔
      ∃ rest, text = letter :: rest ∧ Accepts pattern rest := by
  constructor
  · intro accepts
    cases accepts with
    | literal rest => exact ⟨_, rfl, rest⟩
  · rintro ⟨rest, rfl, accepts⟩
    exact accepts.literal

theorem accepts_one_iff :
    Accepts (.one :: pattern) text ↔
      ∃ letter rest, text = letter :: rest ∧ Accepts pattern rest := by
  constructor
  · intro accepts
    cases accepts with
    | one rest => exact ⟨_, _, rfl, rest⟩
  · rintro ⟨letter, rest, rfl, accepts⟩
    exact accepts.one

section

variable (wild : ∀ symbol ∈ run, symbol.isWild = true)

include wild

/-- A run of wildcards and the literal behind it are determined by the pattern. -/
theorem run_unique {run' : List (Symbol UInt8)} {pattern' : List (Symbol UInt8)} {letter' : UInt8}
    (wild' : ∀ symbol ∈ run', symbol.isWild = true)
    (same : run ++ .literal letter :: pattern = run' ++ .literal letter' :: pattern') :
    .literal letter :: pattern = (.literal letter' :: pattern' : List (Symbol UInt8)) := by
  have left : (run ++ .literal letter :: pattern).dropWhile isWild =
      .literal letter :: pattern := by
    rw [dropWhile_append_of_pos wild]
    rfl
  rw [← left, same, dropWhile_append_of_pos wild']
  rfl

theorem accepts_last_iff : Accepts (.many :: run) text ↔ (.one ∈ run → text ≠ []) := by
  constructor
  · intro accepts
    generalize whole : many :: run = pattern at accepts
    cases accepts with
    | last _ some =>
      cases whole
      exact some
    | search _ _ =>
      cases whole
      have literal := wild _ (mem_append_right _ (mem_cons_self ..))
      cases literal
    | nil | literal _ | one _ => cases whole
  · intro some
    exact .last wild some

theorem accepts_search_iff :
    Accepts (.many :: (run ++ .literal letter :: pattern)) text ↔
      ∃ skipped rest, text = skipped ++ rest ∧ Accepts (.literal letter :: pattern) rest := by
  constructor
  · intro accepts
    generalize whole : many :: (run ++ .literal letter :: pattern) = all at accepts
    cases accepts with
    | last wild' _ =>
      cases whole
      have literal := wild' _ (mem_append_right _ (mem_cons_self ..))
      cases literal
    | search wild' rest =>
      rw [run_unique wild wild' (List.cons.inj whole).2]
      exact ⟨_, _, rfl, rest⟩
    | nil | literal _ | one _ => cases whole
  · rintro ⟨skipped, rest, rfl, accepts⟩
    exact .search wild accepts

end

/-- The empty text leaves nothing for a `_`. -/
theorem Accepts.one_not_mem (accepts : Accepts (.many :: pattern) []) : .one ∉ pattern := by
  intro member
  generalize none : ([] : Bytes) = text at accepts
  cases accepts with
  | last _ some => exact some member none.symm
  | search _ rest =>
    obtain ⟨_, rfl, -⟩ := accepts_literal_iff.mp rest
    simp at none

/-! ## What the matcher accepts -/

theorem symbols_wild {chr : UInt8} (wild : chr = wildMany ∨ chr = wildOne) (pattern : Bytes) :
    symbols (chr :: pattern) = symbolOf chr :: symbols pattern := by
  cases pattern with
  | nil => rfl
  | cons next pattern =>
    have unescaped : chr ≠ wildEscape := by
      rcases wild with rfl | rfl <;> decide
    rw [symbols, if_neg unescaped]

/-- A character that is no wildcard begins a literal. -/
theorem symbols_literal {chr : UInt8} (plain : ¬ (chr = wildMany ∨ chr = wildOne))
    (pattern : Bytes) :
    symbols (chr :: pattern) = .literal (front chr pattern) :: symbols (behind chr pattern) := by
  have literal : symbolOf chr = .literal chr := by
    rw [symbolOf, if_neg fun many => plain (.inl many), if_neg fun one => plain (.inr one)]
  cases pattern with
  | nil => rw [symbols, literal, front, behind, symbols]
  | cons next pattern =>
    rw [symbols, front, behind]
    by_cases escape : chr = wildEscape
    · rw [if_pos escape, if_pos escape, if_pos escape]
    · rw [if_neg escape, if_neg escape, if_neg escape, literal]

theorem compareLiterals_none {text pattern : Bytes}
    (compared : compareLiterals text pattern = none) : ¬ Accepts (symbols pattern) text := by
  intro accepts
  fun_induction compareLiterals text pattern with
  | case1 | case2 | case4 => cases compared
  | case3 chr pattern plain =>
    rw [symbols_literal plain] at accepts
    obtain ⟨rest, none, -⟩ := accepts_literal_iff.mp accepts
    cases none
  | case5 text chr pattern plain ih =>
    rw [symbols_literal plain] at accepts
    obtain ⟨rest, same, accepts⟩ := accepts_literal_iff.mp accepts
    cases same
    exact ih compared accepts
  | case6 first text chr pattern plain different =>
    rw [symbols_literal plain] at accepts
    obtain ⟨rest, same, -⟩ := accepts_literal_iff.mp accepts
    exact different (List.cons.inj same).1.symm

theorem compareLiterals_some {text pattern left rest : Bytes}
    (compared : compareLiterals text pattern = some (left, rest)) :
    (Accepts (symbols pattern) text ↔ Accepts (symbols rest) left) ∧
      ∀ chr more, rest = chr :: more → chr = wildMany ∨ chr = wildOne := by
  fun_induction compareLiterals text pattern with
  | case1 =>
    cases compared
    exact ⟨Iff.rfl, nofun⟩
  | case2 chr pattern wild | case4 first text chr pattern wild =>
    cases compared
    refine ⟨Iff.rfl, fun other more same => ?_⟩
    cases same
    exact wild
  | case3 | case6 => cases compared
  | case5 text chr pattern plain ih =>
    obtain ⟨same, wild⟩ := ih compared
    refine ⟨?_, wild⟩
    rw [← same, symbols_literal plain, accepts_literal_iff]
    constructor
    · rintro ⟨rest, same, accepts⟩
      cases same
      exact accepts
    · intro accepts
      exact ⟨text, rfl, accepts⟩

theorem skipWildcards_none {text pattern : Bytes} (skipped : skipWildcards text pattern = none) :
    text = [] ∧ .one ∈ symbols pattern := by
  fun_induction skipWildcards text pattern with
  | case1 | case5 => cases skipped
  | case2 pattern ih =>
    obtain ⟨empty, member⟩ := ih skipped
    rw [symbols_wild (.inl rfl)]
    exact ⟨empty, mem_cons_of_mem _ member⟩
  | case3 pattern empty _ =>
    rw [symbols_wild (.inr rfl)]
    exact ⟨empty, mem_cons_self ..⟩
  | case4 pattern _ _ ih =>
    obtain ⟨empty, member⟩ := ih skipped
    rw [symbols_wild (.inr rfl)]
    exact ⟨empty, mem_cons_of_mem _ member⟩

theorem skipWildcards_some {text pattern rest : Bytes}
    (skipped : skipWildcards text pattern = some rest) :
    ∃ run, (∀ symbol ∈ run, symbol.isWild = true) ∧ symbols pattern = run ++ symbols rest ∧
      (.one ∈ run → text ≠ []) ∧
      ∀ chr more, rest = chr :: more → ¬ (chr = wildMany ∨ chr = wildOne) := by
  fun_induction skipWildcards text pattern with
  | case1 =>
    cases skipped
    exact ⟨[], nofun, rfl, nofun, nofun⟩
  | case2 pattern ih =>
    obtain ⟨run, wild, split, some, plain⟩ := ih skipped
    refine ⟨.many :: run, ?_, ?_, ?_, plain⟩
    · simpa [isWild] using wild
    · rw [symbols_wild (.inl rfl), split]
      rfl
    · simpa using some
  | case3 => cases skipped
  | case4 pattern nonempty _ ih =>
    obtain ⟨run, wild, split, -, plain⟩ := ih skipped
    refine ⟨.one :: run, ?_, ?_, fun _ => nonempty, plain⟩
    · simpa [isWild] using wild
    · rw [symbols_wild (.inr rfl), split]
      rfl
  | case5 chr pattern notMany notOne =>
    cases skipped
    refine ⟨[], nofun, rfl, nofun, fun other more same => ?_⟩
    cases same
    rintro (many | one)
    · exact notMany many
    · exact notOne one

theorem searchFrom_iff {cmp : UInt8} {compare : Bytes → Bool} :
    searchFrom cmp compare text = true ↔
      ∃ skipped rest, text = skipped ++ cmp :: rest ∧ compare (cmp :: rest) = true := by
  induction text with
  | nil => simp [searchFrom]
  | cons first text ih =>
    rw [searchFrom]
    by_cases same : first = cmp
    · subst same
      rw [if_neg (by simp), Bool.or_eq_true, ih]
      constructor
      · rintro (here | ⟨skipped, rest, rfl, later⟩)
        · exact ⟨[], text, rfl, here⟩
        · exact ⟨first :: skipped, rest, rfl, later⟩
      · rintro ⟨skipped, rest, split, accepted⟩
        cases skipped with
        | nil =>
          cases split
          exact .inl accepted
        | cons _ skipped =>
          cases split
          exact .inr ⟨skipped, rest, rfl, accepted⟩
    · rw [if_pos same, ih]
      constructor
      · rintro ⟨skipped, rest, rfl, later⟩
        exact ⟨first :: skipped, rest, rfl, later⟩
      · rintro ⟨skipped, rest, split, accepted⟩
        cases skipped with
        | nil => exact absurd (List.cons.inj split).1 same
        | cons _ skipped =>
          cases split
          exact ⟨skipped, rest, rfl, accepted⟩

/-- The matcher accepts what its cases say. -/
theorem wildCompareFull_iff (text pattern : Bytes) :
    wildCompareFull text pattern = true ↔ Accepts (symbols pattern) text := by
  fun_induction wildCompareFull text pattern with
  | case1 text pattern compared =>
    exact ⟨nofun, fun accepts => absurd accepts (compareLiterals_none compared)⟩
  | case2 text pattern left compared =>
    rw [(compareLiterals_some compared).1, symbols, accepts_nil_iff, List.isEmpty_iff]
  | case3 text pattern rest _ compared =>
    rw [(compareLiterals_some compared).1, symbols_wild (.inr rfl)]
    refine ⟨nofun, fun accepts => ?_⟩
    obtain ⟨_, _, none, -⟩ := accepts_one_iff.mp accepts
    cases none
  | case4 text pattern rest first left _ compared ih =>
    rw [(compareLiterals_some compared).1, symbols_wild (.inr rfl), ih]
    refine ⟨fun accepts => accepts_one_iff.mpr ⟨first, left, rfl, accepts⟩, fun accepts => ?_⟩
    obtain ⟨_, _, same, accepts⟩ := accepts_one_iff.mp accepts
    cases same
    exact accepts
  | case5 text pattern left chr rest compared notOne skipped =>
    obtain ⟨same, wild⟩ := compareLiterals_some compared
    obtain rfl : chr = wildMany := (wild chr rest rfl).resolve_right notOne
    obtain ⟨rfl, member⟩ := skipWildcards_none skipped
    rw [same, symbols_wild (.inl rfl)]
    exact ⟨nofun, fun accepts => absurd member (Accepts.one_not_mem accepts)⟩
  | case6 text pattern left chr rest compared notOne skipped =>
    obtain ⟨same, wild⟩ := compareLiterals_some compared
    obtain rfl : chr = wildMany := (wild chr rest rfl).resolve_right notOne
    obtain ⟨run, wildRun, split, some, -⟩ := skipWildcards_some skipped
    rw [symbols, append_nil] at split
    rw [same, symbols_wild (.inl rfl), split]
    exact ⟨fun _ => (accepts_last_iff wildRun).mpr some, fun _ => rfl⟩
  | case7 text pattern left chr rest compared notOne next behind skipped ih =>
    obtain ⟨same, wild⟩ := compareLiterals_some compared
    obtain rfl : chr = wildMany := (wild chr rest rfl).resolve_right notOne
    obtain ⟨run, wildRun, split, -, plain⟩ := skipWildcards_some skipped
    have literal := symbols_literal (plain next behind rfl) behind
    rw [same, symbols_wild (.inl rfl), split, literal, searchFrom_iff]
    refine Iff.trans ?_ (accepts_search_iff wildRun).symm
    constructor
    · rintro ⟨before, tail, rfl, accepted⟩
      exact ⟨before, _, rfl, literal ▸ (ih _).mp accepted⟩
    · rintro ⟨before, tail, rfl, accepts⟩
      obtain ⟨tail, rfl, -⟩ := accepts_literal_iff.mp accepts
      exact ⟨before, tail, rfl, (ih _).mpr (literal ▸ accepts)⟩

/-! ## Patterns that are matched exactly -/

/--
No `_` stands among the wildcards behind a `%`, unless only further `%` follow it; `afterMany`
tells that a `%` stands in front, with only wildcards in between.
-/
def Exact (afterMany : Bool) : List (Symbol UInt8) → Prop
  | [] => True
  | .literal _ :: pattern => Exact false pattern
  | .many :: pattern => Exact true pattern
  | .one :: pattern => if afterMany then ∀ symbol ∈ pattern, symbol = .many else Exact false pattern

theorem exact_run (wild : ∀ symbol ∈ run, symbol.isWild = true) :
    Exact true (run ++ .literal letter :: pattern) ↔ width run = 0 ∧ Exact false pattern := by
  induction run with
  | nil => simp [Exact]
  | cons symbol run ih =>
    have ih := ih fun other member => wild other (mem_cons_of_mem _ member)
    cases symbol with
    | literal letter => cases wild _ (mem_cons_self ..)
    | many =>
      rw [cons_append, Exact, ih, width_cons, Symbol.width, Nat.zero_add]
    | one =>
      rw [width_cons, Symbol.width]
      constructor
      · intro only
        cases only _ (mem_append_right _ (mem_cons_self ..))
      · rintro ⟨none, -⟩
        omega

theorem width_eq_zero_iff : width run = 0 ↔ ∀ symbol ∈ run, symbol = .many := by
  induction run with
  | nil => simp
  | cons symbol run ih =>
    rw [forall_mem_cons, ← ih]
    cases symbol <;> simp [Symbol.width]

theorem exact_last (wild : ∀ symbol ∈ run, symbol.isWild = true) :
    Exact true run ↔ width run ≤ 1 := by
  induction run with
  | nil => simp [Exact]
  | cons symbol run ih =>
    have ih := ih fun other member => wild other (mem_cons_of_mem _ member)
    cases symbol with
    | literal letter => cases wild _ (mem_cons_self ..)
    | many => rw [Exact, ih, width_cons, Symbol.width, Nat.zero_add]
    | one =>
      rw [Exact, if_pos rfl, ← width_eq_zero_iff, width_cons, Symbol.width]
      omega

/-- A `_` is needed by a run exactly if the run takes a character. -/
theorem one_mem_iff (wild : ∀ symbol ∈ run, symbol.isWild = true) : .one ∈ run ↔ 0 < width run := by
  rw [Nat.pos_iff_ne_zero, Ne, width_eq_zero_iff]
  constructor
  · intro member all
    cases all _ member
  · intro other
    by_contra absent
    refine other fun symbol member => ?_
    cases symbol with
    | literal letter => cases wild _ member
    | many => rfl
    | one => exact absurd member absent

/-- A pattern behind a `%` is a run of wildcards, with or without a literal behind it. -/
theorem run_cases (pattern : List (Symbol UInt8)) :
    (∀ symbol ∈ pattern, symbol.isWild = true) ∨
      ∃ run letter rest, pattern = run ++ .literal letter :: rest ∧
        ∀ symbol ∈ run, symbol.isWild = true := by
  induction pattern with
  | nil => exact .inl nofun
  | cons symbol pattern ih =>
    cases symbol with
    | literal letter => exact .inr ⟨[], letter, pattern, rfl, nofun⟩
    | one | many =>
      rcases ih with wild | ⟨run, letter, rest, split, wild⟩
      · refine .inl ?_
        simpa [isWild] using wild
      · refine .inr ⟨_ :: run, letter, rest, by rw [split]; rfl, ?_⟩
        simpa [isWild] using wild

/-- Every text that matches is accepted. -/
theorem Accepts.of_matches (matched : Matches pattern text) : Accepts pattern text := by
  induction size : pattern.length using Nat.strong_induction_on generalizing pattern text with
  | _ size ih =>
    cases matched with
    | nil => exact .nil
    | literal rest => exact .literal (ih _ (by simp [← size]) rest rfl)
    | one rest => exact .one (ih _ (by simp [← size]) rest rfl)
    | @many pattern skipped text rest =>
      rcases run_cases pattern with wild | ⟨run, letter, tail, rfl, wild⟩
      · refine .last wild fun member => ?_
        have long := rest.width_le
        have needed := (one_mem_iff wild).mp member
        rw [← length_pos_iff, length_append]
        omega
      · obtain ⟨more, text, split, -, matched⟩ := (matches_run_iff wild).mp rest.many
        rw [split]
        refine .search wild (ih _ ?_ matched rfl)
        simp only [← size, length_cons, length_append]
        omega

theorem Accepts.matches_of_exact (accepts : Accepts pattern text) (exact : Exact false pattern) :
    Matches pattern text := by
  induction accepts with
  | nil => exact .nil
  | literal _ ih => exact .literal (ih exact)
  | one _ ih => exact .one (ih exact)
  | @last run text wild some =>
    have short := (exact_last wild).mp exact
    rw [← append_nil run]
    refine (matches_run_iff wild).mpr ⟨text, [], (append_nil text).symm, ?_, .nil⟩
    by_cases needed : 0 < width run
    · have := length_pos_iff.mpr (some ((one_mem_iff wild).mpr needed))
      omega
    · omega
  | @search run pattern letter skipped text wild _ ih =>
    obtain ⟨none, rest⟩ := (exact_run wild).mp exact
    exact (matches_run_iff wild).mpr ⟨skipped, text, rfl, by omega, ih rest⟩

/-- A pattern that is not matched exactly accepts a text that is too short. -/
theorem exists_accepts (pattern : List (Symbol UInt8)) :
    ∃ text, Accepts pattern text ∧ text.length ≤ width pattern ∧
      (¬ Exact false pattern → text.length < width pattern) := by
  induction size : pattern.length using Nat.strong_induction_on generalizing pattern with
  | _ size ih =>
    cases pattern with
    | nil => exact ⟨[], .nil, Nat.le_refl _, fun inexact => absurd trivial inexact⟩
    | cons symbol pattern =>
      cases symbol with
      | literal letter =>
        obtain ⟨text, accepts, short, shorter⟩ := ih _ (by simp [← size]) pattern rfl
        refine ⟨letter :: text, .literal accepts, ?_, fun inexact => ?_⟩
        · rw [length_cons, Nat.add_comm]
          exact Nat.add_le_add_left short 1
        · rw [length_cons, Nat.add_comm]
          exact Nat.add_lt_add_left (shorter inexact) 1
      | one =>
        obtain ⟨text, accepts, short, shorter⟩ := ih _ (by simp [← size]) pattern rfl
        refine ⟨0 :: text, .one accepts, ?_, fun inexact => ?_⟩
        · rw [length_cons, Nat.add_comm]
          exact Nat.add_le_add_left short 1
        · rw [length_cons, Nat.add_comm]
          exact Nat.add_lt_add_left (shorter inexact) 1
      | many =>
        rcases run_cases pattern with wild | ⟨run, letter, rest, rfl, wild⟩
        · by_cases needed : .one ∈ pattern
          · have long := (one_mem_iff wild).mp needed
            refine ⟨[0], .last wild fun _ => cons_ne_nil _ _, ?_, fun inexact => ?_⟩
            · rw [width_cons, Symbol.width, Nat.zero_add]
              exact long
            · have := (not_congr (exact_last wild)).mp inexact
              simp only [width_cons, length_singleton]
              omega
          · refine ⟨[], .last wild fun member => absurd member needed, Nat.zero_le _, ?_⟩
            intro inexact
            have := (not_congr (exact_last wild)).mp inexact
            simp only [width_cons, length_nil]
            omega
        · have smaller : (literal letter :: rest).length <
              (many :: (run ++ .literal letter :: rest)).length := by
            simp only [length_cons, length_append]
            omega
          obtain ⟨text, accepts, short, shorter⟩ := ih _ (size ▸ smaller) _ rfl
          refine ⟨[] ++ text, .search wild accepts, ?_, fun inexact => ?_⟩ <;>
            rw [nil_append]
          · simp only [width_cons, width_append] at short ⊢
            omega
          · have inexact := (not_congr (exact_run wild)).mp inexact
            simp only [width_cons, width_append] at short shorter ⊢
            by_cases none : width run = 0
            · have := shorter fun exact => inexact ⟨none, exact⟩
              omega
            · omega

theorem matchSqlWild_of_like {text pattern : Bytes} (like : Like text pattern) :
    matchSqlWild text pattern = true :=
  (wildCompareFull_iff text pattern).mpr (.of_matches like)

/-- A symbol for a character matches it. -/
theorem matches_symbolOf (chr : UInt8) (matched : Matches pattern text) :
    Matches (symbolOf chr :: pattern) (chr :: text) := by
  unfold symbolOf
  split
  · exact @Matches.many _ _ [chr] _ matched
  · split
    · exact matched.one
    · exact matched.literal

/-- The matcher agrees with `LIKE` on every text exactly for the patterns that are exact. -/
theorem matchSqlWild_exact_iff (pattern : Bytes) :
    (∀ text, matchSqlWild text pattern = true ↔ Like text pattern) ↔
      Exact false (symbols pattern) := by
  constructor
  · intro agrees
    by_contra inexact
    obtain ⟨text, accepts, -, shorter⟩ := exists_accepts (symbols pattern)
    have matched := (agrees text).mp ((wildCompareFull_iff text pattern).mpr accepts)
    exact absurd matched.width_le (Nat.not_le.mpr (shorter inexact))
  · intro exact text
    rw [matchSqlWild, wildCompareFull_iff]
    exact ⟨fun accepts => accepts.matches_of_exact exact, Accepts.of_matches⟩

/-- The pattern `%_b` needs a character in front of the last one. -/
theorem matchSqlWild_too_short :
    matchSqlWild [98] [wildMany, wildOne, 98] = true ∧ ¬ Like [98] [wildMany, wildOne, 98] := by
  constructor
  · rw [matchSqlWild, wildCompareFull_iff]
    exact @Accepts.search [.one] [] 98 [] [98] (by decide) (.literal .nil)
  · intro matched
    exact absurd matched.width_le (by decide)

end MariadbShell.Sql
