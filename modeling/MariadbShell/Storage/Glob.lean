import MariadbShell.Lib.LikePattern
import MariadbShell.Sql.Spans

/-!
# Patterns of file names

`match_glob` goes through a pattern and a text once and remembers the last `*` only, from which
it tries again one character later. This is enough: what is between two stars takes a fixed
number of characters, so the first place where it fits leaves the most to the rest.
-/

namespace MariadbShell.Storage

open List
open ImportTable (Bytes)
open Lib.LikePattern Sql

/-! ## The code -/

def globEscape : UInt8 := Chr.backslash
def globMatchSingle : UInt8 := Chr.questionMark
def globMatchMany : UInt8 := Chr.star

/-- What the switches make of a character of a pattern, and the pattern behind that. -/
def nextSymbol (chr : UInt8) (pattern : Bytes) : Symbol UInt8 × Bytes :=
  if chr = globMatchSingle then (.one, pattern)
  else if chr = globMatchMany then (.many, pattern)
  else if chr = globEscape then
    match pattern with
    | [] => (.literal chr, [])
    | next :: rest =>
      if next = globEscape ∨ next = globMatchMany ∨ next = globMatchSingle then
        (.literal next, rest)
      else (.literal chr, pattern)
  else (.literal chr, pattern)

theorem length_nextSymbol (chr : UInt8) (pattern : Bytes) :
    (nextSymbol chr pattern).2.length ≤ pattern.length := by
  unfold nextSymbol
  grind

/--
The variables of `_match_glob`: the pattern from `px` on and the text from `sx` on. Behind a
star these are the pattern from `ppx + 1` on and the text from `psx - 1` on, for the last try.
-/
structure GlobState where
  pattern : Bytes
  text : Bytes
  retry : Option (Bytes × Bytes)

namespace GlobState

variable (state : GlobState)

/-- The next symbol of the pattern; `none` stands for a `break`. -/
def forward : Option GlobState :=
  match state.pattern with
  | [] => none
  | chr :: pattern =>
    match nextSymbol chr pattern with
    | (.many, rest) => some ⟨rest, state.text, some (rest, state.text)⟩
    | (symbol, rest) =>
      match state.text with
      | [] => none
      | first :: text => if symbol.accepts first then some ⟨rest, text, state.retry⟩ else none

/-- The last star takes one more character, if there is one. -/
def again : Option GlobState :=
  match state.retry with
  | some (pattern, _ :: text) => some ⟨pattern, text, some (pattern, text)⟩
  | _ => none

/-- The pattern that is left at most, now or after another try. -/
def longest : Nat :=
  match state.retry with
  | none => state.pattern.length + 1
  | some last => max state.pattern.length last.1.length

def later : Nat :=
  match state.retry with
  | none => 0
  | some last => last.2.length

variable {state next : GlobState}

theorem forward_cases (moved : state.forward = some next) :
    ∃ chr pattern symbol, state.pattern = chr :: pattern ∧
      nextSymbol chr pattern = (symbol, next.pattern) ∧
      (symbol = .many ∧ next.text = state.text ∧ next.retry = some (next.pattern, next.text) ∨
        symbol ≠ .many ∧ next.retry = state.retry ∧
          ∃ first, state.text = first :: next.text ∧ symbol.accepts first) := by
  unfold forward at moved
  split at moved
  · cases moved
  next chr pattern shape =>
  refine ⟨chr, pattern, ?_⟩
  split at moved
  next rest found =>
    cases moved
    exact ⟨_, shape, found, .inl ⟨rfl, rfl, rfl⟩⟩
  next symbol rest single found =>
    split at moved
    · cases moved
    next first text same =>
    split at moved
    next accepted =>
      cases moved
      exact ⟨_, shape, found, .inr ⟨fun many => single many, rfl, first, same, accepted⟩⟩
    · cases moved

theorem again_cases (moved : state.again = some next) :
    ∃ first, state.retry = some (next.pattern, first :: next.text) ∧
      next.retry = some (next.pattern, next.text) := by
  unfold again at moved
  split at moved
  next pattern first text found =>
    cases moved
    exact ⟨first, found, rfl⟩
  · cases moved

theorem decreases (moved : state.forward.or state.again = some next) :
    next.longest < state.longest ∨ next.longest = state.longest ∧
      (next.later < state.later ∨ next.later = state.later ∧
        next.pattern.length < state.pattern.length) := by
  unfold longest later
  rcases Option.or_eq_some_iff.mp moved with moved | ⟨-, moved⟩
  · obtain ⟨chr, pattern, symbol, shape, found, cases⟩ := forward_cases moved
    have shorter := length_nextSymbol chr pattern
    rw [found] at shorter
    rcases cases with ⟨-, -, retry⟩ | ⟨-, retry, -⟩
    · rw [retry, shape, length_cons]
      cases state.retry with
      | none | some => dsimp only at shorter ⊢; omega
    · rw [retry, shape, length_cons]
      cases state.retry with
      | none | some => dsimp only at shorter ⊢; omega
  · obtain ⟨first, retry, next_retry⟩ := again_cases moved
    rw [retry, next_retry]
    dsimp only
    rw [length_cons]
    omega

end GlobState

/-- The loop of `_match_glob`. -/
def matchGlobLoop (state : GlobState) : Bool :=
  if state.pattern = [] ∧ state.text = [] then true
  else
    match _moved : state.forward.or state.again with
    | none => false
    | some next => matchGlobLoop next
termination_by (state.longest, state.later, state.pattern.length)
decreasing_by
  simp only [Prod.lex_def]
  exact state.decreases _moved

def matchGlob (pattern text : Bytes) (caseSensitive : Bool) : Bool :=
  if caseSensitive then matchGlobLoop ⟨pattern, text, none⟩
  else matchGlobLoop ⟨pattern.map toLower, text.map toLower, none⟩

def unescapeGlob : Bytes → Option Bytes
  | [] => some []
  | chr :: pattern =>
    match _found : nextSymbol chr pattern with
    | (.literal letter, rest) => (unescapeGlob rest).map (letter :: ·)
    | _ => none
termination_by pattern => pattern.length
decreasing_by
  have shorter := length_nextSymbol chr pattern
  rw [_found] at shorter
  exact Nat.lt_succ_of_le shorter

/-! ## What a pattern means -/

def symbols : Bytes → List (Symbol UInt8)
  | [] => []
  | chr :: pattern => (nextSymbol chr pattern).1 :: symbols (nextSymbol chr pattern).2
termination_by pattern => pattern.length
decreasing_by exact Nat.lt_succ_of_le (length_nextSymbol chr pattern)

namespace GlobState

variable {state next : GlobState}

/-- The text matches from here on, or behind a later place of the last star. -/
def Succeeds (state : GlobState) : Prop :=
  Matches (symbols state.pattern) state.text ∨
    ∃ last ∈ state.retry, Matches (.one :: .many :: symbols last.1) last.2

/-- What was taken since the last star has a fixed length, wherever it fits. -/
def Linked (state : GlobState) : Prop :=
  ∀ last ∈ state.retry, ∃ taken, state.text = last.2.drop taken ∧
    ∀ text, Matches (symbols last.1) text → Matches (symbols state.pattern) (text.drop taken)

theorem succeeds_star (retry : next.retry = some (next.pattern, next.text)) :
    next.Linked ∧ (next.Succeeds ↔ Matches (.many :: symbols next.pattern) next.text) := by
  constructor
  · intro last member
    rw [retry] at member
    cases member
    exact ⟨0, rfl, fun _ => id⟩
  · rw [Succeeds, retry, matches_many_cons_iff]
    simp

theorem Linked.forward (linked : state.Linked) (moved : state.forward = some next) :
    next.Linked ∧ (next.Succeeds ↔ state.Succeeds) := by
  obtain ⟨chr, pattern, symbol, shape, found, cases⟩ := forward_cases moved
  have read : symbols state.pattern = symbol :: symbols next.pattern := by
    rw [shape, symbols, found]
  rcases cases with ⟨rfl, text, retry⟩ | ⟨single, retry, first, text, accepted⟩
  · obtain ⟨nextLinked, succeeds⟩ := succeeds_star retry
    refine ⟨nextLinked, ?_⟩
    rw [succeeds, Succeeds, read, text]
    refine ⟨.inl, fun either => either.elim id ?_⟩
    -- the star that is left behind could only have left less of the text to this one
    rintro ⟨last, member, matched⟩
    obtain ⟨taken, same, rest⟩ := linked last member
    obtain ⟨letter, behind, whole, matched⟩ := matches_one_iff.mp matched
    obtain ⟨skipped, tail, rfl, inner⟩ := matches_many_iff.mp matched
    have later := rest tail inner
    have shorter : state.text.drop (letter :: skipped).length = tail.drop taken := by
      rw [same, whole, drop_drop, Nat.add_comm, ← drop_drop, ← cons_append, drop_left]
    rw [read, ← shorter] at later
    rw [← take_append_drop (letter :: skipped).length state.text]
    exact later.skip _
  · constructor
    · intro last member
      rw [retry] at member
      obtain ⟨taken, same, rest⟩ := linked last member
      refine ⟨taken + 1, ?_, fun other matched => ?_⟩
      · rw [← drop_drop, ← same, text, drop_succ_cons, drop_zero]
      · have matched := rest other matched
        rw [read, matches_single_iff single] at matched
        obtain ⟨letter, behind, whole, -, matched⟩ := matched
        rwa [← drop_drop, whole]
    · rw [Succeeds, Succeeds, retry, read, text, matches_single_iff single]
      simp [accepted]

theorem succeeds_again (moved : state.again = some next) :
    next.Linked ∧
      (next.Succeeds ↔ ∃ last ∈ state.retry, Matches (.one :: .many :: symbols last.1) last.2) := by
  obtain ⟨first, retry, next_retry⟩ := again_cases moved
  obtain ⟨linked, succeeds⟩ := succeeds_star next_retry
  refine ⟨linked, ?_⟩
  rw [succeeds, retry]
  simp [matches_one_iff]

theorem not_matches_of_forward (stopped : state.forward = none)
    (unfinished : ¬ (state.pattern = [] ∧ state.text = [])) :
    ¬ Matches (symbols state.pattern) state.text := by
  intro matched
  unfold forward at stopped
  split at stopped
  next shape =>
    rw [shape, symbols] at matched
    generalize state.text = text at matched unfinished
    cases matched
    exact unfinished ⟨shape, rfl⟩
  next chr pattern shape =>
    rw [shape, symbols] at matched
    split at stopped
    · cases stopped
    next symbol rest single found =>
      rw [found, matches_single_iff fun many => single many] at matched
      obtain ⟨letter, behind, text, accepted, -⟩ := matched
      rw [text] at stopped
      simp [accepted] at stopped

theorem not_retry_of_again (stopped : state.again = none) :
    ¬ ∃ last ∈ state.retry, Matches (.one :: .many :: symbols last.1) last.2 := by
  rintro ⟨last, member, matched⟩
  obtain ⟨pattern, tried⟩ := last
  obtain ⟨letter, behind, rfl, -⟩ := matches_one_iff.mp matched
  unfold again at stopped
  rw [Option.mem_def.mp member] at stopped
  cases stopped

theorem matchGlobLoop_iff (linked : state.Linked) : matchGlobLoop state ↔ state.Succeeds := by
  fun_induction matchGlobLoop state with
  | case1 state finished =>
    refine iff_of_true rfl (.inl ?_)
    rw [finished.1, finished.2, symbols]
    exact .nil
  | case2 state unfinished stopped =>
    obtain ⟨forward, again⟩ := Option.or_eq_none_iff.mp stopped
    refine iff_of_false nofun ?_
    rintro (matched | retried)
    · exact not_matches_of_forward forward unfinished matched
    · exact not_retry_of_again again retried
  | case3 state unfinished next moved ih =>
    rcases Option.or_eq_some_iff.mp moved with moved | ⟨stopped, moved⟩
    · obtain ⟨nextLinked, succeeds⟩ := linked.forward moved
      rw [ih nextLinked, succeeds]
    · obtain ⟨nextLinked, succeeds⟩ := succeeds_again moved
      rw [ih nextLinked, succeeds, Succeeds,
        or_iff_right (not_matches_of_forward stopped unfinished)]

end GlobState

theorem unescapeGlob_eq_some_iff (pattern result : Bytes) :
    unescapeGlob pattern = some result ↔ symbols pattern = result.map .literal := by
  fun_induction unescapeGlob pattern generalizing result with
  | case1 => cases result <;> simp [symbols]
  | case2 chr pattern letter rest found ih =>
    rw [symbols, found]
    cases result <;> simp [ih, and_comm]
  | case3 chr pattern wild =>
    rw [symbols]
    refine iff_of_false nofun fun same => ?_
    cases result with
    | nil => cases same
    | cons letter result => exact wild letter _ (Prod.ext (cons.inj same).1 rfl)

theorem isSome_unescapeGlob_iff (pattern : Bytes) :
    (unescapeGlob pattern).isSome ↔ ∀ symbol ∈ symbols pattern, symbol.isWild = false := by
  fun_induction unescapeGlob pattern with
  | case1 => simp [symbols]
  | case2 chr pattern letter rest found ih =>
    rw [symbols, found, forall_mem_cons, ← ih, Option.isSome_map]
    exact (and_iff_right rfl).symm
  | case3 chr pattern wild =>
    rw [symbols, forall_mem_cons]
    refine iff_of_false nofun fun literals => ?_
    cases shape : (nextSymbol chr pattern).1 with
    | literal letter => exact wild letter _ (Prod.ext shape rfl)
    | one | many =>
      rw [shape] at literals
      cases literals.1

/--
`match_glob` accepts the texts that match, and `unescape_glob` gives the only one of them if there
is no wildcard.
-/
theorem matchGlob_iff_and_unescapeGlob (pattern : Bytes) :
    (∀ text, matchGlob pattern text true = true ↔ Matches (symbols pattern) text) ∧
      ((unescapeGlob pattern).isSome ↔ ∀ symbol ∈ symbols pattern, symbol.isWild = false) ∧
      ∀ result, unescapeGlob pattern = some result →
        ∀ text, Matches (symbols pattern) text ↔ text = result := by
  refine ⟨fun text => ?_, ?_, fun result found text => ?_⟩
  · have linked : GlobState.Linked ⟨pattern, text, none⟩ := nofun
    rw [matchGlob, if_pos rfl, GlobState.matchGlobLoop_iff linked, GlobState.Succeeds]
    simp
  · exact isSome_unescapeGlob_iff pattern
  · rw [(unescapeGlob_eq_some_iff ..).mp found, matches_literals_iff]

end MariadbShell.Storage
