import Mathlib

/-!
# Substring search in lists

Forward and backward search of a nonempty needle, with the index conventions of
`std::string::find` and `std::string::rfind`: from a given offset on, or the last occurrence
that starts at or before it. The absent result is `none`.
-/

namespace MariadbShell.Lib.Search

open List

variable {α : Type}

/-- The needle occurs in the text at the given offset. -/
def OccursAt (needle text : List α) (offset : Nat) : Prop :=
  needle <+: text.drop offset

instance [DecidableEq α] (needle text : List α) (offset : Nat) :
    Decidable (OccursAt needle text offset) :=
  inferInstanceAs (Decidable (needle <+: text.drop offset))

/-! ## Occurrences -/

variable {needle text : List α} {offset found : Nat} {symbol : α}

theorem OccursAt.end_le (occurs : OccursAt needle text offset) (nonempty : needle ≠ []) :
    offset + needle.length ≤ text.length := by
  have bound := List.IsPrefix.length_le occurs
  have positive := length_pos_of_ne_nil nonempty
  rw [length_drop] at bound
  omega

theorem OccursAt.lt_length (occurs : OccursAt needle text offset) (nonempty : needle ≠ []) :
    offset < text.length := by
  have bound := occurs.end_le nonempty
  have positive := length_pos_of_ne_nil nonempty
  omega

theorem occursAt_singleton : OccursAt [symbol] text offset ↔ text[offset]? = some symbol := by
  unfold OccursAt
  rw [← head?_drop]
  cases text.drop offset with
  | nil => simp
  | cons first rest => simp [eq_comm]

theorem occursAt_pair {first second : α} :
    OccursAt [first, second] text offset ↔
      text[offset]? = some first ∧ text[offset + 1]? = some second := by
  unfold OccursAt
  rw [← head?_drop, ← head?_drop, ← drop_drop]
  match text.drop offset with
  | [] => simp
  | [other] => simp
  | other :: next :: rest => simp [eq_comm]

/-- A symbol does not occur in a part of the text without it. -/
theorem not_occursAt_of_not_mem {front : List α} (absent : symbol ∉ text)
    (above : front.length ≤ offset) (rest : List α) (below : offset < front.length + text.length) :
    ¬ OccursAt [symbol] (front ++ (text ++ rest)) offset := by
  rw [occursAt_singleton, getElem?_append_right above, getElem?_append_left (by omega)]
  exact fun found => absent (mem_of_getElem? found)

/-- Dropping a prefix of the text shifts the offsets of the occurrences. -/
theorem occursAt_drop {count : Nat} :
    OccursAt needle (text.drop count) offset ↔ OccursAt needle text (count + offset) := by
  simp [OccursAt]

/-- An occurrence in a prefix of the text is an occurrence in the text. -/
theorem OccursAt.append (occurs : OccursAt needle text offset) (nonempty : needle ≠ [])
    (suffix : List α) :
    OccursAt needle (text ++ suffix) offset := by
  have bound := occurs.lt_length nonempty
  unfold OccursAt at *
  rw [drop_append_of_le_length (Nat.le_of_lt bound)]
  exact occurs.trans (prefix_append _ _)

/-- An occurrence that ends inside a prefix of the text is one of that prefix. -/
theorem OccursAt.of_append {suffix : List α} (occurs : OccursAt needle (text ++ suffix) offset)
    (inside : offset + needle.length ≤ text.length) : OccursAt needle text offset := by
  unfold OccursAt at *
  rw [drop_append_of_le_length (by omega)] at occurs
  exact prefix_of_prefix_length_le occurs (prefix_append _ _)
    (by rw [length_drop]; omega)

variable [DecidableEq α]

/-! ## Backward search -/

/-- Backward search over the offsets `start, start - 1, ..., 0`. -/
def rfindFrom (needle text : List α) : Nat → Option Nat
  | 0 => if OccursAt needle text 0 then some 0 else none
  | start + 1 =>
    if OccursAt needle text (start + 1) then some (start + 1)
    else rfindFrom needle text start

/-- The last occurrence that starts at or before `start`. -/
def rfind (needle text : List α) (start : Nat) : Option Nat :=
  if text.length < needle.length then none
  else rfindFrom needle text (min start (text.length - needle.length))

/-- Forward search over `count` offsets from `start` on. -/
def findFrom (needle text : List α) : Nat → Nat → Option Nat
  | 0, _ => none
  | count + 1, start =>
    if OccursAt needle text start then some start
    else findFrom needle text count (start + 1)

/-- The first occurrence that starts at or after `start`. -/
def find (needle text : List α) (start : Nat) : Option Nat :=
  findFrom needle text (text.length - start) start

variable {start : Nat}

theorem rfindFrom_some (result : rfindFrom needle text start = some found) :
    found ≤ start ∧ OccursAt needle text found ∧
      ∀ other, found < other → other ≤ start → ¬ OccursAt needle text other := by
  fun_induction rfindFrom needle text start with
  | case1 occurs | case3 _ occurs =>
    cases result
    exact ⟨Nat.le_refl _, occurs, fun other above below => by omega⟩
  | case2 => cases result
  | case4 start absent ih =>
    obtain ⟨bound, occurs, last⟩ := ih result
    refine ⟨by omega, occurs, fun other above below => ?_⟩
    obtain before | rfl := Nat.le_succ_iff.mp below
    · exact last other above before
    · exact absent

theorem rfindFrom_none (result : rfindFrom needle text start = none) :
    ∀ other, other ≤ start → ¬ OccursAt needle text other := by
  intro other below
  fun_induction rfindFrom needle text start with
  | case1 | case3 => cases result
  | case2 absent =>
    rw [Nat.le_zero.mp below]
    exact absent
  | case4 start absent ih =>
    obtain before | rfl := Nat.le_succ_iff.mp below
    · exact ih result before
    · exact absent

theorem rfind_some (nonempty : needle ≠ []) (result : rfind needle text start = some found) :
    found ≤ start ∧ OccursAt needle text found ∧
      ∀ other, found < other → other ≤ start → ¬ OccursAt needle text other := by
  unfold rfind at result
  split at result
  · cases result
  · obtain ⟨bound, occurs, last⟩ := rfindFrom_some result
    refine ⟨by omega, occurs, fun other above below here => ?_⟩
    have ending := here.end_le nonempty
    exact last other above (by omega) here

theorem rfind_none (nonempty : needle ≠ []) (result : rfind needle text start = none) :
    ∀ other, other ≤ start → ¬ OccursAt needle text other := by
  intro other below here
  have ending := here.end_le nonempty
  unfold rfind at result
  split at result
  · omega
  · exact rfindFrom_none result other (by omega) here

/-- The last occurrence at or before the start is the one found. -/
theorem rfind_eq_some (nonempty : needle ≠ []) (occurs : OccursAt needle text found)
    (bound : found ≤ start)
    (last : ∀ other, found < other → other ≤ start → ¬ OccursAt needle text other) :
    rfind needle text start = some found := by
  cases result : rfind needle text start with
  | none => exact absurd occurs (rfind_none nonempty result found bound)
  | some other =>
    obtain ⟨boundOther, occursOther, lastOther⟩ := rfind_some nonempty result
    rcases Nat.lt_trichotomy other found with before | same | after
    · exact absurd occurs (lastOther found before bound)
    · rw [same]
    · exact absurd occursOther (last other after boundOther)

/-! ## Forward search -/

theorem findFrom_eq (needle text : List α) (count start : Nat) :
    findFrom needle text count start =
      (range' start count).find? fun offset => OccursAt needle text offset := by
  induction count generalizing start with
  | zero => rfl
  | succ count ih =>
    rw [findFrom, range'_succ, find?_cons, ih]
    by_cases occurs : OccursAt needle text start <;> simp [occurs]

theorem find_some (result : find needle text start = some found) :
    start ≤ found ∧ OccursAt needle text found ∧
      ∀ other, start ≤ other → other < found → ¬ OccursAt needle text other := by
  rw [find, findFrom_eq, find?_range'_eq_some] at result
  obtain ⟨occurs, member, first⟩ := result
  refine ⟨(mem_range'_1.mp member).1, of_decide_eq_true occurs, fun other above below => ?_⟩
  simpa using first other above below

theorem find_none (nonempty : needle ≠ []) (result : find needle text start = none) :
    ∀ other, start ≤ other → ¬ OccursAt needle text other := by
  intro other above here
  have inside := here.lt_length nonempty
  rw [find, findFrom_eq, find?_range'_eq_none] at result
  simpa [here] using result other above (by omega)

theorem find_eq_some (nonempty : needle ≠ []) (occurs : OccursAt needle text found)
    (bound : start ≤ found)
    (first : ∀ other, start ≤ other → other < found → ¬ OccursAt needle text other) :
    find needle text start = some found := by
  cases result : find needle text start with
  | none => exact absurd occurs (find_none nonempty result found bound)
  | some other =>
    obtain ⟨above, here, earliest⟩ := find_some result
    obtain below | rfl | beyond := Nat.lt_trichotomy other found
    · exact absurd here (first other above below)
    · rfl
    · exact absurd occurs (earliest found bound beyond)

theorem find_eq_none (absent : ∀ other, start ≤ other → ¬ OccursAt needle text other) :
    find needle text start = none := by
  cases result : find needle text start with
  | none => rfl
  | some found =>
    obtain ⟨above, here, -⟩ := find_some result
    exact absurd here (absent found above)

/-! ## Single symbols -/

/-- The first symbol behind a text without it. -/
theorem find_symbol (absent : symbol ∉ text) (front rest : List α) :
    find [symbol] (front ++ (text ++ symbol :: rest)) front.length =
      some (front.length + text.length) := by
  refine find_eq_some (by simp) ?_ (Nat.le_add_right _ _) fun other above below =>
    not_occursAt_of_not_mem absent above _ below
  rw [occursAt_singleton]
  simp

theorem find_symbol_none (absent : symbol ∉ text) (front : List α) :
    find [symbol] (front ++ text) front.length = none := by
  refine find_eq_none fun other above here => ?_
  rw [occursAt_singleton, getElem?_append_right above] at here
  exact absent (mem_of_getElem? here)

/-- The last symbol in front of a text without it. -/
theorem rfind_symbol (absent : symbol ∉ text) (front rest : List α) :
    rfind [symbol] (front ++ symbol :: (text ++ rest)) (front.length + text.length) =
      some front.length := by
  refine rfind_eq_some (by simp) ?_ (Nat.le_add_right _ _) fun other above below => ?_
  · rw [occursAt_singleton]
    simp
  · rw [append_cons]
    exact not_occursAt_of_not_mem absent (by simp; omega) rest (by simp; omega)

end MariadbShell.Lib.Search
