import MariadbShell.Lib.Search

/-!
# Names with separators between them

When a text of names with separators between them can be taken apart in one way only.
-/

namespace MariadbShell.Lib.Separated

open List Lib.Search

variable {α : Type}

/-- In front of a separator, the name holds no occurrence of it. -/
def Free (separator name : List α) : Prop :=
  ∀ offset < name.length, ¬ OccursAt separator (name ++ separator) offset

instance [DecidableEq α] (separator name : List α) : Decidable (Free separator name) :=
  inferInstanceAs (Decidable (∀ offset < name.length,
    ¬ OccursAt separator (name ++ separator) offset))

variable {left right separator name : List α} {rest rest' : List α}

theorem length_le_of_free (free : Free separator right)
    (same : left ++ (separator ++ rest) = right ++ (separator ++ rest')) :
    right.length ≤ left.length := by
  by_contra shorter
  have occurs : OccursAt separator (left ++ (separator ++ rest)) left.length := by
    unfold OccursAt
    rw [drop_left]
    exact prefix_append _ _
  rw [same, ← append_assoc] at occurs
  have inside : left.length + separator.length ≤ (right ++ separator).length := by
    rw [length_append]
    omega
  exact free left.length (by omega) (occurs.of_append inside)

/-- The names in front of the first separator are the same, and so is what follows it. -/
theorem split_first (freeLeft : Free separator left) (freeRight : Free separator right)
    (same : left ++ (separator ++ rest) = right ++ (separator ++ rest')) :
    left = right ∧ rest = rest' := by
  have above := length_le_of_free freeRight same
  have below := length_le_of_free freeLeft same.symm
  obtain ⟨names, rests⟩ := append_inj same (by omega)
  exact ⟨names, append_cancel_left rests⟩

variable {marker : α}

/-- A name without the first symbol of the separator. -/
theorem free_of_not_mem (absent : marker ∉ name) (more : List α) : Free (marker :: more) name := by
  intro offset inside occurs
  have here : OccursAt [marker] (name ++ marker :: more) offset :=
    (prefix_append [marker] more).trans occurs
  rw [occursAt_singleton, getElem?_append_left inside] at here
  exact absent (mem_of_getElem? here)

theorem free_singleton (absent : marker ∉ name) : Free [marker] name :=
  free_of_not_mem absent []

/-- The first separator behind a name is found there. -/
theorem find_of_free [DecidableEq α] (nonempty : separator ≠ []) (free : Free separator name)
    (rest : List α) :
    find separator (name ++ (separator ++ rest)) 0 = some name.length := by
  have occurs : OccursAt separator (name ++ (separator ++ rest)) name.length := by
    unfold OccursAt
    rw [drop_left]
    exact prefix_append _ _
  refine find_eq_some nonempty occurs (Nat.zero_le _) fun offset _ before here => ?_
  rw [← append_assoc] at here
  refine absurd (here.of_append ?_) (free offset before)
  rw [length_append]
  omega

/-- A name that holds a separator can be cut there. -/
theorem cut_of_not_free (taken : ¬ Free separator name) :
    ∃ before behind, before.length < name.length ∧
      name ++ separator = before ++ (separator ++ behind) := by
  unfold Free at taken
  push Not at taken
  obtain ⟨offset, inside, behind, occurs⟩ := taken
  refine ⟨(name ++ separator).take offset, behind, ?_, ?_⟩
  · rw [length_take]
    omega
  · rw [occurs, take_append_drop]

/-- What follows the last marker is the same, and so is what is in front of it. -/
theorem split_last (absent : marker ∉ rest) (absent' : marker ∉ rest')
    (same : left ++ marker :: rest = right ++ marker :: rest') : left = right ∧ rest = rest' := by
  have reversed : rest.reverse ++ ([marker] ++ left.reverse) =
      rest'.reverse ++ ([marker] ++ right.reverse) := by
    have := congrArg List.reverse same
    simpa using this
  obtain ⟨behind, before⟩ := split_first
    (free_singleton (by simpa using absent)) (free_singleton (by simpa using absent')) reversed
  exact ⟨reverse_inj.mp before, reverse_inj.mp behind⟩

/-- Of two texts that end with marked words, the words of one are the last ones of the other. -/
theorem marked_words {words words' : List (List α)} (absent : ∀ word ∈ words, marker ∉ word)
    (absent' : ∀ word ∈ words', marker ∉ word)
    (same : left ++ words.flatMap (marker :: ·) = right ++ words'.flatMap (marker :: ·)) :
    (∃ front, words' = front ++ words ∧ left = right ++ front.flatMap (marker :: ·)) ∨
      ∃ front, words = front ++ words' ∧ right = left ++ front.flatMap (marker :: ·) := by
  induction words using List.reverseRecOn generalizing words' with
  | nil => exact .inl ⟨words', by simp, by simpa using same⟩
  | append_singleton words word ih =>
    cases words' using List.reverseRecOn with
    | nil => exact .inr ⟨words ++ [word], by simp, by simpa using same.symm⟩
    | append_singleton words' word' =>
      simp only [flatMap_append, flatMap_cons, flatMap_nil, append_nil, ← append_assoc] at same
      obtain ⟨texts, rfl⟩ := split_last (absent word (by simp)) (absent' word' (by simp)) same
      rcases ih (fun one member => absent one (by simp [member]))
        (fun one member => absent' one (by simp [member])) texts with
        ⟨front, rfl, fronts⟩ | ⟨front, rfl, fronts⟩
      · exact .inl ⟨front, by simp, fronts⟩
      · exact .inr ⟨front, by simp, fronts⟩

end MariadbShell.Lib.Separated
