import Mathlib

/-!
# Binary search for a bound

The halving loop of `std::lower_bound`. If the elements that lie before the bound come
first, the loop finds the first element that does not.
-/

namespace MariadbShell.Lib.LowerBound

open List

variable {α : Type}

/-- The loop over `count` positions from `first` on, at most `fuel` turns. -/
def search (before : Nat → Bool) : Nat → Nat → Nat → Nat
  | 0, first, _ => first
  | fuel + 1, first, count =>
    if count = 0 then first
    else
      let half := count / 2
      if before (first + half) then search before fuel (first + half + 1) (count - half - 1)
      else search before fuel first half

theorem search_eq {before : Nat → Bool} {fuel first count bound : Nat} (enough : count ≤ fuel)
    (lower : first ≤ bound) (upper : bound ≤ first + count)
    (yes : ∀ index, first ≤ index → index < bound → before index = true)
    (no : ∀ index, bound ≤ index → index < first + count → before index = false) :
    search before fuel first count = bound := by
  induction fuel generalizing first count with
  | zero =>
    rw [search]
    omega
  | succ fuel ih =>
    rw [search]
    by_cases none : count = 0
    · rw [if_pos none]
      omega
    · rw [if_neg none]
      dsimp only
      by_cases here : first + count / 2 < bound
      · rw [if_pos (yes _ (Nat.le_add_right ..) here)]
        refine ih (by omega) (by omega) (by omega) (fun index after => ?_) fun index after => ?_
        · exact yes index (by omega)
        · intro inside
          exact no index after (by omega)
      · have later := no (first + count / 2) (by omega) (by omega)
        rw [later, if_neg Bool.false_ne_true]
        refine ih (by omega) lower (by omega) yes fun index after inside => ?_
        exact no index after (by omega)

/-- `std::lower_bound`: the index of the first element that is not before the bound. -/
def lowerBound (before : α → Bool) (list : List α) : Nat :=
  search (fun index => list[index]?.any before) list.length 0 list.length

theorem lowerBound_append {before : α → Bool} {left right : List α}
    (yes : ∀ element ∈ left, before element = true)
    (no : ∀ element ∈ right, before element = false) :
    lowerBound before (left ++ right) = left.length := by
  refine search_eq (Nat.le_refl _) (Nat.zero_le _) (by simp) (fun index _ inside => ?_)
    fun index after inside => ?_
  · rw [getElem?_append_left inside, getElem?_eq_getElem inside]
    exact yes _ (getElem_mem inside)
  · rw [getElem?_append_right after]
    cases found : right[index - left.length]? with
    | none => rfl
    | some element => exact no element (mem_of_getElem? found)

end MariadbShell.Lib.LowerBound
