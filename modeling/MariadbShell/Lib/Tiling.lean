import Mathlib

/-!
# Tilings of integer ranges

A list of ranges that follow each other without gaps.
-/

namespace MariadbShell.Lib

/-- The ranges begin at `start`, each one begins behind the one before it, and `stop` is
behind the last one. -/
inductive Tiles : Int → List (Int × Int) → Int → Prop where
  | nil (start : Int) : Tiles start [] start
  | cons {first last stop : Int} {rest : List (Int × Int)} (ordered : first ≤ last)
      (tail : Tiles (last + 1) rest stop) : Tiles first ((first, last) :: rest) stop

namespace Tiles

variable {start middle stop : Int} {ranges others : List (Int × Int)}

theorem append (front : Tiles start ranges middle) (back : Tiles middle others stop) :
    Tiles start (ranges ++ others) stop := by
  induction front with
  | nil => exact back
  | cons ordered _ ih => exact .cons ordered (ih back)

theorem singleton {first last : Int} (ordered : first ≤ last) :
    Tiles first [(first, last)] (last + 1) :=
  .cons ordered (.nil _)

section

variable (tiles : Tiles start ranges stop)

include tiles

theorem le : start ≤ stop := by
  induction tiles with
  | nil => exact Int.le_refl _
  | cons ordered _ ih => omega

/-- The union of the ranges. -/
theorem mem_iff (key : Int) :
    (∃ range ∈ ranges, range.1 ≤ key ∧ key ≤ range.2) ↔ start ≤ key ∧ key < stop := by
  induction tiles with
  | nil => simp
  | cons ordered tail ih =>
    have behind := tail.le
    simp only [List.mem_cons, exists_eq_or_imp, ih]
    omega

theorem bounds {range : Int × Int} (member : range ∈ ranges) :
    start ≤ range.1 ∧ range.1 ≤ range.2 ∧ range.2 < stop := by
  induction tiles with
  | nil => exact nomatch member
  | cons ordered tail ih =>
    rcases List.mem_cons.mp member with rfl | later
    · have behind := tail.le
      exact ⟨Int.le_refl _, ordered, by omega⟩
    · have inside := ih later
      exact ⟨by omega, inside.2⟩

/-- The ranges ascend and do not overlap. -/
theorem ascending : ranges.Pairwise fun range other => range.2 < other.1 := by
  induction tiles with
  | nil => exact .nil
  | cons ordered tail ih =>
    refine .cons (fun range member => ?_) ih
    have inside := tail.bounds member
    omega

end

end Tiles

end MariadbShell.Lib
