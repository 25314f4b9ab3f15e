import MariadbShell.Sql.Spans

/-!
# The natural order of file names

`natural_compare` compares runs of digits as numbers, or digit by digit if one of them begins
with a zero. Names have keys such that they are ordered as their keys are, by the first
difference; so the order is strict and total and a sorted listing has all its files.
-/

namespace MariadbShell.Storage

open List
open ImportTable (Bytes)
open Sql (isDigit)

/-! ## The code -/

/-- A character as the number that is compared; `char` is signed. -/
def code (chr : UInt8) : Int :=
  chr.toInt8.toInt

def zero : UInt8 := 48

/-- `compare_numbers`, with the places at which it stops; the first difference is the bias. -/
def compareNumbers (bias : Ordering) : Bytes → Bytes → Ordering × Bytes × Bytes
  | chr :: first, other :: second =>
    if ¬ isDigit chr ∧ ¬ isDigit other then (bias, chr :: first, other :: second)
    else if ¬ isDigit chr then (.lt, chr :: first, other :: second)
    else if ¬ isDigit other then (.gt, chr :: first, other :: second)
    else compareNumbers (bias.then (compare (code chr) (code other))) first second
  | first, second => (if first = [] ∧ second = [] then bias else .eq, first, second)

/-- `compare_fractional`, with the places at which it stops. -/
def compareFractional : Bytes → Bytes → Ordering × Bytes × Bytes
  | chr :: first, other :: second =>
    if ¬ isDigit chr ∧ ¬ isDigit other then (.eq, chr :: first, other :: second)
    else if ¬ isDigit chr then (.lt, chr :: first, other :: second)
    else if ¬ isDigit other then (.gt, chr :: first, other :: second)
    else if code chr < code other then (.lt, chr :: first, other :: second)
    else if code other < code chr then (.gt, chr :: first, other :: second)
    else compareFractional first second
  | first, second => (.eq, first, second)

/-- What the loop does with the result for two runs of digits. -/
def resume (next : Bytes → Bytes → Bool) : Ordering × Bytes × Bytes → Bool
  | (.lt, _) => true
  | (.gt, _) => false
  | (.eq, first, second) => next first second

/-- The loop of `natural_compare`, for a number of rounds. -/
def naturalCompareLoop : Nat → Bytes → Bytes → Bool
  | rounds + 1, chr :: first, other :: second =>
    if isDigit chr ∧ isDigit other then
      resume (naturalCompareLoop rounds)
        (if chr = zero ∨ other = zero then compareFractional (chr :: first) (other :: second)
        else compareNumbers .eq (chr :: first) (other :: second))
    else if code chr < code other then true
    else if code other < code chr then false
    else naturalCompareLoop rounds first second
  | _, first, second => first.isEmpty && !second.isEmpty

/-- Each round takes a character of the first text. -/
def naturalCompare (first second : Bytes) : Bool :=
  naturalCompareLoop first.length first second

/-- `std::set::emplace`, for names that are ordered by `Entry_info::operator<`. -/
def emplace (name : Bytes) : List Bytes → List Bytes
  | [] => [name]
  | entry :: entries =>
    if naturalCompare name entry then name :: entry :: entries
    else if naturalCompare entry name then entry :: emplace name entries
    else entry :: entries

def sortEntries (input : List Bytes) : List Bytes :=
  input.foldl (fun output name => emplace name output) []

/-! ## The keys -/

def run (text : Bytes) : Int :=
  (text.takeWhile isDigit).length

/-- Whether something stands behind these digits. -/
def behindRun (text : Bytes) : Int :=
  if text.all isDigit then 0 else 1

/--
The key of a text, in front of which there is a digit or not. A run with a zero in front comes
first, the others are ordered by their length; among those of one length a run at the end of a
name comes first.
-/
def key : Bool → Bytes → List Int
  | _, [] => []
  | inside, chr :: text =>
    if isDigit chr then
      (if inside then []
      else if chr = zero then [48]
      else [49, run (chr :: text), behindRun (chr :: text), 1]) ++
        (1000 + code chr) :: key true text
    else code chr :: key false text

/-- The key of a run without a zero in front, for the bias of the digits before. -/
def runKey (bias : Ordering) (text : Bytes) : List Int :=
  run text :: behindRun text :: (match bias with | .lt => 0 | .eq => 1 | .gt => 2) ::
    key true text

theorem code_injective {chr other : UInt8} (same : code chr = code other) : chr = other :=
  congrArg Int8.toUInt8 (Int8.toInt_inj.mp same)

theorem isDigit_iff (chr : UInt8) : isDigit chr ↔ 48 ≤ code chr ∧ code chr ≤ 57 := by
  have same : code chr = if 2 * chr.toNat < 256 then (chr.toNat : Int) else chr.toNat - 256 :=
    BitVec.toInt_eq_toNat_cond _
  have bound : chr.toNat < 256 := chr.toNat_lt
  rw [isDigit, decide_eq_true_eq]
  change 48 ≤ chr.toNat ∧ chr.toNat ≤ 57 ↔ _
  split at same <;> omega

theorem code_small (chr : UInt8) : code chr < 128 :=
  Int8.toInt_lt _

theorem code_zero : code zero = 48 := rfl

variable {chr other : UInt8} {first second : Bytes} {inside : Bool}

theorem key_other (digit : ¬ isDigit chr) :
    key inside (chr :: first) = code chr :: key false first := by
  rw [key, if_neg digit]

theorem key_inside (digit : isDigit chr) :
    key true (chr :: first) = (1000 + code chr) :: key true first := by
  rw [key, if_pos digit, if_pos rfl, nil_append]

theorem key_zero : key false (zero :: first) = 48 :: (1000 + code zero) :: key true first := rfl

theorem key_number (digit : isDigit chr) (other : chr ≠ zero) :
    key false (chr :: first) = 49 :: runKey .eq (chr :: first) := by
  simp [key, runKey, digit, other]

theorem key_injective : key inside first = key inside second → first = second := by
  induction first generalizing second inside with
  | nil =>
    cases second with
    | nil => exact fun _ => rfl
    | cons other second =>
      rw [key, key]
      split_ifs <;> simp
  | cons chr first ih =>
    cases second with
    | nil =>
      rw [key, key]
      split_ifs <;> simp
    | cons other second =>
      have small := code_small chr
      have smallOther := code_small other
      simp only [key, isDigit_iff]
      intro same
      split_ifs at same <;>
        simp only [cons_append, nil_append, cons.injEq] at same <;>
        first
        | omega
        | obtain rfl : chr = other := code_injective (by omega)
          first | rw [ih same.2] | rw [ih same.2.2] | rw [ih same.2.2.2.2.2]

/-! ## The order -/

theorem run_digit (digit : isDigit chr) : run (chr :: first) = run first + 1 := by
  rw [run, takeWhile_cons_of_pos digit, length_cons]
  rfl

theorem run_other (digit : ¬ isDigit chr) : run (chr :: first) = 0 := by
  rw [run, takeWhile_cons_of_neg digit]
  rfl

theorem run_pos (digit : isDigit chr) : 0 < run (chr :: first) := by
  rw [run_digit digit]
  exact Int.lt_add_one_of_le (Int.natCast_nonneg _)

theorem behindRun_digit (digit : isDigit chr) : behindRun (chr :: first) = behindRun first := by
  rw [behindRun, all_cons, digit, Bool.true_and, behindRun]

theorem behindRun_other (digit : ¬ isDigit chr) : behindRun (chr :: first) = 1 := by
  rw [behindRun, all_cons, Bool.not_eq_true _ |>.mp digit, Bool.false_and, if_neg nofun]

/-- Two digits change the bias as the keys of the digits do. -/
theorem runKey_step (bias : Ordering) (digit : isDigit chr) (digitOther : isDigit other) :
    runKey bias (chr :: first) < runKey .eq (other :: second) ↔
      runKey (bias.then (compare (code chr) (code other))) first < runKey .eq second := by
  simp only [runKey, run_digit digit, run_digit digitOther, behindRun_digit digit,
    behindRun_digit digitOther, key_inside digit, key_inside digitOther, cons_lt_cons_iff]
  cases bias with
  | lt | gt => simp
  | eq =>
    rcases lt_trichotomy (code chr) (code other) with less | same | greater
    · simp [compare_lt_iff_lt.mpr less, less]
    · simp [same]
    · simp [compare_gt_iff_gt.mpr greater, greater.not_gt, greater.ne']

/-- The loop is right about texts of this length. -/
def Orders (length : Nat) (next : Bytes → Bytes → Bool) : Prop :=
  ∀ first second, first.length ≤ length → (next first second ↔ key false first < key false second)

theorem nil_lt_key (inside inner : Bool) : key inside [] < key inner (chr :: first) := by
  rw [key, key]
  split_ifs <;> exact nil_lt_cons _ _

theorem key_lt_of_digit (digit : ¬ isDigit chr) (digitOther : isDigit other) :
    key true (chr :: first) < key true (other :: second) := by
  have small := code_small chr
  have large := (isDigit_iff other).mp digitOther
  rw [key_other digit, key_inside digitOther]
  exact cons_lt_cons_iff.mpr (.inl (by omega))

variable {next : Bytes → Bytes → Bool}

theorem resume_compareFractional (orders : Orders first.length next) :
    resume next (compareFractional first second) ↔ key true first < key true second := by
  fun_induction compareFractional first second with
  | case1 chr first other second digits =>
    rw [resume, orders _ _ (Nat.le_refl _), key_other digits.1, key_other digits.2,
      key_other digits.1, key_other digits.2]
  | case2 chr first other second _ digit =>
    exact iff_of_true rfl (key_lt_of_digit digit (by simp_all))
  | case3 chr first other second _ digit digitOther =>
    exact iff_of_false nofun (key_lt_of_digit digitOther (not_not.mp digit)).not_gt
  | case4 chr first other second _ digit digitOther less =>
    rw [key_inside (not_not.mp digit), key_inside (not_not.mp digitOther), cons_lt_cons_iff]
    exact iff_of_true rfl (.inl (by omega))
  | case5 chr first other second _ digit digitOther _ greater =>
    rw [key_inside (not_not.mp digit), key_inside (not_not.mp digitOther), cons_lt_cons_iff]
    exact iff_of_false nofun (by omega)
  | case6 chr first other second _ digit digitOther less greater ih =>
    obtain same : code chr = code other := by omega
    rw [ih fun _ _ small => orders _ _ (small.trans (Nat.le_succ _)),
      key_inside (not_not.mp digit), key_inside (not_not.mp digitOther), same, cons_lt_cons_self]
  | case7 first second ended =>
    rw [resume, orders _ _ (Nat.le_refl _)]
    cases first with
    | nil =>
      cases second with
      | nil => rfl
      | cons other second => exact iff_of_true (nil_lt_key ..) (nil_lt_key ..)
    | cons chr first =>
      cases second with
      | nil => exact iff_of_false (nil_lt_key ..).not_gt (nil_lt_key ..).not_gt
      | cons other second => cases ended _ _ _ _ rfl rfl

theorem runKey_lt_of_run {bias also : Ordering} (less : run first < run second) :
    runKey bias first < runKey also second :=
  cons_lt_cons_iff.mpr (.inl less)

theorem runKey_lt_of_digit {bias also : Ordering} (digit : ¬ isDigit chr)
    (digitOther : isDigit other) : runKey bias (chr :: first) < runKey also (other :: second) :=
  runKey_lt_of_run (run_other digit ▸ run_pos digitOther)

/-- A run at the end of a name comes before the runs that are not shorter. -/
theorem runKey_nil_lt (bias also : Ordering) : runKey bias [] < runKey also (chr :: first) := by
  by_cases digit : isDigit chr
  · exact runKey_lt_of_run (run_pos digit)
  · unfold runKey
    rw [run_other digit, behindRun_other digit]
    exact cons_lt_cons_iff.mpr (.inr ⟨rfl, cons_lt_cons_iff.mpr (.inl Int.zero_lt_one)⟩)

theorem resume_compareNumbers (orders : Orders first.length next) (bias : Ordering) :
    resume next (compareNumbers bias first second) ↔ runKey bias first < runKey .eq second := by
  fun_induction compareNumbers bias first second with
  | case1 bias chr first other second digits =>
    have stopped := orders (chr :: first) (other :: second) (Nat.le_refl _)
    rw [key_other digits.1, key_other digits.2] at stopped
    cases bias <;>
      simp [resume, runKey, run_other digits.1, run_other digits.2, behindRun_other digits.1,
        behindRun_other digits.2, key_other digits.1, key_other digits.2, stopped, cons_lt_cons_iff]
  | case2 bias chr first other second _ digit =>
    exact iff_of_true rfl (runKey_lt_of_digit digit (by simp_all))
  | case3 bias chr first other second _ digit digitOther =>
    exact iff_of_false nofun (runKey_lt_of_digit digitOther (not_not.mp digit)).not_gt
  | case4 bias chr first other second _ digit digitOther ih =>
    rw [ih fun _ _ small => orders _ _ (small.trans (Nat.le_succ _)),
      runKey_step bias (not_not.mp digit) (not_not.mp digitOther)]
  | case5 bias first second ended =>
    have stopped := orders first second (Nat.le_refl _)
    cases first with
    | nil =>
      cases second with
      | nil => cases bias <;> simp [resume, stopped, runKey, cons_lt_cons_iff]
      | cons other second =>
        simp only [reduceCtorEq, and_false, if_false, resume]
        exact iff_of_true (stopped.mpr (nil_lt_key ..)) (runKey_nil_lt ..)
    | cons chr first =>
      cases second with
      | nil =>
        simp only [reduceCtorEq, false_and, if_false, resume, stopped]
        exact iff_of_false (nil_lt_key ..).not_gt (runKey_nil_lt ..).not_gt
      | cons other second => cases ended _ _ _ _ rfl rfl

theorem key_lt_of_zero (digit : isDigit other) (nonzero : other ≠ zero) :
    key false (zero :: first) < key false (other :: second) := by
  rw [key_zero, key_number digit nonzero]
  exact cons_lt_cons_iff.mpr (.inl (by decide))

theorem key_lt_of_code (digits : ¬ (isDigit chr ∧ isDigit other)) (less : code chr < code other) :
    key false (chr :: first) < key false (other :: second) := by
  simp only [isDigit_iff] at digits
  simp only [key, isDigit_iff]
  split_ifs <;> exact cons_lt_cons_iff.mpr (.inl (by grind [code_zero]))

theorem orders_naturalCompareLoop (rounds : Nat) : Orders rounds (naturalCompareLoop rounds) := by
  induction rounds with
  | zero =>
    rintro (_ | ⟨chr, first⟩) second short
    · cases second with
      | nil => exact iff_of_false nofun nofun
      | cons other second => exact iff_of_true rfl (nil_lt_key ..)
    · cases short
  | succ rounds ih =>
    rintro (_ | ⟨chr, first⟩) (_ | ⟨other, second⟩) short
    · exact iff_of_false nofun nofun
    · exact iff_of_true rfl (nil_lt_key ..)
    · exact iff_of_false nofun (nil_lt_key ..).not_gt
    · have rest : Orders first.length (naturalCompareLoop rounds) := fun _ _ shorter =>
        ih _ _ (shorter.trans (Nat.le_of_succ_le_succ short))
      rw [naturalCompareLoop]
      split
      · rename_i digits
        obtain ⟨digit, digitOther⟩ := digits
        have large := (isDigit_iff chr).mp digit
        have largeOther := (isDigit_iff other).mp digitOther
        split
        · rename_i zeros
          simp only [compareFractional, digit, digitOther, not_true, and_self, if_false]
          split
          · rename_i less
            obtain rfl | rfl := zeros
            · exact iff_of_true rfl (key_lt_of_zero digitOther (by rintro rfl; omega))
            · rw [code_zero] at less
              omega
          · split
            · rename_i greater
              obtain rfl | rfl := zeros
              · rw [code_zero] at greater
                omega
              · exact iff_of_false nofun
                  (key_lt_of_zero digit (by rintro rfl; omega)).not_gt
            · obtain rfl : chr = other := code_injective (by omega)
              obtain rfl : chr = zero := zeros.elim id id
              rw [resume_compareFractional rest, key_zero, key_zero, cons_lt_cons_self,
                cons_lt_cons_self]
        · rename_i zeros
          rw [not_or] at zeros
          simp only [compareNumbers, digit, digitOther, not_true, and_self, if_false]
          rw [resume_compareNumbers rest, ← runKey_step .eq digit digitOther,
            key_number digit zeros.1, key_number digitOther zeros.2, cons_lt_cons_self]
      · rename_i digits
        split
        · rename_i less
          exact iff_of_true rfl (key_lt_of_code digits less)
        · split
          · rename_i greater
            exact iff_of_false nofun
              (key_lt_of_code (fun both => digits both.symm) greater).not_gt
          · obtain rfl : chr = other := code_injective (by omega)
            rw [and_self] at digits
            rw [rest _ _ (Nat.le_refl _), key_other digits, key_other digits, cons_lt_cons_self]

theorem naturalCompare_iff : naturalCompare first second ↔ key false first < key false second :=
  orders_naturalCompareLoop _ _ _ (Nat.le_refl _)

instance naturalCompare_total :
    IsStrictTotalOrder Bytes fun first second => naturalCompare first second :=
  RelEmbedding.isStrictTotalOrder (s := (· < · : List Int → List Int → Prop))
    ⟨⟨key false, fun _ _ => key_injective⟩, naturalCompare_iff.symm⟩

theorem mem_emplace (name entry : Bytes) (entries : List Bytes) :
    entry ∈ emplace name entries ↔ entry = name ∨ entry ∈ entries := by
  fun_induction emplace name entries with
  | case1 => exact mem_cons
  | case2 => exact mem_cons
  | case3 _ _ _ _ ih => rw [mem_cons, ih, mem_cons, or_left_comm]
  | case4 other entries before after =>
    obtain rfl : name = other :=
      Std.Trichotomous.trichotomous (r := fun first second => (naturalCompare first second : Prop))
        _ _ before after
    simp

/--
The natural order is a strict total order, and a listing that is sorted by it has the files it
had before.
-/
theorem strict_total_and_sort_keeps :
    IsStrictTotalOrder Bytes (fun first second => naturalCompare first second) ∧
      ∀ input name, name ∈ sortEntries input ↔ name ∈ input := by
  refine ⟨naturalCompare_total, fun input name => ?_⟩
  have keeps (output : List Bytes) : name ∈ input.foldl (fun output name => emplace name output)
      output ↔ name ∈ input ∨ name ∈ output := by
    induction input generalizing output with
    | nil => simp
    | cons entry input ih => rw [foldl_cons, ih, mem_emplace, mem_cons, or_left_comm, or_assoc]
  simp [sortEntries, keeps]

end MariadbShell.Storage
