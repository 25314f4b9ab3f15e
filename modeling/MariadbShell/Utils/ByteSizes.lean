import MariadbShell.Lib.Decimal
import MariadbShell.Sql.Spans

/-!
# Sizes with units

`expand_to_bytes` reads a number from the front of a text, up to the first character that is
no digit, and units from its end, up to the first digit there. It does not compare the places
where the two scans stop, and its products wrap around.
-/

namespace MariadbShell.Utils

open List
open ImportTable (Bytes ascii)
open Lib.Decimal Sql Chr

inductive SizeError where
  | wrongInput
  | negative
deriving DecidableEq, Repr

def SizeError.message (number : Bytes) : SizeError → Bytes
  | .wrongInput => ascii "Wrong input number \"".toList ++ number ++ [doubleQuote]
  | .negative => ascii "Input number \"".toList ++ number ++ ascii "\" cannot be negative".toList

/-- `std::stoull`, `none` for both of its exceptions. -/
def stoull (text : Bytes) : Option Nat :=
  let number := text.dropWhile isSpace
  let negative : Bool := number.head? = some minus
  let unsigned := if negative ∨ number.head? = some plus then number.tail else number
  let digits := unsigned.takeWhile isDigit
  if digits = [] ∨ 2 ^ 64 ≤ value digits then none
  else some (if negative then (2 ^ 64 - value digits) % 2 ^ 64 else value digits)

def unitFactor (chr : UInt8) : Option Nat :=
  if chr = 107 ∨ chr = 75 then some 1000
  else if chr = 77 then some (1000 * 1000)
  else if chr = 71 then some (1000 * 1000 * 1000)
  else none

/-- The loop over the characters from the last one on. -/
def expandUnits : Bytes → Nat → Except SizeError Nat
  | [], bytes => .ok bytes
  | last :: rest, bytes =>
    if last = nul then .ok bytes
    else
      match unitFactor last with
      | some factor => expandUnits rest (bytes * factor % 2 ^ 64)
      | none => if isDigit last then .ok bytes else .error .wrongInput

def expandToBytes (number : Bytes) : Except SizeError Nat :=
  match stoull number with
  | none => .error .wrongInput
  | some bytes =>
    if minus ∈ number then .error .negative
    else if dot ∈ number ∨ comma ∈ number then .error .wrongInput
    else expandUnits number.reverse bytes

/-! ## Sizes -/

def isUnit (chr : UInt8) : Bool :=
  (unitFactor chr).isSome

def factor (units : Bytes) : Nat :=
  (units.map fun chr => (unitFactor chr).getD 1).prod

/-- A number with units behind it. -/
structure IsSize (text : Bytes) : Prop where
  digits : text.takeWhile isDigit ≠ []
  units : ∀ chr ∈ text.dropWhile isDigit, isUnit chr = true

def size (text : Bytes) : Nat :=
  value (text.takeWhile isDigit) * factor (text.dropWhile isDigit)

/-- Digits behind blanks and at most a plus sign. -/
structure IsNumbered (text blanks sign digits rest : Bytes) : Prop where
  text_eq : text = blanks ++ (sign ++ (digits ++ rest))
  blank : ∀ chr ∈ blanks, isSpace chr = true
  unsigned : sign = [] ∨ sign = [plus]
  number : digits ≠ [] ∧ ∀ chr ∈ digits, isDigit chr = true
  ends : ∀ chr ∈ rest.head?, isDigit chr = false

/--
A text that starts with blanks, a plus sign and a number below `2 ^ 64`, where the blanks and
the sign may be missing, and that ends with a digit or a zero byte and units behind it, whatever
is in between but for signs, dots and commas.
-/
structure IsLooseSize (text : Bytes) : Prop where
  front : ∃ blanks sign digits rest, IsNumbered text blanks sign digits rest ∧
    value digits < 2 ^ 64
  calm : minus ∉ text ∧ dot ∉ text ∧ comma ∉ text
  back : ∃ before last units, text = before ++ last :: units ∧
    (∀ chr ∈ units, isUnit chr = true) ∧ (last = nul ∨ isDigit last = true)

theorem isUnit_facts : ∀ chr, isUnit chr = true →
    isDigit chr = false ∧ chr ≠ nul ∧ chr ≠ minus ∧ chr ≠ dot ∧ chr ≠ comma :=
  forall_byte (by decide +kernel)

theorem isDigit_facts : ∀ chr, isDigit chr = true → isUnit chr = false ∧ isSpace chr = false ∧
    chr ≠ minus ∧ chr ≠ plus ∧ chr ≠ dot ∧ chr ≠ comma :=
  forall_byte (by decide +kernel)

/-- The units are multiplied up to the first character that is none. -/
theorem expandUnits_eq_ok_iff (text : Bytes) {bytes result : Nat} (small : bytes < 2 ^ 64) :
    expandUnits text bytes = .ok result ↔
      (∀ chr, (text.dropWhile isUnit).head? = some chr → chr = nul ∨ isDigit chr = true) ∧
        bytes * factor (text.takeWhile isUnit) % 2 ^ 64 = result := by
  have same : bytes * factor [] % 2 ^ 64 = bytes := by
    rw [factor, map_nil, prod_nil, Nat.mul_one, Nat.mod_eq_of_lt small]
  induction text generalizing bytes with
  | nil =>
    rw [expandUnits, takeWhile_nil, same]
    simp
  | cons chr text ih =>
    rw [expandUnits]
    cases unit : unitFactor chr with
    | some times =>
      have found : isUnit chr = true := by rw [isUnit, unit]; rfl
      have below : bytes * times % 2 ^ 64 < 2 ^ 64 := Nat.mod_lt _ (by decide)
      rw [if_neg (isUnit_facts chr found).2.1, dropWhile_cons_of_pos found,
        takeWhile_cons_of_pos found, factor, map_cons, prod_cons, unit, Option.getD_some,
        ← Nat.mul_assoc, ← Nat.mod_mul_mod]
      refine ih below ?_
      rw [factor, map_nil, prod_nil, Nat.mul_one, Nat.mod_eq_of_lt below]
    | none =>
      have other : ¬ isUnit chr = true := by simp [isUnit, unit]
      rw [dropWhile_cons_of_neg other, takeWhile_cons_of_neg other, same]
      by_cases zero : chr = nul
      · simp [zero]
      · by_cases digit : isDigit chr = true <;> simp [zero, digit]

/-- A number behind blanks and a plus sign is read. -/
theorem IsNumbered.stoull {text blanks sign digits rest : Bytes}
    (numbered : IsNumbered text blanks sign digits rest) :
    stoull text = if 2 ^ 64 ≤ value digits then none else some (value digits) := by
  obtain ⟨rfl, blank, unsigned, ⟨nonempty, digit⟩, ends⟩ := numbered
  have read : (digits ++ rest).takeWhile isDigit = digits := by
    rw [takeWhile_append_of_pos digit]
    cases rest with
    | nil => rw [takeWhile_nil, append_nil]
    | cons chr rest =>
      rw [takeWhile_cons_of_neg (by simp [ends chr rfl]), append_nil]
  obtain ⟨first, others, rfl⟩ := exists_cons_of_ne_nil nonempty
  obtain ⟨-, noSpace, noMinus, noPlus, -⟩ := isDigit_facts first (digit first mem_cons_self)
  rw [Utils.stoull, dropWhile_append_of_pos blank]
  rcases unsigned with rfl | rfl
  · have start : (first :: (others ++ rest)).dropWhile isSpace = first :: (others ++ rest) :=
      dropWhile_cons_of_neg (by simp [noSpace])
    simp only [nil_append, cons_append] at read ⊢
    simp [start, noMinus, noPlus, read]
  · have start : (plus :: (first :: others ++ rest)).dropWhile isSpace =
        plus :: (first :: others ++ rest) := dropWhile_cons_of_neg (by decide)
    have other : plus ≠ minus := by decide
    simp only [singleton_append, start, head?_cons, tail_cons, Option.some.injEq, other,
      decide_false, Bool.false_eq_true, false_or, if_true, if_false, read, nonempty]

/-- What is read without a minus sign is a number behind blanks and a plus sign. -/
theorem exists_isNumbered {text : Bytes} {number : Nat} (noMinus : minus ∉ text)
    (found : stoull text = some number) :
    ∃ blanks sign digits rest, IsNumbered text blanks sign digits rest := by
  have split : text.takeWhile isSpace ++ text.dropWhile isSpace = text := takeWhile_append_dropWhile
  have blank : ∀ chr ∈ text.takeWhile isSpace, isSpace chr = true := fun _ => mem_takeWhile_imp
  have unsigned : (text.dropWhile isSpace).head? ≠ some minus := fun first =>
    noMinus ((dropWhile_suffix _).subset (mem_of_mem_head? first))
  obtain ⟨good, -⟩ := Option.ite_none_left_eq_some.mp found
  have nonempty := (not_or.mp good).1
  simp only [unsigned, decide_false, Bool.false_eq_true, false_or] at nonempty
  have numbered {sign number : Bytes} (known : sign = [] ∨ sign = [plus])
      (behind : text.dropWhile isSpace = sign ++ number) (digits : number.takeWhile isDigit ≠ []) :
      IsNumbered text (text.takeWhile isSpace) sign (number.takeWhile isDigit)
        (number.dropWhile isDigit) := by
    refine ⟨?_, blank, known, ⟨digits, fun _ => mem_takeWhile_imp⟩, fun chr first => ?_⟩
    · rw [takeWhile_append_dropWhile, ← behind, split]
    · have other := head?_dropWhile_not isDigit number
      rw [Option.mem_def.mp first] at other
      simpa using other
  by_cases sign : (text.dropWhile isSpace).head? = some plus
  · obtain ⟨number, number_eq⟩ := head?_eq_some_iff.mp sign
    rw [if_pos sign, number_eq, tail_cons] at nonempty
    exact ⟨_, _, _, _, numbered (.inr rfl) number_eq nonempty⟩
  · rw [if_neg sign] at nonempty
    exact ⟨_, _, _, _, numbered (.inl rfl) rfl nonempty⟩

/-- The scan from the end stops at a digit or a zero byte that has only units behind it. -/
theorem stops_iff {text : Bytes} (digit : ∃ chr ∈ text, isDigit chr = true) :
    (∀ chr, (text.reverse.dropWhile isUnit).head? = some chr → chr = nul ∨ isDigit chr = true) ↔
      ∃ before last units, text = before ++ last :: units ∧
        (∀ chr ∈ units, isUnit chr = true) ∧ (last = nul ∨ isDigit last = true) := by
  constructor
  · intro stops
    have split : text.reverse.takeWhile isUnit ++ text.reverse.dropWhile isUnit = text.reverse :=
      takeWhile_append_dropWhile
    cases behind : text.reverse.dropWhile isUnit with
    | nil =>
      obtain ⟨chr, member, isDigit⟩ := digit
      have unit := dropWhile_eq_nil_iff.mp behind chr (mem_reverse.mpr member)
      rw [(isDigit_facts chr isDigit).1] at unit
      cases unit
    | cons last before =>
      rw [behind] at stops split
      refine ⟨before.reverse, last, (text.reverse.takeWhile isUnit).reverse, ?_, ?_, stops last rfl⟩
      · have reversed := congrArg reverse split
        rw [reverse_append, reverse_cons, append_assoc, reverse_reverse] at reversed
        exact reversed.symm
      · exact fun chr member => mem_takeWhile_imp (mem_reverse.mp member)
  · rintro ⟨before, last, units, rfl, unitsOnly, stop⟩ chr first
    have other : ¬ isUnit last = true := by
      intro unit
      rcases stop with zero | digit
      · exact (isUnit_facts last unit).2.1 zero
      · rw [(isDigit_facts last digit).1] at unit
        cases unit
    rw [reverse_append, reverse_cons, append_assoc, singleton_append,
      dropWhile_append_of_pos fun chr member => unitsOnly chr (mem_reverse.mp member),
      dropWhile_cons_of_neg other] at first
    cases first
    exact stop

/-- A text is accepted by its shape, and read as the number at its front with its units. -/
theorem expandToBytes_eq_ok_iff (text : Bytes) (bytes : Nat) :
    expandToBytes text = .ok bytes ↔ IsLooseSize text ∧ ∃ number, stoull text = some number ∧
      number * factor (text.reverse.takeWhile isUnit) % 2 ^ 64 = bytes := by
  have digit {blanks sign digits rest : Bytes}
      (numbered : IsNumbered text blanks sign digits rest) :
      ∃ chr ∈ text, isDigit chr = true := by
    obtain ⟨rfl, -, -, ⟨nonempty, digit⟩, -⟩ := numbered
    obtain ⟨chr, member⟩ := exists_mem_of_ne_nil _ nonempty
    exact ⟨chr, by simp [member], digit chr member⟩
  constructor
  · intro result
    unfold expandToBytes at result
    split at result
    · cases result
    next number found =>
    split at result
    · cases result
    next noMinus =>
    split at result
    · cases result
    next calm =>
    obtain ⟨blanks, sign, digits, rest, numbered⟩ := exists_isNumbered noMinus found
    have small : value digits < 2 ^ 64 ∧ value digits = number := by
      have read := numbered.stoull
      rw [found] at read
      split at read
      · cases read
      · next small => exact ⟨Nat.not_le.mp small, (Option.some.inj read).symm⟩
    obtain ⟨stops, same⟩ := (expandUnits_eq_ok_iff text.reverse (small.2 ▸ small.1)).mp result
    exact ⟨⟨⟨_, _, _, _, numbered, small.1⟩, ⟨noMinus, not_or.mp calm⟩,
      (stops_iff (digit numbered)).mp stops⟩, number, found, same⟩
  · rintro ⟨⟨⟨blanks, sign, digits, rest, numbered, small⟩, ⟨noMinus, calm⟩, back⟩, number, found,
      same⟩
    have read := numbered.stoull
    rw [if_neg (Nat.not_le.mpr small), found] at read
    cases read
    simp only [expandToBytes, found, if_neg noMinus, if_neg (not_or.mpr calm)]
    exact (expandUnits_eq_ok_iff text.reverse small).mpr
      ⟨(stops_iff (digit numbered)).mpr back, same⟩

theorem factor_pos (units : Bytes) : 0 < factor units := by
  have positive : ∀ chr, 0 < (unitFactor chr).getD 1 := forall_byte (by decide +kernel)
  induction units with
  | nil => decide
  | cons chr units ih => exact Nat.mul_pos (positive chr) ih

/-- A size that fits is a loose size, and the two scans meet. -/
theorem IsSize.isLooseSize {text : Bytes} (isSize : IsSize text) (fits : size text < 2 ^ 64) :
    IsLooseSize text ∧ stoull text = some (value (text.takeWhile isDigit)) ∧
      factor (text.reverse.takeWhile isUnit) = factor (text.dropWhile isDigit) := by
  obtain ⟨digits, units⟩ := isSize
  have split : text.takeWhile isDigit ++ text.dropWhile isDigit = text := takeWhile_append_dropWhile
  have all : ∀ chr ∈ text.takeWhile isDigit, isDigit chr = true := fun _ => mem_takeWhile_imp
  have calm : ∀ chr ∈ text, chr ≠ minus ∧ chr ≠ dot ∧ chr ≠ comma := by
    intro chr member
    rw [← split] at member
    obtain member | member := mem_append.mp member
    · obtain ⟨-, -, noMinus, -, noDot, noComma⟩ := isDigit_facts chr (all chr member)
      exact ⟨noMinus, noDot, noComma⟩
    · exact (isUnit_facts chr (units chr member)).2.2
  have small : value (text.takeWhile isDigit) < 2 ^ 64 :=
    Nat.lt_of_le_of_lt (Nat.le_mul_of_pos_right _ (factor_pos _)) fits
  have numbered : IsNumbered text [] [] (text.takeWhile isDigit) (text.dropWhile isDigit) := by
    refine ⟨split.symm, nofun, .inl rfl, ⟨digits, all⟩, fun chr first => ?_⟩
    exact (isUnit_facts chr (units chr (mem_of_mem_head? first))).1
  obtain ⟨others, last, last_eq⟩ := eq_nil_or_concat (text.takeWhile isDigit) |>.resolve_left digits
  rw [concat_eq_append] at last_eq
  have digit := all last (by rw [last_eq]; simp)
  have other : ¬ isUnit last = true := by simp [(isDigit_facts last digit).1]
  have text_eq : text = others ++ last :: text.dropWhile isDigit := by
    rw [← singleton_append, ← append_assoc, ← last_eq, split]
  refine ⟨⟨⟨_, _, _, _, numbered, small⟩, ⟨fun member => (calm _ member).1 rfl,
    fun member => (calm _ member).2.1 rfl, fun member => (calm _ member).2.2 rfl⟩,
    ⟨_, _, _, text_eq, units, .inr digit⟩⟩, ?_, ?_⟩
  · rw [numbered.stoull, if_neg (Nat.not_le.mpr small)]
  · have reversed : text.reverse = (text.dropWhile isDigit).reverse ++ last :: others.reverse := by
      nth_rewrite 1 [text_eq]
      simp
    rw [reversed, takeWhile_append_of_pos fun chr member => units chr (mem_reverse.mp member),
      takeWhile_cons_of_neg other, append_nil]
    exact ((reverse_perm _).map _).prod_eq

/--
A text is read as its size, and refused if it is none, exactly if it is no loose size or a size
that fits.
-/
theorem expandToBytes_exact_iff (text : Bytes) :
    (∀ bytes, expandToBytes text = .ok bytes ↔
        IsSize text ∧ size text < 2 ^ 64 ∧ bytes = size text) ↔
      (IsLooseSize text → IsSize text ∧ size text < 2 ^ 64) := by
  simp only [expandToBytes_eq_ok_iff]
  constructor
  · intro exact_ loose
    obtain ⟨blanks, sign, digits, rest, numbered, small⟩ := loose.front
    have found := numbered.stoull
    rw [if_neg (Nat.not_le.mpr small)] at found
    obtain ⟨isSize, fits, -⟩ := (exact_ _).mp ⟨loose, _, found, rfl⟩
    exact ⟨isSize, fits⟩
  · intro sound bytes
    constructor
    · rintro ⟨loose, number, found, rfl⟩
      obtain ⟨isSize, fits⟩ := sound loose
      obtain ⟨-, found', same⟩ := isSize.isLooseSize fits
      cases found.symm.trans found'
      rw [same]
      exact ⟨isSize, fits, Nat.mod_eq_of_lt fits⟩
    · rintro ⟨isSize, fits, rfl⟩
      obtain ⟨loose, found, same⟩ := isSize.isLooseSize fits
      refine ⟨loose, _, found, ?_⟩
      rw [same]
      exact Nat.mod_eq_of_lt fits

/-- A number that is followed by others, and one that is too great. -/
theorem expandToBytes_inexact :
    (expandToBytes (ascii "5x5".toList) = .ok 5 ∧ ¬ IsSize (ascii "5x5".toList)) ∧
      expandToBytes (ascii "20000000000G".toList) = .ok 1553255926290448384 ∧
      size (ascii "20000000000G".toList) = 20000000000000000000 := by
  refine ⟨⟨by decide +kernel, fun isSize => ?_⟩, by decide +kernel, by decide +kernel⟩
  exact absurd (isSize.units 120 (by decide)) (by decide)

end MariadbShell.Utils
