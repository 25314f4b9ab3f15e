import MariadbShell.Lib.Decimal
import MariadbShell.Lib.Search
import MariadbShell.ImportTable.Dialect

/-!
# Decimal numbers of a fixed scale

`Decimal` holds a number as an integer and the number of its fractional digits. The integers
of the library for big numbers are taken to be exact.
-/

namespace MariadbShell.Dump

open List
open ImportTable (Bytes)
open Lib Lib.Decimal

/-- `Bignum` of a text of digits with an optional sign. -/
def bignum : Bytes → Int
  | 45 :: digits => -(value digits : Int)
  | digits => value digits

inductive DecimalError where
  /-- "Mismatch of fractional digits" -/
  | mismatch
deriving DecidableEq, Repr

structure DecimalNumber where
  decimal : Int
  fractionalDigits : Nat
deriving DecidableEq, Repr

namespace DecimalNumber

def ofString (text : Bytes) : DecimalNumber :=
  match Search.find [46] text 0 with
  | some position => ⟨bignum (text.eraseIdx position), text.length - position - 1⟩
  | none => ⟨bignum text, 0⟩

def toText (number : DecimalNumber) : Bytes :=
  let text := decimalInt number.decimal
  if number.fractionalDigits = 0 then text
  else
    let firstDigit := if text.head? = some 45 then 1 else 0
    let digits := text.length - firstDigit
    let filled :=
      if digits ≤ number.fractionalDigits then
        text.take firstDigit ++ List.replicate (number.fractionalDigits - digits + 1) 48 ++
          text.drop firstDigit
      else text
    let point := filled.length - number.fractionalDigits
    filled.take point ++ 46 :: filled.drop point

def increment (number : DecimalNumber) : DecimalNumber :=
  { number with decimal := number.decimal + 1 }

def add (number other : DecimalNumber) : Except DecimalError DecimalNumber :=
  if number.fractionalDigits ≠ other.fractionalDigits then .error .mismatch
  else .ok { number with decimal := number.decimal + other.decimal }

def sub (number other : DecimalNumber) : Except DecimalError DecimalNumber :=
  if number.fractionalDigits ≠ other.fractionalDigits then .error .mismatch
  else .ok { number with decimal := number.decimal - other.decimal }

def compare (number other : DecimalNumber) : Except DecimalError Int :=
  if number.fractionalDigits ≠ other.fractionalDigits then .error .mismatch
  else .ok (number.decimal - other.decimal).sign

def toRat (number : DecimalNumber) : ℚ :=
  number.decimal / 10 ^ number.fractionalDigits

end DecimalNumber

/-- The parts of a decimal text without superfluous zeros. -/
structure DecimalText where
  negative : Bool
  whole : Bytes
  fraction : Bytes
  nonempty : whole ≠ []
  digits : ∀ chr ∈ whole ++ fraction, 48 ≤ chr.toNat ∧ chr.toNat ≤ 57
  lead : whole.head? = some 48 → whole = [48]

namespace DecimalText

def sign (text : DecimalText) : Bytes :=
  if text.negative then [45] else []

def text (text : DecimalText) : Bytes :=
  text.sign ++ text.whole ++ if text.fraction = [] then [] else 46 :: text.fraction

def magnitude (text : DecimalText) : Nat :=
  value (text.whole ++ text.fraction)

variable (text : DecimalText)

theorem bignum_eq : bignum (text.sign ++ (text.whole ++ text.fraction)) =
    if text.negative then -(text.magnitude : Int) else text.magnitude := by
  unfold sign
  split
  · rfl
  · obtain ⟨chr, rest, same⟩ := exists_cons_of_ne_nil text.nonempty
    have bounds := text.digits chr (by simp [same])
    rw [magnitude, same, nil_append]
    unfold bignum
    split
    · next digits minus =>
      cases minus
      exact absurd bounds (by decide)
    · rfl

theorem ofString_text : DecimalNumber.ofString text.text =
    ⟨if text.negative then -(text.magnitude : Int) else text.magnitude, text.fraction.length⟩ := by
  have noPoint : 46 ∉ text.sign ++ text.whole := by
    intro member
    rcases mem_append.mp member with inSign | inWhole
    · unfold sign at inSign
      split at inSign <;> simp at inSign
    · exact absurd (text.digits 46 (mem_append_left _ inWhole)) (by decide)
  unfold DecimalNumber.ofString DecimalText.text
  by_cases empty : text.fraction = []
  · have absent : Search.find [46] ([] ++ (text.sign ++ text.whole)) 0 = none :=
      Search.find_symbol_none noPoint []
    rw [if_pos empty, append_nil, ← nil_append (_ ++ _), absent, ← bignum_eq, empty, append_nil]
    rfl
  · have found : Search.find [46] ([] ++ (text.sign ++ text.whole ++ 46 :: text.fraction)) 0 =
        some (0 + (text.sign ++ text.whole).length) :=
      Search.find_symbol noPoint [] text.fraction
    rw [nil_append, Nat.zero_add] at found
    rw [if_neg empty, found]
    dsimp only
    rw [eraseIdx_append_of_length_le (Nat.le_refl _), Nat.sub_self, eraseIdx_cons_zero,
      append_assoc, bignum_eq]
    simp only [length_append, length_cons]
    congr 1
    omega

/-- The text of a number with the given sign and magnitude, filled up with zeros. -/
theorem toText_eq {number : DecimalNumber} (sign : Bytes) (magnitude : Nat)
    (signed : sign = [] ∨ sign = [45])
    (same : decimalInt number.decimal = sign ++ decimal magnitude)
    {whole fraction : Bytes} (scale : number.fractionalDigits = fraction.length)
    (filled : List.replicate (fraction.length + 1 - (decimal magnitude).length) 48 ++
      decimal magnitude = whole ++ fraction) :
    number.toText = sign ++ whole ++ if fraction = [] then [] else 46 :: fraction := by
  have first : (if (sign ++ decimal magnitude).head? = some 45 then 1 else 0) = sign.length := by
    rcases signed with rfl | rfl
    · rw [if_neg fun minus => minus_not_mem_decimal magnitude ?_]
      · rfl
      · exact mem_of_mem_head? minus
    · rfl
  have positive := length_pos_of_ne_nil (decimal_ne_nil magnitude)
  unfold DecimalNumber.toText
  simp only [same, scale, first, length_append, Nat.add_sub_cancel_left, take_left, drop_left]
  by_cases empty : fraction = []
  · have none_ : 0 + 1 - (decimal magnitude).length = 0 := by omega
    subst empty
    rw [length_nil, none_, replicate_zero, nil_append, append_nil] at filled
    rw [length_nil, if_pos rfl, filled, if_pos rfl, append_nil]
  · have some_ : fraction.length ≠ 0 := fun zero => empty (eq_nil_of_length_eq_zero zero)
    have fill : (if (decimal magnitude).length ≤ fraction.length then
        sign ++ List.replicate (fraction.length - (decimal magnitude).length + 1) 48 ++
          decimal magnitude
        else sign ++ decimal magnitude) = sign ++ whole ++ fraction := by
      rw [append_assoc sign whole, ← filled]
      split
      · next short => rw [append_assoc, Nat.succ_sub short]
      · next long => rw [Nat.sub_eq_zero_of_le (by omega), replicate_zero, nil_append]
    rw [if_neg some_, fill, length_append, Nat.add_sub_cancel, if_neg empty, take_left, drop_left]

/-- Only the sign of a zero is lost. -/
theorem toText_ofString_iff :
    (DecimalNumber.ofString text.text).toText = text.text ↔
      ¬ (text.negative = true ∧ text.magnitude = 0) := by
  have nonempty : text.whole ++ text.fraction ≠ [] := by simp [text.nonempty]
  have filled : List.replicate (text.fraction.length + 1 - (decimal text.magnitude).length) 48 ++
      decimal text.magnitude = text.whole ++ text.fraction := by
    by_cases lead : text.whole.head? = some 48
    · have padded := (decimal_value text.digits nonempty).2
      rw [text.lead lead, length_append, Nat.add_comm] at padded
      rw [magnitude, text.lead lead]
      exact padded
    · obtain ⟨chr, rest, same⟩ := exists_cons_of_ne_nil text.nonempty
      have whole : decimal text.magnitude = text.whole ++ text.fraction := by
        have digits := text.digits
        rw [same, cons_append] at digits
        rw [same, head?_cons, Option.some.injEq] at lead
        rw [magnitude, same, cons_append, decimal_value_of_lead digits lead]
      rw [whole, same]
      simp [Nat.sub_eq_zero_of_le]
  rw [ofString_text]
  by_cases lost : text.negative = true ∧ text.magnitude = 0
  · have shown := @toText_eq ⟨0, text.fraction.length⟩ [] 0 (.inl rfl) rfl _ _ rfl
      (lost.2 ▸ filled)
    simp only [lost.1, lost.2, if_true, not_true, iff_false, true_and]
    intro same
    rw [Int.natCast_zero, Int.neg_zero, shown] at same
    have lengths := congrArg List.length same
    simp [DecimalText.text, sign, lost.1] at lengths
  · refine iff_of_true (toText_eq text.sign text.magnitude ?_ ?_ rfl filled) lost
    · unfold sign
      split <;> simp
    · unfold sign
      split
      · next negative =>
        obtain ⟨less, same⟩ := Nat.exists_eq_succ_of_ne_zero fun zero => lost ⟨negative, zero⟩
        rw [same]
        rfl
      · rfl

end DecimalText

namespace DecimalNumber

/--
A canonical text comes back unless it is a zero with a sign, and the operations on numbers of
one scale are those of the rational numbers.
-/
theorem toText_ofString_and_exact (text : DecimalText) (left right : Int) (scale : Nat) :
    let number : DecimalNumber := ⟨left, scale⟩
    let other : DecimalNumber := ⟨right, scale⟩
    ((ofString text.text).toText = text.text ↔ ¬ (text.negative = true ∧ text.magnitude = 0)) ∧
      ((number.add other).map toRat = .ok (number.toRat + other.toRat)) ∧
      (number.sub other).map toRat = .ok (number.toRat - other.toRat) ∧
      (∃ order, number.compare other = .ok order ∧
        (order < 0 ↔ number.toRat < other.toRat) ∧ (order = 0 ↔ number.toRat = other.toRat) ∧
        (0 < order ↔ other.toRat < number.toRat)) ∧
      number.toRat < number.increment.toRat ∧
      (number.toRat < other.toRat → number.increment.toRat ≤ other.toRat) := by
  have unit : (0 : ℚ) < 10 ^ scale := by positivity
  have less (first second : Int) :
      (⟨first, scale⟩ : DecimalNumber).toRat < (⟨second, scale⟩ : DecimalNumber).toRat ↔
        first < second := by
    rw [toRat, toRat, div_lt_div_iff_of_pos_right unit, Int.cast_lt]
  refine ⟨text.toText_ofString_iff, ?_, ?_, ⟨_, if_neg (not_not.mpr rfl), ?_, ?_, ?_⟩, ?_, ?_⟩
  · simp [add, toRat, Except.map, add_div]
  · simp [sub, toRat, Except.map, sub_div]
  · exact Int.sign_neg_iff.trans (sub_neg.trans (less left right).symm)
  · refine Int.sign_eq_zero_iff_zero.trans (sub_eq_zero.trans ?_)
    rw [toRat, toRat, div_left_inj' unit.ne', Int.cast_inj]
  · exact Int.sign_pos_iff.trans (sub_pos.trans (less right left).symm)
  · exact (less _ _).mpr (Int.lt_succ left)
  · intro below
    exact (div_le_div_iff_of_pos_right unit).mpr (Int.cast_le.mpr ((less _ _).mp below))

/-- `-0.0` is canonical. -/
theorem negative_zero :
    let text : DecimalText := ⟨true, [48], [48], by decide, by decide, by decide⟩
    text.text = [45, 48, 46, 48] ∧ (ofString text.text).toText = [48, 46, 48] := by
  decide +kernel

end DecimalNumber

end MariadbShell.Dump
