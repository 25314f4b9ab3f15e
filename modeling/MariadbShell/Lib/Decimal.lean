import Mathlib

/-!
# Decimal numbers

The text that stands for a number, as `std::to_string` writes it.
-/

namespace MariadbShell.Lib.Decimal

open List

/-- The digits of a natural number, the most significant one first. -/
def decimal (number : Nat) : List UInt8 :=
  if number = 0 then [48]
  else (Nat.digits 10 number).reverse.map fun digit => 48 + digit.toUInt8

def decimalInt : Int → List UInt8
  | .ofNat number => decimal number
  | .negSucc number => 45 :: decimal (number + 1)

theorem digit_toNat {digit : Nat} (small : digit < 10) :
    (48 + digit.toUInt8).toNat = 48 + digit := by
  have same : digit.toUInt8.toNat = digit := by
    change digit % 2 ^ 8 = digit
    omega
  rw [UInt8.toNat_add, same]
  change (48 + digit) % 2 ^ 8 = 48 + digit
  omega

theorem decimal_digits {number : Nat} {chr : UInt8} (member : chr ∈ decimal number) :
    48 ≤ chr.toNat ∧ chr.toNat ≤ 57 := by
  unfold decimal at member
  split at member
  · obtain rfl := mem_singleton.mp member
    decide
  · obtain ⟨digit, inside, rfl⟩ := mem_map.mp member
    have small : digit < 10 := Nat.digits_lt_base (by omega) (mem_reverse.mp inside)
    rw [digit_toNat small]
    omega

theorem decimal_ne_nil (number : Nat) : decimal number ≠ [] := by
  unfold decimal
  split
  · simp
  · next positive => simpa using Nat.digits_ne_nil_iff_ne_zero.mpr positive

/-- The number that a text of digits stands for. -/
def value (text : List UInt8) : Nat :=
  Nat.ofDigits 10 (text.reverse.map fun chr => chr.toNat - 48)

theorem value_decimal (number : Nat) : value (decimal number) = number := by
  unfold decimal
  split
  · next zero => simp [value, zero]
  · have back : (Nat.digits 10 number).map
        ((fun chr : UInt8 => chr.toNat - 48) ∘ fun digit => 48 + digit.toUInt8) =
          (Nat.digits 10 number).map id := by
      refine map_congr_left fun digit inside => ?_
      have small : digit < 10 := Nat.digits_lt_base (by omega) inside
      simp only [Function.comp_apply, id_eq]
      rw [digit_toNat small]
      omega
    rw [value, ← map_reverse, reverse_reverse, map_map, back, map_id, Nat.ofDigits_digits]

theorem value_cons (chr : UInt8) (rest : List UInt8) :
    value (chr :: rest) = (chr.toNat - 48) * 10 ^ rest.length + value rest := by
  simp [value, Nat.ofDigits_append, Nat.mul_comm, Nat.add_comm]

/-- A text of digits without a leading zero is the text of its number. -/
theorem decimal_value_of_lead {chr : UInt8} {rest : List UInt8}
    (digits : ∀ other ∈ chr :: rest, 48 ≤ other.toNat ∧ other.toNat ≤ 57) (lead : chr ≠ 48) :
    decimal (value (chr :: rest)) = chr :: rest := by
  have first := digits chr mem_cons_self
  have positive : chr.toNat - 48 ≠ 0 := by
    intro zero
    exact lead (UInt8.toNat_inj.mp (by simp; omega))
  have nonzero : value (chr :: rest) ≠ 0 := by
    rw [value_cons]
    exact fun zero => positive (by simp_all)
  rw [decimal, if_neg nonzero, value, Nat.digits_ofDigits 10 (by decide)]
  · rw [← map_reverse, reverse_reverse, map_map]
    refine (map_congr_left fun other member => ?_).trans (map_id _)
    have bounds := digits other member
    rw [← UInt8.toNat_inj, Function.comp_apply, digit_toNat (by omega), id_eq]
    omega
  · intro digit member
    obtain ⟨other, inside, rfl⟩ := mem_map.mp member
    have bounds := digits other (mem_reverse.mp inside)
    omega
  · intro
    simpa using positive

/-- Any other text of digits has zeros in front. -/
theorem decimal_value {text : List UInt8}
    (digits : ∀ chr ∈ text, 48 ≤ chr.toNat ∧ chr.toNat ≤ 57) (nonempty : text ≠ []) :
    (decimal (value text)).length ≤ text.length ∧
      List.replicate (text.length - (decimal (value text)).length) 48 ++ decimal (value text) =
        text := by
  induction text with
  | nil => exact absurd rfl nonempty
  | cons chr rest ih =>
    by_cases lead : chr = 48
    · subst lead
      by_cases last : rest = []
      · subst last
        exact ⟨Nat.le_refl 1, rfl⟩
      · obtain ⟨shorter, padded⟩ := ih (fun other member => digits other (.tail _ member)) last
        have same : value (48 :: rest) = value rest := by simp [value_cons]
        rw [same, length_cons, Nat.succ_sub shorter, replicate_succ, cons_append, padded]
        exact ⟨Nat.le_succ_of_le shorter, rfl⟩
    · rw [decimal_value_of_lead digits lead, Nat.sub_self]
      exact ⟨Nat.le_refl _, rfl⟩

theorem decimal_inj {left right : Nat} (same : decimal left = decimal right) : left = right := by
  rw [← value_decimal left, same, value_decimal]

theorem minus_not_mem_decimal (number : Nat) : (45 : UInt8) ∉ decimal number := by
  intro member
  exact absurd (decimal_digits member) (by decide)

theorem decimalInt_inj {left right : Int} (same : decimalInt left = decimalInt right) :
    left = right := by
  cases left with
  | ofNat left =>
    cases right with
    | ofNat right => rw [decimal_inj same]
    | negSucc right =>
      refine absurd ?_ (minus_not_mem_decimal left)
      change decimal left = _ at same
      rw [same]
      exact mem_cons_self
  | negSucc left =>
    cases right with
    | ofNat right =>
      refine absurd ?_ (minus_not_mem_decimal right)
      change _ = decimal right at same
      rw [← same]
      exact mem_cons_self
    | negSucc right =>
      have digits := decimal_inj (List.cons.inj same).2
      rw [Nat.succ.inj digits]

/-- The text of an integer is made of digits and a sign. -/
theorem decimalInt_symbols {number : Int} {chr : UInt8} (member : chr ∈ decimalInt number) :
    chr = 45 ∨ 48 ≤ chr.toNat ∧ chr.toNat ≤ 57 := by
  cases number with
  | ofNat number => exact .inr (decimal_digits member)
  | negSucc number =>
    rcases mem_cons.mp member with sign | digit
    · exact .inl sign
    · exact .inr (decimal_digits digit)

end MariadbShell.Lib.Decimal
