import Mathlib

/-!
# Fixed-width integer conversions

The conversions between mathematical integers and the values of the fixed-width
types `uint32_t`, `uint64_t`, `int32_t` and `int64_t`: reduction modulo the width,
followed for the signed types by the choice of the two's complement representative.
-/

namespace MariadbShell.Lib.MachineInt

/-- Value of a conversion to `uint64_t`. -/
def toUInt64 (value : Int) : Nat :=
  (value % 2 ^ 64).toNat

def toUInt32 (value : Int) : Nat :=
  (value % 2 ^ 32).toNat

def toInt64 (value : Int) : Int :=
  let reduced := value % 2 ^ 64
  if reduced < 2 ^ 63 then reduced else reduced - 2 ^ 64

def toInt32 (value : Int) : Int :=
  let reduced := value % 2 ^ 32
  if reduced < 2 ^ 31 then reduced else reduced - 2 ^ 32

theorem toUInt64_of_range {value : Int} (lower : 0 ≤ value) (upper : value < 2 ^ 64) :
    (toUInt64 value : Int) = value := by
  unfold toUInt64
  omega

theorem toUInt32_natCast {value : Nat} (small : value < 2 ^ 32) :
    toUInt32 (value : Int) = value := by
  unfold toUInt32
  omega

theorem toInt64_of_range {value : Int} (lower : -2 ^ 63 ≤ value) (upper : value < 2 ^ 63) :
    toInt64 value = value := by
  simp only [toInt64]
  split <;> omega

theorem toInt32_of_range {value : Int} (lower : -2 ^ 31 ≤ value) (upper : value < 2 ^ 31) :
    toInt32 value = value := by
  simp only [toInt32]
  split <;> omega

end MariadbShell.Lib.MachineInt
