import Mathlib.Tactic.Common

/-!
# 32-bit integers

What C says about the arithmetic of a 32-bit integer type, on exact integers.
Unsigned arithmetic is modulo `2 ^ 32`.  Signed arithmetic has no value when
the exact one does not fit, and the conversion of a value to a signed type
takes the representative modulo `2 ^ 32`.
-/

namespace OsLabs.Posix

/-- The values of a signed 32-bit type. -/
def InInt32 (n : Int) : Prop := -2147483648 ≤ n ∧ n ≤ 2147483647

instance (n : Int) : Decidable (InInt32 n) :=
  inferInstanceAs (Decidable (_ ∧ _))

/-- The value of a signed expression with the exact value `n`, if it is
defined. -/
def int32 (n : Int) : Option Int := if InInt32 n then some n else none

/-- The value of an unsigned expression with the exact value `n`. -/
def uint32 (n : Int) : Int := n % 4294967296

/-- The conversion to a signed type. -/
def toInt32 (n : Int) : Int := (n + 2147483648) % 4294967296 - 2147483648

section

variable {n m : Int}

theorem int32_of_fits (h : InInt32 n) : int32 n = some n := if_pos h

theorem int32_eq_some : int32 n = some m ↔ InInt32 n ∧ n = m := by
  unfold int32
  split
  · rename_i hfits
    simp only [Option.some.injEq, hfits, true_and]
  · rename_i hfits
    simp only [hfits, false_and, reduceCtorEq]

theorem uint32_of_fits (h₀ : 0 ≤ n) (h : n < 4294967296) : uint32 n = n :=
  Int.emod_eq_of_lt h₀ h

theorem toInt32_fits (n : Int) : InInt32 (toInt32 n) := by
  unfold InInt32 toInt32
  omega

theorem toInt32_of_fits (h : InInt32 n) : toInt32 n = n := by
  unfold InInt32 at h
  unfold toInt32
  omega

/-- Unsigned arithmetic does not change what a conversion sees. -/
theorem toInt32_uint32 (n : Int) : toInt32 (uint32 n) = toInt32 n := by
  unfold toInt32 uint32
  omega

/-- Nor does an earlier conversion of a summand. -/
theorem toInt32_add_left (n m : Int) :
    toInt32 (toInt32 n + m) = toInt32 (n + m) := by
  unfold toInt32
  omega

/-- A value one turn too large. -/
theorem toInt32_of_above (h : 2147483648 ≤ n) (hlt : n < 6442450944) :
    toInt32 n = n - 4294967296 := by
  unfold toInt32
  omega

end

end OsLabs.Posix
