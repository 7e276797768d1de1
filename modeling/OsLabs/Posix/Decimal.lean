import OsLabs.Posix.Integers
import OsLabs.Posix.Memory

/-!
# Numbers in decimal

`strtol` in base 10 and `atoi`, on a 64-bit `long` and a 32-bit `int`: white
space, a sign, and the digits up to the first other character.  A value that
is too large for a `long` saturates; `atoi` then converts what it gets to an
`int`.  Where a `long` has 32 bits too there is nothing to convert
(`atoi32`).
-/

namespace OsLabs.Posix

/-- `isdigit` -/
def isDigit (c : UInt8) : Bool := 48 ≤ c && c ≤ 57

/-- `isspace` -/
def isWhiteSpace (c : UInt8) : Bool := c = 32 || 9 ≤ c && c ≤ 13

/-- The value of a string of digits. -/
def decimalValue (digits : List UInt8) : Nat :=
  digits.foldl (fun value c => 10 * value + (c.toNat - 48)) 0

/-- The digits that a string starts with. -/
def leadingDigits (bytes : List UInt8) : List UInt8 := bytes.takeWhile isDigit

/-- The bytes behind the sign, and whether it is a minus. -/
def splitSign : List UInt8 → Bool × List UInt8
  | [] => (false, [])
  | c :: rest =>
    if c = 45 then (true, rest)
    else if c = 43 then (false, rest)
    else (false, c :: rest)

/-- The nearest value of a 64-bit `long`. -/
def saturate (n : Int) : Int :=
  max (-9223372036854775808) (min 9223372036854775807 n)

/-- The number that a string starts with. -/
def decimalNumber (s : CString) : Int :=
  let (negative, rest) := splitSign (s.bytes.dropWhile isWhiteSpace)
  let magnitude : Int := decimalValue (leadingDigits rest)
  if negative then -magnitude else magnitude

/-- `strtol(s, NULL, 10)` -/
def strtol (s : CString) : Int := saturate (decimalNumber s)

/-- `atoi` -/
def atoi (s : CString) : Int := toInt32 (strtol s)

/-- `atoi` where a `long` has 32 bits: `strtol` gives the nearest value of
that type. -/
def atoi32 (s : CString) : Int :=
  max (-2147483648) (min 2147483647 (decimalNumber s))

section

variable {c : UInt8} {bytes : List UInt8} {s : CString}

theorem isWhiteSpace_of_digit (h : isDigit c = true) :
    isWhiteSpace c = false := by
  unfold isDigit at h
  unfold isWhiteSpace
  simp only [Bool.and_eq_true, decide_eq_true_eq, UInt8.le_iff_toNat_le]
    at h
  simp only [Bool.or_eq_false_iff, Bool.and_eq_false_iff,
    decide_eq_false_iff_not, UInt8.le_iff_toNat_le, ← UInt8.toNat_inj]
  have hnine : (9 : UInt8).toNat = 9 := rfl
  have hthirteen : (13 : UInt8).toNat = 13 := rfl
  have hspace : (32 : UInt8).toNat = 32 := rfl
  have hzero : (48 : UInt8).toNat = 48 := rfl
  omega

theorem splitSign_of_digit (h : isDigit c = true) :
    splitSign (c :: bytes) = (false, c :: bytes) := by
  have hminus : c ≠ 45 := fun heq => by
    rw [heq] at h
    cases h
  have hplus : c ≠ 43 := fun heq => by
    rw [heq] at h
    cases h
  rw [splitSign, if_neg hminus, if_neg hplus]

/-- A string that starts with a digit is read up to the end of its digits. -/
theorem strtol_of_digit (hs : s.bytes = c :: bytes) (h : isDigit c = true) :
    strtol s = saturate (decimalValue (leadingDigits s.bytes)) := by
  have hstart : s.bytes.dropWhile isWhiteSpace = s.bytes := by
    rw [hs, List.dropWhile_cons, isWhiteSpace_of_digit h,
      if_neg Bool.false_ne_true]
  rw [strtol, decimalNumber, hstart, hs, splitSign_of_digit h]
  rfl

/-- When `atoi` gives a positive number not above `bound`: the representative
of a value that a `long` holds. -/
theorem toInt32_saturate_iff {low high value : Nat} (hlow : 1 ≤ low)
    (hhigh : high ≤ 2147483647) :
    (low : Int) ≤ toInt32 (saturate value) ∧
        toInt32 (saturate value) ≤ (high : Int) ↔
      value < 9223372036854775808 ∧ low ≤ value % 4294967296 ∧
        value % 4294967296 ≤ high := by
  unfold toInt32 saturate
  omega

theorem toInt32_saturate_of_fits {value : Nat} (h : value ≤ 2147483647) :
    toInt32 (saturate value) = value := by
  unfold toInt32 saturate
  omega

theorem atoi32_of_fits (hlow : -2147483648 ≤ decimalNumber s)
    (hhigh : decimalNumber s ≤ 2147483647) :
    atoi32 s = decimalNumber s := by
  unfold atoi32
  omega

/-- A small range holds the converted number exactly if it holds the number
itself. -/
theorem atoi32_mem_iff {low high : Int} (hlow : -2147483648 < low)
    (hhigh : high < 2147483647) :
    low ≤ atoi32 s ∧ atoi32 s ≤ high ↔
      low ≤ decimalNumber s ∧ decimalNumber s ≤ high := by
  unfold atoi32
  omega

theorem atoi32_eq_zero : atoi32 s = 0 ↔ decimalNumber s = 0 := by
  unfold atoi32
  omega

end

end OsLabs.Posix
