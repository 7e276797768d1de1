import Mathlib.Data.List.TakeWhile
import OsLabs.Posix.Decimal

/-!
# The argument of the ring

What `main` of `ring.c` does before it creates pipes: `isNatNum` and `atoi` on
its only argument, and the check of the range.

`isNatNum` reads the first character once and tests it in every round, so an
argument is taken for a number as soon as it starts with a digit;
`validateInput_sound_iff` says for which arguments this, the truncation to
`int` or the loop counter make a difference.
-/

namespace OsLabs.Lab1.RingArguments

open OsLabs.Posix

/-! ## The source -/

/-- `MINPROC` -/
def minProc : Nat := 2

/-- `MAXPROC` -/
def maxProc : Nat := 16

/-- How the program ends before it creates pipes: `exit(EXIT_FAILURE)` after a
message, or what the language leaves undefined. -/
inductive Stop where
  | exited (message : String)
  | fault (fault : Fault)
  | overflow
  deriving Repr, DecidableEq

/-- `printUsage` -/
def usage : String := "Usage: ring <number of processes>, " ++
  "where 2 <= <number of processes> <= 16.\n"

/-- The loop of `isNatNum`.  It does not change `c`. -/
def isNatNumLoop (string : CString) (c : UInt8) :
    Nat → Int → Except Stop Bool
  | 0, _ => .error (.fault .outOfFuel)
  | fuel + 1, i =>
    if i ≤ string.bytes.length then
      if !isDigit c then .ok false
      else
        match int32 (i + 1) with
        | none => .error .overflow
        | some i => isNatNumLoop string c fuel i
    else .ok true

/-- `isNatNum` -/
def isNatNum (string : Option CString) : Except Stop Bool :=
  match string with
  | none => .error (.exited "Error in isNumber: string = NULL\n")
  | some string =>
    match string.charAt 0 with
    | .error fault => .error (.fault fault)
    | .ok c => isNatNumLoop string c (string.bytes.length + 2) 0

/-- `main` up to the creation of the pipes: `nrOfProcesses`. -/
def validateInput (argv : List CString) : Except Stop Int :=
  match argv with
  | [_, string] => do
    let natNum ← isNatNum (some string)
    if !natNum then .error (.exited usage)
    else
      let nrOfProcesses := atoi string
      if nrOfProcesses < minProc ∨ nrOfProcesses > maxProc then
        .error (.exited usage)
      else .ok nrOfProcesses
  | _ => .error (.exited usage)

/-! ## What the loop accepts -/

section Loop

variable {string : CString} {c : UInt8} {fuel : Nat} {i : Int}

theorem isNatNumLoop_of_not_digit (hc : isDigit c = false)
    (hi : i ≤ string.bytes.length) :
    isNatNumLoop string c (fuel + 1) i = .ok false := by
  rw [isNatNumLoop, if_pos hi, hc]
  rfl

/-- A round in which the character is a digit. -/
theorem isNatNumLoop_round (hc : isDigit c = true) (hi₀ : 0 ≤ i)
    (hi : i ≤ string.bytes.length) (hroom : i < 2147483647) :
    isNatNumLoop string c (fuel + 1) i =
      isNatNumLoop string c fuel (i + 1) := by
  have hfits : InInt32 (i + 1) := by
    unfold InInt32
    omega
  rw [isNatNumLoop, if_pos hi, hc, int32_of_fits hfits]
  rfl

theorem isNatNumLoop_accepts (hc : isDigit c = true)
    (hlength : string.bytes.length ≤ 2147483646) (hi₀ : 0 ≤ i)
    (hi : i ≤ string.bytes.length + 1)
    (hfuel : string.bytes.length + 1 < i + fuel) :
    isNatNumLoop string c fuel i = .ok true := by
  induction fuel generalizing i with
  | zero => omega
  | succ fuel ih =>
      by_cases hend : i ≤ string.bytes.length
      · rw [isNatNumLoop_round hc hi₀ hend (by omega)]
        exact ih (by omega) (by omega) (by omega)
      · rw [isNatNumLoop, if_neg hend]

/-- The counter of a longer string runs into the largest `int`. -/
theorem isNatNumLoop_overflow (hc : isDigit c = true)
    (hlength : 2147483647 ≤ string.bytes.length) (hi₀ : 0 ≤ i)
    (hi : i ≤ 2147483647) (hfuel : 2147483647 < i + fuel) :
    isNatNumLoop string c fuel i = .error .overflow := by
  induction fuel generalizing i with
  | zero => omega
  | succ fuel ih =>
      by_cases hroom : i < 2147483647
      · rw [isNatNumLoop_round hc hi₀ (by omega) hroom]
        exact ih (by omega) (by omega) (by omega)
      · have hout : ¬ InInt32 (i + 1) := by
          unfold InInt32
          omega
        have hle : i ≤ string.bytes.length := by omega
        rw [isNatNumLoop, if_pos hle, hc, int32, if_neg hout]
        rfl

end Loop

/-! ## What is accepted -/

/-- The string starts with a digit. -/
def StartsWithDigit (s : CString) : Prop := leadingDigits s.bytes ≠ []

instance (s : CString) : Decidable (StartsWithDigit s) :=
  inferInstanceAs (Decidable (_ ≠ _))

section

variable {string : CString}

theorem charAt_zero_of_digit (h : StartsWithDigit string) :
    ∃ c, string.charAt 0 = .ok c ∧ isDigit c = true ∧
      ∃ rest, string.bytes = c :: rest := by
  unfold StartsWithDigit leadingDigits at h
  cases hbytes : string.bytes with
  | nil =>
      rw [hbytes] at h
      exact absurd rfl h
  | cons c rest =>
      rw [hbytes, List.takeWhile_cons] at h
      have hdigit : isDigit c = true := by
        by_contra hnot
        rw [if_neg hnot] at h
        exact h rfl
      exact ⟨c, CString.charAt_of_drop hbytes, hdigit, rest, rfl⟩

theorem charAt_zero_of_not_digit (h : ¬ StartsWithDigit string) :
    ∃ c, string.charAt 0 = .ok c ∧ isDigit c = false := by
  unfold StartsWithDigit leadingDigits at h
  cases hbytes : string.bytes with
  | nil =>
      have hend := CString.charAt_length string
      rw [hbytes] at hend
      exact ⟨0, hend, rfl⟩
  | cons c rest =>
      rw [hbytes, List.takeWhile_cons] at h
      refine ⟨c, CString.charAt_of_drop hbytes, ?_⟩
      by_contra hdigit
      rw [if_pos (eq_true_of_ne_false hdigit)] at h
      exact h (List.cons_ne_nil _ _)

/-- A string is taken for a number when it starts with a digit. -/
theorem isNatNum_eq (string : CString) :
    isNatNum (some string) =
      if ¬ StartsWithDigit string then .ok false
      else if string.bytes.length ≤ 2147483646 then .ok true
      else .error .overflow := by
  by_cases hstarts : StartsWithDigit string
  · obtain ⟨c, hchar, hc, -⟩ := charAt_zero_of_digit hstarts
    rw [isNatNum, if_neg (not_not_intro hstarts)]
    simp only [hchar]
    split
    · rename_i hlength
      exact isNatNumLoop_accepts hc hlength (by omega) (by omega) (by omega)
    · exact isNatNumLoop_overflow hc (by omega) (by omega) (by omega)
        (by omega)
  · obtain ⟨c, hchar, hc⟩ := charAt_zero_of_not_digit hstarts
    rw [isNatNum, if_pos hstarts]
    simp only [hchar]
    exact isNatNumLoop_of_not_digit hc (by omega)

/-- The value of the digits that a string starts with. -/
def leadingValue (s : CString) : Nat := decimalValue (leadingDigits s.bytes)

theorem validateInput_of_not_digit (program : CString)
    (h : ¬ StartsWithDigit string) :
    validateInput [program, string] = .error (.exited usage) := by
  rw [validateInput, isNatNum_eq, if_pos h]
  rfl

theorem validateInput_of_long (program : CString) (h : StartsWithDigit string)
    (hlength : ¬ string.bytes.length ≤ 2147483646) :
    validateInput [program, string] = .error .overflow := by
  rw [validateInput, isNatNum_eq, if_neg (not_not_intro h), if_neg hlength]
  rfl

/-- Behind the loop only the converted value counts. -/
theorem validateInput_of_digit (program : CString)
    (h : StartsWithDigit string)
    (hlength : string.bytes.length ≤ 2147483646) :
    validateInput [program, string] =
      if leadingValue string < 9223372036854775808 ∧
          minProc ≤ leadingValue string % 4294967296 ∧
          leadingValue string % 4294967296 ≤ maxProc then
        .ok (toInt32 (saturate (leadingValue string)))
      else .error (.exited usage) := by
  obtain ⟨c, -, hc, rest, hbytes⟩ := charAt_zero_of_digit h
  have hatoi : atoi string = toInt32 (saturate (leadingValue string)) := by
    rw [atoi, strtol_of_digit hbytes hc, leadingValue]
  have hrange : (minProc : Int) ≤ toInt32 (saturate (leadingValue string)) ∧
      toInt32 (saturate (leadingValue string)) ≤ (maxProc : Int) ↔ _ :=
    toInt32_saturate_iff (by decide) (by decide)
  rw [validateInput, isNatNum_eq, if_neg (not_not_intro h), if_pos hlength,
    except_ok_bind, Bool.not_true, if_neg Bool.false_ne_true, hatoi]
  simp only [← hrange]
  by_cases hmin : (minProc : Int) ≤ toInt32 (saturate (leadingValue string))
  · by_cases hmax :
        toInt32 (saturate (leadingValue string)) ≤ (maxProc : Int)
    · rw [if_neg (by omega), if_pos ⟨hmin, hmax⟩]
    · rw [if_pos (by omega), if_neg fun h => hmax h.2]
  · rw [if_pos (by omega), if_neg fun h => hmin h.1]

/-! ## What is promised -/

/-- The string consists of digits, at least one, and they have the value
`v`. -/
structure Writes (string : CString) (v : Nat) : Prop where
  ne : string.bytes ≠ []
  digits : ∀ c ∈ string.bytes, isDigit c = true
  value : decimalValue string.bytes = v

theorem Writes.leadingDigits_eq {v : Nat} (h : Writes string v) :
    leadingDigits string.bytes = string.bytes :=
  List.takeWhile_eq_self_iff.mpr h.digits

theorem Writes.leadingValue_eq {v : Nat} (h : Writes string v) :
    leadingValue string = v := by
  rw [leadingValue, h.leadingDigits_eq, h.value]

theorem Writes.startsWithDigit {v : Nat} (h : Writes string v) :
    StartsWithDigit string := by
  rw [StartsWithDigit, h.leadingDigits_eq]
  exact h.ne

theorem writes_leadingValue (h : StartsWithDigit string)
    (hall : leadingDigits string.bytes = string.bytes) :
    Writes string (leadingValue string) := by
  refine ⟨?_, List.takeWhile_eq_self_iff.mp hall, ?_⟩
  · rw [← hall]
    exact h
  · rw [leadingValue, hall]

/-- The program goes on exactly with the numbers of the usage message, each
with its value, and everything else is answered with that message. -/
structure AsPromised (program string : CString) : Prop where
  accepts_iff : (∃ nr, validateInput [program, string] = .ok nr) ↔
    ∃ v, Writes string v ∧ minProc ≤ v ∧ v ≤ maxProc
  value : ∀ nr v, validateInput [program, string] = .ok nr →
    Writes string v → nr = v
  rejects : (∀ nr, validateInput [program, string] ≠ .ok nr) →
    validateInput [program, string] = .error (.exited usage)

/-- A rejection is right when the argument is not one of the numbers. -/
theorem asPromised_of_rejected {program : CString}
    (hresult : validateInput [program, string] = .error (.exited usage))
    (hnone : ∀ v, Writes string v → minProc ≤ v → ¬ v ≤ maxProc) :
    AsPromised program string := by
  refine ⟨iff_of_false ?_ ?_, ?_, fun _ => hresult⟩
  · rintro ⟨nr, hok⟩
    rw [hresult] at hok
    cases hok
  · rintro ⟨v, hwrites, hmin, hmax⟩
    exact hnone v hwrites hmin hmax
  · intro nr v hok
    rw [hresult] at hok
    cases hok

/-- So is an acceptance when the leading digits are all of the argument and
name one of them. -/
theorem asPromised_of_accepted {program : CString}
    (hstarts : StartsWithDigit string)
    (hlength : string.bytes.length ≤ 2147483646)
    (hall : leadingDigits string.bytes = string.bytes)
    (hmin : minProc ≤ leadingValue string)
    (hmax : leadingValue string ≤ maxProc) : AsPromised program string := by
  have hsmall : maxProc = 16 := rfl
  have hmod : leadingValue string % 4294967296 = leadingValue string :=
    Nat.mod_eq_of_lt (by omega)
  have hresult := validateInput_of_digit program hstarts hlength
  rw [hmod, if_pos ⟨by omega, hmin, hmax⟩,
    toInt32_saturate_of_fits (by omega)] at hresult
  refine ⟨iff_of_true ⟨_, hresult⟩
    ⟨_, writes_leadingValue hstarts hall, hmin, hmax⟩, ?_, ?_⟩
  · intro nr v hok hv
    rw [hresult] at hok
    rw [← Except.ok.inj hok, hv.leadingValue_eq]
  · exact fun hnot => absurd hresult (hnot _)

/-- An argument too long for the counter of the loop is not answered. -/
theorem not_asPromised_of_long {program : CString}
    (hstarts : StartsWithDigit string)
    (hlength : ¬ string.bytes.length ≤ 2147483646) :
    ¬ AsPromised program string := by
  intro hpromised
  have hresult := validateInput_of_long program hstarts hlength
  have hrejected := hpromised.rejects fun nr hok => by
    rw [hresult] at hok
    cases hok
  rw [hresult] at hrejected
  cases hrejected

/-- A number of the usage message is in the range, also modulo `2 ^ 32`. -/
theorem Writes.range {v : Nat} (h : Writes string v) (hmin : minProc ≤ v)
    (hmax : v ≤ maxProc) :
    leadingValue string < 9223372036854775808 ∧
      minProc ≤ leadingValue string % 4294967296 ∧
      leadingValue string % 4294967296 ≤ maxProc := by
  have hsmall : maxProc = 16 := rfl
  have hmod : leadingValue string % 4294967296 = v := by
    rw [h.leadingValue_eq]
    exact Nat.mod_eq_of_lt (by omega)
  rw [hmod, h.leadingValue_eq]
  exact ⟨by omega, hmin, hmax⟩

/-- The argument is judged as promised unless it starts with a digit and is
too long for the counter of the loop, or its leading digits are one of the
numbers modulo `2 ^ 32` and either are not all of it or have another value. -/
theorem validateInput_sound_iff (program string : CString) :
    AsPromised program string ↔
      ¬ StartsWithDigit string ∨
        string.bytes.length ≤ 2147483646 ∧
          ¬ (leadingValue string < 9223372036854775808 ∧
            minProc ≤ leadingValue string % 4294967296 ∧
            leadingValue string % 4294967296 ≤ maxProc ∧
            (leadingDigits string.bytes ≠ string.bytes ∨
              4294967296 ≤ leadingValue string)) := by
  by_cases hstarts : StartsWithDigit string
  swap
  · refine iff_of_true (asPromised_of_rejected
      (validateInput_of_not_digit program hstarts) ?_) (Or.inl hstarts)
    exact fun v hwrites => absurd hwrites.startsWithDigit hstarts
  by_cases hlength : string.bytes.length ≤ 2147483646
  swap
  · exact iff_of_false (not_asPromised_of_long hstarts hlength) (by tauto)
  have hresult := validateInput_of_digit program hstarts hlength
  by_cases hrange : leadingValue string < 9223372036854775808 ∧
      minProc ≤ leadingValue string % 4294967296 ∧
      leadingValue string % 4294967296 ≤ maxProc
  · rw [if_pos hrange] at hresult
    constructor
    · intro hpromised
      obtain ⟨v, hwrites, -, hv⟩ := hpromised.accepts_iff.mp ⟨_, hresult⟩
      have hvalue := hwrites.leadingValue_eq
      have hmax : maxProc = 16 := rfl
      refine Or.inr ⟨hlength, fun hmisread => ?_⟩
      rcases hmisread.2.2.2 with hmore | hlarge
      · exact hmore hwrites.leadingDigits_eq
      · omega
    · intro hcondition
      have hread := (hcondition.resolve_left (not_not_intro hstarts)).2
      have hall : leadingDigits string.bytes = string.bytes := by tauto
      have hsmall : leadingValue string < 4294967296 := by
        by_contra hlarge
        exact hread ⟨hrange.1, hrange.2.1, hrange.2.2,
          Or.inr (Nat.le_of_not_lt hlarge)⟩
      rw [Nat.mod_eq_of_lt hsmall] at hrange
      exact asPromised_of_accepted hstarts hlength hall hrange.2.1 hrange.2.2
  · rw [if_neg hrange] at hresult
    exact iff_of_true
      (asPromised_of_rejected hresult fun v hwrites hmin hmax =>
        hrange (hwrites.range hmin hmax))
      (Or.inr ⟨hlength, fun h => hrange ⟨h.1, h.2.1, h.2.2.1⟩⟩)

theorem nameRing_nulFree : (0 : UInt8) ∉ [114, 105, 110, 103] := by
  decide

/-- `ring` -/
def nameRing : CString := ⟨[114, 105, 110, 103], nameRing_nulFree⟩

theorem fiveAbc_nulFree : (0 : UInt8) ∉ [53, 97, 98, 99] := by
  decide

/-- `5abc` -/
def fiveAbc : CString := ⟨[53, 97, 98, 99], fiveAbc_nulFree⟩

/-- `ring 5abc` goes on with five processes. -/
theorem validateInput_fiveAbc :
    validateInput [nameRing, fiveAbc] = .ok 5 ∧
      ¬ AsPromised nameRing fiveAbc := by
  have hresult : validateInput [nameRing, fiveAbc] = .ok 5 := by
    have hvalue : leadingValue fiveAbc = 5 := rfl
    have hstarts : StartsWithDigit fiveAbc := by decide
    rw [validateInput_of_digit _ hstarts (by simp [fiveAbc]), hvalue,
      if_pos (by decide), toInt32_saturate_of_fits (by decide)]
    rfl
  refine ⟨hresult, fun hpromised => ?_⟩
  obtain ⟨v, hwrites, -⟩ := hpromised.accepts_iff.mp ⟨5, hresult⟩
  have hdigit := hwrites.digits 97 (by simp [fiveAbc])
  cases hdigit

end

end OsLabs.Lab1.RingArguments
