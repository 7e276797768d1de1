import Mathlib.Data.List.Count
import OsLabs.Posix.Integers

/-!
# `do_time` and `do_utctime`

The two clock calls of the process manager, `servers/pm/time.c`, and the range
of tick frequencies that `cstart` admits.

`time_t` is a signed 32-bit type.  The header that defines `clock_t` is not
part of the repository; both readings of it are modelled (`ClockType`).  A
field of a reply whose computation overflows a signed type has no value.

`doUtctime_exact`: until 2038 the seconds are right and never run backwards.
`microsecondsRight_iff`: the microseconds are right exactly when the product
that is formed before the division fits.
-/

namespace OsLabs.Lab3.UtcTime

open OsLabs.Posix

/-! ## The source -/

/-- The two 32-bit types that `clock_t` can be. -/
inductive ClockType where
  | unsigned
  | signed
  deriving Repr, DecidableEq

/-- The value of a `clock_t` expression with the exact value `n`. -/
def ClockType.value (clock : ClockType) (n : Int) : Option Int :=
  match clock with
  | .unsigned => some (uint32 n)
  | .signed => int32 n

/-- The largest `clock_t`. -/
def ClockType.max : ClockType → Nat
  | .unsigned => 4294967295
  | .signed => 2147483647

/-- The tick frequencies that `cstart` admits. -/
structure TickFrequency where
  hz : Nat
  atLeast : 2 ≤ hz
  atMost : hz ≤ 50000

/-- `cstart`: the value of the boot variable `hz`, if it passes the sanity
check, else `DEFAULT_HZ`. -/
def cstart (value : Option Int) (defaultHz : TickFrequency) : TickFrequency :=
  match value with
  | none => defaultHz
  | some hz =>
    if h : 2 ≤ hz.toNat ∧ hz.toNat ≤ 50000 then ⟨hz.toNat, h.1, h.2⟩
    else defaultHz

/-- What `getuptime2` fills in. -/
structure ClockReading where
  uptime : Nat
  boottime : Int
  deriving Repr, DecidableEq

/-- The fields `reply_time` and `reply_utime` of a reply. -/
structure Reply where
  replyTime : Option Int
  replyUtime : Option Int
  deriving Repr, DecidableEq

/-- How a call ends. -/
inductive Outcome where
  | panicked (s : Int)
  | returned (status : Int) (reply : Reply)
  deriving Repr, DecidableEq

/-- `OK` -/
def ok : Int := 0

/-- `leapsecond_reference` -/
def leapsecondReference : List Int :=
  [78796799, 94694399, 126230399, 157766399,
    189302399, 220924799, 252460799, 283996799, 315532799, 362793599, 394329599,
    425865599, 489023999, 567993599, 631151999, 662687999, 709948799, 741484799,
    773020799, 820454399, 867715199, 915148799, 1136073599, 1230767999,
    1341100799, 1435708799, 1483228799]

/-- The loop over `leapsecond_reference`: the value of `i` behind it. -/
def leapLoop (utctime : Int) : List Int → Nat
  | [] => 0
  | reference :: rest =>
    if ¬ utctime > reference then 0 else leapLoop utctime rest + 1

section

variable (clock : ClockType) (frequency : TickFrequency)

/-- `(time_t) (boottime + (uptime/system_hz))` -/
def timeValue (reading : ClockReading) : Option Int :=
  (clock.value (reading.boottime +
    (reading.uptime / frequency.hz : Nat))).map toInt32

/-- `(uptime%system_hz)*1000000/system_hz` -/
def utimeValue (reading : ClockReading) : Option Int :=
  (clock.value ((reading.uptime % frequency.hz : Nat) * 1000000)).map
    fun product => product / frequency.hz

/-- `do_time`, when `getuptime2` returns `s`. -/
def doTime (s : Int) (reading : ClockReading) : Outcome :=
  if s ≠ ok then .panicked s
  else .returned ok
    ⟨timeValue clock frequency reading, utimeValue clock frequency reading⟩

/-- `utctime + i + 10`, with the `i` of the loop. -/
def leapTime (utctime : Int) : Option Int := do
  let sum ← int32 (utctime + leapLoop utctime leapsecondReference)
  int32 (sum + 10)

/-- What `do_utctime` replies. -/
def utcReply (reading : ClockReading) : Reply where
  replyTime := timeValue clock frequency reading >>= leapTime
  replyUtime := utimeValue clock frequency reading

/-- `do_utctime`, when `getuptime2` returns `s`. -/
def doUtctime (s : Int) (reading : ClockReading) : Outcome :=
  if s ≠ ok then .panicked s
  else .returned ok (utcReply clock frequency reading)

end

/-- `reply_time` of a call that has returned. -/
def Outcome.replyTime : Outcome → Option Int
  | .panicked _ => none
  | .returned _ reply => reply.replyTime

/-! ## The loop -/

section Loop

variable {references : List Int} {t t' : Int}

/-- On an ascending list the loop counts the entries below `t`. -/
theorem leapLoop_eq_countP (h : references.Pairwise (· < ·)) (t : Int) :
    leapLoop t references = references.countP (· < t) := by
  induction references with
  | nil => rfl
  | cons reference rest ih =>
      obtain ⟨habove, hrest⟩ := List.pairwise_cons.mp h
      by_cases hlt : reference < t
      · rw [leapLoop, if_neg (not_not_intro hlt), ih hrest,
          List.countP_cons_of_pos (by simpa using hlt)]
      · have hnone : rest.countP (· < t) = 0 := by
          apply List.countP_eq_zero.mpr
          intro r hr
          have hge := habove r hr
          simp only [decide_eq_true_eq]
          omega
        rw [leapLoop, if_pos hlt,
          List.countP_cons_of_neg (by simpa using hlt), hnone]

theorem leapsecondReference_ascending :
    leapsecondReference.Pairwise (· < ·) := by
  decide

/-- The leap seconds inserted before `t`. -/
def leapSeconds (t : Int) : Nat := leapsecondReference.countP (· < t)

theorem leapLoop_reference (t : Int) :
    leapLoop t leapsecondReference = leapSeconds t :=
  leapLoop_eq_countP leapsecondReference_ascending t

theorem leapSeconds_le (t : Int) : leapSeconds t ≤ 27 :=
  List.countP_le_length

theorem leapSeconds_mono (h : t ≤ t') : leapSeconds t ≤ leapSeconds t' := by
  apply List.countP_mono_left
  intro r _ hr
  simp only [decide_eq_true_eq] at hr ⊢
  omega

/-- Behind the last entry of the table all of them count. -/
theorem leapSeconds_late (h : 1483228799 < t) : leapSeconds t = 27 := by
  apply List.countP_eq_length.mpr
  intro r hr
  have hle : r ≤ 1483228799 := by
    revert r
    decide
  simp only [decide_eq_true_eq]
  omega

/-- Before the first one, none. -/
theorem leapSeconds_early (h : t ≤ 78796799) : leapSeconds t = 0 := by
  apply List.countP_eq_zero.mpr
  intro r hr
  have hge : 78796799 ≤ r := by
    revert r
    decide
  simp only [decide_eq_true_eq]
  omega

end Loop

/-! ## The seconds -/

section Seconds

variable {clock : ClockType} {frequency : TickFrequency}
  {reading later : ClockReading} {t : Int}

/-- The exact second of a reading. -/
def ClockReading.time (reading : ClockReading) (frequency : TickFrequency) :
    Int :=
  reading.boottime + (reading.uptime / frequency.hz : Nat)

/-- A second that leaves room for the leap seconds in a `time_t`. -/
def HasRoom (t : Int) : Prop := -2147483648 ≤ t ∧ t ≤ 2147483610

instance (t : Int) : Decidable (HasRoom t) :=
  inferInstanceAs (Decidable (_ ∧ _))

theorem timeValue_of_fits (h : InInt32 (reading.time frequency)) :
    timeValue clock frequency reading = some (reading.time frequency) := by
  unfold timeValue
  cases clock with
  | unsigned =>
      show some (toInt32 (uint32 (reading.time frequency))) = _
      rw [toInt32_uint32, toInt32_of_fits h]
  | signed =>
      show (int32 (reading.time frequency)).map toInt32 = _
      rw [int32_of_fits h, Option.map_some, toInt32_of_fits h]

theorem leapTime_of_room (h : HasRoom t) :
    leapTime t = some (t + 10 + leapSeconds t) := by
  have hle := leapSeconds_le t
  unfold HasRoom at h
  unfold leapTime
  rw [leapLoop_reference, int32_of_fits (by unfold InInt32; omega)]
  show int32 (t + leapSeconds t + 10) = _
  rw [int32_of_fits (by unfold InInt32; omega)]
  congr 1
  omega

/-- The last seconds before 2038 have no value. -/
theorem leapTime_of_late (h : 2147483610 < t) : leapTime t = none := by
  have hall : leapSeconds t = 27 := leapSeconds_late (by omega)
  unfold leapTime
  rw [leapLoop_reference, hall]
  cases hsum : int32 (t + (27 : Nat)) with
  | none => rfl
  | some sum =>
      obtain ⟨-, rfl⟩ := int32_eq_some.mp hsum
      exact if_neg (by unfold InInt32; omega)

theorem utcReply_time (h : HasRoom (reading.time frequency)) :
    (utcReply clock frequency reading).replyTime =
      some (reading.time frequency + 10 +
        leapSeconds (reading.time frequency)) := by
  have hfits : InInt32 (reading.time frequency) := by
    unfold HasRoom at h
    unfold InInt32
    omega
  show timeValue clock frequency reading >>= leapTime = _
  rw [timeValue_of_fits hfits]
  exact leapTime_of_room h

/-- **The leap seconds are counted right and never run backwards.**  The reply
is the second of the reading, 10 and the number of entries below it; of two
readings the later one gets the later reply, by no less than the time between
them, and so the distance to `do_time` never shrinks. -/
theorem doUtctime_exact (clock : ClockType) (frequency : TickFrequency)
    {reading : ClockReading} (h : HasRoom (reading.time frequency)) :
    ∃ reply, (doUtctime clock frequency ok reading).replyTime = some reply ∧
      reply = reading.time frequency + 10 +
        leapsecondReference.countP (· < reading.time frequency) ∧
      ∀ later : ClockReading, HasRoom (later.time frequency) →
        reading.time frequency ≤ later.time frequency →
        ∃ reply' time time',
          (doUtctime clock frequency ok later).replyTime = some reply' ∧
          (doTime clock frequency ok reading).replyTime = some time ∧
          (doTime clock frequency ok later).replyTime = some time' ∧
          reply + (later.time frequency - reading.time frequency) ≤ reply' ∧
          (reading.time frequency < later.time frequency → reply < reply') ∧
          reply - time ≤ reply' - time' := by
  have hfits : ∀ c : ClockReading, HasRoom (c.time frequency) →
      InInt32 (c.time frequency) := by
    intro c hc
    unfold HasRoom at hc
    unfold InInt32
    omega
  refine ⟨_, utcReply_time h, rfl, fun later hlater hle => ?_⟩
  have hmono := leapSeconds_mono hle
  refine ⟨_, _, _, utcReply_time hlater, timeValue_of_fits (hfits _ h),
    timeValue_of_fits (hfits _ hlater), ?_, ?_, ?_⟩
  · show reading.time frequency + 10 + leapSeconds (reading.time frequency) +
      (later.time frequency - reading.time frequency) ≤ _
    omega
  · intro hlt
    show reading.time frequency + 10 +
      leapSeconds (reading.time frequency) < _
    omega
  · show reading.time frequency + 10 + leapSeconds (reading.time frequency) -
      reading.time frequency ≤ _
    omega

/-- The usual frequency. -/
def sixtyHz : TickFrequency := ⟨60, by omega, by omega⟩

/-- The last second of 2016 and the first one of 2017, with the last entry of
the table between them. -/
theorem doUtctime_exact_last :
    ∃ reply, (doUtctime .signed sixtyHz ok ⟨0, 1483228799⟩).replyTime =
        some reply ∧ reply = 1483228799 + 10 + 26 ∧
      ∃ reply' time time',
        (doUtctime .signed sixtyHz ok ⟨60, 1483228799⟩).replyTime =
          some reply' ∧
        (doTime .signed sixtyHz ok ⟨0, 1483228799⟩).replyTime = some time ∧
        (doTime .signed sixtyHz ok ⟨60, 1483228799⟩).replyTime =
          some time' ∧
        reply + 1 ≤ reply' ∧ reply < reply' ∧
        reply - time ≤ reply' - time' := by
  have hroom : HasRoom (ClockReading.time ⟨0, 1483228799⟩ sixtyHz) := by
    decide
  have hlater : HasRoom (ClockReading.time ⟨60, 1483228799⟩ sixtyHz) := by
    decide
  obtain ⟨reply, hreply, heq, hnext⟩ := doUtctime_exact .signed sixtyHz hroom
  obtain ⟨reply', time, time', hreply', htime, htime', hapart, hlt, hleap⟩ :=
    hnext ⟨60, 1483228799⟩ hlater (by decide)
  exact ⟨reply, hreply, heq, reply', time, time', hreply', htime, htime',
    hapart, hlt (by decide), hleap⟩

end Seconds

/-! ## The microseconds -/

/-- The values of a `clock_t`. -/
def ClockType.Holds (clock : ClockType) (n : Int) : Prop :=
  match clock with
  | .unsigned => 0 ≤ n ∧ n ≤ 4294967295
  | .signed => InInt32 n

/-- A reading that the kernel can give. -/
structure ClockReading.Valid (reading : ClockReading) (clock : ClockType) :
    Prop where
  boottime : clock.Holds reading.boottime
  uptime : reading.uptime ≤ clock.max

/-- The microseconds of a reading: the tick within the second, exactly. -/
def exactMicroseconds (frequency : TickFrequency) (uptime : Nat) : Nat :=
  uptime % frequency.hz * 1000000 / frequency.hz

/-- The order of the replies: by seconds, and then by microseconds. -/
def Reply.NotAfter (reply reply' : Reply) : Prop :=
  ∃ s s', reply.replyTime = some s ∧ reply'.replyTime = some s' ∧
    (s < s' ∨ s = s' ∧ ∃ m m', reply.replyUtime = some m ∧
      reply'.replyUtime = some m' ∧ m ≤ m')

/-- The microseconds replied are exact and in range, and no earlier tick of
the same clock gets a later reply. -/
structure MicrosecondsRight (clock : ClockType) (frequency : TickFrequency)
    (reading : ClockReading) : Prop where
  exact : (utcReply clock frequency reading).replyUtime =
    some (exactMicroseconds frequency reading.uptime : Int)
  range : exactMicroseconds frequency reading.uptime ≤ 999999
  ordered : ∀ uptime, uptime ≤ reading.uptime →
    (utcReply clock frequency { reading with uptime := uptime }).NotAfter
      (utcReply clock frequency reading)

/-- The product of `reply_utime` fits a `clock_t`. -/
def ProductFits (clock : ClockType) (frequency : TickFrequency)
    (uptime : Nat) : Prop :=
  uptime % frequency.hz * 1000000 ≤ clock.max

section Microseconds

variable {clock : ClockType} {frequency : TickFrequency}
  {reading : ClockReading} {uptime : Nat}

theorem exactMicroseconds_le (frequency : TickFrequency) (uptime : Nat) :
    exactMicroseconds frequency uptime ≤ 999999 := by
  have hpos : 0 < frequency.hz := by
    have := frequency.atLeast
    omega
  have htick := Nat.mod_lt uptime hpos
  have hlt : uptime % frequency.hz * 1000000 / frequency.hz < 1000000 := by
    apply Nat.div_lt_of_lt_mul
    exact Nat.mul_lt_mul_of_pos_right htick (by decide)
  exact Nat.le_of_lt_succ hlt

theorem utimeValue_eq (clock : ClockType) (frequency : TickFrequency)
    (reading : ClockReading) :
    utimeValue clock frequency reading =
      (clock.value ((reading.uptime % frequency.hz * 1000000 : Nat) : Int)).map
        fun product : Int => product / (frequency.hz : Int) := by
  unfold utimeValue
  rw [Int.natCast_mul]
  rfl

theorem value_of_fits {n : Nat} (h : n ≤ clock.max) :
    clock.value (n : Int) = some (n : Int) := by
  cases clock with
  | unsigned =>
      have hle : n ≤ 4294967295 := h
      exact congrArg some (uint32_of_fits (by omega) (by omega))
  | signed =>
      have hle : n ≤ 2147483647 := h
      exact int32_of_fits (by unfold InInt32; omega)

theorem utimeValue_of_fits (h : ProductFits clock frequency reading.uptime) :
    utimeValue clock frequency reading =
      some (exactMicroseconds frequency reading.uptime : Int) := by
  rw [utimeValue_eq, value_of_fits h]
  rfl

/-- A quotient loses at least one when the product loses a turn. -/
theorem quotient_lt {product divisor turn : Int} (hpos : 0 < divisor)
    (hle : divisor ≤ turn) :
    (product - turn) / divisor < product / divisor := by
  have hstep : (product - turn) / divisor ≤ (product - divisor) / divisor :=
    Int.ediv_le_ediv hpos (by omega)
  have hone : (product - divisor) / divisor = product / divisor - 1 := by
    rw [Int.sub_ediv_of_dvd _ (Int.dvd_refl divisor), Int.ediv_self (by omega)]
  omega

/-- When the product does not fit, the microseconds are wrong or have no
value. -/
theorem utimeValue_of_not_fits
    (h : ¬ ProductFits clock frequency reading.uptime) :
    utimeValue clock frequency reading ≠
      some (exactMicroseconds frequency reading.uptime : Int) := by
  have hatLeast := frequency.atLeast
  have hatMost := frequency.atMost
  rw [utimeValue_eq]
  unfold ProductFits at h
  unfold exactMicroseconds
  generalize reading.uptime % frequency.hz * 1000000 = product at h ⊢
  cases clock with
  | unsigned =>
      have hgt : ¬ product ≤ 4294967295 := h
      intro heq
      have hvalue : uint32 product / (frequency.hz : Int) =
          (product / frequency.hz : Nat) := Option.some.inj heq
      have hwrap : uint32 product ≤ product - 4294967296 := by
        unfold uint32
        omega
      have hle : uint32 product / (frequency.hz : Int) ≤
          (product - 4294967296) / (frequency.hz : Int) :=
        Int.ediv_le_ediv (by omega) hwrap
      have hlt : ((product : Int) - 4294967296) / (frequency.hz : Int) <
          product / (frequency.hz : Int) := quotient_lt (by omega) (by omega)
      rw [Int.natCast_ediv] at hvalue
      omega
  | signed =>
      have hgt : ¬ product ≤ 2147483647 := h
      have hnone : int32 (product : Int) = none :=
        if_neg (by unfold InInt32; omega)
      show (int32 (product : Int)).map _ ≠ _
      rw [hnone]
      intro heq
      cases heq

/-! ## Clocks that run into 2038 -/

/-- A reading with its boot time as a `time_t`. -/
def ClockReading.converted (reading : ClockReading) : ClockReading :=
  { reading with boottime := toInt32 reading.boottime }

theorem timeValue_converted (h : reading.Valid clock) :
    timeValue clock frequency reading =
      timeValue clock frequency reading.converted := by
  cases clock with
  | unsigned =>
      show some (toInt32 (uint32 _)) = some (toInt32 (uint32 _))
      rw [toInt32_uint32, toInt32_uint32]
      exact congrArg some (toInt32_add_left _ _).symm
  | signed =>
      have hsame : reading.converted = reading := by
        unfold ClockReading.converted
        rw [toInt32_of_fits h.boottime]
      rw [hsame]

theorem quotient_le (frequency : TickFrequency) (h : reading.Valid clock) :
    reading.uptime / frequency.hz ≤ 2147483647 := by
  have hmax : reading.uptime ≤ 4294967295 := by
    have huptime := h.uptime
    cases clock with
    | unsigned => exact huptime
    | signed =>
        have hle : reading.uptime ≤ 2147483647 := huptime
        omega
  have hhalf : reading.uptime / frequency.hz ≤ reading.uptime / 2 :=
    Nat.div_le_div_left frequency.atLeast (by decide)
  omega

/-- Behind 2038 the second has no value, or it is one before 1970. -/
theorem utcReply_above (hlt : reading.time frequency < 4294967296)
    (hle : 2147483610 < reading.time frequency) :
    (utcReply clock frequency reading).replyTime = none ∨
      2147483648 ≤ reading.time frequency ∧
      (utcReply clock frequency reading).replyTime =
        some (reading.time frequency - 4294967296 + 10) := by
  show timeValue clock frequency reading >>= leapTime = none ∨
    _ ∧ timeValue clock frequency reading >>= leapTime = _
  by_cases hfits : reading.time frequency ≤ 2147483647
  · left
    rw [timeValue_of_fits (by unfold InInt32; omega)]
    exact leapTime_of_late hle
  · cases clock with
    | unsigned =>
        have hvalue : timeValue .unsigned frequency reading =
            some (reading.time frequency - 4294967296) := by
          show some (toInt32 (uint32 (reading.time frequency))) = _
          rw [toInt32_uint32, toInt32_of_above (by omega) (by omega)]
        have hearly : leapSeconds (reading.time frequency - 4294967296) = 0 :=
          leapSeconds_early (by omega)
        right
        rw [hvalue]
        refine ⟨by omega, ?_⟩
        show leapTime _ = _
        rw [leapTime_of_room (by unfold HasRoom; omega), hearly]
        congr 1
        omega
    | signed =>
        left
        have hnone : timeValue .signed frequency reading = none := by
          show (int32 (reading.time frequency)).map toInt32 = none
          have hint : int32 (reading.time frequency) = none :=
            if_neg (by unfold InInt32; omega)
          rw [hint]
          rfl
        rw [hnone]
        rfl

theorem utcReply_converted (h : reading.Valid clock) :
    (utcReply clock frequency reading).replyTime =
      (utcReply clock frequency reading.converted).replyTime := by
  show timeValue clock frequency reading >>= leapTime = _
  rw [timeValue_converted h]
  rfl

theorem ClockReading.Valid.earlier (h : reading.Valid clock)
    (hle : uptime ≤ reading.uptime) :
    ({ reading with uptime := uptime } : ClockReading).Valid clock :=
  ⟨h.boottime, Nat.le_trans hle h.uptime⟩

/-- An earlier tick is in the same second or an earlier one. -/
theorem time_le_of_uptime_le (frequency : TickFrequency)
    (hle : uptime ≤ reading.uptime) :
    ({ reading with uptime := uptime } : ClockReading).converted.time
        frequency ≤ reading.converted.time frequency := by
  have hdiv : uptime / frequency.hz ≤ reading.uptime / frequency.hz :=
    Nat.div_le_div_right hle
  show toInt32 reading.boottime + ((uptime / frequency.hz : Nat) : Int) ≤
    toInt32 reading.boottime + ((reading.uptime / frequency.hz : Nat) : Int)
  omega

theorem hasRoom_converted
    (h : reading.converted.time frequency ≤ 2147483610) :
    HasRoom (reading.converted.time frequency) := by
  have hfits := toInt32_fits reading.boottime
  have hquotient := Int.natCast_nonneg (reading.uptime / frequency.hz)
  unfold InInt32 at hfits
  refine ⟨?_, h⟩
  show -2147483648 ≤ toInt32 reading.boottime +
    ((reading.uptime / frequency.hz : Nat) : Int)
  omega

/-- Within a second the product only grows. -/
theorem tick_le_of_same_second (hle : uptime ≤ reading.uptime)
    (hsame : uptime / frequency.hz = reading.uptime / frequency.hz) :
    uptime % frequency.hz ≤ reading.uptime % frequency.hz := by
  have hearly := Nat.div_add_mod uptime frequency.hz
  have hlate := Nat.div_add_mod reading.uptime frequency.hz
  rw [hsame] at hearly
  omega

/-- While the product and the second fit, no earlier tick gets a later
reply. -/
theorem notAfter_of_fits (hvalid : reading.Valid clock)
    (hproduct : ProductFits clock frequency reading.uptime)
    (hroom : reading.converted.time frequency ≤ 2147483610)
    (hle : uptime ≤ reading.uptime) :
    (utcReply clock frequency { reading with uptime := uptime }).NotAfter
      (utcReply clock frequency reading) := by
  have htime := time_le_of_uptime_le frequency hle
  have hearly := (utcReply_converted (hvalid.earlier hle)).trans
    (utcReply_time (hasRoom_converted (Int.le_trans htime hroom)))
  have hlate := (utcReply_converted hvalid).trans
    (utcReply_time (hasRoom_converted hroom))
  have hmono := leapSeconds_mono htime
  refine ⟨_, _, hearly, hlate, ?_⟩
  rcases Int.lt_or_eq_of_le htime with hlt | heq
  · left
    omega
  · have hquotients : toInt32 reading.boottime +
        ((uptime / frequency.hz : Nat) : Int) =
      toInt32 reading.boottime +
        ((reading.uptime / frequency.hz : Nat) : Int) := heq
    have hsame : uptime / frequency.hz = reading.uptime / frequency.hz :=
      Int.natCast_inj.mp (Int.add_left_cancel hquotients)
    have hticks : uptime % frequency.hz * 1000000 ≤
        reading.uptime % frequency.hz * 1000000 :=
      Nat.mul_le_mul_right _ (tick_le_of_same_second hle hsame)
    have hfits : ProductFits clock frequency uptime :=
      Nat.le_trans hticks hproduct
    have hutime : utimeValue clock frequency
        { reading with uptime := uptime } =
          some (exactMicroseconds frequency uptime : Int) :=
      utimeValue_of_fits hfits
    right
    exact ⟨by rw [heq], _, _, hutime, utimeValue_of_fits hproduct,
      Int.ofNat_le.mpr (Nat.div_le_div_right hticks)⟩

/-- A reading that is too late to have room is replied before an earlier one,
or one of the two has no reply. -/
theorem exists_not_notAfter (hvalid : reading.Valid clock)
    (hlate : 2147483610 < reading.converted.time frequency) :
    ¬ ∀ uptime, uptime ≤ reading.uptime →
      (utcReply clock frequency { reading with uptime := uptime }).NotAfter
        (utcReply clock frequency reading) := by
  intro hordered
  have hboot := toInt32_fits reading.boottime
  unfold InInt32 at hboot
  have htime : reading.converted.time frequency ≤
      toInt32 reading.boottime + 2147483647 := by
    have hquotient := quotient_le frequency hvalid
    exact Int.add_le_add_left (Int.ofNat_le.mpr hquotient) _
  have hfirst : ({ reading with uptime := 0 } : ClockReading).Valid clock :=
    hvalid.earlier (Nat.zero_le _)
  have hstart : ({ reading with uptime := 0 } : ClockReading).converted.time
      frequency = toInt32 reading.boottime := by
    show toInt32 reading.boottime + ((0 / frequency.hz : Nat) : Int) = _
    rw [Nat.zero_div]
    exact Int.add_zero _
  obtain ⟨s, s', hs, hs', horder⟩ := hordered 0 (Nat.zero_le _)
  have hnotNone : (utcReply clock frequency reading.converted).replyTime ≠
      none := by
    rw [← utcReply_converted hvalid, hs']
    exact Option.some_ne_none s'
  rcases utcReply_above (by omega) hlate with hnone | ⟨habove, hwrapped⟩
  · exact hnotNone hnone
  · rw [← utcReply_converted hvalid, hs'] at hwrapped
    cases hwrapped
    rw [utcReply_converted hfirst] at hs
    by_cases hroom : toInt32 reading.boottime ≤ 2147483610
    · rw [utcReply_time (by rw [hstart]; unfold HasRoom; omega), hstart] at hs
      cases hs
      omega
    · rw [← hstart] at hroom hboot
      rcases utcReply_above (by omega) (Int.not_le.mp hroom) with
        hnone | ⟨habove', -⟩
      · rw [hnone] at hs
        cases hs
      · omega

/-- **The microseconds are right** exactly when the product fits a `clock_t`
and the second of the reading leaves room for the leap seconds. -/
theorem microsecondsRight_iff (hvalid : reading.Valid clock) :
    MicrosecondsRight clock frequency reading ↔
      ProductFits clock frequency reading.uptime ∧
        reading.converted.time frequency ≤ 2147483610 := by
  constructor
  · intro h
    have hproduct : ProductFits clock frequency reading.uptime := by
      by_contra hnot
      exact utimeValue_of_not_fits hnot h.exact
    refine ⟨hproduct, ?_⟩
    by_contra hnot
    exact exists_not_notAfter hvalid (Int.not_le.mp hnot) h.ordered
  · rintro ⟨hproduct, hroom⟩
    exact ⟨utimeValue_of_fits hproduct, exactMicroseconds_le _ _,
      fun uptime hle => notAfter_of_fits hvalid hproduct hroom hle⟩

/-- Every tick of a second fits up to 4295 ticks in a second, or up to 2148
when `clock_t` is signed. -/
theorem productFits_all_iff (clock : ClockType) (frequency : TickFrequency) :
    (∀ uptime, ProductFits clock frequency uptime) ↔
      frequency.hz ≤ clock.max / 1000000 + 1 := by
  have hatLeast := frequency.atLeast
  constructor
  · intro hall
    have hlast : (frequency.hz - 1) % frequency.hz * 1000000 ≤ clock.max :=
      hall (frequency.hz - 1)
    rw [Nat.mod_eq_of_lt (by omega)] at hlast
    omega
  · intro hle uptime
    have htick := Nat.mod_lt uptime (show 0 < frequency.hz by omega)
    unfold ProductFits
    omega

/-- The last tick of a second at 60 ticks a second. -/
theorem microsecondsRight_iff_sixtyHz :
    MicrosecondsRight .unsigned sixtyHz ⟨59, 0⟩ ↔
      ProductFits .unsigned sixtyHz 59 ∧
        (ClockReading.converted ⟨59, 0⟩).time sixtyHz ≤ 2147483610 := by
  apply microsecondsRight_iff
  constructor
  · exact ⟨by decide, by decide⟩
  · decide

/-- The largest frequency that `cstart` admits. -/
def fastest : TickFrequency := ⟨50000, by omega, by omega⟩

/-- The last tick of a second at 50000 ticks a second: 55087 microseconds
instead of 999980, or none at all.  Within a second they fall from 85880 to
0. -/
theorem not_microsecondsRight_fastest :
    exactMicroseconds fastest 49999 = 999980 ∧
    (utcReply .unsigned fastest ⟨49999, 0⟩).replyUtime = some 55087 ∧
    (utcReply .signed fastest ⟨49999, 0⟩).replyUtime = none ∧
    (utcReply .unsigned fastest ⟨4294, 0⟩).replyUtime = some 85880 ∧
    (utcReply .unsigned fastest ⟨4295, 0⟩).replyUtime = some 0 ∧
    ¬ MicrosecondsRight .unsigned fastest ⟨49999, 0⟩ ∧
    ¬ MicrosecondsRight .signed fastest ⟨49999, 0⟩ := by
  refine ⟨by decide, by decide, by decide, by decide, by decide, ?_, ?_⟩
  · intro h
    exact absurd h.exact (by decide)
  · intro h
    exact absurd h.exact (by decide)

end Microseconds

end OsLabs.Lab3.UtcTime
