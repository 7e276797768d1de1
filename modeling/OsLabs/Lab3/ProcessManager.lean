import Mathlib.Data.Nat.Basic
import OsLabs.Lab3.UtcTime
import OsLabs.Posix.Memory

/-!
# The clock of the process manager

The routines of `servers/pm/time.c` behind the table of `servers/pm/table.c`,
over whole sequences of ticks and calls, and the two clients that call them:
`utctime` of the C library and `gettime` of `test.c`.

The kernel and the main loop of the process manager are not part of the
repository.  What the kernel calls return is part of an event; `sys_stime`
sets the time of boot that `getuptime2` reports, and the main loop runs the
entry of `call_vec` at the number of the call.

`WallClock` is what the calls mean to their users: a number of seconds that a
tick raises at the end of a second, and that only the superuser can set.
`run_refines`: the process manager is such a clock.
-/

namespace OsLabs.Lab3.ProcessManager

open OsLabs.Posix UtcTime

/-! ## The source -/

/-- `NCALLS` -/
def ncalls : Nat := 114

/-- `TIME` -/
def timeCall : Nat := 13

/-- `STIME` -/
def stimeCall : Nat := 25

/-- `TIMES` -/
def timesCall : Nat := 43

/-- `UTCTIME` -/
def utctimeCall : Nat := 44

/-- `GETTIMEOFDAY` -/
def gettimeofdayCall : Nat := 90

/-- The routines of `time.c`; the others are not part of the repository. -/
inductive Routine where
  | doTime
  | doUtctime
  | doStime
  | doTimes
  | elsewhere
  deriving Repr, DecidableEq

/-- `call_vec` -/
def callVec (nr : Nat) : Option Routine :=
  if nr < ncalls then
    some <| match nr with
      | 13 => .doTime
      | 25 => .doStime
      | 43 => .doTimes
      | 44 => .doUtctime
      | 90 => .doTime
      | _ => .elsewhere
  else none

/-- `SUPER_USER` -/
def superUser : Int := 0

/-- What the process manager and the kernel keep of the caller. -/
structure Caller where
  effuid : Int
  userTime : Int
  sysTime : Int
  childUtime : Int
  childStime : Int
  deriving Repr, DecidableEq

/-- A message to the process manager, with what the kernel calls of its
routine return: `s` the first of them, `stimeStatus` the `sys_stime`. -/
structure Request where
  nr : Nat
  caller : Caller
  stime : Int
  s : Int
  stimeStatus : Int
  deriving Repr, DecidableEq

/-- The fields that `do_times` fills in. -/
structure TimesReply where
  t1 : Int
  t2 : Int
  t3 : Int
  t4 : Int
  t5 : Int
  deriving Repr, DecidableEq

/-- What comes back from a call. -/
inductive Answer where
  | eperm
  | ok
  | time (reply : Reply)
  | times (reply : TimesReply)
  | elsewhere
  | noSuchCall
  deriving Repr, DecidableEq

/-- The ways a call does not come back. -/
inductive Stop where
  | panicked (s : Int)
  | undefined
  deriving Repr, DecidableEq

section

variable (clock : ClockType) (frequency : TickFrequency)

/-- What the main loop makes of the end of a routine. -/
def answered : Outcome → Except Stop Answer
  | .panicked s => .error (.panicked s)
  | .returned _ reply => .ok (.time reply)

/-- `do_stime` -/
def doStime (request : Request) (reading : ClockReading) :
    Except Stop (Answer × ClockReading) :=
  if request.caller.effuid ≠ superUser then .ok (.eperm, reading)
  else if request.s ≠ UtcTime.ok then .error (.panicked request.s)
  else
    match clock.value (request.stime - (reading.uptime / frequency.hz : Nat))
      with
    | none => .error .undefined
    | some boottime =>
      if request.stimeStatus ≠ UtcTime.ok then
        .error (.panicked request.stimeStatus)
      else .ok (.ok, { reading with boottime := boottime })

/-- `do_times` -/
def doTimes (request : Request) (reading : ClockReading) :
    Except Stop Answer :=
  if request.s ≠ UtcTime.ok then .error (.panicked request.s)
  else .ok <| .times
    { t1 := request.caller.userTime
      t2 := request.caller.sysTime
      t3 := request.caller.childUtime
      t4 := request.caller.childStime
      t5 := reading.uptime }

/-- A call: the entry of `call_vec`. -/
def serve (request : Request) (reading : ClockReading) :
    Except Stop (Answer × ClockReading) :=
  match callVec request.nr with
  | none => .ok (.noSuchCall, reading)
  | some .elsewhere => .ok (.elsewhere, reading)
  | some .doTime => do
    let answer ← answered (doTime clock frequency request.s reading)
    return (answer, reading)
  | some .doUtctime => do
    let answer ← answered (doUtctime clock frequency request.s reading)
    return (answer, reading)
  | some .doStime => doStime clock frequency request reading
  | some .doTimes => do
    let answer ← doTimes request reading
    return (answer, reading)

/-- What happens to the process manager. -/
inductive Event where
  | tick
  | call (request : Request)
  deriving Repr, DecidableEq

/-- A sequence of events: the answers, and what the kernel's clock reads
then. -/
def run : List Event → ClockReading → Except Stop (List Answer × ClockReading)
  | [], reading => .ok ([], reading)
  | .tick :: events, reading =>
    run events { reading with uptime := reading.uptime + 1 }
  | .call request :: events, reading => do
    let (answer, reading) ← serve clock frequency request reading
    let (answers, reading) ← run events reading
    return (answer :: answers, reading)

end

/-- `m.m2_l1` behind `_syscall`, if that did not fail. -/
def Answer.seconds : Answer → Option Int
  | .time reply => reply.replyTime
  | _ => none

/-- `utctime`: the result, and what it stores at `tloc` (`storesAt`: that is
not `NULL`). -/
def utctime (answer : Answer) (storesAt : Bool) : Int × Option Int :=
  match answer.seconds with
  | none => (-1, none)
  | some seconds => (seconds, if storesAt then some seconds else none)

/-- `gettime` of `test.c` -/
def gettime (answer : Answer) : Int := answer.seconds.getD (-1)

/-! ## The clock as its users see it -/

/-- The ticks since boot, and the second it is. -/
structure WallClock where
  ticks : Nat
  seconds : Int
  deriving Repr, DecidableEq

namespace WallClock

/-- The last tick of a second begins the next one. -/
def tick (hz : Nat) (w : WallClock) : WallClock where
  ticks := w.ticks + 1
  seconds := if hz ∣ w.ticks + 1 then w.seconds + 1 else w.seconds

/-- The microseconds since the second began. -/
def microseconds (frequency : TickFrequency) (w : WallClock) : Int :=
  exactMicroseconds frequency w.ticks

/-- What a call gets to see, and the clock behind it. -/
def serve (frequency : TickFrequency) (request : Request) (w : WallClock) :
    Answer × WallClock :=
  match callVec request.nr with
  | none => (.noSuchCall, w)
  | some .elsewhere => (.elsewhere, w)
  | some .doTime => (.time ⟨w.seconds, w.microseconds frequency⟩, w)
  | some .doUtctime =>
    (.time ⟨some (w.seconds + 10 + leapSeconds w.seconds),
      w.microseconds frequency⟩, w)
  | some .doStime =>
    if request.caller.effuid = superUser then
      (.ok, { w with seconds := request.stime })
    else (.eperm, w)
  | some .doTimes => (.times
    { t1 := request.caller.userTime
      t2 := request.caller.sysTime
      t3 := request.caller.childUtime
      t4 := request.caller.childStime
      t5 := w.ticks }, w)

/-- The clock behind an event. -/
def step (frequency : TickFrequency) (w : WallClock) : Event → WallClock
  | .tick => w.tick frequency.hz
  | .call request => (w.serve frequency request).2

/-- The clock behind a sequence of events. -/
def after (frequency : TickFrequency) (w : WallClock) (events : List Event) :
    WallClock :=
  events.foldl (step frequency) w

/-- What the calls of a sequence get to see. -/
def answers (frequency : TickFrequency) : List Event → WallClock → List Answer
  | [], _ => []
  | .tick :: events, w => answers frequency events (w.tick frequency.hz)
  | .call request :: events, w =>
    (w.serve frequency request).1 ::
      answers frequency events (w.serve frequency request).2

end WallClock

/-! ## One call -/

/-- The clock that a reading of the kernel's stands for. -/
def wall (frequency : TickFrequency) (reading : ClockReading) : WallClock where
  ticks := reading.uptime
  seconds := reading.converted.time frequency

/-- The kernel calls of a request succeed, and its time is not one before
1970. -/
structure Request.Granted (request : Request) : Prop where
  s : request.s = UtcTime.ok
  stimeStatus : request.stimeStatus = UtcTime.ok
  stime : 0 ≤ request.stime

/-- Few enough ticks in a second for the microseconds to fit. -/
def Slow (clock : ClockType) (frequency : TickFrequency) : Prop :=
  frequency.hz ≤ clock.max / 1000000 + 1

section Call

variable {clock : ClockType} {frequency : TickFrequency}
  {reading : ClockReading} {request : Request} {w : WallClock}

theorem utimeValue_slow (hslow : Slow clock frequency) :
    utimeValue clock frequency reading =
      some ((wall frequency reading).microseconds frequency) :=
  utimeValue_of_fits ((productFits_all_iff clock frequency).mpr hslow _)

theorem inInt32_of_hasRoom {t : Int} (h : HasRoom t) : InInt32 t := by
  unfold HasRoom at h
  unfold InInt32
  omega

/-- `do_time` on a clock with room. -/
theorem doTime_wall (hslow : Slow clock frequency)
    (hvalid : reading.Valid clock)
    (hroom : HasRoom (wall frequency reading).seconds) :
    answered (doTime clock frequency UtcTime.ok reading) =
      .ok (.time ⟨(wall frequency reading).seconds,
        (wall frequency reading).microseconds frequency⟩) := by
  have htime : timeValue clock frequency reading =
      some (wall frequency reading).seconds :=
    (timeValue_converted hvalid).trans
      (timeValue_of_fits (inInt32_of_hasRoom hroom))
  rw [doTime, if_neg (not_not_intro rfl), htime, utimeValue_slow hslow]
  rfl

/-- `do_utctime` on a clock with room. -/
theorem doUtctime_wall (hslow : Slow clock frequency)
    (hvalid : reading.Valid clock)
    (hroom : HasRoom (wall frequency reading).seconds) :
    answered (doUtctime clock frequency UtcTime.ok reading) =
      .ok (.time ⟨some ((wall frequency reading).seconds + 10 +
          leapSeconds (wall frequency reading).seconds),
        (wall frequency reading).microseconds frequency⟩) := by
  have htime : (utcReply clock frequency reading).replyTime =
      some ((wall frequency reading).seconds + 10 +
        leapSeconds (wall frequency reading).seconds) :=
    (utcReply_converted hvalid).trans (utcReply_time hroom)
  have hreply : utcReply clock frequency reading =
      ⟨(utcReply clock frequency reading).replyTime,
        utimeValue clock frequency reading⟩ := rfl
  rw [doUtctime, if_neg (not_not_intro rfl), hreply, htime,
    utimeValue_slow hslow]
  rfl

/-- The time of boot that `do_stime` computes makes it the second that was
asked for. -/
theorem stime_boottime (hvalid : reading.Valid clock)
    {stime : Int} (hlow : 0 ≤ stime) (hhigh : stime ≤ 2147483610) :
    ∃ boottime,
      clock.value (stime - (reading.uptime / frequency.hz : Nat)) =
        some boottime ∧
      clock.Holds boottime ∧
      toInt32 boottime + (reading.uptime / frequency.hz : Nat) = stime := by
  have hquotient := quotient_le frequency hvalid
  generalize reading.uptime / frequency.hz = quotient at hquotient ⊢
  have hfits : InInt32 (stime - quotient) := by
    unfold InInt32
    omega
  cases clock with
  | unsigned =>
      refine ⟨_, rfl, ?_, ?_⟩
      · unfold ClockType.Holds uint32
        omega
      · rw [toInt32_uint32, toInt32_of_fits hfits]
        omega
  | signed =>
      refine ⟨_, int32_of_fits hfits, hfits, ?_⟩
      rw [toInt32_of_fits hfits]
      omega

/-- `do_stime` by the superuser. -/
theorem doStime_wall (hgranted : request.Granted)
    (hvalid : reading.Valid clock) (hsuper : request.caller.effuid = superUser)
    (hhigh : request.stime ≤ 2147483610) :
    ∃ reading', doStime clock frequency request reading =
        .ok (.ok, reading') ∧ reading'.Valid clock ∧
      wall frequency reading' =
        { wall frequency reading with seconds := request.stime } := by
  obtain ⟨boottime, hvalue, hholds, htime⟩ :=
    @stime_boottime clock frequency reading hvalid _ hgranted.stime hhigh
  refine ⟨{ reading with boottime := boottime }, ?_,
    ⟨hholds, hvalid.uptime⟩, ?_⟩
  · rw [doStime, if_neg (not_not_intro hsuper),
      if_neg (not_not_intro hgranted.s), hvalue]
    exact if_neg (not_not_intro hgranted.stimeStatus)
  · exact congrArg (WallClock.mk reading.uptime) htime

/-- **A call is a call of the wall clock.** -/
theorem serve_wall (hslow : Slow clock frequency) (hgranted : request.Granted)
    (hvalid : reading.Valid clock)
    (hroom : HasRoom (wall frequency reading).seconds)
    (hroom' : HasRoom
      ((wall frequency reading).serve frequency request).2.seconds) :
    ∃ reading', serve clock frequency request reading =
        .ok (((wall frequency reading).serve frequency request).1, reading') ∧
      reading'.Valid clock ∧
      wall frequency reading' =
        ((wall frequency reading).serve frequency request).2 := by
  unfold serve WallClock.serve at *
  generalize callVec request.nr = entry at hroom' ⊢
  cases entry with
  | none => exact ⟨reading, rfl, hvalid, rfl⟩
  | some routine =>
      cases routine with
      | elsewhere => exact ⟨reading, rfl, hvalid, rfl⟩
      | doTime =>
          simp only [hgranted.s, doTime_wall hslow hvalid hroom, except_ok_bind]
          exact ⟨reading, rfl, hvalid, rfl⟩
      | doUtctime =>
          simp only [hgranted.s, doUtctime_wall hslow hvalid hroom,
            except_ok_bind]
          exact ⟨reading, rfl, hvalid, rfl⟩
      | doTimes =>
          simp only [doTimes, if_neg (not_not_intro hgranted.s)]
          exact ⟨reading, rfl, hvalid, rfl⟩
      | doStime =>
          by_cases hsuper : request.caller.effuid = superUser
          · simp only [if_pos hsuper] at hroom' ⊢
            exact doStime_wall hgranted hvalid hsuper hroom'.2
          · simp only [if_neg hsuper]
            rw [doStime, if_pos hsuper]
            exact ⟨reading, rfl, hvalid, rfl⟩

/-- A tick of the kernel is a tick of the wall clock. -/
theorem tick_wall (frequency : TickFrequency) (reading : ClockReading) :
    wall frequency { reading with uptime := reading.uptime + 1 } =
      (wall frequency reading).tick frequency.hz := by
  refine congrArg (WallClock.mk (reading.uptime + 1)) ?_
  show toInt32 reading.boottime +
      (((reading.uptime + 1) / frequency.hz : Nat) : Int) =
    if frequency.hz ∣ reading.uptime + 1 then
      toInt32 reading.boottime +
        ((reading.uptime / frequency.hz : Nat) : Int) + 1
    else toInt32 reading.boottime +
      ((reading.uptime / frequency.hz : Nat) : Int)
  rw [Nat.succ_div]
  by_cases hend : frequency.hz ∣ reading.uptime + 1
  · rw [if_pos hend, if_pos hend]
    omega
  · rw [if_neg hend, if_neg hend]
    omega

end Call

/-! ## Whole runs -/

/-- A call with which the superuser sets the clock. -/
def Event.Sets : Event → Prop
  | .tick => False
  | .call request =>
    callVec request.nr = some .doStime ∧ request.caller.effuid = superUser

/-- The kernel calls of an event succeed. -/
def Event.Granted : Event → Prop
  | .tick => True
  | .call request => request.Granted

section Run

variable {clock : ClockType} {frequency : TickFrequency}
  {reading : ClockReading} {events : List Event} {e : Event} {w : WallClock}
  {request : Request}

namespace WallClock

theorem serve_ticks (frequency : TickFrequency) (request : Request)
    (w : WallClock) : (w.serve frequency request).2.ticks = w.ticks := by
  unfold serve
  generalize callVec request.nr = entry
  cases entry with
  | none => rfl
  | some routine =>
      cases routine with
      | doStime =>
          by_cases hsuper : request.caller.effuid = superUser
          · simp only [if_pos hsuper]
          · simp only [if_neg hsuper]
      | doTime | doUtctime | doTimes | elsewhere => rfl

/-- Only the superuser's `stime` changes the second. -/
theorem serve_of_not_sets (h : ¬ (Event.call request).Sets) (w : WallClock) :
    (w.serve frequency request).2 = w := by
  have hnot : ¬ (callVec request.nr = some .doStime ∧
      request.caller.effuid = superUser) := h
  unfold serve
  generalize callVec request.nr = entry at hnot ⊢
  cases entry with
  | none => rfl
  | some routine =>
      cases routine with
      | doStime =>
          have hother : request.caller.effuid ≠ superUser := fun hsuper =>
            hnot ⟨rfl, hsuper⟩
          simp only [if_neg hother]
      | doTime | doUtctime | doTimes | elsewhere => rfl

theorem serve_of_sets (h : (Event.call request).Sets) (w : WallClock) :
    (w.serve frequency request).2 = { w with seconds := request.stime } := by
  unfold serve
  rw [h.1]
  simp only [if_pos h.2]

theorem after_ticks (frequency : TickFrequency) (w : WallClock)
    (events : List Event) :
    (w.after frequency events).ticks = w.ticks + events.count .tick := by
  induction events generalizing w with
  | nil => rfl
  | cons e events ih =>
      have htail : (w.after frequency (e :: events)).ticks =
          (w.step frequency e).ticks + events.count .tick :=
        ih (w.step frequency e)
      rw [htail]
      cases e with
      | tick =>
          rw [List.count_cons_self]
          show w.ticks + 1 + _ = _
          omega
      | call request =>
          rw [List.count_cons_of_ne (show Event.call request ≠ .tick by simp)]
          exact congrArg (· + events.count .tick)
            (serve_ticks frequency request w)

/-- A tick keeps the second of the time of boot. -/
theorem tick_start (frequency : TickFrequency) (w : WallClock) :
    (w.tick frequency.hz).seconds -
        ((w.tick frequency.hz).ticks / frequency.hz : Nat) =
      w.seconds - (w.ticks / frequency.hz : Nat) := by
  show (if frequency.hz ∣ w.ticks + 1 then w.seconds + 1 else w.seconds) -
    (((w.ticks + 1) / frequency.hz : Nat) : Int) = _
  rw [Nat.succ_div]
  by_cases hend : frequency.hz ∣ w.ticks + 1
  · rw [if_pos hend, if_pos hend]
    omega
  · rw [if_neg hend, if_neg hend]
    omega

/-- While nobody sets the clock it counts the seconds that begin. -/
theorem after_start (frequency : TickFrequency)
    (h : ∀ e ∈ events, ¬ e.Sets) (w : WallClock) :
    (w.after frequency events).seconds -
        ((w.after frequency events).ticks / frequency.hz : Nat) =
      w.seconds - (w.ticks / frequency.hz : Nat) := by
  induction events generalizing w with
  | nil => rfl
  | cons e events ih =>
      refine (ih (fun e' he' => h e' (List.mem_cons_of_mem e he'))
        (w.step frequency e)).trans ?_
      cases e with
      | tick => exact tick_start frequency w
      | call request =>
          show (w.serve frequency request).2.seconds -
            ((w.serve frequency request).2.ticks / frequency.hz : Nat) = _
          rw [serve_of_not_sets (h _ List.mem_cons_self)]

/-- The second some time after the clock was set. -/
theorem after_set {before after : List Event}
    (h : (Event.call request).Sets) (hafter : ∀ e ∈ after, ¬ e.Sets)
    (w : WallClock) :
    (w.after frequency (before ++ .call request :: after)).seconds =
      request.stime +
        (((w.ticks + (before ++ .call request :: after).count .tick) /
          frequency.hz : Nat) -
        ((w.ticks + before.count .tick) / frequency.hz : Nat)) := by
  have hstart := after_start frequency hafter
    ((w.after frequency before).step frequency (.call request))
  have hsplit : w.after frequency (before ++ .call request :: after) =
      ((w.after frequency before).step frequency (.call request)).after
        frequency after := List.foldl_append
  have hset : (w.after frequency before).step frequency (.call request) =
      { w.after frequency before with seconds := request.stime } :=
    serve_of_sets h _
  rw [← hsplit, after_ticks, hset] at hstart
  have hbefore := after_ticks frequency w before
  simp only at hstart
  rw [hbefore] at hstart
  omega

end WallClock

/-- The process manager runs in step with the wall clock. -/
theorem run_wall (hslow : Slow clock frequency) (hvalid : reading.Valid clock)
    (hgranted : ∀ e ∈ events, e.Granted)
    (hticks : reading.uptime + events.count .tick ≤ clock.max)
    (hroom : ∀ before, before <+: events →
      HasRoom ((wall frequency reading).after frequency before).seconds) :
    ∃ reading', run clock frequency events reading =
        .ok ((wall frequency reading).answers frequency events, reading') ∧
      reading'.Valid clock ∧
      wall frequency reading' =
        (wall frequency reading).after frequency events := by
  induction events generalizing reading with
  | nil => exact ⟨reading, rfl, hvalid, rfl⟩
  | cons e events ih =>
      have hrest : ∀ e' ∈ events, e'.Granted := fun e' he' =>
        hgranted e' (List.mem_cons_of_mem e he')
      have hnext : ∀ before, before <+: events →
          HasRoom (((wall frequency reading).step frequency e).after frequency
            before).seconds := fun before hbefore =>
        hroom (e :: before) (List.cons_prefix_cons.mpr ⟨rfl, hbefore⟩)
      cases e with
      | tick =>
          have hstep : (wall frequency reading).step frequency .tick =
              wall frequency { reading with uptime := reading.uptime + 1 } :=
            (tick_wall frequency reading).symm
          rw [List.count_cons_self] at hticks
          rw [hstep] at hnext
          obtain ⟨reading', hrun, hvalid', hwall⟩ :=
            @ih { reading with uptime := reading.uptime + 1 }
              ⟨hvalid.boottime, show reading.uptime + 1 ≤ clock.max by omega⟩
              hrest (by simp only; omega) hnext
          rw [← hstep] at hrun hwall
          exact ⟨reading', hrun, hvalid', hwall⟩
      | call request =>
          have hnow : HasRoom (wall frequency reading).seconds :=
            hroom [] (List.nil_prefix)
          obtain ⟨reading₁, hserve, hvalid₁, hwall₁⟩ := serve_wall hslow
            (hgranted _ List.mem_cons_self) hvalid hnow
            (hnext [] List.nil_prefix)
          have huptime : reading₁.uptime = reading.uptime :=
            (congrArg WallClock.ticks hwall₁).trans
              (WallClock.serve_ticks frequency request _)
          rw [List.count_cons_of_ne (show Event.call request ≠ .tick by simp),
            ← huptime] at hticks
          have hstep : (wall frequency reading).step frequency (.call request) =
              wall frequency reading₁ := hwall₁.symm
          rw [hstep] at hnext
          obtain ⟨reading', hrun, hvalid', hwall⟩ :=
            ih hvalid₁ hrest hticks hnext
          refine ⟨reading', ?_, hvalid', hwall.trans ?_⟩
          · simp only [run, hserve, except_ok_bind, hrun, hwall₁]
            rfl
          · exact congrArg (WallClock.after frequency · events) hstep.symm

/-- What the two clients get from a call behind a run. -/
theorem clients_wall (hslow : Slow clock frequency)
    (hgranted : request.Granted) (hvalid : reading.Valid clock)
    (hroom : HasRoom (wall frequency reading).seconds) :
    (request.nr = timeCall → ∃ answer,
      serve clock frequency request reading = .ok (answer, reading) ∧
      gettime answer = (wall frequency reading).seconds) ∧
    (request.nr = utctimeCall → ∃ answer,
      serve clock frequency request reading = .ok (answer, reading) ∧
      ∀ storesAt, utctime answer storesAt =
        ((wall frequency reading).seconds + 10 +
            leapSeconds (wall frequency reading).seconds,
          if storesAt then some ((wall frequency reading).seconds + 10 +
            leapSeconds (wall frequency reading).seconds) else none)) := by
  constructor
  · intro hnr
    refine ⟨.time ⟨(wall frequency reading).seconds,
      (wall frequency reading).microseconds frequency⟩, ?_, rfl⟩
    have hentry : callVec request.nr = some .doTime := by
      rw [hnr]
      rfl
    simp only [serve, hentry, hgranted.s, doTime_wall hslow hvalid hroom,
      except_ok_bind]
    rfl
  · intro hnr
    refine ⟨.time ⟨some ((wall frequency reading).seconds + 10 +
        leapSeconds (wall frequency reading).seconds),
      (wall frequency reading).microseconds frequency⟩, ?_, fun _ => rfl⟩
    have hentry : callVec request.nr = some .doUtctime := by
      rw [hnr]
      rfl
    simp only [serve, hentry, hgranted.s, doUtctime_wall hslow hvalid hroom,
      except_ok_bind]
    rfl

/-- **The process manager keeps the time.**  As long as the ticks fit a
`clock_t` and the clock stays before 2038, every sequence of ticks and calls
gets the answers of the wall clock, and no call panics.  `gettime` then gets
the second that the superuser set last and the number of seconds that have
begun since; `utctime` gets 10 and the leap seconds more, and stores what it
returns. -/
theorem run_refines (hslow : Slow clock frequency)
    (hvalid : reading.Valid clock) (hgranted : ∀ e ∈ events, e.Granted)
    (hticks : reading.uptime + events.count .tick ≤ clock.max)
    (hroom : ∀ before, before <+: events →
      HasRoom ((wall frequency reading).after frequency before).seconds) :
    ∃ reading' seconds, run clock frequency events reading =
        .ok ((wall frequency reading).answers frequency events, reading') ∧
      wall frequency reading' =
        (wall frequency reading).after frequency events ∧
      seconds = (wall frequency reading').seconds ∧
      (∀ before request after, events = before ++ .call request :: after →
        (Event.call request).Sets → (∀ e ∈ after, ¬ e.Sets) →
        seconds = request.stime +
          (((reading.uptime + events.count .tick) / frequency.hz : Nat) -
          ((reading.uptime + before.count .tick) / frequency.hz : Nat))) ∧
      ∀ request : Request, request.Granted →
        (request.nr = timeCall → ∃ answer,
          serve clock frequency request reading' = .ok (answer, reading') ∧
          gettime answer = seconds) ∧
        (request.nr = utctimeCall → ∃ answer,
          serve clock frequency request reading' = .ok (answer, reading') ∧
          ∀ storesAt, utctime answer storesAt =
            (seconds + 10 + leapSeconds seconds,
              if storesAt then some (seconds + 10 + leapSeconds seconds)
              else none)) := by
  obtain ⟨reading', hrun, hvalid', hwall⟩ :=
    run_wall hslow hvalid hgranted hticks hroom
  have hend : HasRoom (wall frequency reading').seconds := by
    rw [hwall]
    exact hroom events List.prefix_rfl
  refine ⟨reading', _, hrun, hwall, rfl, ?_, fun request hrequest =>
    clients_wall hslow hrequest hvalid' hend⟩
  rintro before request after rfl hsets hafter
  rw [hwall]
  exact WallClock.after_set hsets hafter (wall frequency reading)

/-- A call by the superuser that sets the clock to 1000. -/
def setToThousand : Request where
  nr := stimeCall
  caller := ⟨superUser, 0, 0, 0, 0⟩
  stime := 1000
  s := UtcTime.ok
  stimeStatus := UtcTime.ok

/-- Set to 1000 one tick before the end of a second. -/
theorem run_refines_setToThousand : ∃ reading',
    run .unsigned sixtyHz [.call setToThousand, .tick] ⟨59, 0⟩ =
      .ok ([.ok], reading') ∧ (wall sixtyHz reading').seconds = 1001 := by
  have hgranted : setToThousand.Granted := ⟨rfl, rfl, by decide⟩
  have hevents : ∀ e ∈ [Event.call setToThousand, .tick], e.Granted := by
    intro e he
    rcases List.mem_cons.mp he with rfl | he
    · exact hgranted
    · rw [List.mem_singleton.mp he]
      trivial
  have hroom : ∀ before, before <+: [Event.call setToThousand, .tick] →
      HasRoom ((wall sixtyHz ⟨59, 0⟩).after sixtyHz before).seconds := by
    intro before hbefore
    rcases List.prefix_cons_iff.mp hbefore with rfl | ⟨rest, rfl, hrest⟩
    · decide
    · rcases List.prefix_cons_iff.mp hrest with rfl | ⟨rest, rfl, hnil⟩
      · decide
      · rw [List.prefix_nil.mp hnil]
        decide
  have hslow : Slow .unsigned sixtyHz := show 60 ≤ 4295 by decide
  have hvalid : ClockReading.Valid ⟨59, 0⟩ .unsigned :=
    ⟨⟨by decide, by decide⟩, by decide⟩
  obtain ⟨reading', seconds, hrun, -, hseconds, hset, -⟩ :=
    run_refines hslow hvalid hevents (by decide) hroom
  refine ⟨reading', hrun, ?_⟩
  rw [← hseconds, hset [] setToThousand [.tick] rfl ⟨rfl, rfl⟩ (by
    intro e he
    rw [List.mem_singleton.mp he]
    exact not_false)]
  rfl

end Run

end OsLabs.Lab3.ProcessManager
