import Mathlib.Algebra.BigOperators.Group.Finset.Piecewise
import Mathlib.Algebra.Order.BigOperators.Group.Finset
import Mathlib.Logic.Function.Basic
import OsLabs.Posix.Processes

/-!
# The ring of processes

`cycleNumber` of `ring.c`, run by `n` processes at once.  Process `i` writes
pipe `i` and reads pipe `i - 1` modulo `n`; a pipe is the list of the numbers
in it, oldest first.

There is one token.  After `hop` moves it is at process `hop % n`; it carries
the number `hop` up to `STOPNUMBER` and the stop signal from then on.  A
process that sends the stop signal is through with the ring, except the one
that has seen `STOPNUMBER`, which waits for the signal to come round.
-/

namespace OsLabs.Lab1.Ring

open OsLabs.Posix

/-! ## The source -/

/-- `STOPNUMBER` -/
def stopNumber : Nat := 50

/-- `MYSIG_WAITFORCHILD` -/
def mySigWaitForChild : Int := -1

/-- The points of `cycleNumber` between two accesses to the ring. -/
inductive Control where
  | entry
  | reading
  | loop (number : Int)
  | printed (number : Int)
  | signalling (number : Int)
  | lastReading
  | left
  deriving Repr, DecidableEq

/-- What a process does next, and where it is then. -/
inductive Action where
  | skip (next : Control)
  | print (number : Int) (next : Control)
  | write (integer : Int) (next : Control)
  | read (next : Int → Control)
  | return

/-- `cycleNumber`. -/
def cycleNumber (myProcessNr : Nat) : Control → Action
  | .entry => if myProcessNr ≠ 0 then .skip .reading else .skip (.loop 0)
  | .reading => .read .loop
  | .loop number =>
    if number ≠ mySigWaitForChild then .print number (.printed number)
    else .skip (.signalling number)
  | .printed number =>
    if number = stopNumber then .skip (.signalling number)
    else .write (number + 1) .reading
  | .signalling number =>
    .write mySigWaitForChild
      (if number = stopNumber then .lastReading else .left)
  | .lastReading => .read fun _ => .left
  | .left => .return

/-- `getMyInputPipe`; the output pipe of a process has its own number. -/
def myInputPipe (nrOfProcesses myProcessNr : Nat) : Nat :=
  (myProcessNr + nrOfProcesses - 1) % nrOfProcesses

/-- The processes, the pipes, and the calls of `printOutput` so far. -/
structure RingState where
  control : Nat → Control
  pipe : Nat → List Int
  printed : List (Nat × Int)

/-- Every process is about to enter `cycleNumber`. -/
def RingState.initial : RingState := ⟨fun _ => .entry, fun _ => [], []⟩

section Steps

variable (s : RingState) (i : Nat)

/-- Process `i` goes on to `next`. -/
def RingState.goto (next : Control) : RingState :=
  { s with control := Function.update s.control i next }

/-- `printOutput` -/
def RingState.printOutput (number : Int) : RingState :=
  { s with printed := s.printed ++ [(i, number)] }

/-- `write` to pipe `i`. -/
def RingState.writePipe (integer : Int) : RingState :=
  { s with pipe := Function.update s.pipe i (s.pipe i ++ [integer]) }

/-- A `read` that leaves `rest` in pipe `i`. -/
def RingState.leavePipe (rest : List Int) : RingState :=
  { s with pipe := Function.update s.pipe i rest }

@[simp] theorem RingState.goto_self (next : Control) :
    (s.goto i next).control i = next := by
  unfold RingState.goto
  exact Function.update_self i next s.control

@[simp] theorem RingState.goto_of_ne {j : Nat} (h : j ≠ i) (next : Control) :
    (s.goto i next).control j = s.control j := by
  unfold RingState.goto
  exact Function.update_of_ne h next s.control

@[simp] theorem RingState.goto_pipe (next : Control) :
    (s.goto i next).pipe = s.pipe := rfl

@[simp] theorem RingState.goto_printed (next : Control) :
    (s.goto i next).printed = s.printed := rfl

@[simp] theorem RingState.writePipe_self (integer : Int) :
    (s.writePipe i integer).pipe i = s.pipe i ++ [integer] :=
  Function.update_self i _ s.pipe

@[simp] theorem RingState.writePipe_of_ne {j : Nat} (h : j ≠ i)
    (integer : Int) : (s.writePipe i integer).pipe j = s.pipe j :=
  Function.update_of_ne h _ s.pipe

@[simp] theorem RingState.leavePipe_self (rest : List Int) :
    (s.leavePipe i rest).pipe i = rest := by
  unfold RingState.leavePipe
  exact Function.update_self i rest s.pipe

@[simp] theorem RingState.leavePipe_of_ne {j : Nat} (h : j ≠ i)
    (rest : List Int) : (s.leavePipe i rest).pipe j = s.pipe j := by
  unfold RingState.leavePipe
  exact Function.update_of_ne h rest s.pipe

end Steps

/-- One of the `n` processes takes a step; a read waits for a number. -/
inductive Step (n : Nat) : RingState → RingState → Prop
  | skip {s : RingState} {i : Nat} {next : Control} (hi : i < n)
      (h : cycleNumber i (s.control i) = .skip next) :
      Step n s (s.goto i next)
  | print {s : RingState} {i : Nat} {number : Int} {next : Control} (hi : i < n)
      (h : cycleNumber i (s.control i) = .print number next) :
      Step n s ((s.printOutput i number).goto i next)
  | write {s : RingState} {i : Nat} {integer : Int} {next : Control} (hi : i < n)
      (h : cycleNumber i (s.control i) = .write integer next) :
      Step n s ((s.writePipe i integer).goto i next)
  | read {s : RingState} {i : Nat} {next : Int → Control} {integer : Int}
      {rest : List Int} (hi : i < n)
      (h : cycleNumber i (s.control i) = .read next)
      (hpipe : s.pipe (myInputPipe n i) = integer :: rest) :
      Step n s ((s.leavePipe (myInputPipe n i) rest).goto i (next integer))

/-! ## Neighbours -/

section Neighbours

variable {n i j hop : Nat}

theorem myInputPipe_lt (hi : i < n) : myInputPipe n i < n :=
  Nat.mod_lt _ (Nat.zero_lt_of_lt hi)

/-- The process before `i`. -/
theorem myInputPipe_eq (hi : i < n) :
    myInputPipe n i = if i = 0 then n - 1 else i - 1 := by
  unfold myInputPipe
  split
  · next hzero => rw [hzero, Nat.zero_add, Nat.mod_eq_of_lt (by omega)]
  · next hpos =>
      rw [show i + n - 1 = i - 1 + n by omega, Nat.add_mod_right,
        Nat.mod_eq_of_lt (by omega)]

theorem myInputPipe_injective (hi : i < n) (hj : j < n)
    (h : myInputPipe n i = myInputPipe n j) : i = j := by
  rw [myInputPipe_eq hi, myInputPipe_eq hj] at h
  split at h <;> split at h <;> omega

theorem succ_mod_eq (hn : 0 < n) :
    (hop + 1) % n = if hop % n + 1 = n then 0 else hop % n + 1 := by
  have hlt := Nat.mod_lt hop hn
  rw [Nat.add_mod]
  by_cases hone : n = 1
  · subst hone
    simp [Nat.mod_one]
  · rw [Nat.mod_eq_of_lt (show 1 < n by omega)]
    split
    · next hlast => rw [hlast, Nat.mod_self]
    · exact Nat.mod_eq_of_lt (by omega)

/-- The next holder of the token reads the pipe of the one before. -/
theorem myInputPipe_succ (hn : 0 < n) :
    myInputPipe n ((hop + 1) % n) = hop % n := by
  have hlt := Nat.mod_lt hop hn
  rw [myInputPipe_eq (Nat.mod_lt _ hn), succ_mod_eq hn]
  split <;> split <;> omega

theorem succ_mod_ne (hn : 2 ≤ n) : (hop + 1) % n ≠ hop % n := by
  rw [succ_mod_eq (by omega)]
  split <;> omega

/-- Two hops of the same process are at least a round apart. -/
theorem add_le_of_mod_eq (hlt : i < j) (h : i % n = j % n) : i + n ≤ j := by
  have hdvd : n ∣ j - i :=
    Nat.dvd_of_mod_eq_zero (Nat.sub_mod_eq_zero_of_mod_eq h.symm)
  have hle := Nat.le_of_dvd (by omega) hdvd
  omega

end Neighbours

/-! ## The token -/

/-- What the token says after `hop` moves. -/
def value (hop : Nat) : Int := if hop ≤ stopNumber then hop else mySigWaitForChild

/-- Process `j` has sent the stop signal. -/
def Signalled (n hop j : Nat) : Prop :=
  ∃ k, stopNumber ≤ k ∧ k < hop ∧ k % n = j

/-- Where a process is that does not hold the token: it waits for a number, or
has not come that far yet; it waits for its own signal; or it has left. -/
inductive Idle (n hop j : Nat) : Control → Prop
  | reading (h : ¬ Signalled n hop j) : Idle n hop j .reading
  | entry (h : ¬ Signalled n hop j) (hj : j ≠ 0) : Idle n hop j .entry
  | lastReading (h : Signalled n hop j) (hj : j = stopNumber % n) :
      Idle n hop j .lastReading
  | left (h : Signalled n hop j) (hj : j ≠ stopNumber % n) : Idle n hop j .left

/-- How far the holder of the token is with it; `starting` is process 0 before
the first number. -/
inductive Place where
  | starting
  | inPipe
  | held
  | printed
  | signalling
  deriving Repr, DecidableEq

/-- Where the process is that the token is at, or under way to. -/
inductive AtPlace (n hop : Nat) : Place → Control → Prop
  | starting (h : hop = 0) : AtPlace n hop .starting .entry
  | inPipe {c : Control} (h : Idle n hop (hop % n) c) : AtPlace n hop .inPipe c
  | held (h : hop < stopNumber + n) : AtPlace n hop .held (.loop (value hop))
  | printed (h : hop ≤ stopNumber) : AtPlace n hop .printed (.printed hop)
  | signalling (h : stopNumber ≤ hop) (hlast : hop < stopNumber + n) :
      AtPlace n hop .signalling (.signalling (value hop))

/-- The first `count` lines of the output: number `k` from process `k % n`. -/
def expectedOutput (n count : Nat) : List (Nat × Int) :=
  (List.range count).map fun k => (k % n, (k : Int))

/-- How many numbers have been printed. -/
def printedCount (hop : Nat) (place : Place) : Nat :=
  min (stopNumber + 1)
    (if place = .printed ∨ place = .signalling then hop + 1 else hop)

/-- The token is at `place` of its `hop`-th move. -/
structure Circulating (n hop : Nat) (place : Place) (s : RingState) : Prop where
  bound : hop ≤ stopNumber + n
  holder : AtPlace n hop place (s.control (hop % n))
  others : ∀ j < n, j ≠ hop % n → Idle n hop j (s.control j)
  pipes : ∀ j < n, s.pipe j =
    if place = .inPipe ∧ j = myInputPipe n (hop % n) then [value hop] else []
  printed : s.printed = expectedOutput n (printedCount hop place)

/-- The stop signal has come round. -/
structure Finished (n : Nat) (s : RingState) : Prop where
  left : ∀ j < n, s.control j = .left
  pipes : ∀ j < n, s.pipe j = []
  printed : s.printed = expectedOutput n (stopNumber + 1)

/-- The invariant of the ring. -/
def Invariant (n : Nat) (s : RingState) : Prop :=
  (∃ hop place, Circulating n hop place s) ∨ Finished n s

section Token

variable {n hop j : Nat} {place : Place} {c : Control} {s : RingState}

theorem value_of_le (h : hop ≤ stopNumber) : value hop = hop := if_pos h

theorem value_of_lt (h : stopNumber < hop) : value hop = mySigWaitForChild :=
  if_neg (Nat.not_le.mpr h)

/-- The stop signal is not a number. -/
theorem natCast_ne_signal (k : Nat) : (k : Int) ≠ mySigWaitForChild := by
  unfold mySigWaitForChild
  omega

theorem signalled_succ_iff :
    Signalled n (hop + 1) j ↔
      Signalled n hop j ∨ (stopNumber ≤ hop ∧ hop % n = j) := by
  constructor
  · rintro ⟨k, hstop, hk, hj⟩
    rcases Nat.lt_or_eq_of_le (Nat.le_of_lt_succ hk) with hlt | rfl
    · exact Or.inl ⟨k, hstop, hlt, hj⟩
    · exact Or.inr ⟨hstop, hj⟩
  · rintro (⟨k, hstop, hk, hj⟩ | ⟨hstop, hj⟩)
    · exact ⟨k, hstop, Nat.lt_succ_of_lt hk, hj⟩
    · exact ⟨hop, hstop, Nat.lt_succ_self hop, hj⟩

/-- The token is on its way to a process that has sent the signal only when
the round is complete. -/
theorem signalled_holder_iff (hn : 0 < n) (hbound : hop ≤ stopNumber + n) :
    Signalled n hop (hop % n) ↔ hop = stopNumber + n := by
  constructor
  · rintro ⟨k, hstop, hk, hmod⟩
    have hround := add_le_of_mod_eq hk hmod
    omega
  · rintro rfl
    exact ⟨stopNumber, Nat.le_refl _, by omega, (Nat.add_mod_right _ n).symm⟩

/-- Then every process has sent it. -/
theorem signalled_all (hj : j < n) : Signalled n (stopNumber + n) j := by
  have hlt := Nat.mod_lt stopNumber (Nat.zero_lt_of_lt hj)
  by_cases hle : stopNumber % n ≤ j
  · refine ⟨stopNumber + (j - stopNumber % n), by omega, by omega, ?_⟩
    rw [Nat.add_mod, Nat.mod_eq_of_lt (show j - stopNumber % n < n by omega),
      show stopNumber % n + (j - stopNumber % n) = j by omega,
      Nat.mod_eq_of_lt hj]
  · refine ⟨stopNumber + (j + n - stopNumber % n), by omega, by omega, ?_⟩
    rw [Nat.add_mod,
      Nat.mod_eq_of_lt (show j + n - stopNumber % n < n by omega),
      show stopNumber % n + (j + n - stopNumber % n) = j + n by omega,
      Nat.add_mod_right, Nat.mod_eq_of_lt hj]

/-- The token moves on from another process. -/
theorem Idle.succ (h : Idle n hop j c) (hj : j ≠ hop % n) :
    Idle n (hop + 1) j c := by
  have hsame : Signalled n (hop + 1) j ↔ Signalled n hop j := by
    rw [signalled_succ_iff]
    exact or_iff_left fun hsent => hj hsent.2.symm
  cases h with
  | reading h => exact .reading (mt hsame.mp h)
  | entry h hzero => exact .entry (mt hsame.mp h) hzero
  | lastReading h hstop => exact .lastReading (hsame.mpr h) hstop
  | left h hstop => exact .left (hsame.mpr h) hstop

theorem expectedOutput_succ (n count : Nat) :
    expectedOutput n (count + 1) =
      expectedOutput n count ++ [(count % n, (count : Int))] := by
  unfold expectedOutput
  rw [List.range_succ, List.map_append, List.map_singleton]

end Token

/-! ## One step -/

section Preserve

variable {n hop : Nat} {place : Place} {s s' : RingState}

/-- The holder goes on with the token, which stays out of the pipes. -/
theorem Circulating.goto (h : Circulating n hop place s)
    (hplace : place ≠ .inPipe) {place' : Place} {next : Control}
    (hplace' : place' ≠ .inPipe) (hnext : AtPlace n hop place' next)
    (hprinted : printedCount hop place' = printedCount hop place) :
    Circulating n hop place' (s.goto (hop % n) next) where
  bound := h.bound
  holder := by
    rw [RingState.goto_self]
    exact hnext
  others := fun j hj hne => by
    rw [RingState.goto_of_ne _ _ hne]
    exact h.others j hj hne
  pipes := fun j hj => by
    rw [if_neg fun hin => hplace' hin.1]
    exact (h.pipes j hj).trans (if_neg fun hin => hplace hin.1)
  printed := by
    rw [hprinted]
    exact h.printed

/-- A process that waits goes on to its first read. -/
theorem Circulating.goto_reading (h : Circulating n hop place s) {i : Nat}
    (hother : i ≠ hop % n ∨ place = .inPipe)
    (hidle : Idle n hop i .reading) :
    Circulating n hop place (s.goto i .reading) where
  bound := h.bound
  holder := by
    rcases hother with hne | rfl
    · rw [RingState.goto_of_ne _ _ hne.symm]
      exact h.holder
    · refine .inPipe ?_
      by_cases heq : hop % n = i
      · rw [heq, RingState.goto_self]
        exact hidle
      · rw [RingState.goto_of_ne _ _ heq]
        cases h.holder with
        | inPipe hholder => exact hholder
  others := fun j hj hne => by
    by_cases heq : j = i
    · rw [heq, RingState.goto_self]
      exact hidle
    · rw [RingState.goto_of_ne _ _ heq]
      exact h.others j hj hne
  pipes := h.pipes
  printed := h.printed

/-- The holder prints the number. -/
theorem Circulating.print (h : Circulating n hop .held s)
    (hstop : hop ≤ stopNumber) :
    Circulating n hop .printed
      ((s.printOutput (hop % n) hop).goto (hop % n) (.printed hop)) where
  bound := h.bound
  holder := by
    rw [RingState.goto_self]
    exact .printed hstop
  others := fun j hj hne => by
    rw [RingState.goto_of_ne _ _ hne]
    exact h.others j hj hne
  pipes := h.pipes
  printed := by
    have hcount : printedCount hop .held = hop := Nat.min_eq_right (by
      rw [if_neg (by simp)]
      omega)
    have hcount' : printedCount hop .printed = hop + 1 :=
      Nat.min_eq_right (Nat.succ_le_succ hstop)
    rw [hcount', expectedOutput_succ, ← hcount, ← h.printed, hcount]
    rfl

/-- The holder writes the token to its pipe and waits again. -/
theorem Circulating.write (hn : 2 ≤ n) (h : Circulating n hop place s)
    (hplace : place ≠ .inPipe) {next : Control}
    (hnext : Idle n (hop + 1) (hop % n) next)
    (hbound : hop + 1 ≤ stopNumber + n)
    (hprinted : printedCount (hop + 1) .inPipe = printedCount hop place) :
    Circulating n (hop + 1) .inPipe
      ((s.writePipe (hop % n) (value (hop + 1))).goto (hop % n) next) where
  bound := hbound
  holder := by
    refine .inPipe ?_
    have hne : (hop + 1) % n ≠ hop % n := succ_mod_ne hn
    rw [RingState.goto_of_ne _ _ hne]
    exact (h.others _ (Nat.mod_lt _ (by omega)) hne).succ hne
  others := fun j hj _ => by
    by_cases heq : j = hop % n
    · rw [heq, RingState.goto_self]
      exact hnext
    · rw [RingState.goto_of_ne _ _ heq]
      exact (h.others j hj heq).succ heq
  pipes := fun j hj => by
    have hempty : s.pipe j = [] :=
      (h.pipes j hj).trans (if_neg fun hin => hplace hin.1)
    rw [myInputPipe_succ (by omega), RingState.goto_pipe]
    by_cases heq : j = hop % n
    · rw [if_pos ⟨rfl, heq⟩, ← heq, RingState.writePipe_self, hempty,
        List.nil_append]
    · rw [if_neg fun hin => heq hin.2, RingState.writePipe_of_ne _ _ heq,
        hempty]
  printed := by
    rw [hprinted]
    exact h.printed

/-- The process the token is under way to reads it. -/
theorem Circulating.read (h : Circulating n hop .inPipe s)
    (hbound : hop < stopNumber + n) :
    Circulating n hop .held
      ((s.leavePipe (myInputPipe n (hop % n)) []).goto (hop % n)
        (.loop (value hop))) where
  bound := h.bound
  holder := by
    rw [RingState.goto_self]
    exact .held hbound
  others := fun j hj hne => by
    rw [RingState.goto_of_ne _ _ hne]
    exact h.others j hj hne
  pipes := fun j hj => by
    rw [if_neg (by simp), RingState.goto_pipe]
    by_cases heq : j = myInputPipe n (hop % n)
    · rw [heq, RingState.leavePipe_self]
    · rw [RingState.leavePipe_of_ne _ _ heq, h.pipes j hj,
        if_neg fun hin => heq hin.2]
  printed := h.printed

/-- The process that has seen `STOPNUMBER` reads the signal that has come
round. -/
theorem Circulating.lastRead (hn : 0 < n)
    (h : Circulating n (stopNumber + n) .inPipe s) :
    Finished n
      ((s.leavePipe (myInputPipe n (stopNumber % n)) []).goto (stopNumber % n)
        .left) where
  left := fun j hj => by
    by_cases heq : j = stopNumber % n
    · rw [heq, RingState.goto_self]
    · rw [RingState.goto_of_ne _ _ heq]
      have hidle := h.others j hj (by rwa [Nat.add_mod_right])
      have hsent := signalled_all hj
      show s.control j = .left
      generalize s.control j = c at hidle
      cases hidle with
      | reading hnot => exact absurd hsent hnot
      | entry hnot => exact absurd hsent hnot
      | lastReading _ hlast => exact absurd hlast heq
      | left => rfl
  pipes := fun j hj => by
    rw [RingState.goto_pipe]
    by_cases heq : j = myInputPipe n (stopNumber % n)
    · rw [heq, RingState.leavePipe_self]
    · rw [RingState.leavePipe_of_ne _ _ heq, h.pipes j hj,
        Nat.add_mod_right, if_neg fun hin => heq hin.2]
  printed := by
    have hcount : printedCount (stopNumber + n) .inPipe = stopNumber + 1 :=
      Nat.min_eq_left (Nat.add_le_add_left hn _)
    rw [← hcount]
    exact h.printed

end Preserve

/-! ## What a process can do -/

section Actions

variable {n hop i : Nat} {place : Place} {c : Control} {s s' : RingState}

/-- A process without the token goes to its read, is at it, or has left. -/
theorem Idle.action (h : Idle n hop i c) :
    (cycleNumber i c = .skip .reading ∧ Idle n hop i .reading) ∨
    (cycleNumber i c = .read .loop ∧ ¬ Signalled n hop i) ∨
    (cycleNumber i c = .read (fun _ => .left) ∧ Signalled n hop i ∧
      i = stopNumber % n) ∨
    (cycleNumber i c = .return ∧ c = .left ∧ Signalled n hop i ∧
      i ≠ stopNumber % n) := by
  cases h with
  | reading h => exact Or.inr (Or.inl ⟨rfl, h⟩)
  | entry h hzero => exact Or.inl ⟨if_pos hzero, .reading h⟩
  | lastReading h hstop => exact Or.inr (Or.inr (Or.inl ⟨rfl, h, hstop⟩))
  | left h hstop => exact Or.inr (Or.inr (Or.inr ⟨rfl, rfl, h, hstop⟩))

/-- The holder goes on with the token, prints it, or passes on the next one. -/
theorem AtPlace.action (hn : 0 < n) (h : AtPlace n hop place c)
    (hplace : place ≠ .inPipe) :
    (∃ next place', cycleNumber (hop % n) c = .skip next ∧
      place' ≠ .inPipe ∧ AtPlace n hop place' next ∧
      printedCount hop place' = printedCount hop place) ∨
    (cycleNumber (hop % n) c = .print hop (.printed hop) ∧ place = .held ∧
      hop ≤ stopNumber) ∨
    (∃ next, cycleNumber (hop % n) c = .write (value (hop + 1)) next ∧
      Idle n (hop + 1) (hop % n) next ∧ hop + 1 ≤ stopNumber + n ∧
      printedCount (hop + 1) .inPipe = printedCount hop place) := by
  cases h with
  | starting h =>
      subst h
      refine Or.inl ⟨.loop 0, .held, ?_, by simp, .held (by omega), rfl⟩
      rw [Nat.zero_mod]
      rfl
  | inPipe => exact absurd rfl hplace
  | held hlast =>
      rcases Nat.lt_or_ge stopNumber hop with hsignal | hnumber
      · refine Or.inl ⟨.signalling (value hop), .signalling, ?_, by simp,
          .signalling (Nat.le_of_lt hsignal) hlast, ?_⟩
        · rw [value_of_lt hsignal]
          rfl
        · unfold printedCount
          rw [if_pos (Or.inr rfl), if_neg (by simp)]
          omega
      · refine Or.inr (Or.inl ⟨?_, rfl, hnumber⟩)
        rw [value_of_le hnumber, cycleNumber, if_pos (natCast_ne_signal hop)]
  | printed h =>
      rcases Nat.lt_or_eq_of_le h with hless | rfl
      · refine Or.inr (Or.inr ⟨.reading, ?_, .reading ?_, by omega, rfl⟩)
        · rw [value_of_le hless]
          exact if_neg fun heq => Nat.ne_of_lt hless (Int.ofNat.inj heq)
        · rintro ⟨k, hstop, hk, -⟩
          omega
      · refine Or.inl ⟨.signalling (value stopNumber), .signalling, ?_,
          by simp, .signalling (Nat.le_refl _) (by omega), rfl⟩
        rw [value_of_le (Nat.le_refl _), cycleNumber, if_pos rfl]
  | signalling hstop hlast =>
      have hsent : Signalled n (hop + 1) (hop % n) :=
        signalled_succ_iff.mpr (Or.inr ⟨hstop, rfl⟩)
      have hvalue : value (hop + 1) = mySigWaitForChild :=
        value_of_lt (Nat.lt_succ_of_le hstop)
      rcases Nat.lt_or_eq_of_le hstop with hless | rfl
      · refine Or.inr (Or.inr
          ⟨.left, ?_, .left hsent fun heq => ?_, hlast, rfl⟩)
        · rw [hvalue, value_of_lt hless]
          rfl
        · have hround := add_le_of_mod_eq hless heq.symm
          omega
      · refine Or.inr (Or.inr ⟨.lastReading, ?_, .lastReading hsent rfl, hlast,
          rfl⟩)
        rw [hvalue, value_of_le (Nat.le_refl _)]
        rfl

/-- A process is without the token, or has it in its hands. -/
theorem Circulating.actor (h : Circulating n hop place s) (hi : i < n) :
    (Idle n hop i (s.control i) ∧ (i ≠ hop % n ∨ place = .inPipe)) ∨
    (i = hop % n ∧ place ≠ .inPipe) := by
  by_cases heq : i = hop % n
  · by_cases hplace : place = .inPipe
    · subst hplace
      cases heq ▸ h.holder with
      | inPipe hidle => exact Or.inl ⟨heq ▸ hidle, Or.inr rfl⟩
    · exact Or.inr ⟨heq, hplace⟩
  · exact Or.inl ⟨h.others i hi heq, Or.inl heq⟩

/-- What a process finds in its input pipe is the token, on its way to it. -/
theorem Circulating.input (h : Circulating n hop place s) (hi : i < n)
    {integer : Int} {rest : List Int}
    (hpipe : s.pipe (myInputPipe n i) = integer :: rest) :
    place = .inPipe ∧ i = hop % n ∧ integer = value hop ∧ rest = [] := by
  have htoken := h.pipes _ (myInputPipe_lt hi)
  rw [hpipe] at htoken
  split at htoken
  · next hin =>
      cases htoken
      exact ⟨hin.1, myInputPipe_injective hi
        (Nat.mod_lt _ (Nat.zero_lt_of_lt hi)) hin.2, rfl, rfl⟩
  · cases htoken

theorem Circulating.skipStep (h : Circulating n hop place s) {i : Nat}
    (hi : i < n) {next : Control}
    (haction : cycleNumber i (s.control i) = .skip next) :
    Invariant n (s.goto i next) := by
  rcases h.actor hi with ⟨hidle, hother⟩ | ⟨rfl, hplace⟩
  · rcases hidle.action with ⟨hskip, hreading⟩ | ⟨hread, -⟩ | ⟨hread, -⟩ |
      ⟨hreturn, -⟩
    · rw [hskip] at haction
      cases haction
      exact Or.inl ⟨hop, place, h.goto_reading hother hreading⟩
    · simp [hread] at haction
    · simp [hread] at haction
    · simp [hreturn] at haction
  · rcases h.holder.action (by omega) hplace with
      ⟨next', place', hskip, hplace', hnext, hprinted⟩ | ⟨hprint, -⟩ |
        ⟨next', hwrite, -⟩
    · rw [hskip] at haction
      cases haction
      exact Or.inl ⟨hop, place', h.goto hplace hplace' hnext hprinted⟩
    · simp [hprint] at haction
    · simp [hwrite] at haction

/-- Only the process that holds the token prints or writes. -/
theorem Circulating.holds (h : Circulating n hop place s) {i : Nat}
    (hi : i < n)
    (haction : (∃ number next,
        cycleNumber i (s.control i) = .print number next) ∨
      ∃ integer next, cycleNumber i (s.control i) = .write integer next) :
    i = hop % n ∧ place ≠ .inPipe := by
  rcases h.actor hi with ⟨hidle, -⟩ | hholder
  · rcases hidle.action with ⟨hidle, -⟩ | ⟨hidle, -⟩ | ⟨hidle, -⟩ |
      ⟨hidle, -⟩ <;> simp [hidle] at haction
  · exact hholder

theorem Circulating.printStep (h : Circulating n hop place s) {i : Nat}
    (hi : i < n) {number : Int} {next : Control}
    (haction : cycleNumber i (s.control i) = .print number next) :
    Invariant n ((s.printOutput i number).goto i next) := by
  obtain ⟨rfl, hplace⟩ := h.holds hi (Or.inl ⟨_, _, haction⟩)
  rcases h.holder.action (by omega) hplace with ⟨_, _, hskip, -⟩ |
    ⟨hprint, rfl, hstop⟩ | ⟨_, hwrite, -⟩
  · simp [hskip] at haction
  · rw [hprint] at haction
    cases haction
    exact Or.inl ⟨hop, .printed, h.print hstop⟩
  · simp [hwrite] at haction

theorem Circulating.writeStep (hn : 2 ≤ n) (h : Circulating n hop place s)
    {i : Nat} (hi : i < n) {integer : Int} {next : Control}
    (haction : cycleNumber i (s.control i) = .write integer next) :
    Invariant n ((s.writePipe i integer).goto i next) := by
  obtain ⟨rfl, hplace⟩ := h.holds hi (Or.inr ⟨_, _, haction⟩)
  rcases h.holder.action (by omega) hplace with ⟨_, _, hskip, -⟩ |
    ⟨hprint, -⟩ | ⟨next', hwrite, hnext, hbound, hprinted⟩
  · simp [hskip] at haction
  · simp [hprint] at haction
  · rw [hwrite] at haction
    cases haction
    exact Or.inl ⟨hop + 1, .inPipe,
      h.write hn hplace hnext hbound hprinted⟩

theorem Circulating.readStep (hn : 2 ≤ n) (h : Circulating n hop place s)
    {i : Nat} (hi : i < n) {next : Int → Control} {integer : Int}
    {rest : List Int} (haction : cycleNumber i (s.control i) = .read next)
    (hpipe : s.pipe (myInputPipe n i) = integer :: rest) :
    Invariant n
      ((s.leavePipe (myInputPipe n i) rest).goto i (next integer)) := by
  obtain ⟨rfl, rfl, rfl, rfl⟩ := h.input hi hpipe
  have hidle : Idle n hop (hop % n) (s.control (hop % n)) := by
    cases h.holder with
    | inPipe hidle => exact hidle
  have hlast := signalled_holder_iff (by omega) h.bound
  rcases hidle.action with ⟨hskip, -⟩ | ⟨hread, hnot⟩ |
    ⟨hread, hsent, -⟩ | ⟨hreturn, -⟩
  · simp [hskip] at haction
  · rw [hread] at haction
    cases haction
    have hbound := Nat.lt_of_le_of_ne h.bound (mt hlast.mpr hnot)
    exact Or.inl ⟨hop, .held, h.read hbound⟩
  · rw [hread] at haction
    cases haction
    obtain rfl := hlast.mp hsent
    have hfinished := h.lastRead (by omega)
    rw [← Nat.add_mod_right stopNumber n] at hfinished
    exact Or.inr hfinished
  · simp [hreturn] at haction

/-- The steps of a ring whose token is at some place. -/
theorem Circulating.step (hn : 2 ≤ n) (h : Circulating n hop place s)
    (hstep : Step n s s') : Invariant n s' := by
  cases hstep with
  | skip hi haction => exact h.skipStep hi haction
  | print hi haction => exact h.printStep hi haction
  | write hi haction => exact h.writeStep hn hi haction
  | read hi haction hpipe => exact h.readStep hn hi haction hpipe

/-- When every process has left, none takes a step. -/
theorem Finished.not_step (h : Finished n s) : ¬ Step n s s' := by
  intro hstep
  have hreturn : ∀ i < n, cycleNumber i (s.control i) = .return :=
    fun i hi => by rw [h.left i hi]; rfl
  cases hstep with
  | skip hi haction => simp [hreturn _ hi] at haction
  | print hi haction => simp [hreturn _ hi] at haction
  | write hi haction => simp [hreturn _ hi] at haction
  | read hi haction => simp [hreturn _ hi] at haction

/-- **Every step keeps the invariant.** -/
theorem Invariant.step (hn : 2 ≤ n) (h : Invariant n s)
    (hstep : Step n s s') : Invariant n s' := by
  rcases h with ⟨hop, place, h⟩ | h
  · exact h.step hn hstep
  · exact absurd hstep h.not_step

theorem invariant_initial (n : Nat) : Invariant n .initial := by
  refine Or.inl ⟨0, .starting, Nat.zero_le _, .starting rfl,
    fun j hj hne => ?_, fun j _ => ?_, rfl⟩
  · rw [Nat.zero_mod] at hne
    exact .entry (fun ⟨k, _, hk, _⟩ => Nat.not_lt_zero k hk) hne
  · rw [if_neg (by simp)]
    rfl

/-- A ring that is not finished has a process that can go on. -/
theorem Circulating.can_step (hn : 0 < n) (h : Circulating n hop place s) :
    ∃ s', Step n s s' := by
  have hholder := Nat.mod_lt hop hn
  rcases h.actor hholder with ⟨hidle, hother⟩ | ⟨-, hplace⟩
  · obtain rfl : place = .inPipe := hother.resolve_left (by simp)
    have hpipe := h.pipes _ (myInputPipe_lt hholder)
    rw [if_pos ⟨rfl, rfl⟩] at hpipe
    rcases hidle.action with ⟨hskip, -⟩ | ⟨hread, -⟩ | ⟨hread, -⟩ |
      ⟨-, -, hsent, hne⟩
    · exact ⟨_, .skip hholder hskip⟩
    · exact ⟨_, .read hholder hread hpipe⟩
    · exact ⟨_, .read hholder hread hpipe⟩
    · obtain rfl := (signalled_holder_iff hn h.bound).mp hsent
      exact absurd (Nat.add_mod_right _ _) hne
  · rcases h.holder.action hn hplace with ⟨_, _, hskip, -⟩ | ⟨hprint, -⟩ |
      ⟨_, hwrite, -⟩
    · exact ⟨_, .skip hholder hskip⟩
    · exact ⟨_, .print hholder hprint⟩
    · exact ⟨_, .write hholder hwrite⟩

end Actions

/-! ## Whole runs -/

section Runs

variable {n : Nat} {s : RingState}

theorem expectedOutput_prefix {count count' : Nat} (h : count ≤ count') :
    expectedOutput n count <+: expectedOutput n count' := by
  obtain ⟨more, rfl⟩ := Nat.exists_eq_add_of_le h
  unfold expectedOutput
  rw [List.range_add, List.map_append]
  exact List.prefix_append _ _

theorem Invariant.of_runs (hn : 2 ≤ n) (hruns : Runs (Step n) .initial s) :
    Invariant n s :=
  hruns.invariant (fun _ _ h hstep => Invariant.step hn h hstep)
    (invariant_initial n)

/-- Only one pipe can hold a number, and only one. -/
theorem Invariant.in_flight (h : Invariant n s) :
    ∑ i ∈ Finset.range n, (s.pipe i).length ≤ 1 := by
  rcases h with ⟨hop, place, h⟩ | h
  · have hlength : ∀ i ∈ Finset.range n, (s.pipe i).length ≤
        if i = myInputPipe n (hop % n) then 1 else 0 := by
      intro i hi
      rw [h.pipes i (Finset.mem_range.mp hi)]
      by_cases heq : i = myInputPipe n (hop % n)
      · rw [if_pos heq]
        split <;> simp
      · rw [if_neg heq, if_neg fun hin => heq hin.2]
        exact Nat.le_refl 0
    have hsum := Finset.sum_le_sum hlength
    rw [Finset.sum_ite_eq'] at hsum
    refine Nat.le_trans hsum ?_
    split <;> omega
  · have hnone : ∀ i ∈ Finset.range n, (s.pipe i).length = 0 :=
      fun i hi => by rw [h.pipes i (Finset.mem_range.mp hi)]; rfl
    rw [Finset.sum_eq_zero hnone]
    exact Nat.zero_le 1

theorem Invariant.printed_prefix (h : Invariant n s) :
    s.printed <+: expectedOutput n (stopNumber + 1) := by
  rcases h with ⟨hop, place, h⟩ | h
  · rw [h.printed]
    exact expectedOutput_prefix (Nat.min_le_left _ _)
  · rw [h.printed]

/-- **The ring passes one number around.**  However the steps of the processes
are ordered, at most one number is on its way, number `k` is printed by
process `k % n` and after its predecessors, and when no process can go on, all
have left, the pipes are empty and everything has been printed. -/
theorem cycleNumber_ring (hn : 2 ≤ n) (hruns : Runs (Step n) .initial s) :
    ∑ i ∈ Finset.range n, (s.pipe i).length ≤ 1 ∧
    s.printed <+: expectedOutput n (stopNumber + 1) ∧
    ((∀ s', ¬ Step n s s') →
      (∀ i < n, s.control i = .left) ∧ (∀ i < n, s.pipe i = []) ∧
      s.printed = expectedOutput n (stopNumber + 1)) := by
  have hinv := Invariant.of_runs hn hruns
  refine ⟨hinv.in_flight, hinv.printed_prefix, fun hstuck => ?_⟩
  rcases hinv with ⟨hop, place, h⟩ | h
  · obtain ⟨s', hstep⟩ := h.can_step (by omega)
    exact absurd hstep (hstuck s')
  · exact ⟨h.left, h.pipes, h.printed⟩

/-- Two processes: process 0 has printed its number and sent the next one,
which process 1 has not read yet. -/
theorem cycleNumber_ring_two :
    ∃ s : RingState, s.pipe 0 = [1] ∧ s.printed = [(0, 0)] ∧
      ∑ i ∈ Finset.range 2, (s.pipe i).length ≤ 1 ∧
      s.printed <+: expectedOutput 2 (stopNumber + 1) ∧
      ((∀ s', ¬ Step 2 s s') →
        (∀ i < 2, s.control i = .left) ∧ (∀ i < 2, s.pipe i = []) ∧
        s.printed = expectedOutput 2 (stopNumber + 1)) := by
  have hzero : 0 < 2 := by decide
  have hskip : Runs (Step 2) .initial (RingState.initial.goto 0 (.loop 0)) :=
    .single (.skip hzero rfl)
  have hprint := hskip.tail (.print hzero rfl)
  exact ⟨_, rfl, rfl,
    cycleNumber_ring (Nat.le_refl 2) (hprint.tail (.write hzero rfl))⟩

end Runs

end OsLabs.Lab1.Ring
