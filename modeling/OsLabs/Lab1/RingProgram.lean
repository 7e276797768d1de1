import Mathlib.Algebra.GroupWithZero.Nat
import Mathlib.Algebra.Order.BigOperators.Group.List
import OsLabs.Lab1.RingShutdown

/-!
# The end of the ring

Whole runs of `ring.c` behind `createPipes`, up to the `waitpid` of every
process.  What is left to do is a weight that every step lowers: the processes
that are still to be made, the ends that are still to be closed, and the
numbers that the token still has to go through.

`ring_program`: when every `fork` has succeeded, every run comes to an end, it
ends only when every process has exited, each one behind the child that it has
waited for, and by then `printOutput` has been called for the numbers up to
`STOPNUMBER` in order.
-/

namespace OsLabs.Lab1.RingProgram

open OsLabs.Posix
open OsLabs.Lab1.Ring (RingState Control cycleNumber myInputPipe stopNumber
  mySigWaitForChild expectedOutput)
open OsLabs.Lab1.RingShutdown

/-! ## Sums over the processes -/

section Sums

variable {f g : Nat → Nat} {n i k : Nat}

/-- Of `n` summands one is lower. -/
theorem sum_lt_of_one (hi : i < n) (hlt : g i < f i)
    (hothers : ∀ j, j ≠ i → g j = f j) :
    ∑ j ∈ Finset.range n, g j < ∑ j ∈ Finset.range n, f j := by
  refine Finset.sum_lt_sum (fun j _ => ?_) ⟨i, Finset.mem_range.mpr hi, hlt⟩
  by_cases heq : j = i
  · rw [heq]
    exact Nat.le_of_lt hlt
  · exact Nat.le_of_eq (hothers j heq)

/-- Of `n` summands two change, and are lower together. -/
theorem sum_lt_of_two (hi : i < n) (hk : k < n) (hne : k ≠ i)
    (hlt : g i + g k < f i + f k)
    (hothers : ∀ j, j ≠ i → j ≠ k → g j = f j) :
    ∑ j ∈ Finset.range n, g j < ∑ j ∈ Finset.range n, f j := by
  have hk' : k ∈ (Finset.range n).erase i :=
    Finset.mem_erase.mpr ⟨hne, Finset.mem_range.mpr hk⟩
  have hrest : ∑ j ∈ ((Finset.range n).erase i).erase k, g j =
      ∑ j ∈ ((Finset.range n).erase i).erase k, f j := by
    refine Finset.sum_congr rfl fun j hj => ?_
    obtain ⟨hjk, hj⟩ := Finset.mem_erase.mp hj
    exact hothers j (Finset.mem_erase.mp hj).1 hjk
  rw [← Finset.add_sum_erase _ _ (Finset.mem_range.mpr hi),
    ← Finset.add_sum_erase _ _ (Finset.mem_range.mpr hi),
    ← Finset.add_sum_erase _ _ hk', ← Finset.add_sum_erase _ _ hk', hrest]
  omega

end Sums

/-! ## What is left to do in the ring -/

/-- The steps that a number still causes, up to `STOPNUMBER`. -/
def numberWeight (number : Int) : Nat :=
  if number = mySigWaitForChild then 0 else 4 * (51 - number).toNat

/-- The steps of a process from this point of `cycleNumber` on, with those
that the number in its hands causes. -/
def controlWeight (myProcessNr : Nat) : Control → Nat
  | .entry => if myProcessNr ≠ 0 then 6 else 210
  | .reading => 5
  | .loop number => 5 + numberWeight number
  | .printed number => 4 + 4 * (51 - number).toNat
  | .signalling number => if number = stopNumber then 3 else 2
  | .lastReading => 1
  | .left => 0

/-- The steps that are caused by what is in a pipe. -/
def pipeWeight (pipe : List Int) : Nat :=
  (pipe.map fun number => 1 + numberWeight number).sum

/-- What is left to do in the ring. -/
def ringWeight (n : Nat) (s : RingState) : Nat :=
  ∑ i ∈ Finset.range n, (controlWeight i (s.control i) + pipeWeight (s.pipe i))

section RingWeight

variable {n i : Nat} {control next : Control} {number : Int} {s s' : RingState}

theorem controlWeight_skip (h : cycleNumber i control = .skip next) :
    controlWeight i next < controlWeight i control := by
  cases control with
  | entry =>
      by_cases hi : i = 0
      · rw [cycleNumber, if_neg (not_not_intro hi)] at h
        cases h
        rw [controlWeight, controlWeight, if_neg (not_not_intro hi)]
        decide
      · rw [cycleNumber, if_pos hi] at h
        cases h
        rw [controlWeight, controlWeight, if_pos hi]
        decide
  | loop number =>
      rw [cycleNumber] at h
      split at h
      · cases h
      · cases h
        rw [controlWeight, controlWeight]
        split <;> omega
  | printed number =>
      rw [cycleNumber] at h
      split at h
      · cases h
        rw [controlWeight, controlWeight]
        split <;> omega
      · cases h
  | reading => cases h
  | signalling number => cases h
  | lastReading => cases h
  | left => cases h

theorem controlWeight_print (h : cycleNumber i control = .print number next) :
    controlWeight i next < controlWeight i control := by
  cases control with
  | loop number =>
      rw [cycleNumber] at h
      split at h
      · next hnumber =>
          cases h
          rw [controlWeight, controlWeight, numberWeight, if_neg hnumber]
          omega
      · cases h
  | entry =>
      rw [cycleNumber] at h
      split at h <;> cases h
  | printed number =>
      rw [cycleNumber] at h
      split at h <;> cases h
  | reading => cases h
  | signalling number => cases h
  | lastReading => cases h
  | left => cases h

/-- A number that is passed on before the last one leaves less to do. -/
theorem controlWeight_write (h : cycleNumber i control = .write number next)
    (hbound : ∀ printed, control = .printed printed → printed ≤ stopNumber) :
    controlWeight i next + (1 + numberWeight number) <
      controlWeight i control := by
  cases control with
  | printed printed =>
      have hle := hbound printed rfl
      rw [cycleNumber] at h
      split at h
      · cases h
      · next hne =>
          cases h
          rw [controlWeight, controlWeight, numberWeight]
          have hstop : (stopNumber : Int) = 50 := rfl
          split <;> omega
  | signalling printed =>
      cases h
      rw [controlWeight, numberWeight, if_pos rfl]
      split
      · show 1 + (1 + 0) < 3
        decide
      · show 0 + (1 + 0) < 2
        decide
  | entry =>
      rw [cycleNumber] at h
      split at h <;> cases h
  | loop number =>
      rw [cycleNumber] at h
      split at h <;> cases h
  | reading => cases h
  | lastReading => cases h
  | left => cases h

theorem controlWeight_read {next : Int → Control}
    (h : cycleNumber i control = .read next) (number : Int) :
    controlWeight i (next number) <
      controlWeight i control + (1 + numberWeight number) := by
  cases control with
  | reading =>
      cases h
      rw [controlWeight, controlWeight]
      omega
  | lastReading =>
      cases h
      rw [controlWeight, controlWeight]
      omega
  | entry =>
      rw [cycleNumber] at h
      split at h <;> cases h
  | loop number =>
      rw [cycleNumber] at h
      split at h <;> cases h
  | printed number =>
      rw [cycleNumber] at h
      split at h <;> cases h
  | signalling number => cases h
  | left => cases h

/-- No process prints more than `STOPNUMBER`. -/
theorem printed_le (h : Ring.Invariant n s) (hi : i < n)
    (hprinted : s.control i = .printed number) : number ≤ stopNumber := by
  rcases h with ⟨hop, place, h⟩ | h
  · rcases h.actor hi with ⟨hidle, -⟩ | ⟨rfl, -⟩
    · rw [hprinted] at hidle
      cases hidle
    · have hholder := h.holder
      rw [hprinted] at hholder
      cases hholder with
      | printed hle => exact Int.ofNat_le.mpr hle
      | inPipe hidle => cases hidle
  · rw [h.left i hi] at hprinted
    cases hprinted

/-- **Every step of the ring leaves less to do.** -/
theorem ringWeight_step (hn : 2 ≤ n) (h : Ring.Invariant n s)
    (hstep : Ring.Step n s s') : ringWeight n s' < ringWeight n s := by
  cases hstep with
  | @skip i next hi haction =>
      refine sum_lt_of_one hi ?_ fun j hj => ?_
      · rw [RingState.goto_self]
        exact Nat.add_lt_add_right (controlWeight_skip haction) _
      · rw [RingState.goto_of_ne _ _ hj, RingState.goto_pipe]
  | @print i number next hi haction =>
      refine sum_lt_of_one hi ?_ fun j hj => ?_
      · rw [RingState.goto_self]
        exact Nat.add_lt_add_right (controlWeight_print haction) _
      · rw [RingState.goto_of_ne _ _ hj]
        rfl
  | @write i number next hi haction =>
      refine sum_lt_of_one hi ?_ fun j hj => ?_
      · have hless := controlWeight_write haction
          fun printed hcontrol => printed_le h hi hcontrol
        rw [RingState.goto_self, RingState.goto_pipe,
          RingState.writePipe_self, pipeWeight, List.map_append,
          List.sum_append, List.map_singleton, List.sum_singleton]
        rw [pipeWeight]
        omega
      · rw [RingState.goto_of_ne _ _ hj, RingState.goto_pipe,
          RingState.writePipe_of_ne _ _ hj]
        rfl
  | @read i next number rest hi haction hpipe =>
      have hne := myInputPipe_ne hn hi
      refine sum_lt_of_two hi (Ring.myInputPipe_lt hi) hne ?_ fun j hj hj' => ?_
      · have hless := controlWeight_read haction number
        rw [RingState.goto_self, RingState.goto_of_ne _ _ hne,
          RingState.goto_pipe, RingState.leavePipe_self,
          RingState.leavePipe_of_ne _ _ hne.symm, hpipe]
        simp only [pipeWeight, List.map_cons, List.sum_cons]
        show _ + _ + (controlWeight _ (s.control _) + _) < _
        omega
      · rw [RingState.goto_of_ne _ _ hj, RingState.goto_pipe,
          RingState.leavePipe_of_ne _ _ hj']
        rfl

end RingWeight

/-! ## What is left to do outside the ring -/

/-- The steps of a process before and behind `cycleNumber`. -/
def phaseWeight (n : Nat) : Phase → Nat
  | .unborn => 2 * n + 9
  | .forking => 2 * n + 8
  | .initialising todo => todo.length + 5
  | .cycling => 4
  | .cleaning todo => todo.length + 1
  | .exited => 0
  | .killed => 0

/-- What is left to do. -/
def weight (n : Nat) (s : System) : Nat :=
  ringWeight n s.ring + ∑ i ∈ Finset.range n, phaseWeight n (s.phase i)

section Weight

variable {n i : Nat} {s s' : System}

theorem initMyPipes_length (n i : Nat) :
    (initMyPipes n i).length ≤ 2 * n + 2 := by
  have hothers : ∀ k ∈ (List.range n).map (fun j =>
      (if j ≠ myInputPipe n i ∧ j ≠ i then closeUnnecessaryPipe j
        else []).length), k ≤ 2 := by
    intro k hk
    obtain ⟨j, -, rfl⟩ := List.mem_map.mp hk
    split
    · exact Nat.le_refl 2
    · exact Nat.zero_le 2
  have hsum := List.sum_le_card_nsmul _ 2 hothers
  have hmul : (n • 2 : Nat) = n * 2 := rfl
  rw [List.length_map, List.length_range, hmul] at hsum
  unfold initMyPipes
  rw [List.length_cons, List.length_cons, List.length_flatMap]
  omega

/-- A process enters a phase that is nearer to its end. -/
theorem weight_enter {phase : Phase} (hi : i < n) (hring : s'.ring = s.ring)
    (hphase : s'.phase = Function.update s.phase i phase)
    (hlt : phaseWeight n phase < phaseWeight n (s.phase i)) :
    weight n s' < weight n s := by
  unfold weight
  rw [hring, hphase]
  refine Nat.add_lt_add_left (sum_lt_of_one hi ?_ fun j hj => ?_) _
  · rw [Function.update_self]
    exact hlt
  · rw [Function.update_of_ne hj]

/-- A process makes the next one. -/
theorem weight_fork (hi : i + 1 < n) (hphase : s.phase i = .forking)
    (hunborn : s.phase (i + 1) = .unborn) :
    weight n ((s.fork i).enter i (.initialising (initMyPipes n i))) <
      weight n s := by
  have hne : i + 1 ≠ i := Nat.succ_ne_self i
  have hself : ((s.fork i).enter i (.initialising (initMyPipes n i))).phase i =
      .initialising (initMyPipes n i) := Function.update_self _ _ _
  have hnext : ((s.fork i).enter i
      (.initialising (initMyPipes n i))).phase (i + 1) = .forking :=
    (Function.update_of_ne hne _ _).trans (Function.update_self _ _ _)
  refine Nat.add_lt_add_left
    (sum_lt_of_two (Nat.lt_of_succ_lt hi) hi hne ?_ fun j hj hj' => ?_) _
  · have hlength := initMyPipes_length n i
    rw [hself, hnext, hphase, hunborn]
    simp only [phaseWeight]
    omega
  · exact congrArg (phaseWeight n) ((Function.update_of_ne hj _ _).trans
      (Function.update_of_ne hj' _ _))

/-- A step of the ring is all that a process does. -/
theorem weight_ring (hn : 2 ≤ n) (h : Wired n s) {ring : RingState}
    (hstep : Ring.Step n s.ring ring) :
    weight n { s with ring := ring } < weight n s :=
  Nat.add_lt_add_right (ringWeight_step hn h.ring hstep) _

/-- **Every step leaves less to do.** -/
theorem weight_step (hn : 2 ≤ n) (h : Wired n s) (hstep : Step n s s') :
    weight n s' < weight n s := by
  cases hstep with
  | @fork i hi hphase hlast =>
      have hchild : i + 1 < n := by omega
      exact weight_fork hchild hphase
        (h.fresh i hi hphase (i + 1) hchild (Nat.lt_succ_self i))
  | @lastFork i hi hphase hlast =>
      refine weight_enter hi rfl rfl ?_
      have hlength := initMyPipes_length n i
      rw [hphase]
      simp only [phaseWeight]
      omega
  | @initClose i pipeEnd todo hi hphase =>
      refine weight_enter hi rfl rfl ?_
      rw [hphase]
      simp only [phaseWeight, List.length_cons]
      omega
  | @initDone i hi hphase =>
      refine weight_enter hi rfl rfl ?_
      rw [hphase]
      exact Nat.lt_succ_self 4
  | @skip i next hi hphase haction =>
      exact weight_ring hn h (.skip hi haction)
  | @print i number next hi hphase haction =>
      exact weight_ring hn h (.print hi haction)
  | @write i integer next hi hphase haction hmine hreader =>
      exact weight_ring hn h (.write hi haction)
  | @writeKilled i integer next hi hphase haction hmine hreader =>
      exact absurd (h.reader hn hi haction) hreader
  | @writeClosed i integer next hi hphase haction hmine =>
      rw [(h.cycling hi hphase _).mpr (Or.inl rfl)] at hmine
      cases hmine
  | @read i next integer rest hi hphase haction hmine hpipe =>
      exact weight_ring hn h (.read hi haction hpipe)
  | @readEndOfFile i next integer hi hphase haction hmine hpipe hwriter =>
      exact absurd (h.writer hn hi haction hpipe) hwriter
  | @readClosed i next integer hi hphase haction hmine =>
      rw [(h.cycling hi hphase _).mpr (Or.inr rfl)] at hmine
      cases hmine
  | @cleanup i hi hphase haction =>
      refine weight_enter hi rfl rfl ?_
      rw [hphase]
      exact Nat.lt_succ_self 3
  | @cleanClose i pipeEnd todo hi hphase =>
      refine weight_enter hi rfl rfl ?_
      rw [hphase]
      simp only [phaseWeight, List.length_cons]
      omega
  | @exit i hi hphase hchild =>
      refine weight_enter hi rfl rfl ?_
      rw [hphase]
      exact Nat.one_pos

end Weight

/-! ## No process is stuck -/

section Progress

variable {n i : Nat} {s : System}

theorem forking_can_step (hi : i < n) (hphase : s.phase i = .forking) :
    ∃ s', Step n s s' := by
  by_cases hlast : i = n - 1
  · exact ⟨_, .lastFork hi hphase hlast⟩
  · exact ⟨_, .fork hi hphase hlast⟩

theorem initialising_can_step (hi : i < n) {todo : List PipeEnd}
    (hphase : s.phase i = .initialising todo) : ∃ s', Step n s s' := by
  cases todo with
  | nil => exact ⟨_, .initDone hi hphase⟩
  | cons pipeEnd todo => exact ⟨_, .initClose hi hphase⟩

/-- As long as a process has not come to `cycleNumber`, some process can go
on. -/
theorem cycling_or_left (h : Wired n s) (hi : i < n) :
    (∃ s', Step n s s') ∨ s.phase i = .cycling ∨
      s.ring.control i = .left := by
  cases hphase : s.phase i with
  | unborn =>
      obtain ⟨j, hj, hforking⟩ := h.chain i hi hphase
      exact Or.inl (forking_can_step (Nat.lt_trans hj hi) hforking)
  | forking => exact Or.inl (forking_can_step hi hphase)
  | initialising todo => exact Or.inl (initialising_can_step hi hphase)
  | cycling => exact Or.inr (Or.inl rfl)
  | cleaning todo => exact Or.inr (Or.inr (h.cleaning hi hphase))
  | exited => exact Or.inr (Or.inr (h.exited hi hphase))
  | killed => exact absurd hphase (h.not_killed hi)

/-- When a process can go on with the ring, some process can go on. -/
theorem can_step_of_ring (hn : 2 ≤ n) (h : Wired n s) {ring : RingState}
    (hstep : Ring.Step n s.ring ring) : ∃ s', Step n s s' := by
  cases hstep with
  | @skip i next hi haction =>
      rcases cycling_or_left h hi with hgo | hphase | hleft
      · exact hgo
      · exact ⟨_, .skip hi hphase haction⟩
      · rw [hleft] at haction
        cases haction
  | @print i number next hi haction =>
      rcases cycling_or_left h hi with hgo | hphase | hleft
      · exact hgo
      · exact ⟨_, .print hi hphase haction⟩
      · rw [hleft] at haction
        cases haction
  | @write i number next hi haction =>
      rcases cycling_or_left h hi with hgo | hphase | hleft
      · exact hgo
      · have hmine := (h.cycling hi hphase ⟨i, true⟩).mpr (Or.inl rfl)
        exact ⟨_, .write hi hphase haction hmine (h.reader hn hi haction)⟩
      · rw [hleft] at haction
        cases haction
  | @read i next number rest hi haction hpipe =>
      rcases cycling_or_left h hi with hgo | hphase | hleft
      · exact hgo
      · have hmine := (h.cycling hi hphase ⟨myInputPipe n i, false⟩).mpr
          (Or.inr rfl)
        exact ⟨_, .read hi hphase haction hmine hpipe⟩
      · rw [hleft] at haction
        cases haction

/-- When no process can go on, one that has left the ring has exited if its
child has. -/
theorem exited_of_child (h : Wired n s) (hstuck : ∀ s', ¬ Step n s s')
    (hi : i < n) (hleft : s.ring.control i = .left)
    (hchild : i + 1 < n → s.phase (i + 1) = .exited) :
    s.phase i = .exited := by
  cases hphase : s.phase i with
  | unborn =>
      rw [h.unborn hi hphase] at hleft
      cases hleft
  | forking =>
      obtain ⟨s', hstep⟩ := forking_can_step hi hphase
      exact absurd hstep (hstuck s')
  | initialising todo =>
      obtain ⟨s', hstep⟩ := initialising_can_step hi hphase
      exact absurd hstep (hstuck s')
  | cycling =>
      have hreturn : s.action i = .return := by
        rw [System.action, hleft]
        rfl
      exact absurd (.cleanup hi hphase hreturn) (hstuck _)
  | cleaning todo =>
      cases todo with
      | nil =>
          exact absurd (.exit hi hphase fun hlt => Or.inl (hchild hlt))
            (hstuck _)
      | cons pipeEnd todo =>
          exact absurd (.cleanClose hi hphase) (hstuck _)
  | exited => rfl
  | killed => exact absurd hphase (h.not_killed hi)

/-- Then all have exited, by induction from the last process on. -/
theorem exited_of_stuck (h : Wired n s) (hstuck : ∀ s', ¬ Step n s s')
    (hleft : ∀ j < n, s.ring.control j = .left) (hi : i < n) :
    s.phase i = .exited := by
  obtain ⟨k, hk⟩ : ∃ k, n = i + k + 1 := ⟨n - i - 1, by omega⟩
  induction k generalizing i with
  | zero =>
      exact exited_of_child h hstuck hi (hleft i hi) fun hlt => by omega
  | succ k ih =>
      exact exited_of_child h hstuck hi (hleft i hi) fun hlt =>
        ih hlt (by omega)

end Progress

/-! ## The order of the exits -/

/-- A process has exited only if its child has. -/
def ChildFirst (n : Nat) (phase : Nat → Phase) : Prop :=
  ∀ i, i + 1 < n → phase i = .exited → phase (i + 1) = .exited

section Order

variable {n i : Nat} {s s' : System} {phase : Nat → Phase} {next : Phase}

theorem ChildFirst.update (h : ChildFirst n phase) (hi : phase i ≠ .exited)
    (hnext : next = .exited → i + 1 < n → phase (i + 1) = .exited) :
    ChildFirst n (Function.update phase i next) := by
  intro j hj hexited
  by_cases hji : j = i
  · subst hji
    rw [Function.update_self] at hexited
    rw [Function.update_of_ne (Nat.succ_ne_self j)]
    exact hnext hexited hj
  · rw [Function.update_of_ne hji] at hexited
    have hchild := h j hj hexited
    have hne : j + 1 ≠ i := by
      rintro rfl
      exact hi hchild
    rw [Function.update_of_ne hne]
    exact hchild

theorem ChildFirst.step (h : ChildFirst n s.phase) (hwired : Wired n s)
    (hstep : Step n s s') : ChildFirst n s'.phase := by
  cases hstep with
  | @fork i hi hphase hlast =>
      have hunborn := hwired.fresh i hi hphase (i + 1) (by omega)
        (Nat.lt_succ_self i)
      have hborn : ChildFirst n
          (Function.update s.phase (i + 1) .forking) :=
        h.update (by simp [hunborn]) (by simp)
      refine hborn.update ?_ (by simp)
      rw [Function.update_of_ne (Nat.succ_ne_self i).symm, hphase]
      simp
  | lastFork hi hphase hlast => exact h.update (by simp [hphase]) (by simp)
  | initClose hi hphase => exact h.update (by simp [hphase]) (by simp)
  | initDone hi hphase => exact h.update (by simp [hphase]) (by simp)
  | skip hi hphase haction => exact h
  | print hi hphase haction => exact h
  | write hi hphase haction hmine hreader => exact h
  | writeKilled hi hphase haction hmine hreader =>
      exact h.update (by simp [hphase]) (by simp)
  | writeClosed hi hphase haction hmine => exact h
  | read hi hphase haction hmine hpipe => exact h
  | readEndOfFile integer hi hphase haction hmine hpipe hwriter => exact h
  | readClosed integer hi hphase haction hmine => exact h
  | cleanup hi hphase haction => exact h.update (by simp [hphase]) (by simp)
  | cleanClose hi hphase => exact h.update (by simp [hphase]) (by simp)
  | exit hi hphase hchild =>
      refine h.update (by simp [hphase]) fun _ hlt => ?_
      exact (hchild hlt).resolve_right (hwired.not_killed hlt)

/-- The processes exit in the reverse order of their creation. -/
theorem ChildFirst.of_lt (h : ChildFirst n phase) {j : Nat} (hij : i < j)
    (hj : j < n) (hexited : phase i = .exited) : phase j = .exited := by
  induction j with
  | zero => exact absurd hij (Nat.not_lt_zero i)
  | succ j ih =>
      rcases Nat.lt_or_eq_of_le (Nat.le_of_lt_succ hij) with hlt | rfl
      · exact h j hj (ih hlt (Nat.lt_of_succ_lt hj))
      · exact h i hj hexited

end Order

/-! ## Whole runs -/

section Runs

variable {n : Nat} {s : System}

theorem childFirst_of_runs (hn : 2 ≤ n)
    (hruns : Runs (Step n) (.initial n) s) : ChildFirst n s.phase := by
  induction hruns with
  | refl =>
      intro i _ hexited
      have hphase : (if i = 0 then Phase.forking else .unborn) = .exited :=
        hexited
      split at hphase <;> cases hphase
  | tail hbefore hlast ih => exact ih.step (Wired.of_runs hn hbefore) hlast

/-- **The ring comes to its end.**  Whatever the order of the steps, no run goes
on for ever; a process exits behind all those that were made after it; and
when no process can go on, every one has exited, no pipe holds a number, and
`printOutput` has been called for the numbers from 0 to `STOPNUMBER` in order,
each time by the process whose turn it is. -/
theorem ring_program (hn : 2 ≤ n) :
    (∀ run : Nat → System, run 0 = .initial n →
      ¬ ∀ k, Step n (run k) (run (k + 1))) ∧
    ∀ s, Runs (Step n) (.initial n) s →
      (∀ i j, i < j → j < n → s.phase i = .exited → s.phase j = .exited) ∧
      ((∀ s', ¬ Step n s s') →
        (∀ i < n, s.phase i = .exited) ∧ (∀ i < n, s.ring.pipe i = []) ∧
        s.ring.printed = expectedOutput n (stopNumber + 1)) := by
  refine ⟨fun run hstart => ?_, fun s hruns => ⟨?_, fun hstuck => ?_⟩⟩
  · have hlower : ∀ a b, Wired n a → Step n a b →
        Wired n b ∧ weight n b < weight n a :=
      fun _ _ h hstep => ⟨h.step hn hstep, weight_step hn h hstep⟩
    exact Runs.no_infinite hlower run (hstart ▸ Wired.initial n)
  · intro i j hij hj hexited
    exact (childFirst_of_runs hn hruns).of_lt hij hj hexited
  · have h := Wired.of_runs hn hruns
    rcases h.ring with ⟨hop, place, hring⟩ | hring
    · obtain ⟨ring, hstep⟩ := hring.can_step (by omega)
      obtain ⟨s', hstep'⟩ := can_step_of_ring hn h hstep
      exact absurd hstep' (hstuck s')
    · exact ⟨fun i hi => exited_of_stuck h hstuck hring.left hi, hring.pipes,
        hring.printed⟩

/-- Two processes. -/
theorem ring_program_two :
    (∀ run : Nat → System, run 0 = .initial 2 →
      ¬ ∀ k, Step 2 (run k) (run (k + 1))) ∧
    ∀ s, Runs (Step 2) (.initial 2) s →
      (∀ i j, i < j → j < 2 → s.phase i = .exited → s.phase j = .exited) ∧
      ((∀ s', ¬ Step 2 s s') →
        (∀ i < 2, s.phase i = .exited) ∧ (∀ i < 2, s.ring.pipe i = []) ∧
        s.ring.printed = expectedOutput 2 (stopNumber + 1)) :=
  ring_program (Nat.le_refl 2)

end Runs

end OsLabs.Lab1.RingProgram
