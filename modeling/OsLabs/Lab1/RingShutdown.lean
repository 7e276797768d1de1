import OsLabs.Lab1.Ring

/-!
# Starting and leaving the ring

The whole of `ring.c` behind `createPipes`: the chain of forks, the closes of
`initMyPipes`, `cycleNumber`, the closes of `cleanup` and the final `waitpid`.
Every `fork` succeeds, and what is printed is the sequence of the calls of
`printOutput`, not the order in which the buffers of the processes reach a
standard output.  Every process has its own open pipe ends.  A write to a pipe that no process
can read kills the writer, a read from an empty pipe that no process can write
returns at once with whatever the number was, and an access through an end the
process has closed does nothing; `cycleNumber_pipes_open` says that none of
this ever happens.
-/

namespace OsLabs.Lab1.RingShutdown

open OsLabs.Posix
open OsLabs.Lab1.Ring

/-! ## The source -/

/-- `pipeArr[pipe][1]` or `pipeArr[pipe][0]`. -/
structure PipeEnd where
  pipe : Nat
  isWriteEnd : Bool
  deriving Repr, DecidableEq

/-- The end that `initPipe` closes. -/
def initPipe (pipe : Nat) (isOutgoing : Bool) : PipeEnd :=
  ⟨pipe, if isOutgoing then false else true⟩

/-- The end that `closePipe` closes. -/
def closePipe (pipe : Nat) (isOutgoing : Bool) : PipeEnd :=
  ⟨pipe, if isOutgoing then true else false⟩

/-- The ends that `closeUnnecessaryPipe` closes. -/
def closeUnnecessaryPipe (pipe : Nat) : List PipeEnd :=
  [⟨pipe, false⟩, ⟨pipe, true⟩]

section Closes

variable (nrOfProcesses myProcessNr : Nat)

/-- The ends that `initMyPipes` closes, in order. -/
def initMyPipes : List PipeEnd :=
  initPipe myProcessNr true ::
    initPipe (myInputPipe nrOfProcesses myProcessNr) false ::
    (List.range nrOfProcesses).flatMap fun i =>
      if i ≠ myInputPipe nrOfProcesses myProcessNr ∧ i ≠ myProcessNr then
        closeUnnecessaryPipe i
      else []

/-- The ends that `closeMyPipes` closes, in order. -/
def closeMyPipes : List PipeEnd :=
  [closePipe myProcessNr true,
    closePipe (myInputPipe nrOfProcesses myProcessNr) false]

end Closes

/-- Where a process is in `main`. -/
inductive Phase where
  | unborn
  | forking
  | initialising (todo : List PipeEnd)
  | cycling
  | cleaning (todo : List PipeEnd)
  | exited
  | killed
  deriving Repr, DecidableEq

/-- The ring, with the phase and the open pipe ends of each process. -/
structure System where
  ring : RingState
  phase : Nat → Phase
  isOpen : Nat → PipeEnd → Bool

/-- One process has made `n` pipes and calls `recursivelyForkToNProcesses`. -/
def System.initial (n : Nat) : System where
  ring := .initial
  phase := fun i => if i = 0 then .forking else .unborn
  isOpen := fun i pipeEnd => decide (i = 0 ∧ pipeEnd.pipe < n)

section Updates

variable (s : System) (i : Nat)

/-- Process `i` enters another phase. -/
def System.enter (phase : Phase) : System :=
  { s with phase := Function.update s.phase i phase }

/-- Process `i` closes an end. -/
def System.close (pipeEnd : PipeEnd) : System :=
  { s with
    isOpen := Function.update s.isOpen i
      (Function.update (s.isOpen i) pipeEnd false) }

/-- Process `i` is gone, and its descriptors with it. -/
def System.vanish (phase : Phase) : System :=
  { s with
    phase := Function.update s.phase i phase
    isOpen := Function.update s.isOpen i fun _ => false }

/-- Process `i` makes process `i + 1`, which starts with its descriptors. -/
def System.fork : System :=
  { s with
    phase := Function.update s.phase (i + 1) .forking
    isOpen := Function.update s.isOpen (i + 1) (s.isOpen i) }

end Updates

/-- Some process has an end open. -/
def HeldOpen (n : Nat) (s : System) (pipeEnd : PipeEnd) : Prop :=
  ∃ j < n, s.isOpen j pipeEnd = true

/-- What process `i` does next with the ring. -/
def System.action (s : System) (i : Nat) : Action :=
  cycleNumber i (s.ring.control i)

/-- One of the `n` processes takes a step. -/
inductive Step (n : Nat) : System → System → Prop
  | fork {s : System} {i : Nat} (hi : i < n) (hphase : s.phase i = .forking)
      (hlast : i ≠ n - 1) :
      Step n s ((s.fork i).enter i (.initialising (initMyPipes n i)))
  | lastFork {s : System} {i : Nat} (hi : i < n)
      (hphase : s.phase i = .forking) (hlast : i = n - 1) :
      Step n s (s.enter i (.initialising (initMyPipes n i)))
  | initClose {s : System} {i : Nat} {pipeEnd : PipeEnd}
      {todo : List PipeEnd} (hi : i < n)
      (hphase : s.phase i = .initialising (pipeEnd :: todo)) :
      Step n s ((s.close i pipeEnd).enter i (.initialising todo))
  | initDone {s : System} {i : Nat} (hi : i < n)
      (hphase : s.phase i = .initialising []) : Step n s (s.enter i .cycling)
  | skip {s : System} {i : Nat} {next : Control} (hi : i < n)
      (hphase : s.phase i = .cycling) (h : s.action i = .skip next) :
      Step n s { s with ring := s.ring.goto i next }
  | print {s : System} {i : Nat} {number : Int} {next : Control} (hi : i < n)
      (hphase : s.phase i = .cycling) (h : s.action i = .print number next) :
      Step n s { s with ring := (s.ring.printOutput i number).goto i next }
  | write {s : System} {i : Nat} {integer : Int} {next : Control} (hi : i < n)
      (hphase : s.phase i = .cycling) (h : s.action i = .write integer next)
      (hmine : s.isOpen i ⟨i, true⟩ = true) (hreader : HeldOpen n s ⟨i, false⟩) :
      Step n s { s with ring := (s.ring.writePipe i integer).goto i next }
  | writeKilled {s : System} {i : Nat} {integer : Int} {next : Control}
      (hi : i < n) (hphase : s.phase i = .cycling)
      (h : s.action i = .write integer next)
      (hmine : s.isOpen i ⟨i, true⟩ = true)
      (hreader : ¬ HeldOpen n s ⟨i, false⟩) : Step n s (s.vanish i .killed)
  | writeClosed {s : System} {i : Nat} {integer : Int} {next : Control}
      (hi : i < n) (hphase : s.phase i = .cycling)
      (h : s.action i = .write integer next)
      (hmine : s.isOpen i ⟨i, true⟩ = false) :
      Step n s { s with ring := s.ring.goto i next }
  | read {s : System} {i : Nat} {next : Int → Control} {integer : Int}
      {rest : List Int} (hi : i < n) (hphase : s.phase i = .cycling)
      (h : s.action i = .read next)
      (hmine : s.isOpen i ⟨myInputPipe n i, false⟩ = true)
      (hpipe : s.ring.pipe (myInputPipe n i) = integer :: rest) :
      Step n s { s with
        ring := (s.ring.leavePipe (myInputPipe n i) rest).goto i
          (next integer) }
  | readEndOfFile {s : System} {i : Nat} {next : Int → Control}
      (integer : Int) (hi : i < n) (hphase : s.phase i = .cycling)
      (h : s.action i = .read next)
      (hmine : s.isOpen i ⟨myInputPipe n i, false⟩ = true)
      (hpipe : s.ring.pipe (myInputPipe n i) = [])
      (hwriter : ¬ HeldOpen n s ⟨myInputPipe n i, true⟩) :
      Step n s { s with ring := s.ring.goto i (next integer) }
  | readClosed {s : System} {i : Nat} {next : Int → Control}
      (integer : Int) (hi : i < n) (hphase : s.phase i = .cycling)
      (h : s.action i = .read next)
      (hmine : s.isOpen i ⟨myInputPipe n i, false⟩ = false) :
      Step n s { s with ring := s.ring.goto i (next integer) }
  | cleanup {s : System} {i : Nat} (hi : i < n)
      (hphase : s.phase i = .cycling) (h : s.action i = .return) :
      Step n s (s.enter i (.cleaning (closeMyPipes n i)))
  | cleanClose {s : System} {i : Nat} {pipeEnd : PipeEnd}
      {todo : List PipeEnd} (hi : i < n)
      (hphase : s.phase i = .cleaning (pipeEnd :: todo)) :
      Step n s ((s.close i pipeEnd).enter i (.cleaning todo))
  | exit {s : System} {i : Nat} (hi : i < n)
      (hphase : s.phase i = .cleaning [])
      (hchild : i + 1 < n →
        s.phase (i + 1) = .exited ∨ s.phase (i + 1) = .killed) :
      Step n s (s.vanish i .exited)

/-! ## Who may have left already -/

section Leaving

variable {n hop i j : Nat} {place : Place} {s : RingState}

/-- While a process has something to write, the one that reads it is still in
the ring. -/
theorem reader_not_left (hn : 2 ≤ n) (h : Ring.Invariant n s) (hi : i < n)
    (hj : j < n) (hreads : myInputPipe n j = i) {integer : Int}
    {next : Control}
    (hwrite : cycleNumber i (s.control i) = .write integer next) :
    s.control j ≠ .left := by
  rcases h with ⟨hop, place, h⟩ | h
  · rcases h.actor hi with ⟨hidle, -⟩ | ⟨rfl, hplace⟩
    · rcases hidle.action with ⟨hidle, -⟩ | ⟨hidle, -⟩ | ⟨hidle, -⟩ |
        ⟨hidle, -⟩ <;> simp [hidle] at hwrite
    · rcases h.holder.action (by omega) hplace with ⟨_, _, hskip, -⟩ |
        ⟨hprint, -⟩ | ⟨_, -, -, hbound, -⟩
      · simp [hskip] at hwrite
      · simp [hprint] at hwrite
      · have hsucc := Nat.mod_lt (hop + 1) (show 0 < n by omega)
        obtain rfl : j = (hop + 1) % n := myInputPipe_injective hj hsucc
          (hreads.trans (myInputPipe_succ (by omega)).symm)
        have hidle := h.others _ hsucc (succ_mod_ne hn)
        intro hleft
        rw [hleft] at hidle
        cases hidle with
        | left hsent hne =>
            obtain ⟨k, hstop, hk, hmod⟩ := hsent
            have hround := add_le_of_mod_eq (Nat.lt_succ_of_lt hk) hmod
            obtain rfl : k = stopNumber := by omega
            exact hne hmod.symm
  · rw [h.left i hi] at hwrite
    cases hwrite

/-- While a process waits at an empty pipe, the one that writes it is still in
the ring. -/
theorem writer_not_left (h : Ring.Invariant n s) (hi : i < n)
    {next : Int → Control}
    (hread : cycleNumber i (s.control i) = .read next)
    (hpipe : s.pipe (myInputPipe n i) = []) :
    s.control (myInputPipe n i) ≠ .left := by
  have hn : 0 < n := Nat.zero_lt_of_lt hi
  rcases h with ⟨hop, place, h⟩ | h
  · rcases h.actor hi with ⟨hidle, hother⟩ | ⟨rfl, hplace⟩
    · -- the token is not on its way to `i`
      have hne : i ≠ hop % n := by
        rcases hother with hne | rfl
        · exact hne
        · rintro rfl
          have htoken := h.pipes _ (myInputPipe_lt hi)
          rw [hpipe, if_pos ⟨rfl, rfl⟩] at htoken
          cases htoken
      intro hleft
      rcases h.actor (myInputPipe_lt hi) with ⟨hwriter, -⟩ | ⟨heq, hplace⟩
      · rw [hleft] at hwriter
        cases hwriter with
        | left hsent hstop =>
            obtain ⟨k, hk, hlt, hmod⟩ := hsent
            have hsucc := Nat.mod_lt (k + 1) hn
            obtain rfl : i = (k + 1) % n := myInputPipe_injective hi hsucc
              (hmod.symm.trans (myInputPipe_succ hn).symm)
            have hlt' : k + 1 < hop :=
              Nat.lt_of_le_of_ne hlt fun heq => hne (heq ▸ rfl)
            have hsent' : Signalled n hop ((k + 1) % n) :=
              ⟨k + 1, Nat.le_succ_of_le hk, hlt', rfl⟩
            rcases hidle.action with ⟨hskip, -⟩ | ⟨-, hnot⟩ |
              ⟨-, -, hlast⟩ | ⟨hreturn, -⟩
            · simp [hskip] at hread
            · exact hnot hsent'
            · have hround := add_le_of_mod_eq (Nat.lt_succ_of_le hk) hlast.symm
              have hbound := h.bound
              omega
            · simp [hreturn] at hread
      · have hholder := h.holder
        rw [← heq, hleft] at hholder
        cases hholder with
        | inPipe => exact hplace rfl
    · rcases h.holder.action hn hplace with ⟨_, _, hskip, -⟩ | ⟨hprint, -⟩ |
        ⟨_, hwrite, -⟩
      · simp [hskip] at hread
      · simp [hprint] at hread
      · simp [hwrite] at hread
  · rw [h.left i hi] at hread
    cases hread

end Leaving

/-! ## The ends of a process -/

section Ends

variable {n i j : Nat} {pipeEnd : PipeEnd}

/-- The ends that process `i` uses. -/
def Mine (n i : Nat) (pipeEnd : PipeEnd) : Prop :=
  pipeEnd = ⟨i, true⟩ ∨ pipeEnd = ⟨myInputPipe n i, false⟩

theorem Mine.lt (hi : i < n) (h : Mine n i pipeEnd) : pipeEnd.pipe < n := by
  rcases h with rfl | rfl
  · exact hi
  · exact myInputPipe_lt hi

theorem myInputPipe_ne (hn : 2 ≤ n) (hi : i < n) : myInputPipe n i ≠ i := by
  rw [myInputPipe_eq hi]
  split <;> omega

/-- `initMyPipes` closes the ends that a process does not use. -/
theorem mem_initMyPipes_iff (hn : 2 ≤ n) (hi : i < n) :
    pipeEnd ∈ initMyPipes n i ↔ pipeEnd.pipe < n ∧ ¬ Mine n i pipeEnd := by
  have hinput := myInputPipe_lt hi
  have hne := myInputPipe_ne hn hi
  obtain ⟨pipe, isWriteEnd⟩ := pipeEnd
  have hothers : (⟨pipe, isWriteEnd⟩ : PipeEnd) ∈
      ((List.range n).flatMap fun j =>
        if j ≠ myInputPipe n i ∧ j ≠ i then closeUnnecessaryPipe j else []) ↔
      pipe < n ∧ pipe ≠ myInputPipe n i ∧ pipe ≠ i := by
    rw [List.mem_flatMap]
    constructor
    · rintro ⟨j, hj, hmem⟩
      split at hmem
      · next hother =>
          obtain rfl : pipe = j := by
            simp [closeUnnecessaryPipe] at hmem
            omega
          exact ⟨List.mem_range.mp hj, hother⟩
      · cases hmem
    · rintro ⟨hlt, hother⟩
      refine ⟨pipe, List.mem_range.mpr hlt, ?_⟩
      rw [if_pos hother]
      cases isWriteEnd <;> simp [closeUnnecessaryPipe]
  unfold initMyPipes Mine
  rw [List.mem_cons, List.mem_cons, hothers]
  cases isWriteEnd <;> simp [initPipe] <;> omega

end Ends

/-! ## The invariant -/

/-- A process in its phase: the ends it has open, and whether it has entered
or left `cycleNumber`. -/
inductive ProcessOk (n i : Nat) :
    Phase → Control → (PipeEnd → Bool) → Prop
  | unborn {isOpen : PipeEnd → Bool} : ProcessOk n i .unborn .entry isOpen
  | forking {isOpen : PipeEnd → Bool}
      (h : ∀ e, isOpen e = true ↔ e.pipe < n) :
      ProcessOk n i .forking .entry isOpen
  | initialising {isOpen : PipeEnd → Bool} {closed todo : List PipeEnd}
      (hsplit : initMyPipes n i = closed ++ todo)
      (h : ∀ e, isOpen e = true ↔ e.pipe < n ∧ e ∉ closed) :
      ProcessOk n i (.initialising todo) .entry isOpen
  | cycling {isOpen : PipeEnd → Bool} {control : Control}
      (h : ∀ e, isOpen e = true ↔ Mine n i e) :
      ProcessOk n i .cycling control isOpen
  | cleaning {isOpen : PipeEnd → Bool} {todo : List PipeEnd} :
      ProcessOk n i (.cleaning todo) .left isOpen
  | exited {isOpen : PipeEnd → Bool} : ProcessOk n i .exited .left isOpen

/-- The ring is in order, every process is, and there is a process that is
about to fork as long as some are not born. -/
structure Wired (n : Nat) (s : System) : Prop where
  ring : Ring.Invariant n s.ring
  processes : ∀ i < n,
    ProcessOk n i (s.phase i) (s.ring.control i) (s.isOpen i)
  chain : ∀ i < n, s.phase i = .unborn → ∃ j < i, s.phase j = .forking
  fresh : ∀ i < n, s.phase i = .forking → ∀ j < n, i < j → s.phase j = .unborn

/-! ## No end is missed -/

section Open

variable {n i j : Nat} {s : System}

theorem Wired.unborn (h : Wired n s) (hi : i < n)
    (hphase : s.phase i = .unborn) : s.ring.control i = .entry := by
  have hprocess := h.processes i hi
  rw [hphase] at hprocess
  generalize s.ring.control i = control at hprocess ⊢
  cases hprocess with
  | unborn => rfl

theorem Wired.forking (h : Wired n s) (hi : i < n)
    (hphase : s.phase i = .forking) :
    s.ring.control i = .entry ∧
      ∀ e, s.isOpen i e = true ↔ e.pipe < n := by
  have hprocess := h.processes i hi
  rw [hphase] at hprocess
  generalize s.ring.control i = control at hprocess ⊢
  generalize s.isOpen i = isOpen at hprocess ⊢
  cases hprocess with
  | forking hopen => exact ⟨rfl, hopen⟩

theorem Wired.initialising (h : Wired n s) (hi : i < n)
    {todo : List PipeEnd} (hphase : s.phase i = .initialising todo) :
    s.ring.control i = .entry ∧ ∃ closed, initMyPipes n i = closed ++ todo ∧
      ∀ e, s.isOpen i e = true ↔ e.pipe < n ∧ e ∉ closed := by
  have hprocess := h.processes i hi
  rw [hphase] at hprocess
  generalize s.ring.control i = control at hprocess ⊢
  generalize s.isOpen i = isOpen at hprocess ⊢
  cases hprocess with
  | initialising hsplit hopen => exact ⟨rfl, _, hsplit, hopen⟩

/-- In the ring a process has its own ends open, and no others. -/
theorem Wired.cycling (h : Wired n s) (hi : i < n)
    (hphase : s.phase i = .cycling) (pipeEnd : PipeEnd) :
    s.isOpen i pipeEnd = true ↔ Mine n i pipeEnd := by
  have hprocess := h.processes i hi
  rw [hphase] at hprocess
  generalize s.isOpen i = isOpen at hprocess ⊢
  cases hprocess with
  | cycling hopen => exact hopen pipeEnd

theorem Wired.cleaning (h : Wired n s) (hi : i < n) {todo : List PipeEnd}
    (hphase : s.phase i = .cleaning todo) : s.ring.control i = .left := by
  have hprocess := h.processes i hi
  rw [hphase] at hprocess
  generalize s.ring.control i = control at hprocess ⊢
  cases hprocess with
  | cleaning => rfl

theorem Wired.exited (h : Wired n s) (hi : i < n)
    (hphase : s.phase i = .exited) : s.ring.control i = .left := by
  have hprocess := h.processes i hi
  rw [hphase] at hprocess
  generalize s.ring.control i = control at hprocess ⊢
  cases hprocess with
  | exited => rfl

theorem Wired.not_killed (h : Wired n s) (hi : i < n) :
    s.phase i ≠ .killed := by
  intro hphase
  have hprocess := h.processes i hi
  rw [hphase] at hprocess
  cases hprocess

/-- A process that has not left the ring yet keeps its ends open, or has not
been made; then one that is about to fork holds them for it. -/
theorem Wired.heldOpen (hn : 2 ≤ n) (h : Wired n s) (hj : j < n)
    (hleft : s.ring.control j ≠ .left) {pipeEnd : PipeEnd}
    (hmine : Mine n j pipeEnd) : HeldOpen n s pipeEnd := by
  have hlt := hmine.lt hj
  cases hphase : s.phase j with
  | unborn =>
      obtain ⟨k, hk, hforking⟩ := h.chain j hj hphase
      have hopen := (h.forking (Nat.lt_trans hk hj) hforking).2
      exact ⟨k, Nat.lt_trans hk hj, (hopen _).mpr hlt⟩
  | forking => exact ⟨j, hj, ((h.forking hj hphase).2 _).mpr hlt⟩
  | initialising todo =>
      obtain ⟨-, closed, hsplit, hopen⟩ := h.initialising hj hphase
      refine ⟨j, hj, (hopen _).mpr ⟨hlt, fun hclosed => ?_⟩⟩
      have hmem : pipeEnd ∈ initMyPipes n j := by
        rw [hsplit]
        exact List.mem_append_left _ hclosed
      exact ((mem_initMyPipes_iff hn hj).mp hmem).2 hmine
  | cycling => exact ⟨j, hj, (h.cycling hj hphase _).mpr hmine⟩
  | cleaning todo => exact absurd (h.cleaning hj hphase) hleft
  | exited => exact absurd (h.exited hj hphase) hleft
  | killed => exact absurd hphase (h.not_killed hj)

/-- A process that is about to write has a reader. -/
theorem Wired.reader (hn : 2 ≤ n) (h : Wired n s) (hi : i < n)
    {integer : Int} {next : Control} (hwrite : s.action i = .write integer next) :
    HeldOpen n s ⟨i, false⟩ := by
  have hj : (i + 1) % n < n := Nat.mod_lt _ (by omega)
  have hreads : myInputPipe n ((i + 1) % n) = i :=
    (myInputPipe_succ (by omega)).trans (Nat.mod_eq_of_lt hi)
  apply h.heldOpen hn hj (reader_not_left hn h.ring hi hj hreads hwrite)
  exact Or.inr (by rw [hreads])

/-- A process that is about to read from an empty pipe has a writer. -/
theorem Wired.writer (hn : 2 ≤ n) (h : Wired n s) (hi : i < n)
    {next : Int → Control} (hread : s.action i = .read next)
    (hpipe : s.ring.pipe (myInputPipe n i) = []) :
    HeldOpen n s ⟨myInputPipe n i, true⟩ :=
  h.heldOpen hn (myInputPipe_lt hi) (writer_not_left h.ring hi hread hpipe)
    (Or.inl rfl)

end Open

/-! ## One step -/

section Preserve

variable {n i : Nat} {s s' : System}

theorem Wired.initial (n : Nat) : Wired n (.initial n) where
  ring := invariant_initial n
  processes := fun i _ => by
    show ProcessOk n i (if i = 0 then .forking else .unborn) .entry _
    by_cases hi : i = 0
    · rw [if_pos hi]
      exact .forking fun e => by simp [System.initial, hi]
    · rw [if_neg hi]
      exact .unborn
  chain := fun i _ hunborn => by
    have hi : i ≠ 0 := by
      rintro rfl
      cases hunborn
    exact ⟨0, Nat.pos_of_ne_zero hi, rfl⟩
  fresh := fun i _ _ j _ hlt => if_neg (Nat.ne_of_gt (Nat.zero_lt_of_lt hlt))

/-- A process in the ring goes on. -/
theorem Wired.ringStep (h : Wired n s) (hphase : s.phase i = .cycling)
    (hi : i < n) {ring : RingState} (hring : Ring.Invariant n ring)
    (hothers : ∀ j, j ≠ i → ring.control j = s.ring.control j) :
    Wired n { s with ring := ring } where
  ring := hring
  processes := fun j hj => by
    by_cases heq : j = i
    · subst heq
      show ProcessOk n j (s.phase j) (ring.control j) (s.isOpen j)
      rw [hphase]
      exact .cycling (h.cycling hi hphase)
    · show ProcessOk n j (s.phase j) (ring.control j) (s.isOpen j)
      rw [hothers j heq]
      exact h.processes j hj
  chain := h.chain
  fresh := h.fresh

/-- A process that exists enters another phase, without making a child. -/
theorem Wired.enter (h : Wired n s) (hborn : s.phase i ≠ .unborn)
    (hlast : s.phase i = .forking → i = n - 1) {phase : Phase}
    (hforking : phase ≠ .forking) (hunborn : phase ≠ .unborn)
    {isOpen : PipeEnd → Bool}
    (hprocess : ProcessOk n i phase (s.ring.control i) isOpen) :
    Wired n { s with
      phase := Function.update s.phase i phase
      isOpen := Function.update s.isOpen i isOpen } where
  ring := h.ring
  processes := fun j hj => by
    by_cases heq : j = i
    · subst heq
      simp only [Function.update_self]
      exact hprocess
    · simp only [Function.update_of_ne heq]
      exact h.processes j hj
  chain := fun j hj (hj' : Function.update s.phase i phase j = .unborn) => by
    have heq : j ≠ i := by
      rintro rfl
      rw [Function.update_self] at hj'
      exact hunborn hj'
    rw [Function.update_of_ne heq] at hj'
    obtain ⟨k, hk, hphase⟩ := h.chain j hj hj'
    have hne : k ≠ i := by
      rintro rfl
      have := hlast hphase
      omega
    exact ⟨k, hk, (Function.update_of_ne hne _ _).trans hphase⟩
  fresh := fun j hj (hj' : Function.update s.phase i phase j = .forking)
      k hk hlt => by
    have heq : j ≠ i := by
      rintro rfl
      rw [Function.update_self] at hj'
      exact hforking hj'
    rw [Function.update_of_ne heq] at hj'
    have hphase := h.fresh j hj hj' k hk hlt
    have hne : k ≠ i := by
      rintro rfl
      exact hborn hphase
    exact (Function.update_of_ne hne _ _).trans hphase

/-- It keeps its ends. -/
theorem Wired.enterOnly (h : Wired n s) (hborn : s.phase i ≠ .unborn)
    (hlast : s.phase i = .forking → i = n - 1) {phase : Phase}
    (hforking : phase ≠ .forking) (hunborn : phase ≠ .unborn)
    (hprocess : ProcessOk n i phase (s.ring.control i) (s.isOpen i)) :
    Wired n (s.enter i phase) := by
  have hnext := h.enter hborn hlast hforking hunborn hprocess
  rw [Function.update_eq_self] at hnext
  exact hnext

/-- Process `i` closes an end that is not its own. -/
theorem Wired.initClose {pipeEnd : PipeEnd} {todo : List PipeEnd}
    (h : Wired n s) (hi : i < n)
    (hphase : s.phase i = .initialising (pipeEnd :: todo)) :
    Wired n ((s.close i pipeEnd).enter i (.initialising todo)) := by
  obtain ⟨hentry, closed, hsplit, hopen⟩ := h.initialising hi hphase
  refine h.enter (by simp [hphase]) (by simp [hphase]) (by simp) (by simp) ?_
  have hsplit' : initMyPipes n i = (closed ++ [pipeEnd]) ++ todo := by
    rw [hsplit, List.append_assoc]
    rfl
  rw [hentry]
  refine .initialising hsplit' fun e => ?_
  by_cases heq : e = pipeEnd
  · simp [heq]
  · rw [Function.update_of_ne heq, hopen]
    simp [heq]

/-- Process `i` has closed all of them. -/
theorem Wired.initDone (hn : 2 ≤ n) (h : Wired n s) (hi : i < n)
    (hphase : s.phase i = .initialising []) :
    Wired n (s.enter i .cycling) := by
  obtain ⟨-, closed, hsplit, hopen⟩ := h.initialising hi hphase
  refine h.enterOnly (by simp [hphase]) (by simp [hphase]) (by simp)
    (by simp) (.cycling fun e => ?_)
  rw [List.append_nil] at hsplit
  rw [hopen, ← hsplit, mem_initMyPipes_iff hn hi]
  constructor
  · rintro ⟨hlt, hkept⟩
    exact not_not.mp fun hnot => hkept ⟨hlt, hnot⟩
  · exact fun hmine => ⟨hmine.lt hi, fun hclosed => hclosed.2 hmine⟩

/-- Process `i` makes the next one. -/
theorem Wired.fork (h : Wired n s) (hi : i < n)
    (hphase : s.phase i = .forking) (hlast : i ≠ n - 1) :
    Wired n ((s.fork i).enter i (.initialising (initMyPipes n i))) := by
  have hchild : i + 1 < n := by omega
  have hunborn := h.fresh i hi hphase (i + 1) hchild (Nat.lt_succ_self i)
  obtain ⟨hentry, hopen⟩ := h.forking hi hphase
  have hchildEntry := h.unborn hchild hunborn
  have hself : ((s.fork i).enter i
      (.initialising (initMyPipes n i))).phase i =
        .initialising (initMyPipes n i) := Function.update_self _ _ _
  have hnext : ((s.fork i).enter i
      (.initialising (initMyPipes n i))).phase (i + 1) = .forking :=
    (Function.update_of_ne (Nat.succ_ne_self i) _ _).trans
      (Function.update_self _ _ _)
  have hother : ∀ j, j ≠ i → j ≠ i + 1 → ((s.fork i).enter i
      (.initialising (initMyPipes n i))).phase j = s.phase j :=
    fun j hj hj' => (Function.update_of_ne hj _ _).trans
      (Function.update_of_ne hj' _ _)
  refine ⟨h.ring, fun j hj => ?_, fun j hj hj' => ?_,
    fun j hj hj' k hk hlt => ?_⟩
  · show ProcessOk n j _ (s.ring.control j)
      (Function.update s.isOpen (i + 1) (s.isOpen i) j)
    by_cases heq : j = i
    · subst heq
      rw [hself, hentry, Function.update_of_ne (Nat.succ_ne_self j).symm]
      exact .initialising (List.nil_append _).symm
        fun e => by simpa using hopen e
    · by_cases heq' : j = i + 1
      · subst heq'
        rw [hnext, hchildEntry, Function.update_self]
        exact .forking hopen
      · rw [hother j heq heq', Function.update_of_ne heq']
        exact h.processes j hj
  · have heq : j ≠ i := by
      rintro rfl
      rw [hself] at hj'
      cases hj'
    have heq' : j ≠ i + 1 := by
      rintro rfl
      rw [hnext] at hj'
      cases hj'
    rw [hother j heq heq'] at hj'
    obtain ⟨k, hk, hforking⟩ := h.chain j hj hj'
    by_cases hki : k = i
    · exact ⟨i + 1, by omega, hnext⟩
    · have hki' : k ≠ i + 1 := by
        rintro rfl
        rw [hunborn] at hforking
        cases hforking
      exact ⟨k, hk, (hother k hki hki').trans hforking⟩
  · have heq : j ≠ i := by
      rintro rfl
      rw [hself] at hj'
      cases hj'
    by_cases heq' : j = i + 1
    · have hphase' := h.fresh i hi hphase k hk (by omega)
      exact (hother k (by omega) (by omega)).trans hphase'
    · -- no other process is about to fork
      rw [hother j heq heq'] at hj'
      rcases Nat.lt_or_gt_of_ne heq with hji | hij
      · rw [h.fresh j hj hj' i hi hji] at hphase
        cases hphase
      · rw [h.fresh i hi hphase j hj hij] at hj'
        cases hj'

/-- `cycleNumber` returns only at its end. -/
theorem left_of_return {control : Control}
    (h : cycleNumber i control = .return) : control = .left := by
  cases control with
  | left => rfl
  | entry =>
      rw [cycleNumber] at h
      split at h <;> cases h
  | loop number =>
      rw [cycleNumber] at h
      split at h <;> cases h
  | printed number =>
      rw [cycleNumber] at h
      split at h <;> cases h
  | reading => cases h
  | signalling number => cases h
  | lastReading => cases h

/-- **Every step keeps the invariant**; the steps that lose a process or a
number cannot be taken. -/
theorem Wired.step (hn : 2 ≤ n) (h : Wired n s) (hstep : Step n s s') :
    Wired n s' := by
  cases hstep with
  | fork hi hphase hlast => exact h.fork hi hphase hlast
  | @lastFork i hi hphase hlast =>
      obtain ⟨hentry, hopen⟩ := h.forking hi hphase
      refine h.enterOnly (by simp [hphase]) (fun _ => hlast) (by simp)
        (by simp) ?_
      rw [hentry]
      exact .initialising (List.nil_append _).symm
        fun e => by simpa using hopen e
  | initClose hi hphase => exact h.initClose hi hphase
  | initDone hi hphase => exact h.initDone hn hi hphase
  | @skip i next hi hphase haction =>
      exact h.ringStep hphase hi (h.ring.step hn (.skip hi haction))
        fun j hj => RingState.goto_of_ne _ _ hj _
  | @print i number next hi hphase haction =>
      exact h.ringStep hphase hi (h.ring.step hn (.print hi haction))
        fun j hj => RingState.goto_of_ne _ _ hj _
  | @write i integer next hi hphase haction hmine hreader =>
      exact h.ringStep hphase hi (h.ring.step hn (.write hi haction))
        fun j hj => RingState.goto_of_ne _ _ hj _
  | @writeKilled i integer next hi hphase haction hmine hreader =>
      exact absurd (h.reader hn hi haction) hreader
  | @writeClosed i integer next hi hphase haction hmine =>
      rw [(h.cycling hi hphase _).mpr (Or.inl rfl)] at hmine
      cases hmine
  | @read i next integer rest hi hphase haction hmine hpipe =>
      exact h.ringStep hphase hi (h.ring.step hn (.read hi haction hpipe))
        fun j hj => RingState.goto_of_ne _ _ hj _
  | @readEndOfFile i next integer hi hphase haction hmine hpipe hwriter =>
      exact absurd (h.writer hn hi haction hpipe) hwriter
  | @readClosed i next integer hi hphase haction hmine =>
      rw [(h.cycling hi hphase _).mpr (Or.inr rfl)] at hmine
      cases hmine
  | @cleanup i hi hphase haction =>
      refine h.enterOnly (by simp [hphase]) (by simp [hphase]) (by simp)
        (by simp) ?_
      rw [left_of_return haction]
      exact .cleaning
  | @cleanClose i pipeEnd todo hi hphase =>
      refine h.enter (by simp [hphase]) (by simp [hphase]) (by simp) (by simp)
        ?_
      rw [h.cleaning hi hphase]
      exact .cleaning
  | @exit i hi hphase hchild =>
      refine h.enter (by simp [hphase]) (by simp [hphase]) (by simp) (by simp)
        ?_
      rw [h.cleaning hi hphase]
      exact .exited

end Preserve

/-! ## Whole runs -/

section Runs

variable {n : Nat} {s : System}

theorem Wired.of_runs (hn : 2 ≤ n) (hruns : Runs (Step n) (.initial n) s) :
    Wired n s :=
  hruns.invariant (fun _ _ h hstep => h.step hn hstep) (Wired.initial n)

/-- **No end is closed too early.**  Whatever the order of the steps, a
process that writes to its pipe finds it open for reading in some process, a
process that reads from an empty pipe finds it open for writing in some
process, and no process is killed by a signal. -/
theorem cycleNumber_pipes_open (hn : 2 ≤ n)
    (hruns : Runs (Step n) (.initial n) s) :
    (∀ i < n, s.phase i = .cycling →
      ∀ integer next, s.action i = .write integer next →
        HeldOpen n s ⟨i, false⟩) ∧
    (∀ i < n, s.phase i = .cycling →
      ∀ next, s.action i = .read next →
        s.ring.pipe (myInputPipe n i) = [] →
          HeldOpen n s ⟨myInputPipe n i, true⟩) ∧
    ∀ i < n, s.phase i ≠ .killed := by
  have h := Wired.of_runs hn hruns
  exact ⟨fun i hi _ integer next hwrite => h.reader hn hi hwrite,
    fun i hi _ next hread hpipe => h.writer hn hi hread hpipe,
    fun i hi => h.not_killed hi⟩

/-- A process that closes its pipe ends gets through with it. -/
theorem runs_initialising (hi : i < n) (todo : List PipeEnd)
    (hphase : s.phase i = .initialising todo) :
    ∃ s', Runs (Step n) s s' ∧ s'.phase i = .cycling ∧
      (∀ j ≠ i, s'.phase j = s.phase j) ∧ s'.ring = s.ring := by
  induction todo generalizing s with
  | nil =>
      refine ⟨_, .single (.initDone hi hphase), ?_, fun j hj => ?_, rfl⟩
      · exact Function.update_self i _ _
      · exact Function.update_of_ne hj _ _
  | cons pipeEnd todo ih =>
      have hclose := Step.initClose hi hphase
      obtain ⟨s', hruns, hcycling, hothers, hring⟩ :=
        ih (s := (s.close i pipeEnd).enter i (.initialising todo))
          (Function.update_self i _ _)
      refine ⟨s', .head hclose hruns, hcycling, fun j hj => ?_, hring⟩
      rw [hothers j hj]
      exact Function.update_of_ne hj _ _

/-- The first `k` processes can be at `cycleNumber` before anything is sent,
and the next one about to fork. -/
theorem runs_started (k : Nat) (hk : k ≤ n) :
    ∃ s, Runs (Step n) (.initial n) s ∧ (∀ j < k, s.phase j = .cycling) ∧
      (k < n → s.phase k = .forking) ∧ s.ring = .initial := by
  induction k with
  | zero =>
      refine ⟨_, .refl, fun j hj => absurd hj (Nat.not_lt_zero j),
        fun _ => rfl, rfl⟩
  | succ k ih =>
      obtain ⟨s, hruns, hcycling, hforking, hring⟩ := ih (by omega)
      have hphase := hforking hk
      by_cases hlast : k = n - 1
      · obtain ⟨s', hinit, hself, hothers, hsame⟩ :=
          runs_initialising (s := s.enter k (.initialising (initMyPipes n k)))
            hk _ (Function.update_self k _ _)
        refine ⟨s', (hruns.tail (.lastFork hk hphase hlast)).trans hinit,
          fun j hj => ?_, fun hlt => by omega, hsame.trans hring⟩
        rcases Nat.lt_succ_iff_lt_or_eq.mp hj with hlt | rfl
        · rw [hothers j (by omega), ← hcycling j hlt]
          exact Function.update_of_ne (by omega) _ _
        · exact hself
      · obtain ⟨s', hinit, hself, hothers, hsame⟩ :=
          runs_initialising
            (s := (s.fork k).enter k (.initialising (initMyPipes n k)))
            hk _ (Function.update_self k _ _)
        refine ⟨s', (hruns.tail (.fork hk hphase hlast)).trans hinit,
          fun j hj => ?_, fun _ => ?_, hsame.trans hring⟩
        · rcases Nat.lt_succ_iff_lt_or_eq.mp hj with hlt | rfl
          · rw [hothers j (by omega), ← hcycling j hlt]
            exact (Function.update_of_ne (by omega) _ _).trans
              (Function.update_of_ne (by omega) _ _)
          · exact hself
        · rw [hothers (k + 1) (by omega)]
          exact (Function.update_of_ne (by omega) _ _).trans
            (Function.update_self (k + 1) _ _)

/-- Two processes, one about to write the first number and one reading from
the pipe that is still empty. -/
theorem cycleNumber_pipes_open_pair :
    ∃ s, Runs (Step 2) (.initial 2) s ∧
      s.action 0 = .write 1 .reading ∧ s.action 1 = .read .loop ∧
      s.ring.pipe 0 = [] ∧
      HeldOpen 2 s ⟨0, false⟩ ∧ HeldOpen 2 s ⟨0, true⟩ ∧
      ∀ i < 2, s.phase i ≠ .killed := by
  obtain ⟨⟨_, phase, isOpen⟩, hruns, hcycling, -, rfl⟩ :=
    runs_started 2 (Nat.le_refl 2)
  have hzero := hcycling 0 (by decide)
  have hone := hcycling 1 (by decide)
  have hentered := hruns.tail (.skip (i := 0) (by decide) hzero rfl)
  have hprinted := hentered.tail (.print (i := 0) (by decide) hzero rfl)
  have hreading := hprinted.tail (.skip (i := 1) (by decide) hone rfl)
  obtain ⟨hreaders, hwriters, hkilled⟩ :=
    cycleNumber_pipes_open (Nat.le_refl 2) hreading
  exact ⟨_, hreading, rfl, rfl, rfl, hreaders 0 (by decide) hzero _ _ rfl,
    hwriters 1 (by decide) hone _ rfl rfl, hkilled⟩

/-- A step of the program is a step of the ring, or leaves it alone. -/
theorem Wired.ring_step (hn : 2 ≤ n) (h : Wired n s) {s' : System}
    (hstep : Step n s s') :
    s'.ring = s.ring ∨ Ring.Step n s.ring s'.ring := by
  cases hstep with
  | fork => exact Or.inl rfl
  | lastFork => exact Or.inl rfl
  | initClose => exact Or.inl rfl
  | initDone => exact Or.inl rfl
  | skip hi _ haction => exact Or.inr (.skip hi haction)
  | print hi _ haction => exact Or.inr (.print hi haction)
  | write hi _ haction => exact Or.inr (.write hi haction)
  | writeKilled => exact Or.inl rfl
  | writeClosed hi hphase _ hmine =>
      rw [(h.cycling hi hphase _).mpr (Or.inl rfl)] at hmine
      cases hmine
  | read hi _ haction _ hpipe => exact Or.inr (.read hi haction hpipe)
  | readEndOfFile _ hi _ haction _ hpipe hwriter =>
      exact absurd (h.writer hn hi haction hpipe) hwriter
  | readClosed _ hi hphase _ hmine =>
      rw [(h.cycling hi hphase _).mpr (Or.inr rfl)] at hmine
      cases hmine
  | cleanup => exact Or.inl rfl
  | cleanClose => exact Or.inl rfl
  | exit => exact Or.inl rfl

/-- **The program runs the ring**: what is true of every run of the ring is
true of every run of the program. -/
theorem ring_runs (hn : 2 ≤ n) (hruns : Runs (Step n) (.initial n) s) :
    Runs (Ring.Step n) .initial s.ring := by
  induction hruns with
  | refl => exact .refl
  | tail hruns hlast ih =>
      rcases (Wired.of_runs hn hruns).ring_step hn hlast with hsame | hstep
      · rw [hsame]
        exact ih
      · exact ih.tail hstep

end Runs

end OsLabs.Lab1.RingShutdown
