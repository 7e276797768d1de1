import Mathlib.Algebra.GroupWithZero.Nat
import OsLabs.Iwish.Requests
import OsLabs.Iwish.Script

/-!
# Sessions are never stuck

What is left to do in a session is what is left of its input and, while none
of that is read, a weight: every job has only finitely many steps to take, and
the shell starts a new one only for a line it has read.  Of a program only its
reads and its end are steps of the session; whether it ever ends is left open.

`session_ends`: on any input, with any refused requests and in any order of
steps, a session takes finitely many steps, and where neither the shell nor a
handler can go on, each is through, waits for a program that runs, or has no
line to read.
-/

namespace OsLabs.Iwish.Progress

open OsLabs.Posix
open OsLabs.Iwish.DBA
open OsLabs.Iwish.ParserTokens
open OsLabs.Iwish.Grammar
open OsLabs.Iwish.Reader
open OsLabs.Iwish.LogicalLine
open OsLabs.Iwish.FrontEnd
open OsLabs.Iwish.JobHandler
open OsLabs.Iwish.Requests (nextLine_counts)
open OsLabs.Iwish.Shell
open OsLabs.Iwish.Sessions
open OsLabs.Iwish.Script

/-! ## Weights -/

/-- A sum after one of its terms has changed. -/
theorem sum_map_set {β : Type} (weight : β → Nat) {l : List β} {k : Nat}
    {a : β} (h : l[k]? = some a) (b : β) :
    ((l.set k b).map weight).sum + weight a =
      (l.map weight).sum + weight b := by
  induction l generalizing k with
  | nil => cases h
  | cons c l ih =>
      cases k with
      | zero =>
          cases h
          simp only [List.set_cons_zero, List.map_cons, List.sum_cons]
          omega
      | succ k =>
          have hrest := @ih k h
          simp only [List.set_cons_succ, List.map_cons, List.sum_cons]
          omega

/-! ## A job -/

/-- The steps left to a stage, and to the `wait` for it. -/
def stageWeight : ChildState → Nat
  | .running => 2
  | .zombie _ => 1
  | .gone _ => 0

/-- The steps left to a job handler, and to the stages it has still to
start. -/
def handlerWeight : HandlerState → Nat
  | .starting list => 3 * list.pipeline.simpleCommandList.length + 4
  | .spawning commands => 3 * commands.length + 3
  | .waiting _ => 2
  | .returned _ => 1
  | .exited _ => 0

def jobWeight (job : Job) : Nat :=
  handlerWeight job.handler + (job.stages.map stageWeight).sum

section Jobs

variable {job job' : Job} {noCldWait : Bool} {stages stages' : List ChildState}

theorem terminates_lowers (h : Terminates noCldWait stages stages') :
    (stages'.map stageWeight).sum < (stages.map stageWeight).sum := by
  rcases h with ⟨front, rest, status⟩
  have hended : stageWeight (.ended noCldWait status) < 2 := by
    cases noCldWait with
    | false => exact Nat.lt_succ_self 1
    | true => exact Nat.succ_pos 1
  simp only [List.map_append, List.map_cons, List.sum_append, List.sum_cons]
  rw [show stageWeight .running = 2 from rfl]
  omega

theorem waits_lowers {wstatus : WaitStatus}
    (h : Waits stages (some wstatus) stages') :
    (stages'.map stageWeight).sum < (stages.map stageWeight).sum := by
  cases h with
  | reaped front rest =>
      simp only [List.map_append, List.map_cons, List.sum_append,
        List.sum_cons, stageWeight]
      omega

theorem waits_none (h : Waits stages none stages') : stages' = stages := by
  cases h with
  | noChild => rfl

/-- Every step of a job brings its end nearer. -/
theorem jobStep_lowers (h : JobStep noCldWait job job') :
    jobWeight job' < jobWeight job := by
  unfold jobWeight
  cases h with
  | start list stages =>
      simp only [handlerWeight]
      omega
  | refuse list stages =>
      simp only [handlerWeight]
      omega
  | spawn node next stages =>
      simp only [handlerWeight, List.map_append, List.sum_append,
        List.length_cons, List.map_cons, List.map_nil, List.sum_cons,
        List.sum_nil, stageWeight]
      omega
  | spawned stages =>
      simp only [handlerWeight, List.length_nil]
      omega
  | reap exitstatus hwaits => exact Nat.add_lt_add_left (waits_lowers hwaits) _
  | noMoreChildren exitstatus hwaits =>
      rw [waits_none hwaits]
      simp only [handlerWeight]
      omega
  | exit exitstatus stages =>
      simp only [handlerWeight]
      omega
  | stageEnds handler hends =>
      exact Nat.add_lt_add_left (terminates_lowers hends) _

/-- A handler in its `wait` loop, for a stage that runs. -/
def WaitsForStage (job : Job) : Prop :=
  (∃ exitstatus, job.handler = .waiting exitstatus) ∧ .running ∈ job.stages

/-- A handler can go on, unless it is gone or waits for a stage. -/
theorem exists_handlerStep (hinv : job.Inv)
    (hgone : ∀ exitstatus, job.handler ≠ .exited exitstatus)
    (hwaits : ¬ WaitsForStage job) :
    ∃ job', JobStep mainNoCldWait job job' ∧ job'.handler ≠ job.handler := by
  obtain ⟨handler, stages⟩ := job
  cases handler with
  | starting list =>
      exact ⟨_, .refuse list stages, HandlerState.noConfusion⟩
  | spawning commands =>
      cases commands with
      | nil => exact ⟨_, .spawned stages, HandlerState.noConfusion⟩
      | cons node next =>
          refine ⟨_, .spawn node next stages, fun heq => ?_⟩
          cases heq
  | waiting exitstatus =>
      have hall : AllGone stages := by
        intro child hchild
        cases child with
        | running => exact absurd ⟨⟨exitstatus, rfl⟩, hchild⟩ hwaits
        | zombie status => exact absurd rfl (hinv.noZombie _ hchild status)
        | gone status => exact ⟨status, rfl⟩
      exact ⟨_, .noMoreChildren exitstatus (.noChild hall),
        HandlerState.noConfusion⟩
  | returned exitstatus =>
      exact ⟨_, .exit exitstatus stages, HandlerState.noConfusion⟩
  | exited exitstatus => exact absurd rfl (hgone exitstatus)

end Jobs

/-! ## A line is taken off the input -/

section Lines

variable {fails : FailurePlan} {fuel : Nat} {stdin rest : List UInt8}
  {heap heap' : Heap}

theorem append_stream {r r' : Reading} {c : UInt8}
    (h : r.append fails c = .ok r') : r'.stream = r.stream := by
  obtain ⟨⟨status, string, heap⟩, -, h⟩ := except_bind_eq_ok.mp h
  cases h
  rfl

theorem fgetc_le (stream : List UInt8) :
    (fgetc stream).2.length ≤ stream.length := by
  cases stream with
  | nil => exact Nat.le_refl _
  | cons c stream => exact Nat.le_succ _

/-- The loop of `readInput` ends behind a newline. -/
theorem readLoop_consumes {r r' : Reading}
    (h : readLoop fails fuel r = .ok r') :
    r'.stream.length < r.stream.length := by
  induction fuel generalizing r with
  | zero => cases h
  | succ fuel ih =>
      have hle := fgetc_le r.stream
      have hle' := fgetc_le (fgetc r.stream).2
      unfold readLoop at h
      simp only at h
      by_cases hnewline : (fgetc r.stream).1 = newline
      · rw [if_pos hnewline] at h
        cases h
        cases hstream : r.stream with
        | nil =>
            rw [hstream] at hnewline
            cases hnewline
        | cons c stream => exact Nat.lt_succ_self _
      · rw [if_neg hnewline] at h
        by_cases hbackslash : (fgetc r.stream).1 = backslash
        · rw [if_pos hbackslash] at h
          by_cases hescape : (fgetc (fgetc r.stream).2).1 ≠ newline
          · rw [if_pos hescape] at h
            obtain ⟨r₁, h₁, h⟩ := except_bind_eq_ok.mp h
            obtain ⟨r₂, h₂, h⟩ := except_bind_eq_ok.mp h
            obtain ⟨r₃, h₃, h⟩ := except_bind_eq_ok.mp h
            have hrest := ih h
            rw [append_stream h₃, append_stream h₂, append_stream h₁] at hrest
            simp only at hrest
            omega
          · rw [if_neg hescape] at h
            have hrest := ih h
            simp only at hrest
            omega
        · rw [if_neg hbackslash] at h
          obtain ⟨r₁, h₁, h⟩ := except_bind_eq_ok.mp h
          have hrest := ih h
          rw [append_stream h₁] at hrest
          simp only at hrest
          omega

theorem readInput_consumes {input : Option (Block UInt8)}
    (h : readInput fails fuel stdin heap = .ok (input, rest, heap')) :
    rest.length ≤ stdin.length ∧
      (input ≠ none → rest.length < stdin.length) := by
  unfold readInput at h
  rcases hnew : makeNewDynamicByteArray (β := UInt8) fails 1 heap with
    ⟨_ | string, heap₁⟩
  · rw [hnew] at h
    cases h
    exact ⟨Nat.le_refl _, fun hne => absurd rfl hne⟩
  · rw [hnew] at h
    obtain ⟨r, hloop, h⟩ := except_bind_eq_ok.mp h
    obtain ⟨r', happend, h⟩ := except_bind_eq_ok.mp h
    cases h
    have hless := readLoop_consumes hloop
    rw [append_stream happend]
    exact ⟨Nat.le_of_lt hless, fun _ => hless⟩

/-- The body of the loop of `main` takes a line off the input, or exits. -/
theorem nextLine_consumes {outcome : LineOutcome}
    (h : nextLine fails fuel stdin heap = .ok (outcome, rest, heap')) :
    rest.length ≤ stdin.length ∧
      ((∀ status, outcome ≠ .exit status) → rest.length < stdin.length) := by
  unfold nextLine at h
  obtain ⟨⟨_ | input, stdin₁, heap₁⟩, hread, h⟩ := except_bind_eq_ok.mp h
  · cases h
    exact ⟨(readInput_consumes hread).1, fun hne => absurd rfl (hne _)⟩
  · have hless := (readInput_consumes hread).2 (Option.some_ne_none _)
    suffices hsame : rest = stdin₁ by
      rw [hsame]
      exact ⟨Nat.le_of_lt hless, fun _ => hless⟩
    obtain ⟨⟨_ | strings, input', heap₂⟩, -, h⟩ := except_bind_eq_ok.mp h
    · cases h
      rfl
    · obtain ⟨sentence, -, h⟩ := except_bind_eq_ok.mp h
      split at h
      · cases h
        rfl
      · obtain ⟨⟨_ | list, heap₃⟩, -, h⟩ := except_bind_eq_ok.mp h
        · cases h
          rfl
        · cases h
          rfl

end Lines

/-! ## A session -/

/-- The steps left to the shell before it is back at the prompt, or gone. -/
def shellWeight : ShellState → Nat
  | .prompt => 1
  | .forked _ _ => 3
  | .waiting _ _ => 2
  | .exited _ => 0
  | .crashed _ => 0

def recordWeight (record : JobRecord) : Nat := jobWeight record.job

def sessionWeight (s : Session) : Nat :=
  shellWeight s.shell + (s.jobs.map recordWeight).sum

section Sessions

variable {fails : FailurePlan} {s s' : Session}

/-- A step reads some of the input, or brings the end of what is running
nearer, or is a stage that reads nothing. -/
theorem sessionStep_lowers (h : SessionStep fails s s') (hne : s' ≠ s) :
    s'.stdin.length < s.stdin.length ∨ s'.stdin.length = s.stdin.length ∧
      sessionWeight s' < sessionWeight s := by
  cases h with
  | exit hshell hline =>
      rcases Nat.lt_or_eq_of_le (nextLine_consumes hline).1 with hless | heq
      · exact Or.inl hless
      · refine Or.inr ⟨heq, ?_⟩
        simp only [sessionWeight, hshell, shellWeight]
        omega
  | crash hshell hline hfault =>
      refine Or.inr ⟨rfl, ?_⟩
      simp only [sessionWeight, hshell, shellWeight]
      omega
  | invalid hshell hline =>
      exact Or.inl
        ((nextLine_consumes hline).2 fun _ => LineOutcome.noConfusion)
  | fork hshell hline =>
      exact Or.inl
        ((nextLine_consumes hline).2 fun _ => LineOutcome.noConfusion)
  | noFork hshell hline =>
      exact Or.inl
        ((nextLine_consumes hline).2 fun _ => LineOutcome.noConfusion)
  | background hshell hflag =>
      refine Or.inr ⟨rfl, ?_⟩
      simp only [sessionWeight, Session.done, hshell, shellWeight]
      omega
  | foreground hshell hflag =>
      refine Or.inr ⟨rfl, ?_⟩
      simp only [sessionWeight, hshell, shellWeight]
      omega
  | waited hshell hrecord hexited =>
      refine Or.inr ⟨rfl, ?_⟩
      simp only [sessionWeight, Session.done, hshell, shellWeight]
      omega
  | @job pid record job hrecord hstep =>
      refine Or.inr ⟨rfl, ?_⟩
      have hless := jobStep_lowers hstep
      have hsum := sum_map_set recordWeight hrecord { record with job := job }
      simp only [recordWeight] at hsum
      simp only [sessionWeight]
      omega
  | @stageReads front taken rest record hrecord hrunning hstdin =>
      cases taken with
      | nil =>
          rw [List.append_nil] at hstdin
          exact absurd (by rw [← hstdin]) hne
      | cons c taken =>
          left
          simp only [hstdin, List.length_append, List.length_cons]
          omega

/-- The job that the shell holds has been started. -/
def HoldsStarted (s : Session) : Prop :=
  ∀ pid, s.shell.Holds pid → pid < s.jobs.length

theorem holdsStarted_step (h : HoldsStarted s)
    (hstep : SessionStep fails s s') : HoldsStarted s' := by
  cases hstep with
  | exit hshell hline => exact fun _ hholds => hholds.elim
  | crash hshell hline hfault => exact fun _ hholds => hholds.elim
  | invalid hshell hline => exact fun _ hholds => hholds.elim
  | fork hshell hline =>
      rintro pid rfl
      rw [List.length_append]
      exact Nat.lt_succ_self _
  | noFork hshell hline => exact fun _ hholds => hholds.elim
  | background hshell hflag => exact fun _ hholds => hholds.elim
  | foreground hshell hflag =>
      rintro pid rfl
      exact h _ (by rw [hshell]; exact rfl)
  | waited hshell hrecord hexited => exact fun _ hholds => hholds.elim
  | job hrecord hstep =>
      intro pid hholds
      rw [List.length_set]
      exact h pid hholds
  | stageReads hrecord hrunning hstdin => exact h

/-- What is up to the programs: a stage ends, or takes some of the input. -/
inductive ProgramStep : Session → Session → Prop
  | ends {s : Session} {pid : Nat} {record : JobRecord}
      {stages : List ChildState} (hrecord : s.jobs[pid]? = some record)
      (hends : Terminates mainNoCldWait record.job.stages stages) :
      ProgramStep s { s with
        jobs := s.jobs.set pid
          { record with job := ⟨record.job.handler, stages⟩ } }
  | reads {s : Session} {front taken rest : List UInt8} {record : JobRecord}
      (hrecord : record ∈ s.jobs) (hrunning : .running ∈ record.job.stages)
      (hstdin : s.stdin = front ++ taken ++ rest) :
      ProgramStep s { s with stdin := front ++ rest }

theorem ProgramStep.sessionStep (h : ProgramStep s s') :
    SessionStep fails s s' := by
  cases h with
  | ends hrecord hends =>
      exact .job hrecord (.stageEnds _ hends)
  | reads hrecord hrunning hstdin => exact .stageReads hrecord hrunning hstdin

theorem ProgramStep.shell (h : ProgramStep s s') : s'.shell = s.shell := by
  cases h <;> rfl

theorem ProgramStep.heap (h : ProgramStep s s') : s'.heap = s.heap := by
  cases h <;> rfl

/-- Where the handler of a job is. -/
def handlerOf (jobs : List JobRecord) (pid : Nat) : Option HandlerState :=
  jobs[pid]?.map fun record => record.job.handler

theorem handlerOf_set {jobs : List JobRecord} {pid : Nat}
    {record new : JobRecord} (h : jobs[pid]? = some record) :
    handlerOf (jobs.set pid new) pid = some new.job.handler := by
  obtain ⟨hlt, -⟩ := List.getElem?_eq_some_iff.mp h
  rw [handlerOf, List.getElem?_set_self hlt]
  rfl

/-- The programs leave the handlers where they are. -/
theorem ProgramStep.handlers (h : ProgramStep s s') (pid : Nat) :
    handlerOf s'.jobs pid = handlerOf s.jobs pid := by
  cases h with
  | @ends other record stages hrecord hends =>
      by_cases heq : other = pid
      · subst heq
        rw [handlerOf_set hrecord, handlerOf, hrecord]
        rfl
      · rw [handlerOf, handlerOf, List.getElem?_set_ne heq]
  | reads hrecord hrunning hstdin => rfl

/-- Where only programs can take a step, every handler is through or waits for
a stage of its own. -/
theorem stopped_jobs (hinv : s.Inv)
    (hstop : ∀ s', SessionStep fails s s' → ProgramStep s s') :
    ∀ record ∈ s.jobs,
      (∃ exitstatus, record.job.handler = .exited exitstatus) ∨
        WaitsForStage record.job := by
  intro record hrecord
  by_contra hneither
  obtain ⟨hgone, hwaits⟩ := not_or.mp hneither
  obtain ⟨pid, hpid⟩ := List.mem_iff_getElem?.mp hrecord
  obtain ⟨job, hstep, hmoves⟩ := exists_handlerStep (hinv.job record hrecord)
    (fun exitstatus heq => hgone ⟨exitstatus, heq⟩) hwaits
  have hsame := (hstop _ (.job hpid hstep)).handlers pid
  rw [handlerOf_set hpid, handlerOf, hpid] at hsame
  exact hmoves (Option.some.inj hsame)

/-- And the shell is gone, waits for a handler, or cannot read a line. -/
theorem stopped_shell (hinv : s.Inv) (hstarted : HoldsStarted s)
    (hstop : ∀ s', SessionStep fails s s' → ProgramStep s s') :
    (∃ status, s.shell = .exited status) ∨
      (∃ fault, s.shell = .crashed fault) ∨
      (∃ pid command record, s.shell = .waiting pid command ∧
        s.jobs[pid]? = some record ∧ WaitsForStage record.job) ∨
      s.shell = .prompt ∧ ∀ fuel,
        nextLine fails fuel s.stdin s.heap = .error .outOfFuel := by
  have hshell_stays : ∀ s', SessionStep fails s s' → s'.shell = s.shell :=
    fun s' hstep => (hstop s' hstep).shell
  cases hshell : s.shell with
  | exited status => exact Or.inl ⟨status, rfl⟩
  | crashed fault => exact Or.inr (Or.inl ⟨fault, rfl⟩)
  | forked pid command =>
      by_cases hflag : command.list.hasDaemonAmpersand = 0
      · cases (hshell_stays _ (.foreground hshell hflag)).trans hshell
      · cases (hshell_stays _ (.background hshell hflag)).trans hshell
  | waiting pid command =>
      have hlt := hstarted pid (by rw [hshell]; exact rfl)
      have hrecord := List.getElem?_eq_getElem hlt
      rcases stopped_jobs hinv hstop _ (List.getElem_mem hlt) with
        ⟨exitstatus, hexited⟩ | hwaits
      · cases (hshell_stays _ (.waited hshell hrecord hexited)).trans hshell
      · exact Or.inr (Or.inr (Or.inl ⟨pid, command, _, rfl, hrecord, hwaits⟩))
  | prompt =>
      refine Or.inr (Or.inr (Or.inr ⟨rfl, fun fuel => ?_⟩))
      cases hline : nextLine fails fuel s.stdin s.heap with
      | error fault =>
          by_contra hfault
          cases (hshell_stays _ (.crash hshell hline fun heq =>
            hfault (congrArg Except.error heq))).trans hshell
      | ok result =>
          obtain ⟨outcome, stdin, heap⟩ := result
          cases outcome with
          | exit status =>
              cases (hshell_stays _ (.exit hshell hline)).trans hshell
          | invalid =>
              -- the shell has made a request for the line
              have hheap : heap = s.heap :=
                (hstop _ (.invalid hshell hline)).heap
              have hcounts := nextLine_counts hline
              rw [hheap] at hcounts
              exact absurd hcounts (Nat.lt_irrefl _)
          | run command =>
              cases (hshell_stays _ (.fork hshell hline)).trans hshell

/-- While there is a line to be read the shell reads it. -/
theorem no_line {stdin : List UInt8} {heap : Heap}
    (h : ∀ fuel, nextLine noFailures fuel stdin heap = .error .outOfFuel) :
    logicalLine stdin = none := by
  cases hline : logicalLine stdin with
  | none => rfl
  | some line =>
      obtain ⟨text, rest⟩ := line
      obtain ⟨tokens, htokens⟩ := exists_tokens (runs isSpace (cString text))
        fun run hrun hmem => cString_nulFree text (mem_of_mem_runs hrun hmem)
      have htyped : Typed stdin tokens rest := ⟨text, hline, htokens⟩
      obtain ⟨outcome, heap', hnext, -⟩ :=
        nextLine_typed htyped (Nat.lt_succ_self _) heap
      cases (h _).symm.trans hnext

/-- **A session takes finitely many steps, and nobody waits in vain.**  On any
input, whichever requests are refused, and in whatever order the shell, the
job handlers and the programs take their steps, no session has infinitely many
of them, other than reads that take nothing.  Where only programs can take a
step, every handler that is not gone waits for a stage of its own that runs,
and the shell is gone, waits for such a handler, or is at the prompt with an
input from which it can read no more lines.  Without refusals that is an input
without a complete line. -/
theorem session_ends (fails : FailurePlan) (stdin : List UInt8) (heap : Heap) :
    (¬ ∃ run : Nat → Session, run 0 = .initial stdin heap ∧
      ∀ k, SessionStep fails (run k) (run (k + 1)) ∧ run (k + 1) ≠ run k) ∧
    ∀ s, Runs (SessionStep fails) (.initial stdin heap) s →
      (∀ s', SessionStep fails s s' → ProgramStep s s') →
      (∀ record ∈ s.jobs,
        (∃ exitstatus, record.job.handler = .exited exitstatus) ∨
          WaitsForStage record.job) ∧
      ((∃ status, s.shell = .exited status) ∨
        (∃ fault, s.shell = .crashed fault) ∨
        (∃ pid command record, s.shell = .waiting pid command ∧
          s.jobs[pid]? = some record ∧ WaitsForStage record.job) ∨
        s.shell = .prompt ∧
          (∀ fuel, nextLine fails fuel s.stdin s.heap = .error .outOfFuel) ∧
          (fails = noFailures → logicalLine s.stdin = none)) := by
  constructor
  · rintro ⟨run, -, hrun⟩
    have hlower : ∀ s s', SessionStep fails s s' ∧ s' ≠ s → _ :=
      fun _ _ hstep => sessionStep_lowers hstep.1 hstep.2
    exact Runs.no_infinite_lex (fun s => s.stdin.length) sessionWeight hlower
      run hrun
  · intro s hruns hstop
    have hinv : s.Inv := hruns.invariant (fun _ _ h hstep => h.step hstep)
      (Session.inv_initial stdin heap)
    have hstarted : HoldsStarted s :=
      hruns.invariant (fun _ _ h hstep => holdsStarted_step h hstep)
        fun _ hholds => hholds.elim
    refine ⟨stopped_jobs hinv hstop, ?_⟩
    rcases stopped_shell hinv hstarted hstop with
      hexited | hcrashed | hwaits | ⟨hprompt, hbusy⟩
    · exact Or.inl hexited
    · exact Or.inr (Or.inl hcrashed)
    · exact Or.inr (Or.inr (Or.inl hwaits))
    · refine Or.inr (Or.inr (Or.inr ⟨hprompt, hbusy, ?_⟩))
      rintro rfl
      exact no_line hbusy

end Sessions

end OsLabs.Iwish.Progress
