import OsLabs.Iwish.Arguments
import OsLabs.Iwish.JobHandler
import OsLabs.Iwish.Reader

/-!
# A session of the iwish shell

`main` and `interpretInput`: the shell reads a line, forks a job handler for
it and waits for that handler unless the line ends in `&`.  A session is the
shell together with all the jobs it has started; the shell, the handlers and
the stages take their steps in any order.  `pipe` and `fork` succeed in the
handlers.  The standard input cannot be sought back, as a terminal or a pipe
cannot: what has been taken from it, by the shell or by a program, is gone.

`prompt_background`: whenever the shell is about to read a line, everything
that still runs belongs to a line that ended in `&`.
-/

namespace OsLabs.Iwish.Shell

open OsLabs.Posix
open OsLabs.Iwish.DBA
open OsLabs.Iwish.ParserTokens
open OsLabs.Iwish.Parser
open OsLabs.Iwish.Grammar
open OsLabs.Iwish.ParserSpec
open OsLabs.Iwish.PipelineSpec
open OsLabs.Iwish.ParseTree
open OsLabs.Iwish.ParserOutcome
open OsLabs.Iwish.Arguments
open OsLabs.Iwish.Reader
open OsLabs.Iwish.JobHandler

/-! ## What the shell does with a line -/

/-- A line that has been accepted, with what `main` has allocated for it. -/
structure Command where
  input : Block UInt8
  strings : Strings
  sentence : List CString
  list : SimpleList
  deriving Repr, DecidableEq

/-- `free(strings); free(input);` -/
def freeLine (strings : Strings) (input : Block UInt8) (heap : Heap) : Heap :=
  (heap.free strings.id).free input.id

/-- What comes of a line: `main` exits or leaves its loop, it goes on to the
next line, or `interpretInput` is about to fork. -/
inductive LineOutcome where
  | exit (status : Int)
  | invalid
  | run (command : Command)
  deriving Repr, DecidableEq

section

variable (fails : FailurePlan)

/-- `interpretInput` up to `safelyFork`: the list, or `none` for an invalid
input. -/
def interpretInputList (sentence : List CString) (heap : Heap) :
    Except Fault (Option SimpleList × Heap) := do
  match makeNewSimpleList fails heap with
  | (none, heap) =>
    match ← pointerAt sentence 0 with
    | none => return (none, freeSimpleList none heap)
    | some _ => throw .nullDereference
  | (some list, heap) =>
    let (isValidInput, list, heap) ← parseInput fails sentence list heap
    if isValidInput then return (some list, heap)
    else return (none, freeSimpleList (some list) heap)

/-- The body of the loop of `main`, up to `safelyFork`. -/
def nextLine (fuel : Nat) (stdin : List UInt8) (heap : Heap) :
    Except Fault (LineOutcome × List UInt8 × Heap) := do
  let (input, stdin, heap) ← readInput fails fuel stdin heap
  match input with
  | none => return (.exit exitFailure, stdin, heap)
  | some input =>
    let (strings, input, heap) ← tokenise fails input heap
    match strings with
    | none => return (.exit exitFailure, stdin, heap.free input.id)
    | some strings =>
      let sentence ← loadSentence input strings
      if stringIsExitKeyword sentence[0]? ∧ sentence[1]? = none then
        return (.exit exitSuccess, stdin, freeLine strings input heap)
      else
        let (list, heap) ← interpretInputList fails sentence heap
        match list with
        | none => return (.invalid, stdin, freeLine strings input heap)
        | some list =>
          return (.run ⟨input, strings, sentence, list⟩, stdin, heap)

end

/-! ## Sessions -/

/-- Where the shell is: about to call `readInput`, back from `safelyFork` with
the process number of a job handler, in `waitpid`, or gone. -/
inductive ShellState where
  | prompt
  | forked (pid : Nat) (command : Command)
  | waiting (pid : Nat) (command : Command)
  | exited (status : Int)
  | crashed (fault : Fault)
  deriving Repr, DecidableEq

/-- A job and the line it was started for. -/
structure JobRecord where
  sentence : List CString
  job : Job
  deriving Repr, DecidableEq

/-- The shell, what is still to be read, its heap, and its jobs in the order
of their creation; process numbers are positions there. -/
structure Session where
  shell : ShellState
  stdin : List UInt8
  heap : Heap
  jobs : List JobRecord

/-- The shell before its first line. -/
def Session.initial (stdin : List UInt8) (heap : Heap) : Session :=
  ⟨.prompt, stdin, heap, []⟩

/-- A job handler fresh from `fork`. -/
def Command.forked (command : Command) : JobRecord :=
  ⟨command.sentence, ⟨.starting command.list, []⟩⟩

/-- Back at the head of the loop of `main`. -/
def Session.done (s : Session) (command : Command) : Session :=
  { s with
    shell := .prompt
    heap := freeLine command.strings command.input s.heap }

/-- One step of the shell, of a job handler or of a stage. -/
inductive SessionStep (fails : FailurePlan) : Session → Session → Prop
  /-- `exit`, or the end of `main`. -/
  | exit {s : Session} {fuel : Nat} {status : Int} {stdin : List UInt8}
      {heap : Heap} (hshell : s.shell = .prompt)
      (hline : nextLine fails fuel s.stdin s.heap =
        .ok (.exit status, stdin, heap)) :
      SessionStep fails s ⟨.exited status, stdin, heap, s.jobs⟩
  /-- A line with undefined behaviour.  The loop of `readInput` that never
  ends is no step. -/
  | crash {s : Session} {fuel : Nat} {fault : Fault}
      (hshell : s.shell = .prompt)
      (hline : nextLine fails fuel s.stdin s.heap = .error fault)
      (hfault : fault ≠ .outOfFuel) :
      SessionStep fails s { s with shell := .crashed fault }
  /-- `printf("error: invalid input\n");` -/
  | invalid {s : Session} {fuel : Nat} {stdin : List UInt8} {heap : Heap}
      (hshell : s.shell = .prompt)
      (hline : nextLine fails fuel s.stdin s.heap =
        .ok (.invalid, stdin, heap)) :
      SessionStep fails s ⟨.prompt, stdin, heap, s.jobs⟩
  /-- `fork` succeeds. -/
  | fork {s : Session} {fuel : Nat} {command : Command} {stdin : List UInt8}
      {heap : Heap} (hshell : s.shell = .prompt)
      (hline : nextLine fails fuel s.stdin s.heap =
        .ok (.run command, stdin, heap)) :
      SessionStep fails s ⟨.forked s.jobs.length command, stdin, heap,
        s.jobs ++ [command.forked]⟩
  /-- `printf("error: could not fork. exiting shell\n");` -/
  | noFork {s : Session} {fuel : Nat} {command : Command}
      {stdin : List UInt8} {heap : Heap} (hshell : s.shell = .prompt)
      (hline : nextLine fails fuel s.stdin s.heap =
        .ok (.run command, stdin, heap)) :
      SessionStep fails s ⟨.exited exitFailure, stdin,
        freeLine command.strings command.input
          (freeSimpleList (some command.list) heap), s.jobs⟩
  /-- A line that ends in `&` is not waited for. -/
  | background {s : Session} {pid : Nat} {command : Command}
      (hshell : s.shell = .forked pid command)
      (hflag : command.list.hasDaemonAmpersand ≠ 0) :
      SessionStep fails s (s.done command)
  /-- `waitpid` is called. -/
  | foreground {s : Session} {pid : Nat} {command : Command}
      (hshell : s.shell = .forked pid command)
      (hflag : command.list.hasDaemonAmpersand = 0) :
      SessionStep fails s { s with shell := .waiting pid command }
  /-- `waitpid` returns, not before the handler it waits for is gone.  An
  implementation may also wait for the other handlers, which leaves fewer
  runs. -/
  | waited {s : Session} {pid : Nat} {command : Command} {record : JobRecord}
      {exitstatus : Int} (hshell : s.shell = .waiting pid command)
      (hrecord : s.jobs[pid]? = some record)
      (hexited : record.job.handler = .exited exitstatus) :
      SessionStep fails s (s.done command)
  /-- A job handler or one of its stages takes a step. -/
  | job {s : Session} {pid : Nat} {record : JobRecord} {job : Job}
      (hrecord : s.jobs[pid]? = some record)
      (hstep : JobStep mainNoCldWait record.job job) :
      SessionStep fails s
        { s with jobs := s.jobs.set pid { record with job := job } }
  /-- A stage takes some of the input, which it shares with the shell.  What
  lies before it is in the buffer of the shell already, or begins a line that
  the shell is reading. -/
  | stageReads {s : Session} {front taken rest : List UInt8}
      {record : JobRecord} (hrecord : record ∈ s.jobs)
      (hrunning : .running ∈ record.job.stages)
      (hstdin : s.stdin = front ++ taken ++ rest) :
      SessionStep fails s { s with stdin := front ++ rest }

/-! ## The flag says whether the line ends in `&` -/

section Flag

variable {fails : FailurePlan}

/-- The flag of an accepted list, whichever requests were refused. -/
theorem parseInput_flag {sentence : List CString} {list list' : SimpleList}
    {heap₀ heap heap' : Heap}
    (hnew : makeNewSimpleList fails heap₀ = (some list, heap))
    (hparse : parseInput fails sentence list heap = .ok (true, list', heap')) :
    list'.hasDaemonAmpersand = if endsInAmpersand sentence then 1 else 0 := by
  obtain ⟨line, rfl⟩ := parseInput_sound hparse
  have houtcome := parseInput_outcome fails line hnew
  cases hlost : lineOutcome fails line heap.calls with
  | none =>
      simp only [hlost] at houtcome
      exact absurd hparse (houtcome list' heap')
  | some lost =>
      simp only [hlost] at houtcome
      obtain ⟨list'', heap'', haccept, hflag, -⟩ := houtcome
      rw [hparse] at haccept
      cases haccept
      rw [endsInAmpersand_tokens]
      exact hflag

theorem interpretInputList_flag {sentence : List CString} {list : SimpleList}
    {heap heap' : Heap}
    (h : interpretInputList fails sentence heap = .ok (some list, heap')) :
    list.hasDaemonAmpersand = if endsInAmpersand sentence then 1 else 0 := by
  unfold interpretInputList at h
  rcases hnew : makeNewSimpleList fails heap with ⟨_ | list₀, heap₁⟩
  · -- without a list nothing is accepted
    simp only [hnew] at h
    obtain ⟨token, -, h⟩ := except_bind_eq_ok.mp h
    cases token <;> cases h
  · simp only [hnew] at h
    obtain ⟨⟨accepted, list₁, heap₂⟩, hparse, h⟩ := except_bind_eq_ok.mp h
    cases accepted with
    | false => cases h
    | true =>
        cases h
        exact parseInput_flag hnew hparse

theorem nextLine_flag {fuel : Nat} {stdin stdin' : List UInt8}
    {heap heap' : Heap} {command : Command}
    (h : nextLine fails fuel stdin heap = .ok (.run command, stdin', heap')) :
    command.list.hasDaemonAmpersand =
      if endsInAmpersand command.sentence then 1 else 0 := by
  unfold nextLine at h
  obtain ⟨⟨_ | input, stdin₁, heap₁⟩, -, h⟩ := except_bind_eq_ok.mp h
  · cases h
  · obtain ⟨⟨_ | strings, input', heap₂⟩, -, h⟩ := except_bind_eq_ok.mp h
    · cases h
    · obtain ⟨sentence, -, h⟩ := except_bind_eq_ok.mp h
      split at h
      · cases h
      · obtain ⟨⟨_ | list, heap₃⟩, hlist, h⟩ := except_bind_eq_ok.mp h
        · cases h
        · cases h
          exact interpretInputList_flag hlist

end Flag

/-! ## The invariant -/

section Invariant

variable {s s' : Session}

/-- A job that the shell may leave behind: its line ends in `&`, or its
handler is gone. -/
def JobRecord.Settled (record : JobRecord) : Prop :=
  endsInAmpersand record.sentence = true ∨
    ∃ exitstatus, record.job.handler = .exited exitstatus

/-- The shell has not yet decided about job `pid`, or is waiting for it. -/
def ShellState.Holds (pid : Nat) : ShellState → Prop
  | .prompt => False
  | .forked held _ => held = pid
  | .waiting held _ => held = pid
  | .exited _ => False
  | .crashed _ => False

/-- The invariant of a session: each job has the invariant of jobs, the shell
has left behind only what it may, and the flag that it is about to test is
true to the line. -/
structure Session.Inv (s : Session) : Prop where
  job : ∀ record ∈ s.jobs, record.job.Inv
  settled : ∀ pid record, s.jobs[pid]? = some record →
    ¬ s.shell.Holds pid → record.Settled
  flag : ∀ pid command record, s.shell = .forked pid command →
    s.jobs[pid]? = some record → command.list.hasDaemonAmpersand ≠ 0 →
    endsInAmpersand record.sentence = true

/-- A job that is settled and keeps the invariant of jobs runs in the
background, if at all. -/
theorem JobRecord.Settled.background {record : JobRecord}
    (hsettled : record.Settled) (hinv : record.job.Inv)
    (hrunning : record.job.Running) :
    endsInAmpersand record.sentence = true := by
  rcases hsettled with hdaemon | ⟨exitstatus, hexited⟩
  · exact hdaemon
  · rcases hrunning with hhandler | hstage
    · exact absurd hexited (hhandler exitstatus)
    · -- a handler that is gone has outlived its stages
      have hgone : AllGone record.job.stages := by
        have hestablished := hinv.established
        rw [hexited] at hestablished
        exact hestablished
      obtain ⟨status, hstatus⟩ := hgone .running hstage
      cases hstatus

theorem Session.inv_initial (stdin : List UInt8) (heap : Heap) :
    (Session.initial stdin heap).Inv := by
  refine ⟨?_, ?_, ?_⟩
  · intro record hrecord
    exact absurd hrecord List.not_mem_nil
  · intro pid record hrecord
    cases hrecord
  · intro pid command record hshell
    cases hshell

/-- A step in which the jobs stay as they are, and the shell lets go of none
that is not settled. -/
theorem Session.Inv.shell (h : s.Inv) (hjobs : s'.jobs = s.jobs)
    (hforked : ∀ pid command, s'.shell ≠ .forked pid command)
    (hrelease : ∀ pid record, s.jobs[pid]? = some record →
      s.shell.Holds pid → ¬ s'.shell.Holds pid → record.Settled) :
    s'.Inv := by
  refine ⟨?_, ?_, ?_⟩
  · rw [hjobs]
    exact h.job
  · intro pid record hrecord hfree
    rw [hjobs] at hrecord
    by_cases hheld : s.shell.Holds pid
    · exact hrelease pid record hrecord hheld hfree
    · exact h.settled pid record hrecord hheld
  · intro pid command record hshell
    exact absurd hshell (hforked pid command)

/-- A step from the prompt in which the shell starts no job. -/
theorem Session.Inv.fromPrompt (h : s.Inv) (hshell : s.shell = .prompt)
    (hjobs : s'.jobs = s.jobs)
    (hforked : ∀ pid command, s'.shell ≠ .forked pid command) : s'.Inv := by
  apply h.shell hjobs hforked
  intro pid record _ hheld
  rw [hshell] at hheld
  exact hheld.elim

/-- A step of one job. -/
theorem Session.Inv.jobStep (h : s.Inv) {pid : Nat} {record : JobRecord}
    {job : Job} (hrecord : s.jobs[pid]? = some record)
    (hstep : JobStep mainNoCldWait record.job job) :
    Session.Inv
      { s with jobs := s.jobs.set pid { record with job := job } } := by
  have hjob := h.job record (List.mem_of_getElem? hrecord)
  -- every job of the new session is an old one, or the one that took the step
  have hold : ∀ other new, (s.jobs.set pid { record with job := job })[other]?
      = some new → s.jobs[other]? = some new ∨
        other = pid ∧ new = { record with job := job } := by
    intro other new hnew
    rcases getElem?_set_cases hnew with ⟨rfl, rfl⟩ | ⟨-, hsame⟩
    · exact Or.inr ⟨rfl, rfl⟩
    · exact Or.inl hsame
  refine ⟨?_, ?_, ?_⟩
  · intro new hnew
    obtain ⟨other, hother⟩ := List.mem_iff_getElem?.mp hnew
    rcases hold other new hother with hsame | ⟨-, rfl⟩
    · exact h.job new (List.mem_of_getElem? hsame)
    · exact hjob.step hstep
  · intro other new hnew hfree
    rcases hold other new hnew with hsame | ⟨rfl, rfl⟩
    · exact h.settled other new hsame hfree
    · rcases h.settled other record hrecord hfree with hdaemon | ⟨e, hexited⟩
      · exact Or.inl hdaemon
      · exact Or.inr ⟨e, hstep.exited hexited⟩
  · intro other command new hshell hnew hflag
    rcases hold other new hnew with hsame | ⟨rfl, rfl⟩
    · exact h.flag other command new hshell hsame hflag
    · exact h.flag other command record hshell hrecord hflag

/-- A new job, which the shell holds. -/
theorem Session.Inv.fork (h : s.Inv) (hshell : s.shell = .prompt)
    {command : Command} (stdin : List UInt8) (heap : Heap)
    (hflag : command.list.hasDaemonAmpersand =
      if endsInAmpersand command.sentence then 1 else 0) :
    Session.Inv ⟨.forked s.jobs.length command, stdin, heap,
      s.jobs ++ [command.forked]⟩ := by
  refine ⟨?_, ?_, ?_⟩
  · intro record hrecord
    rcases List.mem_append.mp hrecord with hold | hnew
    · exact h.job record hold
    · rw [List.mem_singleton.mp hnew]
      exact Job.inv_starting command.list
  · intro pid record hrecord hfree
    have hlt : pid < s.jobs.length := by
      have hbound := (List.getElem?_eq_some_iff.mp hrecord).1
      have hne : s.jobs.length ≠ pid := hfree
      rw [List.length_append, List.length_singleton] at hbound
      omega
    rw [List.getElem?_append_left hlt] at hrecord
    apply h.settled pid record hrecord
    rw [hshell]
    exact id
  · intro pid held record hforked hrecord hset
    cases hforked
    rw [List.getElem?_concat_length] at hrecord
    cases hrecord
    rw [hflag] at hset
    by_contra hends
    exact hset (if_neg hends)

/-- Every step keeps the invariant. -/
theorem Session.Inv.step {fails : FailurePlan} (h : s.Inv)
    (hstep : SessionStep fails s s') : s'.Inv := by
  cases hstep with
  | exit hshell hline =>
      exact h.fromPrompt hshell rfl fun _ _ => ShellState.noConfusion
  | crash hshell hline hfault =>
      exact h.fromPrompt hshell rfl fun _ _ => ShellState.noConfusion
  | invalid hshell hline =>
      exact h.fromPrompt hshell rfl fun _ _ => ShellState.noConfusion
  | fork hshell hline => exact h.fork hshell _ _ (nextLine_flag hline)
  | noFork hshell hline =>
      exact h.fromPrompt hshell rfl fun _ _ => ShellState.noConfusion
  | background hshell hflag =>
      refine h.shell rfl (fun _ _ => ShellState.noConfusion) ?_
      intro pid record hrecord hheld _
      rw [hshell] at hheld
      subst hheld
      exact Or.inl (h.flag _ _ record hshell hrecord hflag)
  | foreground hshell hflag =>
      refine h.shell rfl (fun _ _ => ShellState.noConfusion) ?_
      intro pid record _ hheld hfree
      rw [hshell] at hheld
      exact absurd hheld hfree
  | waited hshell hrecord hexited =>
      refine h.shell rfl (fun _ _ => ShellState.noConfusion) ?_
      intro pid record hrecord' hheld _
      rw [hshell] at hheld
      subst hheld
      rw [hrecord] at hrecord'
      cases hrecord'
      exact Or.inr ⟨_, hexited⟩
  | job hrecord hstep => exact h.jobStep hrecord hstep
  | stageReads hrecord hrunning hstdin => exact ⟨h.job, h.settled, h.flag⟩

/-- **Only background jobs run at the prompt.**  In every state of every
session in which the shell is about to read a line, a job whose handler or
one of whose stages is still running belongs to a line that ended in `&`. -/
theorem prompt_background (fails : FailurePlan) (stdin : List UInt8)
    (heap : Heap) (hruns : Runs (SessionStep fails) (.initial stdin heap) s)
    (hprompt : s.shell = .prompt) {record : JobRecord}
    (hrecord : record ∈ s.jobs) (hrunning : record.job.Running) :
    endsInAmpersand record.sentence = true := by
  have hinv : s.Inv := hruns.invariant (fun _ _ h hstep => h.step hstep)
    (Session.inv_initial stdin heap)
  obtain ⟨pid, hpid⟩ := List.mem_iff_getElem?.mp hrecord
  have hsettled : record.Settled := by
    apply hinv.settled pid record hpid
    rw [hprompt]
    exact id
  exact hsettled.background (hinv.job record hrecord) hrunning

set_option maxRecDepth 10000 in
/-- `a &` and a newline, with the handler of `a` about to start. -/
theorem prompt_background_one_line : ∃ s record,
    Runs (SessionStep noFailures) (.initial [97, 32, 38, 10] Heap.empty) s ∧
    s.shell = .prompt ∧ record ∈ s.jobs ∧ record.job.Running ∧
    endsInAmpersand record.sentence = true := by
  obtain ⟨command, heap, hline, hflag⟩ : ∃ command heap,
      nextLine noFailures 5 [97, 32, 38, 10] Heap.empty =
        .ok (.run command, [], heap) ∧
      command.list.hasDaemonAmpersand ≠ 0 :=
    ⟨_, _, rfl, by decide⟩
  have hfork : SessionStep noFailures
      (.initial [97, 32, 38, 10] Heap.empty)
      ⟨.forked 0 command, [], heap, [command.forked]⟩ := .fork rfl hline
  have hruns := (Relation.ReflTransGen.single hfork).tail
    (.background rfl hflag)
  have hrunning : command.forked.job.Running :=
    Or.inl fun _ => HandlerState.noConfusion
  exact ⟨_, command.forked, hruns, rfl, List.mem_cons_self, hrunning,
    prompt_background noFailures [97, 32, 38, 10] Heap.empty hruns rfl
      List.mem_cons_self hrunning⟩

end Invariant

end OsLabs.Iwish.Shell
