import OsLabs.Posix.Processes
import OsLabs.Iwish.Grammar
import OsLabs.Iwish.Interpreter

/-!
# A job handler and its stages

The job handler runs `interpretSimpleList`: it starts the stages one by one
and then waits for its children.  The stages end in any order, with any
status, also while later ones are still being started.  What the handler does
to descriptors is in `SpawnLoop`; here only the processes matter, and `pipe`
and `fork` succeed.

`main` installs `SA_NOCLDWAIT` for `SIGCHLD`, and a forked process inherits
that.  So the `wait` loop never sees a status, and `interpretSimpleList`
returns `EXIT_SUCCESS` whatever the stages do: `interpretSimpleList_verdict`.
-/

namespace OsLabs.Iwish.JobHandler

open OsLabs.Posix
open OsLabs.Iwish.ParserTokens
open OsLabs.Iwish.Grammar
open OsLabs.Iwish.Interpreter

/-! ## The model -/

/-- `EXIT_SUCCESS` -/
def exitSuccess : Int := 0

/-- `EXIT_FAILURE` -/
def exitFailure : Int := 1

/-- `newsigaction.sa_flags` in `main`: is `SA_NOCLDWAIT` set? -/
def mainNoCldWait : Bool := true

/-- Where a job handler is: before or in `safelyFork`, in the loop that starts
the commands, in the `wait` loop, back from `interpretSimpleList`, or gone. -/
inductive HandlerState where
  | starting (list : SimpleList)
  | spawning (currentCommandList : SimpleCommandList)
  | waiting (exitstatus : Int)
  | returned (exitstatus : Int)
  | exited (exitstatus : Int)
  deriving Repr, DecidableEq

/-- A job handler and the children it has started. -/
structure Job where
  handler : HandlerState
  stages : List ChildState
  deriving Repr, DecidableEq

/-- `if(WIFEXITED(wstatus) && WEXITSTATUS(wstatus) == EXIT_FAILURE)
exitstatus = EXIT_FAILURE;` -/
def recordStatus (wstatus : WaitStatus) (exitstatus : Int) : Int :=
  match wstatus with
  | .exited code => if (code.toNat : Int) = exitFailure then exitFailure
    else exitstatus
  | .signaled _ => exitstatus

/-- One step of a job handler, or the end of one of its stages. -/
inductive JobStep (noCldWait : Bool) : Job → Job → Prop
  /-- `safelyFork` returns 0, and `interpretSimpleList` is called. -/
  | start (list : SimpleList) (stages : List ChildState) :
      JobStep noCldWait ⟨.starting list, stages⟩
        ⟨.spawning list.pipeline.simpleCommandList, stages⟩
  /-- `safelyFork` returns -1 in the child. -/
  | refuse (list : SimpleList) (stages : List ChildState) :
      JobStep noCldWait ⟨.starting list, stages⟩ ⟨.exited exitFailure, stages⟩
  /-- A round of the loop over the commands. -/
  | spawn (node : SimpleCommandNode) (next : SimpleCommandList)
      (stages : List ChildState) :
      JobStep noCldWait ⟨.spawning (node :: next), stages⟩
        ⟨.spawning next, stages ++ [.running]⟩
  /-- `current_command_list == NULL` -/
  | spawned (stages : List ChildState) :
      JobStep noCldWait ⟨.spawning [], stages⟩ ⟨.waiting exitSuccess, stages⟩
  /-- `wait` returns a child. -/
  | reap {stages stages' : List ChildState} {wstatus : WaitStatus}
      (exitstatus : Int) (h : Waits stages (some wstatus) stages') :
      JobStep noCldWait ⟨.waiting exitstatus, stages⟩
        ⟨.waiting (recordStatus wstatus exitstatus), stages'⟩
  /-- `wait` fails: no more children to wait for. -/
  | noMoreChildren {stages stages' : List ChildState} (exitstatus : Int)
      (h : Waits stages none stages') :
      JobStep noCldWait ⟨.waiting exitstatus, stages⟩
        ⟨.returned exitstatus, stages'⟩
  /-- `exit(exitStatus)` -/
  | exit (exitstatus : Int) (stages : List ChildState) :
      JobStep noCldWait ⟨.returned exitstatus, stages⟩
        ⟨.exited exitstatus, stages⟩
  /-- A stage ends. -/
  | stageEnds {stages stages' : List ChildState} (handler : HandlerState)
      (h : Terminates noCldWait stages stages') :
      JobStep noCldWait ⟨handler, stages⟩ ⟨handler, stages'⟩

/-- A job handler that is about to start the commands of `list`. -/
def Job.atLoop (list : SimpleList) : Job :=
  ⟨.spawning list.pipeline.simpleCommandList, []⟩

/-- A job with a handler or a stage that has not ended. -/
def Job.Running (job : Job) : Prop :=
  (∀ exitstatus, job.handler ≠ .exited exitstatus) ∨ .running ∈ job.stages

/-! ## What holds of a job handler at every moment -/

section Invariants

variable {job job' : Job} {stages : List ChildState}

/-- What a handler that runs under `main`'s flag has established. -/
def HandlerState.Established : HandlerState → List ChildState → Prop
  | .starting _, stages => stages = []
  | .spawning _, _ => True
  | .waiting exitstatus, _ => exitstatus = exitSuccess
  | .returned exitstatus, stages => exitstatus = exitSuccess ∧ AllGone stages
  | .exited _, stages => AllGone stages

/-- The invariant of a job: no stage is ever a zombie, and the handler has
established what its place in the program says. -/
structure Job.Inv (job : Job) : Prop where
  noZombie : NoZombie job.stages
  established : job.handler.Established job.stages

theorem Job.inv_starting (list : SimpleList) :
    Job.Inv ⟨.starting list, []⟩ :=
  ⟨NoZombie.nil, rfl⟩

theorem Job.inv_atLoop (list : SimpleList) : (Job.atLoop list).Inv :=
  ⟨NoZombie.nil, trivial⟩

/-- The end of a stage spoils nothing the handler has established: once the
handler relies on the stages being gone, none is left to end. -/
theorem HandlerState.Established.terminates {handler : HandlerState}
    {stages' : List ChildState} (h : handler.Established stages)
    (hends : Terminates mainNoCldWait stages stages') :
    handler.Established stages' := by
  cases handler with
  | starting list =>
      have hnone : AllGone stages := by
        rw [show stages = [] from h]
        exact AllGone.nil
      exact absurd hends hnone.no_terminates
  | spawning commands => trivial
  | waiting exitstatus => exact h
  | returned exitstatus => exact absurd hends h.2.no_terminates
  | exited exitstatus => exact absurd hends (AllGone.no_terminates h)

theorem Job.Inv.step (h : job.Inv) (hstep : JobStep mainNoCldWait job job') :
    job'.Inv := by
  obtain ⟨hnoZombie, hestablished⟩ := h
  cases hstep with
  | start list stages => exact ⟨hnoZombie, trivial⟩
  | refuse list stages =>
      refine ⟨hnoZombie, ?_⟩
      show AllGone stages
      rw [show stages = [] from hestablished]
      exact AllGone.nil
  | spawn node next stages =>
      refine ⟨?_, trivial⟩
      intro child hchild status
      rcases List.mem_append.mp hchild with hold | hnew
      · exact hnoZombie child hold status
      · rw [List.mem_singleton.mp hnew]
        exact ChildState.noConfusion
  | spawned stages => exact ⟨hnoZombie, rfl⟩
  | reap exitstatus hwaits =>
      exact absurd (hnoZombie.waits hwaits).1 (Option.some_ne_none _)
  | noMoreChildren exitstatus hwaits =>
      obtain ⟨-, rfl, hgone⟩ := hnoZombie.waits hwaits
      exact ⟨hnoZombie, hestablished, hgone⟩
  | exit exitstatus stages => exact ⟨hnoZombie, hestablished.2⟩
  | stageEnds handler hends =>
      exact ⟨hnoZombie.terminates hends, hestablished.terminates hends⟩

/-- The invariant holds throughout every run. -/
theorem Job.Inv.runs (h : job.Inv)
    (hruns : Runs (JobStep mainNoCldWait) job job') : job'.Inv :=
  hruns.invariant (fun _ _ hinv hstep => hinv.step hstep) h

/-- A handler that is gone stays gone. -/
theorem JobStep.exited {noCldWait : Bool} {exitstatus : Int}
    (hstep : JobStep noCldWait job job')
    (hexited : job.handler = .exited exitstatus) :
    job'.handler = .exited exitstatus := by
  cases hstep with
  | stageEnds handler hends => exact hexited
  | _ => cases hexited

/-! ## The stages started are the children of the spawn loop -/

/-- The commands that a handler in the loop has not started yet. -/
def HandlerState.remaining : HandlerState → Nat
  | .spawning commands => commands.length
  | _ => 0

/-- The handler is past `safelyFork`, and every one of `count` commands is
started or still to be started. -/
def Job.Accounts (count : Nat) (job : Job) : Prop :=
  (∀ list, job.handler ≠ .starting list) ∧
    job.stages.length + job.handler.remaining = count

theorem Job.Accounts.step {noCldWait : Bool} {count : Nat}
    (h : job.Accounts count) (hstep : JobStep noCldWait job job') :
    job'.Accounts count := by
  obtain ⟨hpast, hcount⟩ := h
  cases hstep with
  | start list stages => exact absurd rfl (hpast list)
  | refuse list stages => exact absurd rfl (hpast list)
  | spawn node next stages =>
      refine ⟨fun _ => HandlerState.noConfusion, ?_⟩
      simp only [HandlerState.remaining, List.length_append,
        List.length_cons, List.length_nil] at hcount ⊢
      omega
  | spawned stages => exact ⟨fun _ => HandlerState.noConfusion, hcount⟩
  | reap exitstatus hwaits =>
      refine ⟨fun _ => HandlerState.noConfusion, ?_⟩
      rw [hwaits.length_eq]
      exact hcount
  | noMoreChildren exitstatus hwaits =>
      refine ⟨fun _ => HandlerState.noConfusion, ?_⟩
      rw [hwaits.length_eq]
      exact hcount
  | exit exitstatus stages => exact ⟨fun _ => HandlerState.noConfusion, hcount⟩
  | stageEnds handler hends =>
      refine ⟨hpast, ?_⟩
      rw [hends.length_eq]
      exact hcount

/-- Without failing calls the spawn loop starts one child for each command. -/
theorem spawnLoop_started {α : Type} {env : SpawnEnvironment}
    (hpipe : ∀ round, env.pipeFails round = false)
    (hfork : ∀ round, env.forkFails round = false) (heap : Heap)
    (list : SimpleCommandList) (s : SpawnState α) :
    (spawnLoop env heap list s).children.length = list.length ∧
      (spawnLoop env heap list s).finished = true := by
  induction list generalizing s with
  | nil => exact ⟨rfl, rfl⟩
  | cons node next ih =>
      have hrest := ih (s.connected next.isEmpty).next
      rw [spawnLoop, hpipe, Bool.and_false]
      simp only [Bool.false_eq_true, if_false, hfork]
      exact ⟨congrArg Nat.succ hrest.1, hrest.2⟩

theorem returned_length {noCldWait : Bool} {list : SimpleList}
    {exitstatus : Int}
    (hruns : Runs (JobStep noCldWait) (.atLoop list)
      ⟨.returned exitstatus, stages⟩) :
    stages.length = list.pipeline.simpleCommandList.length := by
  have hstart : (Job.atLoop list).Accounts
      list.pipeline.simpleCommandList.length :=
    ⟨fun _ => HandlerState.noConfusion, Nat.zero_add _⟩
  exact (hruns.invariant (fun _ _ h hstep => h.step hstep) hstart).2

/-- The stages of a handler that is back from `interpretSimpleList` are the
children of `spawnPipeline`. -/
theorem returned_stages {α : Type} {env : SpawnEnvironment}
    (hpipe : ∀ round, env.pipeFails round = false)
    (hfork : ∀ round, env.forkFails round = false) (heap : Heap)
    (table : FdTable α) {noCldWait : Bool} {list : SimpleList}
    {exitstatus : Int}
    (hruns : Runs (JobStep noCldWait) (.atLoop list)
      ⟨.returned exitstatus, stages⟩) :
    stages.length = (spawnPipeline env heap list table).children.length := by
  rw [spawnPipeline, (spawnLoop_started hpipe hfork heap _ _).1]
  exact returned_length hruns

end Invariants

/-! ## The verdict -/

section Verdict

/-- Every stage has exited with code 0. -/
def AllSucceeded (stages : List ChildState) : Prop :=
  ∀ stage ∈ stages, stage = .gone (.exited 0)

/-- `EXIT_SUCCESS` if and only if every stage exited with code 0, and
`EXIT_FAILURE` otherwise. -/
def VerdictCorrect (exitstatus : Int) (stages : List ChildState) : Prop :=
  (exitstatus = exitSuccess ↔ AllSucceeded stages) ∧
    (exitstatus = exitFailure ↔ ¬ AllSucceeded stages)

theorem verdictCorrect_success (stages : List ChildState) :
    VerdictCorrect exitSuccess stages ↔ AllSucceeded stages := by
  constructor
  · exact fun h => h.1.mp rfl
  · intro h
    refine ⟨⟨fun _ => h, fun _ => rfl⟩, ?_, fun hnot => absurd h hnot⟩
    exact fun heq => absurd heq (by decide)

/-- The loop can start all the commands before any of them ends. -/
theorem runs_spawn {noCldWait : Bool} (commands : SimpleCommandList)
    (stages : List ChildState) :
    Runs (JobStep noCldWait) ⟨.spawning commands, stages⟩
      ⟨.spawning [], stages ++ List.replicate commands.length .running⟩ := by
  induction commands generalizing stages with
  | nil =>
      show Runs (JobStep noCldWait) ⟨.spawning [], stages⟩
        ⟨.spawning [], stages ++ []⟩
      rw [List.append_nil]
  | cons node next ih =>
      have hrest := ih (stages ++ [.running])
      rw [List.append_assoc] at hrest
      exact Relation.ReflTransGen.head (.spawn node next stages) hrest

/-- Whatever the stages exit with, there is a run in which the handler comes
back from `interpretSimpleList`. -/
theorem runs_returned (list : SimpleList) (statuses : List WaitStatus)
    (hlength : statuses.length = list.pipeline.simpleCommandList.length) :
    Runs (JobStep mainNoCldWait) (.atLoop list)
      ⟨.returned exitSuccess, statuses.map .gone⟩ := by
  have hspawn : Runs (JobStep mainNoCldWait) (.atLoop list)
      ⟨.spawning [], List.replicate statuses.length .running⟩ := by
    rw [hlength]
    exact runs_spawn list.pipeline.simpleCommandList []
  have hends : Runs (JobStep mainNoCldWait)
      ⟨.waiting exitSuccess, List.replicate statuses.length .running⟩
      ⟨.waiting exitSuccess, statuses.map .gone⟩ :=
    Runs.lift (Job.mk (.waiting exitSuccess))
      (fun _ _ hends => JobStep.stageEnds (.waiting exitSuccess) hends)
      (runs_terminate [] statuses)
  have hgone : AllGone (statuses.map .gone) := by
    intro child hchild
    obtain ⟨status, -, rfl⟩ := List.mem_map.mp hchild
    exact ⟨status, rfl⟩
  exact ((hspawn.tail (.spawned _)).trans hends).tail
    (.noMoreChildren exitSuccess (.noChild hgone))

/-- **Exactly when the verdict is correct.**  `interpretSimpleList` can return
whatever its stages exit with; and in every run in which it has returned, its
result is the one its stages call for if and only if they all exited with
code 0. -/
theorem interpretSimpleList_verdict_iff (list : SimpleList) :
    (∀ statuses : List WaitStatus,
      statuses.length = list.pipeline.simpleCommandList.length →
      ∃ exitstatus, Runs (JobStep mainNoCldWait) (.atLoop list)
        ⟨.returned exitstatus, statuses.map .gone⟩) ∧
    ∀ exitstatus stages,
      Runs (JobStep mainNoCldWait) (.atLoop list)
        ⟨.returned exitstatus, stages⟩ →
      stages.length = list.pipeline.simpleCommandList.length ∧
        (VerdictCorrect exitstatus stages ↔ AllSucceeded stages) := by
  constructor
  · exact fun statuses hlength =>
      ⟨exitSuccess, runs_returned list statuses hlength⟩
  · intro exitstatus stages hruns
    have hinv := (Job.inv_atLoop list).runs hruns
    obtain ⟨rfl, -⟩ := hinv.established
    exact ⟨returned_length hruns, verdictCorrect_success stages⟩

/-- The tree of `a`. -/
def oneCommand : SimpleList :=
  ⟨0, ⟨[⟨1, ⟨[⟨2, ⟨0, none, some tokenA⟩⟩]⟩⟩]⟩, 0⟩

/-- One command that exits with 1, and a run that comes back. -/
theorem interpretSimpleList_verdict_iff_one_command :
    ∃ exitstatus, Runs (JobStep mainNoCldWait) (.atLoop oneCommand)
        ⟨.returned exitstatus, [.gone (.exited 1)]⟩ ∧
      (VerdictCorrect exitstatus [.gone (.exited 1)] ↔
        AllSucceeded [.gone (.exited 1)]) := by
  have h := interpretSimpleList_verdict_iff oneCommand
  obtain ⟨exitstatus, hruns⟩ := h.1 [.exited 1] rfl
  exact ⟨exitstatus, hruns, (h.2 exitstatus _ hruns).2⟩

/-- The handler returns `EXIT_SUCCESS` for a command that has exited with 1. -/
theorem interpretSimpleList_loses_status :
    ∃ exitstatus stages,
      Runs (JobStep mainNoCldWait) (.atLoop oneCommand)
        ⟨.returned exitstatus, stages⟩ ∧
      ¬ VerdictCorrect exitstatus stages := by
  refine ⟨exitSuccess, [.gone (.exited 1)],
    runs_returned oneCommand [.exited 1] rfl, ?_⟩
  rw [verdictCorrect_success]
  intro h
  exact absurd (h _ List.mem_cons_self) (by decide)

end Verdict

/-! ## Without the flag -/

section WithoutFlag

variable {job job' : Job} {stages stages' : List ChildState}

/-- What the wait loop makes of the stages it has reaped: only exit code 1
counts. -/
def recorded (stages : List ChildState) : Int :=
  if .gone (.exited 1) ∈ stages then exitFailure else exitSuccess

theorem recorded_spawn (stages : List ChildState) :
    recorded (stages ++ [.running]) = recorded stages := by
  simp [recorded]

theorem recorded_terminates (h : Terminates false stages stages') :
    recorded stages' = recorded stages := by
  rcases h with ⟨front, rest, status⟩
  simp [recorded, ChildState.ended]

theorem recorded_waits {status : WaitStatus}
    (h : Waits stages (some status) stages') :
    recorded stages' = recordStatus status (recorded stages) := by
  rcases h with ⟨front, rest, status⟩
  cases status with
  | signaled signal => simp [recorded, recordStatus]
  | exited code =>
      by_cases hcode : code = 1
      · subst hcode
        simp [recorded, recordStatus, exitFailure]
      · have htest : ¬ (code.toNat : Int) = exitFailure := by
          intro heq
          apply hcode
          apply UInt8.toNat_inj.mp
          show code.toNat = 1
          exact Int.ofNat.inj heq
        simp only [recordStatus, if_neg htest, recorded, List.mem_append,
          List.mem_cons]
        simp [Ne.symm hcode]

/-- A handler past `safelyFork` has recorded what it has reaped. -/
def Job.Records (job : Job) : Prop :=
  match job.handler with
  | .starting _ => False
  | .spawning _ => exitSuccess = recorded job.stages
  | .waiting exitstatus => exitstatus = recorded job.stages
  | .returned exitstatus => exitstatus = recorded job.stages
  | .exited exitstatus => exitstatus = recorded job.stages

theorem Job.Records.step (h : job.Records) (hstep : JobStep false job job') :
    job'.Records := by
  cases hstep with
  | start list stages => exact h.elim
  | refuse list stages => exact h.elim
  | spawn node next stages => exact h.trans (recorded_spawn stages).symm
  | spawned stages => exact h
  | reap exitstatus hwaits =>
      show recordStatus _ exitstatus = recorded _
      rw [recorded_waits hwaits, show exitstatus = recorded _ from h]
  | noMoreChildren exitstatus hwaits =>
      rcases hwaits with _ | hgone
      exact h
  | exit exitstatus stages => exact h
  | stageEnds handler hends =>
      have hsame := recorded_terminates hends
      unfold Job.Records at h ⊢
      simp only [hsame]
      exact h

/-- With a default `SIGCHLD` the verdict would be about exit code 1 alone:
other codes and signals would still count as success. -/
theorem interpretSimpleList_verdict_withoutFlag {list : SimpleList}
    {exitstatus : Int}
    (hruns : Runs (JobStep false) (.atLoop list)
      ⟨.returned exitstatus, stages⟩) :
    exitstatus = recorded stages := by
  have hstart : (Job.atLoop list).Records := rfl
  have hend : Job.Records ⟨.returned exitstatus, stages⟩ :=
    hruns.invariant (fun _ _ h hstep => Job.Records.step h hstep) hstart
  exact hend

end WithoutFlag

end OsLabs.Iwish.JobHandler
