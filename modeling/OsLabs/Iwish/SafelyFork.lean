import OsLabs.Posix.ProcessTree
import OsLabs.Iwish.JobHandler

/-!
# `safelyFork`

The shell, its job handlers and their stages, down to the calls that decide
whether a process outlives its creator.  `safelyFork` is called by
`interpretInput` and by `interpretSimpleList`, and the child returns from it
into the code of its creator: a -1 that the child returns takes the path
written for a failed `fork`.

`no_orphan`: a process that has lost its creator has received `SIGTERM`, or
will find out, or has found out and is on its way to `exit`.
-/

namespace OsLabs.Iwish.SafelyFork

open OsLabs.Posix
open OsLabs.Iwish.ParserTokens
open OsLabs.Iwish.JobHandler

/-! ## The program -/

/-- Who has called `safelyFork`, with what it goes on with. -/
inductive Caller where
  | interpretInput (list : SimpleList)
  | interpretSimpleList (currentCommandList : SimpleCommandList)
  deriving Repr, DecidableEq

/-- Before `getpid`, before `fork`, and in the child before `prctl` and before
`getppid`. -/
inductive ForkPlace where
  | entered
  | forking (originalParentPid : Nat)
  | forked (originalParentPid : Nat)
  | checking (originalParentPid : Nat)
  deriving Repr, DecidableEq

/-- Where a process is: in the loop of `main`, in `waitpid`, in `safelyFork`
or back from it, at the head of the loop of `interpretSimpleList`, in
`handleCommandList`, in the program that it has given itself to, in the `wait`
loop, back from `interpretSimpleList`, or at a call of `exit`. -/
inductive Place where
  | prompt
  | waitpid (childPid : Int)
  | safelyFork (caller : Caller) (place : ForkPlace)
  | returned (caller : Caller) (childPid : Int)
  | spawning (currentCommandList : SimpleCommandList)
  | command (list : SimpleCommandList)
  | executing
  | waiting (exitstatus : Int)
  | interpreted (exitStatus : Int)
  | exiting (status : Int)
  deriving Repr, DecidableEq

/-- The place of a process, and what `safelyFork` has returned to it, the
latest first. -/
structure Control where
  place : Place
  returns : List Int
  deriving Repr, DecidableEq

/-- `return value;` -/
def safelyForkReturns (caller : Caller) (returns : List Int) (value : Int) :
    Control :=
  ⟨.returned caller value, value :: returns⟩

/-- `safelyFork`, call by call. -/
def safelyFork (caller : Caller) (returns : List Int) :
    ForkPlace → Call Control
  | .entered => .getpid fun pid => ⟨.safelyFork caller (.forking pid), returns⟩
  | .forking originalParentPid =>
    .fork (safelyForkReturns caller returns (-1))
      (fun childPid => safelyForkReturns caller returns childPid)
      ⟨.safelyFork caller (.forked originalParentPid), []⟩
  | .forked originalParentPid =>
    .prctl (safelyForkReturns caller returns (-1))
      ⟨.safelyFork caller (.checking originalParentPid), returns⟩
  | .checking originalParentPid =>
    .getppid fun ppid =>
      if ppid ≠ originalParentPid then safelyForkReturns caller returns (-1)
      else safelyForkReturns caller returns 0

/-- What the callers make of `child_pid`.  The trees and descriptors that they
give back on the way are no concern here. -/
def resume : Caller → Int → Place
  | .interpretInput list, childPid =>
    if childPid < 0 then .exiting exitFailure
    else if childPid = 0 then .spawning list.pipeline.simpleCommandList
    else if list.hasDaemonAmpersand = 0 then .waitpid childPid
    else .prompt
  | .interpretSimpleList currentCommandList, childPid =>
    if childPid < 0 then .interpreted exitFailure
    else if childPid = 0 then .command currentCommandList
    else .spawning currentCommandList.tail

/-- `main`, `interpretInput`, `safelyFork` and `interpretSimpleList`, in the
shell, in its job handlers and in their stages. -/
inductive Calls : Program Control
  /-- A line that is not accepted. -/
  | invalid (returns : List Int) :
      Calls ⟨.prompt, returns⟩ (.silent ⟨.prompt, returns⟩)
  | accepted (list : SimpleList) (returns : List Int) :
      Calls ⟨.prompt, returns⟩
        (.silent ⟨.safelyFork (.interpretInput list) .entered, returns⟩)
  /-- The exit keyword, or a line that cannot be read. -/
  | leave (status : Int) (returns : List Int) :
      Calls ⟨.prompt, returns⟩ (.silent ⟨.exiting status, returns⟩)
  | safelyFork {caller : Caller} {place : ForkPlace} {returns : List Int}
      {call : Call Control} (hcall : call = safelyFork caller returns place) :
      Calls ⟨.safelyFork caller place, returns⟩ call
  | resume (caller : Caller) (childPid : Int) (returns : List Int) :
      Calls ⟨.returned caller childPid, returns⟩
        (.silent ⟨resume caller childPid, returns⟩)
  /-- When `waitpid` returns does not matter here. -/
  | waitpid (childPid : Int) (returns : List Int) :
      Calls ⟨.waitpid childPid, returns⟩ (.silent ⟨.prompt, returns⟩)
  /-- `pipe` fails between two commands. -/
  | noPipe {node : SimpleCommandNode} {next : SimpleCommandList}
      (hnext : next ≠ []) (returns : List Int) :
      Calls ⟨.spawning (node :: next), returns⟩
        (.silent ⟨.interpreted exitFailure, returns⟩)
  | spawn (node : SimpleCommandNode) (next : SimpleCommandList)
      (returns : List Int) :
      Calls ⟨.spawning (node :: next), returns⟩
        (.silent ⟨.safelyFork (.interpretSimpleList (node :: next)) .entered,
          returns⟩)
  /-- `current_command_list == NULL` -/
  | spawned (returns : List Int) :
      Calls ⟨.spawning [], returns⟩ (.silent ⟨.waiting exitSuccess, returns⟩)
  /-- `execvp` succeeds. -/
  | execvp (list : SimpleCommandList) (returns : List Int) :
      Calls ⟨.command list, returns⟩ (.silent ⟨.executing, returns⟩)
  /-- `handleCommandList` returns. -/
  | noExecvp (list : SimpleCommandList) (returns : List Int) :
      Calls ⟨.command list, returns⟩
        (.silent ⟨.interpreted exitFailure, returns⟩)
  /-- The command does something. -/
  | executing (returns : List Int) :
      Calls ⟨.executing, returns⟩ (.silent ⟨.executing, returns⟩)
  | executed (returns : List Int) : Calls ⟨.executing, returns⟩ .exit
  | wait (wstatus : WaitStatus) (exitstatus : Int) (returns : List Int) :
      Calls ⟨.waiting exitstatus, returns⟩
        (.silent ⟨.waiting (recordStatus wstatus exitstatus), returns⟩)
  /-- No more children to wait for. -/
  | waited (exitstatus : Int) (returns : List Int) :
      Calls ⟨.waiting exitstatus, returns⟩
        (.silent ⟨.interpreted exitstatus, returns⟩)
  | interpreted (exitStatus : Int) (returns : List Int) :
      Calls ⟨.interpreted exitStatus, returns⟩
        (.silent ⟨.exiting exitStatus, returns⟩)
  | exit (status : Int) (returns : List Int) :
      Calls ⟨.exiting status, returns⟩ .exit

/-- The shell before its first line. -/
def initial : List (Proc Control) :=
  [.first ⟨.prompt, []⟩]

/-! ## The path to `exit` -/

/-- About to call `execvp`, or past it. -/
def Control.Executes (control : Control) : Prop :=
  (∃ list, control.place = .command list) ∨ control.place = .executing

/-- `safelyFork` has returned -1, and nothing but `exit` is left, without
`execvp`. -/
def Control.Refused (control : Control) : Prop :=
  -1 ∈ control.returns ∧ OnlyExits Calls Control.Executes control

section Exit

variable {returns : List Int}

theorem exiting_onlyExits (status : Int) (returns : List Int) :
    OnlyExits Calls Control.Executes ⟨.exiting status, returns⟩ := by
  apply OnlyExits.exit
  · rintro (⟨list, hplace⟩ | hplace) <;> cases hplace
  · intro call
    constructor
    · intro hcall
      cases hcall
      rfl
    · rintro rfl
      exact .exit status returns

theorem interpreted_onlyExits (exitStatus : Int) (returns : List Int) :
    OnlyExits Calls Control.Executes ⟨.interpreted exitStatus, returns⟩ := by
  apply OnlyExits.silent _ _ (exiting_onlyExits exitStatus returns)
  · rintro (⟨list, hplace⟩ | hplace) <;> cases hplace
  · intro call
    constructor
    · intro hcall
      cases hcall
      rfl
    · rintro rfl
      exact .interpreted exitStatus returns

/-- **Both callers end the child.**  The -1 of a child takes the path written
for a failed `fork`. -/
theorem returned_refused (caller : Caller) (returns : List Int) :
    (safelyForkReturns caller returns (-1)).Refused := by
  refine ⟨List.mem_cons_self, ?_⟩
  have hnext : OnlyExits Calls Control.Executes
      ⟨resume caller (-1), -1 :: returns⟩ := by
    cases caller with
    | interpretInput list => exact exiting_onlyExits _ _
    | interpretSimpleList commands => exact interpreted_onlyExits _ _
  apply OnlyExits.silent _ _ hnext
  · rintro (⟨list, hplace⟩ | hplace) <;> cases hplace
  · intro call
    constructor
    · intro hcall
      cases hcall
      rfl
    · rintro rfl
      exact .resume caller (-1) (-1 :: returns)

end Exit

/-! ## The invariant -/

section Invariant

variable {table table' new : List (Proc Control)} {pid : Nat}
  {proc proc' : Proc Control}

/-- Before `fork`, or in the child up to the check. -/
def Place.inFork : Place → Bool
  | .safelyFork _ .entered => false
  | .safelyFork _ _ => true
  | _ => false

/-- `safelyFork` itself does nothing silently. -/
theorem Calls.silent_inv {control next : Control}
    (h : Calls control (.silent next)) :
    control.place.inFork = false ∧ next.place.inFork = false ∧
      next.returns = control.returns := by
  cases h with
  | @safelyFork caller place returns _ hcall => cases place <;> cases hcall
  | resume caller childPid returns =>
      refine ⟨rfl, ?_, rfl⟩
      cases caller <;> unfold SafelyFork.resume <;> repeat' split
      all_goals rfl
  | _ => exact ⟨rfl, rfl, rfl⟩

theorem Calls.getpid_inv {control : Control} {next : Nat → Control}
    (h : Calls control (.getpid next)) :
    control.place.inFork = false ∧ ∃ caller, ∀ pid,
      (next pid).place = .safelyFork caller (.forking pid) := by
  cases h with
  | @safelyFork caller place returns _ hcall =>
      cases place <;> cases hcall
      exact ⟨rfl, caller, fun _ => rfl⟩

/-- `fork` is called by `safelyFork` only. -/
theorem Calls.fork_inv {control failed child : Control}
    {parent : Nat → Control} (h : Calls control (.fork failed parent child)) :
    ∃ caller originalParentPid,
      control.place = .safelyFork caller (.forking originalParentPid) ∧
      failed.Refused ∧ (∀ childPid, (parent childPid).place.inFork = false) ∧
      child.place = .safelyFork caller (.forked originalParentPid) := by
  cases h with
  | @safelyFork caller place returns _ hcall =>
      cases place <;> cases hcall
      exact ⟨caller, _, rfl, returned_refused caller returns, fun _ => rfl,
        rfl⟩

theorem Calls.prctl_inv {control failed done : Control}
    (h : Calls control (.prctl failed done)) :
    ∃ caller originalParentPid,
      control.place = .safelyFork caller (.forked originalParentPid) ∧
      failed.Refused ∧
      done.place = .safelyFork caller (.checking originalParentPid) := by
  cases h with
  | @safelyFork caller place returns _ hcall =>
      cases place <;> cases hcall
      exact ⟨caller, _, rfl, returned_refused caller returns, rfl⟩

theorem Calls.getppid_inv {control : Control} {next : Nat → Control}
    (h : Calls control (.getppid next)) :
    ∃ caller originalParentPid,
      control.place = .safelyFork caller (.checking originalParentPid) ∧
      (∀ ppid, ppid ≠ originalParentPid → (next ppid).Refused) ∧
      (next originalParentPid).place.inFork = false := by
  cases h with
  | @safelyFork caller place returns _ hcall =>
      cases place <;> cases hcall
      next originalParentPid =>
        refine ⟨caller, originalParentPid, rfl, fun ppid hne => ?_, ?_⟩
        · simp only [if_pos hne]
          exact returned_refused caller returns
        · simp only [ne_eq, not_true_eq_false, if_false]
          rfl

theorem Control.Refused.moves (h : proc.control.Refused)
    (hmoves : Moves Calls table pid proc proc' new) :
    proc'.control.Refused ∧ new = [] := by
  obtain ⟨hreturned, ⟨havoided, hcan, honly, hnext⟩⟩ := h
  cases hmoves with
  | silent hcall =>
      refine ⟨⟨?_, hnext _ hcall⟩, rfl⟩
      rw [hcall.silent_inv.2.2]
      exact hreturned
  | getpid hcall => rcases honly _ hcall with h | ⟨_, h⟩ <;> cases h
  | fork hcall => rcases honly _ hcall with h | ⟨_, h⟩ <;> cases h
  | noFork hcall => rcases honly _ hcall with h | ⟨_, h⟩ <;> cases h
  | prctl hcall => rcases honly _ hcall with h | ⟨_, h⟩ <;> cases h
  | noPrctl hcall => rcases honly _ hcall with h | ⟨_, h⟩ <;> cases h
  | getppid hcall hppid => rcases honly _ hcall with h | ⟨_, h⟩ <;> cases h

/-- A process that is being started by `safelyFork` knows its creator, and
any other is covered. -/
def Started (table : List (Proc Control)) (pid : Nat) (proc : Proc Control) :
    Prop :=
  match proc.control.place with
  | .safelyFork _ (.forking originalParentPid) =>
    originalParentPid = pid ∧ Covered table proc
  | .safelyFork _ (.forked originalParentPid) =>
    proc.creator = some originalParentPid
  | .safelyFork _ (.checking originalParentPid) =>
    proc.creator = some originalParentPid ∧ proc.deathSignal = true
  | _ => Covered table proc

theorem started_iff (hplace : proc.control.place.inFork = false) :
    Started table pid proc ↔ Covered table proc := by
  unfold Started
  split
  · next h =>
      rw [h] at hplace
      cases hplace
  · next h =>
      rw [h] at hplace
      cases hplace
  · next h =>
      rw [h] at hplace
      cases hplace
  · exact Iff.rfl

theorem started_forking {caller : Caller} {originalParentPid : Nat}
    (hplace : proc.control.place =
      .safelyFork caller (.forking originalParentPid)) :
    Started table pid proc ↔
      originalParentPid = pid ∧ Covered table proc := by
  unfold Started
  rw [hplace]

theorem started_forked {caller : Caller} {originalParentPid : Nat}
    (hplace : proc.control.place =
      .safelyFork caller (.forked originalParentPid)) :
    Started table pid proc ↔ proc.creator = some originalParentPid := by
  unfold Started
  rw [hplace]

theorem started_checking {caller : Caller} {originalParentPid : Nat}
    (hplace : proc.control.place =
      .safelyFork caller (.checking originalParentPid)) :
    Started table pid proc ↔
      proc.creator = some originalParentPid ∧ proc.deathSignal = true := by
  unfold Started
  rw [hplace]

/-- The invariant of a living process. -/
def Watched (table : List (Proc Control)) (pid : Nat) (proc : Proc Control) :
    Prop :=
  proc.control.Refused ∨ Started table pid proc

/-- Another process takes the step. -/
theorem Watched.others (h : Watched table pid proc)
    (hlater : proc.Later proc') (hcontrol : proc'.control = proc.control)
    (hsignal : proc'.deathSignal = proc.deathSignal)
    (hcovered : Covered table proc → Covered table' proc') :
    Watched table' pid proc' := by
  rcases h with hrefused | hstarted
  · left
    rw [hcontrol]
    exact hrefused
  · right
    unfold Started at hstarted ⊢
    rw [hcontrol, hsignal, hlater.creator]
    split at hstarted
    · exact ⟨hstarted.1, hcovered hstarted.2⟩
    · exact hstarted
    · exact hstarted
    · exact hcovered hstarted

/-- The process itself takes it. -/
theorem Watched.moves (h : Watched table pid proc)
    (hmoves : Moves Calls table pid proc proc' new)
    (hcovered : Covered table proc → Covered table' proc') :
    Watched table' pid proc' := by
  rcases h with hrefused | hstarted
  · exact Or.inl (hrefused.moves hmoves).1
  · cases hmoves with
    | silent hcall =>
        obtain ⟨hplace, hnext, -⟩ := hcall.silent_inv
        exact Or.inr ((started_iff hnext).mpr
          (hcovered ((started_iff hplace).mp hstarted)))
    | getpid hcall =>
        obtain ⟨hplace, caller, hnext⟩ := hcall.getpid_inv
        exact Or.inr ((started_forking (hnext pid)).mpr
          ⟨rfl, hcovered ((started_iff hplace).mp hstarted)⟩)
    | fork hcall =>
        obtain ⟨caller, originalParentPid, hplace, -, hnext, -⟩ :=
          hcall.fork_inv
        have hold := ((started_forking hplace).mp hstarted).2
        exact Or.inr ((started_iff (hnext _)).mpr (hcovered hold))
    | noFork hcall =>
        obtain ⟨caller, originalParentPid, hplace, hfailed, -⟩ :=
          hcall.fork_inv
        exact Or.inl hfailed
    | prctl hcall =>
        obtain ⟨caller, originalParentPid, hplace, -, hdone⟩ :=
          hcall.prctl_inv
        exact Or.inr ((started_checking hdone).mpr
          ⟨(started_forked hplace).mp hstarted, rfl⟩)
    | noPrctl hcall =>
        obtain ⟨caller, originalParentPid, hplace, hfailed, -⟩ :=
          hcall.prctl_inv
        exact Or.inl hfailed
    | @getppid next ppid hcall hppid =>
        obtain ⟨caller, originalParentPid, hplace, hfailed, hpassed⟩ :=
          hcall.getppid_inv
        obtain ⟨hcreator, hsignal⟩ := (started_checking hplace).mp hstarted
        by_cases heq : ppid = originalParentPid
        · -- the creator has answered, so it was alive after the request
          subst heq
          have hold : Covered table proc := by
            intro creator hcreator'
            refine ⟨hsignal, Or.inl ?_⟩
            rw [hcreator] at hcreator'
            cases hcreator'
            exact (hppid ppid hcreator).mp rfl
          exact Or.inr ((started_iff hpassed).mpr (hcovered hold))
        · exact Or.inl (hfailed ppid heq)

/-- The process has just been forked. -/
theorem Watched.child {creator : Nat} {parent : Proc Control}
    {failed child : Control} {next : Nat → Control}
    (h : Watched table creator parent)
    (hcall : Calls parent.control (.fork failed next child)) :
    Watched table' pid (.forked creator child) := by
  obtain ⟨caller, originalParentPid, hplace, -, -, hchild⟩ := hcall.fork_inv
  rcases h with hrefused | hstarted
  · have hmoves : Moves Calls table creator parent _ [.forked creator child] :=
      .fork hcall
    cases (hrefused.moves hmoves).2
  · right
    rw [started_forked hchild, ((started_forking hplace).mp hstarted).1]
    rfl

/-- The invariant of the system. -/
structure Guarded (table : List (Proc Control)) : Prop where
  known : CreatorsKnown table
  watched : ∀ (pid : Nat) (proc : Proc Control), table[pid]? = some proc →
    proc.alive = true → Watched table pid proc

theorem guarded_initial : Guarded initial := by
  have hfirst : ∀ (pid : Nat) (proc : Proc Control),
      initial[pid]? = some proc → proc = .first ⟨.prompt, []⟩ :=
    fun pid proc hproc => List.mem_singleton.mp (List.mem_of_getElem? hproc)
  constructor
  · intro pid proc creator hproc hcreator
    rw [hfirst pid proc hproc] at hcreator
    cases hcreator
  · intro pid proc hproc _
    right
    rw [hfirst pid proc hproc]
    intro creator hcreator
    cases hcreator

theorem Guarded.step (h : Guarded table)
    (hstep : TableStep Calls table table') : Guarded table' := by
  refine ⟨h.known.step hstep, ?_⟩
  intro pid proc' hproc' halive'
  rcases hstep.origin hproc' with ⟨proc, new, hproc, halive, hmoves⟩ |
    ⟨proc, hproc, hlater, hcontrol, hsignal⟩ |
    ⟨creator, parent, failed, next, child, -, hparent, hparentAlive, hcall,
      rfl⟩
  · exact (h.watched pid proc hproc halive).moves hmoves fun hcovered =>
      hcovered.step hstep hproc hproc' halive'
  · have halive := hlater.alive halive'
    exact (h.watched pid proc hproc halive).others hlater hcontrol hsignal
      fun hcovered => hcovered.step hstep hproc hproc' halive'
  · exact (h.watched creator parent hparent hparentAlive).child hcall

theorem Guarded.runs (h : Guarded table)
    (hruns : Runs (TableStep Calls) table table') : Guarded table' :=
  hruns.invariant (fun _ _ hguarded hstep => hguarded.step hstep) h

/-! ## Orphans -/

/-- In the child, before it checks whether `getppid` returns `creator`. -/
def Control.BeforeCheck (creator : Nat) (control : Control) : Prop :=
  ∃ caller, control.place = .safelyFork caller (.forked creator) ∨
    control.place = .safelyFork caller (.checking creator)

theorem Control.BeforeCheck.inFork {creator : Nat} {control : Control}
    (h : control.BeforeCheck creator) : control.place.inFork = true := by
  obtain ⟨caller, hplace | hplace⟩ := h <;> rw [hplace] <;> rfl

/-- With its creator gone, the check can only fail. -/
theorem Control.BeforeCheck.moves {creator : Nat}
    (h : proc.control.BeforeCheck creator)
    (hcreator : proc.creator = some creator) (hdead : ¬ Alive table creator)
    (hmoves : Moves Calls table pid proc proc' new) :
    proc'.control.BeforeCheck creator ∨ proc'.control.Refused := by
  have hinFork := h.inFork
  obtain ⟨caller, hplace⟩ := h
  cases hmoves with
  | silent hcall =>
      rw [hcall.silent_inv.1] at hinFork
      cases hinFork
  | getpid hcall =>
      rw [hcall.getpid_inv.1] at hinFork
      cases hinFork
  | fork hcall =>
      obtain ⟨_, _, hforking, -⟩ := hcall.fork_inv
      rw [hforking] at hplace
      rcases hplace with h | h <;> cases h
  | noFork hcall =>
      obtain ⟨_, _, hforking, -⟩ := hcall.fork_inv
      rw [hforking] at hplace
      rcases hplace with h | h <;> cases h
  | prctl hcall =>
      obtain ⟨_, _, hforked, -, hdone⟩ := hcall.prctl_inv
      rw [hforked] at hplace
      rcases hplace with h | h <;> cases h
      exact Or.inl ⟨_, Or.inr hdone⟩
  | noPrctl hcall =>
      obtain ⟨_, _, -, hfailed, -⟩ := hcall.prctl_inv
      exact Or.inr hfailed
  | @getppid next ppid hcall hppid =>
      obtain ⟨_, _, hchecking, hfailed, -⟩ := hcall.getppid_inv
      rw [hchecking] at hplace
      rcases hplace with h | h <;> cases h
      apply Or.inr (hfailed ppid _)
      exact fun heq => hdead ((hppid creator hcreator).mp heq)

/-- A process whose creator is gone and that has not passed the check. -/
structure Orphaned (creator pid : Nat) (table : List (Proc Control)) :
    Prop where
  known : creator < table.length
  dead : ¬ Alive table creator
  place : ∃ proc, table[pid]? = some proc ∧ proc.creator = some creator ∧
    (proc.control.BeforeCheck creator ∨ proc.control.Refused)

/-- It never passes it. -/
theorem Orphaned.step {creator : Nat} (h : Orphaned creator pid table)
    (hstep : TableStep Calls table table') : Orphaned creator pid table' := by
  obtain ⟨hlt, hdead, proc, hproc, hcreator, hplace⟩ := h
  obtain ⟨proc', hproc', hlater⟩ := hstep.later hproc
  refine ⟨Nat.lt_of_lt_of_le hlt hstep.length_le,
    fun halive => hdead (hstep.alive hlt halive), proc', hproc',
    hlater.creator.trans hcreator, ?_⟩
  rcases hstep.origin hproc' with ⟨same, new, hsame, -, hmoves⟩ |
    ⟨same, hsame, -, hcontrol, -⟩ | ⟨_, _, _, _, _, hle, -⟩
  · rw [hproc] at hsame
    cases hsame
    rcases hplace with hbefore | hrefused
    · exact hbefore.moves hcreator hdead hmoves
    · exact Or.inr (hrefused.moves hmoves).1
  · rw [hproc] at hsame
    cases hsame
    rw [hcontrol]
    exact hplace
  · have hold := (List.getElem?_eq_some_iff.mp hproc).1
    exact absurd hold (Nat.not_lt_of_le hle)

theorem Orphaned.runs {creator : Nat} (h : Orphaned creator pid table)
    (hruns : Runs (TableStep Calls) table table') :
    Orphaned creator pid table' :=
  hruns.invariant (fun _ _ horphaned hstep => horphaned.step hstep) h

theorem Started.covered_or_before {creator : Nat} (h : Started table pid proc)
    (hcreator : proc.creator = some creator) :
    Alive table creator ∨ proc.sigterm = true ∨
      proc.control.BeforeCheck creator := by
  have hcovered : Covered table proc →
      Alive table creator ∨ proc.sigterm = true ∨
        proc.control.BeforeCheck creator := by
    intro hcovered
    rcases (hcovered creator hcreator).2 with halive | hsigterm
    · exact Or.inl halive
    · exact Or.inr (Or.inl hsigterm)
  unfold Started at h
  split at h
  · exact hcovered h.2
  · next caller originalParentPid hplace =>
      rw [hcreator] at h
      cases h
      exact Or.inr (Or.inr ⟨caller, Or.inl hplace⟩)
  · next caller originalParentPid hplace =>
      obtain ⟨h, -⟩ := h
      rw [hcreator] at h
      cases h
      exact Or.inr (Or.inr ⟨caller, Or.inr hplace⟩)
  · exact hcovered h

/-- **No orphan survives its creator.**  In every state of every run, whoever
has died at whatever moment, a living process that `safelyFork` has created is
in one of four situations: its creator is alive; it has received `SIGTERM`;
it is still before the check of `getppid` and will never pass it; or
`safelyFork` has returned -1 to it, and it goes on to `exit` without calling
`execvp`. -/
theorem no_orphan (hruns : Runs (TableStep Calls) initial table)
    (hproc : table[pid]? = some proc) {creator : Nat}
    (hcreator : proc.creator = some creator) (halive : proc.alive = true) :
    Alive table creator ∨ proc.sigterm = true ∨
    (proc.control.BeforeCheck creator ∧
      ∀ table', Runs (TableStep Calls) table table' →
        ∃ proc', table'[pid]? = some proc' ∧
          (proc'.control.BeforeCheck creator ∨ proc'.control.Refused)) ∨
    proc.control.Refused := by
  have hguarded := guarded_initial.runs hruns
  by_cases hcreatorAlive : Alive table creator
  · exact Or.inl hcreatorAlive
  · rcases hguarded.watched pid proc hproc halive with hrefused | hstarted
    · exact Or.inr (Or.inr (Or.inr hrefused))
    · rcases hstarted.covered_or_before hcreator with
        halive' | hsigterm | hbefore
      · exact absurd halive' hcreatorAlive
      · exact Or.inr (Or.inl hsigterm)
      · have horphaned : Orphaned creator pid table :=
          ⟨hguarded.known pid proc creator hproc hcreator, hcreatorAlive,
            proc, hproc, hcreator, Or.inl hbefore⟩
        refine Or.inr (Or.inr (Or.inl ⟨hbefore, fun table' hruns' => ?_⟩))
        obtain ⟨proc', hproc', -, hplace⟩ := (horphaned.runs hruns').place
        exact ⟨proc', hproc', hplace⟩

/-- The shell forks a job handler and dies before the handler has called
`prctl`. -/
theorem no_orphan_early_death : ∃ table proc,
    Runs (TableStep Calls) initial table ∧ table[1]? = some proc ∧
    proc.creator = some 0 ∧ proc.alive = true ∧ ¬ Alive table 0 ∧
    (Alive table 0 ∨ proc.sigterm = true ∨
      (proc.control.BeforeCheck 0 ∧
        ∀ table', Runs (TableStep Calls) table table' →
          ∃ proc', table'[1]? = some proc' ∧
            (proc'.control.BeforeCheck 0 ∨ proc'.control.Refused)) ∨
      proc.control.Refused) := by
  let caller := Caller.interpretInput ⟨0, ⟨[]⟩, 0⟩
  -- the calls of `safelyFork` up to `fork`
  have hcallGetpid : Calls ⟨.safelyFork caller .entered, []⟩
      (.getpid fun pid => ⟨.safelyFork caller (.forking pid), []⟩) :=
    .safelyFork rfl
  have hcallFork : Calls ⟨.safelyFork caller (.forking 0), []⟩
      (.fork (safelyForkReturns caller [] (-1))
        (fun childPid => safelyForkReturns caller [] childPid)
        ⟨.safelyFork caller (.forked 0), []⟩) :=
    .safelyFork rfl
  have haccepted : TableStep Calls initial
      [.first ⟨.safelyFork caller .entered, []⟩] :=
    @TableStep.moves _ Calls initial [] 0 _ (.first _) rfl rfl
      (.silent (.accepted _ []))
  have hgetpid : TableStep Calls [.first ⟨.safelyFork caller .entered, []⟩]
      [.first ⟨.safelyFork caller (.forking 0), []⟩] :=
    @TableStep.moves _ Calls [.first _] [] 0 _ _ rfl rfl
      (@Moves.getpid _ Calls _ 0 (.first _) _ hcallGetpid)
  have hfork : TableStep Calls
      [.first ⟨.safelyFork caller (.forking 0), []⟩]
      [.first (safelyForkReturns caller [] 1),
        .forked 0 ⟨.safelyFork caller (.forked 0), []⟩] :=
    @TableStep.moves _ Calls [.first _] _ 0 _ _ rfl rfl
      (@Moves.fork _ Calls _ 0 (.first _) _ _ _ hcallFork)
  have hruns := ((Relation.ReflTransGen.single haccepted).tail hgetpid).tail
    hfork
  have hkilled := hruns.tail (@TableStep.killed _ _ _ 0 _ rfl rfl)
  refine ⟨_, _, hkilled, rfl, rfl, rfl, ?_, no_orphan hkilled rfl rfl rfl⟩
  rintro ⟨proc, hproc, halive⟩
  cases hproc
  cases halive

end Invariant

end OsLabs.Iwish.SafelyFork
