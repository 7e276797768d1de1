import OsLabs.Posix.FdTable
import OsLabs.Posix.PointerArray
import OsLabs.Iwish.DynamicByteArray
import OsLabs.Iwish.ParserTokens

/-!
# The interpreter of the iwish shell

`interpreter.c` up to and including the loop that starts the commands of a
pipeline, with the processes it runs in.

A process is its descriptor table, its heap and a log of the files it has
asked for.  The environment decides which calls of a process fail.  `execvp`
is where the model of a process ends: what matters is whether it is reached,
with which argument array, and with which descriptors.

`pipe()` is called at most once per round of the loop, so the pipe made in
round `k`, between stages `k` and `k + 1`, is pipe `k`.
-/

namespace OsLabs.Iwish.Interpreter

open OsLabs.Posix
open OsLabs.Iwish.ParserTokens
open OsLabs.Iwish.DBA

/-! ## Processes -/

/-- What a descriptor refers to: something that was open when the job handler
started, an end of a pipe, or a file opened by a redirection. -/
inductive Description (α : Type) where
  | inherited (d : α)
  | readEnd (pipe : Nat)
  | writeEnd (pipe : Nat)
  | file (isInput : Bool) (word : CString)
  deriving Repr, DecidableEq

/-- Which calls of a process fail, by their position among the calls of the
same kind. -/
structure Environment where
  mallocFails : FailurePlan
  openFails : Nat → Bool
  dup2Fails : Nat → Bool

/-- The environment in which every call succeeds that can. -/
def Environment.quiet : Environment :=
  ⟨noFailures, fun _ => false, fun _ => false⟩

/-- The state of a process: its descriptors, the files it has asked `open` or
`creat` for (in order), the number of its `dup2` calls, and its heap. -/
structure Process (α : Type) where
  table : FdTable (Description α)
  opened : List (Bool × CString)
  dups : Nat
  heap : Heap

/-- What `fork` makes of a table. -/
def Process.forked {α : Type} (table : FdTable (Description α)) (heap : Heap) :
    Process α :=
  ⟨table, [], 0, heap⟩

section

variable {α : Type} (env : Environment)

/-- `open(word, O_RDONLY)` or `creat(word, 0664)`. -/
def openCall (isInput : Bool) (word : Option CString) (p : Process α) :
    Int × Process α :=
  match word with
  | none => (-1, p)
  | some word =>
    let asked := { p with opened := p.opened ++ [(isInput, word)] }
    if env.openFails p.opened.length then (-1, asked)
    else
      let (file, table) := p.table.openFile (.file isInput word)
      (file, { asked with table := table })

/-- `dup2(old, new)`. -/
def dup2Call (old : Int) (new : Nat) (p : Process α) : Int × Process α :=
  let called := { p with dups := p.dups + 1 }
  match p.table.dup2 old new with
  | none => (-1, called)
  | some table =>
    if env.dup2Fails p.dups then (-1, called)
    else (new, { called with table := table })

/-! ## Elements -/

/-- `STDIN_FD` -/
def stdinFd : Nat := 0

/-- `STDOUT_FD` -/
def stdoutFd : Nat := 1

/-- `handleRedirection`. -/
def handleRedirection (redirection : Option Redirection) (p : Process α) :
    Except Fault (Int × Process α) :=
  match redirection with
  | none => .ok (-1, p)
  | some redirection =>
    match redirection.isInputRedirection with
    | none => .error .uninitialised
    | some isInputRedirection =>
      let isInput := isInputRedirection != 0
      let (file, p) := openCall env isInput redirection.word p
      if file < 0 then .ok (-1, p)
      else
        let (fd, p) := dup2Call env file (if isInput then stdinFd else stdoutFd) p
        if fd < 0 then .ok (-1, p) else .ok (0, p)

/-- The argument array under construction; a null pointer is `none`. -/
abbrev Arguments := Option (DynamicByteArray (PointerByte CString))

/-- `handleCommandlineArgument`. -/
def handleCommandlineArgument (arg : Option CString) (dynArr : Arguments)
    (p : Process α) : Except Fault (Int × Arguments × Process α) := do
  match dynArr with
  | none => throw .nullDereference
  | some arr =>
    let (status, arr, heap) ←
      addElemToArr env.mallocFails arr (pointerBytes arg) p.heap
    return (status, some arr, { p with heap := heap })

/-- `handleCommandElementList`. -/
def handleCommandElementList : SimpleCommandElementList → Arguments →
    Process α → Except Fault (Int × Arguments × Process α)
  | [], dynArr, p => return (0, dynArr, p)
  | node :: next, dynArr, p => do
    if node.element.isRedirection ≠ 0 then
      let (status, p) ← handleRedirection env node.element.redirectionPointer p
      if status < 0 then return (-1, dynArr, p)
      else handleCommandElementList next dynArr p
    else
      let (status, dynArr, p) ←
        handleCommandlineArgument env node.element.word dynArr p
      if status < 0 then return (-1, dynArr, p)
      else handleCommandElementList next dynArr p

/-! ## Commands -/

/-- Connecting one end of a pipe; a negative number stands for no pipe. -/
def connectPipe (pipeEnd : Int) (fd : Nat) (p : Process α) : Int × Process α :=
  if 0 ≤ pipeEnd then dup2Call env pipeEnd fd p else (0, p)

/-- `free` of the header of the argument array. -/
def freeArguments (dynArr : Arguments) (p : Process α) : Process α :=
  match dynArr with
  | none => p
  | some arr => { p with heap := p.heap.free arr.block }

/-- The part of `handleCommandList` that builds `newargv` and calls `execvp`:
the array `execvp` reads, or `none` when -1 is returned before the call. -/
def executeCommand (elementList : SimpleCommandElementList) (p : Process α) :
    Except Fault (Option (List CString) × Process α) := do
  let (commandlineArguments, heap) :=
    makeNewDynamicByteArray env.mallocFails pointerSize p.heap
  let (status, commandlineArguments, p) ←
    handleCommandElementList env elementList commandlineArguments
      { p with heap := heap }
  if status < 0 then
    return (none, freeArguments commandlineArguments p)
  else
    let (_, commandlineArguments, p) ←
      handleCommandlineArgument env none commandlineArguments p
    match commandlineArguments with
    | none => throw .nullDereference
    | some arr =>
      let newargv ← loadPointerArray (getInternalArray arr)
      return (some newargv, freeArguments commandlineArguments p)

/-- `handleCommandList`. -/
def handleCommandList (list : SimpleCommandList)
    (incomingInputPipe incomingOutputPipe : Int) (p : Process α) :
    Except Fault (Option (List CString) × Process α) :=
  match list with
  | [] => .ok (none, p)
  | node :: _ =>
    let (status, p) := connectPipe env incomingInputPipe stdinFd p
    if status < 0 then .ok (none, p)
    else
      let (status, p) := connectPipe env incomingOutputPipe stdoutFd p
      if status < 0 then .ok (none, p)
      else executeCommand env node.simpleCommand.elementList p

end

/-! ## The spawn loop -/

variable {α : Type}

/-- A process at the end of its life in this program: the array it gave to
`execvp`, if it came that far, and the state it was in then. -/
abbrev Ending (α : Type) :=
  Except Fault (Option (List CString) × Process α)

/-- `int pipe[2]` -/
structure PipePair where
  readEnd : Int
  writeEnd : Int
  deriving Repr, DecidableEq

/-- `{-1, -1}` -/
def PipePair.absent : PipePair := ⟨-1, -1⟩

/-- `if(fd != -1) close(fd);` -/
def closeEnd (fd : Int) (table : FdTable α) : FdTable α :=
  if fd ≠ -1 then table.close fd else table

/-- `closePipe`. -/
def closePipe (pipe : PipePair) (table : FdTable α) : FdTable α :=
  if pipe.readEnd ≠ -1 ∧ pipe.writeEnd ≠ -1 then
    (table.close pipe.readEnd).close pipe.writeEnd
  else table

/-- Which calls of the loop fail, by round, and what the environment of each
child is.  `checksFail` is a child in which `safelyFork` returns -1. -/
structure SpawnEnvironment where
  pipeFails : Nat → Bool
  forkFails : Nat → Bool
  checksFail : Nat → Bool
  child : Nat → Environment

/-- The environment in which every call succeeds that can. -/
def SpawnEnvironment.quiet : SpawnEnvironment :=
  ⟨fun _ => false, fun _ => false, fun _ => false,
    fun _ => Environment.quiet⟩

/-- The job handler at the head of the loop. -/
structure SpawnState (α : Type) where
  round : Nat
  incomingPipe : PipePair
  outgoingPipe : PipePair
  table : FdTable (Description α)

/-- `incomingPipe` and `outgoingPipe` start out as `{-1, -1}`. -/
def SpawnState.initial (table : FdTable (Description α)) : SpawnState α :=
  ⟨0, .absent, .absent, table⟩

/-- `pipe(outgoingPipe)` between two commands. -/
def SpawnState.withPipe (s : SpawnState α) : SpawnState α :=
  let (r, w, table) := s.table.pipe (.readEnd s.round) (.writeEnd s.round)
  { s with outgoingPipe := ⟨r, w⟩, table := table }

/-- The first part of a round: a pipe unless the command is the last one. -/
def SpawnState.connected (s : SpawnState α) (isLast : Bool) : SpawnState α :=
  if isLast then { s with outgoingPipe := .absent } else s.withPipe

/-- The descriptors when an error path of the loop has been taken. -/
def SpawnState.abandoned (s : SpawnState α) : FdTable (Description α) :=
  closePipe s.outgoingPipe (closePipe s.incomingPipe s.table)

/-- The parent's part of a round, the swap of the two arrays included. -/
def SpawnState.next (s : SpawnState α) : SpawnState α where
  round := s.round + 1
  incomingPipe := s.outgoingPipe
  outgoingPipe := s.incomingPipe
  table := closeEnd s.outgoingPipe.writeEnd
    (closeEnd s.incomingPipe.readEnd s.table)

section

variable (env : SpawnEnvironment) (heap : Heap)

/-- The child's part of a round. -/
def runChild (list : SimpleCommandList) (s : SpawnState α) : Ending α :=
  if env.checksFail s.round then
    .ok (none, .forked s.abandoned heap)
  else
    let table := closeEnd s.outgoingPipe.readEnd
      (closeEnd s.incomingPipe.writeEnd s.table)
    handleCommandList (env.child s.round) list s.incomingPipe.readEnd
      s.outgoingPipe.writeEnd (.forked table heap)

/-- How the job handler leaves the loop: the children it has started, whether
it got to the end of the pipeline, and its descriptors. -/
structure Spawned (α : Type) where
  children : List (Ending α)
  finished : Bool
  table : FdTable (Description α)

/-- The loop of `interpretSimpleList` over the commands of the pipeline. -/
def spawnLoop : SimpleCommandList → SpawnState α → Spawned α
  | [], s => ⟨[], true, s.table⟩
  | node :: next, s =>
    if !next.isEmpty && env.pipeFails s.round then ⟨[], false, s.abandoned⟩
    else
      let s := s.connected next.isEmpty
      if env.forkFails s.round then ⟨[], false, s.abandoned⟩
      else
        let child := runChild env heap (node :: next) s
        let rest := spawnLoop next s.next
        { rest with children := child :: rest.children }

end

/-- `interpretSimpleList` up to its wait loop, in a job handler that starts
with `table` open. -/
def spawnPipeline (env : SpawnEnvironment) (heap : Heap) (list : SimpleList)
    (table : FdTable α) : Spawned α :=
  spawnLoop env heap list.pipeline.simpleCommandList
    (.initial (table.map .inherited))

/-! ## Calls that succeed -/

theorem openCall_quiet (isInput : Bool) (word : CString) (p : Process α) :
    openCall .quiet isInput (some word) p =
      ((p.table.lowestFree : Int),
        { p with
          table := (p.table.openFile (.file isInput word)).2
          opened := p.opened ++ [(isInput, word)] }) := rfl

theorem dup2Call_quiet {p : Process α} {old : Int} {d : Description α}
    (h : p.table.entryAt old = some d) (new : Nat) :
    dup2Call .quiet old new p =
      ((new : Int), { p with table := p.table.set new d, dups := p.dups + 1 }) := by
  unfold dup2Call
  rw [FdTable.dup2_eq h]
  rfl

/-- A table after `connectPipe`. -/
def connectedTable (pipeEnd : Int) (fd : Nat)
    (table : FdTable (Description α)) : FdTable (Description α) :=
  match table.entryAt pipeEnd with
  | none => table
  | some d => table.set fd d

/-- No pipe, or an end that is open. -/
def Connectable (pipeEnd : Int) (table : FdTable (Description α)) : Prop :=
  0 ≤ pipeEnd → ∃ d, table.entryAt pipeEnd = some d

theorem connectPipe_quiet {p : Process α} {pipeEnd : Int}
    (h : Connectable pipeEnd p.table) (fd : Nat) :
    ∃ dups status, connectPipe .quiet pipeEnd fd p =
        (status, { p with
          table := connectedTable pipeEnd fd p.table
          dups := dups }) ∧
      0 ≤ status := by
  unfold connectPipe connectedTable
  by_cases hpipe : 0 ≤ pipeEnd
  · obtain ⟨d, hd⟩ := h hpipe
    rw [if_pos hpipe, dup2Call_quiet hd, hd]
    exact ⟨_, fd, rfl, by omega⟩
  · have hnone : p.table.entryAt pipeEnd = none := by
      cases pipeEnd with
      | ofNat n => exact absurd (Int.natCast_nonneg n) hpipe
      | negSucc n => rfl
    rw [if_neg hpipe, hnone]
    exact ⟨p.dups, 0, rfl, Int.le_refl 0⟩

/-- An end that is not open cannot be connected. -/
theorem connectPipe_closed (env : Environment) {p : Process α} {pipeEnd : Int}
    (hpipe : 0 ≤ pipeEnd) (h : p.table.entryAt pipeEnd = none) (fd : Nat) :
    connectPipe env pipeEnd fd p = (-1, { p with dups := p.dups + 1 }) := by
  unfold connectPipe dup2Call FdTable.dup2
  rw [if_pos hpipe, h]
  rfl

/-- Connecting one end leaves the other one connectable. -/
theorem Connectable.connectedTable {pipeEnd other : Int}
    {table : FdTable (Description α)} (h : Connectable pipeEnd table)
    (fd : Nat) : Connectable pipeEnd (connectedTable other fd table) := by
  intro hpipe
  obtain ⟨d, hd⟩ := h hpipe
  unfold Interpreter.connectedTable
  cases table.entryAt other with
  | none => exact ⟨d, hd⟩
  | some e =>
      cases pipeEnd with
      | ofNat n =>
          by_cases hn : n = fd
          · exact ⟨e, if_pos hn⟩
          · exact ⟨d, (if_neg hn).trans hd⟩
      | negSucc n => cases hd

/-! ## What the fields of the loop state are after each step -/

@[simp] theorem SpawnState.connected_round (s : SpawnState α) (isLast : Bool) :
    (s.connected isLast).round = s.round := by
  cases isLast <;> rfl

@[simp] theorem SpawnState.connected_incomingPipe (s : SpawnState α)
    (isLast : Bool) : (s.connected isLast).incomingPipe = s.incomingPipe := by
  cases isLast <;> rfl

@[simp] theorem SpawnState.next_round (s : SpawnState α) :
    s.next.round = s.round + 1 := rfl

/-- A pipe was made from two free numbers, and the table is the old one with
the two ends. -/
theorem SpawnState.connected_between (s : SpawnState α) :
    ∃ r w : Nat, (s.connected false).outgoingPipe = ⟨r, w⟩ ∧
      (s.connected false).table =
        (s.table.set r (.readEnd s.round)).set w (.writeEnd s.round) ∧
      s.table.entry r = none ∧ s.table.entry w = none ∧ w ≠ r := by
  obtain ⟨r, w, hpipe, hr, hw, hne⟩ :=
    s.table.pipe_spec (.readEnd s.round) (.writeEnd s.round)
  refine ⟨r, w, ?_, ?_, hr, hw, hne⟩
  · show s.withPipe.outgoingPipe = _
    unfold SpawnState.withPipe
    rw [hpipe]
  · show s.withPipe.table = _
    unfold SpawnState.withPipe
    rw [hpipe]

end OsLabs.Iwish.Interpreter
