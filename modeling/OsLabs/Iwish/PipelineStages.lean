import OsLabs.Iwish.PipelineWiring
import OsLabs.Iwish.Redirections

/-!
# Pipelines of every length

What becomes of each stage of a pipeline, however many there are and whatever
redirections they have.  From the third stage on, the write end of the new
pipe gets the number that `incomingPipe[1]` still holds, and the child closes
it; only the last stage has no new pipe.  So the first two stages and the last
one run, and the others stop before they have opened a file.

`spawnPipeline_stages` says this with the arguments, the files and the
standard descriptors of the stages that run.  The environment decides about
every `open` and `creat`; the other calls succeed.
-/

namespace OsLabs.Iwish.PipelineStages

open OsLabs.Posix
open OsLabs.Iwish.ParserTokens
open OsLabs.Iwish.DBA
open OsLabs.Iwish.Grammar
open OsLabs.Iwish.ParseTree
open OsLabs.Iwish.Interpreter
open OsLabs.Iwish.SpawnLoop
open OsLabs.Iwish.Arguments
open OsLabs.Iwish.ArgumentArray
open OsLabs.Iwish.PipelineWiring
open OsLabs.Iwish.Redirections (ElementComplete listRedirections opening
  askedFor AllOpen lastFile PipeChoice elementRedirection)

/-- The environment in which `openFails k` decides about the files of stage
`k`, and every other call succeeds that can. -/
def openingStages (openFails : Nat → Nat → Bool) : SpawnEnvironment :=
  { SpawnEnvironment.quiet with child := fun k => opening (openFails k) }

/-- The stages that run, among `n`. -/
def Executed (n k : Nat) : Prop := k < 2 ∨ k + 1 = n

/-! ## What a child does with its command -/

/-- What standard input or output is to refer to: the file of the last
redirection, else what the place in the pipeline gives. -/
def target {α : Type} (isInput : Bool) (redirections : List (Bool × CString))
    (place : Option (Description α)) : Option (Description α) :=
  match lastFile isInput redirections with
  | some word => some (.file isInput word)
  | none => place

/-- The files of the redirections have been asked for, up to the first that
cannot be opened; `execvp` is called when all can, with the words of the
command and these standard descriptors. -/
structure Attempts {α : Type} (openFails : Nat → Bool) (words : List CString)
    (redirections : List (Bool × CString)) (stdin stdout :
      Option (Description α)) (reached : Option (List CString))
    (p : Process α) : Prop where
  opened : p.opened = askedFor openFails 0 redirections
  executed : AllOpen openFails 0 redirections.length →
    reached = some words ∧
      p.table.entry stdinFd = target true redirections stdin ∧
      p.table.entry stdoutFd = target false redirections stdout
  refused : ¬ AllOpen openFails 0 redirections.length → reached = none

section Command

variable {α : Type} {list : SimpleCommandElementList}

/-- `executeCommand` reaches `execvp`, with the words of the command, exactly
when every file can be opened. -/
theorem executeCommand_reached (openFails : Nat → Bool)
    (hcomplete : ∀ node ∈ list, ElementComplete node.element)
    (p : Process α) :
    ∃ reached p', executeCommand (opening openFails) list p =
        .ok (reached, p') ∧
      p'.opened = p.opened ++
        askedFor openFails p.opened.length (listRedirections list) ∧
      (AllOpen openFails p.opened.length (listRedirections list).length →
        reached = some (listWords list) ∧ p'.table =
          (listRedirections list).foldl performRedirection p.table) ∧
      (¬ AllOpen openFails p.opened.length (listRedirections list).length →
        reached = none) := by
  obtain ⟨arr, heap, hnew⟩ : ∃ arr heap,
      makeNewDynamicByteArray (β := PointerByte CString) noFailures pointerSize
        p.heap = (some arr, heap) := ⟨_, _, rfl⟩
  have hstart : Collected (some arr) [] :=
    ⟨arr, rfl, makeNewDynamicByteArray_holdsPointers hnew⟩
  obtain ⟨status, dynArr, p₁, hrun, hhandled⟩ :=
    Redirections.handleCommandElementList_opening openFails hcomplete hstart
      (withHeap p heap)
  by_cases hall : AllOpen openFails p.opened.length
    (listRedirections list).length
  · obtain ⟨rfl, hcollected, htable⟩ := hhandled.done hall
    rw [List.nil_append] at hcollected
    obtain ⟨p', hexecute, hopened', htable'⟩ :=
      Redirections.executeArguments_opening openFails hcollected p₁
    refine ⟨some (listWords list), p', ?_, hopened'.trans hhandled.opened,
      fun _ => ⟨rfl, htable'.trans htable⟩, fun hnot => absurd hall hnot⟩
    rw [executeCommand_stored hnew hrun]
    exact hexecute
  · have hstatus : status < 0 := by
      rw [hhandled.failed hall]
      decide
    exact ⟨none, freeArguments dynArr p₁,
      executeCommand_failed hnew hrun hstatus,
      (Redirections.freeArguments_opened dynArr p₁).trans hhandled.opened,
      fun h => absurd h hall, fun _ => rfl⟩

/-- The redirections on top of what a standard descriptor refers to. -/
theorem foldl_target (isInput : Bool) (redirections : List (Bool × CString))
    {table : FdTable (Description α)} {place : Option (Description α)}
    (hplace : table.entry (Redirections.redirectedFd isInput) = place)
    (hopen : place.isSome) :
    (redirections.foldl performRedirection table).entry
        (Redirections.redirectedFd isInput) =
      target isInput redirections place := by
  subst hplace
  exact Redirections.foldl_performRedirection_standard isInput _ hopen

/-- What a child gets from a pipe, or keeps where there is none. -/
def placed (table : FdTable (Description α)) (pipeEnd : Int) (fd : Nat) :
    Option (Description α) :=
  if 0 ≤ pipeEnd then table.entryAt pipeEnd else table.entry fd

variable {openFails : Nat → Nat → Bool} {heap : Heap} {s : SpawnState α}
  {node : SimpleCommandNode} {next : SimpleCommandList}

/-- A child whose two ends are open attempts its command. -/
theorem runChild_attempts (openFails : Nat → Nat → Bool) (heap : Heap)
    (s : SpawnState α) (next : SimpleCommandList)
    (hcomplete : ∀ n ∈ node.simpleCommand.elementList,
      ElementComplete n.element)
    (hin : PipeChoice s.incomingPipe.readEnd (childTable s))
    (hout : PipeChoice s.outgoingPipe.writeEnd (childTable s))
    (hopen : ∀ fd, fd < 3 → ((childTable s).entry fd).isSome) :
    ∃ reached p, runChild (openingStages openFails) heap (node :: next) s =
        .ok (reached, p) ∧
      Attempts (openFails s.round) (listWords node.simpleCommand.elementList)
        (listRedirections node.simpleCommand.elementList)
        (placed (childTable s) s.incomingPipe.readEnd stdinFd)
        (placed (childTable s) s.outgoingPipe.writeEnd stdoutFd)
        reached p := by
  obtain ⟨-, hentry⟩ := Redirections.connectedTable_both hin hout
  obtain ⟨dups, hrun⟩ := Redirections.handleCommandList_connected
    (openFails s.round) node next hin hout heap
  obtain ⟨reached, p, hexecute, hopened, hexecuted, hrefused⟩ :=
    executeCommand_reached (openFails s.round) hcomplete
      ⟨connectedTable s.outgoingPipe.writeEnd stdoutFd
        (connectedTable s.incomingPipe.readEnd stdinFd (childTable s)), [],
        dups, heap⟩
  have hstdin := hentry stdinFd
  have hstdout := hentry stdoutFd
  have hne : stdinFd ≠ stdoutFd := by decide
  simp only [hne, hne.symm, false_and, true_and, if_false] at hstdin hstdout
  -- both standard descriptors are open before the redirections
  have hplaced : ∀ (pipeEnd : Int) (fd : Nat), fd < 3 →
      PipeChoice pipeEnd (childTable s) →
      (placed (childTable s) pipeEnd fd).isSome := by
    intro pipeEnd fd hfd hchoice
    unfold placed
    split
    · rcases hchoice with hnone | ⟨-, hsome⟩
      · omega
      · exact hsome
    · exact hopen fd hfd
  refine ⟨reached, p, hrun.trans hexecute, hopened, fun hall => ?_, hrefused⟩
  obtain ⟨hreached, htable⟩ := hexecuted hall
  refine ⟨hreached, ?_, ?_⟩
  · rw [htable]
    exact foldl_target true _ hstdin (hplaced _ stdinFd (by decide) hin)
  · rw [htable]
    exact foldl_target false _ hstdout (hplaced _ stdoutFd (by decide) hout)

/-- A child whose outgoing end is closed stops before it opens a file. -/
theorem runChild_strays (openFails : Nat → Nat → Bool)
    (hin : Connectable s.incomingPipe.readEnd (childTable s)) {w : Nat}
    (hwrite : s.outgoingPipe.writeEnd = w) (hw : w ≠ stdinFd)
    (hclosed : (childTable s).entry w = none) :
    ∃ p, runChild (openingStages openFails) heap (node :: next) s =
      .ok (none, p) ∧ p.opened = [] := by
  obtain ⟨dups, status, hfirst, hstatus⟩ :=
    connectPipe_quiet (p := .forked (childTable s) heap) hin stdinFd
  have hinput : connectPipe (opening (openFails s.round))
      s.incomingPipe.readEnd stdinFd (.forked (childTable s) heap) = _ :=
    hfirst
  have hnone : (connectedTable s.incomingPipe.readEnd stdinFd
      (childTable s)).entryAt (w : Int) = none := by
    rw [FdTable.entryAt_ofNat, entry_connectedTable, if_neg hw]
    exact hclosed
  refine ⟨{ Process.forked (childTable s) heap with
    table := connectedTable s.incomingPipe.readEnd stdinFd (childTable s)
    dups := dups + 1 }, ?_, rfl⟩
  show handleCommandList (opening (openFails s.round)) (node :: next)
    s.incomingPipe.readEnd s.outgoingPipe.writeEnd
    (.forked (childTable s) heap) = _
  unfold handleCommandList
  simp only [hinput, if_neg (Int.not_lt.mpr hstatus), hwrite]
  rw [connectPipe_closed _ (Int.natCast_nonneg w) hnone]
  rfl

end Command

/-! ## The stages by their places -/

/-- The child attempts its command between these standard descriptors. -/
def ChildAttempts {α : Type} (openFails : Nat → Bool)
    (node : SimpleCommandNode) (stdin stdout : Option (Description α))
    (ending : Ending α) : Prop :=
  ∃ reached p, ending = .ok (reached, p) ∧
    Attempts openFails (listWords node.simpleCommand.elementList)
      (listRedirections node.simpleCommand.elementList) stdin stdout reached p

/-- The child stops before it has opened a file. -/
def ChildStrays {α : Type} (ending : Ending α) : Prop :=
  ∃ p, ending = .ok (none, p) ∧ p.opened = []

/-- Every element of the command is complete. -/
def Complete (node : SimpleCommandNode) : Prop :=
  ∀ n ∈ node.simpleCommand.elementList, ElementComplete n.element

section Places

variable {α : Type} {initial table : FdTable (Description α)}
  {openFails : Nat → Nat → Bool} {heap : Heap} {s : SpawnState α}
  {k r w a b fd : Nat} {d : Description α} {node : SimpleCommandNode}
  {following : SimpleCommandList}

theorem pipeChoice_neg_one (table : FdTable (Description α)) :
    PipeChoice (-1) table :=
  Or.inl (by decide)

theorem pipeChoice_ofNat (hfd : 2 < fd) (h : table.entry fd = some d) :
    PipeChoice (fd : Int) table :=
  Or.inr ⟨Int.ofNat_lt.mpr hfd, by rw [FdTable.entryAt_ofNat, h]; rfl⟩

theorem placed_ofNat (table : FdTable (Description α)) (n fd : Nat) :
    placed table (n : Int) fd = table.entry n := by
  rw [placed, if_pos (Int.natCast_nonneg n), FdTable.entryAt_ofNat]

theorem placed_neg_one (table : FdTable (Description α)) (fd : Nat) :
    placed table (-1) fd = table.entry fd :=
  if_neg (by decide)

/-- A number that is free is not that of a standard descriptor. -/
theorem above_of_free (hopen : StandardOpen initial)
    (hfree : initial.entry r = none) : 2 < r := by
  by_contra hle
  exact hopen r (by omega) hfree

theorem standardOpen_isSome (hopen : StandardOpen initial) (hfd : fd < 3) :
    (initial.entry fd).isSome :=
  Option.isSome_iff_ne_none.mpr (hopen fd hfd)

/-- The only stage. -/
theorem attempts_alone (hcomplete : Complete node)
    (hopen : StandardOpen initial) :
    ChildAttempts (openFails 0) node (initial.entry stdinFd)
      (initial.entry stdoutFd)
      (runChild (openingStages openFails) heap (node :: following)
        ((SpawnState.initial initial).connected true)) := by
  have htable : childTable ((SpawnState.initial initial).connected true) =
      initial := by
    show closeEnd (-1) (closeEnd (-1) initial) = initial
    rw [closeEnd_neg_one, closeEnd_neg_one]
  obtain ⟨reached, p, hrun, hattempts⟩ := runChild_attempts openFails heap
    ((SpawnState.initial initial).connected true) following hcomplete
    (pipeChoice_neg_one _) (pipeChoice_neg_one _)
    fun fd hfd => by rw [htable]; exact standardOpen_isSome hopen hfd
  rw [htable] at hattempts
  exact ⟨reached, p, hrun, hattempts⟩

/-- What the child of the first of several stages holds. -/
theorem entry_childTable_first (hpair : NextPair initial a b) (fd : Nat) :
    (childTable ((SpawnState.initial initial).connected false)).entry fd =
      if fd = a then none
      else if fd = b then some (.writeEnd 0) else initial.entry fd := by
  rw [NextPair.connected (s := SpawnState.initial initial) hpair]
  show (closeEnd (a : Int) (closeEnd (-1) ((initial.set a (.readEnd 0)).set b
    (.writeEnd 0)))).entry fd = _
  rw [entry_closeEnd_ofNat, closeEnd_neg_one, FdTable.entry_set,
    FdTable.entry_set]
  by_cases ha : fd = a
  · rw [if_pos ha, if_pos ha]
  · rw [if_neg ha, if_neg ha, if_neg ha]

/-- The first of several stages writes to pipe 0. -/
theorem attempts_first (hcomplete : Complete node)
    (hopen : StandardOpen initial) (hpair : NextPair initial a b) :
    ChildAttempts (openFails 0) node (initial.entry stdinFd)
      (some (.writeEnd 0))
      (runChild (openingStages openFails) heap (node :: following)
        ((SpawnState.initial initial).connected false)) := by
  have hentries := entry_childTable_first hpair
  have hwrite : ((SpawnState.initial initial).connected
      false).outgoingPipe.writeEnd = (b : Int) := by
    rw [NextPair.connected (s := SpawnState.initial initial) hpair]
  have hb : (childTable ((SpawnState.initial initial).connected false)).entry
      b = some (.writeEnd 0) := by
    rw [hentries, if_neg (Nat.ne_of_gt hpair.lt), if_pos rfl]
  have hkept : ∀ fd, fd < 3 →
      (childTable ((SpawnState.initial initial).connected false)).entry fd =
        initial.entry fd := by
    intro fd hfd
    rw [hentries, if_neg (hopen.ne hfd hpair.first),
      if_neg (hopen.ne hfd hpair.second)]
  obtain ⟨reached, p, hrun, hattempts⟩ := runChild_attempts openFails heap
    ((SpawnState.initial initial).connected false) following hcomplete
    (pipeChoice_neg_one _)
    (by
      rw [hwrite]
      exact pipeChoice_ofNat (above_of_free hopen hpair.second) hb)
    fun fd hfd => by rw [hkept fd hfd]; exact standardOpen_isSome hopen hfd
  have hread : ((SpawnState.initial initial).connected
      false).incomingPipe.readEnd = -1 := by
    rw [SpawnState.connected_incomingPipe]
    rfl
  rw [hread, placed_neg_one, hwrite, placed_ofNat, hb,
    hkept stdinFd (by decide)] at hattempts
  exact ⟨reached, p, hrun, hattempts⟩

/-- A middle stage whose new write end has another number than the old one. -/
theorem attempts_middle (hcomplete : Complete node)
    (hopen : StandardOpen initial) (h : Carrying initial s k r w)
    (hpair : NextPair s.table a b) (hne : b ≠ w) :
    ChildAttempts (openFails (k + 1)) node (some (.readEnd k))
      (some (.writeEnd (k + 1)))
      (runChild (openingStages openFails) heap (node :: following)
        (s.connected false)) := by
  have hread : (s.connected false).incomingPipe.readEnd = (r : Int) := by
    rw [SpawnState.connected_incomingPipe, h.incoming]
  have hwrite : (s.connected false).outgoingPipe.writeEnd = (b : Int) := by
    rw [hpair.connected]
  have hround : (s.connected false).round = k + 1 := by
    rw [SpawnState.connected_round, h.round]
  have hr := h.readEnd_open hpair
  have hb : (childTable (s.connected false)).entry b =
      some (.writeEnd (k + 1)) := by
    rw [h.entry_childTable hpair,
      if_neg (not_or.mpr ⟨Nat.ne_of_gt hpair.lt, hne⟩), if_pos rfl]
  have hfreeA := (h.free hpair.first).1
  have hfreeB := (h.free hpair.second).1
  have hkept : ∀ fd, fd < 3 →
      (childTable (s.connected false)).entry fd = initial.entry fd := by
    intro fd hfd
    rw [h.entry_childTable hpair,
      if_neg (not_or.mpr ⟨hopen.ne hfd hfreeA, hopen.ne hfd h.writeFree⟩),
      if_neg (hopen.ne hfd hfreeB), if_neg (hopen.ne hfd h.readFree)]
  obtain ⟨reached, p, hrun, hattempts⟩ := runChild_attempts openFails heap
    (s.connected false) following hcomplete
    (by
      rw [hread]
      exact pipeChoice_ofNat (above_of_free hopen h.readFree) hr)
    (by
      rw [hwrite]
      exact pipeChoice_ofNat (above_of_free hopen hfreeB) hb)
    fun fd hfd => by rw [hkept fd hfd]; exact standardOpen_isSome hopen hfd
  rw [hread, hwrite, hround, placed_ofNat, placed_ofNat, hr, hb] at hattempts
  exact ⟨reached, p, hrun, hattempts⟩

/-- When it has the same number, the stage closes its own output. -/
theorem strays_middle (openFails : Nat → Nat → Bool)
    (hopen : StandardOpen initial) (h : Carrying initial s k r w)
    (hpair : NextPair s.table a w) :
    ChildStrays (runChild (openingStages openFails) heap (node :: following)
      (s.connected false)) := by
  have hread : (s.connected false).incomingPipe.readEnd = (r : Int) := by
    rw [SpawnState.connected_incomingPipe, h.incoming]
  have hwrite : (s.connected false).outgoingPipe.writeEnd = (w : Int) := by
    rw [hpair.connected]
  apply runChild_strays openFails _ hwrite
  · exact (hopen.ne (by decide) h.writeFree).symm
  · rw [h.entry_childTable hpair, if_pos (Or.inr rfl)]
  · rw [hread]
    exact connectable_ofNat (h.readEnd_open hpair)

/-- The last of several stages reads the last pipe. -/
theorem attempts_last (hcomplete : Complete node)
    (hopen : StandardOpen initial) (h : Carrying initial s k r w) :
    ChildAttempts (openFails (k + 1)) node (some (.readEnd k))
      (initial.entry stdoutFd)
      (runChild (openingStages openFails) heap (node :: following)
        (s.connected true)) := by
  have hentries : ∀ fd, (childTable (s.connected true)).entry fd =
      if fd = w then none
      else if fd = r then some (.readEnd k) else initial.entry fd := by
    intro fd
    show (closeEnd (-1) (closeEnd s.incomingPipe.writeEnd s.table)).entry fd = _
    rw [closeEnd_neg_one, h.incoming, entry_closeEnd_ofNat, h.entries]
  have hread : (s.connected true).incomingPipe.readEnd = (r : Int) := by
    rw [SpawnState.connected_incomingPipe, h.incoming]
  have hround : (s.connected true).round = k + 1 := by
    rw [SpawnState.connected_round, h.round]
  have hr : (childTable (s.connected true)).entry r = some (.readEnd k) := by
    rw [hentries, if_neg h.ne, if_pos rfl]
  have hkept : ∀ fd, fd < 3 →
      (childTable (s.connected true)).entry fd = initial.entry fd := by
    intro fd hfd
    rw [hentries, if_neg (hopen.ne hfd h.writeFree),
      if_neg (hopen.ne hfd h.readFree)]
  obtain ⟨reached, p, hrun, hattempts⟩ := runChild_attempts openFails heap
    (s.connected true) following hcomplete
    (by
      rw [hread]
      exact pipeChoice_ofNat (above_of_free hopen h.readFree) hr)
    (pipeChoice_neg_one _)
    fun fd hfd => by rw [hkept fd hfd]; exact standardOpen_isSome hopen hfd
  have hwrite : (s.connected true).outgoingPipe.writeEnd = -1 := rfl
  rw [hread, hround, placed_ofNat, hr, hwrite, placed_neg_one,
    hkept stdoutFd (by decide)] at hattempts
  exact ⟨reached, p, hrun, hattempts⟩

end Places

/-! ## All stages -/

section Pipeline

variable {α : Type} {initial : FdTable (Description α)}
  {openFails : Nat → Nat → Bool} {heap : Heap} {f₀ f₁ f₂ : Nat}

/-- What child `k` of `n` comes to. -/
structure StageEnds (initial : FdTable (Description α))
    (openFails : Nat → Nat → Bool) (n k : Nat) (node : SimpleCommandNode)
    (ending : Ending α) : Prop where
  executed : Executed n k → ChildAttempts (openFails k) node
    (stageInput initial k) (stageOutput initial n k) ending
  strayed : ¬ Executed n k → ChildStrays ending

/-- One child for each command, the first being number `k` of `n`. -/
structure AllEnd (initial : FdTable (Description α))
    (openFails : Nat → Nat → Bool) (n k : Nat) (commands : SimpleCommandList)
    (children : List (Ending α)) : Prop where
  length : children.length = commands.length
  ends : ∀ i node, commands[i]? = some node → ∃ ending,
    children[i]? = some ending ∧
      StageEnds initial openFails n (k + i) node ending

theorem AllEnd.nil (n k : Nat) :
    AllEnd initial openFails n k [] ([] : List (Ending α)) :=
  ⟨rfl, fun i node h => by cases h⟩

theorem AllEnd.cons {n k : Nat} {node : SimpleCommandNode}
    {rest : SimpleCommandList} {ending : Ending α}
    {children : List (Ending α)}
    (hfirst : StageEnds initial openFails n k node ending)
    (hrest : AllEnd initial openFails n (k + 1) rest children) :
    AllEnd initial openFails n k (node :: rest) (ending :: children) := by
  refine ⟨congrArg (· + 1) hrest.length, fun i node' hget => ?_⟩
  cases i with
  | zero =>
      cases hget
      exact ⟨ending, rfl, hfirst⟩
  | succ i =>
      obtain ⟨ending', hchild, hends⟩ := hrest.ends i node' hget
      rw [Nat.add_right_comm, Nat.add_assoc] at hends
      exact ⟨ending', hchild, hends⟩

theorem spawnLoop_opening (openFails : Nat → Nat → Bool) (heap : Heap)
    (node : SimpleCommandNode) (next : SimpleCommandList) (s : SpawnState α) :
    (spawnLoop (openingStages openFails) heap (node :: next) s).children =
      runChild (openingStages openFails) heap (node :: next)
          (s.connected next.isEmpty) ::
        (spawnLoop (openingStages openFails) heap next
          (s.connected next.isEmpty).next).children := by
  have hpipe : (!next.isEmpty &&
      (openingStages openFails).pipeFails s.round) = false :=
    Bool.and_false _
  rw [spawnLoop, hpipe]
  rfl

theorem StageEnds.of_attempts {n k : Nat} {node : SimpleCommandNode}
    {ending : Ending α} (hexecuted : Executed n k)
    (h : ChildAttempts (openFails k) node (stageInput initial k)
      (stageOutput initial n k) ending) :
    StageEnds initial openFails n k node ending :=
  ⟨fun _ => h, fun hnot => absurd hexecuted hnot⟩

theorem StageEnds.of_strays {n k : Nat} {node : SimpleCommandNode}
    {ending : Ending α} (hnot : ¬ Executed n k) (h : ChildStrays ending) :
    StageEnds initial openFails n k node ending :=
  ⟨fun hexecuted => absurd hexecuted hnot, fun _ => h⟩

/-- The last stage, behind others. -/
theorem stageEnds_last {k r w : Nat} {s : SpawnState α}
    {node : SimpleCommandNode} (hcomplete : Complete node)
    (hopen : StandardOpen initial) (h : Carrying initial s k r w) :
    StageEnds initial openFails (k + 2) (k + 1) node
      (runChild (openingStages openFails) heap [node] (s.connected true)) := by
  apply StageEnds.of_attempts (Or.inr rfl)
  rw [stageInput, if_neg (Nat.succ_ne_zero k), Nat.add_sub_cancel,
    stageOutput, if_pos rfl]
  exact attempts_last hcomplete hopen h

/-- While one of the two lowest free numbers is carried, the next pipe gets
the other one and `f₂`. -/
theorem exists_nextPair {k r w : Nat} {s : SpawnState α}
    (hfree : FreeNumbers initial f₀ f₁ f₂) (h : Carrying initial s k r w)
    (hr : r = f₀ ∨ r = f₁) :
    ∃ a, (a = f₀ ∨ a = f₁) ∧ NextPair s.table a f₂ := by
  rcases hr with rfl | rfl
  · exact ⟨f₁, Or.inr rfl, hfree.second_pair h⟩
  · exact ⟨f₀, Or.inl rfl, hfree.third_pair h⟩

/-- From the third stage on: the number of the old write end is `f₂`, and so
is that of every new one. -/
theorem allEnd_tail (hopen : StandardOpen initial)
    (hfree : FreeNumbers initial f₀ f₁ f₂) (commands : SimpleCommandList)
    (hcomplete : ∀ node ∈ commands, Complete node) {k r : Nat}
    {s : SpawnState α} (hk : 1 ≤ k) (h : Carrying initial s k r f₂)
    (hr : r = f₀ ∨ r = f₁) :
    AllEnd initial openFails (k + 1 + commands.length) (k + 1) commands
      (spawnLoop (openingStages openFails) heap commands s).children := by
  induction commands generalizing k r s with
  | nil => exact AllEnd.nil _ _
  | cons node rest ih =>
      have hnode := hcomplete node List.mem_cons_self
      have hothers := fun n hn => hcomplete n (List.mem_cons_of_mem node hn)
      rw [spawnLoop_opening]
      cases rest with
      | nil =>
          exact AllEnd.cons (stageEnds_last hnode hopen h) (AllEnd.nil _ _)
      | cons next more =>
          obtain ⟨a, ha, hpair⟩ := exists_nextPair hfree h hr
          have hlength : k + 1 + (node :: next :: more).length =
              k + 1 + 1 + (next :: more).length := by
            simp only [List.length_cons]
            omega
          have hnot : ¬ Executed (k + 1 + (node :: next :: more).length)
              (k + 1) := by
            simp only [Executed, List.length_cons]
            omega
          apply AllEnd.cons
          · exact .of_strays hnot (strays_middle openFails hopen h hpair)
          · rw [hlength]
            exact ih hothers (Nat.le_add_left 1 k) (h.next hpair) ha

/-- Every stage, from the first one on. -/
theorem allEnd_spawnLoop (hopen : StandardOpen initial)
    (openFails : Nat → Nat → Bool) (heap : Heap)
    (commands : SimpleCommandList)
    (hcomplete : ∀ node ∈ commands, Complete node) :
    AllEnd initial openFails commands.length 0 commands
      (spawnLoop (openingStages openFails) heap commands
        (.initial initial)).children := by
  obtain ⟨f₀, f₁, f₂, hfree⟩ := exists_freeNumbers initial
  have hcarry := Carrying.start hfree.initial_pair
  rcases commands with _ | ⟨first, _ | ⟨second, rest⟩⟩
  · exact AllEnd.nil _ _
  · rw [spawnLoop_opening]
    refine AllEnd.cons (.of_attempts (Or.inr rfl) ?_) (AllEnd.nil _ _)
    exact attempts_alone (hcomplete _ List.mem_cons_self) hopen
  · have hfirst := hcomplete first List.mem_cons_self
    have hothers := fun n hn => hcomplete n (List.mem_cons_of_mem first hn)
    have hsecond := hothers second List.mem_cons_self
    have hpair := hfree.second_pair hcarry
    rw [spawnLoop_opening]
    refine AllEnd.cons (.of_attempts (Or.inl (by decide)) ?_) ?_
    · rw [stageOutput, if_neg (by simp)]
      exact attempts_first hfirst hopen hfree.initial_pair
    · rw [spawnLoop_opening]
      cases rest with
      | nil =>
          exact AllEnd.cons (stageEnds_last hsecond hopen hcarry)
            (AllEnd.nil _ _)
      | cons third more =>
          refine AllEnd.cons (.of_attempts (Or.inl (by decide)) ?_) ?_
          · rw [stageOutput, if_neg (by simp)]
            exact attempts_middle hsecond hopen hcarry hpair
              (Nat.ne_of_gt hfree.lt₂)
          · have hlength : (first :: second :: third :: more).length =
                1 + 1 + (third :: more).length := by
              simp only [List.length_cons]
              omega
            rw [hlength]
            exact allEnd_tail hopen hfree _
              (fun n hn => hothers n (List.mem_cons_of_mem second hn))
              (Nat.le_refl 1) (hcarry.next hpair) (Or.inr rfl)

end Pipeline

/-! ## The tree of a line -/

theorem eraseElement_redirection {element : SimpleCommandElement}
    {isInput : Bool} {w : Word}
    (h : eraseElement element = elementContent (.redirect isInput w)) :
    element.isRedirection ≠ 0 ∧
      elementRedirection element = some (isInput, w.text) := by
  obtain ⟨hflag, block, hpointer⟩ := eraseElement_redirect h
  refine ⟨by rw [hflag]; decide, ?_⟩
  simp only [elementRedirection, hpointer, directionFlag_ne_zero]

/-- What the tree of a stage tells the interpreter. -/
theorem stage_of_erase (elements : List Element)
    {nodes : SimpleCommandElementList}
    (herase : eraseElementList nodes = elementNodes elements) :
    (∀ n ∈ nodes, ElementComplete n.element) ∧
      listWords nodes = elementArguments elements ∧
      listRedirections nodes = elementRedirections elements := by
  induction elements generalizing nodes with
  | nil =>
      have hnil : nodes = [] := List.map_eq_nil_iff.mp herase
      subst hnil
      exact ⟨fun n hn => absurd hn List.not_mem_nil, rfl, rfl⟩
  | cons element elements ih =>
      obtain ⟨node, next, rfl, hnode, hnext⟩ := List.map_eq_cons_iff.mp herase
      have helement : eraseElement node.element = elementContent element :=
        congrArg SimpleCommandElementNode.element hnode
      obtain ⟨hcomplete, hwords, hredirections⟩ := ih hnext
      cases element with
      | word w =>
          obtain ⟨hflag, hword⟩ := eraseElement_word helement
          refine ⟨List.forall_mem_cons.mpr
            ⟨Or.inl ⟨hflag, by rw [hword]; rfl⟩, hcomplete⟩, ?_, ?_⟩
          · rw [listWords_word hflag hword, hwords]
            rfl
          · rw [Redirections.listRedirections_word hflag, hredirections]
            rfl
      | redirect isInput w =>
          obtain ⟨hflag, hr⟩ := eraseElement_redirection helement
          refine ⟨List.forall_mem_cons.mpr
            ⟨Or.inr ⟨hflag, by rw [hr]; rfl⟩, hcomplete⟩, ?_, ?_⟩
          · rw [listWords_redirection hflag, hwords]
            rfl
          · rw [Redirections.listRedirections_redirection hflag hr,
              hredirections]
            rfl

theorem complete_of_erase {list : SimpleList} {line : CommandLine}
    (h : eraseSimpleList list = lineTree line) :
    ∀ node ∈ list.pipeline.simpleCommandList, Complete node := by
  intro node hnode
  obtain ⟨k, hlt, hget⟩ := List.mem_iff_getElem.mp hnode
  have hk : k < line.stages.length := by
    rw [← length_of_erase h]
    exact hlt
  obtain ⟨node', next, hdrop, herase⟩ :=
    drop_of_erase h (List.getElem?_eq_getElem hk)
  rw [List.drop_eq_getElem_cons hlt, hget] at hdrop
  cases hdrop
  exact (stage_of_erase _ herase).1

/-- **A pipeline of any length.**  There is one child for each stage.  The
first two and the last attempt their commands, between the pipes of their
neighbours and with the redirections on top; every other one stops before it
has opened a file. -/
theorem spawnPipeline_stages {α : Type} (openFails : Nat → Nat → Bool)
    (heap : Heap) {list : SimpleList} {line : CommandLine}
    (hlist : eraseSimpleList list = lineTree line) (table : FdTable α)
    (hopen : ∀ fd, fd < 3 → table.entry fd ≠ none) :
    (spawnPipeline (openingStages openFails) heap list table).children.length =
      line.stages.length ∧
    ∀ k stage, line.stages[k]? = some stage → ∃ reached p,
      (spawnPipeline (openingStages openFails) heap list table).children[k]? =
        some (.ok (reached, p)) ∧
      (Executed line.stages.length k →
        Attempts (openFails k) (elementArguments stage.elements)
          (elementRedirections stage.elements)
          (stageInput (table.map .inherited) k)
          (stageOutput (table.map .inherited) line.stages.length k)
          reached p) ∧
      (¬ Executed line.stages.length k → reached = none ∧ p.opened = []) := by
  have hstandard : StandardOpen (table.map Description.inherited) := by
    intro fd hfd hnone
    rw [FdTable.entry_map, Option.map_eq_none_iff] at hnone
    exact hopen fd hfd hnone
  have hall := allEnd_spawnLoop hstandard openFails heap
    list.pipeline.simpleCommandList (complete_of_erase hlist)
  have hlength := length_of_erase hlist
  refine ⟨hall.length.trans hlength, fun k stage hstage => ?_⟩
  obtain ⟨node, next, hdrop, herase⟩ := drop_of_erase hlist hstage
  have hnode : list.pipeline.simpleCommandList[k]? = some node := by
    rw [← List.head?_drop, hdrop]
    rfl
  obtain ⟨-, hwords, hredirections⟩ := stage_of_erase _ herase
  obtain ⟨ending, hchild, hends⟩ := hall.ends k node hnode
  rw [Nat.zero_add, hlength] at hends
  by_cases hexecuted : Executed line.stages.length k
  · obtain ⟨reached, p, rfl, hattempts⟩ := hends.executed hexecuted
    rw [hwords, hredirections] at hattempts
    exact ⟨reached, p, hchild, fun _ => hattempts,
      fun hnot => absurd hexecuted hnot⟩
  · obtain ⟨p, rfl, hopened⟩ := hends.strayed hexecuted
    exact ⟨none, p, hchild, fun h => absurd h hexecuted,
      fun _ => ⟨rfl, hopened⟩⟩

/-- The same, by what is written between the bars of the line. -/
theorem spawnPipeline_segments {α : Type} (openFails : Nat → Nat → Bool)
    (heap : Heap) {list : SimpleList} {line : CommandLine}
    (hlist : eraseSimpleList list = lineTree line) (table : FdTable α)
    (hopen : ∀ fd, fd < 3 → table.entry fd ≠ none) :
    (spawnPipeline (openingStages openFails) heap list table).children.length =
      (segments line.tokens).length ∧
    ∀ k segment, (segments line.tokens)[k]? = some segment → ∃ reached p,
      (spawnPipeline (openingStages openFails) heap list table).children[k]? =
        some (.ok (reached, p)) ∧
      (Executed (segments line.tokens).length k →
        Attempts (openFails k) (segmentArguments segment)
          (segmentRedirections segment)
          (stageInput (table.map .inherited) k)
          (stageOutput (table.map .inherited) (segments line.tokens).length k)
          reached p) ∧
      (¬ Executed (segments line.tokens).length k →
        reached = none ∧ p.opened = []) := by
  obtain ⟨hlength, hstages⟩ :=
    spawnPipeline_stages openFails heap hlist table hopen
  have hcount : (segments line.tokens).length = line.stages.length := by
    rw [segments_tokens, List.length_map]
  refine ⟨hlength.trans hcount.symm, fun k segment hsegment => ?_⟩
  rw [segments_tokens, List.getElem?_map] at hsegment
  obtain ⟨stage, hstage, rfl⟩ := Option.map_eq_some_iff.mp hsegment
  rw [hcount]
  show ∃ reached p, _ ∧
    (_ → Attempts _ (segmentArguments (elementTokens stage.elements))
      (segmentRedirections (elementTokens stage.elements)) _ _ _ _) ∧ _
  rw [segmentArguments_elements, segmentRedirections_elements]
  exact hstages k stage hstage

end OsLabs.Iwish.PipelineStages
