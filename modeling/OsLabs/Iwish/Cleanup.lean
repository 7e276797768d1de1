import OsLabs.Iwish.ArgumentArray
import OsLabs.Iwish.Script

/-!
# What the children of the shell release

A job handler inherits the line and its tree from the shell, and so does every
stage whose `execvp` fails or is not reached: they come back to
`interpretInput`, which releases the tree, the token array and the line before
it exits.  In between `handleCommandList` has to release the argument array.

`line_cleanup`: when every request for the line itself has been granted, every
handler releases everything exactly once, and a stage does unless an element
of its command has failed.
-/

namespace OsLabs.Iwish.Cleanup

open OsLabs.Posix
open OsLabs.Iwish.DBA
open OsLabs.Iwish.ParserTokens
open OsLabs.Iwish.Grammar
open OsLabs.Iwish.ParseTree
open OsLabs.Iwish.Interpreter
open OsLabs.Iwish.ArgumentArray
open OsLabs.Iwish.Redirections (opening)
open OsLabs.Iwish.Ownership
open OsLabs.Iwish.Shell
open OsLabs.Iwish.Sessions
open OsLabs.Iwish.Script

/-! ## The source -/

section

variable {α : Type} (env : Environment)

/-- The part of `handleCommandList` behind the pipes, with an `execvp` that
fails: the process when -1 is returned. -/
def executeCommandReturns (elementList : SimpleCommandElementList)
    (p : Process α) : Except Fault (Process α) := do
  let (commandlineArguments, heap) :=
    makeNewDynamicByteArray env.mallocFails pointerSize p.heap
  let (status, commandlineArguments, p) ←
    handleCommandElementList env elementList commandlineArguments
      { p with heap := heap }
  if status < 0 then
    return freeArguments commandlineArguments p
  else
    let (_, commandlineArguments, p) ←
      handleCommandlineArgument env none commandlineArguments p
    match commandlineArguments with
    | none => throw .nullDereference
    | some arr =>
      let p := freeArguments commandlineArguments p
      let _ ← loadPointerArray (getInternalArray arr)
      return { p with heap := p.heap.free arr.elementsBlock }

/-- `handleCommandList`, with an `execvp` that fails. -/
def handleCommandListReturns (list : SimpleCommandList)
    (incomingInputPipe incomingOutputPipe : Int) (p : Process α) :
    Except Fault (Process α) :=
  match list with
  | [] => .ok p
  | node :: _ =>
    let (status, p) := connectPipe env incomingInputPipe stdinFd p
    if status < 0 then .ok p
    else
      let (status, p) := connectPipe env incomingOutputPipe stdoutFd p
      if status < 0 then .ok p
      else executeCommandReturns env node.simpleCommand.elementList p

end

/-- What `interpretInput` does with the heap before a child exits. -/
def exitLine (command : Command) (heap : Heap) : Heap :=
  freeLine command.strings command.input
    (freeSimpleList (some command.list) heap)

/-! ## The two readings of `handleCommandList` agree -/

section Agree

variable {α : Type} {env : Environment} {p : Process α}

/-- Behind `execvp` only `free(newargv)` is left. -/
theorem executeCommandReturns_eq (elementList : SimpleCommandElementList) :
    match executeCommand env elementList p with
    | .error fault => executeCommandReturns env elementList p = .error fault
    | .ok (none, p') => executeCommandReturns env elementList p = .ok p'
    | .ok (some _, p') => ∃ block,
        executeCommandReturns env elementList p =
          .ok (withHeap p' (p'.heap.free block)) := by
  unfold executeCommand executeCommandReturns
  obtain ⟨dynArr, heap⟩ := makeNewDynamicByteArray (β := PointerByte CString)
    env.mallocFails pointerSize p.heap
  simp only
  cases handleCommandElementList env elementList dynArr
      { p with heap := heap } with
  | error fault => rfl
  | ok result =>
      obtain ⟨status, dynArr₁, p₁⟩ := result
      simp only [except_ok_bind]
      by_cases hstatus : status < 0
      · rw [if_pos hstatus, if_pos hstatus]
        rfl
      · rw [if_neg hstatus, if_neg hstatus]
        cases handleCommandlineArgument env none dynArr₁ p₁ with
        | error fault => rfl
        | ok result =>
            obtain ⟨status₂, dynArr₂, p₂⟩ := result
            cases dynArr₂ with
            | none => rfl
            | some arr =>
                simp only [except_ok_bind]
                cases loadPointerArray (getInternalArray arr) with
                | error fault => rfl
                | ok newargv => exact ⟨arr.elementsBlock, rfl⟩

/-- A command that does not reach `execvp` comes back as it was left, and one
that does has a block less. -/
theorem handleCommandListReturns_eq (list : SimpleCommandList)
    (input output : Int) :
    match handleCommandList env list input output p with
    | .error fault =>
      handleCommandListReturns env list input output p = .error fault
    | .ok (none, p') =>
      handleCommandListReturns env list input output p = .ok p'
    | .ok (some _, p') => ∃ block,
        handleCommandListReturns env list input output p =
          .ok (withHeap p' (p'.heap.free block)) := by
  cases list with
  | nil => rfl
  | cons node next =>
      unfold handleCommandList handleCommandListReturns
      generalize connectPipe env input stdinFd p = first
      by_cases hinput : first.1 < 0
      · simp only [if_pos hinput]
      · simp only [if_neg hinput]
        generalize connectPipe env output stdoutFd first.2 = second
        by_cases houtput : second.1 < 0
        · simp only [if_pos houtput]
        · simp only [if_neg houtput]
          exact executeCommandReturns_eq node.simpleCommand.elementList

end Agree

/-! ## The argument array -/

/-- What the argument array owns. -/
def argumentBlocks (dynArr : Arguments) : Multiset Nat :=
  match dynArr with
  | none => 0
  | some arr => arrayBlocks arr

section Arrays

variable {α : Type} {env : Environment} {start heap : Heap}
  {blocks : Multiset Nat} {dynArr dynArr' : Arguments} {p p' : Process α}
  {status : Int} {list : SimpleCommandElementList}

/-- The array is made, or nothing is left of it. -/
theorem newArguments_owns {fails : FailurePlan} {typeSize : Nat}
    (h : start.Owns p.heap blocks)
    (hnew : makeNewDynamicByteArray fails typeSize p.heap = (dynArr, heap)) :
    start.Owns heap (argumentBlocks dynArr + blocks) := by
  cases dynArr with
  | some arr => exact makeNewDynamicByteArray_owns h hnew
  | none =>
      unfold makeNewDynamicByteArray Heap.malloc at hnew
      rw [argumentBlocks, zero_add]
      cases hfirst : fails p.heap.calls with
      | true =>
          simp only [hfirst, if_true] at hnew
          cases hnew
          exact h.refuse
      | false =>
          simp only [hfirst, Bool.false_eq_true, if_false] at hnew
          cases hsecond : fails (p.heap.calls + 1) with
          | true =>
              simp only [hsecond, if_true] at hnew
              cases hnew
              exact h.grant.refuse.free
          | false =>
              simp only [hsecond, Bool.false_eq_true, if_false] at hnew
              cases hnew

theorem handleCommandlineArgument_owns {arg : Option CString}
    (h : start.Owns p.heap (argumentBlocks dynArr + blocks))
    (hadd : handleCommandlineArgument env arg dynArr p =
      .ok (status, dynArr', p')) :
    start.Owns p'.heap (argumentBlocks dynArr' + blocks) := by
  cases dynArr with
  | none => cases hadd
  | some arr =>
      obtain ⟨⟨status', arr', heap'⟩, hgrown, hadd⟩ :=
        except_bind_eq_ok.mp hadd
      cases hadd
      exact addElemToArr_owns h hgrown

/-- The elements change the array, and no other block. -/
theorem handleCommandElementList_owns
    (hfilled : ∀ node ∈ list, ElementFilled node.element)
    (h : start.Owns p.heap (argumentBlocks dynArr + blocks))
    (hrun : handleCommandElementList env list dynArr p =
      .ok (status, dynArr', p')) :
    start.Owns p'.heap (argumentBlocks dynArr' + blocks) := by
  induction list generalizing dynArr p with
  | nil =>
      cases hrun
      exact h
  | cons node next ih =>
      have hnode := hfilled node List.mem_cons_self
      have hrest : ∀ n ∈ next, ElementFilled n.element := fun n hn =>
        hfilled n (List.mem_cons_of_mem node hn)
      by_cases hflag : node.element.isRedirection ≠ 0
      · obtain ⟨p₁, hheap, ⟨-, hstep⟩ | ⟨-, hstep⟩⟩ :=
          handleCommandElementList_redirection env hflag hnode next dynArr p
        · rw [hstep] at hrun
          cases hrun
          rw [hheap]
          exact h
        · rw [hstep] at hrun
          rw [← hheap] at h
          exact ih hrest h hrun
      · rw [handleCommandElementList, if_neg hflag] at hrun
        obtain ⟨⟨status₁, dynArr₁, p₁⟩, hadd, hrun⟩ :=
          except_bind_eq_ok.mp hrun
        have howns := handleCommandlineArgument_owns h hadd
        simp only at hrun
        by_cases hstatus : status₁ < 0
        · rw [if_pos hstatus] at hrun
          cases hrun
          exact howns
        · rw [if_neg hstatus] at hrun
          exact ih hrest howns hrun

/-- Without an array there is none behind the elements. -/
theorem handleCommandElementList_none
    (hrun : handleCommandElementList env list none p =
      .ok (status, dynArr', p')) : dynArr' = none := by
  induction list generalizing p with
  | nil =>
      cases hrun
      rfl
  | cons node next ih =>
      rw [handleCommandElementList] at hrun
      by_cases hflag : node.element.isRedirection ≠ 0
      · rw [if_pos hflag] at hrun
        obtain ⟨⟨status₁, p₁⟩, -, hrun⟩ := except_bind_eq_ok.mp hrun
        simp only at hrun
        by_cases hstatus : status₁ < 0
        · rw [if_pos hstatus] at hrun
          cases hrun
          rfl
        · rw [if_neg hstatus] at hrun
          exact ih hrun
      · rw [if_neg hflag] at hrun
        cases hrun

/-- `free(commandlineArguments)` leaves the elements. -/
theorem freeArguments_owns {arr : DynamicByteArray (PointerByte CString)}
    (h : start.Owns p.heap (argumentBlocks (some arr) + blocks)) :
    start.Owns (freeArguments (some arr) p).heap
      ({arr.elementsBlock} + blocks) := by
  apply Heap.Owns.free
  apply h.of_eq
  rw [argumentBlocks, arrayBlocks, add_assoc]

end Arrays

/-! ## A command -/

/-- The array of a command is made, and then one of its elements fails. -/
def ElementFails {α : Type} (env : Environment)
    (list : SimpleCommandElementList) (p : Process α) : Prop :=
  env.mallocFails p.heap.calls = false ∧
    env.mallocFails (p.heap.calls + 1) = false ∧
    ¬ (redirectionsSucceed env list p = true ∧
      Granted env.mallocFails (p.heap.calls + 2) initSize
        (listWords list).length)

/-- `arr` is what the argument array of a command has grown to when one of its
elements fails. -/
def FailedWith {α : Type} (env : Environment)
    (list : SimpleCommandElementList) (p : Process α)
    (arr : DynamicByteArray (PointerByte CString)) : Prop :=
  ∃ made heap status p', makeNewDynamicByteArray env.mallocFails pointerSize
      p.heap = (some made, heap) ∧
    handleCommandElementList env list (some made) { p with heap := heap } =
      .ok (status, some arr, p') ∧ status < 0

/-- What a command leaves that comes back: nothing, or the elements of the
array with which it has failed. -/
inductive Leaves {α : Type} (env : Environment)
    (list : SimpleCommandElementList) (p : Process α) : Multiset Nat → Prop
  | nothing (h : ¬ ElementFails env list p) : Leaves env list p 0
  | elements {arr : DynamicByteArray (PointerByte CString)}
      (h : ElementFails env list p) (harr : FailedWith env list p arr) :
      Leaves env list p {arr.elementsBlock}

section Command

variable {α : Type} {env : Environment} {start : Heap}
  {blocks : Multiset Nat} {p p' : Process α}
  {list : SimpleCommandElementList}

/-- A command that comes back leaves the elements of its array, when one of
its own elements has failed, and nothing else. -/
theorem executeCommandReturns_owns
    (hfilled : ∀ node ∈ list, ElementFilled node.element)
    (h : start.Owns p.heap blocks)
    (hrun : executeCommandReturns env list p = .ok p') :
    ∃ left : Multiset Nat, start.Owns p'.heap (left + blocks) ∧
      Leaves env list p left := by
  have hmade := makeNewDynamicByteArray_none_iff (β := PointerByte CString)
    env.mallocFails pointerSize p.heap
  unfold executeCommandReturns at hrun
  rcases hnew : makeNewDynamicByteArray (β := PointerByte CString)
    env.mallocFails pointerSize p.heap with ⟨dynArr, heap⟩
  rw [hnew] at hrun hmade
  obtain ⟨⟨status, dynArr', p₁⟩, helements, hrun⟩ :=
    except_bind_eq_ok.mp hrun
  have howns := handleCommandElementList_owns hfilled
    (show start.Owns (withHeap p heap).heap _ from newArguments_owns h hnew)
    helements
  cases dynArr with
  | none =>
      -- only a redirection that fails keeps the null pointer from being used
      have hnot : ¬ ElementFails env list p := by
        rintro ⟨hheader, helements, -⟩
        rcases hmade.mp rfl with hrefused | hrefused
        · exact Bool.false_ne_true (hheader.symm.trans hrefused)
        · exact Bool.false_ne_true (helements.symm.trans hrefused)
      obtain rfl := handleCommandElementList_none helements
      simp only at hrun
      by_cases hstatus : status < 0
      · rw [if_pos hstatus] at hrun
        cases hrun
        exact ⟨0, howns, .nothing hnot⟩
      · rw [if_neg hstatus] at hrun
        cases hrun
  | some arr =>
      have hgranted : env.mallocFails p.heap.calls = false ∧
          env.mallocFails (p.heap.calls + 1) = false := by
        have hnone := mt hmade.mpr (Option.some_ne_none arr)
        simpa using hnone
      obtain ⟨hempty, htype, hcapacity, hcalls⟩ :=
        makeNewDynamicByteArray_filled hnew
      obtain ⟨status', arr₁, p₂, helements', hcases⟩ :=
        handleCommandElementList_array env hfilled
          (show HoldsOnly arr [] from ⟨htype, hempty⟩) (withHeap p heap)
      obtain ⟨rfl, rfl, rfl⟩ : status' = status ∧ some arr₁ = dynArr' ∧
          p₂ = p₁ := by
        have hsame := helements'.symm.trans helements
        simpa using hsame
      have hplan : (withHeap p heap).heap.calls = p.heap.calls + 2 := hcalls
      rw [redirectionsSucceed_withHeap env p heap hfilled, hplan, hcapacity,
        List.length_nil, Nat.zero_add, List.nil_append] at hcases
      simp only at hrun
      rcases hcases with ⟨hstatus, hfail⟩ | ⟨rfl, hdone, hholds, hwords⟩
      · rw [if_pos hstatus] at hrun
        cases hrun
        exact ⟨{arr₁.elementsBlock}, freeArguments_owns howns,
          .elements ⟨hgranted.1, hgranted.2, hfail⟩
            ⟨arr, heap, _, _, hnew, helements, hstatus⟩⟩
      · have hroom := hholds.fits
        rw [List.length_map] at hroom
        have hall : Granted env.mallocFails (p.heap.calls + 2) initSize
            (listWords list).length :=
          (hwords _ (Nat.le_refl _)).mpr (granted_of_le hroom)
        rw [if_neg (by decide)] at hrun
        obtain ⟨⟨status₃, dynArr₃, p₃⟩, hnull, hrun⟩ :=
          except_bind_eq_ok.mp hrun
        have howns₃ := handleCommandlineArgument_owns howns hnull
        cases dynArr₃ with
        | none => cases hrun
        | some arr₃ =>
            obtain ⟨newargv, -, hrun⟩ := except_bind_eq_ok.mp hrun
            cases hrun
            refine ⟨0, ?_, .nothing fun hfails => hfails.2.2 ⟨hdone, hall⟩⟩
            rw [zero_add]
            exact (freeArguments_owns howns₃).free

/-- A command comes back with its pipes not connected, or behind its
elements. -/
theorem handleCommandListReturns_connected (env : Environment)
    (node : SimpleCommandNode) (next : SimpleCommandList)
    (input output : Int) (p : Process α) :
    (connectPipes env input output p = none ∧ ∃ p' : Process α,
      handleCommandListReturns env (node :: next) input output p = .ok p' ∧
      p'.heap = p.heap) ∨
    ∃ p₁, connectPipes env input output p = some p₁ ∧
      handleCommandListReturns env (node :: next) input output p =
        executeCommandReturns env node.simpleCommand.elementList p₁ := by
  unfold connectPipes handleCommandListReturns
  have hfirst := connectPipe_heap env p input stdinFd
  generalize connectPipe env input stdinFd p = first at hfirst
  by_cases hinput : first.1 < 0
  · simp only [if_pos hinput]
    exact Or.inl ⟨trivial, first.2, rfl, hfirst⟩
  · have hsecond := connectPipe_heap env first.2 output stdoutFd
    simp only [if_neg hinput]
    generalize connectPipe env output stdoutFd first.2 = second at hsecond
    by_cases houtput : second.1 < 0
    · simp only [if_pos houtput]
      exact Or.inl ⟨trivial, second.2, rfl, hsecond.trans hfirst⟩
    · simp only [if_neg houtput]
      exact Or.inr ⟨second.2, rfl, rfl⟩

/-- A stage that comes back has left the elements of its array or nothing. -/
theorem handleCommandListReturns_owns {node : SimpleCommandNode}
    {next : SimpleCommandList} {input output : Int}
    (hfilled : ∀ n ∈ node.simpleCommand.elementList, ElementFilled n.element)
    (h : start.Owns p.heap blocks)
    (hrun : handleCommandListReturns env (node :: next) input output p =
      .ok p') :
    (connectPipes env input output p = none ∧ start.Owns p'.heap blocks) ∨
    ∃ p₁ left, connectPipes env input output p = some p₁ ∧
      start.Owns p'.heap (left + blocks) ∧
      Leaves env node.simpleCommand.elementList p₁ left := by
  rcases handleCommandListReturns_connected env node next input output p with
    ⟨hnone, p₁, hreturns, hheap⟩ | ⟨p₁, hsome, hreturns⟩
  · rw [hreturns] at hrun
    cases hrun
    rw [← hheap] at h
    exact Or.inl ⟨hnone, h⟩
  · rw [hreturns] at hrun
    rw [← connectPipes_heap env hsome] at h
    obtain ⟨left, howns, hleaves⟩ :=
      executeCommandReturns_owns hfilled h hrun
    exact Or.inr ⟨p₁, left, hsome, howns, hleaves⟩

end Command

/-! ## A line -/

section Line

variable {heap₀ heap : Heap} {command : Shell.Command}
  {stdin rest : List UInt8} {fuel : Nat}

theorem exitLine_owns {start : Heap} {blocks : Multiset Nat}
    (h : start.Owns heap (blocks + (lineBlocks command.strings command.input +
      treeBlocks command.list))) :
    start.Owns (exitLine command heap) blocks := by
  apply freeLine_owns
  apply freeSimpleList_owns
  apply h.of_eq
  abel

/-- An element of a tree as the parser leaves it. -/
theorem elementFilled_of_erase {element : SimpleCommandElement}
    {source : Element} (h : eraseElement element = elementContent source) :
    ElementFilled element := by
  obtain ⟨isRedirection, redirectionPointer, word⟩ := element
  cases source with
  | word w =>
      simp only [eraseElement, elementContent,
        SimpleCommandElement.mk.injEq] at h
      obtain ⟨rfl, -, hw⟩ := h
      simp only [if_true] at hw
      exact Or.inl ⟨rfl, by simp [hw]⟩
  | redirect isInput w =>
      simp only [eraseElement, elementContent,
        SimpleCommandElement.mk.injEq] at h
      obtain ⟨rfl, hr, -⟩ := h
      refine Or.inr ⟨one_ne_zero, fun redirection hsome => ?_⟩
      simp only at hsome
      rw [hsome] at hr
      have hflag := congrArg (fun r => r.map Redirection.isInputRedirection) hr
      simp only [Option.map_some, Option.some.injEq] at hflag
      rw [hflag]
      rfl

/-- The elements of an accepted line are filled in. -/
theorem filled_of_erase {list : SimpleList} {line : CommandLine}
    (h : eraseSimpleList list = lineTree line) :
    ∀ node ∈ list.pipeline.simpleCommandList,
      ∀ n ∈ node.simpleCommand.elementList, ElementFilled n.element := by
  intro node hnode n hn
  have hcommands : eraseCommandList list.pipeline.simpleCommandList =
      stageNodes line.stages :=
    congrArg (fun l => l.pipeline.simpleCommandList) h
  have herased : (⟨0, ⟨eraseElementList node.simpleCommand.elementList⟩⟩ :
      SimpleCommandNode) ∈ stageNodes line.stages := by
    rw [← hcommands]
    exact List.mem_map.mpr ⟨node, hnode, rfl⟩
  obtain ⟨stage, -, hstage⟩ := List.mem_map.mp herased
  have hlist : elementNodes stage.elements =
      eraseElementList node.simpleCommand.elementList :=
    congrArg (fun n => n.simpleCommand.elementList) hstage
  have hmem : (⟨0, eraseElement n.element⟩ : SimpleCommandElementNode) ∈
      elementNodes stage.elements := by
    rw [hlist]
    exact List.mem_map.mpr ⟨n, hn, rfl⟩
  obtain ⟨element, -, helement⟩ := List.mem_map.mp hmem
  exact elementFilled_of_erase
    (congrArg SimpleCommandElementNode.element helement).symm

theorem Leaves.freedOnce_iff {α : Type} {env : Environment} {start : Heap}
    {list : SimpleCommandElementList} {p : Process α} {left : Multiset Nat}
    (h : Leaves env list p left) (howns : start.Owns heap left) :
    start.FreedOnce heap ↔ ¬ ElementFails env list p := by
  rw [howns.freedOnce_iff]
  cases h with
  | nothing hnot => exact iff_of_true rfl hnot
  | elements hfails harr =>
      exact iff_of_false (Multiset.singleton_ne_zero _) (not_not_intro hfails)

/-- **What the children of a line release.**  When every request for the line
has been granted, a job handler, and a child in which `safelyFork` returns -1,
release everything that the shell has allocated for it exactly once before
they exit.  So does a stage that comes back from `handleCommandList`, whatever
its own calls do, when its pipes cannot be connected, or its argument array
could not be made, or no element of its command has failed.  Else the elements
of that array are left, and no other block. -/
theorem line_cleanup
    (hline : nextLine noFailures fuel stdin heap₀ =
      .ok (.run command, rest, heap)) :
    heap₀.FreedOnce (exitLine command heap) ∧
    ∀ {α : Type} (env : Environment) (before next : SimpleCommandList)
      (node : SimpleCommandNode), command.list.pipeline.simpleCommandList =
        before ++ node :: next →
      ∀ (input output : Int) (p p' : Process α), p.heap = heap →
      handleCommandListReturns env (node :: next) input output p = .ok p' →
      (connectPipes env input output p = none ∧
        heap₀.FreedOnce (exitLine command p'.heap)) ∨
      ∃ p₁ left, connectPipes env input output p = some p₁ ∧
        heap₀.Owns (exitLine command p'.heap) left ∧
        Leaves env node.simpleCommand.elementList p₁ left ∧
        (heap₀.FreedOnce (exitLine command p'.heap) ↔
          ¬ ElementFails env node.simpleCommand.elementList p₁) := by
  obtain ⟨howns, -⟩ := nextLine_owns (Heap.Owns.refl heap₀) hline
  rw [add_zero] at howns
  have hfreed : ∀ {heap' : Heap}, heap₀.Owns heap' (lineBlocks command.strings
      command.input + treeBlocks command.list) →
      heap₀.FreedOnce (exitLine command heap') := by
    intro heap' h
    rw [← zero_add (lineBlocks _ _ + _)] at h
    exact (exitLine_owns h).freedOnce_iff.mpr rfl
  constructor
  · exact hfreed howns
  · intro α env before next node hsplit input output p p' hheap hrun
    obtain ⟨parsed, htree⟩ : ∃ parsed : CommandLine,
        eraseSimpleList command.list = lineTree parsed := by
      rcases nextLine_cases fuel stdin heap₀ with
        hbusy | ⟨tokens, rest', outcome, heap', hnext, -, hdecided⟩
      · cases hline.symm.trans hbusy
      · cases hline.symm.trans hnext
        obtain ⟨-, -, parsed, -, htree⟩ := hdecided
        exact ⟨parsed, htree⟩
    have hmem : node ∈ command.list.pipeline.simpleCommandList := by
      rw [hsplit]
      exact List.mem_append_right before List.mem_cons_self
    rw [← hheap] at howns
    rcases handleCommandListReturns_owns
        (filled_of_erase htree node hmem) howns hrun with
      ⟨hnone, hall⟩ | ⟨p₁, left, hsome, hleft, hleaves⟩
    · exact Or.inl ⟨hnone, hfreed hall⟩
    · have hend := exitLine_owns hleft
      exact Or.inr ⟨p₁, left, hsome, hend, hleaves,
        hleaves.freedOnce_iff hend⟩

set_option maxRecDepth 10000 in
/-- Of the line `a < a` the handler leaves nothing, and the stage the elements
of its array when no file can be opened. -/
theorem line_cleanup_noFile : ∃ command heap node p' left,
    nextLine noFailures 7 [97, 32, 60, 32, 97, 10] Heap.empty =
      .ok (.run command, [], heap) ∧
    Heap.empty.FreedOnce (exitLine command heap) ∧
    command.list.pipeline.simpleCommandList = [node] ∧
    handleCommandListReturns (opening fun _ => true) [node] (-1) (-1)
      (.forked (FdTable.standard.map .inherited) heap) = .ok p' ∧
    Heap.empty.Owns (exitLine command p'.heap) left ∧
    Leaves (opening fun _ => true) node.simpleCommand.elementList
      (.forked (FdTable.standard.map .inherited) heap) left ∧
    ¬ Heap.empty.FreedOnce (exitLine command p'.heap) := by
  obtain ⟨command, heap, node, p', hline, hlist, hrun, hfiles⟩ :
      ∃ command heap node p',
        nextLine noFailures 7 [97, 32, 60, 32, 97, 10] Heap.empty =
          .ok (.run command, [], heap) ∧
        command.list.pipeline.simpleCommandList = [node] ∧
        handleCommandListReturns (opening fun _ => true) [node] (-1) (-1)
          (.forked (FdTable.standard.map .inherited) heap) = .ok p' ∧
        redirectionsSucceed (opening fun _ => true)
          node.simpleCommand.elementList
          (.forked (FdTable.standard.map .inherited) heap) = false :=
    ⟨_, _, _, _, rfl, rfl, rfl, rfl⟩
  obtain ⟨hhandler, hstages⟩ := line_cleanup hline
  rcases hstages (opening fun _ => true) [] [] node hlist (-1) (-1) _ p' rfl
      hrun with
    ⟨hnone, -⟩ | ⟨p₁, left, hsome, howns, hleaves, hiff⟩
  · cases hnone
  · cases hsome
    have hfails : ElementFails (opening fun _ => true)
        node.simpleCommand.elementList
        (.forked (FdTable.standard.map .inherited) heap) := by
      refine ⟨rfl, rfl, fun hdone => ?_⟩
      exact Bool.false_ne_true (hfiles.symm.trans hdone.1)
    exact ⟨command, heap, node, p', left, hline, hhandler, hlist, hrun, howns,
      hleaves, fun hfreed => hiff.mp hfreed hfails⟩

end Line

end OsLabs.Iwish.Cleanup
