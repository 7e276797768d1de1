import OsLabs.Iwish.Interpreter
import OsLabs.Iwish.ParserCorrect

/-!
# From the command line to `execvp`

A token array can be read without parsing it: drop a final `&`, split at the
bars, and take from each segment the redirections (an operator and the token
after it) and what is left, the arguments.  `parseInput_handleCommandList`
says that this flat reading is what the parser, the tree, the recursion over
it and the growing array together hand to `execvp`.
-/

namespace OsLabs.Iwish.Arguments

open OsLabs.Posix
open OsLabs.Iwish.ParserTokens
open OsLabs.Iwish.Parser
open OsLabs.Iwish.Grammar
open OsLabs.Iwish.ParserSpec
open OsLabs.Iwish.ParseTree
open OsLabs.Iwish.ParserOutcome
open OsLabs.Iwish.PipelineSpec
open OsLabs.Iwish.ParserCorrect
open OsLabs.Iwish.DBA
open OsLabs.Iwish.Interpreter

/-! ## The flat reading -/

/-- Whether the array asks for a background job. -/
def endsInAmpersand (tokens : List CString) : Bool :=
  decide (tokens.getLast? = some ampersand)

/-- The array without a final `&`. -/
def dropDaemon (tokens : List CString) : List CString :=
  if endsInAmpersand tokens then tokens.dropLast else tokens

/-- What stands between the bars. -/
def segments (tokens : List CString) : List (List CString) :=
  (dropDaemon tokens).splitOn bar

/-- `<` or `>` -/
def isOperator (token : CString) : Bool :=
  decide (token = lessThan ∨ token = greaterThan)

/-- The tokens of a segment that are neither operators nor follow one. -/
def segmentArguments : List CString → List CString
  | [] => []
  | [token] => if isOperator token then [] else [token]
  | token :: next :: rest =>
    if isOperator token then segmentArguments rest
    else token :: segmentArguments (next :: rest)

/-- The operators of a segment with the tokens that follow them; `true`
stands for `<`. -/
def segmentRedirections : List CString → List (Bool × CString)
  | [] => []
  | [_] => []
  | token :: next :: rest =>
    if isOperator token then
      (decide (token = lessThan), next) :: segmentRedirections rest
    else segmentRedirections (next :: rest)

/-- A redirection performed on a descriptor table: the file takes the lowest
free number, and standard input or output becomes a copy of it. -/
def performRedirection {α : Type} (table : FdTable (Description α))
    (redirection : Bool × CString) : FdTable (Description α) :=
  let file := Description.file redirection.1 redirection.2
  (table.openFile file).2.set (if redirection.1 then stdinFd else stdoutFd) file

/-! ## The flat reading of a command line -/

def elementArguments : List Element → List CString
  | [] => []
  | .word w :: elements => w.text :: elementArguments elements
  | .redirect _ _ :: elements => elementArguments elements

def elementRedirections : List Element → List (Bool × CString)
  | [] => []
  | .word _ :: elements => elementRedirections elements
  | .redirect isInput w :: elements =>
    (isInput, w.text) :: elementRedirections elements

theorem isOperator_word (w : Word) : isOperator w.text = false := by
  have hless := operator_ne_word true w
  have hgreater := operator_ne_word false w
  apply decide_eq_false
  rintro (h | h)
  · exact hless h.symm
  · exact hgreater h.symm

theorem isOperator_operator (isInput : Bool) :
    isOperator (operator isInput) = true := by
  cases isInput <;> decide

theorem segmentArguments_word (w : Word) (rest : List CString) :
    segmentArguments (w.text :: rest) = w.text :: segmentArguments rest := by
  cases rest with
  | nil => simp [segmentArguments, isOperator_word]
  | cons next rest => simp [segmentArguments, isOperator_word]

theorem segmentRedirections_word (w : Word) (rest : List CString) :
    segmentRedirections (w.text :: rest) = segmentRedirections rest := by
  cases rest with
  | nil => rfl
  | cons next rest => simp [segmentRedirections, isOperator_word]

theorem segmentArguments_elements (elements : List Element) :
    segmentArguments (elementTokens elements) = elementArguments elements := by
  induction elements with
  | nil => rfl
  | cons element elements ih =>
      cases element with
      | word w =>
          show segmentArguments (w.text :: elementTokens elements) = _
          rw [segmentArguments_word, ih]
          rfl
      | redirect isInput w =>
          show segmentArguments
            (operator isInput :: w.text :: elementTokens elements) = _
          rw [segmentArguments, isOperator_operator, if_pos rfl, ih]
          rfl

theorem segmentRedirections_elements (elements : List Element) :
    segmentRedirections (elementTokens elements) =
      elementRedirections elements := by
  induction elements with
  | nil => rfl
  | cons element elements ih =>
      cases element with
      | word w =>
          show segmentRedirections (w.text :: elementTokens elements) = _
          rw [segmentRedirections_word, ih]
          rfl
      | redirect isInput w =>
          have hflag : decide (operator isInput = lessThan) = isInput := by
            cases isInput <;> decide
          show segmentRedirections
            (operator isInput :: w.text :: elementTokens elements) = _
          rw [segmentRedirections, isOperator_operator, if_pos rfl, ih, hflag]
          rfl

theorem bar_not_mem_stage (stage : Stage) : bar ∉ stage.tokens := by
  intro h
  rcases mem_elementTokens h with hw | hless | hgreater
  · exact absurd hw (by decide)
  · exact absurd hless (by decide)
  · exact absurd hgreater (by decide)

theorem ampersand_not_mem_pipeline (stage : Stage) (others : List Stage) :
    ampersand ∉ pipelineTokens stage others := by
  intro h
  rcases mem_pipelineTokens h with hw | hless | hgreater | hbar
  · exact absurd hw (by decide)
  · exact absurd hless (by decide)
  · exact absurd hgreater (by decide)
  · exact absurd hbar (by decide)

theorem splitOn_pipeline (stage : Stage) (others : List Stage) :
    (pipelineTokens stage others).splitOn bar =
      (stage :: others).map Stage.tokens := by
  induction others generalizing stage with
  | nil => exact List.splitOn_eq_singleton (bar_not_mem_stage stage)
  | cons next others ih =>
      have hsplit := List.splitOn_append_cons_self_of_not_mem
        (bar_not_mem_stage stage) (pipelineTokens next others)
      rw [pipelineTokens, hsplit, ih next]
      rfl

theorem endsInAmpersand_tokens (line : CommandLine) :
    endsInAmpersand line.tokens = line.daemon := by
  unfold endsInAmpersand CommandLine.tokens
  cases hdaemon : line.daemon with
  | true => simp [daemonTokens]
  | false =>
      apply decide_eq_false
      intro hlast
      rw [daemonTokens, if_neg (by decide), List.append_nil] at hlast
      exact ampersand_not_mem_pipeline line.first line.others
        (List.mem_of_getLast? hlast)

theorem segments_tokens (line : CommandLine) :
    segments line.tokens = line.stages.map Stage.tokens := by
  unfold segments dropDaemon
  rw [endsInAmpersand_tokens]
  have hpipe : (if line.daemon = true then line.tokens.dropLast
      else line.tokens) = pipelineTokens line.first line.others := by
    unfold CommandLine.tokens
    cases line.daemon <;> simp [daemonTokens]
  rw [hpipe, splitOn_pipeline]
  rfl

/-! ## Elements of a tree -/

theorem eraseElement_word {element : SimpleCommandElement} {w : Word}
    (h : eraseElement element = elementContent (.word w)) :
    element.isRedirection = 0 ∧ element.word = some w.text := by
  have hflag : element.isRedirection = 0 :=
    congrArg SimpleCommandElement.isRedirection h
  have hword := congrArg SimpleCommandElement.word h
  refine ⟨hflag, ?_⟩
  simpa [eraseElement, elementContent, hflag] using hword

theorem eraseElement_redirect {element : SimpleCommandElement}
    {isInput : Bool} {w : Word}
    (h : eraseElement element = elementContent (.redirect isInput w)) :
    element.isRedirection = 1 ∧ ∃ block, element.redirectionPointer =
      some ⟨block, some (directionFlag isInput), some w.text⟩ := by
  have hflag : element.isRedirection = 1 :=
    congrArg SimpleCommandElement.isRedirection h
  have hpointer := congrArg SimpleCommandElement.redirectionPointer h
  obtain ⟨redirection, hsome, hvalue⟩ := Option.map_eq_some_iff.mp hpointer
  refine ⟨hflag, redirection.block, ?_⟩
  rw [hsome]
  have hdirection := congrArg Redirection.isInputRedirection hvalue
  have hword := congrArg Redirection.word hvalue
  simp only at hdirection hword
  rw [← hdirection, ← hword]

/-! ## The functions of the interpreter, every call succeeding -/

section

variable {α : Type} {p : Process α}

theorem handleRedirection_quiet (block : Nat) (flag : Int) (w : CString) :
    handleRedirection .quiet (some ⟨block, some flag, some w⟩) p =
      .ok (0, { p with
        table := performRedirection p.table (flag != 0, w)
        opened := p.opened ++ [(flag != 0, w)]
        dups := p.dups + 1 }) := by
  have hopen : (p.table.openFile (.file (flag != 0) w)).2.entryAt
      (p.table.lowestFree : Int) = some (.file (flag != 0) w) := by
    rw [FdTable.entryAt_ofNat]
    exact if_pos rfl
  have hnonneg : ¬ (p.table.lowestFree : Int) < 0 := by omega
  simp only [handleRedirection, openCall_quiet, if_neg hnonneg,
    dup2Call_quiet (p := { p with
      table := (p.table.openFile (.file (flag != 0) w)).2
      opened := p.opened ++ [(flag != 0, w)] }) hopen]
  cases flag != 0 <;> rfl

theorem directionFlag_ne_zero (isInput : Bool) :
    (directionFlag isInput != 0) = isInput := by
  cases isInput <;> rfl

/-- The pointers an array under construction holds. -/
def Collected (dynArr : Arguments) (pointers : List (Option CString)) : Prop :=
  ∃ arr, dynArr = some arr ∧ HoldsPointers arr pointers

theorem handleCommandlineArgument_quiet {dynArr : Arguments}
    {pointers : List (Option CString)} (h : Collected dynArr pointers)
    (arg : Option CString) (p : Process α) :
    ∃ dynArr' heap, handleCommandlineArgument .quiet arg dynArr p =
        .ok (0, dynArr', { p with heap := heap }) ∧
      Collected dynArr' (pointers ++ [arg]) := by
  obtain ⟨arr, rfl, hholds⟩ := h
  obtain ⟨arr', heap, hadd, hholds'⟩ := hholds.add arg p.heap
  refine ⟨some arr', heap, ?_, arr', rfl, hholds'⟩
  simp only [handleCommandlineArgument, Environment.quiet, hadd,
    except_ok_bind, except_pure]

/-- **The recursion over the elements** collects the words and performs the
redirections, both in order. -/
theorem handleCommandElementList_quiet (elements : List Element)
    {nodes : SimpleCommandElementList}
    (herase : eraseElementList nodes = elementNodes elements)
    {dynArr : Arguments} {pointers : List (Option CString)}
    (h : Collected dynArr pointers) (p : Process α) :
    ∃ dynArr' p', handleCommandElementList .quiet nodes dynArr p =
        .ok (0, dynArr', p') ∧
      Collected dynArr' (pointers ++ (elementArguments elements).map some) ∧
      p'.opened = p.opened ++ elementRedirections elements ∧
      p'.table =
        (elementRedirections elements).foldl performRedirection p.table := by
  induction elements generalizing nodes dynArr pointers p with
  | nil =>
      have hnil : nodes = [] := List.map_eq_nil_iff.mp herase
      subst hnil
      refine ⟨dynArr, p, rfl, ?_, ?_, rfl⟩
      · rw [elementArguments, List.map_nil, List.append_nil]
        exact h
      · rw [elementRedirections, List.append_nil]
  | cons element elements ih =>
      obtain ⟨node, next, rfl, hnode, hnext⟩ := List.map_eq_cons_iff.mp herase
      have helement : eraseElement node.element = elementContent element :=
        congrArg SimpleCommandElementNode.element hnode
      cases element with
      | word w =>
          obtain ⟨hflag, hword⟩ := eraseElement_word helement
          obtain ⟨dynArr₁, heap, hadd, hcollected⟩ :=
            handleCommandlineArgument_quiet h (some w.text) p
          obtain ⟨dynArr', p', hrest, hall, hopened, htable⟩ :=
            ih hnext hcollected { p with heap := heap }
          refine ⟨dynArr', p', ?_, ?_, hopened, htable⟩
          · rw [handleCommandElementList, hflag, hword, hadd]
            exact hrest
          · rw [List.append_assoc] at hall
            exact hall
      | redirect isInput w =>
          obtain ⟨hflag, block, hpointer⟩ := eraseElement_redirect helement
          have hdone := handleRedirection_quiet (p := p) block
            (directionFlag isInput) w.text
          rw [directionFlag_ne_zero] at hdone
          obtain ⟨dynArr', p', hrest, hall, hopened, htable⟩ := ih hnext h
            { p with
              table := performRedirection p.table (isInput, w.text)
              opened := p.opened ++ [(isInput, w.text)]
              dups := p.dups + 1 }
          refine ⟨dynArr', p', ?_, hall, ?_, htable⟩
          · rw [handleCommandElementList, hflag, hpointer, hdone]
            exact hrest
          · rw [hopened, List.append_assoc]
            rfl

/-- `execvp` gets the words of the command. -/
theorem executeCommand_quiet (elements : List Element)
    {nodes : SimpleCommandElementList}
    (herase : eraseElementList nodes = elementNodes elements)
    (p : Process α) :
    ∃ p', executeCommand .quiet nodes p =
        .ok (some (elementArguments elements), p') ∧
      p'.opened = p.opened ++ elementRedirections elements ∧
      p'.table =
        (elementRedirections elements).foldl performRedirection p.table := by
  obtain ⟨arr, heap, hnew⟩ : ∃ arr heap,
      makeNewDynamicByteArray (β := PointerByte CString) noFailures pointerSize
        p.heap = (some arr, heap) := ⟨_, _, rfl⟩
  have hstart : Collected (some arr) [] :=
    ⟨arr, rfl, makeNewDynamicByteArray_holdsPointers hnew⟩
  obtain ⟨dynArr, p', hlist, hcollected, hopened, htable⟩ :=
    handleCommandElementList_quiet elements herase hstart
      { p with heap := heap }
  obtain ⟨dynArr', heap', hnull, arr', rfl, hholds⟩ :=
    handleCommandlineArgument_quiet hcollected none p'
  have hload : loadPointerArray (getInternalArray arr') =
      .ok (elementArguments elements) := hholds.load
  refine ⟨{ p' with heap := heap'.free arr'.block }, ?_, hopened, htable⟩
  unfold executeCommand
  simp only [Environment.quiet] at hlist hnull ⊢
  rw [hnew]
  simp only [hlist, hnull, hload, except_ok_bind]
  rfl

theorem handleCommandList_quiet (elements : List Element)
    {node : SimpleCommandNode} (next : SimpleCommandList)
    (herase : eraseElementList node.simpleCommand.elementList =
      elementNodes elements)
    (p : Process α) {incomingInputPipe incomingOutputPipe : Int}
    (hin : Connectable incomingInputPipe p.table)
    (hout : Connectable incomingOutputPipe p.table) :
    ∃ p', handleCommandList .quiet (node :: next) incomingInputPipe
          incomingOutputPipe p = .ok (some (elementArguments elements), p') ∧
      p'.opened = p.opened ++ elementRedirections elements ∧
      p'.table = (elementRedirections elements).foldl performRedirection
        (connectedTable incomingOutputPipe stdoutFd
          (connectedTable incomingInputPipe stdinFd p.table)) := by
  obtain ⟨dups, status, hfirst, hstatus⟩ := connectPipe_quiet hin stdinFd
  obtain ⟨dups', status', hsecond, hstatus'⟩ :=
    connectPipe_quiet (p := { p with
      table := connectedTable incomingInputPipe stdinFd p.table
      dups := dups }) (hout.connectedTable stdinFd) stdoutFd
  unfold handleCommandList
  simp only [hfirst, hsecond, if_neg (Int.not_lt.mpr hstatus),
    if_neg (Int.not_lt.mpr hstatus')]
  exact executeCommand_quiet elements herase _

end

/-! ## The whole way -/

theorem hasDaemonAmpersand_of_erase {list : SimpleList} {line : CommandLine}
    (h : eraseSimpleList list = lineTree line) :
    list.hasDaemonAmpersand =
      if endsInAmpersand line.tokens then 1 else 0 := by
  rw [endsInAmpersand_tokens]
  exact congrArg SimpleList.hasDaemonAmpersand h

theorem length_of_erase {list : SimpleList} {line : CommandLine}
    (h : eraseSimpleList list = lineTree line) :
    list.pipeline.simpleCommandList.length = line.stages.length := by
  have hlength :=
    congrArg (fun l => l.pipeline.simpleCommandList.length) h
  simpa [eraseSimpleList, eraseCommandList, lineTree, stageNodes] using hlength

/-- Command `k` of the tree of a line is stage `k` of the line. -/
theorem drop_of_erase {list : SimpleList} {line : CommandLine}
    (h : eraseSimpleList list = lineTree line) {k : Nat} {stage : Stage}
    (hstage : line.stages[k]? = some stage) :
    ∃ node next, list.pipeline.simpleCommandList.drop k = node :: next ∧
      eraseElementList node.simpleCommand.elementList =
        elementNodes stage.elements := by
  have hcommands : list.pipeline.simpleCommandList.map
        (fun node => eraseElementList node.simpleCommand.elementList) =
      line.stages.map fun stage => elementNodes stage.elements := by
    have hlists := congrArg (fun l => l.pipeline.simpleCommandList.map
      fun node => node.simpleCommand.elementList) h
    simpa [eraseSimpleList, eraseCommandList, lineTree, stageNodes,
      Function.comp_def] using hlists
  have hget := congrArg (fun l => l[k]?) hcommands
  simp only [List.getElem?_map, hstage, Option.map_some,
    Option.map_eq_some_iff] at hget
  obtain ⟨node, hnode, herase⟩ := hget
  obtain ⟨hlt, hnode⟩ := List.getElem?_eq_some_iff.mp hnode
  refine ⟨node, list.pipeline.simpleCommandList.drop (k + 1), ?_, herase⟩
  rw [List.drop_eq_getElem_cons hlt, hnode]

/-- **The flat reading of the command line is what `execvp` gets.**  Whatever
pipes a command is connected to, its arguments are the tokens of its segment
without the redirections, and its redirections are those of the segment, in
order. -/
theorem parseInput_handleCommandList {α : Type} (sentence : List CString)
    {heap₀ heap heap' : Heap} {list list' : SimpleList}
    (hnew : makeNewSimpleList noFailures heap₀ = (some list, heap))
    (hparse : parseInput noFailures sentence list heap =
      .ok (true, list', heap')) :
    list'.hasDaemonAmpersand = (if endsInAmpersand sentence then 1 else 0) ∧
    list'.pipeline.simpleCommandList.length = (segments sentence).length ∧
    ∀ (k : Nat) (segment : List CString) (table : FdTable (Description α))
      (heap₁ : Heap) (incoming outgoing : Int),
      (segments sentence)[k]? = some segment →
      Connectable incoming table → Connectable outgoing table →
      ∃ p', handleCommandList .quiet
          (list'.pipeline.simpleCommandList.drop k) incoming outgoing
          (.forked table heap₁) = .ok (some (segmentArguments segment), p') ∧
        p'.opened = segmentRedirections segment ∧
        p'.table = (segmentRedirections segment).foldl performRedirection
          (connectedTable outgoing stdoutFd
            (connectedTable incoming stdinFd table)) := by
  obtain ⟨line, rfl⟩ := parseInput_sound hparse
  obtain ⟨list'', heap'', haccept, htree⟩ := parseInput_noFailures line hnew
  rw [hparse] at haccept
  cases haccept
  refine ⟨hasDaemonAmpersand_of_erase htree, ?_, ?_⟩
  · rw [length_of_erase htree, segments_tokens, List.length_map]
  · intro k segment table heap₁ incoming outgoing hsegment hin hout
    rw [segments_tokens, List.getElem?_map] at hsegment
    obtain ⟨stage, hstage, rfl⟩ := Option.map_eq_some_iff.mp hsegment
    obtain ⟨node, next, hdrop, herase⟩ := drop_of_erase htree hstage
    obtain ⟨p', hrun, hopened, htable⟩ := handleCommandList_quiet
      stage.elements next herase (.forked table heap₁) hin hout
    have harguments : segmentArguments stage.tokens =
        elementArguments stage.elements := segmentArguments_elements _
    have hredirections : segmentRedirections stage.tokens =
        elementRedirections stage.elements := segmentRedirections_elements _
    rw [hdrop, harguments, hredirections]
    exact ⟨p', hrun, hopened, htable⟩

/-- `a < b &` without pipes. -/
theorem parseInput_handleCommandList_redirected :
    ∃ list' heap' p', parseInput noFailures
          [tokenA, lessThan, tokenB, ampersand] freshList freshHeap =
        .ok (true, list', heap') ∧
      handleCommandList .quiet (list'.pipeline.simpleCommandList.drop 0)
          (-1) (-1) (.forked (FdTable.standard.map .inherited) Heap.empty) =
        .ok (some (segmentArguments [tokenA, lessThan, tokenB]), p') ∧
      p'.opened = [(true, tokenB)] := by
  have hflat := parseInput_handleCommandList (α := Nat)
    [tokenA, lessThan, tokenB, ampersand]
    (show makeNewSimpleList noFailures Heap.empty = (some freshList, freshHeap)
      from rfl) rfl
  obtain ⟨p', hrun, hopened, -⟩ := hflat.2.2 0 [tokenA, lessThan, tokenB]
    (FdTable.standard.map .inherited) Heap.empty (-1) (-1) (by decide)
    (fun h => absurd h (by decide)) (fun h => absurd h (by decide))
  exact ⟨_, _, p', rfl, hrun, hopened⟩

end OsLabs.Iwish.Arguments
