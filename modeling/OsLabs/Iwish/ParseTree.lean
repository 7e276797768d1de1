import OsLabs.Iwish.ParserSpec

/-!
# Parse trees as command lines

`flattenSimpleList` writes a `Simple_List` back as tokens, following the
`print*` functions of `parser_test.c`.  `lineTree` is the tree
a command line stands for, and `eraseSimpleList` forgets what two equal
trees may differ in: the blocks their nodes live in, and the field
`parsertokens.h` says is to be ignored.
-/

namespace OsLabs.Iwish.ParseTree

open OsLabs.Posix
open OsLabs.Iwish.ParserTokens
open OsLabs.Iwish.Parser
open OsLabs.Iwish.Grammar
open OsLabs.Iwish.ParserSpec

/-! ## Flattening -/

/-- `printRedirection`: the operator and the word.  An indeterminate direction
has no operator. -/
def flattenRedirection (redirection : Option Redirection) : List CString :=
  match redirection with
  | none => []
  | some redirection =>
    match redirection.isInputRedirection with
    | none => []
    | some flag => operator (flag != 0) :: redirection.word.toList

/-- `printSimpleCommandElement`: nothing for an uninitialised element. -/
def flattenElement (element : SimpleCommandElement) : List CString :=
  if element.isRedirection = -1 then []
  else if element.isRedirection ≠ 0 then
    flattenRedirection element.redirectionPointer
  else element.word.toList

/-- `printSimpleCommandElementList`. -/
def flattenElementList (list : SimpleCommandElementList) : List CString :=
  list.flatMap fun node => flattenElement node.element

/-- `printSimpleCommandList`. -/
def flattenCommandList : SimpleCommandList → List CString
  | [] => []
  | [node] => flattenElementList node.simpleCommand.elementList
  | node :: next :: rest =>
    flattenElementList node.simpleCommand.elementList ++
      bar :: flattenCommandList (next :: rest)

/-- `printSimpleList`. -/
def flattenSimpleList (list : SimpleList) : List CString :=
  flattenCommandList list.pipeline.simpleCommandList ++
    daemonTokens (list.hasDaemonAmpersand != 0)

/-! ## Initialised elements -/

/-- An element that has been filled in: a word and nothing else, or a
redirection with its word. -/
def ElementInitialised (element : SimpleCommandElement) : Prop :=
  (element.isRedirection = 0 ∧ element.word.isSome ∧
      element.redirectionPointer = none) ∨
    (element.isRedirection = 1 ∧ ∃ redirection,
      element.redirectionPointer = some redirection ∧ redirection.word.isSome)

/-- Every reachable element is initialised. -/
def Initialised (list : SimpleList) : Prop :=
  ∀ command ∈ list.pipeline.simpleCommandList,
    ∀ node ∈ command.simpleCommand.elementList, ElementInitialised node.element

/-! ## Trees up to the blocks of their nodes -/

def eraseElement (element : SimpleCommandElement) : SimpleCommandElement :=
  { element with
    redirectionPointer :=
      element.redirectionPointer.map fun r => { r with block := 0 }
    word := if element.isRedirection = 0 then element.word else none }

def eraseElementList (list : SimpleCommandElementList) :
    SimpleCommandElementList :=
  list.map fun node => ⟨0, eraseElement node.element⟩

def eraseCommandList (list : SimpleCommandList) : SimpleCommandList :=
  list.map fun node => ⟨0, ⟨eraseElementList node.simpleCommand.elementList⟩⟩

/-- The tree without its addresses. -/
def eraseSimpleList (list : SimpleList) : SimpleList :=
  ⟨0, ⟨eraseCommandList list.pipeline.simpleCommandList⟩,
    list.hasDaemonAmpersand⟩

/-- The element of the source an element of the language is stored as. -/
def elementContent : Element → SimpleCommandElement
  | .word w => ⟨0, none, some w.text⟩
  | .redirect isInput w =>
    ⟨1, some ⟨0, some (directionFlag isInput), some w.text⟩, none⟩

def elementNodes (elements : List Element) : SimpleCommandElementList :=
  elements.map fun element => ⟨0, elementContent element⟩

def stageNodes (stages : List Stage) : SimpleCommandList :=
  stages.map fun stage => ⟨0, ⟨elementNodes stage.elements⟩⟩

/-- The tree of a command line. -/
def lineTree (line : CommandLine) : SimpleList :=
  ⟨0, ⟨stageNodes line.stages⟩, if line.daemon then 1 else 0⟩

/-! ## Erasing does not change the tokens -/

theorem flattenElement_erase (element : SimpleCommandElement) :
    flattenElement (eraseElement element) = flattenElement element := by
  by_cases hword : element.isRedirection = 0
  · simp [flattenElement, eraseElement, hword]
  · by_cases hinit : element.isRedirection = -1
    · simp [flattenElement, eraseElement, hinit]
    · cases hr : element.redirectionPointer <;>
        simp [flattenElement, eraseElement, hinit, hword, hr,
          flattenRedirection]

theorem flattenElementList_erase (list : SimpleCommandElementList) :
    flattenElementList (eraseElementList list) = flattenElementList list := by
  simp [flattenElementList, eraseElementList, List.flatMap_map,
    flattenElement_erase]

theorem flattenCommandList_erase (list : SimpleCommandList) :
    flattenCommandList (eraseCommandList list) = flattenCommandList list := by
  induction list with
  | nil => rfl
  | cons node rest ih =>
      cases rest with
      | nil =>
          exact flattenElementList_erase node.simpleCommand.elementList
      | cons next rest =>
          have hnode :=
            flattenElementList_erase node.simpleCommand.elementList
          simp only [eraseCommandList, List.map_cons,
            flattenCommandList] at ih ⊢
          rw [hnode, ih]

theorem flattenSimpleList_erase (list : SimpleList) :
    flattenSimpleList (eraseSimpleList list) = flattenSimpleList list := by
  simp [flattenSimpleList, eraseSimpleList, flattenCommandList_erase]

/-! ## The tree of a command line flattens to its tokens -/

theorem flattenElement_content (element : Element) :
    flattenElement (elementContent element) = element.tokens := by
  cases element with
  | word w => rfl
  | redirect isInput w => cases isInput <;> rfl

theorem flattenElementList_nodes (elements : List Element) :
    flattenElementList (elementNodes elements) = elementTokens elements := by
  simp [flattenElementList, elementNodes, List.flatMap_map,
    flattenElement_content, elementTokens]

theorem flattenCommandList_nodes (stage : Stage) (others : List Stage) :
    flattenCommandList (stageNodes (stage :: others)) =
      pipelineTokens stage others := by
  induction others generalizing stage with
  | nil => exact flattenElementList_nodes stage.elements
  | cons next others ih =>
      have hstage := flattenElementList_nodes stage.elements
      have hrest := ih next
      simp only [stageNodes, List.map_cons, flattenCommandList,
        pipelineTokens] at hrest ⊢
      rw [hstage, hrest]
      rfl

theorem flattenSimpleList_lineTree (line : CommandLine) :
    flattenSimpleList (lineTree line) = line.tokens := by
  have hpipe := flattenCommandList_nodes line.first line.others
  simp only [flattenSimpleList, lineTree, CommandLine.stages,
    CommandLine.tokens, hpipe]
  cases line.daemon <;> rfl

/-- A tree that is a command line up to addresses prints as that line. -/
theorem flattenSimpleList_of_erase {list : SimpleList} {line : CommandLine}
    (h : eraseSimpleList list = lineTree line) :
    flattenSimpleList list = line.tokens := by
  rw [← flattenSimpleList_erase, h, flattenSimpleList_lineTree]

theorem elementInitialised_of_erase {element : SimpleCommandElement}
    {source : Element} (h : eraseElement element = elementContent source) :
    ElementInitialised element := by
  obtain ⟨isRedirection, redirectionPointer, word⟩ := element
  cases source with
  | word w =>
      simp only [eraseElement, elementContent,
        SimpleCommandElement.mk.injEq] at h
      obtain ⟨rfl, hr, hw⟩ := h
      refine Or.inl ⟨rfl, ?_, by simpa using hr⟩
      simp only [if_true] at hw
      simp [hw]
  | redirect isInput w =>
      simp only [eraseElement, elementContent,
        SimpleCommandElement.mk.injEq] at h
      obtain ⟨rfl, hr, -⟩ := h
      obtain ⟨redirection, hsome, hvalue⟩ := Option.map_eq_some_iff.mp hr
      refine Or.inr ⟨rfl, redirection, hsome, ?_⟩
      have hword := congrArg Redirection.word hvalue
      simp only at hword
      simp [hword]

/-- A tree that is a command line up to addresses has no element left
uninitialised. -/
theorem initialised_of_erase {list : SimpleList} {line : CommandLine}
    (h : eraseSimpleList list = lineTree line) :
    Initialised list := by
  intro command hcommand node hnode
  have hcommands : eraseCommandList list.pipeline.simpleCommandList =
      stageNodes line.stages :=
    congrArg (fun l => l.pipeline.simpleCommandList) h
  have herased : (⟨0, ⟨eraseElementList command.simpleCommand.elementList⟩⟩ :
      SimpleCommandNode) ∈ stageNodes line.stages := by
    rw [← hcommands]
    exact List.mem_map.mpr ⟨command, hcommand, rfl⟩
  obtain ⟨stage, -, hstage⟩ := List.mem_map.mp herased
  have hlist : elementNodes stage.elements =
      eraseElementList command.simpleCommand.elementList :=
    congrArg (fun n => n.simpleCommand.elementList) hstage
  have hmem : (⟨0, eraseElement node.element⟩ : SimpleCommandElementNode) ∈
      elementNodes stage.elements := by
    rw [hlist]
    exact List.mem_map.mpr ⟨node, hnode, rfl⟩
  obtain ⟨element, -, helement⟩ := List.mem_map.mp hmem
  exact elementInitialised_of_erase
    (congrArg SimpleCommandElementNode.element helement).symm

end OsLabs.Iwish.ParseTree
