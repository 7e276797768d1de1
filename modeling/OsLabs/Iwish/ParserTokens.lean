import OsLabs.Posix.Memory

/-!
# The parse tree of the iwish shell

`parsertokens.h` and `parsertokens.c`.  A linked list of the source is the
Lean list of its nodes, so `[]` is the null pointer and `node :: rest` a node
whose `next` field points to `rest`.  Every node carries the number of the
heap block it lives in: two lists can be compared as trees, and as pieces of
the heap.

A field of the source that `malloc` leaves indeterminate is `none` until it
is written.
-/

namespace OsLabs.Iwish.ParserTokens

open OsLabs.Posix

/-! ## The types of `parsertokens.h` -/

/-- `Redirection`.  `malloc` leaves `isInputRedirection` indeterminate. -/
structure Redirection where
  block : Nat
  isInputRedirection : Option Int
  word : Option CString
  deriving Repr, DecidableEq

/-- `Simple_Command_Element`. -/
structure SimpleCommandElement where
  isRedirection : Int
  redirectionPointer : Option Redirection
  word : Option CString
  deriving Repr, DecidableEq

/-- A node of `Simple_Command_Element_List`, without its `next` field. -/
structure SimpleCommandElementNode where
  block : Nat
  element : SimpleCommandElement
  deriving Repr, DecidableEq

/-- `Simple_Command_Element_List *`. -/
abbrev SimpleCommandElementList := List SimpleCommandElementNode

/-- `Simple_Command`. -/
structure SimpleCommand where
  elementList : SimpleCommandElementList
  deriving Repr, DecidableEq

/-- A node of `Simple_Command_List`, without its `next` field. -/
structure SimpleCommandNode where
  block : Nat
  simpleCommand : SimpleCommand
  deriving Repr, DecidableEq

/-- `Simple_Command_List *`. -/
abbrev SimpleCommandList := List SimpleCommandNode

/-- `Pipeline`. -/
structure Pipeline where
  simpleCommandList : SimpleCommandList
  deriving Repr, DecidableEq

/-- `Simple_List`. -/
structure SimpleList where
  block : Nat
  pipeline : Pipeline
  hasDaemonAmpersand : Int
  deriving Repr, DecidableEq

/-! ## Constructors -/

/-- The element of a node fresh from `makeNewSimpleCommandElementList`:
`isRedirection` is -1 for "uninitialised". -/
def uninitialisedElement : SimpleCommandElement := ⟨-1, none, none⟩

/-- `makeNewSimpleCommandElementList`. -/
def makeNewSimpleCommandElementList (fails : FailurePlan) (heap : Heap) :
    SimpleCommandElementList × Heap :=
  match heap.malloc fails with
  | (none, heap) => ([], heap)
  | (some block, heap) => ([⟨block, uninitialisedElement⟩], heap)

/-- `makeNewSimpleCommandList`.  When the second request is refused the block
of the first one is lost. -/
def makeNewSimpleCommandList (fails : FailurePlan) (heap : Heap) :
    SimpleCommandList × Heap :=
  match heap.malloc fails with
  | (none, heap) => ([], heap)
  | (some block, heap) =>
    match makeNewSimpleCommandElementList fails heap with
    | ([], heap) => ([], heap)
    | (elementList, heap) => ([⟨block, ⟨elementList⟩⟩], heap)

/-- `makeNewSimpleList`. -/
def makeNewSimpleList (fails : FailurePlan) (heap : Heap) :
    Option SimpleList × Heap :=
  match heap.malloc fails with
  | (none, heap) => (none, heap)
  | (some block, heap) =>
    match makeNewSimpleCommandList fails heap with
    | ([], heap) => (none, heap)
    | (simpleCommandList, heap) => (some ⟨block, ⟨simpleCommandList⟩, 0⟩, heap)

/-- `makeNewRedirection`. -/
def makeNewRedirection (fails : FailurePlan) (heap : Heap) :
    Option Redirection × Heap :=
  match heap.malloc fails with
  | (none, heap) => (none, heap)
  | (some block, heap) => (some ⟨block, none, none⟩, heap)

/-! ## Destructors -/

/-- `freeRedirection`. -/
def freeRedirection (redirection : Option Redirection) (heap : Heap) : Heap :=
  match redirection with
  | none => heap
  | some redirection => heap.free redirection.block

/-- `freeSimpleCommandElementList`: the tail first, then the redirection of
this node, then the node. -/
def freeSimpleCommandElementList : SimpleCommandElementList → Heap → Heap
  | [], heap => heap
  | node :: next, heap =>
    (freeRedirection node.element.redirectionPointer
      (freeSimpleCommandElementList next heap)).free node.block

/-- `freeSimpleCommandList`. -/
def freeSimpleCommandList : SimpleCommandList → Heap → Heap
  | [], heap => heap
  | node :: next, heap =>
    (freeSimpleCommandElementList node.simpleCommand.elementList
      (freeSimpleCommandList next heap)).free node.block

/-- `freeSimpleList`. -/
def freeSimpleList (list : Option SimpleList) (heap : Heap) : Heap :=
  match list with
  | none => heap
  | some list =>
    (freeSimpleCommandList list.pipeline.simpleCommandList heap).free list.block

/-! ## Releasing blocks makes no request -/

@[simp] theorem freeRedirection_calls (redirection : Option Redirection)
    (heap : Heap) : (freeRedirection redirection heap).calls = heap.calls := by
  cases redirection <;> rfl

@[simp] theorem freeSimpleCommandElementList_calls
    (list : SimpleCommandElementList) (heap : Heap) :
    (freeSimpleCommandElementList list heap).calls = heap.calls := by
  induction list with
  | nil => rfl
  | cons node next ih => simpa [freeSimpleCommandElementList] using ih

end OsLabs.Iwish.ParserTokens
