import OsLabs.Iwish.ParserTokens

/-!
# The recursive-descent parser of the iwish shell

`parser.c`, function by function.  `*current_index_ptr` and the node a
function fills are passed in and handed back; `sentence` is the
null-terminated token array and is only read.  The failure plan decides which
`malloc` of the run returns a null pointer.

The recursions of the source are bounded by fuel.  `parseInput` hands out one
round more than the sentence has tokens, and `outOfFuel` would show in its
result.
-/

namespace OsLabs.Iwish.Parser

open OsLabs.Posix
open OsLabs.Iwish.ParserTokens

/-! ## Operator tokens -/

/-- `"<"` -/
def lessThan : CString := ⟨[60], by decide⟩

/-- `">"` -/
def greaterThan : CString := ⟨[62], by decide⟩

/-- `"|"` -/
def bar : CString := ⟨[124], by decide⟩

/-- `"&"` -/
def ampersand : CString := ⟨[38], by decide⟩

/-! ## Words -/

/-- The first test of `parseLetter`: `a`..`z` or `A`..`Z`. -/
def isAsciiLetter (c : UInt8) : Bool :=
  (97 ≤ c && c ≤ 122) || (65 ≤ c && c ≤ 90)

/-- The second test of `parseLetter`: `-`, `.`, `/` or `_`. -/
def isPathPunctuation (c : UInt8) : Bool :=
  c == 45 || c == 46 || c == 47 || c == 95

/-- `parseLetter`: its result and `*current_letter_index_ptr`. -/
def parseLetter (sentence : List CString) (index letterIndex : Nat) :
    Except Fault (Bool × Nat) := do
  match ← pointerAt sentence index with
  | none => return (false, letterIndex)
  | some token =>
    let letter ← token.charAt letterIndex
    if isAsciiLetter letter then
      return (true, letterIndex + 1)
    else if isPathPunctuation letter then
      return (true, letterIndex + 1)
    else
      return (false, letterIndex)

/-- The loop of `parseWord`: does it run into the terminator? -/
def parseWordLoop (sentence : List CString) (index : Nat) :
    Nat → Nat → Except Fault Bool
  | 0, _ => throw .outOfFuel
  | fuel + 1, letterIndex => do
    match ← pointerAt sentence index with
    | none => throw .nullDereference
    | some token =>
      if (← token.charAt letterIndex) = 0 then
        return true
      else
        let (ok, letterIndex) ← parseLetter sentence index letterIndex
        if ok then parseWordLoop sentence index fuel letterIndex
        else return false

/-- `parseWord`: its result and `*current_index_ptr`. -/
def parseWord (sentence : List CString) (index : Nat) :
    Except Fault (Bool × Nat) := do
  match ← pointerAt sentence index with
  | none => return (false, index)
  | some token =>
    if ← parseWordLoop sentence index (token.bytes.length + 1) 0 then
      return (true, index + 1)
    else
      return (false, index)

/-! ## Redirections and elements -/

/-- The part of `parseRedirection` after the operator: the direction is
written before the word is looked at. -/
def parseRedirectionWord (sentence : List CString) (index : Nat)
    (redirection : Option Redirection) (isInputRedirection : Int) :
    Except Fault (Bool × Nat × Option Redirection) := do
  match redirection with
  | none => throw .nullDereference
  | some redirection =>
    let redirection :=
      { redirection with isInputRedirection := some isInputRedirection }
    let (ok, next) ← parseWord sentence (index + 1)
    if ok then
      let word ← pointerAt sentence (next - 1)
      return (true, next, some { redirection with word := word })
    else
      return (false, index, some redirection)

/-- `parseRedirection`. -/
def parseRedirection (sentence : List CString) (index : Nat)
    (redirection : Option Redirection) :
    Except Fault (Bool × Nat × Option Redirection) := do
  match ← pointerAt sentence index with
  | none => return (false, index, redirection)
  | some token =>
    if token = lessThan then
      parseRedirectionWord sentence index redirection 1
    else if token = greaterThan then
      parseRedirectionWord sentence index redirection 0
    else
      return (false, index, redirection)

/-- What a parse function hands back: its result, `*current_index_ptr`, the
node it was to fill, and the heap. -/
structure Parsed (σ : Type) where
  ok : Bool
  index : Nat
  node : σ
  heap : Heap
  deriving Repr, DecidableEq

section

variable (fails : FailurePlan) (sentence : List CString)

/-- `parseSimpleCommandElement`.  A redirection node is requested for every
token that is not a word, and given back when the token turns out not to be
an operator either. -/
def parseSimpleCommandElement (index : Nat) (element : SimpleCommandElement)
    (heap : Heap) : Except Fault (Parsed SimpleCommandElement) := do
  match ← pointerAt sentence index with
  | none => return ⟨false, index, element, heap⟩
  | some token =>
    let (isWord, next) ← parseWord sentence index
    if isWord then
      return ⟨true, next, ⟨0, none, some token⟩, heap⟩
    else
      let (redirection, heap) := makeNewRedirection fails heap
      let (ok, next, redirection) ← parseRedirection sentence index redirection
      if ok then
        return ⟨true, next, ⟨1, redirection, none⟩, heap⟩
      else
        return ⟨false, index, { element with redirectionPointer := none },
          freeRedirection redirection heap⟩

/-- `parseSimpleCommand`, filling the first node of `list`.  A refused node
for the next element makes it return false *after* the index has moved past
the element. -/
def parseSimpleCommand : Nat → Nat → SimpleCommandElementList → Heap →
    Except Fault (Parsed SimpleCommandElementList)
  | 0, _, _, _ => throw .outOfFuel
  | fuel + 1, index, list, heap => do
    match ← pointerAt sentence index with
    | none => return ⟨false, index, list, heap⟩
    | some _ =>
      match list with
      | [] => throw .nullDereference
      | node :: next =>
        let parsed ← parseSimpleCommandElement fails sentence index
          node.element heap
        let node := { node with element := parsed.node }
        if parsed.ok then
          match makeNewSimpleCommandElementList fails parsed.heap with
          | ([], heap) => return ⟨false, parsed.index, [node], heap⟩
          | (child, heap) =>
            let rest ← parseSimpleCommand fuel parsed.index child heap
            if rest.ok then
              return ⟨true, rest.index, node :: rest.node, rest.heap⟩
            else
              return ⟨true, rest.index, [node],
                freeSimpleCommandElementList rest.node rest.heap⟩
        else
          return ⟨false, index, node :: next, parsed.heap⟩

/-- `parsePipeLine2`, extending the list that `previous` heads.  Its call of
`parsePipeLine` is the parameter `parsePipeLine`. -/
def parsePipeLine2
    (parsePipeLine : Nat → SimpleCommandList → Heap →
      Except Fault (Parsed SimpleCommandList))
    (index : Nat) (previous : SimpleCommandList) (heap : Heap) :
    Except Fault (Parsed SimpleCommandList) := do
  match ← pointerAt sentence index with
  | none => return ⟨false, index, previous, heap⟩
  | some token =>
    if token = bar then
      match previous with
      | [] => throw .nullDereference
      | node :: _ =>
        match makeNewSimpleCommandList fails heap with
        | ([], heap) => return ⟨false, index + 1, [node], heap⟩
        | (next, heap) =>
          let parsed ← parsePipeLine (index + 1) next heap
          if parsed.ok then
            return ⟨true, parsed.index, node :: parsed.node, parsed.heap⟩
          else
            return ⟨false, index + 1, [node],
              freeSimpleCommandList parsed.node parsed.heap⟩
    else
      return ⟨false, index, previous, heap⟩

/-- `parsePipeLine`, filling the first node of `list`.  A pipeline that does
not continue is not an error: the index goes back to before the `|`. -/
def parsePipeLine : Nat → Nat → SimpleCommandList → Heap →
    Except Fault (Parsed SimpleCommandList)
  | 0, _, _, _ => throw .outOfFuel
  | fuel + 1, index, list, heap => do
    match ← pointerAt sentence index with
    | none => return ⟨false, index, list, heap⟩
    | some _ =>
      let (isWord, next) ← parseWord sentence index
      if isWord then
        match list with
        | [] => throw .nullDereference
        | node :: tail =>
          let command ← parseSimpleCommand fails sentence
            (sentence.length + 1) (next - 1) node.simpleCommand.elementList heap
          let list := { node with simpleCommand := ⟨command.node⟩ } :: tail
          if command.ok then
            let parsed ← parsePipeLine2 fails sentence (parsePipeLine fuel)
              command.index list command.heap
            if parsed.ok then return parsed
            else return { parsed with ok := true, index := command.index }
          else
            return ⟨false, index, list, command.heap⟩
      else
        return ⟨false, index, list, heap⟩

/-- `parseInput`: its result, the filled `Simple_List` and the heap. -/
def parseInput (list : SimpleList) (heap : Heap) :
    Except Fault (Bool × SimpleList × Heap) := do
  match ← pointerAt sentence 0 with
  | none => return (false, list, heap)
  | some _ =>
    let parsed ← parsePipeLine fails sentence (sentence.length + 1) 0
      list.pipeline.simpleCommandList heap
    let list := { list with pipeline := ⟨parsed.node⟩ }
    if parsed.ok then
      if (← pointerAt sentence parsed.index) = some ampersand then
        let last ← pointerAt sentence (parsed.index + 1)
        return (last.isNone, { list with hasDaemonAmpersand := 1 }, parsed.heap)
      else
        let last ← pointerAt sentence parsed.index
        return (last.isNone, list, parsed.heap)
    else
      return (false, list, parsed.heap)

end

end OsLabs.Iwish.Parser
