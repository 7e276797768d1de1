import OsLabs.Posix.Strtok
import OsLabs.Iwish.DynamicByteArray

/-!
# Reading and splitting a line

The input handling of `iwish.c`.  The standard input is the list of the bytes
still to be read.  `fgetc` returns `EOF` at its end, which the conversion to
`char` makes the byte 255; the loop of `readInput` does not look for it, and
so is given fuel.

`tokenise` returns pointers into the line, which are offsets here.
-/

namespace OsLabs.Iwish.Reader

open OsLabs.Posix
open OsLabs.Iwish.DBA

/-! ## `readInput` -/

/-- `'\n'` -/
def newline : UInt8 := 10

/-- `'\\'` -/
def backslash : UInt8 := 92

/-- `c = fgetc(stream)` for a `char c`. -/
def fgetc : List UInt8 → UInt8 × List UInt8
  | [] => (255, [])
  | c :: stream => (c, stream)

/-- The state of `readInput`. -/
structure Reading where
  string : DynamicByteArray UInt8
  stream : List UInt8
  heap : Heap

section

variable (fails : FailurePlan)

/-- `DBA_addElemToArr(string_ptr, &c)`; its result is not looked at. -/
def Reading.append (r : Reading) (c : UInt8) : Except Fault Reading := do
  let (_, string, heap) ← addElemToArr fails r.string [c] r.heap
  return { r with string := string, heap := heap }

/-- The loop of `readInput`.  A backslash that does not end the line is stored
together with the byte after it, and then once more. -/
def readLoop : Nat → Reading → Except Fault Reading
  | 0, _ => throw .outOfFuel
  | fuel + 1, r => do
    let (c, stream) := fgetc r.stream
    let r := { r with stream := stream }
    if c = newline then return r
    else if c = backslash then
      let (c2, stream) := fgetc r.stream
      let r := { r with stream := stream }
      if c2 ≠ newline then
        let r ← r.append fails c
        let r ← r.append fails c2
        let r ← r.append fails c
        readLoop fuel r
      else readLoop fuel r
    else
      let r ← r.append fails c
      readLoop fuel r

/-- `readInput`: the line, or `none` for a null pointer, and what is left of
the stream. -/
def readInput (fuel : Nat) (stream : List UInt8) (heap : Heap) :
    Except Fault (Option (Block UInt8) × List UInt8 × Heap) := do
  match makeNewDynamicByteArray fails 1 heap with
  | (none, heap) => return (none, stream, heap)
  | (some string, heap) =>
    let r ← readLoop fails fuel ⟨string, stream, heap⟩
    let r ← r.append fails 0
    return (some ⟨r.string.elementsBlock, r.string.elements⟩, r.stream,
      r.heap.free r.string.block)

/-! ## `tokenise` -/

/-- `" "`, as the delimiters of `strtok`. -/
def isSpace (c : UInt8) : Bool := c == 32

/-- A token array: pointers into the line. -/
abbrev Strings := Block (PointerByte Nat)

/-- The loop of `tokenise`: the array, or `none` for a null pointer, and the
line as `strtok` has left it. -/
def tokeniseLoop : Nat → Option Nat → List (Option UInt8) → Nat →
    DynamicByteArray (PointerByte Nat) → Heap →
    Except Fault (Option Strings × List (Option UInt8) × Heap)
  | 0, _, _, _, _, _ => throw .outOfFuel
  | fuel + 1, token, input, saved, arr, heap => do
    let (status, arr, heap) ← addElemToArr fails arr (pointerBytes token) heap
    if status < 0 then
      return (none, input, heap.free arr.block)
    else
      match token with
      | none =>
        return (some ⟨arr.elementsBlock, arr.elements⟩, input,
          heap.free arr.block)
      | some _ =>
        let (token, input, saved) ← strtok isSpace input saved
        tokeniseLoop fuel token input saved arr heap

/-- `tokenise`. -/
def tokenise (input : Block UInt8) (heap : Heap) :
    Except Fault (Option Strings × Block UInt8 × Heap) := do
  match makeNewDynamicByteArray fails pointerSize heap with
  | (none, heap) => return (none, input, heap)
  | (some arr, heap) =>
    let (token, cells, saved) ← strtok isSpace input.cells 0
    let (strings, cells, heap) ←
      tokeniseLoop fails (input.cells.length + 2) token cells saved arr heap
    return (strings, { input with cells := cells }, heap)

end

/-! ## The rounds of `readLoop` -/

section Rounds

variable (fails : FailurePlan) (fuel : Nat) (string : DynamicByteArray UInt8)
  (stream : List UInt8) (heap : Heap)

theorem readLoop_newline :
    readLoop fails (fuel + 1) ⟨string, newline :: stream, heap⟩ =
      .ok ⟨string, stream, heap⟩ := rfl

theorem readLoop_continued :
    readLoop fails (fuel + 1) ⟨string, backslash :: newline :: stream, heap⟩ =
      readLoop fails fuel ⟨string, stream, heap⟩ := rfl

theorem readLoop_escape {c2 : UInt8} (hc2 : c2 ≠ newline) :
    readLoop fails (fuel + 1) ⟨string, backslash :: c2 :: stream, heap⟩ = (do
      let r ← Reading.append fails ⟨string, stream, heap⟩ backslash
      let r ← r.append fails c2
      let r ← r.append fails backslash
      readLoop fails fuel r) := by
  rw [readLoop]
  exact if_pos hc2

theorem readLoop_plain {c : UInt8} (hc : c ≠ newline) (hb : c ≠ backslash) :
    readLoop fails (fuel + 1) ⟨string, c :: stream, heap⟩ = (do
      let r ← Reading.append fails ⟨string, stream, heap⟩ c
      readLoop fails fuel r) := by
  rw [readLoop]
  exact (if_neg hc).trans (if_neg hb)

/-- At the end of the stream the loop stores the byte 255, round after
round. -/
theorem readLoop_end :
    readLoop fails (fuel + 1) ⟨string, [], heap⟩ = (do
      let r ← Reading.append fails ⟨string, [], heap⟩ 255
      readLoop fails fuel r) := rfl

theorem readLoop_lastBackslash :
    readLoop fails (fuel + 1) ⟨string, [backslash], heap⟩ = (do
      let r ← Reading.append fails ⟨string, [], heap⟩ backslash
      let r ← r.append fails 255
      let r ← r.append fails backslash
      readLoop fails fuel r) := rfl

end Rounds

/-! ## The tokens -/

/-- The strings that a token array points to. -/
def loadSentence (input : Block UInt8) (strings : Strings) :
    Except Fault (List CString) := do
  let offsets ← loadPointerArray strings.cells
  offsets.mapM (loadString input.cells)

/-- `"exit"`, `"quit"` and `"q"` -/
def exitKeywords : List (List UInt8) :=
  [[101, 120, 105, 116], [113, 117, 105, 116], [113]]

/-- `stringIsExitKeyword`. -/
def stringIsExitKeyword (string : Option CString) : Bool :=
  match string with
  | none => false
  | some string => exitKeywords.contains string.bytes

end OsLabs.Iwish.Reader
