import OsLabs.Lab1.Duplicates
import OsLabs.Posix.Ledger

/-!
# The older program

`main` of `duplicates_backup.c`.  It walks through the working directory
twice: first it counts the files, to request one block of slots of 256 bytes
each and one of pointers to them, and then it copies the names into the slots.
Its two loops over the pairs share the index `j`, which is never set back.

`firstRow_prints_iff`: what that costs next to `main` of `duplicates.c`.  The
older program has room for 8388607 files, and opens no file but the first one
and those it is compared with; it is wrong as soon as there are duplicates
behind the first file.
-/

namespace OsLabs.Lab1.DuplicatesBackup

open OsLabs.Posix OsLabs.Posix.FileTree
open OsLabs.Lab1.FileNames (maxDirBufferSize Fit nodeStrings getcwd)
open OsLabs.Lab1.TreeWalk
open OsLabs.Lab1.CompareFiles (Files Process compareFiles)
open OsLabs.Lab1.DuplicatePairs (Pair comparePair row rows AllEqualPairs)
open OsLabs.Lab1.Duplicates

/-! ## The source -/

/-- The value of an expression of type `int` that is not negative. -/
def intValue (n : Nat) : Except Stop Nat :=
  if InInt32 n then .ok n else .error .overflow

def ofWalk : WalkStop Stop → Stop
  | .stop .exited => .exited
  | .stop (.fault f) => .fault f
  | .visit stop => stop

/-- The count of a call starts at 0, and is added to that of the caller. -/
def countVisitor : Visitor Stop Nat where
  visit := fun _ fileCnt => intValue (fileCnt + 1)
  enter := fun _ => 0
  leave := fun fileCnt below => intValue (fileCnt + below)

/-- `countNrOfFilesInDir` -/
def countNrOfFilesInDir (env : FileNames.Environment) (fs : FileSystem)
    (fuel : Nat) (dirPath : List (Option UInt8)) : Except Stop Nat :=
  (walk env fs countVisitor fuel dirPath 0).mapError ofWalk

/-- `fileNames`: the block of pointers, and the block that they point into.  A
pointer is an offset. -/
structure FileNameArray where
  id : Nat
  pointers : List (Option (PointerByte Nat))
  strings : Block UInt8

/-- `fileNames[i]` -/
def FileNameArray.elemAt (fileNames : FileNameArray) (i : Nat) :
    Except Stop (Option Nat) :=
  (loadPointer fileNames.pointers i).mapError .fault

/-- The string that an element points to. -/
def FileNameArray.stringAt (fileNames : FileNameArray) (offset : Nat) :
    Except Stop CString :=
  (loadString fileNames.strings.cells offset).mapError .fault

/-- `fileNames[i] = &fileNames[0][i*_DUP_MAXDIRBUFFERSIZE]` -/
def setSlot (pointers : List (Option (PointerByte Nat))) (i : Nat) :
    Except Stop (List (Option (PointerByte Nat))) := do
  let offset ← intValue (i * maxDirBufferSize)
  (storePointer pointers i (some offset)).mapError .fault

/-- `allocFileNames` -/
def allocFileNames (fails : FailurePlan) (fileCount : Nat) (heap : Heap) :
    Except Stop (FileNameArray × Heap) := do
  let count ← intValue (fileCount + 1)
  match heap.malloc fails with
  | (none, _) => throw .exited
  | (some id, heap) => do
    let size ← intValue (fileCount * maxDirBufferSize)
    match heap.malloc fails with
    | (none, _) => throw .exited
    | (some strings, heap) => do
      let pointers ← (storePointer (indeterminate (count * pointerSize)) 0
        (some 0)).mapError .fault
      let pointers ← (List.range' 1 (fileCount - 1)).foldlM setSlot pointers
      let pointers ← (storePointer pointers fileCount none).mapError .fault
      return (⟨id, pointers, ⟨strings, indeterminate size⟩⟩, heap)

/-- `strcpy(fileNames[indexOffset], fileName)` and `++indexOffset`. -/
def storeFileName (fileName : List (Option UInt8))
    (found : FileNameArray × Nat) : Except Stop (FileNameArray × Nat) := do
  match ← found.1.elemAt found.2 with
  | none => throw (.fault .nullDereference)
  | some offset => do
    let text ← (loadString fileName 0).mapError .fault
    let cells ← (storeBytes text.image offset
      found.1.strings.cells).mapError .fault
    let next ← intValue (found.2 + 1)
    return ({ found.1 with strings := ⟨found.1.strings.id, cells⟩ }, next)

/-- `getFileNamesInDirRec`: `indexOffset` is handed down and comes back. -/
def storeVisitor : Visitor Stop (FileNameArray × Nat) :=
  ⟨storeFileName, id, fun _ below => .ok below⟩

/-- `getFileNamesInDir` -/
def getFileNamesInDir (env : FileNames.Environment) (fs : FileSystem)
    (fuel : Nat) (fileNames : FileNameArray) (dirName : List (Option UInt8)) :
    Except Stop FileNameArray := do
  let found ← (walk env fs storeVisitor fuel dirName
    (fileNames, 0)).mapError ofWalk
  return found.1

/-- `freeFileNames` -/
def freeFileNames (fileNames : FileNameArray) (heap : Heap) :
    Except Stop Heap := do
  match ← fileNames.elemAt 0 with
  | none => return heap.free fileNames.id
  | some offset =>
    if offset = 0 then
      return (heap.free fileNames.strings.id).free fileNames.id
    else throw (.fault .outOfBounds)

section

variable {α : Type} (env : CompareFiles.Environment) (files : Files)

/-- The inner loop of `printDuplicateFilePairs`: the index `j` after it, and
the output. -/
def innerLoop (fileNames : FileNameArray) (i : Nat) : Nat → Nat →
    List (Pair CString) → Process α →
    Except Stop (Nat × List (Pair CString) × Process α)
  | 0, _, _, _ => throw (.fault .outOfFuel)
  | fuel + 1, j, outStream, p => do
    match ← fileNames.elemAt j with
    | none => return (j, outStream, p)
    | some offset2 => do
      let offset1 ← fileNames.elemAt i
      let file1 ← offset1.mapM fileNames.stringAt
      let file2 ← fileNames.stringAt offset2
      let (same, p) ←
        (compareFiles env files file1 (some file2) p).mapError .ofCompare
      let next ← intValue (j + 1)
      innerLoop fileNames i fuel next
        (comparePair (fun _ _ => same) i j file1 (some file2) outStream) p

/-- The outer loop of `printDuplicateFilePairs`.  It keeps `j`. -/
def outerLoop (fileNames : FileNameArray) : Nat → Nat → Nat →
    List (Pair CString) → Process α →
    Except Stop (List (Pair CString) × Process α)
  | 0, _, _, _, _ => throw (.fault .outOfFuel)
  | fuel + 1, i, j, outStream, p => do
    match ← fileNames.elemAt i with
    | none => return (outStream, p)
    | some _ => do
      let (j, outStream, p) ← innerLoop env files fileNames i
        (fileNames.pointers.length + 1) j outStream p
      let next ← intValue (i + 1)
      outerLoop fileNames fuel next j outStream p

/-- `printDuplicateFilePairs` -/
def printDuplicateFilePairs (fileNames : FileNameArray) (p : Process α) :
    Except Stop (List (Pair CString) × Process α) := do
  let j ← intValue (0 + 1)
  outerLoop env files fileNames (fileNames.pointers.length + 1) 0 j [] p

/-- `main`: the lines that it prints, and the heap at its end.  The calls of
each of its two walks are counted apart. -/
def main (counting search : FileNames.Environment) (fs : FileSystem)
    (fuel : Nat) (heap : Heap) (p : Process α) :
    Except Stop (List (Pair CString) × Heap) := do
  let fileCount ← countNrOfFilesInDir counting fs fuel (getcwd fs)
  if fileCount < 2 then return ([], heap)
  else
    let (fileNames, heap) ←
      allocFileNames search.mallocFails fileCount heap
    let fileNames ← getFileNamesInDir search fs fuel fileNames (getcwd fs)
    let (outStream, _) ← printDuplicateFilePairs env files fileNames p
    let heap ← freeFileNames fileNames heap
    return (outStream, heap)

end

theorem intValue_of_le {n : Nat} (h : n ≤ 2147483647) : intValue n = .ok n := by
  have hfits : InInt32 (n : Int) := by
    unfold InInt32
    omega
  exact if_pos hfits

theorem intValue_of_lt {n : Nat} (h : 2147483647 < n) :
    intValue n = .error .overflow := by
  have hout : ¬ InInt32 (n : Int) := by
    unfold InInt32
    omega
  exact if_neg hout

/-- A sum of which one part has been computed before. -/
theorem intValue_bind_add (n m : Nat) :
    (intValue n >>= fun value => intValue (value + m)) = intValue (n + m) := by
  rcases Nat.lt_or_ge 2147483647 n with hlarge | hsmall
  · rw [intValue_of_lt hlarge, intValue_of_lt (Nat.lt_add_right m hlarge)]
    rfl
  · rw [intValue_of_le hsmall]
    rfl

theorem intValue_add_bind (n m : Nat) :
    (intValue m >>= fun value => intValue (n + value)) = intValue (n + m) := by
  rw [Nat.add_comm n m, ← intValue_bind_add]
  exact bind_congr fun value => congrArg intValue (Nat.add_comm n value)

/-! ## Counting -/

section Count

variable {visitor : Visitor Stop Nat} {file : CString → Nat → Except Stop Nat}

/-- A visitor that counts the files, with a count of its own below every
directory. -/
structure Counts (visitor : Visitor Stop Nat)
    (file : CString → Nat → Except Stop Nat) : Prop where
  file : ∀ path n, file path n = intValue (n + 1)
  enter : ∀ n, visitor.enter n = 0
  leave : ∀ n m, visitor.leave n m = intValue (n + m)

mutual

/-- The walk finds as many files as there are, or overflows the count. -/
theorem gatherNode_count (h : Counts visitor file) : (node : Node) →
    (path : CString) → (n : Nat) → intValue n = .ok n →
    gatherNode visitor file path node n =
      intValue (n + (node.filePaths path).length)
  | .regular, path, n, _ => by
      rw [gatherNode, Node.filePaths, List.length_singleton, h.file]
  | .special, _, n, hn => by
      rw [gatherNode, Node.filePaths, List.length_nil, Nat.add_zero, hn]
  | .directory entries, path, n, _ => by
      have hbelow := gather_count h entries path 0 rfl
      rw [Nat.zero_add] at hbelow
      rw [gatherNode, Node.filePaths, h.enter, hbelow, ← intValue_add_bind]
      exact bind_congr fun below => h.leave n below

theorem gather_count (h : Counts visitor file) : (entries : Entries) →
    (dir : CString) → (n : Nat) → intValue n = .ok n →
    gather visitor file dir entries n =
      intValue (n + (entries.filePaths dir).length)
  | .nil, dir, n, hn => by
      rw [gather, Entries.filePaths, List.length_nil, Nat.add_zero, hn]
  | .dot rest, dir, n, hn => by
      rw [gather, Entries.filePaths]
      exact gather_count h rest dir n hn
  | .dotDot rest, dir, n, hn => by
      rw [gather, Entries.filePaths]
      exact gather_count h rest dir n hn
  | .child name node rest, dir, n, hn => by
      rw [gather, Entries.filePaths, List.length_append, ← Nat.add_assoc,
        gatherNode_count h node _ n hn]
      rcases Nat.lt_or_ge 2147483647
        (n + (node.filePaths (entryPath dir name.text)).length) with hlt | hle
      · rw [intValue_of_lt hlt, intValue_of_lt (Nat.lt_add_right _ hlt)]
        rfl
      · rw [intValue_of_le hle]
        exact gather_count h rest dir _ (intValue_of_le hle)

end

/-- A file counts for one, whatever it is called. -/
def countFile (_ : CString) (fileCnt : Nat) : Except Stop Nat :=
  intValue (fileCnt + 1)

theorem countVisitor_counts : Counts countVisitor countFile :=
  ⟨fun _ _ => rfl, fun _ => rfl, fun _ _ => rfl⟩

theorem countVisitor_reads : Reads countVisitor countFile := by
  intro path cells n _
  simp only [countVisitor, countFile]

variable {fs : FileSystem} {entries : Entries} {above : List Entries}
  {fuel : Nat}

theorem countNrOfFilesInDir_eq
    (hworking : fs.workingLocation = some ⟨.directory entries, above⟩)
    (hdistinct : entries.Distinct)
    (hroot : fs.workingPath.bytes.length < maxDirBufferSize)
    (hfit : Fit (nodeStrings fs.workingPath (.directory entries)))
    (hfuel : entries.depth < fuel) :
    countNrOfFilesInDir .quiet fs fuel (getcwd fs) =
      intValue (entries.filePaths fs.workingPath).length := by
  have hwalk := walk_quiet countVisitor_reads
    ((FileTree.locate_workingPath fs).trans hworking) hdistinct hfit
    (FileNames.getcwd_load hroot) hfuel 0
  have hcount := gather_count countVisitor_counts entries fs.workingPath 0 rfl
  rw [Nat.zero_add] at hcount
  rw [countNrOfFilesInDir, hwalk, hcount]
  cases intValue (entries.filePaths fs.workingPath).length with
  | ok n => rfl
  | error stop => rfl

end Count

/-! ## The slots -/

section Slots

variable {slots : List (List (Option UInt8))} {names : List CString}
  {path : CString} {rest cells : List (Option UInt8)} {i n : Nat}

/-- The pointers to the first `n` slots. -/
def slotPointers (n : Nat) : List (Option Nat) :=
  (List.range n).map fun i => some (i * maxDirBufferSize)

theorem slotPointers_length (n : Nat) : (slotPointers n).length = n := by
  rw [slotPointers, List.length_map, List.length_range]

theorem slotPointers_succ (n : Nat) :
    slotPointers (n + 1) = slotPointers n ++ [some (n * maxDirBufferSize)] := by
  rw [slotPointers, List.range_succ, List.map_append]
  rfl

theorem setSlot_append {spare : List (Option (PointerByte Nat))}
    (hroom : pointerSize ≤ spare.length)
    (hfits : i * maxDirBufferSize ≤ 2147483647) :
    setSlot (pointersBytes (slotPointers i) ++ spare) i =
      .ok (pointersBytes (slotPointers (i + 1)) ++
        spare.drop pointerSize) := by
  have hstore := storePointer_pointersBytes (slotPointers i)
    (some (i * maxDirBufferSize)) hroom
  rw [slotPointers_length] at hstore
  rw [setSlot, intValue_of_le hfits, except_ok_bind, hstore, slotPointers_succ]
  rfl

/-- The loop sets one pointer after the other. -/
theorem setSlots (spare : List (Option (PointerByte Nat))) (k i : Nat)
    (hroom : k * pointerSize ≤ spare.length)
    (hfits : (i + k) * maxDirBufferSize ≤ 2147483647) :
    (List.range' i k).foldlM setSlot (pointersBytes (slotPointers i) ++ spare) =
      .ok (pointersBytes (slotPointers (i + k)) ++
        spare.drop (k * pointerSize)) := by
  induction k generalizing i spare with
  | zero =>
      rw [Nat.zero_mul, List.drop_zero]
      rfl
  | succ k ih =>
      have hsize : (k + 1) * pointerSize = pointerSize + k * pointerSize := by
        rw [Nat.succ_mul, Nat.add_comm]
      have hlast : i + (k + 1) = i + 1 + k := by omega
      have hfirst : i * maxDirBufferSize ≤ 2147483647 :=
        Nat.le_trans (Nat.mul_le_mul_right _ (Nat.le_add_right i _)) hfits
      rw [hlast] at hfits
      rw [hsize] at hroom
      have hrest := ih (spare.drop pointerSize) (i + 1)
        (by rw [List.length_drop]; omega) hfits
      rw [List.range'_succ, List.foldlM_cons,
        setSlot_append (Nat.le_of_add_right_le hroom) hfirst, except_ok_bind,
        hrest, List.drop_drop, hsize, hlast]

theorem length_flatten_slots
    (h : List.Forall₂ (HoldsString maxDirBufferSize) names slots) :
    slots.flatten.length = names.length * maxDirBufferSize := by
  induction h with
  | nil => rfl
  | cons hheld _ ih =>
      rw [List.flatten_cons, List.length_append, ih, hheld.length,
        List.length_cons, Nat.succ_mul, Nat.add_comm]

/-- The name in slot `i`. -/
theorem loadString_slot
    (h : List.Forall₂ (HoldsString maxDirBufferSize) names slots)
    (hpath : names[i]? = some path) :
    loadString (slots.flatten ++ rest) (i * maxDirBufferSize) = .ok path := by
  induction h generalizing i with
  | nil => cases hpath
  | @cons name slot _ slots hheld _ ih =>
      rw [List.flatten_cons, List.append_assoc]
      cases i with
      | zero =>
          cases hpath
          obtain ⟨spare, rfl⟩ := hheld.starts
          rw [Nat.zero_mul, loadString, List.drop_zero, List.append_assoc,
            CString.image_append, takeString_append]
      | succ i =>
          have hbehind : (i + 1) * maxDirBufferSize =
              slot.length + i * maxDirBufferSize := by
            rw [hheld.length, Nat.succ_mul, Nat.add_comm]
          rw [hbehind, loadString, ← List.drop_drop,
            List.drop_left]
          exact ih hpath

end Slots

/-! ## The loops -/

section Loops

variable {α : Type} {files : Files} {limit i j fuel : Nat} {p : Process α}
  {fileNames : FileNameArray} {names ahead : List CString} {a b : CString}
  {outStream : List (Pair CString)}

/-- The elements of the array are these strings, with a null pointer behind
them. -/
structure Lists (fileNames : FileNameArray) (names : List CString) : Prop where
  elem : ∀ i path, names[i]? = some path → ∃ offset,
    fileNames.elemAt i = .ok (some offset) ∧
      fileNames.stringAt offset = .ok path
  last : fileNames.elemAt names.length = .ok none
  rounds : names.length < fileNames.pointers.length

/-- The first name with each of the others. -/
def firstPairs : List CString → List (CString × CString)
  | [] => []
  | a :: ahead => ahead.map fun b => (a, b)

theorem noPairs_of_few (same : CString → CString → Bool)
    (h : names.length < 2) : firstPairs names = [] ∧ rows same 0 names = [] := by
  cases names with
  | nil => exact ⟨rfl, rfl⟩
  | cons a ahead =>
      obtain rfl : ahead = [] := by
        rw [List.length_cons] at h
        exact List.length_eq_zero_iff.mp (by omega)
      exact ⟨rfl, rfl⟩

theorem Lists.next (h : Lists fileNames names)
    (hahead : Ahead names j (b :: ahead)) : ∃ offset,
      fileNames.elemAt j = .ok (some offset) ∧
        fileNames.stringAt offset = .ok b :=
  h.elem j b (getElem?_of_drop_cons hahead.drop_eq)

theorem Lists.atEnd (h : Lists fileNames names) (hahead : Ahead names j []) :
    j = names.length ∧ fileNames.elemAt j = .ok none := by
  obtain rfl : j = names.length := hahead.length_eq
  exact ⟨rfl, h.last⟩

/-- The inner loop, over the names from `j` on, leaves `j` at the end. -/
theorem innerLoop_prints (limit : Nat) (p : Process α)
    (outStream : List (Pair CString)) (hlists : Lists fileNames names)
    (hfits : names.length ≤ 2147483647) (hcountable : Countable files names)
    (hi : names[i]? = some a) (h : Ahead names j ahead)
    (hfuel : ahead.length < fuel) :
    ∃ result, Prints limit
        (spend files (p.table.freeBelow limit) (ahead.map fun b => (a, b)))
        (outStream ++ row (sameBytes files) i a j ahead) result ∧
      innerLoop (.limited limit) files fileNames i fuel j outStream p =
        result.map fun output => (names.length, output) := by
  induction ahead generalizing j fuel outStream p with
  | nil =>
      obtain ⟨rounds, rfl⟩ : ∃ rounds, fuel = rounds + 1 :=
        ⟨fuel - 1, by omega⟩
      obtain ⟨rfl, hnull⟩ := hlists.atEnd h
      rw [innerLoop, hnull, row, List.append_nil]
      exact ⟨_, .returned rfl, rfl⟩
  | cons b ahead ih =>
      rw [List.length_cons] at hfuel
      obtain ⟨rounds, rfl⟩ : ∃ rounds, fuel = rounds + 1 :=
        ⟨fuel - 1, by omega⟩
      obtain ⟨offset1, helem1, hstring1⟩ := hlists.elem i a hi
      obtain ⟨offset2, helem2, hstring2⟩ := hlists.next h
      have hlength := h.length_eq
      rw [List.length_cons] at hlength
      have hnext : j + 1 ≤ 2147483647 := by omega
      obtain ⟨file1, hfile1, hsmall⟩ :=
        hcountable a (List.mem_of_getElem? hi)
      obtain ⟨file2, hfile2, -⟩ := hcountable b (mem_of_ahead h)
      have hcompared := compareFiles_limited hfile1 hfile2 hsmall limit p
      have hread1 : (some offset1).mapM fileNames.stringAt = .ok (some a) := by
        rw [Option.mapM_some, hstring1]
        rfl
      rw [innerLoop, helem2, List.map_cons, ← List.singleton_append,
        spend_append, row]
      simp only [except_ok_bind, helem1, hread1, hstring2]
      generalize compareFiles (.limited limit) files (some a) (some b) p =
        result at hcompared ⊢
      cases hcompared with
      | exited hnone =>
          rw [hnone]
          exact ⟨.error .exited, .exited rfl, rfl⟩
      | returned hleft =>
          rw [hleft, intValue_of_le hnext, ← List.append_assoc,
            ← DuplicatePairs.comparePair_append]
          exact ih _ _ h.next (Nat.lt_of_succ_lt_succ hfuel)

/-- Once `j` stands at the end, the remaining rounds print nothing. -/
theorem outerLoop_idle (hlists : Lists fileNames names)
    (hfits : names.length ≤ 2147483647) (h : Ahead names i ahead)
    (hfuel : ahead.length < fuel) :
    outerLoop (.limited limit) files fileNames fuel i names.length outStream
      p = .ok (outStream, p) := by
  induction ahead generalizing i fuel with
  | nil =>
      obtain ⟨rounds, rfl⟩ : ∃ rounds, fuel = rounds + 1 :=
        ⟨fuel - 1, by omega⟩
      rw [outerLoop, (hlists.atEnd h).2]
      rfl
  | cons a ahead ih =>
      rw [List.length_cons] at hfuel
      obtain ⟨rounds, rfl⟩ : ∃ rounds, fuel = rounds + 1 :=
        ⟨fuel - 1, by omega⟩
      obtain ⟨offset, helem, -⟩ := hlists.next h
      have hlength := h.length_eq
      rw [List.length_cons] at hlength
      have hnext : i + 1 ≤ 2147483647 := by omega
      rw [outerLoop, helem, except_ok_bind]
      simp only [innerLoop, hlists.last, except_ok_bind, except_pure,
        intValue_of_le hnext]
      exact ih h.next (Nat.lt_of_succ_lt_succ hfuel)

/-- The pairs of the first name are all that is compared. -/
theorem printDuplicateFilePairs_prints (hlists : Lists fileNames names)
    (hfits : names.length ≤ 2147483647) (hcountable : Countable files names) :
    Prints limit (spend files (p.table.freeBelow limit) (firstPairs names))
      ((rows (sameBytes files) 0 names).filter fun pair => pair.i = 0)
      (printDuplicateFilePairs (.limited limit) files fileNames p) := by
  have hstart := Ahead.start names
  rw [printDuplicateFilePairs, intValue_of_le (by decide), except_ok_bind]
  cases hnames : names with
  | nil =>
      rw [hnames] at hstart
      rw [outerLoop, (hlists.atEnd (hnames ▸ hstart)).2]
      exact .returned rfl
  | cons a ahead =>
      have hahead : Ahead names 0 (a :: ahead) := hnames ▸ hstart
      have hlength := hahead.length_eq
      rw [List.length_cons] at hlength
      have hrounds := hlists.rounds
      obtain ⟨offset, helem, -⟩ := hlists.next hahead
      obtain ⟨result, hprints, hinner⟩ := innerLoop_prints limit p [] hlists
        hfits hcountable (getElem?_of_drop_cons hahead.drop_eq) hahead.next
        (show ahead.length < fileNames.pointers.length + 1 by omega)
      rw [DuplicatePairs.filter_rows, firstPairs, outerLoop, helem,
        except_ok_bind]
      simp only [hinner]
      cases hprints with
      | exited hnone => exact .exited hnone
      | @returned p' hleft =>
          have hone : intValue (0 + 1) = .ok 1 := intValue_of_le (by decide)
          have hidle : outerLoop (.limited limit) files fileNames
              fileNames.pointers.length 1 names.length
              ([] ++ row (sameBytes files) 0 a (0 + 1) ahead) p' = _ :=
            outerLoop_idle hlists hfits hahead.next (by omega)
          simp only [Except.map, except_ok_bind, hone, hidle]
          exact .returned hleft

end Loops

/-! ## The array of names -/

section Array

variable {fileNames : FileNameArray} {names : List CString} {path : CString}
  {n : Nat} {heap : Heap}

/-- An array for `n` names, of which these have been stored. -/
structure Stored (n : Nat) (fileNames : FileNameArray)
    (names : List CString) : Prop where
  pointers : fileNames.pointers = pointersBytes (slotPointers n ++ [none])
  fits : n * maxDirBufferSize ≤ 2147483647
  room : names.length ≤ n
  strings : ∃ slots,
    List.Forall₂ (HoldsString maxDirBufferSize) names slots ∧
    fileNames.strings.cells = slots.flatten ++
      indeterminate ((n - names.length) * maxDirBufferSize)

theorem Stored.elemAt (h : Stored n fileNames names) {i : Nat}
    {pointer : Option Nat}
    (hpointer : (slotPointers n ++ [none])[i]? = some pointer) :
    fileNames.elemAt i = .ok pointer := by
  obtain ⟨hlt, rfl⟩ := List.getElem?_eq_some_iff.mp hpointer
  have hload := loadPointer_pointersBytes ((slotPointers n ++ [none]).take i)
    ((slotPointers n ++ [none]).drop (i + 1)) (slotPointers n ++ [none])[i] []
  rw [← List.drop_eq_getElem_cons hlt, List.take_append_drop,
    List.length_take_of_le (Nat.le_of_lt hlt), List.append_nil] at hload
  rw [FileNameArray.elemAt, h.pointers, hload]
  rfl

/-- Element `i` points to slot `i`. -/
theorem Stored.elemAt_slot (h : Stored n fileNames names) {i : Nat}
    (hi : i < n) : fileNames.elemAt i = .ok (some (i * maxDirBufferSize)) := by
  apply h.elemAt
  rw [List.getElem?_append_left (by rw [slotPointers_length]; exact hi),
    slotPointers, List.getElem?_map, List.getElem?_range hi]
  rfl

/-- The element behind them is null. -/
theorem Stored.elemAt_end (h : Stored n fileNames names) :
    fileNames.elemAt n = .ok none := by
  apply h.elemAt
  rw [List.getElem?_append_right (by rw [slotPointers_length]),
    slotPointers_length, Nat.sub_self]
  rfl

theorem Stored.pointers_length (h : Stored n fileNames names) :
    n < fileNames.pointers.length := by
  rw [h.pointers, pointersBytes_length, List.length_append,
    slotPointers_length, List.length_singleton]
  exact Nat.lt_of_lt_of_le (Nat.lt_succ_self n)
    (Nat.le_mul_of_pos_right _ (by decide))

theorem Stored.stringAt (h : Stored n fileNames names) {i : Nat}
    (hpath : names[i]? = some path) :
    fileNames.stringAt (i * maxDirBufferSize) = .ok path := by
  obtain ⟨slots, hslots, hcells⟩ := h.strings
  rw [FileNameArray.stringAt, hcells, loadString_slot hslots hpath]
  rfl

/-- Two requests are enough for every name. -/
theorem allocFileNames_stored (hn : 0 < n)
    (hfits : n * maxDirBufferSize ≤ 2147483647) (heap : Heap) :
    ∃ fileNames heap', allocFileNames noFailures n heap =
        .ok (fileNames, heap') ∧ Stored n fileNames [] ∧
      heap.Owns heap' ({fileNames.strings.id} + {fileNames.id}) := by
  have hcount : n + 1 ≤ 2147483647 := by
    rw [maxDirBufferSize] at hfits
    omega
  obtain ⟨k, rfl⟩ : ∃ k, n = k + 1 := ⟨n - 1, by omega⟩
  have hone : 1 + k = k + 1 := Nat.add_comm 1 k
  have hroom : pointerSize ≤ (indeterminate ((k + 1 + 1) * pointerSize) :
      List (Option (PointerByte Nat))).length := by
    rw [indeterminate, List.length_replicate, Nat.succ_mul]
    exact Nat.le_add_left _ _
  have hfirst := storePointer_pointersBytes ([] : List (Option Nat)) (some 0)
    hroom
  have hspare : (indeterminate ((k + 1 + 1) * pointerSize) :
      List (Option (PointerByte Nat))).drop pointerSize =
        indeterminate ((k + 1) * pointerSize) := by
    rw [indeterminate, List.drop_replicate, Nat.succ_mul (k + 1),
      Nat.add_sub_cancel]
    rfl
  have hloop := setSlots (indeterminate ((k + 1) * pointerSize)) k 1
    (by
      rw [indeterminate, List.length_replicate]
      exact Nat.mul_le_mul_right _ (Nat.le_succ k))
    (by rw [hone]; exact hfits)
  have hlast : (indeterminate ((k + 1) * pointerSize) :
      List (Option (PointerByte Nat))).drop (k * pointerSize) =
        indeterminate pointerSize := by
    rw [indeterminate, List.drop_replicate, Nat.succ_mul,
      Nat.add_sub_cancel_left]
    rfl
  have hend := storePointer_pointersBytes (slotPointers (k + 1)) none
    (show pointerSize ≤ (indeterminate pointerSize :
      List (Option (PointerByte Nat))).length from Nat.le_refl _)
  have hnone : (indeterminate pointerSize :
      List (Option (PointerByte Nat))).drop pointerSize = [] := rfl
  rw [slotPointers_length, hnone, List.append_nil] at hend
  rw [hlast, hone] at hloop
  rw [hspare] at hfirst
  have hone' : pointersBytes ([] ++ [some 0]) = pointersBytes (slotPointers 1) :=
    rfl
  rw [hone'] at hfirst
  refine ⟨⟨heap.calls, pointersBytes (slotPointers (k + 1) ++ [none]),
      ⟨heap.calls + 1, indeterminate ((k + 1) * maxDirBufferSize)⟩⟩,
    ⟨heap.calls + 1 + 1, .alloc (heap.calls + 1) ::
      .alloc heap.calls :: heap.ledger⟩, ?_, ?_, ?_⟩
  · unfold allocFileNames
    rw [intValue_of_le hcount, except_ok_bind,
      Heap.malloc_granted (show noFailures heap.calls = false from rfl)]
    simp only
    rw [intValue_of_le hfits, except_ok_bind,
      Heap.malloc_granted (show noFailures (heap.calls + 1) = false from rfl)]
    simp only
    have hfirst' : storePointer
        (indeterminate ((k + 1 + 1) * pointerSize)) 0 (some 0) = _ := hfirst
    rw [hfirst']
    simp only [Except.mapError, except_ok_bind, Nat.add_sub_cancel, hloop,
      hend]
    rfl
  · exact ⟨rfl, hfits, Nat.zero_le _, [], .nil, rfl⟩
  · exact (Heap.Owns.refl heap).grant.grant

/-- With more files the size of the slots is not an `int`. -/
theorem allocFileNames_overflow (hlarge : 2147483647 < n * maxDirBufferSize)
    (heap : Heap) :
    allocFileNames noFailures n heap = .error .overflow := by
  unfold allocFileNames
  rcases Nat.lt_or_ge 2147483647 (n + 1) with hlt | hle
  · rw [intValue_of_lt hlt]
    rfl
  · rw [intValue_of_le hle, except_ok_bind,
      Heap.malloc_granted (show noFailures heap.calls = false from rfl)]
    simp only
    rw [intValue_of_lt hlarge]
    rfl

/-- `storeFileName` with the string that is in `fileName`. -/
def storeName (path : CString) (found : FileNameArray × Nat) :
    Except Stop (FileNameArray × Nat) := do
  match ← found.1.elemAt found.2 with
  | none => throw (.fault .nullDereference)
  | some offset => do
    let cells ← (storeBytes path.image offset
      found.1.strings.cells).mapError .fault
    let next ← intValue (found.2 + 1)
    return ({ found.1 with strings := ⟨found.1.strings.id, cells⟩ }, next)

theorem storeVisitor_reads : Reads storeVisitor storeName := by
  intro path cells found hheld
  show storeFileName cells found = _
  unfold storeFileName storeName
  rw [hheld.load]
  rfl

/-- A name is copied into the next slot. -/
theorem Stored.storeName (h : Stored n fileNames names)
    (hroom : names.length < n) (hfit : path.bytes.length < maxDirBufferSize) :
    ∃ fileNames', storeName path (fileNames, names.length) =
        .ok (fileNames', names.length + 1) ∧
      Stored n fileNames' (names ++ [path]) ∧
      fileNames'.id = fileNames.id ∧
      fileNames'.strings.id = fileNames.strings.id := by
  obtain ⟨slots, hslots, hcells⟩ := h.strings
  have himage : path.image.length ≤ maxDirBufferSize := by
    rw [CString.image_length]
    exact hfit
  have hnext : n - names.length = n - (names.length + 1) + 1 := by omega
  have hlength := length_flatten_slots hslots
  -- the slots that are left are the next one and the others
  have hspare : (indeterminate ((n - names.length) * maxDirBufferSize) :
      List (Option UInt8)).drop path.image.length =
        indeterminate (maxDirBufferSize - path.image.length) ++
          indeterminate ((n - (names.length + 1)) * maxDirBufferSize) := by
    rw [indeterminate, indeterminate, indeterminate, List.drop_replicate,
      List.replicate_append_replicate, hnext, Nat.succ_mul]
    congr 1
    omega
  have hold : path.image.length ≤ (indeterminate
      ((n - names.length) * maxDirBufferSize) : List (Option UInt8)).length := by
    rw [indeterminate, List.length_replicate, hnext, Nat.succ_mul]
    exact Nat.le_trans himage (Nat.le_add_left _ _)
  have hstore := storeBytes_append hlength hold
  have hcount : names.length + 1 ≤ 2147483647 := by
    have hfits := h.fits
    rw [maxDirBufferSize] at hfits
    omega
  rw [hspare] at hstore
  generalize hcopied : slots.flatten ++ path.image.map some ++ _ = copied
    at hstore
  refine ⟨{ fileNames with strings := ⟨fileNames.strings.id, copied⟩ }, ?_,
    ⟨h.pointers, h.fits, ?_, slots ++ [path.image.map some ++ indeterminate
      (maxDirBufferSize - path.image.length)], ?_, ?_⟩, rfl, rfl⟩
  · unfold DuplicatesBackup.storeName
    rw [h.elemAt_slot hroom]
    simp only [except_ok_bind, hcells, hstore, Except.mapError,
      intValue_of_le hcount]
    rfl
  · rw [List.length_append, List.length_singleton]
    exact hroom
  · refine List.rel_append hslots (.cons ⟨?_, _, rfl⟩ .nil)
    rw [List.length_append, List.length_map, indeterminate,
      List.length_replicate]
    omega
  · rw [List.flatten_append, List.flatten_singleton, List.length_append,
      List.length_singleton, ← hcopied]
    simp only [List.append_assoc]

/-- Every name has a slot of its own. -/
theorem storeNames (paths : List CString)
    (hfits : ∀ path ∈ paths, path.bytes.length < maxDirBufferSize)
    (h : Stored n fileNames names)
    (hroom : names.length + paths.length = n) :
    ∃ fileNames', paths.foldlM (fun found path => storeName path found)
        (fileNames, names.length) = .ok (fileNames', n) ∧
      Stored n fileNames' (names ++ paths) ∧ fileNames'.id = fileNames.id ∧
      fileNames'.strings.id = fileNames.strings.id := by
  induction paths generalizing fileNames names with
  | nil =>
      rw [List.length_nil, Nat.add_zero] at hroom
      refine ⟨fileNames, ?_, ?_, rfl, rfl⟩
      · rw [List.foldlM_nil, hroom]
        rfl
      · rw [List.append_nil]
        exact h
  | cons path paths ih =>
      rw [List.length_cons] at hroom
      have hfit := hfits path List.mem_cons_self
      obtain ⟨fileNames₁, hstore, h₁, hid₁, hstrings₁⟩ :=
        h.storeName (by omega) hfit
      have hlength : (names ++ [path]).length = names.length + 1 :=
        List.length_append
      obtain ⟨fileNames', hrest, h', hid, hstrings⟩ :=
        ih (fun other hother => hfits other (List.mem_cons_of_mem _ hother)) h₁
          (by omega)
      rw [hlength] at hrest
      rw [List.append_assoc, List.singleton_append] at h'
      refine ⟨fileNames', ?_, h', hid.trans hid₁, hstrings.trans hstrings₁⟩
      rw [List.foldlM_cons, hstore, except_ok_bind, hrest]

/-- `freeFileNames` frees the two blocks. -/
theorem Stored.freed (h : Stored n fileNames names) (hn : 0 < n)
    {start heap : Heap}
    (howns : start.Owns heap ({fileNames.strings.id} + {fileNames.id})) :
    ∃ heap', freeFileNames fileNames heap = .ok heap' ∧
      start.FreedOnce heap' := by
  have hfirst := h.elemAt_slot hn
  rw [Nat.zero_mul] at hfirst
  refine ⟨_, ?_, (Heap.Owns.freedOnce_iff (howns.free.free)).mpr rfl⟩
  unfold freeFileNames
  rw [hfirst]
  rfl

theorem Stored.lists (h : Stored n fileNames names) (hall : names.length = n) :
    Lists fileNames names := by
  refine ⟨fun i path hpath => ⟨_, h.elemAt_slot ?_, h.stringAt hpath⟩,
    hall ▸ h.elemAt_end, hall ▸ h.pointers_length⟩
  rw [← hall]
  exact (List.getElem?_eq_some_iff.mp hpath).1

end Array

/-! ## The program -/

section Program

variable {α : Type} {fs : FileSystem} {files : Files} {entries : Entries}
  {above : List Entries} {fuel limit : Nat} {p : Process α}

/-- The two walks leave the array with every name. -/
theorem getFileNamesInDir_stored
    (hworking : fs.workingLocation = some ⟨.directory entries, above⟩)
    (hdistinct : entries.Distinct)
    (hroot : fs.workingPath.bytes.length < maxDirBufferSize)
    (hfit : Fit (nodeStrings fs.workingPath (.directory entries)))
    (hfuel : entries.depth < fuel) {fileNames : FileNameArray}
    (hstored : Stored (entries.filePaths fs.workingPath).length fileNames []) :
    ∃ fileNames', getFileNamesInDir .quiet fs fuel fileNames (getcwd fs) =
        .ok fileNames' ∧
      Stored (entries.filePaths fs.workingPath).length fileNames'
        (entries.filePaths fs.workingPath) ∧
      fileNames'.id = fileNames.id ∧
      fileNames'.strings.id = fileNames.strings.id := by
  have hwalk := walk_quiet storeVisitor_reads
    ((FileTree.locate_workingPath fs).trans hworking) hdistinct hfit
    (FileNames.getcwd_load hroot) hfuel (fileNames, 0)
  rw [gather_threads _ _ ⟨rfl, fun _ _ => rfl⟩] at hwalk
  obtain ⟨fileNames', hstore, h', hid, hstrings⟩ :=
    storeNames (entries.filePaths fs.workingPath)
      (fit_filePaths entries _ (FileNames.fit_cons.mp hfit).2) hstored
      (Nat.zero_add _)
  have hstore' : (entries.filePaths fs.workingPath).foldlM
      (fun found path => storeName path found) (fileNames, 0) =
        .ok (fileNames', (entries.filePaths fs.workingPath).length) := hstore
  refine ⟨fileNames', ?_, h', hid, hstrings⟩
  rw [getFileNamesInDir, hwalk, hstore']
  rfl

/-- The output of `printDuplicateFilePairs` is right when only the first name
has duplicates. -/
theorem allEqualPairs_first_iff (same : CString → CString → Bool)
    (names : List CString) :
    AllEqualPairs same names
        ((rows same 0 names).filter fun pair => pair.i = 0) ↔
      ∀ i j a b, 1 ≤ i → i < j → names[i]? = some a → names[j]? = some b →
        same a b = false := by
  have hright := DuplicatePairs.allEqualPairs_rows same names
  constructor
  · intro hall i j a b hi hij ha hb
    by_contra hequal
    have hmem := (hall.mem_iff ⟨i, j, a, b⟩).mpr
      ⟨hij, ha, hb, eq_true_of_ne_false hequal⟩
    have hzero : i = 0 := of_decide_eq_true (List.mem_filter.mp hmem).2
    omega
  · intro hnone
    rw [List.filter_eq_self.mpr fun pair hpair => ?_]
    · exact hright
    · obtain ⟨hij, ha, hb, hequal⟩ := (hright.mem_iff pair).mp hpair
      refine decide_eq_true (Nat.eq_zero_of_not_pos fun hi => ?_)
      rw [hnone _ _ _ _ hi hij ha hb] at hequal
      cases hequal

/-- **Exactly when the older program does its work.**  On a tree below which
every path fits, with files that an `int` can count the bytes of, `main`
returns, has printed every pair of files with the same bytes once and in
order, and has freed what it had requested, if and only if the slots fit in an
`int`, `open` always finds two free descriptors for the first file and another
one, and there are no two files with the same bytes behind the first one. -/
theorem firstRow_prints_iff
    (hworking : fs.workingLocation = some ⟨.directory entries, above⟩)
    (hdistinct : entries.Distinct)
    (hroot : fs.workingPath.bytes.length < maxDirBufferSize)
    (hfit : Fit (nodeStrings fs.workingPath (.directory entries)))
    (hfuel : entries.depth < fuel)
    (hcountable : Countable files (entries.filePaths fs.workingPath))
    (limit : Nat) (heap : Heap) (p : Process α) :
    (∃ printed heap',
      main (.limited limit) files .quiet .quiet fs fuel heap p =
        .ok (printed, heap') ∧
      AllEqualPairs (sameBytes files) (entries.filePaths fs.workingPath)
        printed ∧
      heap.FreedOnce heap') ↔
    (entries.filePaths fs.workingPath).length * maxDirBufferSize ≤
        2147483647 ∧
      (∀ before pair after,
        firstPairs (entries.filePaths fs.workingPath) =
          before ++ pair :: after →
        sameSize files pair = true →
        2 * before.countP (differInside files) + 2 ≤
          p.table.freeBelow limit) ∧
      ∀ i j a b, 1 ≤ i → i < j →
        (entries.filePaths fs.workingPath)[i]? = some a →
        (entries.filePaths fs.workingPath)[j]? = some b →
        sameBytes files a b = false := by
  rw [← spend_isSome_iff, ← allEqualPairs_first_iff]
  have hcounted := countNrOfFilesInDir_eq hworking hdistinct hroot hfit hfuel
  have hsearch := @getFileNamesInDir_stored fs entries above fuel hworking
    hdistinct hroot hfit hfuel
  unfold main
  rw [hcounted]
  generalize entries.filePaths fs.workingPath = names at *
  by_cases hfits : names.length * maxDirBufferSize ≤ 2147483647
  · rw [and_iff_right hfits]
    have hcount : names.length ≤ 2147483647 :=
      Nat.le_trans (Nat.le_mul_of_pos_right _ (by decide)) hfits
    rw [intValue_of_le hcount, except_ok_bind]
    by_cases hfew : names.length < 2
    · rw [if_pos hfew]
      obtain ⟨hpairs, hrows⟩ := noPairs_of_few (sameBytes files) hfew
      have hright := DuplicatePairs.allEqualPairs_rows (sameBytes files) names
      rw [hrows] at hright
      rw [hpairs, hrows]
      exact iff_of_true
        ⟨[], heap, rfl, hright, [], rfl, fun _ hmem => nomatch hmem⟩
        ⟨rfl, hright⟩
    · rw [if_neg hfew]
      obtain ⟨fileNames, heap₁, halloc, hstart, howns⟩ :=
        allocFileNames_stored (by omega) hfits heap
      obtain ⟨fileNames', hstore, hstored, hid, hstrings⟩ :=
        hsearch hstart
      rw [← hid, ← hstrings] at howns
      obtain ⟨heap', hfree, hfreed⟩ := hstored.freed (by omega) howns
      have hprints : Prints limit _ _
          (printDuplicateFilePairs (.limited limit) files fileNames' p) :=
        printDuplicateFilePairs_prints (hstored.lists rfl) hcount hcountable
      have halloc' : allocFileNames FileNames.Environment.quiet.mallocFails
        names.length heap = .ok (fileNames, heap₁) := halloc
      simp only [halloc', hstore, except_ok_bind]
      generalize printDuplicateFilePairs (.limited limit) files fileNames' p =
        result at hprints ⊢
      cases hprints with
      | exited hnone =>
          rw [hnone]
          refine iff_of_false ?_ fun hboth => Bool.false_ne_true hboth.1
          rintro ⟨printed, heap', hmain, -⟩
          cases hmain
      | returned hleft =>
          rw [hleft, and_iff_right (show (some _).isSome = true from rfl)]
          simp only [except_ok_bind, hfree]
          constructor
          · rintro ⟨printed, heap', hmain, hright, -⟩
            cases hmain
            exact hright
          · intro hright
            exact ⟨_, _, rfl, hright, hfreed⟩
  · refine iff_of_false ?_ fun hboth => hfits hboth.1
    rintro ⟨printed, heap', hmain, -⟩
    rcases Nat.lt_or_ge 2147483647 names.length with hlarge | hsmall
    · rw [intValue_of_lt hlarge] at hmain
      cases hmain
    · have hmany : ¬ names.length < 2 := by
        rw [maxDirBufferSize] at hfits
        omega
      have halloc : allocFileNames FileNames.Environment.quiet.mallocFails
          names.length heap = .error .overflow :=
        allocFileNames_overflow (Nat.lt_of_not_le hfits) heap
      rw [intValue_of_le hsmall, except_ok_bind, if_neg hmany, halloc] at hmain
      cases hmain

/-- Two files in two directories, with the same bytes. -/
theorem firstRow_prints_iff_twoLevels : ∃ printed heap',
    main (.limited 5) alike .quiet .quiet FileNames.twoLevels 3 Heap.empty
      CompareFiles.freshProcess = .ok (printed, heap') ∧
    AllEqualPairs (sameBytes alike)
      (FileNames.twoLevels.root.filePaths FileNames.twoLevels.workingPath)
      printed ∧
    Heap.empty.FreedOnce heap' := by
  have hcountable : Countable alike
      (FileNames.twoLevels.root.filePaths
        FileNames.twoLevels.workingPath) := fun path _ =>
    ⟨CompareFiles.zeros 2 CompareFiles.two_fits, rfl, by decide⟩
  refine (firstRow_prints_iff FileNames.twoLevels_located
    FileNames.twoLevels_distinct (by decide) FileNames.twoLevels_fit
    (by decide) hcountable 5 Heap.empty CompareFiles.freshProcess).mpr
      ⟨by decide, spend_isSome_iff.mp rfl, ?_⟩
  intro i j a b hi hij ha hb
  have hlt := (List.getElem?_eq_some_iff.mp hb).1
  have htwo : (FileNames.twoLevels.root.filePaths
    FileNames.twoLevels.workingPath).length = 2 := by decide
  omega

end Program

end OsLabs.Lab1.DuplicatesBackup
