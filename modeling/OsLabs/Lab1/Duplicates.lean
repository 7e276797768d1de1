import OsLabs.Lab1.DuplicatePairs
import OsLabs.Lab1.DynamicArray
import OsLabs.Lab1.TreeWalk

/-!
# The program `duplicates`

`main` of `duplicates.c`, from the working directory to the lines it prints:
the search with the pointer array of `DynamicArray.c` as it is, and the two
loops over the pairs with comparisons that may leave descriptors behind.
`opendir`, `stat`, `read` and `malloc` succeed; `open` fails when the process
has reached its limit on descriptors.

`main_prints_iff` says exactly when the program prints what it is to print.
-/

namespace OsLabs.Lab1.Duplicates

open OsLabs.Posix OsLabs.Posix.FileTree
open OsLabs.Lab1.FileNames (maxDirBufferSize Fit nodeStrings getcwd)
open OsLabs.Lab1.TreeWalk
open OsLabs.Lab1.CompareFiles
open OsLabs.Lab1.DuplicatePairs

/-! ## The source -/

/-- How the program ends other than by returning from `main`:
`exit(EXIT_FAILURE)`, a fault, or the overflow of an `int`. -/
inductive Stop where
  | exited
  | fault (f : Fault)
  | overflow
  deriving Repr, DecidableEq

def Stop.ofWalk : WalkStop Fault → Stop
  | .stop .exited => .exited
  | .stop (.fault f) => .fault f
  | .visit f => .fault f

def Stop.ofCompare : CompareFiles.Stop → Stop
  | .exited => .exited
  | .overflow => .overflow
  | .uninitialised => .fault .uninitialised
  | .outOfFuel => .fault .outOfFuel

def Stop.ofPairs : DuplicatePairs.Stop → Stop
  | .fault f => .fault f
  | .overflow => .overflow

/-- `destroyString`, as a log of the blocks that it frees. -/
def destroyString (string : Option (Block UInt8)) (freed : List Nat) :
    List Nat :=
  match string with
  | none => freed
  | some block => freed ++ [block.id]

/-- `arr`, whose elements point to strings. -/
abbrev StringArray := DYNARR.DynamicArray (Block UInt8) (List Nat)

/-- `malloc`, `strcpy(fileNameSpace, fileName)` and `DYNARR_addElem`. -/
def storeFileName (fails : FailurePlan) (fileName : List (Option UInt8))
    (found : StringArray × Heap) : Except Fault (StringArray × Heap) :=
  match found.2.malloc fails with
  | (none, _) => throw .nullDereference
  | (some id, heap) => do
    let text ← loadString fileName 0
    let cells ← strcpy (indeterminate maxDirBufferSize) text
    DYNARR.addElem fails found.1 (some ⟨id, cells⟩) heap

/-- `getFileNamesInDirRec`: `arr` is handed down and comes back. -/
def visitor (fails : FailurePlan) : Visitor Fault (StringArray × Heap) :=
  ⟨storeFileName fails, id, fun _ below => .ok below⟩

/-- `getFileNamesInDir` -/
def getFileNamesInDir (env : FileNames.Environment) (fs : FileSystem)
    (fuel : Nat) (dirName : List (Option UInt8)) (heap : Heap) :
    Except Stop (StringArray × Heap) := do
  let (arr, heap) ← (DYNARR.makeNewArray env.mallocFails pointerSize
    destroyString heap).mapError .fault
  (walk env fs (visitor env.mallocFails) fuel dirName (arr, heap)).mapError
    .ofWalk

section

variable {α : Type} (env : CompareFiles.Environment) (files : Files)

/-- `arr->elems[i]`, as the string that it points to. -/
def elemAt (arr : StringArray) (i : Nat) : Except Stop (Option CString) :=
  match arr.elems with
  | none => throw (.fault .nullDereference)
  | some elems => do
    let elem ← (loadPointer elems.cells i).mapError .fault
    match elem with
    | none => return none
    | some block => return some (← (loadString block.cells 0).mapError .fault)

/-- The inner loop of `printDuplicateFilePairs`. -/
def innerLoop (arr : StringArray) (i : Nat) : Nat → Nat →
    List (Pair CString) → Process α →
    Except Stop (List (Pair CString) × Process α)
  | 0, _, _, _ => throw (.fault .outOfFuel)
  | fuel + 1, j, outStream, p =>
    if j < arr.size then do
      let file1 ← elemAt arr i
      let file2 ← elemAt arr j
      let (same, p) ←
        (compareFiles env files file1 file2 p).mapError .ofCompare
      let next ← (increment j).mapError .ofPairs
      innerLoop arr i fuel next
        (comparePair (fun _ _ => same) i j file1 file2 outStream) p
    else return (outStream, p)

/-- The outer loop of `printDuplicateFilePairs`. -/
def outerLoop (arr : StringArray) : Nat → Nat → List (Pair CString) →
    Process α → Except Stop (List (Pair CString) × Process α)
  | 0, _, _, _ => throw (.fault .outOfFuel)
  | fuel + 1, i, outStream, p =>
    if i < arr.size then do
      let j ← (increment i).mapError .ofPairs
      let (outStream, p) ←
        innerLoop env files arr i (arr.size + 1) j outStream p
      let next ← (increment i).mapError .ofPairs
      outerLoop arr fuel next outStream p
    else return (outStream, p)

/-- `printDuplicateFilePairs` -/
def printDuplicateFilePairs (arr : StringArray) (p : Process α) :
    Except Stop (List (Pair CString) × Process α) :=
  outerLoop env files arr (arr.size + 1) 0 [] p

/-- `main`: the lines that it prints, with the strings that it frees at its
end. -/
def main (search : FileNames.Environment) (fs : FileSystem) (fuel : Nat)
    (heap : Heap) (p : Process α) :
    Except Stop (List (Pair CString) × List Nat) := do
  let (fileNames, heap) ← getFileNamesInDir search fs fuel (getcwd fs) heap
  let (outStream, _) ← printDuplicateFilePairs env files fileNames p
  let (freed, _) ← (DYNARR.destroyArray fileNames [] heap).mapError .fault
  return (outStream, freed)

end

/-! ## What a comparison costs -/

/-- The bytes of a file. -/
def contents (files : Files) (path : CString) : List UInt8 :=
  match files path with
  | none => []
  | some file => file.bytes

/-- The files have the same bytes. -/
def sameBytes (files : Files) (path1 path2 : CString) : Bool :=
  contents files path1 = contents files path2

/-- They have the same size. -/
def sameSize (files : Files) (pair : CString × CString) : Bool :=
  (contents files pair.1).length = (contents files pair.2).length

/-- They have the same size and different bytes. -/
def differInside (files : Files) (pair : CString × CString) : Bool :=
  sameSize files pair && !sameBytes files pair.1 pair.2

/-- How many descriptors are left of those that are free, when these pairs
have been compared; none when `open` has failed.  Files of the same size are
opened, and closed again when they are equal. -/
def spend (files : Files) : Nat → List (CString × CString) → Option Nat
  | free, [] => some free
  | free, pair :: pairs =>
    if sameSize files pair then
      if free < 2 then none
      else if sameBytes files pair.1 pair.2 then spend files free pairs
      else spend files (free - 2) pairs
    else spend files free pairs

section Spend

variable {files : Files} {free : Nat} {pairs pairs' : List (CString × CString)}

theorem spend_append : spend files free (pairs ++ pairs') =
    (spend files free pairs).bind fun left => spend files left pairs' := by
  induction pairs generalizing free with
  | nil => rfl
  | cons pair pairs ih =>
      rw [List.cons_append, spend, spend]
      split
      · split
        · rfl
        · split
          · exact ih
          · exact ih
      · exact ih

/-- The ways to split a list that is not empty. -/
theorem forall_splits_cons {β : Type} {P : List β → β → Prop} (a : β)
    (l : List β) :
    (∀ before b after, a :: l = before ++ b :: after → P before b) ↔
      P [] a ∧
        ∀ before b after, l = before ++ b :: after → P (a :: before) b := by
  constructor
  · intro hall
    exact ⟨hall [] a l rfl, fun before b after heq =>
      hall (a :: before) b after (congrArg (a :: ·) heq)⟩
  · rintro ⟨hfirst, hothers⟩ before b after heq
    cases before with
    | nil =>
        cases heq
        exact hfirst
    | cons first before =>
        cases heq
        exact hothers before b after rfl

/-- Two descriptors must be left for every pair of files of the same size,
when two have been spent on each pair before it that differs inside. -/
theorem spend_isSome_iff : (spend files free pairs).isSome ↔
    ∀ before pair after, pairs = before ++ pair :: after →
      sameSize files pair = true →
      2 * before.countP (differInside files) + 2 ≤ free := by
  induction pairs generalizing free with
  | nil =>
      refine iff_of_true rfl fun before pair after hsplit => ?_
      exact absurd hsplit.symm (by simp)
  | cons pair pairs ih =>
      -- what is left for the pairs behind the first one
      have hrest : ∀ spent, spent ≤ free →
          spent = (if differInside files pair then 2 else 0) →
          ((spend files (free - spent) pairs).isSome ↔
            ∀ before other after, pairs = before ++ other :: after →
              sameSize files other = true →
              2 * (pair :: before).countP (differInside files) + 2 ≤ free) := by
        intro spent hle hspent
        rw [ih]
        refine forall_congr' fun before => forall_congr' fun other =>
          forall_congr' fun after => imp_congr Iff.rfl (imp_congr Iff.rfl ?_)
        rw [List.countP_cons]
        cases hinside : differInside files pair with
        | true =>
            rw [hinside, if_pos rfl] at hspent
            rw [if_pos rfl]
            omega
        | false =>
            rw [hinside, if_neg Bool.false_ne_true] at hspent
            rw [if_neg Bool.false_ne_true]
            omega
      rw [forall_splits_cons, List.countP_nil, spend]
      cases hsize : sameSize files pair with
      | false =>
          rw [if_neg Bool.false_ne_true,
            and_iff_right fun h => absurd h Bool.false_ne_true]
          exact hrest 0 (Nat.zero_le _) (by simp [differInside, hsize])
      | true =>
          rw [if_pos rfl]
          by_cases hfree : free < 2
          · rw [if_pos hfree]
            exact iff_of_false Bool.false_ne_true fun hboth =>
              Nat.not_le.mpr hfree (hboth.1 rfl)
          · rw [if_neg hfree, and_iff_right fun _ => Nat.le_of_not_lt hfree]
            cases hbytes : sameBytes files pair.1 pair.2 with
            | true =>
                rw [if_pos rfl]
                exact hrest 0 (Nat.zero_le _) (by simp [differInside, hbytes])
            | false =>
                rw [if_neg Bool.false_ne_true]
                exact hrest 2 (Nat.le_of_not_lt hfree)
                  (by simp [differInside, hsize, hbytes])

end Spend

/-! ## One comparison -/

section Compare

variable {α : Type} {files : Files} {p p' : Process α} {limit : Nat}
  {path path1 path2 : CString} {file file1 file2 : RegularFile}

/-- How a comparison ends: it is given up when there are too few descriptors,
and else it is right and has spent what it must. -/
inductive Compared (files : Files) (limit free : Nat) (path1 path2 : CString) :
    Except CompareFiles.Stop (Bool × Process α) → Prop where
  | exited : spend files free [(path1, path2)] = none →
      Compared files limit free path1 path2 (.error .exited)
  | returned {p' : Process α} :
      spend files free [(path1, path2)] = some (p'.table.freeBelow limit) →
      Compared files limit free path1 path2
        (.ok (sameBytes files path1 path2, p'))

theorem openCall_limited (hfile : files path = some file) (limit : Nat)
    (p : Process α) :
    (p.table.freeBelow limit = 0 ∧
      openCall (.limited limit) files path p =
        (none, { p with opens := p.opens + 1 })) ∨
    (p.table.lowestFree < limit ∧
      openCall (.limited limit) files path p =
        (some p.table.lowestFree, { p with
          table := p.table.set p.table.lowestFree (.file path 0)
          opens := p.opens + 1 })) := by
  have hiff := p.table.lowestFree_lt_iff limit
  unfold openCall Environment.limited
  simp only [hfile]
  by_cases hfull : limit ≤ p.table.lowestFree
  · left
    rw [if_pos (decide_eq_true hfull)]
    exact ⟨by omega, rfl⟩
  · right
    rw [if_neg (by simpa using hfull)]
    exact ⟨Nat.lt_of_not_le hfull, rfl⟩

theorem contents_eq (hfile : files path = some file) :
    contents files path = file.bytes := by
  rw [contents, hfile]

/-- What the loop has spent, once both files are open. -/
theorem LoopEnds.compared {base : FdTable (CompareFiles.Description α)}
    {fd1 fd2 : Nat} {result : Except CompareFiles.Stop (Bool × Process α)}
    (hfile1 : files path1 = some file1) (hfile2 : files path2 = some file2)
    (hsize : file1.bytes.length = file2.bytes.length)
    (hsmall : file1.bytes.length ≤ 2147483647)
    (hfree1 : base.entry fd1 = none) (hfree2 : base.entry fd2 = none)
    (hlt1 : fd1 < limit) (hlt2 : fd2 < limit) (hne : fd1 ≠ fd2)
    (h : LoopEnds (.limited limit) base.entry fd1 fd2 path1 path2 0
      file1.bytes file2.bytes result) :
    Compared files limit (base.freeBelow limit) path1 path2 result := by
  have hcompare : compareFrom 0 file1.bytes file2.bytes =
      .ok (decide (file1.bytes = file2.bytes)) :=
    (compareFrom_decides_iff hsize (Nat.zero_le _)).mpr
      (Or.inl (by omega))
  -- with both files open there are two fewer
  have htaken : ∀ d1 d2, ((base.set fd1 d1).set fd2 d2).freeBelow limit + 2 =
      base.freeBelow limit := by
    intro d1 d2
    have hfirst := FdTable.freeBelow_set hfree1 hlt1 d1
    have hsecond : ((base.set fd1 d1).set fd2 d2).freeBelow limit + 1 =
        (base.set fd1 d1).freeBelow limit := by
      refine FdTable.freeBelow_set ?_ hlt2 d2
      rw [FdTable.entry_set, if_neg hne.symm]
      exact hfree2
    omega
  have henough : ¬ base.freeBelow limit < 2 := by
    have := htaken (.file path1 0) (.file path2 0)
    omega
  have hsameSize : sameSize files (path1, path2) = true := by
    rw [sameSize, contents_eq hfile1, contents_eq hfile2]
    exact decide_eq_true hsize
  have hsameBytes : sameBytes files path1 path2 =
      decide (file1.bytes = file2.bytes) := by
    rw [sameBytes, contents_eq hfile1, contents_eq hfile2]
  cases h with
  | exited hfails => cases hfails
  | overflow hoverflow =>
      rw [hcompare] at hoverflow
      cases hoverflow
  | @differ k' p' hdiffer hcomparing =>
      have hfalse : sameBytes files path1 path2 = false := by
        rw [hcompare] at hdiffer
        rw [hsameBytes]
        exact Except.ok.inj hdiffer
      rw [← hfalse]
      refine .returned ?_
      have hleft : p'.table.freeBelow limit =
          ((base.set fd1 (.file path1 0)).set fd2
            (.file path2 0)).freeBelow limit := by
        apply FdTable.freeBelow_congr
        intro n
        rw [FdTable.entry_set, FdTable.entry_set]
        by_cases hn2 : n = fd2
        · rw [if_pos hn2, hn2, hcomparing.second]
          exact iff_of_false (Option.some_ne_none _) (Option.some_ne_none _)
        · by_cases hn1 : n = fd1
          · rw [if_neg hn2, if_pos hn1, hn1, hcomparing.first]
            exact iff_of_false (Option.some_ne_none _) (Option.some_ne_none _)
          · rw [if_neg hn2, if_neg hn1, hcomparing.others n hn1 hn2]
      have hspent := htaken (.file path1 0) (.file path2 0)
      rw [spend, if_pos hsameSize, if_neg henough, if_neg (by simp [hfalse]),
        spend, hleft]
      exact congrArg some (by omega)
  | @equal p' hequal hclosed =>
      have htrue : sameBytes files path1 path2 = true := by
        rw [hcompare] at hequal
        rw [hsameBytes]
        exact Except.ok.inj hequal
      rw [← htrue]
      refine .returned ?_
      have hleft : base.freeBelow limit = p'.table.freeBelow limit := by
        apply FdTable.freeBelow_congr
        intro n
        rw [hclosed n]
        split
        · next hn =>
            rcases hn with rfl | rfl
            · exact iff_of_true hfree1 rfl
            · exact iff_of_true hfree2 rfl
        · exact Iff.rfl
      rw [spend, if_pos hsameSize, if_neg henough, if_pos htrue, spend, hleft]

/-- **A comparison under a limit.** -/
theorem compareFiles_limited (hfile1 : files path1 = some file1)
    (hfile2 : files path2 = some file2)
    (hsmall : file1.bytes.length ≤ 2147483647) (limit : Nat)
    (p : Process α) :
    Compared files limit (p.table.freeBelow limit) path1 path2
      (compareFiles (.limited limit) files (some path1) (some path2) p) := by
  unfold compareFiles
  rcases statCall_file (.limited limit) hfile1 p with ⟨hfails, -⟩ | hstat1
  · cases hfails
  rcases statCall_file (.limited limit) hfile2
    { p with stats := p.stats + 1 } with ⟨hfails, -⟩ | hstat2
  · cases hfails
  simp only [hstat1, hstat2]
  by_cases hsize : file1.bytes.length = file2.bytes.length
  · rw [if_neg (not_not_intro hsize)]
    have hsameSize : sameSize files (path1, path2) = true := by
      rw [sameSize, contents_eq hfile1, contents_eq hfile2]
      exact decide_eq_true hsize
    have hfew : p.table.freeBelow limit < 2 →
        spend files (p.table.freeBelow limit) [(path1, path2)] = none := by
      intro hlt
      rw [spend, if_pos hsameSize, if_pos hlt]
    rcases openCall_limited hfile1 limit
      { p with stats := p.stats + 1 + 1 } with ⟨hnone, hopen1⟩ | ⟨hlt1, hopen1⟩
    · simp only [hopen1]
      exact .exited (hfew (Nat.lt_of_le_of_lt (Nat.le_of_eq hnone) (by omega)))
    rcases openCall_limited hfile2 limit { p with
        table := p.table.set p.table.lowestFree (.file path1 0)
        stats := p.stats + 1 + 1
        opens := p.opens + 1 } with ⟨hnone, hopen2⟩ | ⟨hlt2, hopen2⟩
    · simp only [hopen1, hopen2]
      have hone := FdTable.freeBelow_set p.table.entry_lowestFree hlt1
        (.file path1 0)
      exact .exited (hfew (by simp only at hnone hone; omega))
    · simp only [hopen1, hopen2]
      obtain ⟨hfree, hstart⟩ := Comparing.start p.table path1 path2
        (p.stats + 1 + 1) (p.opens + 1 + 1) p.reads
      exact LoopEnds.compared hfile1 hfile2 hsize hsmall
        p.table.entry_lowestFree hfree hlt1 hlt2 hstart.ne
        (compareLoop_ends (.limited limit) hfile1 hfile2 rfl hsize.symm _
          hstart (Nat.zero_le _) (Nat.zero_le _) (Nat.lt_succ_self _) none
          none)
  · rw [if_pos hsize]
    have hsameSize : ¬ sameSize files (path1, path2) = true := by
      rw [sameSize, contents_eq hfile1, contents_eq hfile2]
      simpa using hsize
    have hfalse : sameBytes files path1 path2 = false := by
      rw [sameBytes, contents_eq hfile1, contents_eq hfile2]
      exact decide_eq_false fun heq => hsize (congrArg _ heq)
    rw [← hfalse]
    refine .returned ?_
    rw [spend, if_neg hsameSize, spend]

end Compare

/-! ## The loops -/

section Loops

variable {α : Type} {files : Files} {limit i j fuel : Nat} {p : Process α}
  {arr : StringArray} {names ahead : List CString} {a b : CString}
  {outStream : List (Pair CString)}

/-- The elements of the array are these strings. -/
structure Lists (arr : StringArray) (names : List CString) : Prop where
  size : arr.size = names.length
  elem : ∀ i path, names[i]? = some path → elemAt arr i = .ok (some path)

/-- The strings are names of files that an `int` can count the bytes of. -/
def Countable (files : Files) (names : List CString) : Prop :=
  ∀ path ∈ names, ∃ file, files path = some file ∧
    file.bytes.length ≤ 2147483647

/-- How a loop over the pairs ends when this is left of the descriptors. -/
inductive Prints (limit : Nat) (left : Option Nat)
    (printed : List (Pair CString)) :
    Except Stop (List (Pair CString) × Process α) → Prop where
  | exited : left = none → Prints limit left printed (.error .exited)
  | returned {p' : Process α} : left = some (p'.table.freeBelow limit) →
      Prints limit left printed (.ok (printed, p'))

theorem Lists.next (h : Lists arr names)
    (hahead : Ahead names j (b :: ahead)) :
    j < arr.size ∧ elemAt arr j = .ok (some b) := by
  have hlength := hahead.length_eq
  rw [List.length_cons] at hlength
  exact ⟨by rw [h.size]; omega, h.elem j b (getElem?_of_drop_cons hahead.drop_eq)⟩

theorem mem_of_ahead (hahead : Ahead names j (b :: ahead)) : b ∈ names :=
  List.mem_of_getElem? (getElem?_of_drop_cons hahead.drop_eq)

/-- The inner loop, over the names from `j` on. -/
theorem innerLoop_prints (hlists : Lists arr names)
    (hfits : names.length ≤ 2147483647) (hcountable : Countable files names)
    (hi : elemAt arr i = .ok (some a)) (ha : a ∈ names)
    (h : Ahead names j ahead) (hfuel : ahead.length < fuel) :
    Prints limit
      (spend files (p.table.freeBelow limit) (ahead.map fun b => (a, b)))
      (outStream ++ row (sameBytes files) i a j ahead)
      (innerLoop (.limited limit) files arr i fuel j outStream p) := by
  induction ahead generalizing j fuel outStream p with
  | nil =>
      obtain ⟨rounds, rfl⟩ : ∃ rounds, fuel = rounds + 1 :=
        ⟨fuel - 1, by omega⟩
      have hend : ¬ j < arr.size := by
        have hlength := h.length_eq
        rw [List.length_nil] at hlength
        rw [hlists.size]
        omega
      rw [innerLoop, if_neg hend, row, List.append_nil]
      exact .returned rfl
  | cons b ahead ih =>
      rw [List.length_cons] at hfuel
      obtain ⟨rounds, rfl⟩ : ∃ rounds, fuel = rounds + 1 :=
        ⟨fuel - 1, by omega⟩
      obtain ⟨hlt, hj⟩ := hlists.next h
      have hnext : j < 2147483647 := by
        rw [hlists.size] at hlt
        omega
      obtain ⟨file1, hfile1, hsmall⟩ := hcountable a ha
      obtain ⟨file2, hfile2, -⟩ := hcountable b (mem_of_ahead h)
      have hcompared := compareFiles_limited hfile1 hfile2 hsmall limit p
      rw [innerLoop, if_pos hlt, hi, hj, List.map_cons,
        ← List.singleton_append, spend_append, row]
      simp only [except_ok_bind]
      generalize compareFiles (.limited limit) files (some a) (some b) p =
        result at hcompared ⊢
      cases hcompared with
      | exited hnone =>
          rw [hnone]
          exact .exited rfl
      | returned hleft =>
          rw [hleft, increment_of_lt hnext, ← List.append_assoc,
            ← comparePair_append]
          exact ih h.next (Nat.lt_of_succ_lt_succ hfuel)

/-- The outer loop, over the names from `i` on. -/
theorem outerLoop_prints (hlists : Lists arr names)
    (hfits : names.length ≤ 2147483647) (hcountable : Countable files names)
    (h : Ahead names i ahead) (hfuel : ahead.length < fuel) :
    Prints limit (spend files (p.table.freeBelow limit) (filePairs ahead))
      (outStream ++ rows (sameBytes files) i ahead)
      (outerLoop (.limited limit) files arr fuel i outStream p) := by
  induction ahead generalizing i fuel outStream p with
  | nil =>
      obtain ⟨rounds, rfl⟩ : ∃ rounds, fuel = rounds + 1 :=
        ⟨fuel - 1, by omega⟩
      have hend : ¬ i < arr.size := by
        have hlength := h.length_eq
        rw [List.length_nil] at hlength
        rw [hlists.size]
        omega
      rw [outerLoop, if_neg hend, rows, List.append_nil]
      exact .returned rfl
  | cons a ahead ih =>
      rw [List.length_cons] at hfuel
      obtain ⟨rounds, rfl⟩ : ∃ rounds, fuel = rounds + 1 :=
        ⟨fuel - 1, by omega⟩
      obtain ⟨hlt, hi⟩ := hlists.next h
      have hlength := h.length_eq
      rw [List.length_cons] at hlength
      have hnext : i < 2147483647 := by omega
      have hsize := hlists.size
      have hinner : Prints limit _ _ (innerLoop (.limited limit) files arr i
          (arr.size + 1) (i + 1) outStream p) :=
        innerLoop_prints hlists hfits hcountable hi (mem_of_ahead h) h.next
          (by omega)
      rw [outerLoop, if_pos hlt, increment_of_lt hnext, filePairs,
        spend_append, rows]
      simp only [Except.mapError, except_ok_bind]
      generalize innerLoop (.limited limit) files arr i (arr.size + 1) (i + 1)
        outStream p = result at hinner ⊢
      cases hinner with
      | exited hnone =>
          rw [hnone]
          exact .exited rfl
      | returned hleft =>
          rw [hleft, ← List.append_assoc]
          exact ih h.next (Nat.lt_of_succ_lt_succ hfuel)

theorem printDuplicateFilePairs_prints (hlists : Lists arr names)
    (hfits : names.length ≤ 2147483647)
    (hcountable : Countable files names) :
    Prints limit (spend files (p.table.freeBelow limit) (filePairs names))
      (rows (sameBytes files) 0 names)
      (printDuplicateFilePairs (.limited limit) files arr p) := by
  have hrounds : names.length < arr.size + 1 := by
    rw [hlists.size]
    exact Nat.lt_succ_self _
  have houter : Prints limit _ ([] ++ _)
      (outerLoop (.limited limit) files arr (arr.size + 1) 0 [] p) :=
    outerLoop_prints hlists hfits hcountable (Ahead.start names) hrounds
  exact houter

end Loops

/-! ## The array of names -/

section Array

variable {found : StringArray × Heap} {names : List CString} {path : CString}

/-- `storeFileName` with the string that is in `fileName`. -/
def storeName (fails : FailurePlan) (path : CString)
    (found : StringArray × Heap) : Except Fault (StringArray × Heap) :=
  match found.2.malloc fails with
  | (none, _) => throw .nullDereference
  | (some id, heap) => do
    let cells ← strcpy (indeterminate maxDirBufferSize) path
    DYNARR.addElem fails found.1 (some ⟨id, cells⟩) heap

theorem visitor_reads (fails : FailurePlan) :
    Reads (visitor fails) (storeName fails) := by
  intro path cells found hheld
  show storeFileName fails cells found = _
  unfold storeFileName storeName
  rw [hheld.load]
  rfl

/-- The array has not grown, and its elements are these strings in blocks of
their own. -/
structure Stored (found : StringArray × Heap) (names : List CString)
    (blocks : List (Block UInt8)) : Prop where
  holds : DYNARR.Holds found.1 (blocks.map some)
  capacity : found.1.capacity = DYNARR.initSize
  destructor : found.1.elemDestructorFunc = destroyString
  strings : blocks.map (fun block => loadString block.cells 0) =
    names.map .ok
  nodup : (blocks.map Block.id).Nodup
  granted : ∀ block ∈ blocks, block.id < found.2.calls

variable {blocks : List (Block UInt8)}

theorem Stored.length (h : Stored found names blocks) :
    blocks.length = names.length := by
  have hlength := congrArg List.length h.strings
  rw [List.length_map, List.length_map] at hlength
  exact hlength

/-- The string is copied into a block of its own. -/
theorem storeName_copied (hfit : path.bytes.length < maxDirBufferSize)
    (found : StringArray × Heap) :
    ∃ cells, HoldsString maxDirBufferSize path cells ∧
      storeName noFailures path found =
        DYNARR.addElem noFailures found.1 (some ⟨found.2.calls, cells⟩)
          ⟨found.2.calls + 1, .alloc found.2.calls :: found.2.ledger⟩ := by
  have hroom : path.bytes.length < (indeterminate maxDirBufferSize :
      List (Option UInt8)).length := by
    rw [indeterminate, List.length_replicate]
    exact hfit
  obtain ⟨cells, hcopy, hheld⟩ := strcpy_fits hroom
  rw [indeterminate, List.length_replicate] at hheld
  refine ⟨cells, hheld, ?_⟩
  unfold storeName
  rw [Heap.malloc_granted (show noFailures found.2.calls = false from rfl)]
  simp only [hcopy, except_ok_bind]

theorem storeName_stored (h : Stored found names blocks)
    (hroom : names.length < DYNARR.initSize)
    (hfit : path.bytes.length < maxDirBufferSize) :
    ∃ found' blocks', storeName noFailures path found = .ok found' ∧
      Stored found' (names ++ [path]) blocks' := by
  obtain ⟨cells, hheld, hstore⟩ := storeName_copied hfit found
  have hlength := h.length
  obtain ⟨arr', hadd, hholds, hcapacity, hdestructor⟩ := h.holds.addElem
    (by rw [h.capacity, List.length_map]; omega) noFailures
    (some ⟨found.2.calls, cells⟩)
    ⟨found.2.calls + 1, .alloc found.2.calls :: found.2.ledger⟩
  refine ⟨_, blocks ++ [⟨found.2.calls, cells⟩], hstore.trans hadd, ?_,
    hcapacity.trans h.capacity, hdestructor.trans h.destructor, ?_, ?_, ?_⟩
  · rw [List.map_append]
    exact hholds
  · rw [List.map_append, List.map_append, h.strings, List.map_singleton,
      List.map_singleton, hheld.load]
  · rw [List.map_append, List.map_singleton, List.nodup_append]
    refine ⟨h.nodup, List.nodup_cons.mpr ⟨List.not_mem_nil, List.nodup_nil⟩, ?_⟩
    intro id hid new hnew heq
    obtain ⟨block, hblock, rfl⟩ := List.mem_map.mp hid
    have hlt := h.granted block hblock
    rw [heq, List.mem_singleton.mp hnew] at hlt
    exact Nat.lt_irrefl _ hlt
  · intro block hblock
    rcases List.mem_append.mp hblock with hold | hnew
    · exact Nat.lt_succ_of_lt (h.granted block hold)
    · rw [List.mem_singleton.mp hnew]
      exact Nat.lt_succ_self _

theorem storeName_full (h : Stored found names blocks)
    (hfull : names.length = DYNARR.initSize)
    (hfit : path.bytes.length < maxDirBufferSize) :
    storeName noFailures path found = .error .outOfBounds := by
  obtain ⟨cells, -, hstore⟩ := storeName_copied hfit found
  rw [hstore]
  exact h.holds.addElem_full
    (by rw [List.length_map, h.length, hfull, h.capacity]) _ _

/-- All the names are stored, or the seventeenth one leaves the block. -/
theorem storeNames (paths : List CString)
    (hfits : ∀ path ∈ paths, path.bytes.length < maxDirBufferSize)
    (h : Stored found names blocks)
    (hroom : names.length ≤ DYNARR.initSize) :
    (names.length + paths.length ≤ DYNARR.initSize ∧ ∃ found' blocks',
      paths.foldlM (fun found path => storeName noFailures path found) found =
        .ok found' ∧ Stored found' (names ++ paths) blocks') ∨
    (DYNARR.initSize < names.length + paths.length ∧
      paths.foldlM (fun found path => storeName noFailures path found) found =
        .error .outOfBounds) := by
  induction paths generalizing found names blocks with
  | nil =>
      refine Or.inl ⟨hroom, found, blocks, rfl, ?_⟩
      rw [List.append_nil]
      exact h
  | cons path paths ih =>
      have hfit := hfits path List.mem_cons_self
      rw [List.foldlM_cons, List.length_cons]
      rcases Nat.lt_or_ge names.length DYNARR.initSize with hlt | hge
      · obtain ⟨found₁, blocks₁, hstore, h₁⟩ := storeName_stored h hlt hfit
        have hlength : (names ++ [path]).length = names.length + 1 :=
          List.length_append
        have hrest := ih (fun other hother =>
          hfits other (List.mem_cons_of_mem _ hother)) h₁ (by omega)
        rw [hlength, List.append_assoc, List.singleton_append] at hrest
        rw [hstore, except_ok_bind]
        rcases hrest with ⟨hle, hstored⟩ | ⟨hlong, hoverflow⟩
        · exact Or.inl ⟨by omega, hstored⟩
        · exact Or.inr ⟨by omega, hoverflow⟩
      · have hfull : names.length = DYNARR.initSize := by omega
        rw [storeName_full h hfull hfit]
        exact Or.inr ⟨by omega, rfl⟩

theorem Stored.lists (h : Stored found names blocks) : Lists found.1 names := by
  obtain ⟨elems, helems, hload⟩ := h.holds.loadPointer
  refine ⟨?_, fun i path hpath => ?_⟩
  · rw [h.holds.size, List.length_map, h.length]
  · obtain ⟨block, hblock, hstring⟩ : ∃ block, blocks[i]? = some block ∧
        loadString block.cells 0 = .ok path := by
      have hget := congrArg (fun l => l[i]?) h.strings
      simp only [List.getElem?_map, hpath, Option.map_some] at hget
      exact Option.map_eq_some_iff.mp hget
    have hpointer : loadPointer elems.cells i = .ok (some block) := by
      apply hload
      rw [List.getElem?_map, hblock]
      rfl
    unfold elemAt
    rw [helems]
    simp only [hpointer, hstring, Except.mapError, except_ok_bind]
    rfl

theorem foldl_destroyString (blocks : List (Block UInt8)) (freed : List Nat) :
    (blocks.map some).foldl (fun s elem => destroyString elem s) freed =
      freed ++ blocks.map Block.id := by
  induction blocks generalizing freed with
  | nil => exact (List.append_nil _).symm
  | cons block blocks ih =>
      rw [List.map_cons, List.foldl_cons, ih, destroyString, List.append_assoc]
      rfl

/-- `DYNARR_destroyArray` frees each of the strings once. -/
theorem Stored.destroyed (h : Stored found names blocks) :
    ∃ heap', DYNARR.destroyArray found.1 [] found.2 =
      .ok (blocks.map Block.id, heap') := by
  obtain ⟨elems, helems, -⟩ := h.holds.loadPointer
  unfold DYNARR.destroyArray
  rw [h.holds.destroyElems, h.destructor, foldl_destroyString, helems]
  exact ⟨_, rfl⟩

end Array

/-! ## The program -/

section Program

variable {α : Type} {fs : FileSystem} {files : Files} {entries : Entries}
  {above : List Entries} {fuel limit : Nat} {p : Process α}

/-- The search returns when the array need not grow. -/
theorem getFileNamesInDir_stored
    (hworking : fs.workingLocation = some ⟨.directory entries, above⟩)
    (hdistinct : entries.Distinct)
    (hroot : fs.workingPath.bytes.length < maxDirBufferSize)
    (hfit : Fit (nodeStrings fs.workingPath (.directory entries)))
    (hfuel : entries.depth < fuel) (heap : Heap) :
    ((entries.filePaths fs.workingPath).length ≤ DYNARR.initSize ∧
      ∃ found blocks,
        getFileNamesInDir .quiet fs fuel (getcwd fs) heap = .ok found ∧
        Stored found (entries.filePaths fs.workingPath) blocks) ∨
    (DYNARR.initSize < (entries.filePaths fs.workingPath).length ∧
      getFileNamesInDir .quiet fs fuel (getcwd fs) heap =
        .error (.fault .outOfBounds)) := by
  obtain ⟨arr, heap₁, hnew, hholds, hcapacity, hdestructor⟩ :=
    DYNARR.makeNewArray_holds destroyString heap
  have hstart : Stored (arr, heap₁) [] [] :=
    ⟨hholds, hcapacity, hdestructor, rfl, List.nodup_nil,
      fun _ hblock => absurd hblock List.not_mem_nil⟩
  have hwalk := walk_quiet (visitor_reads noFailures)
    ((FileTree.locate_workingPath fs).trans hworking) hdistinct hfit
    (FileNames.getcwd_load hroot) hfuel (arr, heap₁)
  rw [gather_threads _ _ ⟨rfl, fun _ _ => rfl⟩] at hwalk
  have hrun : getFileNamesInDir .quiet fs fuel (getcwd fs) heap =
      (walk .quiet fs (visitor noFailures) fuel (getcwd fs)
        (arr, heap₁)).mapError .ofWalk := by
    unfold getFileNamesInDir
    rw [show DYNARR.makeNewArray FileNames.Environment.quiet.mallocFails
      pointerSize destroyString heap = .ok (arr, heap₁) from hnew]
    rfl
  have hnames := storeNames (entries.filePaths fs.workingPath)
    (fit_filePaths entries _ (FileNames.fit_cons.mp hfit).2) hstart
    (Nat.zero_le _)
  rw [List.length_nil, Nat.zero_add, List.nil_append] at hnames
  rw [hrun, hwalk]
  rcases hnames with ⟨hshort, found, blocks, hfold, hstored⟩ | ⟨hlong, hfold⟩
  · rw [hfold]
    exact Or.inl ⟨hshort, found, blocks, rfl, hstored⟩
  · rw [hfold]
    exact Or.inr ⟨hlong, rfl⟩

/-- **Exactly when the program does its work.**  On a tree below which every
path fits, with files that an `int` can count the bytes of, `main` returns,
has printed every pair of files with the same bytes once and in order, and has
freed a block for each name, if and only if there are at most 16 files and
`open` always finds two free descriptors: two are lost for good on every pair
of files with the same size and different bytes. -/
theorem main_prints_iff
    (hworking : fs.workingLocation = some ⟨.directory entries, above⟩)
    (hdistinct : entries.Distinct)
    (hroot : fs.workingPath.bytes.length < maxDirBufferSize)
    (hfit : Fit (nodeStrings fs.workingPath (.directory entries)))
    (hfuel : entries.depth < fuel)
    (hcountable : Countable files (entries.filePaths fs.workingPath))
    (limit : Nat) (heap : Heap) (p : Process α) :
    (∃ printed freed,
      main (.limited limit) files .quiet fs fuel heap p =
        .ok (printed, freed) ∧
      AllEqualPairs (sameBytes files) (entries.filePaths fs.workingPath)
        printed ∧
      freed.length = (entries.filePaths fs.workingPath).length ∧
      freed.Nodup) ↔
    (entries.filePaths fs.workingPath).length ≤ DYNARR.initSize ∧
      ∀ before pair after,
        filePairs (entries.filePaths fs.workingPath) =
          before ++ pair :: after →
        sameSize files pair = true →
        2 * before.countP (differInside files) + 2 ≤
          p.table.freeBelow limit := by
  rw [← spend_isSome_iff]
  unfold main
  rcases getFileNamesInDir_stored hworking hdistinct hroot hfit hfuel heap with
    ⟨hshort, found, blocks, hsearch, hstored⟩ | ⟨hlong, hsearch⟩
  · have hfits : (entries.filePaths fs.workingPath).length ≤ 2147483647 :=
      Nat.le_trans hshort (by decide)
    have hprints : Prints limit _ _
        (printDuplicateFilePairs (.limited limit) files found.1 p) :=
      printDuplicateFilePairs_prints hstored.lists hfits hcountable
    obtain ⟨heap', hdestroy⟩ := hstored.destroyed
    rw [hsearch, and_iff_right hshort]
    simp only [except_ok_bind]
    generalize printDuplicateFilePairs (.limited limit) files found.1 p =
      result at hprints ⊢
    cases hprints with
    | exited hnone =>
        rw [hnone]
        refine iff_of_false ?_ Bool.false_ne_true
        rintro ⟨printed, freed, hmain, -⟩
        cases hmain
    | returned hleft =>
        rw [hleft]
        refine iff_of_true ⟨_, blocks.map Block.id, ?_,
          allEqualPairs_rows _ _, ?_, hstored.nodup⟩ rfl
        · simp only [except_ok_bind, hdestroy]
          rfl
        · rw [List.length_map, hstored.length]
  · rw [hsearch]
    refine iff_of_false ?_ fun hboth => Nat.not_lt.mpr hboth.1 hlong
    rintro ⟨printed, freed, hmain, -⟩
    cases hmain

/-- Every file has the same two bytes. -/
def alike : Files := fun _ => some (zeros 2 two_fits)

/-- Two files in two directories, and two descriptors to compare them. -/
theorem main_prints_iff_twoLevels : ∃ printed freed,
    main (.limited 5) alike .quiet FileNames.twoLevels 3 Heap.empty
      freshProcess = .ok (printed, freed) ∧
    AllEqualPairs (sameBytes alike)
      (FileNames.twoLevels.root.filePaths FileNames.twoLevels.workingPath)
      printed ∧
    freed.length = 2 ∧ freed.Nodup := by
  have hcountable : Countable alike
      (FileNames.twoLevels.root.filePaths
        FileNames.twoLevels.workingPath) := fun path _ =>
    ⟨zeros 2 two_fits, rfl, by decide⟩
  exact (main_prints_iff FileNames.twoLevels_located
    FileNames.twoLevels_distinct (by decide) FileNames.twoLevels_fit
    (by decide) hcountable 5 Heap.empty freshProcess).mpr
      ⟨by decide, spend_isSome_iff.mp rfl⟩

end Program

end OsLabs.Lab1.Duplicates
