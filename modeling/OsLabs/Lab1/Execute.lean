import Mathlib.Data.List.Forall2
import OsLabs.Iwish.TokenRuns
import OsLabs.Posix.Integers
import OsLabs.Posix.StringCopy

/-!
# The argument vector of `execute`

`main` of `execute.c` up to the call of `execvp`.  The argument is copied into
a buffer that `strtok` goes through twice, once to count the tokens and, after
the copy has been made again, once to store them; the position that `strtok`
keeps between its calls is passed along.

`main_splits_iff`: the two passes find the same tokens, they fill the array to
its last slot, and they are what `tokenise` of the shell finds, as long as the
number of tokens and the number of slots are values of `int`.
-/

namespace OsLabs.Lab1.Execute

open OsLabs.Posix
open OsLabs.Iwish.Reader
open OsLabs.Iwish.FrontEnd
open OsLabs.Iwish.TokenRuns

/-! ## The source -/

/-- How a run ends before `execvp`: `exit(EXIT_FAILURE)` after a message, or
what the language leaves undefined. -/
inductive Stop where
  | exited (message : String)
  | fault (fault : Fault)
  | overflow
  deriving Repr, DecidableEq

/-- A step that may be undefined. -/
def attempt {β : Type} (x : Except Fault β) : Except Stop β :=
  x.mapError .fault

/-- `n + 1` for an `int n`. -/
def increment (n : Int) : Except Stop Int :=
  match int32 (n + 1) with
  | none => .error .overflow
  | some n => .ok n

/-- The usage message. -/
def usage : String := "Usage: execute \"<command> <arguments>\"\n"

/-- `newargv`: an array of pointers, each with the block that it points to. -/
abbrev ArgumentVector := List (Option (Option (Block UInt8)))

/-- The first loop, behind a call of `strtok` that has returned `token`: the
tokens counted, and the buffer. -/
def countTokens : Nat → Option Nat → List (Option UInt8) → Nat → Int →
    Except Stop (Int × List (Option UInt8))
  | 0, _, _, _, _ => .error (.fault .outOfFuel)
  | fuel + 1, token, command, saved, tokenamount =>
    match token with
    | none => .ok (tokenamount, command)
    | some _ => do
      let tokenamount ← increment tokenamount
      let (token, command, saved) ← attempt (strtok isSpace command saved)
      countTokens fuel token command saved tokenamount

/-- `strtok` from position `start`, and the first loop. -/
def countFrom (fuel : Nat) (command : List (Option UInt8))
    (start : Nat) (tokenamount : Int) :
    Except Stop (Int × List (Option UInt8)) := do
  let (token, command, saved) ← attempt (strtok isSpace command start)
  countTokens fuel token command saved tokenamount

/-- The second loop, behind a call of `strtok` that has returned `token`: the
index `i`, the array and the heap. -/
def storeTokens (fails : FailurePlan) : Nat → Option Nat →
    List (Option UInt8) → Nat → Int → ArgumentVector → Heap →
    Except Stop (Int × ArgumentVector × Heap)
  | 0, _, _, _, _, _, _ => .error (.fault .outOfFuel)
  | fuel + 1, token, command, saved, i, newargv, heap =>
    match token with
    | none => .ok (i, newargv, heap)
    | some token => do
      let text ← attempt (loadString command token)
      let fresh := indeterminate (text.bytes.length + 1)
      match heap.malloc fails with
      | (none, _) => do
        -- the null pointer is stored, and copied to
        let _ ← attempt (storeAt newargv i.toNat none)
        .error (.fault .nullDereference)
      | (some id, heap) => do
        let newargv ← attempt (storeAt newargv i.toNat (some ⟨id, fresh⟩))
        let copied ← attempt (strcpy fresh text)
        let newargv ← attempt (storeAt newargv i.toNat (some ⟨id, copied⟩))
        let (token, command, saved) ← attempt (strtok isSpace command saved)
        let i ← increment i
        storeTokens fails fuel token command saved i newargv heap

/-- `strtok` from position `start`, and the second loop. -/
def storeFrom (fails : FailurePlan) (fuel : Nat)
    (command : List (Option UInt8)) (start : Nat) (i : Int)
    (newargv : ArgumentVector) (heap : Heap) :
    Except Stop (Int × ArgumentVector × Heap) := do
  let (token, command, saved) ← attempt (strtok isSpace command start)
  storeTokens fails fuel token command saved i newargv heap

/-- What `main` hands to `execvp`, with the two counters. -/
structure Prepared where
  tokenamount : Int
  i : Int
  newargv : ArgumentVector
  heap : Heap

/-- `main` with one argument. -/
def prepare (fails : FailurePlan) (argument : CString) :
    Except Stop Prepared :=
  match Heap.empty.malloc fails with
  | (none, _) => .error (.fault .nullDereference)
  | (some _, heap) => do
    let command ← attempt (strcpy
      (indeterminate ((argument.bytes.length + 1) * pointerSize)) argument)
    let fuel := command.length + 2
    let (tokenamount, command) ← countFrom fuel command 0 0
    let command ← attempt (strcpy command argument)
    let slots ← increment tokenamount
    match heap.malloc fails with
    | (none, _) => .error (.fault .nullDereference)
    | (some _, heap) => do
      let (i, newargv, heap) ← storeFrom fails fuel command 0 0
        (indeterminate slots.toNat) heap
      let newargv ← attempt (storeAt newargv i.toNat none)
      return ⟨tokenamount, i, newargv, heap⟩

/-- `main` up to the call of `execvp`. -/
def main (fails : FailurePlan) (argv : List CString) : Except Stop Prepared :=
  match argv with
  | [_, argument] => prepare fails argument
  | _ => .error (.exited usage)

/-- The strings of an argument vector, up to its null pointer. -/
def readVector : ArgumentVector → Except Fault (List CString)
  | [] => .error .outOfBounds
  | none :: _ => .error .uninitialised
  | some none :: _ => .ok []
  | some (some block) :: rest => do
    let text ← loadString block.cells 0
    let texts ← readVector rest
    return text :: texts

/-! ## Steps -/

@[simp] theorem attempt_ok {β : Type} (b : β) :
    attempt (.ok b) = .ok b := rfl

@[simp] theorem attempt_error {β : Type} (fault : Fault) :
    attempt (.error fault : Except Fault β) = .error (.fault fault) := rfl

theorem increment_ok {n : Int} (hmin : 0 ≤ n) (hmax : n < 2147483647) :
    increment n = .ok (n + 1) := by
  have hfits : InInt32 (n + 1) := by
    unfold InInt32
    omega
  rw [increment, int32_of_fits hfits]

theorem increment_overflow : increment 2147483647 = .error .overflow := rfl

/-! ## The first pass -/

section Passes

variable {bytes : List UInt8}

/-- A buffer between two calls of `strtok`: `bytes` lie ahead. -/
def buffer (front : List (Option UInt8)) (bytes : List UInt8)
    (spare : List (Option UInt8)) : List (Option UInt8) :=
  front ++ (bytes.map some ++ some 0 :: spare)

/-- The first pass counts the runs and leaves the buffer in its shape. -/
theorem countFrom_eq (fuel : Nat) (front spare : List (Option UInt8))
    (tokenamount : Int) (hnul : (0 : UInt8) ∉ bytes)
    (hfuel : (runs isSpace bytes).length < fuel) (hmin : 0 ≤ tokenamount)
    (hmax : tokenamount + (runs isSpace bytes).length ≤ 2147483647) :
    ∃ bytes' : List UInt8, bytes'.length = bytes.length ∧
      countFrom fuel (buffer front bytes spare) front.length tokenamount =
        .ok (tokenamount + (runs isSpace bytes).length,
          buffer front bytes' spare) := by
  induction fuel generalizing bytes front tokenamount with
  | zero => exact absurd hfuel (Nat.not_lt_zero _)
  | succ fuel ih =>
      by_cases hall : ∀ c ∈ bytes, isSpace c = true
      · refine ⟨bytes, rfl, ?_⟩
        rw [countFrom, buffer, strtok_none rfl (gap_of_all hnul hall),
          runs_all hall, List.length_nil, Int.natCast_zero, Int.add_zero]
        rfl
      · obtain ⟨offset, token, front₂, bytes₂, hfound⟩ :=
          strtok_found front spare hnul hall
        have hlength := congrArg List.length hfound.runs_eq
        rw [List.length_cons] at hlength
        obtain ⟨bytes', hbytes', hrest⟩ :=
          ih front₂ (tokenamount + 1) hfound.nul.2 (by omega) (by omega)
            (by omega)
        obtain ⟨all, before, tail, hall', -, hshape, -⟩ :=
          hfound.later bytes' hbytes'
        have hsum : tokenamount + (runs isSpace bytes).length =
            tokenamount + 1 + (runs isSpace bytes₂).length := by omega
        refine ⟨all, hall', ?_⟩
        rw [countFrom, buffer, hfound.call, attempt_ok, except_ok_bind, hsum,
          buffer, ← hshape]
        simp only
        rw [countTokens, increment_ok (by omega) (by omega), except_ok_bind]
        exact hrest

/-- With more runs than the largest `int` the counter overflows. -/
theorem countFrom_overflow (fuel : Nat) (front spare : List (Option UInt8))
    (tokenamount : Int) (hnul : (0 : UInt8) ∉ bytes)
    (hfuel : (runs isSpace bytes).length < fuel) (hmin : 0 ≤ tokenamount)
    (hle : tokenamount ≤ 2147483647)
    (hmax : 2147483647 < tokenamount + (runs isSpace bytes).length) :
    countFrom fuel (buffer front bytes spare) front.length tokenamount =
      .error .overflow := by
  induction fuel generalizing bytes front tokenamount with
  | zero => exact absurd hfuel (Nat.not_lt_zero _)
  | succ fuel ih =>
      by_cases hall : ∀ c ∈ bytes, isSpace c = true
      · rw [runs_all hall, List.length_nil] at hmax
        omega
      · obtain ⟨offset, token, front₂, bytes₂, hfound⟩ :=
          strtok_found front spare hnul hall
        have hlength := congrArg List.length hfound.runs_eq
        rw [List.length_cons] at hlength
        rw [countFrom, buffer, hfound.call, attempt_ok, except_ok_bind]
        simp only
        rw [countTokens]
        by_cases hroom : tokenamount = 2147483647
        · rw [hroom, increment_overflow]
          rfl
        · rw [increment_ok (by omega) (by omega), except_ok_bind]
          exact ih front₂ (tokenamount + 1) hfound.nul.2 (by omega) (by omega)
            (by omega) (by omega)

/-! ## The second pass -/

variable {fails : FailurePlan} {blocks : List (Block UInt8)}
  {texts : List (List UInt8)}

/-- Slots that point to blocks. -/
def filled (blocks : List (Block UInt8)) : ArgumentVector :=
  blocks.map fun block => some (some block)

theorem filled_length (blocks : List (Block UInt8)) :
    (filled blocks).length = blocks.length := List.length_map _

/-- Each block has the size of its text and holds it. -/
def Copies : List (Block UInt8) → List (List UInt8) → Prop :=
  List.Forall₂ fun block text =>
    ∃ s : CString, s.bytes = text ∧
      HoldsString (text.length + 1) s block.cells

/-- A copied vector reads back as its texts. -/
theorem Copies.readVector_eq (h : Copies blocks texts) :
    ∃ tokens, readVector (filled blocks ++ [some none]) = .ok tokens ∧
      tokens.map CString.bytes = texts := by
  induction h with
  | nil => exact ⟨[], rfl, rfl⟩
  | cons hblock _ ih =>
      obtain ⟨s, rfl, hholds⟩ := hblock
      obtain ⟨tokens, hread, rfl⟩ := ih
      refine ⟨s :: tokens, ?_, rfl⟩
      rw [filled, List.map_cons, List.cons_append, readVector, hholds.load,
        except_ok_bind]
      rw [filled] at hread
      rw [hread]
      rfl

/-- A round of the second loop whose request is granted. -/
theorem storeTokens_granted {command : List (Option UInt8)}
    {text : CString} {token : Nat} {heap : Heap} (fuel saved : Nat)
    (vector : List (Block UInt8)) (slots : Nat)
    (hload : loadString command token = .ok text)
    (hgranted : fails heap.calls = false)
    (hmax : vector.length < 2147483647) :
    ∃ block heap', HoldsString (text.bytes.length + 1) text block.cells ∧
      storeTokens fails (fuel + 1) (some token) command saved vector.length
          (filled vector ++ indeterminate (slots + 1)) heap =
        storeFrom fails fuel command saved (vector.length + 1)
          (filled (vector ++ [block]) ++ indeterminate slots) heap' := by
  have hroom : text.bytes.length <
      (indeterminate (β := UInt8) (text.bytes.length + 1)).length := by
    rw [indeterminate, List.length_replicate]
    exact Nat.lt_succ_self _
  obtain ⟨copied, hcopy, hholds⟩ := strcpy_fits hroom
  rw [indeterminate, List.length_replicate] at hholds
  have hstore : ∀ (old : Option (Option (Block UInt8)))
      (pointer : Option (Block UInt8)),
      storeAt (filled vector ++ old :: indeterminate slots) vector.length
        pointer = .ok (filled vector ++ some pointer :: indeterminate slots) :=
    fun old pointer => storeAt_append (filled_length vector)
  have hslots : (indeterminate (slots + 1) : ArgumentVector) =
      none :: indeterminate slots := rfl
  have hmin : (0 : Int) ≤ vector.length := Int.natCast_nonneg _
  have hvector : filled (vector ++ [⟨heap.calls, copied⟩]) ++
      indeterminate slots = filled vector ++
        some (some ⟨heap.calls, copied⟩) :: indeterminate slots := by
    rw [filled, List.map_append, List.append_assoc]
    rfl
  refine ⟨⟨heap.calls, copied⟩, (heap.malloc fails).2, hholds, ?_⟩
  rw [hvector, hslots, storeTokens, hload, attempt_ok, except_ok_bind]
  simp only [Heap.malloc_granted hgranted, Int.toNat_natCast, hstore, hcopy,
    attempt_ok, except_ok_bind, increment_ok hmin (Int.ofNat_lt.mpr hmax)]
  rfl

/-- A round of the second loop whose request is refused. -/
theorem storeTokens_refused {command : List (Option UInt8)}
    {text : CString} {token saved : Nat} {heap : Heap} (fuel : Nat)
    (vector : List (Block UInt8)) (slots : Nat)
    (hload : loadString command token = .ok text)
    (hrefused : fails heap.calls = true) :
    storeTokens fails (fuel + 1) (some token) command saved vector.length
        (filled vector ++ indeterminate (slots + 1)) heap =
      .error (.fault .nullDereference) := by
  have hslots : (indeterminate (slots + 1) : ArgumentVector) =
      none :: indeterminate slots := rfl
  rw [hslots, storeTokens, hload, attempt_ok, except_ok_bind]
  simp only [Heap.malloc_refused hrefused, Int.toNat_natCast,
    storeAt_append (filled_length vector), attempt_ok, except_ok_bind]

/-- Behind the call that finds a token the loop goes on with it, and the
token can be read. -/
theorem storeFrom_found (fails : FailurePlan)
    {front spare front₂ : List (Option UInt8)}
    {offset : Nat} {token bytes₂ : List UInt8}
    (hfound : Found front bytes spare offset token front₂ bytes₂)
    (fuel : Nat) (i : Int) (newargv : ArgumentVector) (heap : Heap) :
    loadString (buffer front₂ bytes₂ spare) offset =
        .ok ⟨token, hfound.nul.1⟩ ∧
      storeFrom fails fuel (buffer front bytes spare) front.length i newargv
          heap =
        storeTokens fails fuel (some offset) (buffer front₂ bytes₂ spare)
          front₂.length i newargv heap := by
  obtain ⟨all, before, tail, -, hbefore, -, hcells⟩ :=
    hfound.later bytes₂ rfl
  constructor
  · rw [buffer, hcells]
    exact loadString_append hbefore ⟨token, hfound.nul.1⟩ tail
  · rw [storeFrom, buffer, hfound.call]
    rfl

/-- The second pass stores a copy of each run, in as many slots as there are
runs, unless a request is refused. -/
theorem storeFrom_eq (fails : FailurePlan) (fuel : Nat)
    (front spare : List (Option UInt8)) (vector : List (Block UInt8))
    (heap : Heap) (hnul : (0 : UInt8) ∉ bytes)
    (hfuel : (runs isSpace bytes).length < fuel)
    (hmax : vector.length + (runs isSpace bytes).length ≤ 2147483647) :
    (∃ blocks heap',
      storeFrom fails fuel (buffer front bytes spare) front.length
          vector.length (filled vector ++
            indeterminate ((runs isSpace bytes).length + 1)) heap =
        .ok ((vector.length : Int) + (runs isSpace bytes).length,
          filled (vector ++ blocks) ++ indeterminate 1, heap') ∧
      Copies blocks (runs isSpace bytes)) ∨
    (storeFrom fails fuel (buffer front bytes spare) front.length
        vector.length (filled vector ++
          indeterminate ((runs isSpace bytes).length + 1)) heap =
      .error (.fault .nullDereference) ∧ ∃ k, fails k = true) := by
  induction fuel generalizing bytes front vector heap with
  | zero => exact absurd hfuel (Nat.not_lt_zero _)
  | succ fuel ih =>
      by_cases hall : ∀ c ∈ bytes, isSpace c = true
      · refine Or.inl ⟨[], heap, ?_, ?_⟩
        · rw [storeFrom, buffer, strtok_none rfl (gap_of_all hnul hall),
            runs_all hall, List.append_nil]
          rfl
        · rw [runs_all hall]
          exact List.Forall₂.nil
      · obtain ⟨offset, token, front₂, bytes₂, hfound⟩ :=
          strtok_found front spare hnul hall
        have hlength := congrArg List.length hfound.runs_eq
        rw [List.length_cons] at hlength
        obtain ⟨hload, hcall⟩ := storeFrom_found fails hfound
          (fuel + 1) vector.length (filled vector ++
            indeterminate ((runs isSpace bytes₂).length + 1 + 1)) heap
        rw [hlength, hcall]
        cases hrefused : fails heap.calls with
        | true =>
            exact Or.inr ⟨storeTokens_refused fuel vector _ hload hrefused,
              _, hrefused⟩
        | false =>
            obtain ⟨block, heap₁, hholds, hround⟩ :=
              storeTokens_granted fuel front₂.length vector
                ((runs isSpace bytes₂).length + 1) hload hrefused (by omega)
            have hnext : (vector ++ [block]).length = vector.length + 1 := by
              rw [List.length_append, List.length_singleton]
            have hrest := ih front₂ (vector ++ [block]) heap₁ hfound.nul.2
              (by omega) (by omega)
            rw [hnext, Int.natCast_succ] at hrest
            rw [hround]
            rcases hrest with ⟨blocks, heap', hrun, hcopies⟩ | hstopped
            · refine Or.inl ⟨block :: blocks, heap', ?_, ?_⟩
              · have hsum : (vector.length : Int) + 1 +
                    (runs isSpace bytes₂).length =
                    vector.length + ((runs isSpace bytes₂).length + 1 :) := by
                  omega
                rw [hrun, List.append_assoc, List.singleton_append, hsum]
              · rw [hfound.runs_eq]
                exact List.Forall₂.cons ⟨_, rfl, hholds⟩ hcopies
            · exact Or.inr hstopped

end Passes

/-! ## Both passes -/

section Main

variable {argument : CString} {prepared : Prepared} {tokens : List CString}

/-- What is handed to `execvp`: as many tokens as were counted, in an array
with one slot more, which holds the null pointer; they are the maximal
space-free runs of the argument, and what the shell makes of it. -/
structure Splits (argument : CString) (prepared : Prepared)
    (tokens : List CString) : Prop where
  counters : prepared.i = prepared.tokenamount
  count : (tokens.length : Int) = prepared.tokenamount
  slots : (prepared.newargv.length : Int) = prepared.tokenamount + 1
  null : prepared.newargv[prepared.tokenamount.toNat]? = some (some none)
  vector : readVector prepared.newargv = .ok tokens
  runs_eq : tokens.map CString.bytes = maximalRuns isSpace argument.bytes
  tokenised : TokenisesTo argument.bytes tokens

theorem Splits.of_copies {blocks : List (Block UInt8)} {heap : Heap}
    (h : Copies blocks (runs isSpace argument.bytes)) :
    ∃ tokens, Splits argument
      ⟨(runs isSpace argument.bytes).length,
        (runs isSpace argument.bytes).length,
        filled blocks ++ [some none], heap⟩ tokens := by
  obtain ⟨tokens, hread, htexts⟩ := h.readVector_eq
  have hcount := congrArg List.length htexts
  rw [List.length_map] at hcount
  have hblocks := List.Forall₂.length_eq h
  have hfilled := filled_length blocks
  refine ⟨tokens, rfl, congrArg Nat.cast hcount, ?_, ?_, hread, ?_, ?_⟩
  · rw [List.length_append, hfilled, hblocks, List.length_singleton,
      Int.natCast_add, Int.natCast_one]
  · rw [Int.toNat_natCast, ← hblocks, ← hfilled,
      List.getElem?_concat_length]
  · rw [htexts, runs_eq_maximalRuns]
  · exact tokenisesTo_of_runs argument.nulFree htexts

/-- A buffer that has just been copied to. -/
theorem strcpy_buffer {command : List (Option UInt8)}
    (h : argument.bytes.length < command.length) :
    ∃ spare, strcpy command argument =
        .ok (buffer [] argument.bytes spare) ∧
      (buffer [] argument.bytes spare).length = command.length := by
  obtain ⟨copied, hcopy, hholds⟩ := strcpy_fits h
  have hlength := hholds.length
  obtain ⟨spare, rfl⟩ := hholds.starts
  rw [CString.image_append] at hcopy hlength
  exact ⟨spare, hcopy, hlength⟩

theorem buffer_length (bytes : List UInt8) (spare : List (Option UInt8)) :
    (buffer [] bytes spare).length = bytes.length + spare.length + 1 := by
  rw [buffer, List.nil_append, List.length_append, List.length_map,
    List.length_cons, Nat.add_assoc]

/-- Behind a first request that is granted: the argument is copied to a buffer
with room for it, in which the first pass has fuel enough. -/
theorem prepare_copied (argument : CString) :
    ∃ spare, strcpy (indeterminate
        ((argument.bytes.length + 1) * pointerSize)) argument =
        .ok (buffer [] argument.bytes spare) ∧
      (runs isSpace argument.bytes).length <
        (buffer [] argument.bytes spare).length + 2 := by
  have hsize : argument.bytes.length < (indeterminate (β := UInt8)
      ((argument.bytes.length + 1) * pointerSize)).length := by
    rw [indeterminate, List.length_replicate, pointerSize]
    omega
  obtain ⟨spare, hcopy, -⟩ := strcpy_buffer hsize
  refine ⟨spare, hcopy, ?_⟩
  have hle := runs_length_le isSpace argument.bytes
  rw [buffer_length]
  omega

theorem prepare_splits (fails : FailurePlan) (argument : CString)
    (hmax : (runs isSpace argument.bytes).length ≤ 2147483646) :
    (∃ prepared tokens, prepare fails argument = .ok prepared ∧
      Splits argument prepared tokens) ∨
    (prepare fails argument = .error (.fault .nullDereference) ∧
      ∃ k, fails k = true) := by
  cases hfirst : fails Heap.empty.calls with
  | true =>
      rw [prepare, Heap.malloc_refused hfirst]
      exact Or.inr ⟨rfl, _, hfirst⟩
  | false =>
      rw [prepare, Heap.malloc_granted hfirst]
      obtain ⟨spare, hcopy, hfuel⟩ := prepare_copied argument
      obtain ⟨bytes', hbytes', hcount⟩ :=
        countFrom_eq _ [] spare 0 argument.nulFree hfuel (Int.le_refl 0)
          (by omega)
      rw [List.length_nil, Int.zero_add] at hcount
      have hroom : argument.bytes.length <
          (buffer [] bytes' spare).length := by
        rw [buffer_length]
        omega
      obtain ⟨spare', hcopy', -⟩ := strcpy_buffer hroom
      have hslots : increment (runs isSpace argument.bytes).length =
          .ok ((runs isSpace argument.bytes).length + 1) :=
        increment_ok (Int.natCast_nonneg _) (by omega)
      simp only [hcopy, hcount, hcopy', hslots, attempt_ok, except_ok_bind]
      generalize (⟨Heap.empty.calls + 1, _⟩ : Heap) = heap
      cases hsecond : fails heap.calls with
      | true =>
          rw [Heap.malloc_refused hsecond]
          exact Or.inr ⟨rfl, _, hsecond⟩
      | false =>
          rw [Heap.malloc_granted hsecond]
          generalize (⟨heap.calls + 1, _⟩ : Heap) = heap'
          have hstore := storeFrom_eq fails _ [] spare' [] heap'
            argument.nulFree hfuel (by rw [List.length_nil]; omega)
          have hnat : ((runs isSpace argument.bytes).length + 1 : Int).toNat =
              (runs isSpace argument.bytes).length + 1 := by omega
          simp only [List.length_nil, Int.natCast_zero, Int.zero_add, filled,
            List.map_nil, List.nil_append] at hstore
          rw [hnat]
          rcases hstore with ⟨blocks, heap'', hrun, hcopies⟩ | ⟨hrun, hfails⟩
          · obtain ⟨tokens, hsplits⟩ := Splits.of_copies hcopies
            refine Or.inl ⟨_, tokens, ?_, hsplits⟩
            have hblocks := List.Forall₂.length_eq hcopies
            have hend : storeAt (filled blocks ++ indeterminate 1)
                (runs isSpace argument.bytes).length none =
                .ok (filled blocks ++ [some none]) :=
              storeAt_append ((filled_length blocks).trans hblocks)
            simp only [hrun, except_ok_bind]
            rw [← filled, Int.toNat_natCast, hend]
            rfl
          · simp only [hrun]
            exact Or.inr ⟨rfl, hfails⟩

/-- With more tokens than that, either the counter or the number of slots is
no `int`. -/
theorem prepare_overflow (argument : CString)
    (hmax : 2147483646 < (runs isSpace argument.bytes).length) :
    prepare noFailures argument = .error .overflow := by
  rw [prepare, Heap.malloc_granted rfl]
  obtain ⟨spare, hcopy, hfuel⟩ := prepare_copied argument
  by_cases hlast : (runs isSpace argument.bytes).length = 2147483647
  · obtain ⟨bytes', hbytes', hcount⟩ :=
      countFrom_eq _ [] spare 0 argument.nulFree hfuel (Int.le_refl 0)
        (by omega)
    rw [List.length_nil, Int.zero_add, hlast] at hcount
    have hroom : argument.bytes.length <
        (buffer [] bytes' spare).length := by
      rw [buffer_length]
      omega
    obtain ⟨spare', hcopy', -⟩ := strcpy_buffer hroom
    simp only [hcopy, hcount, hcopy', attempt_ok, except_ok_bind]
    rfl
  · have hcount := countFrom_overflow _ [] spare 0 argument.nulFree hfuel
      (Int.le_refl 0) (by omega) (by omega)
    rw [List.length_nil] at hcount
    simp only [hcopy, hcount, attempt_ok, except_ok_bind]
    rfl

/-- `execvp` is called with what both passes agree on, unless a request for
memory is refused, exactly if the slots can be counted in an `int`. -/
theorem main_splits_iff (program argument : CString) :
    (∀ fails : FailurePlan,
      (∃ prepared tokens, main fails [program, argument] = .ok prepared ∧
        Splits argument prepared tokens) ∨
      (main fails [program, argument] = .error (.fault .nullDereference) ∧
        ∃ k, fails k = true)) ↔
    (maximalRuns isSpace argument.bytes).length ≤ 2147483646 := by
  rw [← runs_eq_maximalRuns]
  constructor
  · intro hall
    by_contra hmany
    have hstop : main noFailures [program, argument] = .error .overflow :=
      prepare_overflow argument (Nat.lt_of_not_le hmany)
    rcases hall noFailures with ⟨prepared, tokens, hrun, -⟩ | ⟨hrun, -⟩
    · cases hstop.symm.trans hrun
    · cases hstop.symm.trans hrun
  · intro hmax fails
    exact prepare_splits fails argument hmax

/-- The letter `a` and a space, `n` times. -/
def repeated (n : Nat) : CString where
  bytes := (List.replicate n [97, 32]).flatten
  nulFree h := by
    obtain ⟨token, htoken, hmem⟩ := List.mem_flatten.mp h
    rw [List.eq_of_mem_replicate htoken] at hmem
    simp at hmem

theorem repeated_runs (n : Nat) :
    (runs isSpace (repeated n).bytes).length = n := by
  induction n with
  | zero => rfl
  | succ n ih =>
      have hletter : ∀ c ∈ [(97 : UInt8)], isSpace c = false :=
        List.forall_mem_singleton.mpr rfl
      have hspace : isSpace 32 = true := rfl
      have hrest : runs isSpace ([97] ++ 32 :: (repeated n).bytes) =
          [97] :: runs isSpace (repeated n).bytes :=
        runs_token_delimiter (List.cons_ne_nil 97 []) hletter hspace
      have hbytes : (repeated (n + 1)).bytes =
          [97] ++ 32 :: (repeated n).bytes := rfl
      rw [hbytes, hrest, List.length_cons, ih]

/-- With `2 ^ 31 - 1` tokens the number of slots is no `int`. -/
theorem main_splits_overflow :
    main noFailures [⟨[], List.not_mem_nil⟩, repeated 2147483647] =
      .error .overflow ∧
    ¬ ∃ prepared tokens,
      main noFailures [⟨[], List.not_mem_nil⟩, repeated 2147483647] =
        .ok prepared ∧
      Splits (repeated 2147483647) prepared tokens := by
  have hstop : main noFailures
      [⟨[], List.not_mem_nil⟩, repeated 2147483647] = .error .overflow :=
    prepare_overflow _ (by rw [repeated_runs]; omega)
  refine ⟨hstop, ?_⟩
  rintro ⟨prepared, tokens, hrun, -⟩
  cases hstop.symm.trans hrun

end Main

end OsLabs.Lab1.Execute
