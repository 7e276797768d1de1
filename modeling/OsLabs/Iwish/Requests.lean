import OsLabs.Iwish.Shell

/-!
# Requests are counted

The counter of the heap goes up with every request for memory and never down,
whether or not the request is granted and whatever has become of the line.
`nextLine_counts`: reading a line makes one request at least, and so the shell
is not where it was before.
-/

namespace OsLabs.Iwish.Requests

open OsLabs.Posix
open OsLabs.Iwish.DBA
open OsLabs.Iwish.ParserTokens
open OsLabs.Iwish.Parser
open OsLabs.Iwish.Grammar
open OsLabs.Iwish.ParserSpec
open OsLabs.Iwish.PipelineSpec
open OsLabs.Iwish.Reader
open OsLabs.Iwish.Shell

section

variable {fails : FailurePlan} {sentence : List CString} {fuel index : Nat}
  {heap heap' : Heap}

/-! ## The parser -/

@[simp] theorem freeSimpleCommandList_calls (list : SimpleCommandList)
    (heap : Heap) : (freeSimpleCommandList list heap).calls = heap.calls := by
  induction list with
  | nil => rfl
  | cons node next ih => simpa [freeSimpleCommandList] using ih

theorem freeSimpleList_calls (list : Option SimpleList) (heap : Heap) :
    (freeSimpleList list heap).calls = heap.calls := by
  cases list with
  | none => rfl
  | some list => simp [freeSimpleList]

theorem makeNewSimpleCommandElementList_counts {list : SimpleCommandElementList}
    (h : makeNewSimpleCommandElementList fails heap = (list, heap')) :
    heap.calls ≤ heap'.calls := by
  have hcalls := Heap.malloc_calls fails heap
  unfold makeNewSimpleCommandElementList at h
  rcases hnew : heap.malloc fails with ⟨_ | block, heap₁⟩
  all_goals
    rw [hnew] at h hcalls
    cases h
    exact Nat.le_of_lt (Nat.lt_of_succ_le (Nat.le_of_eq hcalls.symm))

theorem makeNewSimpleCommandList_counts {list : SimpleCommandList}
    (h : makeNewSimpleCommandList fails heap = (list, heap')) :
    heap.calls ≤ heap'.calls := by
  have hcalls := Heap.malloc_calls fails heap
  unfold makeNewSimpleCommandList at h
  rcases hnew : heap.malloc fails with ⟨_ | block, heap₁⟩
  · rw [hnew] at h hcalls
    cases h
    exact Nat.le_of_lt (Nat.lt_of_succ_le (Nat.le_of_eq hcalls.symm))
  · rw [hnew] at h hcalls
    rcases hlist : makeNewSimpleCommandElementList fails heap₁ with
      ⟨_ | ⟨node, next⟩, heap₂⟩
    all_goals
      have hmore := makeNewSimpleCommandElementList_counts hlist
      simp only [hlist] at h hcalls
      cases h
      omega

theorem makeNewSimpleList_counts {list : Option SimpleList}
    (h : makeNewSimpleList fails heap = (list, heap')) :
    heap.calls ≤ heap'.calls := by
  have hcalls := Heap.malloc_calls fails heap
  unfold makeNewSimpleList at h
  rcases hnew : heap.malloc fails with ⟨_ | block, heap₁⟩
  · rw [hnew] at h hcalls
    cases h
    exact Nat.le_of_lt (Nat.lt_of_succ_le (Nat.le_of_eq hcalls.symm))
  · rw [hnew] at h hcalls
    rcases hlist : makeNewSimpleCommandList fails heap₁ with
      ⟨_ | ⟨node, next⟩, heap₂⟩
    all_goals
      have hmore := makeNewSimpleCommandList_counts hlist
      simp only [hlist] at h hcalls
      cases h
      omega

theorem makeNewRedirection_calls (fails : FailurePlan) (heap : Heap) :
    (makeNewRedirection fails heap).2.calls = heap.calls + 1 := by
  have hcalls := Heap.malloc_calls fails heap
  unfold makeNewRedirection
  rcases hnew : heap.malloc fails with ⟨_ | block, heap₁⟩
  all_goals
    rw [hnew] at hcalls
    exact hcalls

theorem parseSimpleCommandElement_counts {element : SimpleCommandElement}
    {parsed : Parsed SimpleCommandElement}
    (h : parseSimpleCommandElement fails sentence index element heap =
      .ok parsed) : heap.calls ≤ parsed.heap.calls := by
  unfold parseSimpleCommandElement at h
  obtain ⟨_ | token, -, h⟩ := except_bind_eq_ok.mp h
  · cases h
    exact Nat.le_refl _
  · obtain ⟨⟨_ | _, next⟩, -, h⟩ := except_bind_eq_ok.mp h
    · have hmore : heap.calls ≤ (makeNewRedirection fails heap).2.calls := by
        rw [makeNewRedirection_calls]
        exact Nat.le_succ _
      obtain ⟨⟨_ | _, next', redirection⟩, -, h⟩ := except_bind_eq_ok.mp h
      · cases h
        rw [freeRedirection_calls]
        exact hmore
      · cases h
        exact hmore
    · cases h
      exact Nat.le_refl _

theorem parseSimpleCommand_counts {list : SimpleCommandElementList}
    {parsed : Parsed SimpleCommandElementList}
    (h : parseSimpleCommand fails sentence fuel index list heap =
      .ok parsed) : heap.calls ≤ parsed.heap.calls := by
  induction fuel generalizing index list heap parsed with
  | zero => cases h
  | succ fuel ih =>
      cases parseSimpleCommand_returns h with
      | atEnd hread => exact Nat.le_refl _
      | noElement hread helement hok =>
          exact parseSimpleCommandElement_counts helement
      | refused hread helement hok hnew =>
          exact (parseSimpleCommandElement_counts helement).trans
            (makeNewSimpleCommandElementList_counts hnew)
      | accepted hread helement hok hnew hrest =>
          have hmore := ((parseSimpleCommandElement_counts helement).trans
            (makeNewSimpleCommandElementList_counts hnew)).trans (ih hrest)
          split
          · exact hmore
          · rw [freeSimpleCommandElementList_calls]
            exact hmore

theorem parsePipeLine2_counts
    {parse : Nat → SimpleCommandList → Heap →
      Except Fault (Parsed SimpleCommandList)}
    (hparse : ∀ {index : Nat} {list : SimpleCommandList} {heap : Heap}
      {parsed : Parsed SimpleCommandList},
      parse index list heap = .ok parsed → heap.calls ≤ parsed.heap.calls)
    {previous : SimpleCommandList} {parsed : Parsed SimpleCommandList}
    (h : parsePipeLine2 fails sentence parse index previous heap =
      .ok parsed) : heap.calls ≤ parsed.heap.calls := by
  cases parsePipeLine2_returns h with
  | noBar => exact Nat.le_refl _
  | refused hread hnew => exact makeNewSimpleCommandList_counts hnew
  | failed hread hnew hinside =>
      have hmore := hparse hinside
      rw [freeSimpleCommandList_calls]
      exact (makeNewSimpleCommandList_counts hnew).trans hmore
  | continued hread hnew hinside =>
      have hmore := hparse hinside
      exact (makeNewSimpleCommandList_counts hnew).trans hmore

theorem parsePipeLine_counts {list : SimpleCommandList}
    {parsed : Parsed SimpleCommandList}
    (h : parsePipeLine fails sentence fuel index list heap = .ok parsed) :
    heap.calls ≤ parsed.heap.calls := by
  induction fuel generalizing index list heap parsed with
  | zero => cases h
  | succ fuel ih =>
      cases parsePipeLine_returns h with
      | noWord hread hword => exact Nat.le_refl _
      | noCommand hread hword hcommand hok =>
          exact parseSimpleCommand_counts hcommand
      | accepted hread hword hcommand hok hrest =>
          have hmore := parsePipeLine2_counts ih hrest
          exact (parseSimpleCommand_counts hcommand).trans hmore

theorem parseInput_counts {list list' : SimpleList} {accepted : Bool}
    (h : parseInput fails sentence list heap =
      .ok (accepted, list', heap')) : heap.calls ≤ heap'.calls := by
  unfold parseInput at h
  obtain ⟨_ | token, -, h⟩ := except_bind_eq_ok.mp h
  · cases h
    exact Nat.le_refl _
  · obtain ⟨parsed, hpipeline, h⟩ := except_bind_eq_ok.mp h
    have hmore := parsePipeLine_counts hpipeline
    split at h
    · obtain ⟨next, -, h⟩ := except_bind_eq_ok.mp h
      split at h
      all_goals
        obtain ⟨last, -, h⟩ := except_bind_eq_ok.mp h
        cases h
        exact hmore
    · cases h
      exact hmore

theorem interpretInputList_counts {list : Option SimpleList}
    (h : interpretInputList fails sentence heap = .ok (list, heap')) :
    heap.calls ≤ heap'.calls := by
  unfold interpretInputList at h
  rcases hnew : makeNewSimpleList fails heap with ⟨_ | list₀, heap₁⟩
  · simp only [hnew] at h
    obtain ⟨_ | token, -, h⟩ := except_bind_eq_ok.mp h
    · cases h
      exact makeNewSimpleList_counts hnew
    · cases h
  · simp only [hnew] at h
    obtain ⟨⟨accepted, list₁, heap₂⟩, hparse, h⟩ := except_bind_eq_ok.mp h
    have hmore := (makeNewSimpleList_counts hnew).trans
      (parseInput_counts hparse)
    cases accepted with
    | false =>
        cases h
        rw [freeSimpleList_calls]
        exact hmore
    | true =>
        cases h
        exact hmore

/-! ## The arrays -/

theorem makeNewDynamicByteArray_counts {β : Type} {typeSize : Nat}
    {arr : Option (DynamicByteArray β)}
    (h : makeNewDynamicByteArray fails typeSize heap = (arr, heap')) :
    heap.calls < heap'.calls := by
  have hcalls := Heap.malloc_calls fails heap
  unfold makeNewDynamicByteArray at h
  rcases hfirst : heap.malloc fails with ⟨_ | block, heap₁⟩
  · rw [hfirst] at h hcalls
    cases h
    exact Nat.lt_of_succ_le (Nat.le_of_eq hcalls.symm)
  · have hcalls₁ := Heap.malloc_calls fails heap₁
    rw [hfirst] at h hcalls
    rcases hsecond : heap₁.malloc fails with ⟨_ | elements, heap₂⟩
    all_goals
      rw [hsecond] at hcalls₁
      simp only [hsecond] at h hcalls hcalls₁
      cases h
    · rw [Heap.free_calls]
      omega
    · omega

theorem addElemToArr_counts {β : Type} {status : Int}
    {arr arr' : DynamicByteArray β} {bytestring : List β}
    (h : addElemToArr fails arr bytestring heap =
      .ok (status, arr', heap')) : heap.calls ≤ heap'.calls := by
  have hresize : heap.calls ≤
      (resizeArr fails arr (2 * arr.capacity) heap).2.2.calls := by
    unfold resizeArr Heap.realloc
    cases fails heap.calls <;> exact Nat.le_succ _
  unfold addElemToArr at h
  by_cases hfull : arr.nrOfElements = arr.capacity
  · simp only [if_pos hfull] at h
    split at h
    · cases h
      exact hresize
    · obtain ⟨elements, -, h⟩ := except_bind_eq_ok.mp h
      cases h
      exact hresize
  · simp only [if_neg hfull, Int.lt_irrefl, if_false] at h
    obtain ⟨elements, -, h⟩ := except_bind_eq_ok.mp h
    cases h
    exact Nat.le_refl _

/-! ## A line -/

theorem append_counts {r r' : Reading} {c : UInt8}
    (h : r.append fails c = .ok r') : r.heap.calls ≤ r'.heap.calls := by
  obtain ⟨⟨status, string, heap⟩, hadd, h⟩ := except_bind_eq_ok.mp h
  cases h
  exact addElemToArr_counts hadd

theorem readLoop_counts {r r' : Reading}
    (h : readLoop fails fuel r = .ok r') : r.heap.calls ≤ r'.heap.calls := by
  induction fuel generalizing r with
  | zero => cases h
  | succ fuel ih =>
      unfold readLoop at h
      simp only at h
      split at h
      · cases h
        exact Nat.le_refl _
      · split at h
        · split at h
          · obtain ⟨r₁, h₁, h⟩ := except_bind_eq_ok.mp h
            obtain ⟨r₂, h₂, h⟩ := except_bind_eq_ok.mp h
            obtain ⟨r₃, h₃, h⟩ := except_bind_eq_ok.mp h
            exact (((append_counts h₁).trans (append_counts h₂)).trans
              (append_counts h₃)).trans (ih h)
          · have hmore := ih h
            exact hmore
        · obtain ⟨r₁, h₁, h⟩ := except_bind_eq_ok.mp h
          exact (append_counts h₁).trans (ih h)

theorem readInput_counts {stdin rest : List UInt8}
    {input : Option (Block UInt8)}
    (h : readInput fails fuel stdin heap = .ok (input, rest, heap')) :
    heap.calls < heap'.calls := by
  unfold readInput at h
  rcases hnew : makeNewDynamicByteArray (β := UInt8) fails 1 heap with
    ⟨_ | string, heap₁⟩
  · rw [hnew] at h
    cases h
    exact makeNewDynamicByteArray_counts hnew
  · rw [hnew] at h
    obtain ⟨r, hloop, h⟩ := except_bind_eq_ok.mp h
    obtain ⟨r', happend, h⟩ := except_bind_eq_ok.mp h
    cases h
    exact (makeNewDynamicByteArray_counts hnew).trans_le
      ((readLoop_counts hloop).trans (append_counts happend))

theorem tokeniseLoop_counts {token : Option Nat}
    {input input' : List (Option UInt8)} {saved : Nat}
    {arr : DynamicByteArray (PointerByte Nat)} {strings : Option Strings}
    (h : tokeniseLoop fails fuel token input saved arr heap =
      .ok (strings, input', heap')) : heap.calls ≤ heap'.calls := by
  induction fuel generalizing token input saved arr heap with
  | zero => cases h
  | succ fuel ih =>
      unfold tokeniseLoop at h
      obtain ⟨⟨status, arr₁, heap₁⟩, hadd, h⟩ := except_bind_eq_ok.mp h
      have hmore := addElemToArr_counts hadd
      simp only at h
      split at h
      · cases h
        exact hmore
      · cases token with
        | none =>
            cases h
            exact hmore
        | some offset =>
            obtain ⟨⟨next, input₁, saved₁⟩, -, h⟩ := except_bind_eq_ok.mp h
            exact hmore.trans (ih h)

theorem tokenise_counts {input input' : Block UInt8}
    {strings : Option Strings}
    (h : tokenise fails input heap = .ok (strings, input', heap')) :
    heap.calls ≤ heap'.calls := by
  unfold tokenise at h
  rcases hnew : makeNewDynamicByteArray (β := PointerByte Nat) fails
    pointerSize heap with ⟨_ | arr, heap₁⟩
  · rw [hnew] at h
    cases h
    exact Nat.le_of_lt (makeNewDynamicByteArray_counts hnew)
  · rw [hnew] at h
    obtain ⟨⟨token, cells, saved⟩, -, h⟩ := except_bind_eq_ok.mp h
    obtain ⟨⟨strings', cells', heap₂⟩, hloop, h⟩ := except_bind_eq_ok.mp h
    cases h
    exact (Nat.le_of_lt (makeNewDynamicByteArray_counts hnew)).trans
      (tokeniseLoop_counts hloop)

/-- The body of the loop of `main` makes a request. -/
theorem nextLine_counts {stdin rest : List UInt8} {outcome : LineOutcome}
    (h : nextLine fails fuel stdin heap = .ok (outcome, rest, heap')) :
    heap.calls < heap'.calls := by
  unfold nextLine at h
  obtain ⟨⟨_ | input, stdin₁, heap₁⟩, hread, h⟩ := except_bind_eq_ok.mp h
  · cases h
    exact readInput_counts hread
  · obtain ⟨⟨_ | strings, input', heap₂⟩, htokenise, h⟩ :=
      except_bind_eq_ok.mp h
    all_goals
      have hmore := (readInput_counts hread).trans_le
        (tokenise_counts htokenise)
    · cases h
      exact hmore
    · obtain ⟨sentence, -, h⟩ := except_bind_eq_ok.mp h
      split at h
      · cases h
        exact hmore
      · obtain ⟨⟨_ | list, heap₃⟩, hlist, h⟩ := except_bind_eq_ok.mp h
        all_goals
          have hlast := hmore.trans_le (interpretInputList_counts hlist)
          cases h
          exact hlast

end

end OsLabs.Iwish.Requests
