import OsLabs.Iwish.ParserOutcome
import OsLabs.Iwish.ParserFaults

/-!
# Correctness of the parser

* `parseInput_accepts_iff_derivesList` — with every request granted,
  `parseInput` recognises exactly the grammar.
* `parseInput_flatten_inverse` — on the accepted arrays and the well-formed
  trees, parsing and printing are inverse to each other.
* `parseInput_complete_iff` — with requests refused, an accepted array is
  fully represented in the tree unless `LosesTokens` holds, and then it is not.
-/

namespace OsLabs.Iwish.ParserCorrect

open OsLabs.Posix
open OsLabs.Iwish.ParserTokens
open OsLabs.Iwish.Parser
open OsLabs.Iwish.Grammar
open OsLabs.Iwish.ParserSpec
open OsLabs.Iwish.PipelineSpec
open OsLabs.Iwish.ParserFaults
open OsLabs.Iwish.ParseTree
open OsLabs.Iwish.ParserOutcome

/-! ## The accepted language -/

/-- The `Simple_List` a process without other blocks gets. -/
def freshList : SimpleList := ⟨0, ⟨freshCommandList 1 2⟩, 0⟩

def freshHeap : Heap := ⟨3, [.alloc 2, .alloc 1, .alloc 0]⟩

theorem makeNewSimpleList_noFailures (heap : Heap) :
    ∃ list heap', makeNewSimpleList noFailures heap = (some list, heap') :=
  ⟨_, _, rfl⟩

/-- `parseInput` returns on every array; it accepts the sentences and nothing
else, and the tree of a sentence prints as the sentence. -/
theorem parseInput_decides (sentence : List CString) {heap₀ heap : Heap}
    {list : SimpleList}
    (hnew : makeNewSimpleList noFailures heap₀ = (some list, heap)) :
    ∃ accepted list' heap', parseInput noFailures sentence list heap =
        .ok (accepted, list', heap') ∧
      (accepted = true ↔ DerivesList sentence) ∧
      (accepted = true → flattenSimpleList list' = sentence ∧
        Initialised list') := by
  obtain ⟨⟨block, elementBlock, hfresh⟩, -⟩ := makeNewSimpleList_fresh hnew
  obtain ⟨⟨accepted, list', heap'⟩, hparse⟩ :=
    parseInput_returns sentence heap hfresh
  refine ⟨accepted, list', heap', hparse, ?_, ?_⟩
  · rw [derivesList_iff]
    constructor
    · rintro rfl
      exact parseInput_sound hparse
    · rintro ⟨line, rfl⟩
      obtain ⟨list'', heap'', haccept, -⟩ := parseInput_noFailures line hnew
      rw [hparse] at haccept
      cases haccept
      rfl
  · rintro rfl
    obtain ⟨line, rfl⟩ := parseInput_sound hparse
    obtain ⟨list'', heap'', haccept, htree⟩ := parseInput_noFailures line hnew
    rw [hparse] at haccept
    cases haccept
    exact ⟨flattenSimpleList_of_erase htree, initialised_of_erase htree⟩

/-- **`parseInput` recognises the grammar.**  It returns on every array, and
it returns true on the sentences and on nothing else. -/
theorem parseInput_accepts_iff_derivesList (sentence : List CString)
    (heap₀ : Heap) :
    ∃ list heap accepted list' heap',
      makeNewSimpleList noFailures heap₀ = (some list, heap) ∧
      parseInput noFailures sentence list heap =
        .ok (accepted, list', heap') ∧
      (accepted = true ↔ DerivesList sentence) := by
  obtain ⟨list, heap, hnew⟩ := makeNewSimpleList_noFailures heap₀
  obtain ⟨accepted, list', heap', hparse, hiff, -⟩ :=
    parseInput_decides sentence hnew
  exact ⟨list, heap, accepted, list', heap', hnew, hparse, hiff⟩

/-! ## Printing and parsing -/

/-- An element over the word alphabet: a word, or a redirection to or from
one. -/
def ElementWellFormed (element : SimpleCommandElement) : Prop :=
  (element.isRedirection = 0 ∧ element.redirectionPointer = none ∧
      ∃ w, element.word = some w ∧ isWord w = true) ∨
    (element.isRedirection = 1 ∧ ∃ redirection isInput w,
      element.redirectionPointer = some redirection ∧
      redirection.isInputRedirection = some (directionFlag isInput) ∧
      redirection.word = some w ∧ isWord w = true)

/-- A command that starts with a word. -/
def CommandWellFormed (command : SimpleCommand) : Prop :=
  (∃ node rest, command.elementList = node :: rest ∧
      node.element.isRedirection = 0) ∧
    ∀ node ∈ command.elementList, ElementWellFormed node.element

/-- A non-empty list of such commands, and a flag that is 0 or 1. -/
structure WellFormed (list : SimpleList) : Prop where
  nonempty : list.pipeline.simpleCommandList ≠ []
  commands : ∀ node ∈ list.pipeline.simpleCommandList,
    CommandWellFormed node.simpleCommand
  flag : list.hasDaemonAmpersand = 0 ∨ list.hasDaemonAmpersand = 1

theorem ElementWellFormed.source {element : SimpleCommandElement}
    (h : ElementWellFormed element) :
    ∃ source : Element, eraseElement element = elementContent source := by
  obtain ⟨isRedirection, redirectionPointer, word⟩ := element
  rcases h with ⟨rfl, rfl, w, rfl, hw⟩ |
    ⟨rfl, redirection, isInput, w, rfl, hflag, hword, hw⟩
  · exact ⟨.word ⟨w, hw⟩, rfl⟩
  · refine ⟨.redirect isInput ⟨w, hw⟩, ?_⟩
    simp [eraseElement, elementContent, hflag, hword]

theorem elementNodes_of_wellFormed {nodes : SimpleCommandElementList}
    (h : ∀ node ∈ nodes, ElementWellFormed node.element) :
    ∃ elements, eraseElementList nodes = elementNodes elements := by
  induction nodes with
  | nil => exact ⟨[], rfl⟩
  | cons node nodes ih =>
      obtain ⟨element, helement⟩ := (h node (by simp)).source
      obtain ⟨elements, helements⟩ := ih fun n hn => h n (by simp [hn])
      refine ⟨element :: elements, ?_⟩
      simp only [eraseElementList, elementNodes, List.map_cons] at helements ⊢
      rw [helement, helements]

theorem CommandWellFormed.source {command : SimpleCommand}
    (h : CommandWellFormed command) : ∃ stage : Stage,
      eraseElementList command.elementList = elementNodes stage.elements := by
  obtain ⟨⟨node, rest, hlist, hword⟩, hall⟩ := h
  rw [hlist] at hall ⊢
  obtain ⟨elements, helements⟩ := elementNodes_of_wellFormed fun n hn =>
    hall n (List.mem_cons_of_mem node hn)
  rcases hall node List.mem_cons_self with ⟨-, hr, w, hw, hisWord⟩ | ⟨hr, -⟩
  · refine ⟨⟨⟨w, hisWord⟩, elements⟩, ?_⟩
    simp only [eraseElementList, elementNodes, Stage.elements,
      List.map_cons] at helements ⊢
    rw [helements]
    simp [eraseElement, elementContent, hr, hw, hword]
  · rw [hword] at hr
    cases hr

theorem stageNodes_of_wellFormed {nodes : SimpleCommandList}
    (h : ∀ node ∈ nodes, CommandWellFormed node.simpleCommand) :
    ∃ stages, eraseCommandList nodes = stageNodes stages := by
  induction nodes with
  | nil => exact ⟨[], rfl⟩
  | cons node nodes ih =>
      obtain ⟨stage, hstage⟩ := (h node (by simp)).source
      obtain ⟨stages, hstages⟩ := ih fun n hn => h n (by simp [hn])
      refine ⟨stage :: stages, ?_⟩
      simp only [eraseCommandList, stageNodes, List.map_cons] at hstages ⊢
      rw [hstage, hstages]

/-- A well-formed tree is a command line up to addresses. -/
theorem WellFormed.line {list : SimpleList} (h : WellFormed list) :
    ∃ line, eraseSimpleList list = lineTree line := by
  obtain ⟨stages, hstages⟩ := stageNodes_of_wellFormed h.commands
  cases stages with
  | nil =>
      have hlen := congrArg List.length hstages
      have hpos := List.length_pos_iff.mpr h.nonempty
      simp only [eraseCommandList, stageNodes, List.length_map,
        List.length_nil] at hlen
      omega
  | cons first others =>
      rcases h.flag with hflag | hflag
      · exact ⟨⟨first, others, false⟩, by
          simp [eraseSimpleList, lineTree, CommandLine.stages, hstages, hflag]⟩
      · exact ⟨⟨first, others, true⟩, by
          simp [eraseSimpleList, lineTree, CommandLine.stages, hstages, hflag]⟩

/-- **Parsing and printing are inverse.**  The tree of an accepted array
prints as that array and has every element initialised; the print of a
well-formed tree parses to the same tree, up to addresses. -/
theorem parseInput_flatten_inverse (heap₀ : Heap) {list : SimpleList}
    {heap : Heap}
    (hnew : makeNewSimpleList noFailures heap₀ = (some list, heap)) :
    (∀ sentence list' heap',
      parseInput noFailures sentence list heap = .ok (true, list', heap') →
      flattenSimpleList list' = sentence ∧ Initialised list') ∧
    (∀ tree, WellFormed tree → ∃ list' heap',
      parseInput noFailures (flattenSimpleList tree) list heap =
        .ok (true, list', heap') ∧
      eraseSimpleList list' = eraseSimpleList tree) := by
  constructor
  · intro sentence list' heap' hparse
    obtain ⟨accepted, list'', heap'', hdecides, -, htree⟩ :=
      parseInput_decides sentence hnew
    rw [hparse] at hdecides
    cases hdecides
    exact htree rfl
  · intro tree hwf
    obtain ⟨line, hline⟩ := hwf.line
    rw [flattenSimpleList_of_erase hline, hline]
    exact parseInput_noFailures line hnew

/-- `a < b &` and the tree of `a`. -/
theorem parseInput_flatten_inverse_redirected :
    (∃ list' heap', parseInput noFailures
        [tokenA, lessThan, tokenB, ampersand] freshList freshHeap =
          .ok (true, list', heap') ∧
      flattenSimpleList list' = [tokenA, lessThan, tokenB, ampersand] ∧
      Initialised list') ∧
    (∃ list' heap', parseInput noFailures [tokenA] freshList freshHeap =
        .ok (true, list', heap') ∧
      eraseSimpleList list' =
        ⟨0, ⟨[⟨0, ⟨[⟨0, ⟨0, none, some tokenA⟩⟩]⟩⟩]⟩, 0⟩) := by
  have hboth := parseInput_flatten_inverse Heap.empty
    (show makeNewSimpleList noFailures Heap.empty = (some freshList, freshHeap)
      from rfl)
  have htree : WellFormed
      ⟨7, ⟨[⟨5, ⟨[⟨6, ⟨0, none, some tokenA⟩⟩]⟩⟩]⟩, 0⟩ := by
    refine ⟨by simp, ?_, Or.inl rfl⟩
    intro node hnode
    obtain rfl := List.mem_singleton.mp hnode
    refine ⟨⟨_, _, rfl, rfl⟩, fun element helement => ?_⟩
    obtain rfl := List.mem_singleton.mp helement
    exact Or.inl ⟨rfl, rfl, tokenA, rfl, by decide⟩
  exact ⟨⟨_, _, rfl, hboth.1 _ _ _ rfl⟩, hboth.2 _ htree⟩

/-! ## Refused requests -/

/-- Reading the array as a command line, every request the parse cannot do
without is granted, and the one for the node after the last element of some
stage of several elements is refused. -/
def LosesTokens (fails : FailurePlan) (sentence : List CString)
    (calls : Nat) : Prop :=
  ∃ line : CommandLine, line.tokens = sentence ∧
    lineOutcome fails line calls = some true

/-- **Exactly when an accepted array is complete.** -/
theorem parseInput_complete_iff (fails : FailurePlan)
    (sentence : List CString) {list : SimpleList} {heap heap₀ : Heap}
    (hnew : makeNewSimpleList fails heap₀ = (some list, heap)) :
    (∀ list' heap',
      parseInput fails sentence list heap = .ok (true, list', heap') →
      flattenSimpleList list' = sentence) ↔
      ¬ LosesTokens fails sentence heap.calls := by
  constructor
  · rintro hcomplete ⟨line, rfl, hlost⟩
    have h := parseInput_outcome fails line hnew
    simp only [hlost, if_true] at h
    obtain ⟨list', heap', hparse, -, hlt⟩ := h
    rw [hcomplete list' heap' hparse] at hlt
    exact Nat.lt_irrefl _ hlt
  · intro hkeeps list' heap' hparse
    obtain ⟨line, rfl⟩ := parseInput_sound hparse
    have h := parseInput_outcome fails line hnew
    cases hlost : lineOutcome fails line heap.calls with
    | none =>
        simp only [hlost] at h
        exact absurd hparse (h list' heap')
    | some lost =>
        cases lost with
        | true => exact absurd ⟨line, rfl, hlost⟩ hkeeps
        | false =>
            simp only [hlost, Bool.false_eq_true, if_false] at h
            obtain ⟨list'', heap'', haccept, -, htree⟩ := h
            rw [hparse] at haccept
            cases haccept
            exact flattenSimpleList_of_erase htree

/-- `a b`, with the request for the node after `b` refused. -/
theorem parseInput_complete_iff_two_words :
    (∀ list' heap',
      parseInput (fun n => n == 4) [tokenA, tokenB] freshList freshHeap =
        .ok (true, list', heap') →
      flattenSimpleList list' = [tokenA, tokenB]) ↔
      ¬ LosesTokens (fun n => n == 4) [tokenA, tokenB] 3 :=
  parseInput_complete_iff (fun n => n == 4) [tokenA, tokenB]
    (show makeNewSimpleList (fun n => n == 4) Heap.empty =
      (some freshList, freshHeap) from rfl)

/-- `a b` is accepted as `a`: the refusal frees the node of `b` after `b` has
been read. -/
theorem parseInput_drops_last_argument :
    ∃ list heap list' heap',
      makeNewSimpleList (fun n => n == 4) Heap.empty = (some list, heap) ∧
      parseInput (fun n => n == 4) [tokenA, tokenB] list heap =
        .ok (true, list', heap') ∧
      flattenSimpleList list' ≠ [tokenA, tokenB] :=
  ⟨freshList, freshHeap, _, _, rfl, rfl, by decide⟩

end OsLabs.Iwish.ParserCorrect
