import Mathlib.Algebra.Order.Group.Multiset
import Mathlib.Tactic.Abel
import OsLabs.Posix.Ledger
import OsLabs.Iwish.ParserCorrect

/-!
# Who owns the nodes of the parse tree

The parser requests nodes before it knows whether it needs them, and gives
back those it does not at three levels.  Each parse function is specified by
the blocks of the node it was to fill: what it hands back owns exactly the
blocks that are live, whether it succeeded or not.  `parseInput_owns` puts
this together for the whole tree.
-/

namespace OsLabs.Iwish.Ownership

open OsLabs.Posix
open OsLabs.Iwish.ParserTokens
open OsLabs.Iwish.Parser
open OsLabs.Iwish.Grammar
open OsLabs.Iwish.ParserSpec
open OsLabs.Iwish.PipelineSpec
open OsLabs.Iwish.ParserOutcome
open OsLabs.Iwish.ParserCorrect

/-! ## The blocks of a tree -/

/-- The block of a redirection. -/
def redirectionBlocks : Option Redirection → Multiset Nat
  | none => 0
  | some redirection => {redirection.block}

/-- The blocks that an element list reaches, each as often as there are paths
to it. -/
def elementListBlocks : SimpleCommandElementList → Multiset Nat
  | [] => 0
  | node :: next =>
    {node.block} + redirectionBlocks node.element.redirectionPointer +
      elementListBlocks next

/-- The blocks that a command list reaches. -/
def commandListBlocks : SimpleCommandList → Multiset Nat
  | [] => 0
  | node :: next =>
    {node.block} + elementListBlocks node.simpleCommand.elementList +
      commandListBlocks next

/-- The blocks that a `Simple_List` reaches. -/
def treeBlocks (list : SimpleList) : Multiset Nat :=
  {list.block} + commandListBlocks list.pipeline.simpleCommandList

section

variable {start heap heap' : Heap} {blocks : Multiset Nat}
  {sentence : List CString} {index : Nat}

/-! ## The destructors -/

theorem freeRedirection_owns (redirection : Option Redirection)
    (h : start.Owns heap (redirectionBlocks redirection + blocks)) :
    start.Owns (freeRedirection redirection heap) blocks := by
  cases redirection with
  | none => exact h.of_eq (zero_add blocks)
  | some redirection => exact h.free

theorem freeSimpleCommandElementList_owns (list : SimpleCommandElementList)
    (h : start.Owns heap (elementListBlocks list + blocks)) :
    start.Owns (freeSimpleCommandElementList list heap) blocks := by
  induction list generalizing blocks with
  | nil => exact h.of_eq (zero_add blocks)
  | cons node next ih =>
      apply Heap.Owns.free
      apply freeRedirection_owns
      apply ih
      apply h.of_eq
      rw [elementListBlocks]
      abel

theorem freeSimpleCommandList_owns (list : SimpleCommandList)
    (h : start.Owns heap (commandListBlocks list + blocks)) :
    start.Owns (freeSimpleCommandList list heap) blocks := by
  induction list generalizing blocks with
  | nil => exact h.of_eq (zero_add blocks)
  | cons node next ih =>
      apply Heap.Owns.free
      apply freeSimpleCommandElementList_owns
      apply ih
      apply h.of_eq
      rw [commandListBlocks]
      abel

/-- **`freeSimpleList` releases the tree and nothing else.** -/
theorem freeSimpleList_owns (list : SimpleList)
    (h : start.Owns heap (treeBlocks list + blocks)) :
    start.Owns (freeSimpleList (some list) heap) blocks := by
  apply Heap.Owns.free
  apply freeSimpleCommandList_owns
  apply h.of_eq
  rw [treeBlocks]
  abel

/-- A list of blocks released one after the other, the last one first. -/
def Releases (heap heap' : Heap) (blocks : Multiset Nat) : Prop :=
  ∃ freed : List Nat, heap'.ledger = freed.map .free ++ heap.ledger ∧
    (freed : Multiset Nat) = blocks

theorem Releases.refl (heap : Heap) : Releases heap heap 0 :=
  ⟨[], rfl, rfl⟩

theorem Releases.free (h : Releases heap heap' blocks) (block : Nat) :
    Releases heap (heap'.free block) ({block} + blocks) := by
  obtain ⟨freed, hledger, rfl⟩ := h
  refine ⟨block :: freed, ?_, ?_⟩
  · show _ :: heap'.ledger = _
    rw [hledger]
    rfl
  · rw [← Multiset.cons_coe, Multiset.singleton_add]

theorem freeRedirection_releases (h : Releases heap heap' blocks)
    (redirection : Option Redirection) :
    Releases heap (freeRedirection redirection heap')
      (redirectionBlocks redirection + blocks) := by
  cases redirection with
  | none =>
      rw [redirectionBlocks, zero_add]
      exact h
  | some redirection => exact h.free redirection.block

theorem freeSimpleCommandElementList_releases
    (h : Releases heap heap' blocks) (list : SimpleCommandElementList) :
    Releases heap (freeSimpleCommandElementList list heap')
      (elementListBlocks list + blocks) := by
  induction list with
  | nil =>
      rw [elementListBlocks, zero_add]
      exact h
  | cons node next ih =>
      rw [elementListBlocks, add_assoc, add_assoc]
      exact (freeRedirection_releases ih _).free node.block

theorem freeSimpleCommandList_releases (h : Releases heap heap' blocks)
    (list : SimpleCommandList) :
    Releases heap (freeSimpleCommandList list heap')
      (commandListBlocks list + blocks) := by
  induction list with
  | nil =>
      rw [commandListBlocks, zero_add]
      exact h
  | cons node next ih =>
      rw [commandListBlocks, add_assoc, add_assoc]
      exact (freeSimpleCommandElementList_releases ih _).free node.block

/-- `freeSimpleList` releases a block once for every path to it. -/
theorem freeSimpleList_releases (list : SimpleList) (heap : Heap) :
    Releases heap (freeSimpleList (some list) heap) (treeBlocks list) := by
  have hcommands := freeSimpleCommandList_releases (Releases.refl heap)
    list.pipeline.simpleCommandList
  rw [add_zero] at hcommands
  exact hcommands.free list.block

/-! ## The constructors -/

theorem makeNewSimpleCommandElementList_owns (h : start.Owns heap blocks) :
    ∃ block heap', makeNewSimpleCommandElementList noFailures heap =
        ([⟨block, uninitialisedElement⟩], heap') ∧
      start.Owns heap' ({block} + blocks) :=
  ⟨_, _, rfl, h.grant⟩

theorem makeNewSimpleCommandList_owns (h : start.Owns heap blocks) :
    ∃ block elementBlock heap', makeNewSimpleCommandList noFailures heap =
        (freshCommandList block elementBlock, heap') ∧
      start.Owns heap'
        (commandListBlocks (freshCommandList block elementBlock) +
          blocks) := by
  refine ⟨_, _, _, rfl, h.grant.grant.of_eq ?_⟩
  simp only [commandListBlocks, freshCommandList, elementListBlocks,
    uninitialisedElement, redirectionBlocks]
  abel

theorem makeNewSimpleList_owns (h : start.Owns heap blocks) :
    ∃ list heap', makeNewSimpleList noFailures heap = (some list, heap') ∧
      start.Owns heap' (treeBlocks list + blocks) ∧
      ∃ block elementBlock, list.pipeline.simpleCommandList =
        freshCommandList block elementBlock := by
  refine ⟨_, _, rfl, h.grant.grant.grant.of_eq ?_, _, _, rfl⟩
  simp only [treeBlocks, commandListBlocks, elementListBlocks,
    uninitialisedElement, redirectionBlocks]
  abel

/-! ## The parser -/

/-- `parseRedirection` fills the node it is given. -/
theorem parseRedirection_block {redirection : Redirection}
    {result : Option Redirection} {ok : Bool} {next : Nat}
    (h : parseRedirection sentence index (some redirection) =
      .ok (ok, next, result)) :
    redirectionBlocks result = {redirection.block} := by
  have hword : ∀ flag, parseRedirectionWord sentence index (some redirection)
      flag = .ok (ok, next, result) →
      redirectionBlocks result = {redirection.block} := by
    intro flag hword
    unfold parseRedirectionWord at hword
    obtain ⟨⟨_ | _, next'⟩, -, hrest⟩ := except_bind_eq_ok.mp hword
    · cases hrest
      rfl
    · obtain ⟨word, -, hrest⟩ := except_bind_eq_ok.mp hrest
      cases hrest
      rfl
  unfold parseRedirection at h
  obtain ⟨_ | token, -, h⟩ := except_bind_eq_ok.mp h
  · cases h
    rfl
  · simp only at h
    split at h
    · exact hword 1 h
    · split at h
      · exact hword 0 h
      · cases h
        rfl

/-- An element owns the redirection it has asked for; a failed attempt gives
it back. -/
theorem parseSimpleCommandElement_owns {element : SimpleCommandElement}
    {parsed : Parsed SimpleCommandElement}
    (hfresh : element.redirectionPointer = none)
    (h : start.Owns heap blocks)
    (hparse : parseSimpleCommandElement noFailures sentence index element
      heap = .ok parsed) :
    start.Owns parsed.heap
      (redirectionBlocks parsed.node.redirectionPointer + blocks) := by
  unfold parseSimpleCommandElement at hparse
  obtain ⟨_ | token, -, hparse⟩ := except_bind_eq_ok.mp hparse
  · cases hparse
    rw [hfresh]
    exact h.of_eq (zero_add blocks).symm
  · obtain ⟨⟨_ | _, next⟩, -, hparse⟩ := except_bind_eq_ok.mp hparse
    · obtain ⟨⟨_ | _, next', redirection⟩, hredirection, hparse⟩ :=
        except_bind_eq_ok.mp hparse
      · cases hparse
        have hblock := parseRedirection_block hredirection
        show start.Owns (freeRedirection redirection _) (0 + blocks)
        rw [zero_add]
        apply freeRedirection_owns
        rw [hblock]
        exact h.grant
      · cases hparse
        have hblock := parseRedirection_block hredirection
        show start.Owns _ (redirectionBlocks redirection + blocks)
        rw [hblock]
        exact h.grant
    · cases hparse
      exact h.of_eq (zero_add blocks).symm

/-- The elements of a command, each with its redirection; the node that was
requested for one element too many is given back. -/
theorem parseSimpleCommand_owns {fuel : Nat}
    {node : SimpleCommandElementNode}
    {parsed : Parsed SimpleCommandElementList}
    (hfresh : node.element.redirectionPointer = none)
    (h : start.Owns heap ({node.block} + blocks))
    (hparse : parseSimpleCommand noFailures sentence fuel index [node] heap =
      .ok parsed) :
    start.Owns parsed.heap (elementListBlocks parsed.node + blocks) := by
  have hsame : elementListBlocks [node] = {node.block} := by
    rw [elementListBlocks, hfresh]
    rfl
  induction fuel generalizing index node heap blocks parsed with
  | zero => cases hparse
  | succ fuel ih =>
      -- the node with what the element parser has made of it
      have hnode : ∀ element : SimpleCommandElement,
          elementListBlocks [{ node with element := element }] =
            {node.block} + redirectionBlocks element.redirectionPointer := by
        intro element
        rw [elementListBlocks, elementListBlocks, add_zero]
      cases parseSimpleCommand_returns hparse with
      | atEnd =>
          rw [hsame]
          exact h
      | noElement hread helement =>
          apply (parseSimpleCommandElement_owns hfresh h helement).of_eq
          rw [hnode]
          abel
      | refused hread helement hok hnew => cases hnew
      | accepted hread helement hok hnew hrest =>
          have helementOwns := parseSimpleCommandElement_owns hfresh h helement
          obtain ⟨block, heap₁, hchild, hchildOwns⟩ :=
            makeNewSimpleCommandElementList_owns helementOwns
          cases hnew.symm.trans hchild
          have hrestOwns := ih rfl hchildOwns hrest rfl
          split
          · apply hrestOwns.of_eq
            rw [elementListBlocks]
            abel
          · apply (freeSimpleCommandElementList_owns _ hrestOwns).of_eq
            rw [hnode]
            abel

/-- What `parsePipeLine` does for `parsePipeLine2`. -/
def PipelineOwns (start : Heap)
    (parsePipeLine : Nat → SimpleCommandList → Heap →
      Except Fault (Parsed SimpleCommandList)) : Prop :=
  ∀ {index block elementBlock : Nat} {heap : Heap} {blocks : Multiset Nat}
    {parsed : Parsed SimpleCommandList},
    start.Owns heap
      (commandListBlocks (freshCommandList block elementBlock) + blocks) →
    parsePipeLine index (freshCommandList block elementBlock) heap =
      .ok parsed →
    start.Owns parsed.heap (commandListBlocks parsed.node + blocks)

/-- The rest of a pipeline is kept whole, or given back whole. -/
theorem parsePipeLine2_owns
    {parsePipeLine : Nat → SimpleCommandList → Heap →
      Except Fault (Parsed SimpleCommandList)}
    (hpipeline : PipelineOwns start parsePipeLine)
    {node : SimpleCommandNode} {parsed : Parsed SimpleCommandList}
    (h : start.Owns heap (commandListBlocks [node] + blocks))
    (hparse : parsePipeLine2 noFailures sentence parsePipeLine index [node]
      heap = .ok parsed) :
    start.Owns parsed.heap (commandListBlocks parsed.node + blocks) := by
  cases parsePipeLine2_returns hparse with
  | noBar => exact h
  | refused hread hnew => cases hnew
  | failed hread hnew hinside =>
      obtain ⟨block, elementBlock, heap₁, hchild, hchildOwns⟩ :=
        makeNewSimpleCommandList_owns h
      cases hnew.symm.trans hchild
      exact freeSimpleCommandList_owns _ (hpipeline hchildOwns hinside)
  | continued hread hnew hinside =>
      obtain ⟨block, elementBlock, heap₁, hchild, hchildOwns⟩ :=
        makeNewSimpleCommandList_owns h
      cases hnew.symm.trans hchild
      apply (hpipeline hchildOwns hinside).of_eq
      simp only [commandListBlocks]
      abel

/-- **A pipeline owns the nodes of its commands**, however far it was read. -/
theorem parsePipeLine_owns (fuel : Nat) :
    PipelineOwns start (parsePipeLine noFailures sentence fuel) := by
  induction fuel with
  | zero =>
      intro index block elementBlock heap blocks parsed h hparse
      cases hparse
  | succ fuel ih =>
      intro index block elementBlock heap blocks parsed h hparse
      have hstart : start.Owns heap ({elementBlock} + ({block} + blocks)) := by
        apply h.of_eq
        simp only [commandListBlocks, freshCommandList, elementListBlocks,
          uninitialisedElement, redirectionBlocks]
        abel
      have hlist : ∀ {command : Parsed SimpleCommandElementList},
          parseSimpleCommand noFailures sentence (sentence.length + 1) index
            [⟨elementBlock, uninitialisedElement⟩] heap = .ok command →
          start.Owns command.heap
            (commandListBlocks [⟨block, ⟨command.node⟩⟩] + blocks) := by
        intro command hcommand
        apply (parseSimpleCommand_owns rfl hstart hcommand).of_eq
        simp only [commandListBlocks]
        abel
      cases parsePipeLine_returns hparse with
      | noWord => exact h
      | noCommand hread hword hcommand => exact hlist hcommand
      | accepted hread hword hcommand hok hrest =>
          have hrestOwns := parsePipeLine2_owns ih (hlist hcommand) hrest
          exact hrestOwns

/-- **`parseInput` loses no block**, whether the array is accepted or not. -/
theorem parseInput_owns_tree {list list' : SimpleList} {accepted : Bool}
    {block elementBlock : Nat}
    (hfresh : list.pipeline.simpleCommandList =
      freshCommandList block elementBlock)
    (h : start.Owns heap (treeBlocks list + blocks))
    (hparse : parseInput noFailures sentence list heap =
      .ok (accepted, list', heap')) :
    start.Owns heap' (treeBlocks list' + blocks) := by
  unfold parseInput at hparse
  obtain ⟨_ | token, -, hparse⟩ := except_bind_eq_ok.mp hparse
  · cases hparse
    exact h
  · obtain ⟨parsed, hpipeline, hparse⟩ := except_bind_eq_ok.mp hparse
    have hstart : start.Owns heap
        (commandListBlocks (freshCommandList block elementBlock) +
          ({list.block} + blocks)) := by
      apply h.of_eq
      rw [treeBlocks, hfresh]
      abel
    rw [hfresh] at hpipeline
    have hparsed : start.Owns parsed.heap
        ({list.block} + commandListBlocks parsed.node + blocks) := by
      apply (parsePipeLine_owns _ hstart hpipeline).of_eq
      abel
    split at hparse
    · obtain ⟨next, -, hparse⟩ := except_bind_eq_ok.mp hparse
      split at hparse
      · obtain ⟨last, -, hparse⟩ := except_bind_eq_ok.mp hparse
        cases hparse
        exact hparsed
      · obtain ⟨last, -, hparse⟩ := except_bind_eq_ok.mp hparse
        cases hparse
        exact hparsed
    · cases hparse
      exact hparsed

/-- **The parse tree owns what the parse has left live.**  Whatever the array
and whether it is accepted: the blocks that are live are those the tree
reaches, each on one path.  `freeSimpleList` then releases each of them once
and nothing else, and nothing is left. -/
theorem parseInput_owns (sentence : List CString) (heap₀ : Heap) :
    ∃ list heap accepted list' heap' events,
      makeNewSimpleList noFailures heap₀ = (some list, heap) ∧
      parseInput noFailures sentence list heap =
        .ok (accepted, list', heap') ∧
      heap'.ledger = events ++ heap₀.ledger ∧
      (treeBlocks list').Nodup ∧
      (∀ block, block ∈ treeBlocks list' ↔
        .alloc block ∈ events ∧ .free block ∉ events) ∧
      (∃ freed : List Nat, (freeSimpleList (some list') heap').ledger =
          freed.map .free ++ heap'.ledger ∧
        (freed : Multiset Nat) = treeBlocks list') ∧
      heap₀.FreedOnce (freeSimpleList (some list') heap') := by
  obtain ⟨list, heap, hnew, hlist, block, elementBlock, hfresh⟩ :=
    makeNewSimpleList_owns (Heap.Owns.refl heap₀)
  obtain ⟨accepted, list', heap', hparse, -, -⟩ :=
    parseInput_decides sentence hnew
  have htree := parseInput_owns_tree hfresh hlist hparse
  have hfreed := (freeSimpleList_owns list' htree).freedOnce_iff.mpr rfl
  rw [add_zero] at htree
  obtain ⟨events, hledger, hrecorded⟩ := htree
  exact ⟨list, heap, accepted, list', heap', events, hnew, hparse, hledger,
    hrecorded.nodup, hrecorded.mem_iff, freeSimpleList_releases list' heap',
    hfreed⟩

end

end OsLabs.Iwish.Ownership
