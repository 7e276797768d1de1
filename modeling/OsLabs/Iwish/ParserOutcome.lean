import OsLabs.Iwish.ParseTree
import OsLabs.Iwish.PipelineSpec

/-!
# Which requests decide a parse

The requests `parseInput` makes for a sentence come in a fixed order: for
every element a redirection node, if it is one, and a node for the element
after it; after the last element of a stage a redirection node for the token
that follows, if any; for every further stage two nodes.

`elementsOutcome` and `pipelineOutcome` read the result of the parse off the
refused requests alone, without a parser: `none` when the line is not
accepted, and otherwise whether elements are missing from the tree.  Refusing
the node *after* the last element of a stage of several elements is the one
refusal that goes unnoticed, and it takes that element with it.
-/

namespace OsLabs.Iwish.ParserOutcome

open OsLabs.Posix
open OsLabs.Iwish.ParserTokens
open OsLabs.Iwish.Parser
open OsLabs.Iwish.Grammar
open OsLabs.Iwish.ParserSpec
open OsLabs.Iwish.PipelineSpec
open OsLabs.Iwish.ParseTree

/-! ## The requests of a stage -/

/-- The request number after the one an element makes for itself, or `none`
if that one is refused. -/
def contentRequest (fails : FailurePlan) : Element → Nat → Option Nat
  | .word _, calls => some calls
  | .redirect _ _, calls => if fails calls then none else some (calls + 1)

/-- The outcome of the requests for `element :: elements` from request number
`calls` on: whether an element is lost, and the next request number.  `first`
marks the first element of the stage, `more` that a token follows it. -/
def elementsOutcome (fails : FailurePlan) (more : Bool) :
    Bool → Element → List Element → Nat → Option (Bool × Nat)
  | first, element, [], calls => do
    let calls ← contentRequest fails element calls
    if fails calls then
      if first then none else some (true, calls + 1)
    else some (false, if more then calls + 2 else calls + 1)
  | _, element, next :: elements, calls => do
    let calls ← contentRequest fails element calls
    if fails calls then none
    else elementsOutcome fails more false next elements (calls + 1)

/-- The outcome of the requests for a whole pipeline. -/
def pipelineOutcome (fails : FailurePlan) (more : Bool) :
    Stage → List Stage → Nat → Option Bool
  | stage, [], calls => do
    let (lost, _) ←
      elementsOutcome fails more true (.word stage.program) stage.arguments calls
    return lost
  | stage, next :: others, calls => do
    let (lost, calls) ←
      elementsOutcome fails true true (.word stage.program) stage.arguments calls
    if fails calls || fails (calls + 1) then none
    else
      let lostLater ← pipelineOutcome fails more next others (calls + 2)
      return lost || lostLater

/-! ## They decide what is built for a stage -/

theorem probe_calls (fails : FailurePlan) (more : Bool) (heap : Heap) :
    (probe fails more heap).calls =
      if more then heap.calls + 1 else heap.calls := by
  cases more with
  | false => rfl
  | true =>
      simp only [probe, makeNewRedirection, if_true]
      cases hmalloc : heap.malloc fails with
      | mk granted heap' =>
          have hcalls := heap.malloc_calls fails
          rw [hmalloc] at hcalls
          cases granted <;> simpa using hcalls

/-- A granted or refused request, by the plan. -/
theorem malloc_cases (fails : FailurePlan) (heap : Heap) :
    (fails heap.calls = true ∧ ∃ heap', heap.malloc fails = (none, heap') ∧
        heap'.calls = heap.calls + 1) ∨
      (fails heap.calls = false ∧ ∃ heap', heap.malloc fails =
        (some heap.calls, heap') ∧ heap'.calls = heap.calls + 1) := by
  by_cases h : fails heap.calls
  · exact Or.inl ⟨h, _, Heap.malloc_refused h, rfl⟩
  · rw [Bool.not_eq_true] at h
    exact Or.inr ⟨h, _, Heap.malloc_granted h, rfl⟩

theorem buildElement_outcome (fails : FailurePlan) (element : Element)
    (heap : Heap) :
    match contentRequest fails element heap.calls with
    | none => buildElement fails element heap = .error .nullDereference
    | some calls => ∃ content heap', heap'.calls = calls ∧
        eraseElement content = elementContent element ∧
        buildElement fails element heap = .ok (content, heap') := by
  cases element with
  | word w => exact ⟨_, heap, rfl, rfl, rfl⟩
  | redirect isInput w =>
      rcases malloc_cases fails heap with ⟨h, heap', hmalloc, hcalls⟩ |
        ⟨h, heap', hmalloc, hcalls⟩
      · simp [contentRequest, h, buildElement, hmalloc]
      · simp only [contentRequest, h, buildElement, hmalloc]
        exact ⟨_, heap', hcalls, rfl, rfl⟩

/-- How the result of `buildElements` on `element :: elements` is read off
the requests: a fault or unread elements mean that the line is not accepted, a
false result means the same for the first element and the loss of a later
one. -/
def ElementsBuilt.Decided (fails : FailurePlan) (more : Bool)
    (element : Element) (elements : List Element) (calls : Nat) :
    Except Fault ElementsBuilt → Prop
  | .error _ =>
    ∀ first, elementsOutcome fails more first element elements calls = none
  | .ok built =>
    if built.ok then
      if built.left = [] then
        ∃ lost, eraseElementList built.nodes = elementNodes
            (if lost then (element :: elements).dropLast
              else element :: elements) ∧
          ∀ first, elementsOutcome fails more first element elements calls =
            some (lost, built.heap.calls)
      else
        ∀ first, elementsOutcome fails more first element elements calls = none
    else
      built.left = elements ∧
        elementsOutcome fails more true element elements calls = none ∧
        elementsOutcome fails more false element elements calls =
          if elements = [] then some (true, built.heap.calls) else none

/-- An element whose node was granted, in front of elements that were
built. -/
theorem ElementsBuilt.Decided.cons {fails : FailurePlan} {more : Bool}
    {element next : Element} {elements : List Element} {calls calls₂ : Nat}
    {content : SimpleCommandElement} {block : Nat}
    {result : Except Fault ElementsBuilt}
    (h : ElementsBuilt.Decided fails more next elements calls₂ result)
    (herase : eraseElement content = elementContent element)
    (houtcome : ∀ first,
      elementsOutcome fails more first element (next :: elements) calls =
        elementsOutcome fails more false next elements calls₂) :
    ElementsBuilt.Decided fails more element (next :: elements) calls (do
      let sub ← result
      if sub.ok then
        return ⟨true, sub.left, ⟨block, content⟩ :: sub.nodes, sub.heap⟩
      else
        return ⟨true, sub.left, [⟨block, content⟩],
          freeSimpleCommandElementList sub.nodes sub.heap⟩) := by
  cases result with
  | error fault =>
      simp only [ElementsBuilt.Decided] at h
      simp [ElementsBuilt.Decided, houtcome, h]
  | ok sub =>
      simp only [ElementsBuilt.Decided] at h
      by_cases hok : sub.ok
      · by_cases hread : sub.left = []
        · simp only [hok, hread, if_true] at h
          obtain ⟨lost, hnodes, hlost⟩ := h
          simp only [ElementsBuilt.Decided, except_ok_bind, hok,
            except_pure, hread, if_true, houtcome]
          refine ⟨lost, ?_, fun first => hlost false⟩
          have hhead : eraseElementList (⟨block, content⟩ :: sub.nodes) =
              ⟨0, elementContent element⟩ :: eraseElementList sub.nodes := by
            simp [eraseElementList, herase]
          rw [hhead, hnodes]
          cases lost <;> rfl
        · simp only [hok, hread, if_true, if_false] at h
          simp [ElementsBuilt.Decided, hok, hread, houtcome, h]
      · simp only [hok] at h
        obtain ⟨hleft, -, hlost⟩ := h
        simp only [ElementsBuilt.Decided, except_ok_bind, hok,
          except_pure, houtcome, hleft, hlost]
        cases elements with
        | nil => exact ⟨true, by simp [eraseElementList, elementNodes, herase],
            by simp⟩
        | cons other elements => simp

theorem buildElements_decided (fails : FailurePlan) (more : Bool)
    (elements : List Element) :
    ∀ (element : Element) (block : Nat) (heap : Heap),
      ElementsBuilt.Decided fails more element elements heap.calls
        (buildElements fails more (element :: elements) block heap) := by
  induction elements with
  | nil =>
      intro element block heap
      have hcontent := buildElement_outcome fails element heap
      cases hrequest : contentRequest fails element heap.calls with
      | none =>
          simp only [hrequest] at hcontent
          simp [buildElements, hcontent, ElementsBuilt.Decided,
            elementsOutcome, hrequest]
      | some calls =>
          simp only [hrequest] at hcontent
          obtain ⟨content, heap₁, rfl, herase, hbuild⟩ := hcontent
          rcases malloc_cases fails heap₁ with ⟨hfail, heap₂, hmalloc, hcalls⟩ |
            ⟨hgrant, heap₂, hmalloc, hcalls⟩
          · simp [ElementsBuilt.Decided, buildElements, hbuild, hmalloc,
              elementsOutcome, hrequest, hfail, hcalls]
          · have hprobe := probe_calls fails more heap₂
            simp only [ElementsBuilt.Decided, buildElements, hbuild, hmalloc,
              except_ok_bind, except_pure, Bool.false_eq_true, if_false,
              if_true]
            refine ⟨false, ?_, fun first => ?_⟩
            · simp [eraseElementList, elementNodes, herase]
            · simp only [elementsOutcome, hrequest, Option.bind_eq_bind,
                Option.bind_some, hgrant, Bool.false_eq_true, if_false,
                freeSimpleCommandElementList_calls, hprobe, hcalls]
  | cons next elements ih =>
      intro element block heap
      have hcontent := buildElement_outcome fails element heap
      cases hrequest : contentRequest fails element heap.calls with
      | none =>
          simp only [hrequest] at hcontent
          simp [buildElements, hcontent, ElementsBuilt.Decided,
            elementsOutcome, hrequest]
      | some calls =>
          simp only [hrequest] at hcontent
          obtain ⟨content, heap₁, rfl, herase, hbuild⟩ := hcontent
          rcases malloc_cases fails heap₁ with ⟨hfail, heap₂, hmalloc, hcalls⟩ |
            ⟨hgrant, heap₂, hmalloc, hcalls⟩
          · rw [buildElements.eq_2]
            simp only [hbuild, hmalloc, except_ok_bind]
            simp [ElementsBuilt.Decided, elementsOutcome, hrequest, hfail]
          · have houtcome : ∀ first, elementsOutcome fails more first element
                (next :: elements) heap.calls =
                elementsOutcome fails more false next elements heap₂.calls := by
              intro first
              simp [elementsOutcome, hrequest, hgrant, hcalls]
            rw [buildElements.eq_2]
            simp only [hbuild, hmalloc, except_ok_bind]
            exact (ih next heap₁.calls heap₂).cons herase houtcome

/-- The requests of a stage, its program word being the first element. -/
theorem buildStage_decided (fails : FailurePlan) (more : Bool) (stage : Stage)
    (block : Nat) (heap : Heap) :
    match buildElements fails more stage.elements block heap with
    | .error _ => elementsOutcome fails more true (.word stage.program)
        stage.arguments heap.calls = none
    | .ok built =>
      if built.ok = true ∧ built.left = [] then
        ∃ lost, eraseElementList built.nodes = elementNodes
            (if lost then stage.elements.dropLast else stage.elements) ∧
          elementsOutcome fails more true (.word stage.program)
            stage.arguments heap.calls = some (lost, built.heap.calls)
      else elementsOutcome fails more true (.word stage.program)
        stage.arguments heap.calls = none := by
  have h := buildElements_decided fails more stage.arguments
    (.word stage.program) block heap
  rw [Stage.elements]
  cases hbuilt : buildElements fails more
    (.word stage.program :: stage.arguments) block heap with
  | error fault =>
      rw [hbuilt] at h
      exact h true
  | ok built =>
      simp only [hbuilt, ElementsBuilt.Decided] at h
      by_cases hok : built.ok
      · by_cases hread : built.left = []
        · simp only [hok, hread, if_true] at h
          obtain ⟨lost, hnodes, hlost⟩ := h
          simp only [hok, hread, and_self, if_true]
          exact ⟨lost, hnodes, hlost true⟩
        · simp only [hok, hread, if_true, if_false] at h
          simp only [hread, and_false, if_false]
          exact h true
      · simp only [hok] at h
        simp only [hok]
        exact h.2.1

/-! ## They decide what is built for a pipeline -/

theorem flattenElementList_of_erase {nodes : SimpleCommandElementList}
    {elements : List Element}
    (h : eraseElementList nodes = elementNodes elements) :
    flattenElementList nodes = elementTokens elements := by
  rw [← flattenElementList_erase, h, flattenElementList_nodes]

theorem flattenCommandList_of_erase {nodes : SimpleCommandList}
    {stage : Stage} {others : List Stage}
    (h : eraseCommandList nodes = stageNodes (stage :: others)) :
    flattenCommandList nodes = pipelineTokens stage others := by
  rw [← flattenCommandList_erase, h, flattenCommandList_nodes]

theorem elementTokens_dropLast_lt (element : Element)
    (elements : List Element) :
    (elementTokens (element :: elements).dropLast).length <
      (elementTokens (element :: elements)).length := by
  have hsplit := List.dropLast_concat_getLast
    (List.cons_ne_nil element elements)
  obtain ⟨head, tail, hlast, -, -⟩ :=
    ((element :: elements).getLast (by simp)).tokens_head
  have hlen := congrArg (fun l => (elementTokens l).length) hsplit
  simp only [elementTokens_append, elementTokens_cons, hlast,
    elementTokens_nil, List.length_append, List.length_cons] at hlen ⊢
  omega

theorem flattenCommandList_cons_le (node : SimpleCommandNode)
    (rest : SimpleCommandList) :
    (flattenCommandList (node :: rest)).length ≤
      (flattenElementList node.simpleCommand.elementList).length + 1 +
        (flattenCommandList rest).length := by
  cases rest with
  | nil =>
      simp only [flattenCommandList]
      omega
  | cons next rest =>
      simp only [flattenCommandList, List.length_append, List.length_cons]
      omega

/-- What a pipeline's requests say about the tree built for it: all of it, or
fewer tokens. -/
def TreeOf (stage : Stage) (others : List Stage) (nodes : SimpleCommandList)
    (lost : Bool) : Prop :=
  if lost then (flattenCommandList nodes).length <
    (pipelineTokens stage others).length
  else eraseCommandList nodes = stageNodes (stage :: others)

/-- A stage in front of a pipeline. -/
theorem treeOf_cons {stage next : Stage} {others : List Stage}
    {node : SimpleCommandNode} {nodes : SimpleCommandList}
    {lost lostLater : Bool}
    (hnode : eraseElementList node.simpleCommand.elementList = elementNodes
      (if lost then stage.elements.dropLast else stage.elements))
    (hnodes : TreeOf next others nodes lostLater) :
    TreeOf stage (next :: others) (node :: nodes) (lost || lostLater) := by
  have hle := flattenCommandList_cons_le node nodes
  have hflat := flattenElementList_of_erase hnode
  have hdrop := elementTokens_dropLast_lt (.word stage.program) stage.arguments
  have htokens : (pipelineTokens stage (next :: others)).length =
      (elementTokens stage.elements).length + 1 +
        (pipelineTokens next others).length := by
    simp only [pipelineTokens, Stage.tokens, List.length_append,
      List.length_cons]
    omega
  rw [Stage.elements] at hflat htokens
  rw [hflat] at hle
  cases lost <;> cases lostLater
  · simp only [Bool.false_eq_true, if_false, TreeOf,
      Bool.or_self] at hnode hnodes ⊢
    simp only [eraseCommandList, stageNodes, List.map_cons] at hnodes ⊢
    rw [hnodes, hnode]
  · simp only [TreeOf, Bool.or_true, if_true, Bool.false_eq_true,
      if_false] at hnodes hle ⊢
    omega
  · have hlater := flattenCommandList_of_erase hnodes
    simp only [TreeOf, Bool.or_false, if_true, hlater] at hle ⊢
    omega
  · simp only [TreeOf, Bool.or_true, if_true] at hnodes hle ⊢
    omega

/-- How the result of `buildPipeline` is read off the requests. -/
def PipelineBuilt.Decided (fails : FailurePlan) (stage : Stage)
    (others : List Stage) (rest : List CString) (calls : Nat) :
    Except Fault PipelineBuilt → Prop
  | .error _ =>
    pipelineOutcome fails (!rest.isEmpty) stage others calls = none
  | .ok built =>
    if built.ok = true ∧ built.left = rest then
      ∃ lost, TreeOf stage others built.nodes lost ∧
        pipelineOutcome fails (!rest.isEmpty) stage others calls = some lost
    else pipelineOutcome fails (!rest.isEmpty) stage others calls = none

theorem append_left_ne_self {left : List CString} (h : left ≠ [])
    (rest : List CString) :
    left ++ rest ≠ rest := by
  intro heq
  have hlen := congrArg List.length heq
  have hpos := List.length_pos_iff.mpr h
  simp only [List.length_append] at hlen
  omega

theorem elementTokens_ne_nil {elements : List Element} (h : elements ≠ []) :
    elementTokens elements ≠ [] := by
  have hle := length_le_elementTokens elements
  have hpos := List.length_pos_iff.mpr h
  exact List.length_pos_iff.mp (by omega)

/-- The tokens after the elements of a stage are not the end of the line. -/
theorem following_ne_rest (stage : Stage) (others : List Stage)
    (rest : List CString) :
    bar :: (pipelineTokens stage others ++ rest) ≠ rest :=
  append_left_ne_self (List.cons_ne_nil bar (pipelineTokens stage others)) rest

/-- The last stage of a pipeline. -/
theorem buildPipeline_decided_last (fails : FailurePlan) (rest : List CString)
    (stage : Stage) (block elementBlock : Nat) (heap : Heap) :
    PipelineBuilt.Decided fails stage [] rest heap.calls
      (buildPipeline fails rest stage [] block elementBlock heap) := by
  have h := buildStage_decided fails (!rest.isEmpty) stage elementBlock heap
  rw [buildPipeline.eq_1]
  cases hbuilt : buildElements fails (!rest.isEmpty) stage.elements
    elementBlock heap with
  | error fault =>
      simp only [hbuilt] at h
      simp [PipelineBuilt.Decided, pipelineOutcome, h]
  | ok built =>
      simp only [hbuilt] at h
      by_cases hok : built.ok
      · by_cases hread : built.left = []
        · simp only [hok, hread, and_self, if_true] at h
          obtain ⟨lost, hnodes, hlost⟩ := h
          simp only [except_ok_bind, hok, if_true, except_pure, hread,
            elementTokens_nil, List.nil_append, PipelineBuilt.Decided, and_self]
          refine ⟨lost, ?_, by simp [pipelineOutcome, hlost]⟩
          cases lost with
          | false =>
              simp only [Bool.false_eq_true, if_false] at hnodes
              simp [TreeOf, eraseCommandList, stageNodes, hnodes]
          | true =>
              have hflat := flattenElementList_of_erase hnodes
              have hlt := elementTokens_dropLast_lt (.word stage.program)
                stage.arguments
              simp only [TreeOf, if_true, flattenCommandList, hflat]
              exact hlt
        · simp only [hread, and_false, if_false] at h
          have hne := append_left_ne_self (elementTokens_ne_nil hread) rest
          simp [hok, PipelineBuilt.Decided, hne, pipelineOutcome, h]
      · simp only [hok, Bool.false_eq_true, false_and, if_false] at h
        simp [hok, PipelineBuilt.Decided, pipelineOutcome, h]

/-- A stage whose successor got its two nodes, in front of the pipeline that
was built in them. -/
theorem PipelineBuilt.Decided.cons {fails : FailurePlan} {stage next : Stage}
    {others : List Stage} {rest : List CString} {calls calls₂ : Nat}
    {node : SimpleCommandNode} {lost : Bool}
    {result : Except Fault PipelineBuilt}
    (h : PipelineBuilt.Decided fails next others rest calls₂ result)
    (hnode : eraseElementList node.simpleCommand.elementList = elementNodes
      (if lost then stage.elements.dropLast else stage.elements))
    (houtcome : pipelineOutcome fails (!rest.isEmpty) stage (next :: others)
      calls = (pipelineOutcome fails (!rest.isEmpty) next others calls₂).bind
        fun lostLater => some (lost || lostLater)) :
    PipelineBuilt.Decided fails stage (next :: others) rest calls (do
      let sub ← result
      if sub.ok then return ⟨true, sub.left, node :: sub.nodes, sub.heap⟩
      else return ⟨true, bar :: (pipelineTokens next others ++ rest), [node],
        freeSimpleCommandList sub.nodes sub.heap⟩) := by
  have hfollowing := following_ne_rest next others rest
  cases result with
  | error fault =>
      simp only [PipelineBuilt.Decided] at h
      simp [PipelineBuilt.Decided, houtcome, h]
  | ok sub =>
      simp only [PipelineBuilt.Decided] at h
      by_cases hend : sub.ok = true ∧ sub.left = rest
      · simp only [hend, and_self, if_true] at h
        obtain ⟨lostLater, htree, hlater⟩ := h
        simp only [except_ok_bind, except_pure, hend, if_true,
          PipelineBuilt.Decided, and_self]
        exact ⟨lost || lostLater, treeOf_cons hnode htree, by
          rw [houtcome, hlater, Option.bind_some]⟩
      · simp only [hend, if_false] at h
        rw [h] at houtcome
        by_cases hok : sub.ok
        · have hne : sub.left ≠ rest := fun hleft => hend ⟨hok, hleft⟩
          simp [hok, PipelineBuilt.Decided, hne, houtcome]
        · simp [hok, PipelineBuilt.Decided, hfollowing, houtcome]

theorem buildPipeline_decided (fails : FailurePlan) (rest : List CString)
    (others : List Stage) :
    ∀ (stage : Stage) (block elementBlock : Nat) (heap : Heap),
      PipelineBuilt.Decided fails stage others rest heap.calls
        (buildPipeline fails rest stage others block elementBlock heap) := by
  induction others with
  | nil => exact buildPipeline_decided_last fails rest
  | cons next others ih =>
      intro stage block elementBlock heap
      have h := buildStage_decided fails true stage elementBlock heap
      have hfollowing := following_ne_rest next others rest
      rw [buildPipeline.eq_2]
      cases hbuilt : buildElements fails true stage.elements elementBlock
        heap with
      | error fault =>
          simp only [hbuilt] at h
          simp [PipelineBuilt.Decided, pipelineOutcome, h]
      | ok built =>
          simp only [hbuilt] at h
          by_cases hok : built.ok
          · by_cases hread : built.left = []
            · simp only [hok, hread, and_self, if_true] at h
              obtain ⟨lost, hnodes, hlost⟩ := h
              have houtcome : pipelineOutcome fails (!rest.isEmpty) stage
                  (next :: others) heap.calls =
                  if fails built.heap.calls || fails (built.heap.calls + 1)
                  then none
                  else (pipelineOutcome fails (!rest.isEmpty) next others
                    (built.heap.calls + 2)).bind
                      fun lostLater => some (lost || lostLater) := by
                simp only [pipelineOutcome, hlost, Option.bind_eq_bind,
                  Option.bind_some, Option.pure_def]
              simp only [except_ok_bind, hok, hread, Bool.true_eq_false,
                if_false, except_pure, ne_eq, not_true_eq_false]
              -- the two requests for the nodes of the next stage
              rcases malloc_cases fails built.heap with
                ⟨hfirst, heap₁, hmalloc₁, hcalls₁⟩ |
                ⟨hfirst, heap₁, hmalloc₁, hcalls₁⟩
              · simp [hmalloc₁, PipelineBuilt.Decided, hfollowing, houtcome,
                  hfirst]
              · rcases malloc_cases fails heap₁ with
                  ⟨hsecond, heap₂, hmalloc₂, hcalls₂⟩ |
                  ⟨hsecond, heap₂, hmalloc₂, hcalls₂⟩
                · rw [hcalls₁] at hsecond
                  simp [hmalloc₁, hmalloc₂, PipelineBuilt.Decided, hfollowing,
                    houtcome, hsecond]
                · have hcalls : heap₂.calls = built.heap.calls + 2 := by omega
                  rw [hcalls₁] at hsecond
                  simp only [hfirst, hsecond, Bool.or_self, Bool.false_eq_true,
                    if_false, ← hcalls] at houtcome
                  simp only [hmalloc₁, hmalloc₂]
                  exact (ih next built.heap.calls heap₁.calls heap₂).cons
                    hnodes houtcome
            · simp only [hread, and_false, if_false] at h
              have hne : elementTokens built.left ++
                  bar :: (pipelineTokens next others ++ rest) ≠ rest := by
                rw [← List.cons_append, ← List.append_assoc]
                exact append_left_ne_self (by simp) rest
              simp [hok, hread, PipelineBuilt.Decided, hne, pipelineOutcome, h]
          · simp only [hok, Bool.false_eq_true, false_and, if_false] at h
            simp [hok, PipelineBuilt.Decided, pipelineOutcome, h]

/-! ## They decide the parse -/

/-- The outcome of the requests `parseInput` makes for a sentence, the first
of them being number `calls`. -/
def lineOutcome (fails : FailurePlan) (line : CommandLine) (calls : Nat) :
    Option Bool :=
  pipelineOutcome fails line.daemon line.first line.others calls

theorem daemonTokens_isEmpty (daemon : Bool) :
    (!(daemonTokens daemon).isEmpty) = daemon := by
  cases daemon <;> rfl

/-- A new `Simple_List` holds one fresh command. -/
theorem makeNewSimpleList_fresh {fails : FailurePlan} {heap heap' : Heap}
    {list : SimpleList}
    (h : makeNewSimpleList fails heap = (some list, heap')) :
    (∃ block elementBlock,
      list.pipeline = ⟨freshCommandList block elementBlock⟩) ∧
      list.hasDaemonAmpersand = 0 := by
  simp only [makeNewSimpleList, makeNewSimpleCommandList,
    makeNewSimpleCommandElementList] at h
  rcases hfirst : heap.malloc fails with ⟨_ | block, heap₁⟩
  · simp [hfirst] at h
  · rcases hsecond : heap₁.malloc fails with ⟨_ | commandBlock, heap₂⟩
    · simp [hfirst, hsecond] at h
    · rcases hthird : heap₂.malloc fails with ⟨_ | elementBlock, heap₃⟩
      · simp [hfirst, hsecond, hthird] at h
      · simp only [hfirst, hsecond, hthird, Prod.mk.injEq,
          Option.some.injEq] at h
        obtain ⟨rfl, -⟩ := h
        exact ⟨⟨commandBlock, elementBlock, rfl⟩, rfl⟩

/-- **The requests decide the parse of a sentence**: whether it is accepted,
and whether the tree is the sentence's tree or lacks tokens. -/
theorem parseInput_outcome (fails : FailurePlan) (line : CommandLine)
    {list : SimpleList} {heap heap₀ : Heap}
    (hnew : makeNewSimpleList fails heap₀ = (some list, heap)) :
    match lineOutcome fails line heap.calls with
    | none => ∀ list' heap',
        parseInput fails line.tokens list heap ≠ .ok (true, list', heap')
    | some lost => ∃ list' heap',
        parseInput fails line.tokens list heap = .ok (true, list', heap') ∧
        list'.hasDaemonAmpersand = (if line.daemon then 1 else 0) ∧
        if lost then
          (flattenSimpleList list').length < line.tokens.length
        else eraseSimpleList list' = lineTree line := by
  obtain ⟨⟨block, elementBlock, hfresh⟩, hflag⟩ := makeNewSimpleList_fresh hnew
  have h := buildPipeline_decided fails (daemonTokens line.daemon) line.others
    line.first block elementBlock heap
  rw [parseInput_eq line heap hfresh]
  cases hbuilt : buildPipeline fails (daemonTokens line.daemon) line.first
    line.others block elementBlock heap with
  | error fault =>
      simp only [hbuilt, PipelineBuilt.Decided, daemonTokens_isEmpty] at h
      simp [lineOutcome, h, Except.map]
  | ok built =>
      simp only [hbuilt, PipelineBuilt.Decided, daemonTokens_isEmpty] at h
      by_cases hend : built.ok = true ∧ built.left = daemonTokens line.daemon
      · simp only [hend, and_self, if_true] at h
        obtain ⟨lost, htree, hlost⟩ := h
        simp only [lineOutcome, hlost, Except.map, hend, Bool.true_and,
          beq_self_eq_true, hflag]
        refine ⟨_, _, rfl, rfl, ?_⟩
        cases lost with
        | false =>
            simp only [TreeOf, Bool.false_eq_true, if_false] at htree ⊢
            simp only [eraseSimpleList, htree, lineTree, CommandLine.stages]
        | true =>
            simp only [TreeOf, if_true] at htree ⊢
            simp only [flattenSimpleList, CommandLine.tokens,
              List.length_append]
            cases line.daemon <;> simpa using htree
      · simp only [hend, if_false] at h
        simp only [lineOutcome, h]
        intro list' heap' heq
        have hcomplete : (built.ok &&
            built.left == daemonTokens line.daemon) = true := by
          simp only [Except.map, Except.ok.injEq, Prod.mk.injEq] at heq
          exact heq.1
        simp only [Bool.and_eq_true, beq_iff_eq] at hcomplete
        exact hend hcomplete

/-! ## When nothing is refused -/

theorem elementsOutcome_noFailures (more : Bool) (elements : List Element) :
    ∀ (first : Bool) (element : Element) (calls : Nat), ∃ calls',
      elementsOutcome noFailures more first element elements calls =
        some (false, calls') := by
  have hcontent : ∀ element calls, ∃ calls',
      contentRequest noFailures element calls = some calls' := by
    intro element calls
    cases element <;> exact ⟨_, rfl⟩
  induction elements with
  | nil =>
      intro first element calls
      obtain ⟨calls', hcalls⟩ := hcontent element calls
      exact ⟨if more then calls' + 2 else calls' + 1, by
        simp [elementsOutcome, hcalls]⟩
  | cons next elements ih =>
      intro first element calls
      obtain ⟨calls', hcalls⟩ := hcontent element calls
      obtain ⟨calls'', hrest⟩ := ih false next (calls' + 1)
      exact ⟨calls'', by simp [elementsOutcome, hcalls, hrest]⟩

theorem pipelineOutcome_noFailures (more : Bool) (others : List Stage) :
    ∀ (stage : Stage) (calls : Nat),
      pipelineOutcome noFailures more stage others calls = some false := by
  induction others with
  | nil =>
      intro stage calls
      obtain ⟨calls', h⟩ := elementsOutcome_noFailures more stage.arguments true
        (.word stage.program) calls
      simp [pipelineOutcome, h]
  | cons next others ih =>
      intro stage calls
      obtain ⟨calls', h⟩ := elementsOutcome_noFailures true stage.arguments true
        (.word stage.program) calls
      simp [pipelineOutcome, h, ih]

/-- With every request granted a sentence is accepted, and its tree is
complete. -/
theorem parseInput_noFailures (line : CommandLine) {list : SimpleList}
    {heap heap₀ : Heap}
    (hnew : makeNewSimpleList noFailures heap₀ = (some list, heap)) :
    ∃ list' heap',
      parseInput noFailures line.tokens list heap = .ok (true, list', heap') ∧
      eraseSimpleList list' = lineTree line := by
  have h := parseInput_outcome noFailures line hnew
  simp only [lineOutcome, pipelineOutcome_noFailures, Bool.false_eq_true,
    if_false] at h
  obtain ⟨list', heap', hparse, -, htree⟩ := h
  exact ⟨list', heap', hparse, htree⟩

end OsLabs.Iwish.ParserOutcome
