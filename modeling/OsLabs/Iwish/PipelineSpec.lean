import OsLabs.Iwish.ParserSpec

/-!
# What the parse functions of a pipeline do

The specifications of `parsePipeLine2`, `parsePipeLine` and `parseInput`, in
the two forms of `ParserSpec`.  `buildPipeline` is the parser read off the
stages of a command line; `parseInput_eq` says what `parseInput` makes of a
sentence under any failure plan, and `parseInput_sound` that it accepts
nothing but sentences.
-/

namespace OsLabs.Iwish.PipelineSpec

open OsLabs.Posix
open OsLabs.Iwish.ParserTokens
open OsLabs.Iwish.Parser
open OsLabs.Iwish.Grammar
open OsLabs.Iwish.ParserSpec

section

variable {fails : FailurePlan} {sentence tokens : List CString} {index : Nat}

/-- A list of one fresh command. -/
def freshCommandList (block elementBlock : Nat) : SimpleCommandList :=
  [⟨block, ⟨[⟨elementBlock, uninitialisedElement⟩]⟩⟩]

/-- What `parsePipeLine` leaves behind: its result, the tokens it has not
read, the commands it keeps and the heap. -/
structure PipelineBuilt where
  ok : Bool
  left : List CString
  nodes : SimpleCommandList
  heap : Heap
  deriving DecidableEq

/-- `parsePipeLine` on the stages of a pipeline that `rest` follows, starting
in a fresh command. -/
def buildPipeline (fails : FailurePlan) (rest : List CString) :
    Stage → List Stage → Nat → Nat → Heap → Except Fault PipelineBuilt
  | stage, [], block, elementBlock, heap => do
    let built ← buildElements fails (!rest.isEmpty) stage.elements
      elementBlock heap
    if built.ok then
      return ⟨true, elementTokens built.left ++ rest,
        [⟨block, ⟨built.nodes⟩⟩], built.heap⟩
    else
      return ⟨false, stage.tokens ++ rest, [⟨block, ⟨built.nodes⟩⟩], built.heap⟩
  | stage, next :: others, block, elementBlock, heap => do
    let following := bar :: (pipelineTokens next others ++ rest)
    let built ← buildElements fails true stage.elements elementBlock heap
    let node : SimpleCommandNode := ⟨block, ⟨built.nodes⟩⟩
    if built.ok = false then
      return ⟨false, stage.tokens ++ following, [node], built.heap⟩
    else if built.left ≠ [] then
      return ⟨true, elementTokens built.left ++ following, [node], built.heap⟩
    else
      match built.heap.malloc fails with
      | (none, heap) => return ⟨true, following, [node], heap⟩
      | (some child, heap) =>
        match heap.malloc fails with
        | (none, heap) => return ⟨true, following, [node], heap⟩
        | (some childElement, heap) =>
          let sub ← buildPipeline fails rest next others child childElement heap
          if sub.ok then return ⟨true, sub.left, node :: sub.nodes, sub.heap⟩
          else return ⟨true, following, [node],
            freeSimpleCommandList sub.nodes sub.heap⟩

theorem parsePipeLine2_stop
    {parse : Nat → SimpleCommandList → Heap →
      Except Fault (Parsed SimpleCommandList)}
    (previous : SimpleCommandList) (heap : Heap)
    (hahead : Ahead sentence index tokens)
    (hbar : ∀ token rest, tokens = token :: rest → token ≠ bar) :
    parsePipeLine2 fails sentence parse index previous heap =
      .ok ⟨false, index, previous, heap⟩ := by
  cases tokens with
  | nil => simp [parsePipeLine2, hahead.pointerAt_nil]
  | cons token rest =>
      simp [parsePipeLine2, hahead.pointerAt_cons, hbar token rest rfl]

theorem parsePipeLine2_bar
    {parse : Nat → SimpleCommandList → Heap →
      Except Fault (Parsed SimpleCommandList)}
    (node : SimpleCommandNode) (tail : SimpleCommandList) (heap : Heap)
    (hahead : Ahead sentence index (bar :: tokens)) :
    parsePipeLine2 fails sentence parse index (node :: tail) heap =
      match heap.malloc fails with
      | (none, heap) => .ok ⟨false, index + 1, [node], heap⟩
      | (some block, heap) =>
        match heap.malloc fails with
        | (none, heap) => .ok ⟨false, index + 1, [node], heap⟩
        | (some elementBlock, heap) => do
          let parsed ← parse (index + 1)
            (freshCommandList block elementBlock) heap
          if parsed.ok then
            return ⟨true, parsed.index, node :: parsed.node, parsed.heap⟩
          else
            return ⟨false, index + 1, [node],
              freeSimpleCommandList parsed.node parsed.heap⟩ := by
  simp only [parsePipeLine2, hahead.pointerAt_cons, except_ok_bind, if_true,
    makeNewSimpleCommandList, makeNewSimpleCommandElementList]
  cases heap.malloc fails with
  | mk granted heap =>
      cases granted with
      | none => rfl
      | some block =>
          dsimp only
          cases heap.malloc fails with
          | mk granted heap => cases granted <;> rfl

/-- Elements whose first token is a word are the elements of a stage. -/
theorem stage_of_elements {token : CString} {rest rest' : List CString}
    {elements : List Element} (hword : isWord token = true)
    (htokens : token :: rest = elementTokens elements ++ rest')
    (hne : elements ≠ []) : ∃ stage : Stage, stage.elements = elements := by
  cases elements with
  | nil => exact absurd rfl hne
  | cons element elements =>
      cases element with
      | word w => exact ⟨⟨w, elements⟩, rfl⟩
      | redirect isInput w =>
          have hop : token = operator isInput := (List.cons.inj htokens).1
          rw [hop] at hword
          cases isInput <;> exact absurd hword (by decide)

theorem elementTokens_suffix {left elements : List Element}
    (h : left <:+ elements) (rest : List CString) :
    elementTokens left ++ rest <:+ elementTokens elements ++ rest := by
  obtain ⟨before, rfl⟩ := h
  exact ⟨elementTokens before, by simp⟩

/-- Neither unread elements nor the end of the pipeline look like a `|`. -/
theorem left_head_ne_bar {left : List Element} {rest : List CString}
    (h : left ≠ [] ∨ ∃ daemon, rest = daemonTokens daemon) :
    ∀ token tail, elementTokens left ++ rest = token :: tail → token ≠ bar := by
  intro token tail htokens
  cases left with
  | cons element left =>
      obtain ⟨head, elementTail, helement, hbar, -⟩ := element.tokens_head
      rw [elementTokens_cons, helement] at htokens
      cases htokens
      exact hbar
  | nil =>
      obtain ⟨daemon, rfl⟩ : ∃ daemon, rest = daemonTokens daemon := by
        simpa using h
      cases daemon with
      | false => cases htokens
      | true =>
          cases htokens
          decide

theorem stops_daemonTokens (daemon : Bool) : Stops (daemonTokens daemon) := by
  intro token rest htokens
  cases daemon with
  | false => cases htokens
  | true =>
      cases htokens
      exact Or.inr rfl

theorem stops_bar (rest : List CString) : Stops (bar :: rest) := by
  intro token tail htokens
  cases htokens
  exact Or.inl rfl

/-- The first half of `parsePipeLine`: the program word is looked at, given
back, and the elements of the stage are read. -/
theorem parsePipeLine_command (stage : Stage) {following : List CString}
    (hstops : Stops following) (fuel block elementBlock : Nat) (heap : Heap)
    (hahead : Ahead sentence index (stage.tokens ++ following)) :
    parsePipeLine fails sentence (fuel + 1) index
        (freshCommandList block elementBlock) heap =
      (buildElements fails (!following.isEmpty) stage.elements elementBlock
        heap) >>= fun built =>
          if built.ok then do
            let position :=
              sentence.length - (elementTokens built.left ++ following).length
            let parsed ← parsePipeLine2 fails sentence
              (parsePipeLine fails sentence fuel) position
              [⟨block, ⟨built.nodes⟩⟩] built.heap
            if parsed.ok then return parsed
            else return { parsed with ok := true, index := position }
          else return ⟨false, index, [⟨block, ⟨built.nodes⟩⟩], built.heap⟩ := by
  have hstart : pointerAt sentence index = .ok (some stage.program.text) :=
    hahead.pointerAt_cons
  have hfuel : stage.elements.length < sentence.length + 1 := by
    have hlen := hahead.length_eq
    have hle := length_le_elementTokens stage.elements
    simp only [List.length_append, Stage.tokens] at hlen
    omega
  have hcommand :
      parseSimpleCommand fails sentence (sentence.length + 1) index
          [⟨elementBlock, uninitialisedElement⟩] heap = _ :=
    parseSimpleCommand_eq hstops stage.elements _ _ _ _ hfuel hahead
  simp only [parsePipeLine, freshCommandList, hstart, except_ok_bind,
    parseWord_eq hstart, stage.program.isWord, if_true, Nat.add_sub_cancel,
    hcommand]
  cases buildElements fails (!following.isEmpty) stage.elements elementBlock
    heap with
  | error fault => rfl
  | ok built => rfl

/-- The last stage of a pipeline. -/
theorem parsePipeLine_eq_last {daemon : Bool} (stage : Stage)
    (fuel block elementBlock : Nat) (heap : Heap)
    (hahead : Ahead sentence index
      (pipelineTokens stage [] ++ daemonTokens daemon)) :
    parsePipeLine fails sentence (fuel + 1) index
        (freshCommandList block elementBlock) heap =
      (buildPipeline fails (daemonTokens daemon) stage [] block
        elementBlock heap).map fun built =>
          ⟨built.ok, sentence.length - built.left.length, built.nodes,
            built.heap⟩ := by
  have hindex := hahead.index_eq
  rw [parsePipeLine_command stage (stops_daemonTokens daemon) fuel block
    elementBlock heap hahead]
  simp only [buildPipeline]
  cases hbuilt : buildElements fails (!(daemonTokens daemon).isEmpty)
    stage.elements elementBlock heap with
  | error fault => rfl
  | ok built =>
      have hleft := hahead.of_suffix
        (elementTokens_suffix (buildElements_left hbuilt) _)
      by_cases hok : built.ok
      · simp only [except_ok_bind, hok, if_true,
          parsePipeLine2_stop _ _ hleft
            (left_head_ne_bar (Or.inr ⟨daemon, rfl⟩))]
        rfl
      · simp only [except_ok_bind, hok]
        simp [Except.map, hindex, pipelineTokens]

theorem parsePipeLine_eq {daemon : Bool} (others : List Stage) :
    ∀ (stage : Stage) (fuel index block elementBlock : Nat) (heap : Heap),
      others.length < fuel →
      Ahead sentence index
        (pipelineTokens stage others ++ daemonTokens daemon) →
      parsePipeLine fails sentence fuel index
          (freshCommandList block elementBlock) heap =
        (buildPipeline fails (daemonTokens daemon) stage others block
          elementBlock heap).map fun built =>
            ⟨built.ok, sentence.length - built.left.length, built.nodes,
              built.heap⟩ := by
  induction others with
  | nil =>
      intro stage fuel index block elementBlock heap hfuel hahead
      obtain ⟨fuel, rfl⟩ := Nat.exists_eq_succ_of_ne_zero
        (Nat.ne_of_gt hfuel)
      exact parsePipeLine_eq_last stage fuel block elementBlock heap hahead
  | cons next others ih =>
      intro stage fuel index block elementBlock heap hfuel hahead
      obtain ⟨fuel, rfl⟩ := Nat.exists_eq_succ_of_ne_zero
        (Nat.ne_of_gt (Nat.lt_of_le_of_lt (Nat.zero_le _) hfuel))
      have hshape : pipelineTokens stage (next :: others) ++
          daemonTokens daemon = stage.tokens ++
            bar :: (pipelineTokens next others ++ daemonTokens daemon) := by
        simp [pipelineTokens]
      rw [hshape] at hahead
      have hindex := hahead.index_eq
      rw [parsePipeLine_command stage (stops_bar _) fuel block elementBlock
        heap hahead]
      simp only [buildPipeline, List.isEmpty_cons, Bool.not_false]
      cases hbuilt : buildElements fails true stage.elements elementBlock
        heap with
      | error fault => rfl
      | ok built =>
          have hleft := hahead.of_suffix
            (elementTokens_suffix (buildElements_left hbuilt) _)
          by_cases hok : built.ok
          · by_cases hread : built.left = []
            · rw [hread, elementTokens_nil, List.nil_append] at hleft
              simp only [except_ok_bind, hok, if_true, hread,
                elementTokens_nil, List.nil_append,
                parsePipeLine2_bar _ _ _ hleft]
              cases hfirst : built.heap.malloc fails with
              | mk granted heap₁ =>
                  cases granted with
                  | none => simp [Except.map]
                  | some child =>
                      simp only
                      cases hsecond : heap₁.malloc fails with
                      | mk granted heap₂ =>
                          cases granted with
                          | none => simp [Except.map]
                          | some childElement =>
                              have hrec := ih next fuel _ child childElement
                                heap₂ (by simpa using hfuel) hleft.next
                              simp only [hrec]
                              cases buildPipeline fails (daemonTokens daemon)
                                next others child childElement heap₂ with
                              | error fault => rfl
                              | ok sub =>
                                  by_cases hsub : sub.ok <;>
                                    simp [Except.map, hsub]
            · simp only [except_ok_bind, hok, if_true,
                parsePipeLine2_stop _ _ hleft (left_head_ne_bar (Or.inl hread))]
              simp [Except.map, hread]
          · simp only [except_ok_bind, hok]
            simp [Except.map, hindex]

/-- How a call of `parsePipeLine2` returns: no `|` is ahead, the nodes for the
next command are refused, or the rest of the pipeline has been tried; if in
vain the nodes are given back. -/
inductive PipeLine2Returns (fails : FailurePlan) (sentence : List CString)
    (parse : Nat → SimpleCommandList → Heap →
      Except Fault (Parsed SimpleCommandList))
    (index : Nat) : SimpleCommandList → Heap → Parsed SimpleCommandList → Prop
  | noBar {pointer : Option CString} {previous : SimpleCommandList}
      {heap : Heap} (hread : pointerAt sentence index = .ok pointer)
      (hbar : pointer ≠ some bar) :
      PipeLine2Returns fails sentence parse index previous heap
        ⟨false, index, previous, heap⟩
  | refused {node : SimpleCommandNode} {tail : SimpleCommandList}
      {heap heap' : Heap}
      (hread : pointerAt sentence index = .ok (some bar))
      (hnew : makeNewSimpleCommandList fails heap = ([], heap')) :
      PipeLine2Returns fails sentence parse index (node :: tail) heap
        ⟨false, index + 1, [node], heap'⟩
  | failed {node : SimpleCommandNode} {tail next : SimpleCommandList}
      {heap heap' : Heap} {inside : Parsed SimpleCommandList}
      (hread : pointerAt sentence index = .ok (some bar))
      (hnew : makeNewSimpleCommandList fails heap = (next, heap'))
      (hinside : parse (index + 1) next heap' = .ok inside)
      (hok : inside.ok = false) :
      PipeLine2Returns fails sentence parse index (node :: tail) heap
        ⟨false, index + 1, [node], freeSimpleCommandList inside.node
          inside.heap⟩
  | continued {node : SimpleCommandNode} {tail next : SimpleCommandList}
      {heap heap' : Heap} {inside : Parsed SimpleCommandList}
      (hread : pointerAt sentence index = .ok (some bar))
      (hnew : makeNewSimpleCommandList fails heap = (next, heap'))
      (hinside : parse (index + 1) next heap' = .ok inside)
      (hok : inside.ok = true) :
      PipeLine2Returns fails sentence parse index (node :: tail) heap
        ⟨true, inside.index, node :: inside.node, inside.heap⟩

theorem parsePipeLine2_returns
    {parse : Nat → SimpleCommandList → Heap →
      Except Fault (Parsed SimpleCommandList)}
    {previous : SimpleCommandList} {heap : Heap}
    {parsed : Parsed SimpleCommandList}
    (h : parsePipeLine2 fails sentence parse index previous heap =
      .ok parsed) :
    PipeLine2Returns fails sentence parse index previous heap parsed := by
  obtain ⟨pointer, hread, h⟩ := except_bind_eq_ok.mp h
  cases pointer with
  | none =>
      cases h
      exact .noBar hread nofun
  | some token =>
      by_cases hbar : token = bar
      · subst hbar
        simp only [if_true] at h
        cases previous with
        | nil => cases h
        | cons node tail =>
            cases hnew : makeNewSimpleCommandList fails heap with
            | mk next heap' =>
                simp only [hnew] at h
                cases next with
                | nil =>
                    cases h
                    exact .refused hread hnew
                | cons first others =>
                    obtain ⟨inside, hinside, h⟩ := except_bind_eq_ok.mp h
                    by_cases hok : inside.ok
                    · rw [if_pos hok] at h
                      cases h
                      exact .continued hread hnew hinside hok
                    · rw [if_neg hok] at h
                      cases h
                      exact .failed hread hnew hinside
                        (eq_false_of_ne_true hok)
      · simp only [hbar, if_false] at h
        cases h
        exact .noBar hread fun heq => hbar (Option.some.inj heq)

/-- How a call of `parsePipeLine` returns: no word is ahead, its command is
not accepted, or it is, and what follows it has been tried. -/
inductive PipeLineReturns (fails : FailurePlan) (sentence : List CString)
    (fuel index : Nat) :
    SimpleCommandList → Heap → Parsed SimpleCommandList → Prop
  | noWord {pointer : Option CString} {list : SimpleCommandList} {heap : Heap}
      (hread : pointerAt sentence index = .ok pointer)
      (hword : ∀ token, pointer = some token → isWord token = false) :
      PipeLineReturns fails sentence fuel index list heap
        ⟨false, index, list, heap⟩
  | noCommand {token : CString} {node : SimpleCommandNode}
      {tail : SimpleCommandList} {heap : Heap}
      {command : Parsed SimpleCommandElementList}
      (hread : pointerAt sentence index = .ok (some token))
      (hword : isWord token = true)
      (hcommand : parseSimpleCommand fails sentence (sentence.length + 1)
        index node.simpleCommand.elementList heap = .ok command)
      (hok : command.ok = false) :
      PipeLineReturns fails sentence fuel index (node :: tail) heap
        ⟨false, index, { node with simpleCommand := ⟨command.node⟩ } :: tail,
          command.heap⟩
  | accepted {token : CString} {node : SimpleCommandNode}
      {tail : SimpleCommandList} {heap : Heap}
      {command : Parsed SimpleCommandElementList}
      {rest : Parsed SimpleCommandList}
      (hread : pointerAt sentence index = .ok (some token))
      (hword : isWord token = true)
      (hcommand : parseSimpleCommand fails sentence (sentence.length + 1)
        index node.simpleCommand.elementList heap = .ok command)
      (hok : command.ok = true)
      (hrest : parsePipeLine2 fails sentence
        (parsePipeLine fails sentence fuel) command.index
        ({ node with simpleCommand := ⟨command.node⟩ } :: tail)
        command.heap = .ok rest) :
      PipeLineReturns fails sentence fuel index (node :: tail) heap
        ⟨true, if rest.ok then rest.index else command.index, rest.node,
          rest.heap⟩

theorem parsePipeLine_returns {fuel : Nat} {list : SimpleCommandList}
    {heap : Heap} {parsed : Parsed SimpleCommandList}
    (h : parsePipeLine fails sentence (fuel + 1) index list heap =
      .ok parsed) :
    PipeLineReturns fails sentence fuel index list heap parsed := by
  obtain ⟨pointer, hread, h⟩ := except_bind_eq_ok.mp h
  cases pointer with
  | none =>
      cases h
      exact .noWord hread nofun
  | some token =>
      simp only [parseWord_eq hread, except_ok_bind] at h
      by_cases hword : isWord token
      · simp only [hword, if_true, Nat.add_sub_cancel] at h
        cases list with
        | nil => cases h
        | cons node tail =>
            obtain ⟨command, hcommand, h⟩ := except_bind_eq_ok.mp h
            by_cases hok : command.ok
            · simp only [hok, if_true] at h
              obtain ⟨rest, hrest, h⟩ := except_bind_eq_ok.mp h
              have haccepted := PipeLineReturns.accepted hread hword hcommand
                hok hrest
              by_cases hrestOk : rest.ok
              · simp only [hrestOk, if_true] at h haccepted
                cases h
                rw [← hrestOk] at haccepted
                exact haccepted
              · simp only [hrestOk] at h haccepted
                cases h
                exact haccepted
            · simp only [hok] at h
              cases h
              exact .noCommand hread hword hcommand (eq_false_of_ne_true hok)
      · simp only [hword] at h
        cases h
        refine .noWord hread fun token' htoken => ?_
        rw [← Option.some.inj htoken]
        exact eq_false_of_ne_true hword

theorem parsePipeLine2_sound
    {parse : Nat → SimpleCommandList → Heap →
      Except Fault (Parsed SimpleCommandList)}
    (hparse : ∀ {index : Nat} {tokens : List CString}
      {list : SimpleCommandList} {heap : Heap}
      {parsed : Parsed SimpleCommandList}, Ahead sentence index tokens →
      parse index list heap = .ok parsed → parsed.ok = true →
      ∃ stage others rest, tokens = pipelineTokens stage others ++ rest ∧
        parsed.index = index + (pipelineTokens stage others).length)
    {previous : SimpleCommandList} {heap : Heap}
    {parsed : Parsed SimpleCommandList} (hahead : Ahead sentence index tokens)
    (h : parsePipeLine2 fails sentence parse index previous heap = .ok parsed)
    (hok : parsed.ok = true) :
    ∃ stage others rest,
      tokens = bar :: (pipelineTokens stage others ++ rest) ∧
        parsed.index = index + 1 + (pipelineTokens stage others).length := by
  cases parsePipeLine2_returns h with
  | noBar => cases hok
  | refused => cases hok
  | failed => cases hok
  | continued hread hnew hinside hinsideOk =>
      obtain ⟨behind, rfl⟩ := hahead.exists_cons hread
      obtain ⟨stage, others, rest, hrest, hindex⟩ :=
        hparse hahead.next hinside hinsideOk
      exact ⟨stage, others, rest, by rw [hrest], hindex⟩

theorem parsePipeLine_sound :
    ∀ {fuel index : Nat} {tokens : List CString} {list : SimpleCommandList}
      {heap : Heap} {parsed : Parsed SimpleCommandList},
      Ahead sentence index tokens →
      parsePipeLine fails sentence fuel index list heap = .ok parsed →
      parsed.ok = true →
      ∃ stage others rest, tokens = pipelineTokens stage others ++ rest ∧
        parsed.index = index + (pipelineTokens stage others).length := by
  intro fuel
  induction fuel with
  | zero =>
      intro index tokens list heap parsed _ h
      cases h
  | succ fuel ih =>
      intro index tokens list heap parsed hahead h hok
      cases parsePipeLine_returns h with
      | noWord => cases hok
      | noCommand => cases hok
      | @accepted token node tail heap command rest hread hword hcommand
          hcommandOk hrest =>
          obtain ⟨behind, rfl⟩ := hahead.exists_cons hread
          obtain ⟨elements, rest', htokens, hindex, hne⟩ :=
            parseSimpleCommand_sound hahead hcommand
          obtain ⟨stage, hstage⟩ :=
            stage_of_elements hword htokens (hne hcommandOk)
          rw [htokens, ← hstage] at hahead
          have hnext := hahead.skip
          rw [hstage, ← hindex] at hnext
          rw [← hstage] at hindex
          by_cases hrestOk : rest.ok
          · obtain ⟨next, others, rest'', hbehind, hrestIndex⟩ :=
              parsePipeLine2_sound ih hnext hrest hrestOk
            refine ⟨stage, next :: others, rest'', ?_, ?_⟩
            · rw [htokens, hbehind, ← hstage]
              simp [pipelineTokens, Stage.tokens]
            · rw [if_pos hrestOk, hrestIndex, hindex]
              simp only [pipelineTokens, Stage.tokens, List.length_append,
                List.length_cons]
              omega
          · refine ⟨stage, [], rest', ?_, ?_⟩
            · rw [htokens, ← hstage]
              rfl
            · rw [if_neg hrestOk]
              exact hindex

/-- Elements left over in front of the end of the line or of a `|`. -/
theorem unread_elements {left elements : List Element}
    (rest : List CString) {following : List CString}
    (hsuffix : left <:+ elements)
    (hend : left = [] → following = rest ∨ ∃ tail, following = bar :: tail) :
    elementTokens left ++ following <:+ elementTokens elements ++ following ∧
      (elementTokens left ++ following = rest ∨ ∃ token tail,
        elementTokens left ++ following = token :: tail ∧
          token ≠ ampersand) := by
  refine ⟨elementTokens_suffix hsuffix following, ?_⟩
  cases left with
  | nil =>
      rcases hend rfl with h | ⟨tail, h⟩
      · exact Or.inl h
      · exact Or.inr ⟨bar, tail, h, by decide⟩
  | cons element left =>
      obtain ⟨head, tail, helement, -, hne⟩ := element.tokens_head
      refine Or.inr ⟨head, tail ++ (elementTokens left ++ following), ?_, hne⟩
      rw [elementTokens_cons, helement]
      simp

/-- The unread tokens are the end of the line, or begin with something that
cannot end it. -/
theorem buildPipeline_left {rest : List CString} {others : List Stage} :
    ∀ {stage : Stage} {block elementBlock : Nat} {heap : Heap}
      {built : PipelineBuilt},
      buildPipeline fails rest stage others block elementBlock heap =
        .ok built → built.ok = true →
      built.left <:+ pipelineTokens stage others ++ rest ∧
        (built.left = rest ∨
          ∃ token tail, built.left = token :: tail ∧ token ≠ ampersand) := by
  induction others with
  | nil =>
      intro stage block elementBlock heap built h hok
      obtain ⟨elements, helements, h⟩ := except_bind_eq_ok.mp h
      by_cases hread : elements.ok
      · simp only [hread, if_true] at h
        cases h
        exact unread_elements rest (buildElements_left helements)
          fun _ => Or.inl rfl
      · simp only [hread] at h
        cases h
        cases hok
  | cons next others ih =>
      intro stage block elementBlock heap built h hok
      have hshape : pipelineTokens stage (next :: others) ++ rest =
          elementTokens stage.elements ++
            bar :: (pipelineTokens next others ++ rest) := by
        simp [pipelineTokens, Stage.tokens]
      rw [hshape]
      obtain ⟨elements, helements, h⟩ := except_bind_eq_ok.mp h
      have hbar : ∃ tail,
          bar :: (pipelineTokens next others ++ rest) = bar :: tail := ⟨_, rfl⟩
      have hleft := unread_elements rest
        (buildElements_left helements) fun _ => Or.inr hbar
      have hstuck := unread_elements rest
        (List.nil_suffix (l := stage.elements)) fun _ => Or.inr hbar
      by_cases hread : elements.ok
      · by_cases hall : elements.left = []
        · simp only [hread, hall, ne_eq, not_true_eq_false, if_false,
            Bool.true_eq_false] at h
          cases hfirst : elements.heap.malloc fails with
          | mk granted heap₁ =>
              simp only [hfirst] at h
              cases granted with
              | none =>
                  cases h
                  exact hstuck
              | some child =>
                  cases hsecond : heap₁.malloc fails with
                  | mk granted heap₂ =>
                      simp only [hsecond] at h
                      cases granted with
                      | none =>
                          cases h
                          exact hstuck
                      | some childElement =>
                          obtain ⟨sub, hsub, h⟩ := except_bind_eq_ok.mp h
                          by_cases hsubOk : sub.ok
                          · simp only [hsubOk, if_true] at h
                            cases h
                            obtain ⟨hsuffix, hend⟩ := ih hsub hsubOk
                            refine ⟨hsuffix.trans ?_, hend⟩
                            exact (List.suffix_cons bar _).trans
                              (List.suffix_append _ _)
                          · simp only [hsubOk] at h
                            cases h
                            exact hstuck
        · simp only [hread, hall, ne_eq, not_false_eq_true, if_true, if_false,
            Bool.true_eq_false] at h
          cases h
          exact hleft
      · simp only [hread] at h
        cases h
        cases hok

/-- `parseInput` on a sentence of the language succeeds iff the pipeline
parser has read everything up to the `&` or the end. -/
theorem parseInput_eq (line : CommandLine) {list : SimpleList}
    {block elementBlock : Nat} (heap : Heap)
    (hfresh : list.pipeline = ⟨freshCommandList block elementBlock⟩) :
    parseInput fails line.tokens list heap =
      (buildPipeline fails (daemonTokens line.daemon) line.first line.others
        block elementBlock heap).map fun built =>
          let complete :=
            built.ok && built.left == daemonTokens line.daemon
          (complete,
            ⟨list.block, ⟨built.nodes⟩,
              if complete && line.daemon then 1 else list.hasDaemonAmpersand⟩,
            built.heap) := by
  obtain ⟨first, others, daemon⟩ := line
  have hahead : Ahead (CommandLine.tokens ⟨first, others, daemon⟩) 0
      (pipelineTokens first others ++ daemonTokens daemon) := Ahead.start _
  obtain ⟨tail, htail⟩ := pipelineTokens_eq_cons first others
  have hstart : pointerAt (CommandLine.tokens ⟨first, others, daemon⟩) 0 =
      .ok (some first.program.text) := by
    rw [htail] at hahead
    exact hahead.pointerAt_cons
  have hfuel : others.length <
      (CommandLine.tokens ⟨first, others, daemon⟩).length + 1 := by
    have hle := length_le_pipelineTokens first others
    simp only [CommandLine.tokens, List.length_append]
    omega
  simp only [parseInput, hstart, except_ok_bind, hfresh,
    parsePipeLine_eq others first _ 0 block elementBlock heap hfuel hahead]
  cases hbuilt : buildPipeline fails (daemonTokens daemon) first others block
    elementBlock heap with
  | error fault => rfl
  | ok built =>
      simp only [Except.map, except_ok_bind]
      by_cases hok : built.ok
      · obtain ⟨hsuffix, hend⟩ := buildPipeline_left hbuilt hok
        have hleft := hahead.of_suffix hsuffix
        simp only [hok, if_true, Bool.true_and]
        by_cases hrest : built.left = daemonTokens daemon
        · rw [hrest] at hleft ⊢
          cases daemon with
          | false =>
              have hnull := hleft.pointerAt_nil
              simp only [hnull, except_ok_bind]
              simp
          | true =>
              have hamp := hleft.pointerAt_cons
              have hnull := hleft.next.pointerAt_nil
              simp only [hamp, hnull, except_ok_bind]
              simp
        · obtain ⟨token, rest, htokens, hne⟩ := hend.resolve_left hrest
          rw [htokens] at hleft hrest ⊢
          have htoken := hleft.pointerAt_cons
          simp only [htoken, except_ok_bind]
          simp [hne, hrest]
      · simp [hok]

/-- Whatever the allocator does, an accepted array is a sentence. -/
theorem parseInput_sound {list list' : SimpleList} {heap heap' : Heap}
    (h : parseInput fails sentence list heap = .ok (true, list', heap')) :
    ∃ line : CommandLine, line.tokens = sentence := by
  cases sentence with
  | nil => simp [parseInput, (Ahead.start _).pointerAt_nil] at h
  | cons token rest =>
      have hahead := Ahead.start (token :: rest)
      simp only [parseInput, hahead.pointerAt_cons, except_ok_bind] at h
      obtain ⟨parsed, hparsed, h⟩ := except_bind_eq_ok.mp h
      by_cases hok : parsed.ok
      · obtain ⟨stage, others, rest', hrest, hindex⟩ :=
          parsePipeLine_sound hahead hparsed hok
        have hend : Ahead (token :: rest) parsed.index rest' := by
          have hsplit : Ahead (token :: rest) 0
              (pipelineTokens stage others ++ rest') := by
            rw [← hrest]
            exact hahead
          rw [hindex]
          exact hsplit.skip
        simp only [hok, if_true] at h
        cases rest' with
        | nil =>
            exact ⟨⟨stage, others, false⟩, hrest.symm⟩
        | cons last rest' =>
            by_cases hamp : last = ampersand
            · subst hamp
              simp only [hend.pointerAt_cons, except_ok_bind, if_true] at h
              cases rest' with
              | nil =>
                  exact ⟨⟨stage, others, true⟩, hrest.symm⟩
              | cons extra rest' =>
                  simp [hend.next.pointerAt_cons] at h
            · simp only [hend.pointerAt_cons, except_ok_bind] at h
              simp [hamp] at h
      · simp [hok] at h

end

end OsLabs.Iwish.PipelineSpec
