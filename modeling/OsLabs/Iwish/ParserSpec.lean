import OsLabs.Iwish.Grammar

/-!
# What the parse functions of a command do

One specification for each function of `parser.c` up to `parseSimpleCommand`,
in terms of the tokens from the current index on and valid for every failure
plan.

The specifications go two ways.  The `_sound` lemmas start from what a
function returned and say which part of the sentence it has read.  The `_eq`
lemmas start from the abstract syntax of the tokens ahead and give the
function's result: `buildElements` is `parseSimpleCommand` read off the
syntax tree, with the same requests to the allocator but without tokens,
indices or lookahead.
-/

namespace OsLabs.Iwish.ParserSpec

open OsLabs.Posix
open OsLabs.Iwish.ParserTokens
open OsLabs.Iwish.Parser
open OsLabs.Iwish.Grammar

/-! ## Words -/

theorem parseLetter_eq {sentence : List CString} {index letterIndex : Nat}
    {token : CString} {c : UInt8}
    (htoken : pointerAt sentence index = .ok (some token))
    (hc : token.charAt letterIndex = .ok c) :
    parseLetter sentence index letterIndex =
      .ok (isWordByte c,
        if isWordByte c then letterIndex + 1 else letterIndex) := by
  simp only [parseLetter, htoken, hc, except_ok_bind, isWordByte]
  by_cases hletter : isAsciiLetter c
  · simp [hletter]
  · by_cases hother : isPathPunctuation c <;> simp [hletter, hother]

/-- With enough fuel the loop of `parseWord` decides whether all remaining
characters are word characters. -/
theorem parseWordLoop_eq {sentence : List CString} {index : Nat}
    {token : CString} (htoken : pointerAt sentence index = .ok (some token)) :
    ∀ (fuel letterIndex : Nat) (rest : List UInt8),
      token.bytes.drop letterIndex = rest →
      letterIndex ≤ token.bytes.length → rest.length < fuel →
      parseWordLoop sentence index fuel letterIndex =
        .ok (rest.all isWordByte) := by
  intro fuel
  induction fuel with
  | zero => intro letterIndex rest _ _ hfuel; omega
  | succ fuel ih =>
      intro letterIndex rest hdrop hle hfuel
      cases rest with
      | nil =>
          have hend : letterIndex = token.bytes.length := by
            have := List.drop_eq_nil_iff.mp hdrop
            omega
          have hchar : token.charAt letterIndex = .ok 0 := by
            rw [hend]
            exact token.charAt_length
          simp [parseWordLoop, htoken, hchar]
      | cons c rest =>
          have hchar := CString.charAt_of_drop hdrop
          have hmem : c ∈ token.bytes :=
            List.mem_of_mem_drop (hdrop ▸ List.mem_cons_self)
          have hne : c ≠ 0 := fun h => token.nulFree (h ▸ hmem)
          have hlt : letterIndex < token.bytes.length := by
            by_contra hge
            rw [List.drop_eq_nil_of_le (by omega)] at hdrop
            cases hdrop
          have hletter := parseLetter_eq htoken hchar
          have hshort : rest.length < fuel := by
            simpa using hfuel
          by_cases hword : isWordByte c
          · have hrec := ih (letterIndex + 1) rest
              (drop_succ_of_drop_cons hdrop) hlt hshort
            simp [parseWordLoop, htoken, hchar, hletter, hword, hne, hrec]
          · simp [parseWordLoop, htoken, hchar, hletter, hword, hne]

theorem parseWord_eq {sentence : List CString} {index : Nat} {token : CString}
    (htoken : pointerAt sentence index = .ok (some token)) :
    parseWord sentence index =
      .ok (isWord token, if isWord token then index + 1 else index) := by
  have hloop := parseWordLoop_eq htoken (token.bytes.length + 1) 0
    token.bytes rfl (Nat.zero_le _) (by omega)
  have hword : token.bytes.all isWordByte = isWord token := rfl
  simp only [parseWord, htoken, hloop, hword, except_ok_bind]
  by_cases h : isWord token <;> simp [h]

theorem parseWord_null {sentence : List CString} {index : Nat}
    (hnull : pointerAt sentence index = .ok none) :
    parseWord sentence index = .ok (false, index) := by
  simp [parseWord, hnull]

section

variable {fails : FailurePlan} {sentence tokens : List CString} {index : Nat}

/-! ## Redirections -/

/-- The value `parseRedirection` stores in `isInputRedirection`. -/
def directionFlag (isInput : Bool) : Int := if isInput then 1 else 0

theorem parseRedirectionWord_eq (redirection : Redirection) (flag : Int)
    (hahead : Ahead sentence (index + 1) tokens) :
    parseRedirectionWord sentence index (some redirection) flag =
      match tokens with
      | [] => .ok (false, index,
          some { redirection with isInputRedirection := some flag })
      | w :: _ =>
        if isWord w then .ok (true, index + 2,
          some ⟨redirection.block, some flag, some w⟩)
        else .ok (false, index,
          some { redirection with isInputRedirection := some flag }) := by
  cases tokens with
  | nil =>
      simp [parseRedirectionWord, parseWord_null hahead.pointerAt_nil]
  | cons w rest =>
      have htoken := hahead.pointerAt_cons
      by_cases hword : isWord w
      · simp [parseRedirectionWord, parseWord_eq htoken, hword, htoken]
      · simp [parseRedirectionWord, parseWord_eq htoken, hword]

/-- An operator with its word is read, whatever follows. -/
theorem parseRedirection_eq {isInput : Bool} {w : Word}
    {rest : List CString} (redirection : Redirection)
    (hahead : Ahead sentence index (operator isInput :: w.text :: rest)) :
    parseRedirection sentence index (some redirection) =
      .ok (true, index + 2,
        some ⟨redirection.block, some (directionFlag isInput),
          some w.text⟩) := by
  have htoken := hahead.pointerAt_cons
  have hw := w.isWord
  have hrest := fun flag =>
    parseRedirectionWord_eq redirection flag hahead.next
  cases isInput with
  | true => simp [parseRedirection, htoken, operator, hrest, hw, directionFlag]
  | false =>
      simp [parseRedirection, htoken, operator, hrest, hw, directionFlag,
        show greaterThan ≠ lessThan by decide]

/-- The operator is written through the redirection pointer before the word
is read. -/
theorem parseRedirection_null {isInput : Bool} {rest : List CString}
    (hahead : Ahead sentence index (operator isInput :: rest)) :
    parseRedirection sentence index none = .error .nullDereference := by
  have htoken := hahead.pointerAt_cons
  cases isInput with
  | true => simp [parseRedirection, htoken, operator, parseRedirectionWord]
  | false =>
      simp [parseRedirection, htoken, operator, parseRedirectionWord,
        show greaterThan ≠ lessThan by decide]

theorem parseRedirection_other {token : CString} {rest : List CString}
    (redirection : Option Redirection)
    (hahead : Ahead sentence index (token :: rest))
    (hless : token ≠ lessThan) (hgreater : token ≠ greaterThan) :
    parseRedirection sentence index redirection =
      .ok (false, index, redirection) := by
  simp [parseRedirection, hahead.pointerAt_cons, hless, hgreater]

theorem parseRedirection_sound {redirection result : Option Redirection}
    {ok : Bool} {next : Nat} (hahead : Ahead sentence index tokens)
    (h : parseRedirection sentence index redirection =
      .ok (ok, next, result)) :
    if ok then ∃ isInput w rest,
      tokens = operator isInput :: Word.text w :: rest ∧ next = index + 2
    else next = index := by
  cases tokens with
  | nil =>
      simp only [parseRedirection, hahead.pointerAt_nil, except_ok_bind,
        except_pure, Except.ok.injEq, Prod.mk.injEq] at h
      obtain ⟨rfl, rfl, -⟩ := h
      rfl
  | cons token rest =>
      have hstep : ∀ isInput, token = operator isInput →
          parseRedirectionWord sentence index redirection
            (directionFlag isInput) = .ok (ok, next, result) →
          if ok then ∃ isInput w rest',
            token :: rest = operator isInput :: Word.text w :: rest' ∧
              next = index + 2
          else next = index := by
        intro isInput htoken hword
        cases redirection with
        | none => simp [parseRedirectionWord] at hword
        | some redirection =>
            rw [parseRedirectionWord_eq redirection _ hahead.next] at hword
            cases rest with
            | nil =>
                cases hword
                rfl
            | cons w rest =>
                by_cases hw : isWord w
                · simp only [hw, if_true, Except.ok.injEq,
                    Prod.mk.injEq] at hword
                  obtain ⟨rfl, rfl, -⟩ := hword
                  exact ⟨isInput, ⟨w, hw⟩, rest, by rw [htoken], rfl⟩
                · simp only [hw] at hword
                  cases hword
                  rfl
      by_cases hless : token = lessThan
      · simp only [parseRedirection, hahead.pointerAt_cons, hless,
          except_ok_bind, if_true] at h
        exact hstep true hless h
      · by_cases hgreater : token = greaterThan
        · simp only [parseRedirection, hahead.pointerAt_cons, hgreater,
            except_ok_bind, if_true] at h
          exact hstep false hgreater h
        · rw [parseRedirection_other redirection hahead hless hgreater] at h
          cases h
          rfl

/-! ## Elements -/

/-- The node content an element of the language is stored as: a redirection
asks for its own block. -/
def buildElement (fails : FailurePlan) (element : Element) (heap : Heap) :
    Except Fault (SimpleCommandElement × Heap) :=
  match element with
  | .word w => .ok (⟨0, none, some w.text⟩, heap)
  | .redirect isInput w =>
    match heap.malloc fails with
    | (none, _) => .error .nullDereference
    | (some block, heap) =>
      .ok (⟨1, some ⟨block, some (directionFlag isInput), some w.text⟩, none⟩,
        heap)

/-- The redirection node that is requested and given back when the token
ahead does not begin an element. -/
def probe (fails : FailurePlan) (more : Bool) (heap : Heap) : Heap :=
  if more then
    freeRedirection (makeNewRedirection fails heap).1
      (makeNewRedirection fails heap).2
  else heap

theorem parseSimpleCommandElement_eq (element : Element)
    {rest : List CString} (node : SimpleCommandElement) (heap : Heap)
    (hahead : Ahead sentence index (element.tokens ++ rest)) :
    parseSimpleCommandElement fails sentence index node heap =
      (buildElement fails element heap).map fun built =>
        ⟨true, index + element.tokens.length, built.1, built.2⟩ := by
  cases element with
  | word w =>
      have hword : Ahead sentence index (w.text :: rest) := hahead
      simp [parseSimpleCommandElement, hword.pointerAt_cons,
        parseWord_eq hword.pointerAt_cons, w.isWord, buildElement,
        Element.tokens, Except.map]
  | redirect isInput w =>
      have hop : Ahead sentence index
          (operator isInput :: w.text :: rest) := hahead
      have hnot : isWord (operator isInput) = false := by
        cases isInput <;> decide
      have hstart := hop.pointerAt_cons
      cases hmalloc : heap.malloc fails with
      | mk granted heap' =>
          cases granted with
          | none =>
              simp [parseSimpleCommandElement, hstart, parseWord_eq hstart,
                hnot, makeNewRedirection, hmalloc, parseRedirection_null hop,
                buildElement, Except.map]
          | some block =>
              simp [parseSimpleCommandElement, hstart, parseWord_eq hstart,
                hnot, makeNewRedirection, hmalloc, parseRedirection_eq _ hop,
                buildElement, Element.tokens, Except.map]

/-- The tokens that can follow a complete command. -/
def Stops (tokens : List CString) : Prop :=
  ∀ token rest, tokens = token :: rest → token = bar ∨ token = ampersand

/-- At the end of a command nothing is read, and a node is requested only if
a token is left. -/
theorem parseSimpleCommandElement_stop (node : SimpleCommandElement)
    (heap : Heap) (hnode : node.redirectionPointer = none)
    (hahead : Ahead sentence index tokens) (hstops : Stops tokens) :
    parseSimpleCommandElement fails sentence index node heap =
      .ok ⟨false, index, node, probe fails (!tokens.isEmpty) heap⟩ := by
  cases tokens with
  | nil =>
      simp [parseSimpleCommandElement, hahead.pointerAt_nil, probe]
  | cons token rest =>
      have hstart := hahead.pointerAt_cons
      have htoken : isWord token = false ∧ token ≠ lessThan ∧
          token ≠ greaterThan := by
        rcases hstops token rest rfl with rfl | rfl <;> decide
      have hclear : { node with redirectionPointer := none } = node := by
        cases node
        simpa using hnode.symm
      obtain ⟨hword, hless, hgreater⟩ := htoken
      simp [parseSimpleCommandElement, hstart, parseWord_eq hstart, hword,
        parseRedirection_other _ hahead hless hgreater, probe, hclear]

theorem parseSimpleCommandElement_sound {node : SimpleCommandElement}
    {heap : Heap} {parsed : Parsed SimpleCommandElement}
    (hahead : Ahead sentence index tokens)
    (h : parseSimpleCommandElement fails sentence index node heap =
      .ok parsed) :
    if parsed.ok then ∃ (element : Element) (rest : List CString),
      tokens = element.tokens ++ rest ∧
        parsed.index = index + element.tokens.length
    else parsed.index = index := by
  cases tokens with
  | nil =>
      simp only [parseSimpleCommandElement, hahead.pointerAt_nil,
        except_ok_bind, except_pure, Except.ok.injEq] at h
      subst h
      rfl
  | cons token rest =>
      have hstart := hahead.pointerAt_cons
      by_cases hword : isWord token
      · simp only [parseSimpleCommandElement, hstart, parseWord_eq hstart,
          hword, except_ok_bind, except_pure, if_true, Except.ok.injEq] at h
        subst h
        exact ⟨.word ⟨token, hword⟩, rest, rfl, rfl⟩
      · simp only [parseSimpleCommandElement, hstart, parseWord_eq hstart,
          hword, except_ok_bind, if_false, Bool.false_eq_true] at h
        obtain ⟨⟨ok, next, result⟩, hparse, hrest⟩ := except_bind_eq_ok.mp h
        have hsound := parseRedirection_sound hahead hparse
        cases ok with
        | true =>
            obtain ⟨isInput, w, rest', htokens, hnext⟩ := hsound
            cases hrest
            exact ⟨.redirect isInput w, rest', htokens, hnext⟩
        | false =>
            cases hrest
            rfl

/-! ## Commands -/

/-- What `parseSimpleCommand` leaves behind: its result, the elements it has
not read, the nodes it keeps and the heap. -/
structure ElementsBuilt where
  ok : Bool
  left : List Element
  nodes : SimpleCommandElementList
  heap : Heap
  deriving DecidableEq

/-- `parseSimpleCommand` on the elements of a command, starting in the fresh
node `block`; `more` says whether a token follows the command. -/
def buildElements (fails : FailurePlan) (more : Bool) :
    List Element → Nat → Heap → Except Fault ElementsBuilt
  | [], block, heap =>
    .ok ⟨false, [], [⟨block, uninitialisedElement⟩], probe fails more heap⟩
  | element :: elements, block, heap => do
    let (content, heap) ← buildElement fails element heap
    match heap.malloc fails with
    | (none, heap) => return ⟨false, elements, [⟨block, content⟩], heap⟩
    | (some child, heap) =>
      let rest ← buildElements fails more elements child heap
      if rest.ok then
        return ⟨true, rest.left, ⟨block, content⟩ :: rest.nodes, rest.heap⟩
      else
        return ⟨true, rest.left, [⟨block, content⟩],
          freeSimpleCommandElementList rest.nodes rest.heap⟩

theorem parseSimpleCommand_eq {rest : List CString} (hstops : Stops rest)
    (elements : List Element) :
    ∀ (fuel index block : Nat) (heap : Heap), elements.length < fuel →
      Ahead sentence index (elementTokens elements ++ rest) →
      parseSimpleCommand fails sentence fuel index
          [⟨block, uninitialisedElement⟩] heap =
        (buildElements fails (!rest.isEmpty) elements block heap).map
          fun built => ⟨built.ok,
            sentence.length - (elementTokens built.left ++ rest).length,
            built.nodes, built.heap⟩ := by
  induction elements with
  | nil =>
      intro fuel index block heap hfuel hahead
      obtain ⟨fuel, rfl⟩ := Nat.exists_eq_succ_of_ne_zero
        (Nat.ne_of_gt hfuel)
      have hindex := hahead.index_eq
      simp only [elementTokens_nil, List.nil_append] at hahead hindex
      cases rest with
      | nil =>
          simp only [parseSimpleCommand, hahead.pointerAt_nil, buildElements,
            probe, Except.map, except_ok_bind, except_pure, ← hindex,
            elementTokens_nil, List.nil_append]
          rfl
      | cons token rest =>
          simp only [parseSimpleCommand, hahead.pointerAt_cons, buildElements,
            parseSimpleCommandElement_stop uninitialisedElement heap rfl
              hahead hstops, Except.map, except_ok_bind, except_pure, ← hindex,
            elementTokens_nil, List.nil_append]
          rfl
  | cons element elements ih =>
      intro fuel index block heap hfuel hahead
      obtain ⟨fuel, rfl⟩ := Nat.exists_eq_succ_of_ne_zero
        (Nat.ne_of_gt (Nat.lt_of_le_of_lt (Nat.zero_le _) hfuel))
      simp only [elementTokens_cons, List.append_assoc] at hahead
      obtain ⟨head, tail, htokens, -, -⟩ := element.tokens_head
      have hstart : pointerAt sentence index = .ok (some head) := by
        rw [htokens] at hahead
        exact hahead.pointerAt_cons
      have hindex := hahead.skip.index_eq
      simp only [parseSimpleCommand, hstart, except_ok_bind,
        parseSimpleCommandElement_eq element uninitialisedElement heap hahead,
        buildElements, makeNewSimpleCommandElementList]
      cases hbuild : buildElement fails element heap with
      | error fault => rfl
      | ok built =>
          simp only [Except.map, except_ok_bind, if_true]
          cases hmalloc : built.2.malloc fails with
          | mk granted heap' =>
              cases granted with
              | none => simp [hindex]
              | some child =>
                  have hrec := ih fuel (index + element.tokens.length) child
                    heap' (by simpa using hfuel) hahead.skip
                  simp only [hrec]
                  cases buildElements fails (!rest.isEmpty) elements child
                    heap' with
                  | error fault => rfl
                  | ok sub => by_cases hok : sub.ok <;> simp [Except.map, hok]

/-- Elements are read from the front. -/
theorem buildElements_left {more : Bool} {elements : List Element} :
    ∀ {block : Nat} {heap : Heap} {built : ElementsBuilt},
      buildElements fails more elements block heap = .ok built →
      built.left <:+ elements := by
  induction elements with
  | nil =>
      intro block heap built h
      cases h
      exact List.suffix_refl []
  | cons element elements ih =>
      intro block heap built h
      obtain ⟨content, -, h⟩ := except_bind_eq_ok.mp h
      cases hmalloc : content.2.malloc fails with
      | mk granted heap' =>
          simp only [hmalloc] at h
          cases granted with
          | none =>
              cases h
              exact List.suffix_cons element elements
          | some child =>
              obtain ⟨sub, hsub, h⟩ := except_bind_eq_ok.mp h
              have hleft := (ih hsub).trans (List.suffix_cons element elements)
              by_cases hok : sub.ok
              · simp only [hok, if_true] at h
                cases h
                exact hleft
              · simp only [hok] at h
                cases h
                exact hleft

/-- How a call of `parseSimpleCommand` returns: there is no token, the token
does not begin an element, the node for the next element is refused, or that
node has been tried; when it was not filled it is given back. -/
inductive SimpleCommandReturns (fails : FailurePlan) (sentence : List CString)
    (fuel index : Nat) : SimpleCommandElementList → Heap →
      Parsed SimpleCommandElementList → Prop
  | atEnd {list : SimpleCommandElementList} {heap : Heap}
      (hread : pointerAt sentence index = .ok none) :
      SimpleCommandReturns fails sentence fuel index list heap
        ⟨false, index, list, heap⟩
  | noElement {token : CString} {node : SimpleCommandElementNode}
      {next : SimpleCommandElementList} {heap : Heap}
      {element : Parsed SimpleCommandElement}
      (hread : pointerAt sentence index = .ok (some token))
      (helement : parseSimpleCommandElement fails sentence index node.element
        heap = .ok element) (hok : element.ok = false) :
      SimpleCommandReturns fails sentence fuel index (node :: next) heap
        ⟨false, index, { node with element := element.node } :: next,
          element.heap⟩
  | refused {token : CString} {node : SimpleCommandElementNode}
      {next : SimpleCommandElementList} {heap heap' : Heap}
      {element : Parsed SimpleCommandElement}
      (hread : pointerAt sentence index = .ok (some token))
      (helement : parseSimpleCommandElement fails sentence index node.element
        heap = .ok element) (hok : element.ok = true)
      (hnew : makeNewSimpleCommandElementList fails element.heap =
        ([], heap')) :
      SimpleCommandReturns fails sentence fuel index (node :: next) heap
        ⟨false, element.index, [{ node with element := element.node }], heap'⟩
  | accepted {token : CString} {node : SimpleCommandElementNode}
      {next child : SimpleCommandElementList} {heap heap' : Heap}
      {element : Parsed SimpleCommandElement}
      {rest : Parsed SimpleCommandElementList}
      (hread : pointerAt sentence index = .ok (some token))
      (helement : parseSimpleCommandElement fails sentence index node.element
        heap = .ok element) (hok : element.ok = true)
      (hnew : makeNewSimpleCommandElementList fails element.heap =
        (child, heap'))
      (hrest : parseSimpleCommand fails sentence fuel element.index child
        heap' = .ok rest) :
      SimpleCommandReturns fails sentence fuel index (node :: next) heap
        ⟨true, rest.index, { node with element := element.node } ::
            (if rest.ok then rest.node else []),
          if rest.ok then rest.heap
          else freeSimpleCommandElementList rest.node rest.heap⟩

theorem parseSimpleCommand_returns {fuel : Nat}
    {list : SimpleCommandElementList} {heap : Heap}
    {parsed : Parsed SimpleCommandElementList}
    (h : parseSimpleCommand fails sentence (fuel + 1) index list heap =
      .ok parsed) :
    SimpleCommandReturns fails sentence fuel index list heap parsed := by
  obtain ⟨pointer, hread, h⟩ := except_bind_eq_ok.mp h
  cases pointer with
  | none =>
      cases h
      exact .atEnd hread
  | some token =>
      cases list with
      | nil => cases h
      | cons node next =>
          obtain ⟨element, helement, h⟩ := except_bind_eq_ok.mp h
          cases hok : element.ok with
          | false =>
              simp only [hok] at h
              cases h
              exact .noElement hread helement hok
          | true =>
              simp only [hok, if_true] at h
              cases hnew : makeNewSimpleCommandElementList fails
                  element.heap with
              | mk child heap' =>
                  rw [hnew] at h
                  cases child with
                  | nil =>
                      cases h
                      exact .refused hread helement hok hnew
                  | cons first others =>
                      obtain ⟨rest, hrest, h⟩ := except_bind_eq_ok.mp h
                      have haccepted : SimpleCommandReturns fails sentence fuel
                          index (node :: next) heap _ :=
                        .accepted hread helement hok hnew hrest
                      by_cases hrestOk : rest.ok
                      · simp only [hrestOk, if_true] at h haccepted
                        cases h
                        exact haccepted
                      · simp only [hrestOk] at h haccepted
                        cases h
                        exact haccepted

theorem parseSimpleCommand_sound :
    ∀ {fuel index : Nat} {tokens : List CString}
      {list : SimpleCommandElementList} {heap : Heap}
      {parsed : Parsed SimpleCommandElementList},
      Ahead sentence index tokens →
      parseSimpleCommand fails sentence fuel index list heap = .ok parsed →
      ∃ elements rest, tokens = elementTokens elements ++ rest ∧
        parsed.index = index + (elementTokens elements).length ∧
        (parsed.ok = true → elements ≠ []) := by
  intro fuel
  induction fuel with
  | zero =>
      intro index tokens list heap parsed _ h
      cases h
  | succ fuel ih =>
      intro index tokens list heap parsed hahead h
      cases parseSimpleCommand_returns h with
      | atEnd => exact ⟨[], tokens, rfl, rfl, fun h => absurd h (by simp)⟩
      | noElement => exact ⟨[], tokens, rfl, rfl, fun h => absurd h (by simp)⟩
      | refused hread helement hok hnew =>
          have hsound := parseSimpleCommandElement_sound hahead helement
          rw [if_pos hok] at hsound
          obtain ⟨first, rest, htokens, hindex⟩ := hsound
          exact ⟨[first], rest, by simpa using htokens, by simpa using hindex,
            fun _ => by simp⟩
      | accepted hread helement hok hnew hrest =>
          have hsound := parseSimpleCommandElement_sound hahead helement
          rw [if_pos hok] at hsound
          obtain ⟨first, rest, htokens, hindex⟩ := hsound
          rw [htokens] at hahead
          have hnext := hahead.skip
          rw [← hindex] at hnext
          obtain ⟨elements, rest', htokens', hindex', -⟩ := ih hnext hrest
          refine ⟨first :: elements, rest', ?_, ?_, fun _ => by simp⟩
          · rw [htokens, htokens', elementTokens_cons, List.append_assoc]
          · rw [hindex', hindex, elementTokens_cons, List.length_append,
              Nat.add_assoc]

end

end OsLabs.Iwish.ParserSpec
