import OsLabs.Iwish.PipelineSpec

/-!
# The parser leaves the defined behaviour only after a refused request

No parse function reads outside the sentence or outside a token, and none
runs out of fuel: the only fault of a parse is the null dereference of
`parseRedirection` when the request for its node was refused.  With every
request granted, `parseInput` therefore returns on every array.
-/

namespace OsLabs.Iwish.ParserFaults

open OsLabs.Posix
open OsLabs.Iwish.ParserTokens
open OsLabs.Iwish.Parser
open OsLabs.Iwish.Grammar
open OsLabs.Iwish.ParserSpec
open OsLabs.Iwish.PipelineSpec

/-- The one fault a parse can run into. -/
def RefusedNode (fails : FailurePlan) (fault : Fault) : Prop :=
  fault = .nullDereference ∧ ∃ n, fails n = true

section

variable {fails : FailurePlan} {sentence tokens : List CString} {index : Nat}

theorem parseRedirection_fault {redirection : Option Redirection}
    {fault : Fault} (hahead : Ahead sentence index tokens)
    (h : parseRedirection sentence index redirection = .error fault) :
    fault = .nullDereference ∧ redirection = none := by
  cases tokens with
  | nil => simp [parseRedirection, hahead.pointerAt_nil] at h
  | cons token rest =>
      have hword : ∀ flag, parseRedirectionWord sentence index redirection
          flag = .error fault →
          fault = .nullDereference ∧ redirection = none := by
        intro flag hflag
        cases redirection with
        | none =>
            cases hflag
            exact ⟨rfl, rfl⟩
        | some redirection =>
            rw [parseRedirectionWord_eq redirection flag hahead.next] at hflag
            cases rest with
            | nil => cases hflag
            | cons w rest => by_cases hw : isWord w <;> simp [hw] at hflag
      simp only [parseRedirection, hahead.pointerAt_cons,
        except_ok_bind] at h
      by_cases hless : token = lessThan
      · simp only [hless, if_true] at h
        exact hword 1 h
      · by_cases hgreater : token = greaterThan
        · simp only [hgreater, show greaterThan ≠ lessThan by decide,
            if_true, if_false] at h
          exact hword 0 h
        · simp [hless, hgreater] at h

theorem parseSimpleCommandElement_fault {node : SimpleCommandElement}
    {heap : Heap} {fault : Fault} (hahead : Ahead sentence index tokens)
    (h : parseSimpleCommandElement fails sentence index node heap =
      .error fault) : RefusedNode fails fault := by
  cases tokens with
  | nil => simp [parseSimpleCommandElement, hahead.pointerAt_nil] at h
  | cons token rest =>
      have hstart := hahead.pointerAt_cons
      by_cases hword : isWord token
      · simp [parseSimpleCommandElement, hstart, parseWord_eq hstart,
          hword] at h
      · simp only [parseSimpleCommandElement, hstart, parseWord_eq hstart,
          hword, except_ok_bind, Bool.false_eq_true, if_false] at h
        rcases except_bind_eq_error.mp h with h | ⟨⟨ok, next, result⟩, -, h⟩
        · obtain ⟨rfl, hnone⟩ := parseRedirection_fault hahead h
          refine ⟨rfl, heap.calls, ?_⟩
          by_contra hgranted
          simp [makeNewRedirection, Heap.malloc, hgranted] at hnone
        · cases ok <;> cases h

theorem parseSimpleCommand_fault :
    ∀ {fuel index : Nat} {tokens : List CString}
      {node : SimpleCommandElementNode} {next : SimpleCommandElementList}
      {heap : Heap} {fault : Fault},
      tokens.length < fuel → Ahead sentence index tokens →
      parseSimpleCommand fails sentence fuel index (node :: next) heap =
        .error fault → RefusedNode fails fault := by
  intro fuel
  induction fuel with
  | zero =>
      intro index tokens node next heap fault hfuel
      omega
  | succ fuel ih =>
      intro index tokens node next heap fault hfuel hahead h
      cases tokens with
      | nil => simp [parseSimpleCommand, hahead.pointerAt_nil] at h
      | cons token rest =>
          simp only [parseSimpleCommand, hahead.pointerAt_cons,
            except_ok_bind] at h
          rcases except_bind_eq_error.mp h with h | ⟨element, helement, h⟩
          · exact parseSimpleCommandElement_fault hahead h
          · have hsound := parseSimpleCommandElement_sound hahead helement
            by_cases hok : element.ok
            · simp only [hok, if_true] at hsound h
              obtain ⟨first, rest', htokens, hindex⟩ := hsound
              obtain ⟨head, tail, hfirst, -, -⟩ := first.tokens_head
              have hshort : rest'.length < fuel := by
                have hlen := congrArg List.length htokens
                simp only [hfirst, List.length_cons,
                  List.length_append] at hlen hfuel
                omega
              rw [htokens] at hahead
              have hnext := hahead.skip
              rw [← hindex] at hnext
              cases hnew : makeNewSimpleCommandElementList fails
                  element.heap with
              | mk child heap' =>
                  simp only [hnew] at h
                  cases child with
                  | nil => cases h
                  | cons childNode childNext =>
                      rcases except_bind_eq_error.mp h with h | ⟨sub, -, h⟩
                      · exact ih hshort hnext h
                      · by_cases hsub : sub.ok <;> simp [hsub] at h
            · simp [hok] at h

theorem parsePipeLine2_fault {bound : Nat}
    {parse : Nat → SimpleCommandList → Heap →
      Except Fault (Parsed SimpleCommandList)}
    (hparse : ∀ {tokens : List CString} {index block elementBlock : Nat}
      {heap : Heap} {fault : Fault}, tokens.length + 1 < bound →
      Ahead sentence index tokens →
      parse index (freshCommandList block elementBlock) heap = .error fault →
      RefusedNode fails fault)
    {tokens : List CString} {index : Nat} {node : SimpleCommandNode}
    {tail : SimpleCommandList} {heap : Heap} {fault : Fault}
    (hshort : tokens.length < bound)
    (hahead : Ahead sentence index tokens)
    (h : parsePipeLine2 fails sentence parse index (node :: tail) heap =
      .error fault) : RefusedNode fails fault := by
  cases tokens with
  | nil => simp [parsePipeLine2_stop _ _ hahead] at h
  | cons following rest =>
      by_cases hbar : following = bar
      · rw [hbar] at hahead
        rw [parsePipeLine2_bar _ _ _ hahead] at h
        cases hfirst : heap.malloc fails with
        | mk granted heap₁ =>
            simp only [hfirst] at h
            cases granted with
            | none => cases h
            | some block =>
                cases hsecond : heap₁.malloc fails with
                | mk granted heap₂ =>
                    simp only [hsecond] at h
                    cases granted with
                    | none => cases h
                    | some elementBlock =>
                        rcases except_bind_eq_error.mp h with h | ⟨sub, -, h⟩
                        · exact hparse hshort hahead.next h
                        · by_cases hsub : sub.ok <;> simp [hsub] at h
      · rw [parsePipeLine2_stop _ _ hahead
          (by rintro _ _ ⟨⟩; exact hbar)] at h
        cases h

theorem parsePipeLine_fault :
    ∀ {fuel index : Nat} {tokens : List CString} {node : SimpleCommandNode}
      {tail : SimpleCommandList} {heap : Heap} {fault : Fault},
      node.simpleCommand.elementList ≠ [] →
      tokens.length < fuel → Ahead sentence index tokens →
      parsePipeLine fails sentence fuel index (node :: tail) heap =
        .error fault → RefusedNode fails fault := by
  intro fuel
  induction fuel with
  | zero =>
      intro index tokens node tail heap fault _ hfuel
      omega
  | succ fuel ih =>
      intro index tokens node tail heap fault hnode hfuel hahead h
      cases tokens with
      | nil => simp [parsePipeLine, hahead.pointerAt_nil] at h
      | cons token rest =>
          have hstart := hahead.pointerAt_cons
          by_cases hword : isWord token
          · simp only [parsePipeLine, hstart, parseWord_eq hstart, hword,
              except_ok_bind, if_true, Nat.add_sub_cancel] at h
            rcases except_bind_eq_error.mp h with h | ⟨command, hcommand, h⟩
            · obtain ⟨element, elements, helements⟩ :=
                List.exists_cons_of_ne_nil hnode
              rw [helements] at h
              have hlen := hahead.length_eq
              exact parseSimpleCommand_fault (by omega) hahead h
            · obtain ⟨elements, rest', htokens, hindex, hne⟩ :=
                parseSimpleCommand_sound hahead hcommand
              by_cases hok : command.ok
              · simp only [hok, if_true] at h
                have hshort : rest'.length < fuel := by
                  have hlen := congrArg List.length htokens
                  have hle := length_le_elementTokens elements
                  have hpos := List.length_pos_iff.mpr (hne hok)
                  simp only [List.length_cons, List.length_append] at hlen hfuel
                  omega
                rw [htokens] at hahead
                have hnext := hahead.skip
                rw [← hindex] at hnext
                rcases except_bind_eq_error.mp h with h | ⟨sub, -, h⟩
                · exact parsePipeLine2_fault
                    (fun hrest => ih (by simp) (Nat.lt_of_succ_lt hrest))
                    hshort hnext h
                · by_cases hsub : sub.ok <;> simp [hsub] at h
              · simp [hok] at h
          · simp [parsePipeLine, hstart, parseWord_eq hstart, hword] at h

/-- The only fault of a parse, whatever the array. -/
theorem parseInput_fault {list : SimpleList} {block elementBlock : Nat}
    {heap : Heap} {fault : Fault}
    (hfresh : list.pipeline = ⟨freshCommandList block elementBlock⟩)
    (h : parseInput fails sentence list heap = .error fault) :
    RefusedNode fails fault := by
  have hahead := Ahead.start sentence
  cases sentence with
  | nil => simp [parseInput, hahead.pointerAt_nil] at h
  | cons token rest =>
      simp only [parseInput, hahead.pointerAt_cons, except_ok_bind,
        hfresh] at h
      rcases except_bind_eq_error.mp h with h | ⟨parsed, hparsed, h⟩
      · exact parsePipeLine_fault (by simp) (Nat.lt_succ_self _) hahead h
      · by_cases hok : parsed.ok
        · obtain ⟨stage, others, rest', hrest, hindex⟩ :=
            parsePipeLine_sound hahead hparsed hok
          have hend : Ahead (token :: rest) parsed.index rest' := by
            have hsplit : Ahead (token :: rest) 0
                (pipelineTokens stage others ++ rest') := by
              rw [← hrest]
              exact hahead
            rw [hindex]
            exact hsplit.skip
          simp only [hok, if_true] at h
          cases rest' with
          | nil => simp [hend.pointerAt_nil] at h
          | cons last rest' =>
              by_cases hamp : last = ampersand
              · subst hamp
                simp only [hend.pointerAt_cons, except_ok_bind, if_true] at h
                cases rest' with
                | nil => simp [hend.next.pointerAt_nil] at h
                | cons extra rest' => simp [hend.next.pointerAt_cons] at h
              · simp [hend.pointerAt_cons, hamp] at h
        · simp [hok] at h

/-- With every request granted the parser returns. -/
theorem parseInput_returns (sentence : List CString) {list : SimpleList}
    {block elementBlock : Nat} (heap : Heap)
    (hfresh : list.pipeline = ⟨freshCommandList block elementBlock⟩) :
    ∃ result, parseInput noFailures sentence list heap = .ok result := by
  cases h : parseInput noFailures sentence list heap with
  | ok result => exact ⟨result, rfl⟩
  | error fault =>
      obtain ⟨-, n, hn⟩ := parseInput_fault hfresh h
      cases hn

end

end OsLabs.Iwish.ParserFaults
