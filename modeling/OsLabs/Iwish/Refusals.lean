import Mathlib.Data.List.Infix
import Mathlib.Data.List.TakeWhile
import OsLabs.Iwish.Script

/-!
# Sessions with refused requests

A request that is refused may cost a line some of its bytes, and a stage of
its pipeline the last element; the shell does not notice either.  Or the line
is rejected, or the shell gives up, or crashes.  That is all: `DegradedStep`
is the machine of `TranscriptStep` with these losses, and `session_degrades`
shows that every session is a run of it, whichever requests are refused.  What
is run is still spelled by bytes of the line that has been read, the first
sixteen among them, and no line is run twice.
-/

namespace OsLabs.Iwish.Refusals

open OsLabs.Posix
open OsLabs.Iwish.DBA
open OsLabs.Iwish.ParserTokens
open OsLabs.Iwish.Parser
open OsLabs.Iwish.Grammar
open OsLabs.Iwish.ParserSpec
open OsLabs.Iwish.PipelineSpec
open OsLabs.Iwish.ParseTree
open OsLabs.Iwish.ParserOutcome
open OsLabs.Iwish.ParserCorrect
open OsLabs.Iwish.Reader
open OsLabs.Iwish.LogicalLine
open OsLabs.Iwish.LineReading
open OsLabs.Iwish.FrontEnd
open OsLabs.Iwish.JobHandler
open OsLabs.Iwish.Shell
open OsLabs.Iwish.Sessions
open OsLabs.Iwish.Script

/-! ## Bytes that are lost -/

section Reading

variable {fails : FailurePlan} {fuel : Nat} {stdin rest : List UInt8}
  {line stored text : List UInt8}

/-- `kept` are some of the bytes of `text`, in their order; those that fit
into a new array are among them. -/
structure KeptOf (text kept : List UInt8) : Prop where
  sublist : kept.Sublist text
  first : text.take initSize <+: kept

theorem KeptOf.added {kept : List UInt8} (h : KeptOf text kept) (c : UInt8) :
    KeptOf (text ++ [c]) (kept ++ [c]) := by
  refine ⟨h.sublist.append (List.Sublist.refl [c]), ?_⟩
  by_cases hlong : initSize ≤ text.length
  · rw [List.take_append_of_le_length hlong]
    exact h.first.trans (List.prefix_append kept [c])
  · have hall := h.first
    rw [List.take_of_length_le (Nat.le_of_not_le hlong)] at hall
    obtain rfl := h.sublist.eq_of_length_le hall.length_le
    exact List.take_prefix _ _

theorem KeptOf.lost {kept : List UInt8} (h : KeptOf text kept)
    (hfull : initSize ≤ kept.length) (c : UInt8) :
    KeptOf (text ++ [c]) kept := by
  refine ⟨h.sublist.trans (List.sublist_append_left text [c]), ?_⟩
  rw [List.take_append_of_le_length (hfull.trans h.sublist.length_le)]
  exact h.first

/-- An array does not get smaller. -/
theorem addElemToArr_capacity {β : Type} {status : Int}
    {arr arr' : DynamicByteArray β} {bytestring : List β} {heap heap' : Heap}
    (h : addElemToArr fails arr bytestring heap = .ok (status, arr', heap')) :
    arr.capacity ≤ arr'.capacity := by
  unfold addElemToArr at h
  by_cases hfull : arr.nrOfElements = arr.capacity
  · simp only [if_pos hfull] at h
    cases hplan : fails heap.calls with
    | true =>
        rw [resizeArr_refused arr _ hplan] at h
        cases h
        exact Nat.le_refl _
    | false =>
        simp only [resizeArr, Heap.realloc, hplan, Bool.false_eq_true,
          if_false, Int.lt_irrefl] at h
        obtain ⟨elements, -, h⟩ := except_bind_eq_ok.mp h
        cases h
        show arr.capacity ≤ 2 * arr.capacity
        omega
  · simp only [if_neg hfull, Int.lt_irrefl, if_false] at h
    obtain ⟨elements, -, h⟩ := except_bind_eq_ok.mp h
    cases h
    exact Nat.le_refl _

theorem append_capacity {r r' : Reading} {c : UInt8}
    (h : r.append fails c = .ok r') :
    r.string.capacity ≤ r'.string.capacity := by
  obtain ⟨⟨status, string, heap⟩, hadd, h⟩ := except_bind_eq_ok.mp h
  cases h
  exact addElemToArr_capacity hadd

/-- The string under construction holds some of the bytes of `text`. -/
def HoldsSome (text : List UInt8) (string : DynamicByteArray UInt8) : Prop :=
  ∃ kept, KeptOf text kept ∧ initSize ≤ string.capacity ∧ Text string kept

theorem appends_holdsSome (fails : FailurePlan) :
    Appends fails HoldsSome := by
  rintro text string ⟨kept, hkept, hroom, htext⟩ stream heap c
  obtain ⟨string', heap', stored, happend, htext', hlost, hgranted⟩ :=
    htext.append fails stream heap c
  refine ⟨string', heap', happend, stored, ?_,
    hroom.trans (append_capacity happend), htext'⟩
  rcases hlost with rfl | rfl
  · exact hkept.added c
  · -- a byte is lost only if the array is full
    apply hkept.lost
    by_contra hfree
    have hfits : stored.length + 1 ≤ string.capacity := by omega
    obtain ⟨hstored, -⟩ := (hgranted (stored.length + 1)
      (Nat.lt_succ_self _)).mp (granted_of_le hfits)
    exact absurd hstored (by simp)

/-- Without an array `readInput` reads nothing. -/
theorem readInput_none {heap heap' : Heap}
    (hread : readInput fails fuel stdin heap = .ok (none, rest, heap')) :
    rest = stdin := by
  unfold readInput at hread
  rcases hnew : makeNewDynamicByteArray (β := UInt8) fails 1 heap with
    ⟨_ | string, heap₁⟩
  · rw [hnew] at hread
    cases hread
    rfl
  · rw [hnew] at hread
    obtain ⟨r, -, hread⟩ := except_bind_eq_ok.mp hread
    obtain ⟨r', -, hread⟩ := except_bind_eq_ok.mp hread
    cases hread

/-- What `readInput` returns holds some of the bytes of the stored line and of
its terminator, and nothing behind them. -/
theorem readInput_kept {input : Block UInt8} {heap heap' : Heap}
    (hread : readInput fails fuel stdin heap =
      .ok (some input, rest, heap')) :
    ∃ (line stored text : List UInt8) (n : Nat),
      logicalLine stdin = some (line, rest) ∧
      Doubled line stored ∧ KeptOf (stored ++ [0]) text ∧
      input.cells = text.map some ++ indeterminate n := by
  unfold readInput at hread
  rcases hnew : makeNewDynamicByteArray (β := UInt8) fails 1 heap with
    ⟨_ | string, heap₁⟩
  · rw [hnew] at hread
    cases hread
  · rw [hnew] at hread
    obtain ⟨r, hloop, hread⟩ := except_bind_eq_ok.mp hread
    obtain ⟨r', happend, hread⟩ := except_bind_eq_ok.mp hread
    cases hread
    obtain ⟨hfilled, htype, hcapacity, -⟩ :=
      makeNewDynamicByteArray_filled hnew
    cases hline : logicalLine stdin with
    | none =>
        rw [readLoop_never_ends hline ⟨htype, [], hfilled.represents⟩] at hloop
        cases hloop
    | some result =>
        obtain ⟨line, rest'⟩ := result
        obtain ⟨stored, hstored, hdoubled⟩ := storedLine_of_logicalLine hline
        have hempty : HoldsSome [] string :=
          ⟨[], ⟨List.Sublist.refl [], List.prefix_refl []⟩,
            Nat.le_of_eq hcapacity.symm, htype, hfilled⟩
        obtain ⟨string', heap₂, hloop', hholds⟩ :=
          (appends_holdsSome fails).readLoop [] hstored hempty
            (Nat.le_refl _) heap₁
        -- as many rounds as both runs of the loop have
        have hmore := readLoop_le (Nat.le_add_right fuel (stdin.length + 1))
          hloop
        rw [readLoop_le (Nat.le_add_left _ fuel) hloop'] at hmore
        cases hmore
        obtain ⟨string'', heap₃, happend', kept, hkept, -, htext⟩ :=
          appends_holdsSome fails _ _ hholds rest' heap₂ 0
        rw [happend'] at happend
        cases happend
        obtain ⟨n, hcells⟩ := htext.cells
        exact ⟨line, stored, kept, n, rfl, hdoubled, hkept, hcells⟩

/-- Without its backslashes a line is stored as it is. -/
theorem filter_doubled (h : Doubled line stored) :
    stored.filter (· != backslash) = line.filter (· != backslash) := by
  induction h with
  | nil => rfl
  | plain hb h ih => simp only [List.filter_cons, ih]
  | escape c2 h ih => simp [List.filter_cons, ih]

/-- Bytes of the stored line without a backslash are bytes of the line. -/
theorem sublist_line (hdoubled : Doubled line stored)
    (htext : text.Sublist stored) (hplain : backslash ∉ text) :
    text.Sublist line := by
  have hall : text.filter (· != backslash) = text := by
    rw [List.filter_eq_self]
    exact fun c hc => bne_iff_ne.mpr fun heq => hplain (heq ▸ hc)
  have hfilter := htext.filter (· != backslash)
  rw [hall, filter_doubled hdoubled] at hfilter
  exact hfilter.trans List.filter_sublist

theorem cString_cut (front back : List UInt8) :
    cString (front ++ 0 :: back) = cString front := by
  induction front with
  | nil => rfl
  | cons c front ih =>
      unfold cString at ih ⊢
      rw [List.cons_append, List.takeWhile_cons, List.takeWhile_cons, ih]

theorem cString_mono {front text : List UInt8} (h : front <+: text) :
    cString front <+: cString text := by
  obtain ⟨back, rfl⟩ := h
  unfold cString
  rw [List.takeWhile_append]
  split
  · exact (List.takeWhile_prefix _).trans (List.prefix_append _ _)
  · exact List.prefix_refl _

/-- Up to its first backslash a line is stored as it is. -/
theorem cString_take (h : Doubled line stored) (n : Nat)
    (hplain : backslash ∉ cString (stored.take n)) :
    cString (line.take n) = cString (stored.take n) := by
  have hbackslash : backslash ≠ 0 := by decide
  induction h generalizing n with
  | nil => rfl
  | @plain line stored c hb h ih =>
      cases n with
      | zero => rfl
      | succ n =>
          by_cases hc : c = 0
          · subst hc
            rfl
          · have hcut : ∀ l : List UInt8,
                cString (c :: l) = c :: cString l := fun l =>
              List.takeWhile_cons_of_pos (by simpa using hc)
            rw [List.take_succ_cons, hcut] at hplain
            rw [List.take_succ_cons, List.take_succ_cons, hcut, hcut,
              ih n fun hmem => hplain (List.mem_cons_of_mem c hmem)]
  | escape c2 h ih =>
      cases n with
      | zero => rfl
      | succ n =>
          refine absurd ?_ hplain
          unfold cString
          rw [List.take_succ_cons,
            List.takeWhile_cons_of_pos (by simpa using hbackslash)]
          exact List.mem_cons_self

end Reading

/-! ## No token is lost -/

section Tokens

variable {β : Type} {fails : FailurePlan} {fuel : Nat} {heap heap' : Heap}

theorem malloc_some {block : Nat}
    (h : heap.malloc fails = (some block, heap')) :
    heap.malloc noFailures = (some block, heap') := by
  unfold Heap.malloc at h
  split at h
  · cases h
  · exact h

theorem makeNewDynamicByteArray_granted {typeSize : Nat}
    {arr : DynamicByteArray β}
    (h : makeNewDynamicByteArray fails typeSize heap = (some arr, heap')) :
    makeNewDynamicByteArray noFailures typeSize heap = (some arr, heap') := by
  unfold makeNewDynamicByteArray at h ⊢
  rcases hfirst : heap.malloc fails with ⟨_ | block, heap₁⟩
  · rw [hfirst] at h
    cases h
  · rw [hfirst] at h
    rw [malloc_some hfirst]
    simp only at h ⊢
    rcases hsecond : heap₁.malloc fails with ⟨_ | elementsBlock, heap₂⟩
    · rw [hsecond] at h
      cases h
    · rw [hsecond] at h
      rw [malloc_some hsecond]
      exact h

/-- An append that does not fail was refused nothing. -/
theorem addElemToArr_granted {status : Int} {arr arr' : DynamicByteArray β}
    {bytestring : List β}
    (h : addElemToArr fails arr bytestring heap = .ok (status, arr', heap'))
    (hstatus : ¬ status < 0) :
    addElemToArr noFailures arr bytestring heap =
      .ok (status, arr', heap') := by
  unfold addElemToArr at h ⊢
  by_cases hfull : arr.nrOfElements = arr.capacity
  · simp only [if_pos hfull] at h ⊢
    cases hplan : fails heap.calls with
    | true =>
        rw [resizeArr_refused arr _ hplan] at h
        cases h
        exact absurd (by decide) hstatus
    | false =>
        have hsame : resizeArr noFailures arr (2 * arr.capacity) heap =
            resizeArr fails arr (2 * arr.capacity) heap := by
          simp [resizeArr, Heap.realloc, hplan]
        rw [hsame]
        exact h
  · simp only [if_neg hfull] at h ⊢
    exact h

/-- So was a split that returns an array. -/
theorem tokeniseLoop_granted {token : Option Nat}
    {input input' : List (Option UInt8)} {saved : Nat}
    {arr : DynamicByteArray (PointerByte Nat)} {strings : Strings}
    (h : tokeniseLoop fails fuel token input saved arr heap =
      .ok (some strings, input', heap')) :
    tokeniseLoop noFailures fuel token input saved arr heap =
      .ok (some strings, input', heap') := by
  induction fuel generalizing token input saved arr heap with
  | zero => cases h
  | succ fuel ih =>
      unfold tokeniseLoop at h ⊢
      obtain ⟨⟨status, arr₁, heap₁⟩, hadd, h⟩ := except_bind_eq_ok.mp h
      by_cases hstatus : status < 0
      · simp only [if_pos hstatus] at h
        cases h
      · rw [addElemToArr_granted hadd hstatus, except_ok_bind]
        simp only [if_neg hstatus] at h ⊢
        cases token with
        | none => exact h
        | some offset =>
            obtain ⟨⟨token, input₁, saved₁⟩, hcall, h⟩ :=
              except_bind_eq_ok.mp h
            simp only [hcall, except_ok_bind]
            exact ih h

/-- Without a terminator ahead there is no end to the tokens. -/
theorem tokeniseLoop_unterminated {offset : Nat}
    {input : List (Option UInt8)} {saved : Nat}
    {arr : DynamicByteArray (PointerByte Nat)} {strings : Strings}
    {input' : List (Option UInt8)} (hinput : Unterminated input saved) :
    tokeniseLoop fails fuel (some offset) input saved arr heap ≠
      .ok (some strings, input', heap') := by
  induction fuel generalizing offset input saved arr heap with
  | zero => exact fun h => by cases h
  | succ fuel ih =>
      intro h
      unfold tokeniseLoop at h
      obtain ⟨⟨status, arr₁, heap₁⟩, hadd, h⟩ := except_bind_eq_ok.mp h
      by_cases hstatus : status < 0
      · simp only [if_pos hstatus] at h
        cases h
      · simp only [if_neg hstatus] at h
        obtain ⟨⟨token, input₁, saved₁⟩, hcall, h⟩ := except_bind_eq_ok.mp h
        obtain ⟨hsome, hinput₁⟩ := hinput.strtok hcall
        obtain ⟨offset₁, rfl⟩ := Option.ne_none_iff_exists'.mp hsome
        exact ih hinput₁ h

/-- A line that has been split was terminated, and nothing was refused. -/
theorem tokenise_granted {input input' : Block UInt8} {strings : Strings}
    (h : tokenise fails input heap = .ok (some strings, input', heap')) :
    tokenise noFailures input heap = .ok (some strings, input', heap') ∧
      ∃ k : Nat, input.cells[k]? = some (some 0) := by
  unfold tokenise at h ⊢
  rcases hnew : makeNewDynamicByteArray (β := PointerByte Nat) fails
    pointerSize heap with ⟨_ | arr, heap₁⟩
  · rw [hnew] at h
    cases h
  · rw [hnew] at h
    rw [makeNewDynamicByteArray_granted hnew]
    simp only at h ⊢
    obtain ⟨⟨token, cells, saved⟩, hcall, h⟩ := except_bind_eq_ok.mp h
    obtain ⟨⟨strings', cells', heap₂⟩, hloop, h⟩ := except_bind_eq_ok.mp h
    cases h
    constructor
    · simp only [hcall, tokeniseLoop_granted hloop, except_ok_bind]
      rfl
    · by_contra hnone
      have hinput : Unterminated input.cells 0 :=
        fun k _ hk => hnone ⟨k, hk⟩
      obtain ⟨hsome, hcells⟩ := hinput.strtok hcall
      obtain ⟨offset, rfl⟩ := Option.ne_none_iff_exists'.mp hsome
      exact tokeniseLoop_unterminated hcells hloop

/-- The tokens that `main` looks at are those of some bytes of the stored
line. -/
theorem sentence_kept {stored text : List UInt8} {n : Nat}
    {input input' : Block UInt8} {strings : Strings} {sentence : List CString}
    (htext : KeptOf (stored ++ [0]) text)
    (hcells : input.cells = text.map some ++ indeterminate n)
    (htokenise : tokenise fails input heap =
      .ok (some strings, input', heap'))
    (hload : loadSentence input' strings = .ok sentence) :
    ∃ kept : List UInt8, kept.Sublist stored ∧
      cString (stored.take initSize) <+: kept ∧
      sentence.map CString.bytes = runs isSpace kept := by
  obtain ⟨hgranted, k, hk⟩ := tokenise_granted htokenise
  have hnul : (0 : UInt8) ∈ text := by
    have hmem := List.mem_of_getElem? hk
    rw [hcells] at hmem
    rcases List.mem_append.mp hmem with hmem | hmem
    · obtain ⟨c, hc, heq⟩ := List.mem_map.mp hmem
      cases heq
      exact hc
    · cases List.eq_of_mem_replicate hmem
  obtain ⟨front, back, rfl⟩ := List.append_of_mem hnul
  obtain ⟨behind, hbehind⟩ :=
    cString_cells front (back.map some ++ indeterminate n)
  have hshape : input.cells = (cString front).map some ++ some 0 :: behind := by
    rw [hcells, ← hbehind]
    simp
  obtain ⟨strings', input'', heap'', tokens, htokenise', hload', htexts⟩ :=
    tokenise_eq input.id (cString_nulFree front) behind heap
  rw [← hshape, hgranted] at htokenise'
  cases htokenise'
  rw [hload] at hload'
  cases hload'
  refine ⟨cString front, ?_, ?_, htexts⟩
  · have hfront : (front ++ [0]).Sublist (stored ++ [0]) := by
      refine List.Sublist.trans ?_ htext.sublist
      exact List.Sublist.append_left
        (List.cons_sublist_cons.mpr (List.nil_sublist back)) front
    exact (List.takeWhile_sublist _).trans
      ((List.append_sublist_append_right [0]).mp hfront)
  · rw [← cString_cut front back]
    have hfirst := List.IsPrefix.take (List.prefix_append stored [0]) initSize
    exact cString_mono (hfirst.trans htext.first)

end Tokens

/-! ## Elements that are lost -/

section Trees

variable {fails : FailurePlan} {heap heap' : Heap}

/-- The stage, or the stage without its last argument or redirection. -/
def ShortenedStage (stage kept : Stage) : Prop :=
  kept.program = stage.program ∧
    (kept.arguments = stage.arguments ∨
      kept.arguments = stage.arguments.dropLast)

/-- The line, or the line with some of its stages shortened. -/
structure ShortenedLine (line kept : CommandLine) : Prop where
  daemon : kept.daemon = line.daemon
  stages : List.Forall₂ ShortenedStage line.stages kept.stages

/-- The list is the tree of the sentence, up to the shortened stages. -/
def TreeWithin (sentence : List CString) (list : SimpleList) : Prop :=
  ∃ line kept : CommandLine, line.tokens = sentence ∧
    ShortenedLine line kept ∧ eraseSimpleList list = lineTree kept

/-- A stage whose tokens have been read is built, or loses its last
element. -/
theorem kept_stage {more : Bool} {stage : Stage} {block : Nat}
    {built : ElementsBuilt}
    (hbuilt : buildElements fails more stage.elements block heap = .ok built)
    (hok : built.ok = true) (hleft : built.left = []) :
    ∃ kept, ShortenedStage stage kept ∧
      eraseElementList built.nodes = elementNodes kept.elements := by
  have h := buildStage_decided fails more stage block heap
  rw [hbuilt] at h
  simp only [hok, hleft, and_self, if_true] at h
  obtain ⟨lost, hnodes, hlost⟩ := h
  cases lost with
  | false => exact ⟨stage, ⟨rfl, Or.inl rfl⟩, hnodes⟩
  | true =>
      refine ⟨⟨stage.program, stage.arguments.dropLast⟩, ⟨rfl, Or.inr rfl⟩, ?_⟩
      obtain ⟨program, arguments⟩ := stage
      cases arguments with
      | nil =>
          -- without its program the stage is not accepted
          simp only [elementsOutcome, contentRequest, Option.bind_eq_bind,
            Option.bind_some, if_true] at hlost
          split at hlost
          · cases hlost
          · cases hlost
      | cons element elements => exact hnodes

/-- A pipeline whose tokens have been read is built, or some of its stages
lose their last elements. -/
theorem kept_pipeline {rest : List CString} (others : List Stage) :
    ∀ (stage : Stage) (block elementBlock : Nat) (heap : Heap)
      (built : PipelineBuilt),
      buildPipeline fails rest stage others block elementBlock heap =
        .ok built → built.ok = true → built.left = rest →
      ∃ first kept, List.Forall₂ ShortenedStage (stage :: others)
          (first :: kept) ∧
        eraseCommandList built.nodes = stageNodes (first :: kept) := by
  induction others with
  | nil =>
      intro stage block elementBlock heap built h hok hleft
      rw [buildPipeline.eq_1] at h
      obtain ⟨elements, helements, h⟩ := except_bind_eq_ok.mp h
      split at h
      · next helementsOk =>
          cases h
          have hread : elements.left = [] := by
            by_contra hne
            exact append_left_ne_self (elementTokens_ne_nil hne) rest hleft
          obtain ⟨kept, hkept, hnodes⟩ :=
            kept_stage helements helementsOk hread
          refine ⟨kept, [], .cons hkept .nil, ?_⟩
          simp only [eraseCommandList, stageNodes, List.map_cons, List.map_nil,
            hnodes]
      · cases h
        cases hok
  | cons next others ih =>
      intro stage block elementBlock heap built h hok hleft
      have hfollowing := following_ne_rest next others rest
      rw [buildPipeline.eq_2] at h
      obtain ⟨elements, helements, h⟩ := except_bind_eq_ok.mp h
      simp only at h
      split at h
      · cases h
        cases hok
      · next helementsOk =>
          split at h
          · next hne =>
              cases h
              rw [← List.cons_append, ← List.append_assoc] at hleft
              exact absurd hleft (append_left_ne_self (by simp) rest)
          · next hread =>
              -- the nodes of the next stage
              split at h
              · cases h
                exact absurd hleft hfollowing
              · split at h
                · cases h
                  exact absurd hleft hfollowing
                · obtain ⟨sub, hsub, h⟩ := except_bind_eq_ok.mp h
                  split at h
                  · next hsubOk =>
                      cases h
                      obtain ⟨first, kept, hkept, hnodes⟩ :=
                        ih _ _ _ _ sub hsub hsubOk hleft
                      obtain ⟨stage', hstage', helementNodes⟩ :=
                        kept_stage helements
                          (Bool.not_eq_false _ ▸ helementsOk)
                          (not_not.mp hread)
                      refine ⟨stage', first :: kept, .cons hstage' hkept, ?_⟩
                      simp only [eraseCommandList, stageNodes, List.map_cons]
                        at hnodes ⊢
                      rw [helementNodes, hnodes]
                  · cases h
                    exact absurd hleft hfollowing

/-- The tree of an accepted sentence. -/
theorem interpretInputList_within {sentence : List CString}
    {list : SimpleList}
    (h : interpretInputList fails sentence heap = .ok (some list, heap')) :
    TreeWithin sentence list := by
  unfold interpretInputList at h
  rcases hnew : makeNewSimpleList fails heap with ⟨_ | list₀, heap₁⟩
  · -- without a list nothing is accepted
    simp only [hnew] at h
    obtain ⟨token, -, h⟩ := except_bind_eq_ok.mp h
    cases token <;> cases h
  · simp only [hnew] at h
    obtain ⟨⟨accepted, list₁, heap₂⟩, hparse, h⟩ := except_bind_eq_ok.mp h
    cases accepted with
    | false => cases h
    | true =>
        cases h
        obtain ⟨line, rfl⟩ := parseInput_sound hparse
        obtain ⟨⟨block, elementBlock, hfresh⟩, hflag⟩ :=
          makeNewSimpleList_fresh hnew
        rw [parseInput_eq line heap₁ hfresh] at hparse
        cases hbuilt : buildPipeline fails (daemonTokens line.daemon)
            line.first line.others block elementBlock heap₁ with
        | error fault =>
            rw [hbuilt] at hparse
            cases hparse
        | ok built =>
            rw [hbuilt] at hparse
            simp only [Except.map, Except.ok.injEq, Prod.mk.injEq] at hparse
            obtain ⟨hcomplete, rfl, -⟩ := hparse
            have hend : built.ok = true ∧
                built.left = daemonTokens line.daemon := by
              simpa only [Bool.and_eq_true, beq_iff_eq] using hcomplete
            obtain ⟨first, kept, hkept, hnodes⟩ :=
              kept_pipeline line.others line.first block elementBlock heap₁
                built hbuilt hend.1 hend.2
            refine ⟨line, ⟨first, kept, line.daemon⟩, rfl, ⟨rfl, hkept⟩, ?_⟩
            simp only [eraseSimpleList, lineTree, CommandLine.stages, hnodes,
              hcomplete, Bool.true_and, hflag]

end Trees

/-! ## What may come of a line -/

section Lines

variable {fails : FailurePlan} {fuel : Nat} {stdin rest : List UInt8}

/-- The input begins with a logical line, and these are the tokens of some of
its bytes, in their order, the first sixteen among them. -/
def PartlyTyped (stdin : List UInt8) (tokens : List CString)
    (rest : List UInt8) : Prop :=
  ∃ line kept : List UInt8, logicalLine stdin = some (line, rest) ∧
    kept.Sublist line ∧ cString (line.take initSize) <+: kept ∧
    tokens.map CString.bytes = runs isSpace kept

theorem PartlyTyped.suffix {tokens : List CString}
    (h : PartlyTyped stdin tokens rest) : rest <:+ stdin := by
  obtain ⟨line, kept, hline, -⟩ := h
  exact logicalLine_suffix hline

/-- Exit keywords and sentences have no backslash, so all their bytes were
typed. -/
theorem partlyTyped_of_stored {line stored kept : List UInt8}
    {tokens : List CString} (hline : logicalLine stdin = some (line, rest))
    (hdoubled : Doubled line stored) (hkept : kept.Sublist stored)
    (hfirst : cString (stored.take initSize) <+: kept)
    (htexts : tokens.map CString.bytes = runs isSpace kept)
    (htokens : IsExit tokens ∨ DerivesList tokens) :
    PartlyTyped stdin tokens rest := by
  have hplain : backslash ∉ kept := by
    intro hmem
    rcases htokens with hexit | hderives
    · obtain ⟨run, hrun, hbackslash⟩ := exists_run_of_mem
        (show isSpace backslash = false by decide) hmem
      rw [← htexts] at hrun
      obtain ⟨token, htoken, rfl⟩ := List.mem_map.mp hrun
      exact not_isExit_of_backslash htoken hbackslash hexit
    · exact not_derivesList_of_backslash hmem htexts hderives
  refine ⟨line, kept, hline, sublist_line hdoubled hkept hplain, ?_, htexts⟩
  rw [cString_take hdoubled initSize fun hmem =>
    hplain (hfirst.subset hmem)]
  exact hfirst

/-- What the shell may do for the first logical line. -/
def Permitted (stdin rest : List UInt8) : LineOutcome → Prop
  | .exit status => rest <:+ stdin ∧ (status = exitSuccess →
    ∃ tokens, PartlyTyped stdin tokens rest ∧ IsExit tokens)
  | .invalid => ∃ line, logicalLine stdin = some (line, rest)
  | .run command => PartlyTyped stdin command.sentence rest ∧
    ¬ IsExit command.sentence ∧ TreeWithin command.sentence command.list

theorem TreeWithin.derives {sentence : List CString} {list : SimpleList}
    (h : TreeWithin sentence list) : DerivesList sentence := by
  obtain ⟨line, -, hline, -⟩ := h
  exact (derivesList_iff _).mpr ⟨line, hline⟩

/-- **Lines under refusals.**  Whichever requests are refused, the body of the
loop of `main` keeps to what is permitted for the first logical line. -/
theorem nextLine_permitted {outcome : LineOutcome} {heap heap' : Heap}
    (h : nextLine fails fuel stdin heap = .ok (outcome, rest, heap')) :
    Permitted stdin rest outcome := by
  have hfailed : exitFailure ≠ exitSuccess := by decide
  unfold nextLine at h
  obtain ⟨⟨input, stdin₁, heap₁⟩, hread, h⟩ := except_bind_eq_ok.mp h
  cases input with
  | none =>
      cases h
      obtain rfl := readInput_none hread
      exact ⟨List.suffix_refl _, fun heq => absurd heq hfailed⟩
  | some input =>
      obtain ⟨line, stored, text, n, hline, hdoubled, htext, hcells⟩ :=
        readInput_kept hread
      obtain ⟨⟨strings, input', heap₂⟩, htokenise, h⟩ :=
        except_bind_eq_ok.mp h
      cases strings with
      | none =>
          cases h
          exact ⟨logicalLine_suffix hline, fun heq => absurd heq hfailed⟩
      | some strings =>
          obtain ⟨sentence, hload, h⟩ := except_bind_eq_ok.mp h
          obtain ⟨kept, hkept, hfirst, htexts⟩ :=
            sentence_kept htext hcells htokenise hload
          split at h
          · next hkeyword =>
              cases h
              have hexit := (isExit_iff _).mpr hkeyword
              exact ⟨logicalLine_suffix hline, fun _ => ⟨sentence,
                partlyTyped_of_stored hline hdoubled hkept hfirst htexts
                  (Or.inl hexit), hexit⟩⟩
          · next hkeyword =>
              obtain ⟨⟨list, heap₃⟩, hlist, h⟩ := except_bind_eq_ok.mp h
              cases list with
              | none =>
                  cases h
                  exact ⟨line, hline⟩
              | some list =>
                  cases h
                  have htree := interpretInputList_within hlist
                  exact ⟨partlyTyped_of_stored hline hdoubled hkept hfirst
                      htexts (Or.inr htree.derives),
                    fun hexit => hkeyword ((isExit_iff _).mp hexit), htree⟩

end Lines

/-! ## Sessions -/

/-- What its user can still rely on: the lines are taken one after another,
and what is run are sentences of bytes that were typed. -/
inductive DegradedStep : Transcript → Transcript → Prop
  | reject {stdin rest line : List UInt8} {commands : List (List CString)}
      (hline : logicalLine stdin = some (line, rest)) :
      DegradedStep ⟨stdin, commands, false⟩ ⟨rest, commands, false⟩
  | run {stdin rest : List UInt8} {commands : List (List CString)}
      {tokens : List CString} (htyped : PartlyTyped stdin tokens rest)
      (hexit : ¬ IsExit tokens) (hderives : DerivesList tokens) :
      DegradedStep ⟨stdin, commands, false⟩ ⟨rest, commands ++ [tokens], false⟩
  /-- At an exit keyword, after a refusal, or in a crash. -/
  | leave {stdin rest : List UInt8} {commands : List (List CString)}
      (hrest : rest <:+ stdin) :
      DegradedStep ⟨stdin, commands, false⟩ ⟨rest, commands, true⟩
  /-- A program that has been started takes some of the input. -/
  | taken {front taken rest : List UInt8} {commands : List (List CString)}
      {ended : Bool} (hstarted : commands ≠ []) :
      DegradedStep ⟨front ++ taken ++ rest, commands, ended⟩
        ⟨front ++ rest, commands, ended⟩

theorem DegradedStep.stdin {t t' : Transcript} (h : DegradedStep t t') :
    t'.stdin.Sublist t.stdin := by
  cases h with
  | reject hline => exact (logicalLine_suffix hline).sublist
  | run htyped hexit hderives => exact htyped.suffix.sublist
  | leave hrest => exact hrest.sublist
  | taken hstarted => exact sublist_of_taken _ _ _

/-- The handlers that are about to start have the trees of their sentences, up
to the shortened stages. -/
def TreesWithin (s : Session) : Prop :=
  ∀ record ∈ s.jobs, ∀ list, record.job.handler = .starting list →
    TreeWithin record.sentence list

section Steps

variable {fails : FailurePlan} {s s' : Session}

/-- No job goes back to its start. -/
theorem jobStep_starting {noCldWait : Bool} {job job' : Job}
    {list : SimpleList} (h : JobStep noCldWait job job')
    (hstarting : job'.handler = .starting list) :
    job.handler = .starting list := by
  cases h with
  | start list stages => cases hstarting
  | refuse list stages => cases hstarting
  | spawn node next stages => cases hstarting
  | spawned stages => cases hstarting
  | reap exitstatus h => cases hstarting
  | noMoreChildren exitstatus h => cases hstarting
  | exit exitstatus stages => cases hstarting
  | stageEnds handler h => exact hstarting

theorem TreesWithin.step (h : TreesWithin s)
    (hstep : SessionStep fails s s') : TreesWithin s' := by
  cases hstep with
  | exit hshell hline => exact h
  | crash hshell hline hfault => exact h
  | invalid hshell hline => exact h
  | fork hshell hline =>
      intro record hrecord list hstarting
      rcases List.mem_append.mp hrecord with hold | hnew
      · exact h record hold list hstarting
      · rw [List.mem_singleton.mp hnew] at hstarting ⊢
        cases hstarting
        exact (nextLine_permitted hline).2.2
  | noFork hshell hline => exact h
  | background hshell hflag => exact h
  | foreground hshell hflag => exact h
  | waited hshell hrecord hexited => exact h
  | job hrecord hstep =>
      intro record hmem list hstarting
      rcases List.mem_or_eq_of_mem_set hmem with hold | rfl
      · exact h record hold list hstarting
      · exact h _ (List.mem_of_getElem? hrecord) list
          (jobStep_starting hstep hstarting)
  | stageReads hrecord hrunning hstdin => exact h

/-- A step of the session is a step of the degraded transcript, or none. -/
theorem degraded_step (hstep : SessionStep fails s s') :
    DegradedStep (transcript s) (transcript s') ∨
      transcript s' = transcript s := by
  cases hstep with
  | exit hshell hline =>
      have hpermitted := nextLine_permitted hline
      rw [transcript_prompt hshell]
      exact Or.inl (.leave hpermitted.1)
  | crash hshell hline hfault =>
      rw [transcript_prompt hshell]
      exact Or.inl (.leave (List.suffix_refl _))
  | invalid hshell hline =>
      obtain ⟨line, hline⟩ := nextLine_permitted hline
      rw [transcript_prompt hshell]
      exact Or.inl (.reject hline)
  | fork hshell hline =>
      obtain ⟨htyped, hexit, htree⟩ := nextLine_permitted hline
      rw [transcript_prompt hshell]
      left
      rw [transcript, List.map_append]
      exact .run htyped hexit htree.derives
  | noFork hshell hline =>
      have hpermitted := nextLine_permitted hline
      rw [transcript_prompt hshell]
      exact Or.inl (.leave hpermitted.1.suffix)
  | background hshell hflag =>
      right
      rw [transcript, transcript, hshell]
      rfl
  | foreground hshell hflag =>
      right
      rw [transcript, transcript, hshell]
      rfl
  | waited hshell hrecord hexited =>
      right
      rw [transcript, transcript, hshell]
      rfl
  | job hrecord hstep =>
      right
      rw [transcript, transcript, sentences_set hrecord]
  | @stageReads front taken rest record hrecord hrunning hstdin =>
      left
      rw [transcript, transcript, hstdin]
      refine .taken fun hnone => ?_
      rw [List.map_eq_nil_iff.mp hnone] at hrecord
      exact absurd hrecord List.not_mem_nil

theorem stdin_step (hstep : SessionStep fails s s') :
    s'.stdin.Sublist s.stdin := by
  rcases degraded_step hstep with htaken | hsame
  · exact htaken.stdin
  · have hstdin : s'.stdin = s.stdin := congrArg Transcript.stdin hsame
    rw [hstdin]

/-- A shell that reports success has met an exit keyword on a line of the
input. -/
def LeftByKeyword (stdin : List UInt8) (s : Session) : Prop :=
  s.shell = .exited exitSuccess → ∃ before rest tokens,
    before.Sublist stdin ∧ PartlyTyped before tokens rest ∧ IsExit tokens

theorem LeftByKeyword.step {stdin : List UInt8} (h : LeftByKeyword stdin s)
    (hstdin : s.stdin.Sublist stdin) (hstep : SessionStep fails s s') :
    LeftByKeyword stdin s' := by
  cases hstep with
  | exit hshell hline =>
      intro hexited
      cases hexited
      obtain ⟨tokens, htyped, hexit⟩ := (nextLine_permitted hline).2 rfl
      exact ⟨s.stdin, _, tokens, hstdin, htyped, hexit⟩
  | crash hshell hline hfault => exact fun hexited => by cases hexited
  | invalid hshell hline => exact fun hexited => by cases hexited
  | fork hshell hline => exact fun hexited => by cases hexited
  | noFork hshell hline => exact fun hexited => by cases hexited
  | background hshell hflag => exact fun hexited => by cases hexited
  | foreground hshell hflag => exact fun hexited => by cases hexited
  | waited hshell hrecord hexited => exact fun hexited => by cases hexited
  | job hrecord hstep => exact h
  | stageReads hrecord hrunning hstdin => exact h

end Steps

theorem simulates_degraded (fails : FailurePlan) :
    Simulates (SessionStep fails) DegradedStep TreesWithin transcript where
  keeps := fun _ _ htrees hstep => htrees.step hstep
  matched := fun s s' _ hstep => by
    rcases degraded_step hstep with htaken | hsame
    · exact Relation.ReflTransGen.single htaken
    · rw [hsame]

end OsLabs.Iwish.Refusals
