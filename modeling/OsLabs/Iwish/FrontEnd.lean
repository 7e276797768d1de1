import OsLabs.Iwish.LogicalLine
import OsLabs.Iwish.ParserCorrect

/-!
# From the bytes typed to the parse tree

`tokenise_eq`: the strings behind the token array are the space-free runs of
the line.  `frontEnd_accepts_iff`: reading, splitting and parsing a stream
accepts its first logical line exactly when the runs of that line are a
sentence.  `readInput` keeps too many backslashes, but a line with a backslash
in it is not a sentence anyway.
-/

namespace OsLabs.Iwish.FrontEnd

open OsLabs.Posix
open OsLabs.Iwish.DBA
open OsLabs.Iwish.ParserTokens
open OsLabs.Iwish.Parser
open OsLabs.Iwish.Grammar
open OsLabs.Iwish.ParseTree
open OsLabs.Iwish.ParserCorrect
open OsLabs.Iwish.Reader
open OsLabs.Iwish.LogicalLine

/-! ## `tokenise` -/

section Tokenise

variable {bytes : List UInt8} {front spare : List (Option UInt8)}
  {arr : DynamicByteArray (PointerByte Nat)} {offsets : List Nat}

/-- A call of `strtok` and what `tokenise` does from there. -/
def tokeniseFrom (fuel : Nat) (cells : List (Option UInt8)) (start : Nat)
    (arr : DynamicByteArray (PointerByte Nat)) (heap : Heap) :
    Except Fault (Option Strings × List (Option UInt8) × Heap) := do
  let (token, input, saved) ← strtok isSpace cells start
  tokeniseLoop noFailures fuel token input saved arr heap

theorem tokeniseLoop_token (h : HoldsPointers arr (offsets.map some))
    (fuel offset : Nat) (cells : List (Option UInt8)) (saved : Nat)
    (heap : Heap) :
    ∃ arr' heap', tokeniseLoop noFailures (fuel + 1) (some offset) cells saved
        arr heap = tokeniseFrom fuel cells saved arr' heap' ∧
      HoldsPointers arr' ((offsets ++ [offset]).map some) := by
  obtain ⟨arr', heap', hadd, hholds⟩ := h.add (some offset) heap
  refine ⟨arr', heap', ?_, by rw [List.map_append]; exact hholds⟩
  unfold tokeniseLoop
  simp only [hadd, except_ok_bind]
  rfl

theorem tokeniseLoop_null (h : HoldsPointers arr (offsets.map some))
    (fuel : Nat) (cells : List (Option UInt8)) (saved : Nat) (heap : Heap) :
    ∃ strings heap', tokeniseLoop noFailures (fuel + 1) none cells saved arr
        heap = .ok (some strings, cells, heap') ∧
      loadPointerArray strings.cells = .ok offsets := by
  obtain ⟨arr', heap', hadd, hholds⟩ := h.add none heap
  refine ⟨⟨arr'.elementsBlock, arr'.elements⟩, heap'.free arr'.block, ?_,
    hholds.load⟩
  unfold tokeniseLoop
  simp only [hadd, except_ok_bind]
  rfl

/-- The pointers `offsets` point to the strings `texts`. -/
def PointTo (cells : List (Option UInt8)) (offsets : List Nat)
    (texts : List (List UInt8)) : Prop :=
  ∃ tokens, offsets.mapM (loadString cells) = .ok tokens ∧
    tokens.map CString.bytes = texts

theorem PointTo.cons {cells before rest : List (Option UInt8)}
    {token : List UInt8} {texts : List (List UInt8)} {offset : Nat}
    (hnul : (0 : UInt8) ∉ token) (hoffset : before.length = offset)
    (hcells : cells = before ++ token.map some ++ some 0 :: rest)
    (h : PointTo cells offsets texts) :
    PointTo cells (offset :: offsets) (token :: texts) := by
  obtain ⟨tokens, hload, htexts⟩ := h
  have hfirst : loadString cells offset = .ok ⟨token, hnul⟩ := by
    rw [hcells]
    exact loadString_append hoffset ⟨token, hnul⟩ rest
  refine ⟨⟨token, hnul⟩ :: tokens, ?_, by rw [List.map_cons, htexts]⟩
  rw [List.mapM_cons, hfirst, except_ok_bind, hload]
  rfl

/-- Nothing but separators. -/
theorem gap_of_all (hnul : (0 : UInt8) ∉ bytes)
    (hall : ∀ c ∈ bytes, isSpace c = true) :
    ∀ c ∈ bytes, c ≠ 0 ∧ isSpace c = true :=
  fun c hc => ⟨fun hzero => hnul (hzero ▸ hc), hall c hc⟩

/-- One token: `strtok` finds the first run of `bytes`, and goes on at
`bytes₂`.  Whatever later calls make of `bytes₂`, the token stays terminated
and the buffer keeps its shape. -/
structure Found (front : List (Option UInt8)) (bytes : List UInt8)
    (spare : List (Option UInt8)) (offset : Nat) (token : List UInt8)
    (front₂ : List (Option UInt8)) (bytes₂ : List UInt8) : Prop where
  call : strtok isSpace (front ++ (bytes.map some ++ some 0 :: spare))
      front.length =
    .ok (some offset, front₂ ++ (bytes₂.map some ++ some 0 :: spare),
      front₂.length)
  nul : (0 : UInt8) ∉ token ∧ (0 : UInt8) ∉ bytes₂
  runs_eq : runs isSpace bytes = token :: runs isSpace bytes₂
  later : ∀ bytes' : List UInt8, bytes'.length = bytes₂.length →
    ∃ (all : List UInt8) (before tail : List (Option UInt8)),
      all.length = bytes.length ∧ before.length = offset ∧
      front₂ ++ (bytes'.map some ++ some 0 :: spare) =
        front ++ (all.map some ++ some 0 :: spare) ∧
      front₂ ++ (bytes'.map some ++ some 0 :: spare) =
        before ++ token.map some ++ some 0 :: tail

theorem strtok_found (front spare : List (Option UInt8))
    (hnul : (0 : UInt8) ∉ bytes) (hsome : ¬ ∀ c ∈ bytes, isSpace c = true) :
    ∃ offset token front₂ bytes₂,
      Found front bytes spare offset token front₂ bytes₂ := by
  rcases first_run isSpace bytes with hall |
    ⟨gap, token, rest, rfl, hgap, hne, htoken, hrest⟩
  · exact absurd hall hsome
  · have hgap₀ : ∀ c ∈ gap, c ≠ 0 ∧ isSpace c = true :=
      fun c hc => ⟨fun hzero => hnul (by simp [← hzero, hc]), hgap c hc⟩
    have htoken₀ : ∀ c ∈ token, c ≠ 0 ∧ isSpace c = false :=
      fun c hc => ⟨fun hzero => hnul (by simp [← hzero, hc]), htoken c hc⟩
    have hnulToken : (0 : UInt8) ∉ token := fun hmem => (htoken₀ 0 hmem).1 rfl
    rcases hrest with rfl | ⟨d, more, rfl, hd⟩
    · refine ⟨front.length + gap.length, token,
        front ++ gap.map some ++ token.map some, [], ?_,
        ⟨hnulToken, List.not_mem_nil⟩, ?_, ?_⟩
      · have hlast : strtok isSpace (front ++ (gap.map some ++
            (token.map some ++ some 0 :: spare))) front.length = _ :=
          strtok_last rfl hgap₀ hne htoken₀
        simp only [List.append_nil, List.map_append, List.map_nil,
          List.nil_append, List.append_assoc, List.length_append,
          List.length_map, Nat.add_assoc] at hlast ⊢
        exact hlast
      · rw [List.append_nil, runs_gap hgap, runs_token hne htoken]
        rfl
      · intro bytes' hlength
        have hnil : bytes' = [] := List.length_eq_zero_iff.mp hlength
        subst hnil
        refine ⟨gap ++ token, front ++ gap.map some, spare, ?_, ?_, ?_, rfl⟩
        · simp
        · simp
        · simp
    · have hd₀ : d ≠ 0 := fun hzero => hnul (by simp [← hzero])
      refine ⟨front.length + gap.length, token,
        front ++ gap.map some ++ token.map some ++ [some 0], more, ?_,
        ⟨hnulToken, fun hmem => hnul (by simp [hmem])⟩, ?_, ?_⟩
      · have hnext : strtok isSpace (front ++ (gap.map some ++
            (token.map some ++ some d :: (more.map some ++ some 0 :: spare))))
            front.length = _ := strtok_next rfl hgap₀ hne htoken₀ hd hd₀
        simp only [List.map_append, List.map_cons, List.cons_append,
          List.nil_append, List.append_assoc, List.length_append,
          List.length_map, List.length_singleton, Nat.add_assoc] at hnext ⊢
        exact hnext
      · rw [List.append_assoc, runs_gap hgap,
          runs_token_delimiter hne htoken hd]
      · intro bytes' hlength
        refine ⟨gap ++ token ++ 0 :: bytes', front ++ gap.map some,
          bytes'.map some ++ some 0 :: spare, ?_, ?_, ?_, ?_⟩
        · simp [hlength]
        · simp
        · simp
        · simp

/-- What `tokenise` does from the start of `bytes`: it finds the runs, and
leaves the buffer in its shape. -/
theorem tokeniseFrom_eq (fuel : Nat) (front spare : List (Option UInt8))
    (hnul : (0 : UInt8) ∉ bytes)
    (hfuel : (runs isSpace bytes).length < fuel)
    (h : HoldsPointers arr (offsets.map some)) (heap : Heap) :
    ∃ (strings : Strings) (bytes' : List UInt8) (heap' : Heap)
      (found : List Nat),
      tokeniseFrom fuel (front ++ (bytes.map some ++ some 0 :: spare))
          front.length arr heap =
        .ok (some strings, front ++ (bytes'.map some ++ some 0 :: spare),
          heap') ∧
      bytes'.length = bytes.length ∧
      loadPointerArray strings.cells = .ok (offsets ++ found) ∧
      PointTo (front ++ (bytes'.map some ++ some 0 :: spare)) found
        (runs isSpace bytes) := by
  induction fuel generalizing bytes front arr offsets heap with
  | zero => exact absurd hfuel (Nat.not_lt_zero _)
  | succ fuel ih =>
      by_cases hall : ∀ c ∈ bytes, isSpace c = true
      · have hgap := gap_of_all hnul hall
        have hruns : runs isSpace bytes = [] := runs_all hall
        obtain ⟨strings, heap', hloop, hload⟩ := tokeniseLoop_null h fuel
          (front ++ (bytes.map some ++ some 0 :: spare))
          (front.length + bytes.length) heap
        refine ⟨strings, bytes, heap', [], ?_, rfl, ?_, [], rfl, ?_⟩
        · unfold tokeniseFrom
          rw [strtok_none rfl hgap]
          exact hloop
        · rw [List.append_nil]
          exact hload
        · rw [hruns]
          rfl
      · obtain ⟨offset, token, front₂, bytes₂, hfound⟩ :=
          strtok_found front spare hnul hall
        rw [hfound.runs_eq] at hfuel ⊢
        simp only [List.length_cons] at hfuel
        obtain ⟨arr₁, heap₁, hloop, h₁⟩ := tokeniseLoop_token h fuel offset
          (front₂ ++ (bytes₂.map some ++ some 0 :: spare)) front₂.length heap
        obtain ⟨strings, bytes', heap', found, hfrom, hlength, hload, hpoint⟩ :=
          ih front₂ hfound.nul.2 (by omega) h₁ heap₁
        obtain ⟨all, before, tail, hall', hbefore, hshape, hcells⟩ :=
          hfound.later bytes' hlength
        refine ⟨strings, all, heap', offset :: found, ?_, hall', ?_, ?_⟩
        · unfold tokeniseFrom
          rw [hfound.call, ← hshape]
          exact hloop.trans hfrom
        · rw [hload, List.append_assoc]
          rfl
        · rw [hshape] at hpoint hcells
          exact hpoint.cons hfound.nul.1 hbefore hcells

/-- **`tokenise` returns the space-free runs of the line**, as pointers into
it. -/
theorem tokenise_eq (id : Nat) (hnul : (0 : UInt8) ∉ bytes)
    (spare : List (Option UInt8)) (heap : Heap) :
    ∃ strings input heap' tokens,
      tokenise noFailures ⟨id, bytes.map some ++ some 0 :: spare⟩ heap =
        .ok (some strings, input, heap') ∧
      loadSentence input strings = .ok tokens ∧
      tokens.map CString.bytes = runs isSpace bytes := by
  obtain ⟨arr, heap₁, hnew⟩ : ∃ arr heap₁,
      makeNewDynamicByteArray (β := PointerByte Nat) noFailures pointerSize
        heap = (some arr, heap₁) := ⟨_, _, rfl⟩
  have hstart : HoldsPointers arr (([] : List Nat).map some) :=
    makeNewDynamicByteArray_holdsPointers hnew
  have hfuel : (runs isSpace bytes).length <
      (bytes.map some ++ some 0 :: spare).length + 2 := by
    have hle := runs_length_le isSpace bytes
    simp only [List.length_append, List.length_map]
    omega
  obtain ⟨strings, bytes', heap', found, hfrom, -, hload, tokens, hpoint,
      htexts⟩ :=
    tokeniseFrom_eq _ [] spare hnul hfuel hstart heap₁
  refine ⟨strings, ⟨id, bytes'.map some ++ some 0 :: spare⟩, heap', tokens, ?_,
    ?_, htexts⟩
  · unfold tokenise
    rw [hnew]
    obtain ⟨⟨token, cells, saved⟩, hcall, hloop⟩ := except_bind_eq_ok.mp hfrom
    simp only [List.nil_append, List.length_nil] at hcall hloop
    simp only [hcall, hloop, except_ok_bind]
    rfl
  · unfold loadSentence
    rw [hload, except_ok_bind]
    exact hpoint

end Tokenise

/-! ## The whole front end -/

theorem exists_tokens (texts : List (List UInt8))
    (hnul : ∀ text ∈ texts, (0 : UInt8) ∉ text) :
    ∃ tokens : List CString, tokens.map CString.bytes = texts := by
  induction texts with
  | nil => exact ⟨[], rfl⟩
  | cons text texts ih =>
      obtain ⟨tokens, htokens⟩ :=
        ih fun t ht => hnul t (List.mem_cons_of_mem text ht)
      refine ⟨⟨text, hnul text List.mem_cons_self⟩ :: tokens, ?_⟩
      rw [List.map_cons, htokens]

/-- No sentence has a backslash in it. -/
theorem backslash_not_mem_sentence {tokens : List CString}
    (h : DerivesList tokens) {token : CString} (htoken : token ∈ tokens) :
    backslash ∉ token.bytes := by
  obtain ⟨line, rfl⟩ := (derivesList_iff _).mp h
  have hword : isWord token = true → backslash ∉ token.bytes := by
    intro hw hmem
    exact absurd (List.all_eq_true.mp hw backslash hmem) (by decide)
  rcases List.mem_append.mp htoken with hpipe | hdaemon
  · rcases mem_pipelineTokens hpipe with hw | rfl | rfl | rfl
    · exact hword hw
    · decide
    · decide
    · decide
  · unfold daemonTokens at hdaemon
    split at hdaemon
    · rw [List.mem_singleton.mp hdaemon]
      decide
    · exact absurd hdaemon List.not_mem_nil

/-- Nor is a line with one, once it is split. -/
theorem not_derivesList_of_backslash {line : List UInt8}
    (hmem : backslash ∈ line) {tokens : List CString}
    (htokens : tokens.map CString.bytes = runs isSpace line) :
    ¬ DerivesList tokens := by
  intro hderives
  obtain ⟨run, hrun, hbackslash⟩ := exists_run_of_mem
    (show isSpace backslash = false by decide) hmem
  rw [← htokens] at hrun
  obtain ⟨token, htoken, rfl⟩ := List.mem_map.mp hrun
  exact backslash_not_mem_sentence hderives htoken hbackslash

/-- **The front end.**  On a stream with a complete logical line, `readInput`
consumes that line, and what `parseInput` is handed is accepted exactly when
the space-free runs of the line are a sentence; the tree then prints as those
runs. -/
theorem frontEnd_accepts_iff {stream line rest : List UInt8} {fuel : Nat}
    (hnul : (0 : UInt8) ∉ stream)
    (hline : logicalLine stream = some (line, rest))
    (hfuel : stream.length < fuel) (heap₀ : Heap) :
    ∃ input heap₁ strings input' heap₂ sentence list heap₃ accepted list' heap₄
      tokens,
      readInput noFailures fuel stream heap₀ = .ok (some input, rest, heap₁) ∧
      tokenise noFailures input heap₁ = .ok (some strings, input', heap₂) ∧
      loadSentence input' strings = .ok sentence ∧
      makeNewSimpleList noFailures heap₂ = (some list, heap₃) ∧
      parseInput noFailures sentence list heap₃ =
        .ok (accepted, list', heap₄) ∧
      tokens.map CString.bytes = runs isSpace line ∧
      (accepted = true ↔ DerivesList tokens) ∧
      (accepted = true → flattenSimpleList list' = tokens) := by
  obtain ⟨stored, hstored, hdoubled⟩ := storedLine_of_logicalLine hline
  have hagree := hdoubled.agree
  have hnulStored : (0 : UInt8) ∉ stored :=
    fun hmem => hnul (storedLine_subset hstored hmem)
  obtain ⟨id, spare, heap₁, hread⟩ := readInput_eq hstored hfuel heap₀
  obtain ⟨strings, input', heap₂, sentence, htokenise, hload, htexts⟩ :=
    tokenise_eq id hnulStored spare heap₁
  obtain ⟨list, heap₃, hnew⟩ := makeNewSimpleList_noFailures heap₂
  obtain ⟨accepted, list', heap₄, hparse, hiff, hprint⟩ :=
    parseInput_decides sentence hnew
  have htokens : ∃ tokens : List CString,
      tokens.map CString.bytes = runs isSpace line ∧
      (accepted = true ↔ DerivesList tokens) ∧
      (accepted = true → flattenSimpleList list' = tokens) := by
    by_cases hbackslash : backslash ∈ line
    · -- the line has a backslash, so neither reading of it is a sentence
      have hrejected : ¬ accepted = true := by
        rw [hiff]
        exact not_derivesList_of_backslash (hagree.subset hbackslash) htexts
      obtain ⟨tokens, htokens⟩ := exists_tokens (runs isSpace line)
        fun run hrun hmem =>
          hnulStored (hagree.subset (mem_of_mem_runs hrun hmem))
      refine ⟨tokens, htokens, ?_, fun haccept => absurd haccept hrejected⟩
      constructor
      · exact fun haccept => absurd haccept hrejected
      · exact fun hderives =>
          absurd hderives (not_derivesList_of_backslash hbackslash htokens)
    · rw [hagree.eq hbackslash] at htexts
      exact ⟨sentence, htexts, hiff, fun haccept => (hprint haccept).1⟩
  obtain ⟨tokens, hruns, haccept, hflatten⟩ := htokens
  exact ⟨_, heap₁, strings, input', heap₂, sentence, list, heap₃, accepted,
    list', heap₄, tokens, hread, htokenise, hload, hnew, hparse, hruns,
    haccept, hflatten⟩

/-- `a\`, newline, ` b` and a newline, with one more byte behind it. -/
theorem frontEnd_accepts_iff_continued :
    ∃ input heap₁ strings input' heap₂ sentence list heap₃ accepted list' heap₄
      tokens,
      readInput noFailures 8 [97, 92, 10, 32, 98, 10, 99] Heap.empty =
        .ok (some input, [99], heap₁) ∧
      tokenise noFailures input heap₁ = .ok (some strings, input', heap₂) ∧
      loadSentence input' strings = .ok sentence ∧
      makeNewSimpleList noFailures heap₂ = (some list, heap₃) ∧
      parseInput noFailures sentence list heap₃ =
        .ok (accepted, list', heap₄) ∧
      tokens.map CString.bytes = runs isSpace [97, 32, 98] ∧
      (accepted = true ↔ DerivesList tokens) ∧
      (accepted = true → flattenSimpleList list' = tokens) :=
  frontEnd_accepts_iff (by decide) (by decide) (by decide) Heap.empty

end OsLabs.Iwish.FrontEnd
