import OsLabs.Posix.Simulation
import OsLabs.Iwish.PipelineStages
import OsLabs.Iwish.Sessions

/-!
# The shell as its user sees it

To its user the shell is a machine that takes one logical line after another
from its input, splits it at the spaces, and then rejects it, runs it, or
leaves for one of the exit keywords: `TranscriptStep`.  `session_simulates`
shows that every session is a run of that machine, in whatever order the
shell, the job handlers and the stages take their steps, and that no input
makes the shell crash.  The lines are those of the bytes that the shell gets:
the programs that it has started read the same input.

`typedLine_runs` is about one line: what the bytes typed come to, down to the
arguments and the standard descriptors of the programs that are started.
-/

namespace OsLabs.Iwish.Script

open OsLabs.Posix
open OsLabs.Iwish.DBA
open OsLabs.Iwish.ParserTokens
open OsLabs.Iwish.Parser
open OsLabs.Iwish.Grammar
open OsLabs.Iwish.PipelineSpec
open OsLabs.Iwish.ParseTree
open OsLabs.Iwish.ParserOutcome
open OsLabs.Iwish.ParserCorrect
open OsLabs.Iwish.Arguments
open OsLabs.Iwish.Interpreter
open OsLabs.Iwish.PipelineWiring
open OsLabs.Iwish.PipelineStages
open OsLabs.Iwish.Reader
open OsLabs.Iwish.LogicalLine
open OsLabs.Iwish.LineReading
open OsLabs.Iwish.FrontEnd
open OsLabs.Iwish.JobHandler
open OsLabs.Iwish.Shell
open OsLabs.Iwish.Sessions

/-! ## Lines -/

/-- The input begins with a logical line that splits into these tokens. -/
def Typed (stdin : List UInt8) (tokens : List CString)
    (rest : List UInt8) : Prop :=
  ∃ line, logicalLine stdin = some (line, rest) ∧
    tokens.map CString.bytes = runs isSpace (cString line)

/-- An exit keyword, and nothing else. -/
def IsExit (tokens : List CString) : Prop :=
  ∃ token, tokens = [token] ∧ token.bytes ∈ exitKeywords

theorem isExit_iff (tokens : List CString) :
    IsExit tokens ↔
      stringIsExitKeyword tokens[0]? = true ∧ tokens[1]? = none := by
  constructor
  · rintro ⟨token, rfl, hmem⟩
    exact ⟨List.contains_iff_mem.mpr hmem, rfl⟩
  · rintro ⟨hkeyword, hone⟩
    rcases tokens with _ | ⟨token, _ | ⟨next, rest⟩⟩
    · cases hkeyword
    · exact ⟨token, rfl, List.contains_iff_mem.mp hkeyword⟩
    · cases hone

/-- A line is split in one way only. -/
theorem Typed.unique {stdin rest rest' : List UInt8}
    {tokens tokens' : List CString} (h : Typed stdin tokens rest)
    (h' : Typed stdin tokens' rest') : tokens = tokens' ∧ rest = rest' := by
  obtain ⟨line, hline, htokens⟩ := h
  obtain ⟨line', hline', htokens'⟩ := h'
  rw [hline] at hline'
  cases hline'
  rw [← htokens'] at htokens
  exact ⟨List.map_injective_iff.mpr CString.bytes_injective htokens, rfl⟩

/-- No exit keyword has a backslash in it. -/
theorem not_isExit_of_backslash {tokens : List CString} {token : CString}
    (htoken : token ∈ tokens) (hbackslash : backslash ∈ token.bytes) :
    ¬ IsExit tokens := by
  rintro ⟨keyword, rfl, hkeyword⟩
  rw [List.mem_singleton.mp htoken] at hbackslash
  have hplain : ∀ k ∈ exitKeywords, backslash ∉ k := by decide
  exact hplain _ hkeyword hbackslash

/-! ## What the shell makes of a line -/

/-- What is to come of a line with these tokens. -/
def Decided (tokens : List CString) : LineOutcome → Prop
  | .exit status => IsExit tokens ∧ status = exitSuccess
  | .invalid => ¬ IsExit tokens ∧ ¬ DerivesList tokens
  | .run command =>
    ¬ IsExit tokens ∧ command.sentence = tokens ∧ ∃ line : CommandLine,
      line.tokens = tokens ∧ eraseSimpleList command.list = lineTree line

/-- The loop of `readInput` goes on, or ends with a usable string. -/
theorem readLoop_cases (fails : FailurePlan) {string : DynamicByteArray UInt8}
    (h : Usable string) (fuel : Nat) (stream : List UInt8) (heap : Heap) :
    readLoop fails fuel ⟨string, stream, heap⟩ = .error .outOfFuel ∨
      ∃ string' rest heap', readLoop fails fuel ⟨string, stream, heap⟩ =
        .ok ⟨string', rest, heap'⟩ ∧ Usable string' := by
  induction fuel generalizing string stream heap with
  | zero => exact Or.inl rfl
  | succ fuel ih =>
      obtain ⟨string', heap', happend, h'⟩ :=
        h.append fails (fgetc stream).2 heap (fgetc stream).1
      obtain ⟨string₃, heap₃, h₃, hescape⟩ := (appends_usable fails).escape []
        h (fgetc (fgetc stream).2).2 heap (fgetc (fgetc stream).2).1
      unfold readLoop
      simp only
      split
      · exact Or.inr ⟨string, _, heap, rfl, h⟩
      · split
        · next hc =>
            split
            · rw [hc, hescape]
              exact ih h₃ _ _
            · exact ih h _ _
        · rw [happend]
          exact ih h' _ _

/-- Without refusals `readInput` is still busy, or it has read a line. -/
theorem readInput_cases (fuel : Nat) (stdin : List UInt8) (heap : Heap) :
    readInput noFailures fuel stdin heap = .error .outOfFuel ∨
      ∃ input rest heap', readInput noFailures fuel stdin heap =
        .ok (some input, rest, heap') := by
  obtain ⟨string, heap₁, hnew⟩ : ∃ string heap₁,
      makeNewDynamicByteArray (β := UInt8) noFailures 1 heap =
        (some string, heap₁) := ⟨_, _, rfl⟩
  obtain ⟨hrep, htype⟩ := makeNewDynamicByteArray_represents hnew
  have husable : Usable string := ⟨htype, [], hrep⟩
  unfold readInput
  rw [hnew]
  rcases readLoop_cases noFailures husable fuel stdin heap₁ with
    hloop | ⟨string', rest, heap₂, hloop, h'⟩
  · exact Or.inl (by simp only [hloop, except_error_bind])
  · obtain ⟨string'', heap₃, happend, -⟩ := h'.append noFailures rest heap₂ 0
    refine Or.inr ⟨⟨string''.elementsBlock, string''.elements⟩, rest,
      heap₃.free string''.block, ?_⟩
    simp only [hloop, happend, except_ok_bind, except_pure]

/-- The tokens that `main` looks at.  They are the tokens typed, unless the
line has a backslash and so is neither a sentence nor an exit keyword. -/
theorem tokens_read {line stored : List UInt8} (hdoubled : Doubled line stored)
    {sentence : List CString}
    (htexts : sentence.map CString.bytes = runs isSpace (cString stored)) :
    ∃ tokens : List CString, tokens.map CString.bytes = runs isSpace
        (cString line) ∧
      (sentence = tokens ∨ ¬ IsExit sentence ∧ ¬ DerivesList sentence ∧
        ¬ IsExit tokens ∧ ¬ DerivesList tokens) := by
  have hagree := cString_agree hdoubled
  obtain ⟨tokens, htokens⟩ := exists_tokens (runs isSpace (cString line))
    fun run hrun hmem => cString_nulFree line (mem_of_mem_runs hrun hmem)
  refine ⟨tokens, htokens, ?_⟩
  by_cases hbackslash : backslash ∈ cString line
  · right
    have hneither : ∀ (text : List UInt8) (strings : List CString),
        backslash ∈ text → strings.map CString.bytes = runs isSpace text →
        ¬ IsExit strings ∧ ¬ DerivesList strings := by
      intro text strings hmem hstrings
      obtain ⟨run, hrun, hin⟩ := exists_run_of_mem
        (show isSpace backslash = false by decide) hmem
      rw [← hstrings] at hrun
      obtain ⟨token, htoken, rfl⟩ := List.mem_map.mp hrun
      exact ⟨not_isExit_of_backslash htoken hin,
        not_derivesList_of_backslash hmem hstrings⟩
    obtain ⟨hexit, hderives⟩ :=
      hneither _ sentence (hagree.subset hbackslash) htexts
    exact ⟨hexit, hderives, hneither _ tokens hbackslash htokens⟩
  · left
    rw [hagree.eq hbackslash, ← htokens] at htexts
    exact List.map_injective_iff.mpr CString.bytes_injective htexts

/-- `interpretInput` up to `safelyFork` builds the tree of a sentence, and
rejects the rest. -/
theorem interpretInputList_decides (sentence : List CString) (heap : Heap) :
    ∃ result heap', interpretInputList noFailures sentence heap =
        .ok (result, heap') ∧
      match result with
      | none => ¬ DerivesList sentence
      | some list => ∃ line : CommandLine, line.tokens = sentence ∧
          eraseSimpleList list = lineTree line := by
  obtain ⟨list, heap₁, hnew⟩ := makeNewSimpleList_noFailures heap
  obtain ⟨accepted, list', heap₂, hparse, hiff, -⟩ :=
    parseInput_decides sentence hnew
  unfold interpretInputList
  rw [hnew]
  simp only [hparse, except_ok_bind]
  cases accepted with
  | false =>
      exact ⟨_, _, rfl, fun hderives =>
        Bool.false_ne_true (hiff.mpr hderives)⟩
  | true =>
      obtain ⟨line, rfl⟩ := (derivesList_iff _).mp (hiff.mp rfl)
      obtain ⟨list'', heap'', haccept, htree⟩ := parseInput_noFailures line hnew
      rw [hparse] at haccept
      cases haccept
      exact ⟨_, _, rfl, line, rfl, htree⟩

/-- What comes of a line that has been read. -/
theorem nextLine_read {fuel : Nat} {stdin rest : List UInt8} {heap heap₁ : Heap}
    {input : Block UInt8} (hread : readInput noFailures fuel stdin heap =
      .ok (some input, rest, heap₁)) :
    ∃ tokens outcome heap', nextLine noFailures fuel stdin heap =
        .ok (outcome, rest, heap') ∧
      Typed stdin tokens rest ∧ Decided tokens outcome := by
  obtain ⟨line, stored, spare, hline, hdoubled, hcells⟩ := readInput_line hread
  obtain ⟨behind, hbehind⟩ := cString_cells stored spare
  obtain ⟨strings, input', heap₂, sentence, htokenise, hload, htexts⟩ :=
    tokenise_eq input.id (cString_nulFree stored) behind heap₁
  rw [← hbehind, ← hcells] at htokenise
  obtain ⟨tokens, htokens, hsame⟩ := tokens_read hdoubled htexts
  have htyped : Typed stdin tokens rest := ⟨line, hline, htokens⟩
  unfold nextLine
  simp only [hread, htokenise, hload, except_ok_bind]
  by_cases hexit : IsExit sentence
  · rw [if_pos ((isExit_iff _).mp hexit)]
    refine ⟨tokens, _, _, rfl, htyped, ?_, rfl⟩
    rcases hsame with rfl | ⟨hnot, -⟩
    · exact hexit
    · exact absurd hexit hnot
  · rw [if_neg fun hkeyword => hexit ((isExit_iff _).mpr hkeyword)]
    obtain ⟨result, heap₃, hlist, hresult⟩ :=
      interpretInputList_decides sentence heap₂
    rw [hlist, except_ok_bind]
    cases result with
    | none =>
        refine ⟨tokens, _, _, rfl, htyped, ?_⟩
        rcases hsame with rfl | ⟨-, -, hneither⟩
        · exact ⟨hexit, hresult⟩
        · exact hneither
    | some list =>
        refine ⟨tokens, _, _, rfl, htyped, ?_⟩
        obtain ⟨parsed, hparsed, htree⟩ := hresult
        rcases hsame with rfl | ⟨-, hnot, -⟩
        · exact ⟨hexit, rfl, parsed, hparsed, htree⟩
        · exact absurd ((derivesList_iff _).mpr ⟨parsed, hparsed⟩) hnot

/-- **Lines as typed.**  Without refusals the body of the loop of `main` is
still busy reading, or it has taken the first logical line off the input and
decided by the tokens on it. -/
theorem nextLine_cases (fuel : Nat) (stdin : List UInt8) (heap : Heap) :
    nextLine noFailures fuel stdin heap = .error .outOfFuel ∨
      ∃ tokens rest outcome heap', nextLine noFailures fuel stdin heap =
          .ok (outcome, rest, heap') ∧
        Typed stdin tokens rest ∧ Decided tokens outcome := by
  rcases readInput_cases fuel stdin heap with
    hread | ⟨input, rest, heap₁, hread⟩
  · left
    unfold nextLine
    rw [hread]
    rfl
  · obtain ⟨tokens, outcome, heap', hline, htyped, hdecided⟩ :=
      nextLine_read hread
    exact Or.inr ⟨tokens, rest, outcome, heap', hline, htyped, hdecided⟩

/-- A line that has been typed is read with enough rounds. -/
theorem nextLine_typed {stdin rest : List UInt8} {tokens : List CString}
    {fuel : Nat} (htyped : Typed stdin tokens rest)
    (hfuel : stdin.length < fuel) (heap : Heap) :
    ∃ outcome heap', nextLine noFailures fuel stdin heap =
        .ok (outcome, rest, heap') ∧ Decided tokens outcome := by
  obtain ⟨line, hline, htokens⟩ := htyped
  obtain ⟨stored, hstored, -⟩ := storedLine_of_logicalLine hline
  obtain ⟨id, spare, heap₁, hread⟩ := readInput_eq hstored hfuel heap
  obtain ⟨tokens', outcome, heap', hnext, htyped', hdecided⟩ :=
    nextLine_read hread
  obtain ⟨rfl, -⟩ := htyped'.unique ⟨line, hline, htokens⟩
  exact ⟨outcome, heap', hnext, hdecided⟩

/-- A sentence is parsed into its tree. -/
theorem nextLine_sentence {stdin rest : List UInt8} {tokens : List CString}
    {fuel : Nat} (htyped : Typed stdin tokens rest)
    (hderives : DerivesList tokens) (hexit : ¬ IsExit tokens)
    (hfuel : stdin.length < fuel) (heap : Heap) :
    ∃ command heap', nextLine noFailures fuel stdin heap =
        .ok (.run command, rest, heap') ∧
      command.sentence = tokens ∧ ∃ line : CommandLine, line.tokens = tokens ∧
        eraseSimpleList command.list = lineTree line := by
  obtain ⟨outcome, heap', hnext, hdecided⟩ := nextLine_typed htyped hfuel heap
  cases outcome with
  | exit status => exact absurd hdecided.1 hexit
  | invalid => exact absurd hderives hdecided.2
  | run command => exact ⟨command, heap', hnext, hdecided.2⟩

theorem Decided.derives {tokens : List CString} {command : Command}
    (h : Decided tokens (.run command)) : DerivesList tokens := by
  obtain ⟨-, -, line, hline, -⟩ := h
  exact (derivesList_iff _).mpr ⟨line, hline⟩

/-! ## From a line to its programs -/

/-- **What a line comes to.**  A sentence on the first logical line is parsed
into a pipeline with one child for each of its segments.  The first two
children and the last attempt the arguments and the redirections written in
their segments, between the pipes of their neighbours; the others stop before
they have opened a file.  The flag for the background says whether the line
ends in `&`. -/
theorem typedLine_runs {stdin rest : List UInt8} {tokens : List CString}
    {fuel : Nat} (htyped : Typed stdin tokens rest)
    (hderives : DerivesList tokens) (hexit : ¬ IsExit tokens)
    (hfuel : stdin.length < fuel) (heap : Heap) {α : Type}
    (openFails : Nat → Nat → Bool) (table : FdTable α)
    (hopen : ∀ fd, fd < 3 → table.entry fd ≠ none) :
    ∃ command heap', nextLine noFailures fuel stdin heap =
        .ok (.run command, rest, heap') ∧
      command.sentence = tokens ∧
      command.list.hasDaemonAmpersand =
        (if endsInAmpersand tokens then 1 else 0) ∧
      (spawnPipeline (openingStages openFails) heap' command.list
        table).children.length = (segments tokens).length ∧
      ∀ k segment, (segments tokens)[k]? = some segment → ∃ reached p,
        (spawnPipeline (openingStages openFails) heap' command.list
          table).children[k]? = some (.ok (reached, p)) ∧
        (Executed (segments tokens).length k →
          Attempts (openFails k) (segmentArguments segment)
            (segmentRedirections segment)
            (stageInput (table.map .inherited) k)
            (stageOutput (table.map .inherited) (segments tokens).length k)
            reached p) ∧
        (¬ Executed (segments tokens).length k →
          reached = none ∧ p.opened = []) := by
  obtain ⟨command, heap', hnext, hsentence, line, rfl, htree⟩ :=
    nextLine_sentence htyped hderives hexit hfuel heap
  refine ⟨command, heap', hnext, hsentence, ?_,
    spawnPipeline_segments openFails heap' htree table hopen⟩
  rw [endsInAmpersand_tokens]
  exact congrArg SimpleList.hasDaemonAmpersand htree

/-- Of `a | b | a | b` the third command is not executed, and the fourth reads
the pipe that nobody writes. -/
theorem typedLine_runs_four : ∃ command heap' p q,
    nextLine noFailures 15
      [97, 32, 124, 32, 98, 32, 124, 32, 97, 32, 124, 32, 98, 10]
      Heap.empty = .ok (.run command, [], heap') ∧
    (spawnPipeline (openingStages fun _ _ => false) heap' command.list
      FdTable.standard).children[2]? = some (.ok (none, p)) ∧
    (spawnPipeline (openingStages fun _ _ => false) heap' command.list
      FdTable.standard).children[3]? = some (.ok (some [tokenB], q)) ∧
    q.table.entry stdinFd = some (.readEnd 2) := by
  have htyped : Typed
      [97, 32, 124, 32, 98, 32, 124, 32, 97, 32, 124, 32, 98, 10]
      lineOfFour.tokens [] :=
    ⟨[97, 32, 124, 32, 98, 32, 124, 32, 97, 32, 124, 32, 98], by decide,
      by decide⟩
  have hexit : ¬ IsExit lineOfFour.tokens := by
    rintro ⟨token, htoken, -⟩
    cases htoken
  obtain ⟨command, heap', hnext, -, -, -, hsegments⟩ :=
    typedLine_runs htyped ((derivesList_iff _).mpr ⟨lineOfFour, rfl⟩) hexit
      (Nat.lt_succ_self 14) Heap.empty (fun _ _ => false) FdTable.standard
      (by decide)
  obtain ⟨reached, p, hthird, -, hstrayed⟩ := hsegments 2 _ rfl
  obtain ⟨reached', q, hfourth, hexecuted, -⟩ := hsegments 3 _ rfl
  obtain ⟨rfl, -⟩ := hstrayed (by unfold Executed; decide)
  obtain ⟨rfl, hstdin, -⟩ :=
    (hexecuted (Or.inr rfl)).executed fun _ _ => rfl
  exact ⟨command, heap', p, q, hnext, hthird, hfourth, hstdin⟩

/-! ## Sessions -/

/-- The shell for its user: what is still to be read, the lines that have been
run, and whether the shell has gone. -/
structure Transcript where
  stdin : List UInt8
  commands : List (List CString)
  ended : Bool

/-- What a line does: it is rejected or run, or it ends the transcript. -/
inductive LineStep : Transcript → Transcript → Prop
  | reject {stdin rest : List UInt8} {commands : List (List CString)}
      {tokens : List CString} (htyped : Typed stdin tokens rest)
      (hexit : ¬ IsExit tokens) (hinvalid : ¬ DerivesList tokens) :
      LineStep ⟨stdin, commands, false⟩ ⟨rest, commands, false⟩
  | run {stdin rest : List UInt8} {commands : List (List CString)}
      {tokens : List CString} (htyped : Typed stdin tokens rest)
      (hexit : ¬ IsExit tokens) (hderives : DerivesList tokens) :
      LineStep ⟨stdin, commands, false⟩ ⟨rest, commands ++ [tokens], false⟩
  | leave {stdin rest : List UInt8} {commands : List (List CString)}
      {tokens : List CString} (htyped : Typed stdin tokens rest)
      (hexit : IsExit tokens) :
      LineStep ⟨stdin, commands, false⟩ ⟨rest, commands, true⟩
  /-- `fork` fails, and the shell gives up. -/
  | abandon {stdin rest : List UInt8} {commands : List (List CString)}
      {tokens : List CString} (htyped : Typed stdin tokens rest)
      (hexit : ¬ IsExit tokens) (hderives : DerivesList tokens) :
      LineStep ⟨stdin, commands, false⟩ ⟨rest, commands, true⟩

/-- A line is taken, or a program that has been started takes some of the
input. -/
inductive TranscriptStep : Transcript → Transcript → Prop
  | line {t t' : Transcript} (hline : LineStep t t') : TranscriptStep t t'
  | taken {front taken rest : List UInt8} {commands : List (List CString)}
      {ended : Bool} (hstarted : commands ≠ []) :
      TranscriptStep ⟨front ++ taken ++ rest, commands, ended⟩
        ⟨front ++ rest, commands, ended⟩

/-- What is left of the input is a tail of it. -/
theorem logicalLine_suffix {stream line rest : List UInt8}
    (h : logicalLine stream = some (line, rest)) : rest <:+ stream := by
  fun_induction logicalLine stream generalizing line with
  | case1 => cases h
  | case2 stream =>
      cases h
      exact List.suffix_cons _ _
  | case3 => cases h
  | case4 stream hc ih =>
      exact (ih h).trans ⟨[_, _], rfl⟩
  | case5 c2 stream hc2 hc ih =>
      obtain ⟨⟨line', rest'⟩, hline, heq⟩ := Option.map_eq_some_iff.mp h
      cases heq
      exact (ih hline).trans ⟨[_, _], rfl⟩
  | case6 c stream hc hb ih =>
      obtain ⟨⟨line', rest'⟩, hline, heq⟩ := Option.map_eq_some_iff.mp h
      cases heq
      exact (ih hline).trans (List.suffix_cons _ _)

theorem Typed.suffix {stdin rest : List UInt8} {tokens : List CString}
    (h : Typed stdin tokens rest) : rest <:+ stdin := by
  obtain ⟨line, hline, -⟩ := h
  exact logicalLine_suffix hline

/-- What is left when a part has been taken. -/
theorem sublist_of_taken (front taken rest : List UInt8) :
    (front ++ rest).Sublist (front ++ taken ++ rest) :=
  (List.sublist_append_left front taken).append (List.Sublist.refl rest)

theorem TranscriptStep.stdin {t t' : Transcript} (h : TranscriptStep t t') :
    t'.stdin.Sublist t.stdin := by
  cases h with
  | line hline =>
      cases hline with
      | reject htyped hexit hinvalid => exact htyped.suffix.sublist
      | run htyped hexit hderives => exact htyped.suffix.sublist
      | leave htyped hexit => exact htyped.suffix.sublist
      | abandon htyped hexit hderives => exact htyped.suffix.sublist
  | taken hstarted => exact sublist_of_taken _ _ _

/-- Whether the shell has gone. -/
def gone : ShellState → Bool
  | .prompt => false
  | .forked _ _ => false
  | .waiting _ _ => false
  | .exited _ => true
  | .crashed _ => true

/-- What its user sees of a session. -/
def transcript (s : Session) : Transcript :=
  ⟨s.stdin, s.jobs.map JobRecord.sentence, gone s.shell⟩

/-- The shell has not met undefined behaviour. -/
def Sound (s : Session) : Prop :=
  ∀ fault, s.shell ≠ .crashed fault

section Steps

variable {s s' : Session}

/-- What a step from the prompt tells about the line that was read. -/
theorem typed_of_nextLine {fuel : Nat} {stdin rest : List UInt8}
    {heap heap' : Heap} {outcome : LineOutcome}
    (hline : nextLine noFailures fuel stdin heap =
      .ok (outcome, rest, heap')) :
    ∃ tokens, Typed stdin tokens rest ∧ Decided tokens outcome := by
  rcases nextLine_cases fuel stdin heap with
    hbusy | ⟨tokens, rest', outcome', heap'', hline', htyped, hdecided⟩
  · rw [hline] at hbusy
    cases hbusy
  · rw [hline] at hline'
    cases hline'
    exact ⟨tokens, htyped, hdecided⟩

/-- The shell keeps clear of undefined behaviour. -/
theorem Sound.step (h : Sound s) (hstep : SessionStep noFailures s s') :
    Sound s' := by
  cases hstep with
  | exit hshell hline => exact fun _ => ShellState.noConfusion
  | crash hshell hline hfault =>
      rcases nextLine_cases _ _ _ with hbusy | ⟨_, _, _, _, hok, -⟩
      · rw [hline] at hbusy
        cases hbusy
        exact absurd rfl hfault
      · rw [hline] at hok
        cases hok
  | invalid hshell hline => exact fun _ => ShellState.noConfusion
  | fork hshell hline => exact fun _ => ShellState.noConfusion
  | noFork hshell hline => exact fun _ => ShellState.noConfusion
  | background hshell hflag => exact fun _ => ShellState.noConfusion
  | foreground hshell hflag => exact fun _ => ShellState.noConfusion
  | waited hshell hrecord hexited => exact fun _ => ShellState.noConfusion
  | job hrecord hstep => exact h
  | stageReads hrecord hrunning hstdin => exact h

theorem transcript_prompt (hprompt : s.shell = .prompt) :
    transcript s = ⟨s.stdin, s.jobs.map JobRecord.sentence, false⟩ := by
  rw [transcript, hprompt]
  rfl

/-- A step of a job leaves the sentences as they are. -/
theorem sentences_set {jobs : List JobRecord} {pid : Nat} {record : JobRecord}
    (h : jobs[pid]? = some record) (job : Job) :
    (jobs.set pid { record with job := job }).map JobRecord.sentence =
      jobs.map JobRecord.sentence := by
  obtain ⟨hlt, rfl⟩ := List.getElem?_eq_some_iff.mp h
  have hmapped : pid < (jobs.map JobRecord.sentence).length := by
    rw [List.length_map]
    exact hlt
  rw [List.map_set, ← List.getElem_map JobRecord.sentence]
  exact List.set_getElem_self hmapped

/-- A step of the session is a step of the transcript, or none. -/
theorem transcript_step (hsound : Sound s')
    (hstep : SessionStep noFailures s s') :
    TranscriptStep (transcript s) (transcript s') ∨
      transcript s' = transcript s := by
  cases hstep with
  | exit hshell hline =>
      obtain ⟨tokens, htyped, hexit, -⟩ := typed_of_nextLine hline
      rw [transcript_prompt hshell]
      exact Or.inl (.line (.leave htyped hexit))
  | crash hshell hline hfault => exact absurd rfl (hsound _)
  | invalid hshell hline =>
      obtain ⟨tokens, htyped, hexit, hinvalid⟩ := typed_of_nextLine hline
      rw [transcript_prompt hshell]
      exact Or.inl (.line (.reject htyped hexit hinvalid))
  | fork hshell hline =>
      obtain ⟨tokens, htyped, hdecided⟩ := typed_of_nextLine hline
      have hderives := hdecided.derives
      obtain ⟨hexit, rfl, -⟩ := hdecided
      rw [transcript_prompt hshell]
      left
      rw [transcript, List.map_append]
      exact .line (.run htyped hexit hderives)
  | noFork hshell hline =>
      obtain ⟨tokens, htyped, hdecided⟩ := typed_of_nextLine hline
      rw [transcript_prompt hshell]
      exact Or.inl (.line (.abandon htyped hdecided.1 hdecided.derives))
  | background hshell hflag =>
      right
      rw [transcript, transcript, hshell]
      rfl
  | foreground hshell hflag =>
      right
      rw [transcript, transcript, hshell]
      rfl
  | waited hshell hrecord hexited =>
      right
      rw [transcript, transcript, hshell]
      rfl
  | job hrecord hstep =>
      right
      rw [transcript, transcript, sentences_set hrecord]
  | @stageReads front taken rest record hrecord hrunning hstdin =>
      left
      rw [transcript, transcript, hstdin]
      refine .taken fun hnone => ?_
      rw [List.map_eq_nil_iff.mp hnone] at hrecord
      exact absurd hrecord List.not_mem_nil

/-- At the prompt the shell can take every line. -/
theorem exists_lineStep (hprompt : s.shell = .prompt) {t : Transcript}
    (hline : LineStep (transcript s) t) :
    ∃ s', SessionStep noFailures s s' ∧ transcript s' = t := by
  rw [transcript_prompt hprompt] at hline
  cases hline with
  | reject htyped hexit hinvalid =>
      obtain ⟨outcome, heap, hnext, hdecided⟩ :=
        nextLine_typed htyped (Nat.lt_succ_self _) s.heap
      cases outcome with
      | exit status => exact absurd hdecided.1 hexit
      | run command => exact absurd hdecided.derives hinvalid
      | invalid => exact ⟨_, .invalid hprompt hnext, rfl⟩
  | run htyped hexit hderives =>
      obtain ⟨command, heap, hnext, hsentence, -⟩ :=
        nextLine_sentence htyped hderives hexit (Nat.lt_succ_self _) s.heap
      refine ⟨_, .fork hprompt hnext, ?_⟩
      rw [transcript, List.map_append, ← hsentence]
      rfl
  | leave htyped hexit =>
      obtain ⟨outcome, heap, hnext, hdecided⟩ :=
        nextLine_typed htyped (Nat.lt_succ_self _) s.heap
      cases outcome with
      | exit status => exact ⟨_, .exit hprompt hnext, rfl⟩
      | run command => exact absurd hexit hdecided.1
      | invalid => exact absurd hexit hdecided.1
  | abandon htyped hexit hderives =>
      obtain ⟨command, heap, hnext, -⟩ :=
        nextLine_sentence htyped hderives hexit (Nat.lt_succ_self _) s.heap
      exact ⟨_, .noFork hprompt hnext, rfl⟩

end Steps

theorem simulates_transcript :
    Simulates (SessionStep noFailures) TranscriptStep Sound transcript where
  keeps := fun _ _ hsound hstep => hsound.step hstep
  matched := fun s s' hsound hstep => by
    rcases transcript_step (hsound.step hstep) hstep with htaken | hsame
    · exact Relation.ReflTransGen.single htaken
    · rw [hsame]

/-- **Every session is a transcript.**  In whatever order the shell, the job
handlers and the stages take their steps, and whether or not `fork` succeeds:
the jobs that the shell has started are the sentences among the logical lines
that it has read, it goes at an exit keyword or when `fork` fails, and no
input makes it crash.  What is still to be read are bytes of the input in
their order, and at the prompt the shell can take whatever line comes next. -/
theorem session_simulates (stdin : List UInt8) (heap : Heap) {s : Session}
    (hruns : Runs (SessionStep noFailures) (.initial stdin heap) s) :
    Runs TranscriptStep ⟨stdin, [], false⟩ (transcript s) ∧ Sound s ∧
      s.stdin.Sublist stdin ∧
      (s.shell = .prompt → ∀ t, LineStep (transcript s) t →
        ∃ s', SessionStep noFailures s s' ∧ transcript s' = t) := by
  have hstart : Sound (.initial stdin heap) := fun _ => ShellState.noConfusion
  have hleft := simulates_transcript.pull
    (J := fun t => t.stdin.Sublist stdin)
    (fun _ _ hsublist hstep => hstep.stdin.trans hsublist) hstart
    (List.Sublist.refl stdin) hruns
  exact ⟨simulates_transcript.runs hstart hruns,
    simulates_transcript.invariant_runs hstart hruns, hleft,
    fun hprompt _ => exists_lineStep hprompt⟩

/-- The line `a &`, with its handler still to start. -/
theorem session_simulates_daemon : ∃ s command heap,
    Runs (SessionStep noFailures) (.initial [97, 32, 38, 10] Heap.empty) s ∧
    s = ⟨.forked 0 command, [], heap, [command.forked]⟩ ∧
    Runs TranscriptStep ⟨[97, 32, 38, 10], [], false⟩
      ⟨[], [command.sentence], false⟩ ∧ Sound s := by
  obtain ⟨command, heap, hline, -⟩ := nextLine_daemon
  have hfork : SessionStep noFailures
      (.initial [97, 32, 38, 10] Heap.empty)
      ⟨.forked 0 command, [], heap, [command.forked]⟩ := .fork rfl hline
  have hruns := Relation.ReflTransGen.single hfork
  obtain ⟨htranscript, hsound, -⟩ := session_simulates _ Heap.empty hruns
  exact ⟨_, command, heap, hruns, rfl, htranscript, hsound⟩

end OsLabs.Iwish.Script
