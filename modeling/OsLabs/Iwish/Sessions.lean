import OsLabs.Iwish.FrontEnd
import OsLabs.Iwish.LineReading
import OsLabs.Iwish.Ownership
import OsLabs.Iwish.Shell

/-!
# What a session leaves on the heap

The shell gives back the line buffer and the token array of every line it has
handled.  The tree of an accepted line it gives back only when `fork` fails;
the branch of `interpretInput` for the parent forgets it.
`prompt_freedOnce_iff`: at the prompt everything allocated so far has been
freed exactly once as long as no line was a command line.
-/

namespace OsLabs.Iwish.Sessions

open OsLabs.Posix
open OsLabs.Iwish.DBA
open OsLabs.Iwish.ParserTokens
open OsLabs.Iwish.Parser
open OsLabs.Iwish.Grammar
open OsLabs.Iwish.PipelineSpec
open OsLabs.Iwish.ParserOutcome
open OsLabs.Iwish.ParserCorrect
open OsLabs.Iwish.Reader
open OsLabs.Iwish.LogicalLine
open OsLabs.Iwish.LineReading
open OsLabs.Iwish.FrontEnd
open OsLabs.Iwish.Ownership
open OsLabs.Iwish.JobHandler
open OsLabs.Iwish.Shell

/-! ## Arrays -/

section Arrays

variable {β : Type} {fails : FailurePlan} {start heap heap' : Heap}
  {arr arr' : DynamicByteArray β} {blocks : Multiset Nat}

/-- An array owns its header and its elements. -/
def arrayBlocks (arr : DynamicByteArray β) : Multiset Nat :=
  {arr.block} + {arr.elementsBlock}

theorem makeNewDynamicByteArray_owns {typeSize : Nat}
    (h : start.Owns heap blocks)
    (hnew : makeNewDynamicByteArray fails typeSize heap = (some arr, heap')) :
    start.Owns heap' (arrayBlocks arr + blocks) := by
  obtain ⟨rfl, rfl⟩ := makeNewDynamicByteArray_some hnew
  apply h.grant.grant.of_eq
  show {heap.calls + 1} + ({heap.calls} + blocks) =
    {heap.calls} + {heap.calls + 1} + blocks
  abel

/-- An array that grows moves, one that cannot stays. -/
theorem resizeArr_owns {status : Int} {newNrOfElements : Nat}
    (h : start.Owns heap (arrayBlocks arr + blocks))
    (hresize : resizeArr fails arr newNrOfElements heap =
      (status, arr', heap')) :
    start.Owns heap' (arrayBlocks arr' + blocks) := by
  unfold resizeArr Heap.realloc at hresize
  cases hplan : fails heap.calls with
  | true =>
      simp only [hplan, if_true] at hresize
      cases hresize
      exact h.refuse
  | false =>
      rw [hplan] at hresize
      cases hresize
      have hrest : start.Owns heap
          ({arr.elementsBlock} + ({arr.block} + blocks)) := by
        apply h.of_eq
        rw [arrayBlocks]
        abel
      apply hrest.free.grant.of_eq
      show {heap.calls} + ({arr.block} + blocks) =
        {arr.block} + {heap.calls} + blocks
      abel

theorem addElemToArr_owns {status : Int} {bytestring : List β}
    (h : start.Owns heap (arrayBlocks arr + blocks))
    (hadd : addElemToArr fails arr bytestring heap =
      .ok (status, arr', heap')) :
    start.Owns heap' (arrayBlocks arr' + blocks) := by
  unfold addElemToArr at hadd
  -- the array after the growth, if it needs one
  have hgrown : ∀ resized, resized =
      (if arr.nrOfElements = arr.capacity then
        resizeArr fails arr (2 * arr.capacity) heap
      else (0, arr, heap)) →
      start.Owns resized.2.2 (arrayBlocks resized.2.1 + blocks) := by
    rintro resized rfl
    split
    · exact resizeArr_owns h rfl
    · exact h
  specialize hgrown _ rfl
  generalize (if arr.nrOfElements = arr.capacity then
    resizeArr fails arr (2 * arr.capacity) heap
    else (0, arr, heap)) = resized at hadd hgrown
  obtain ⟨status', grown, heap₁⟩ := resized
  simp only at hadd
  split at hadd
  · cases hadd
    exact hgrown
  · obtain ⟨elements, -, hadd⟩ := except_bind_eq_ok.mp hadd
    cases hadd
    exact hgrown

end Arrays

/-! ## The line buffer and the token array -/

section Lines

variable {fails : FailurePlan} {start heap heap' : Heap}
  {blocks : Multiset Nat}

/-- A reading owns its string. -/
def Reading.Owns (start : Heap) (r : Reading) (blocks : Multiset Nat) : Prop :=
  start.Owns r.heap (arrayBlocks r.string + blocks)

theorem Reading.Owns.append {r r' : Reading} {c : UInt8}
    (h : Reading.Owns start r blocks) (happend : r.append fails c = .ok r') :
    Reading.Owns start r' blocks := by
  obtain ⟨⟨status, string, heap⟩, hadd, happend⟩ :=
    except_bind_eq_ok.mp happend
  cases happend
  exact addElemToArr_owns h hadd

theorem readLoop_owns {fuel : Nat} {r r' : Reading}
    (h : Reading.Owns start r blocks)
    (hloop : readLoop fails fuel r = .ok r') :
    Reading.Owns start r' blocks := by
  induction fuel generalizing r with
  | zero => cases hloop
  | succ fuel ih =>
      -- `fgetc` takes from the stream and leaves the rest of the reading
      have hread : ∀ stream,
          Reading.Owns start { r with stream := stream } blocks := fun _ => h
      unfold readLoop at hloop
      simp only at hloop
      split at hloop
      · cases hloop
        exact h
      · split at hloop
        · split at hloop
          · obtain ⟨r₁, hfirst, hloop⟩ := except_bind_eq_ok.mp hloop
            obtain ⟨r₂, hsecond, hloop⟩ := except_bind_eq_ok.mp hloop
            obtain ⟨r₃, hthird, hloop⟩ := except_bind_eq_ok.mp hloop
            have h₁ := (hread _).append hfirst
            exact ih ((h₁.append hsecond).append hthird) hloop
          · exact ih (hread _) hloop
        · obtain ⟨r₁, happend, hloop⟩ := except_bind_eq_ok.mp hloop
          exact ih ((hread _).append happend) hloop

/-- `readInput` leaves its buffer. -/
theorem readInput_owns {fuel : Nat} {stream rest : List UInt8}
    {input : Block UInt8} (h : start.Owns heap blocks)
    (hread : readInput fails fuel stream heap =
      .ok (some input, rest, heap')) :
    start.Owns heap' ({input.id} + blocks) := by
  unfold readInput at hread
  rcases hnew : makeNewDynamicByteArray (β := UInt8) fails 1 heap with
    ⟨_ | string, heap₁⟩
  · rw [hnew] at hread
    cases hread
  · rw [hnew] at hread
    have hstart := makeNewDynamicByteArray_owns h hnew
    obtain ⟨r, hloop, hread⟩ := except_bind_eq_ok.mp hread
    obtain ⟨r', happend, hread⟩ := except_bind_eq_ok.mp hread
    have hloopOwns := readLoop_owns (r := ⟨string, stream, heap₁⟩) hstart hloop
    have hend := hloopOwns.append happend
    cases hread
    apply Heap.Owns.free
    apply hend.of_eq
    rw [arrayBlocks, add_assoc]

theorem tokeniseLoop_owns {fuel : Nat} {token : Option Nat}
    {input input' : List (Option UInt8)} {saved : Nat}
    {arr : DynamicByteArray (PointerByte Nat)} {strings : Strings}
    (h : start.Owns heap (arrayBlocks arr + blocks))
    (hloop : tokeniseLoop fails fuel token input saved arr heap =
      .ok (some strings, input', heap')) :
    start.Owns heap' ({strings.id} + blocks) := by
  induction fuel generalizing token input saved arr heap with
  | zero => cases hloop
  | succ fuel ih =>
      unfold tokeniseLoop at hloop
      obtain ⟨⟨status, arr₁, heap₁⟩, hadd, hloop⟩ :=
        except_bind_eq_ok.mp hloop
      have harr := addElemToArr_owns h hadd
      simp only at hloop
      split at hloop
      · cases hloop
      · cases token with
        | none =>
            cases hloop
            apply Heap.Owns.free
            apply harr.of_eq
            rw [arrayBlocks, add_assoc]
        | some offset =>
            obtain ⟨⟨next, input₁, saved₁⟩, -, hloop⟩ :=
              except_bind_eq_ok.mp hloop
            exact ih harr hloop

/-- `tokenise` leaves the token array; the line stays where it is. -/
theorem tokenise_owns {input input' : Block UInt8} {strings : Strings}
    (h : start.Owns heap blocks)
    (htokenise : tokenise fails input heap =
      .ok (some strings, input', heap')) :
    start.Owns heap' ({strings.id} + blocks) ∧ input'.id = input.id := by
  unfold tokenise at htokenise
  rcases hnew : makeNewDynamicByteArray (β := PointerByte Nat) fails
    pointerSize heap with ⟨_ | arr, heap₁⟩
  · rw [hnew] at htokenise
    cases htokenise
  · rw [hnew] at htokenise
    have hstart := makeNewDynamicByteArray_owns h hnew
    obtain ⟨⟨token, cells, saved⟩, -, htokenise⟩ :=
      except_bind_eq_ok.mp htokenise
    obtain ⟨⟨_ | strings', cells', heap₂⟩, hloop, htokenise⟩ :=
      except_bind_eq_ok.mp htokenise
    · cases htokenise
    · cases htokenise
      exact ⟨tokeniseLoop_owns hstart hloop, rfl⟩

/-- `interpretInput` leaves the tree of a line that it accepts, and decides by
the grammar. -/
theorem interpretInputList_owns {sentence : List CString}
    {result : Option SimpleList} (h : start.Owns heap blocks)
    (hlist : interpretInputList noFailures sentence heap =
      .ok (result, heap')) :
    match result with
    | none => start.Owns heap' blocks ∧ ¬ DerivesList sentence
    | some list =>
      start.Owns heap' (treeBlocks list + blocks) ∧ DerivesList sentence := by
  obtain ⟨list, heap₁, hnew, hstart, block, elementBlock, hfresh⟩ :=
    makeNewSimpleList_owns h
  obtain ⟨accepted, list', heap₂, hparse, hiff, -⟩ :=
    parseInput_decides sentence hnew
  have htree := parseInput_owns_tree hfresh hstart hparse
  unfold interpretInputList at hlist
  rw [hnew] at hlist
  simp only [hparse, except_ok_bind] at hlist
  cases accepted with
  | true =>
      cases hlist
      exact ⟨htree, hiff.mp rfl⟩
  | false =>
      cases hlist
      exact ⟨freeSimpleList_owns list' htree, fun hderives =>
        Bool.false_ne_true (hiff.mpr hderives)⟩

end Lines

/-! ## Which lines are command lines -/

section CommandLines

variable {fails : FailurePlan} {fuel : Nat} {line stored : List UInt8}

/-- What C takes for the string, up to the first NUL. -/
def cString (line : List UInt8) : List UInt8 :=
  line.takeWhile (· ≠ 0)

theorem cString_nulFree (line : List UInt8) : (0 : UInt8) ∉ cString line := by
  intro hmem
  have hall := List.all_eq_true.mp List.all_takeWhile 0 hmem
  exact absurd hall (by decide)

/-- The cells of a line, with its first terminator in sight. -/
theorem cString_cells (line : List UInt8) (spare : List (Option UInt8)) :
    ∃ behind, line.map some ++ some 0 :: spare =
      (cString line).map some ++ some 0 :: behind := by
  induction line with
  | nil => exact ⟨spare, rfl⟩
  | cons c line ih =>
      by_cases hc : c = 0
      · subst hc
        exact ⟨line.map some ++ some 0 :: spare, rfl⟩
      · obtain ⟨behind, hbehind⟩ := ih
        refine ⟨behind, ?_⟩
        rw [cString, List.takeWhile_cons_of_pos (by simpa using hc)]
        rw [List.map_cons, List.cons_append, hbehind]
        rfl

/-- A NUL cuts the line and the stored line at the same place. -/
theorem cString_agree (h : Doubled line stored) :
    Agree (cString line) (cString stored) := by
  have hsame : ∀ l : List UInt8, Agree l l :=
    fun l => ⟨List.Subset.refl l, fun _ => rfl⟩
  have hbackslash : backslash ≠ 0 := by decide
  induction h with
  | nil => exact hsame []
  | @plain line stored c hb h ih =>
      by_cases hc : c = 0
      · subst hc
        exact hsame []
      · unfold cString
        rw [List.takeWhile_cons_of_pos (by simpa using hc),
          List.takeWhile_cons_of_pos (by simpa using hc)]
        exact agree_cons ih c
  | @escape line stored c2 h ih =>
      by_cases hc2 : c2 = 0
      · subst hc2
        exact hsame [backslash]
      · unfold cString
        have hcut : ∀ rest : List UInt8,
            (backslash :: c2 :: rest).takeWhile (· ≠ 0) =
              backslash :: c2 :: rest.takeWhile (· ≠ 0) := fun rest => by
          rw [List.takeWhile_cons_of_pos (by simpa using hbackslash),
            List.takeWhile_cons_of_pos (by simpa using hc2)]
        rw [hcut, hcut, List.takeWhile_cons_of_pos (by simpa using hbackslash)]
        exact agree_escape ih c2

/-- The first line of the stream, split at its spaces, is a sentence of the
grammar. -/
def IsCommandLine (stdin : List UInt8) : Prop :=
  ∃ line rest tokens, logicalLine stdin = some (line, rest) ∧
    tokens.map CString.bytes = runs isSpace (cString line) ∧
    DerivesList tokens

theorem CString.bytes_injective : Function.Injective CString.bytes := by
  rintro ⟨bytes, hnul⟩ ⟨bytes', hnul'⟩ heq
  cases heq
  rfl

/-- A round that has ended is not changed by more fuel. -/
theorem readLoop_succ {r r' : Reading}
    (h : readLoop fails fuel r = .ok r') :
    readLoop fails (fuel + 1) r = .ok r' := by
  induction fuel generalizing r with
  | zero => cases h
  | succ fuel ih =>
      rw [readLoop] at h ⊢
      simp only at h ⊢
      split at h
      · next hc =>
          rw [if_pos hc]
          exact h
      · next hc =>
          rw [if_neg hc]
          split at h
          · next hb =>
              rw [if_pos hb]
              split at h
              · next hc2 =>
                  rw [if_pos hc2]
                  obtain ⟨r₁, hfirst, h⟩ := except_bind_eq_ok.mp h
                  obtain ⟨r₂, hsecond, h⟩ := except_bind_eq_ok.mp h
                  obtain ⟨r₃, hthird, h⟩ := except_bind_eq_ok.mp h
                  simp only [hfirst, hsecond, hthird, except_ok_bind]
                  exact ih h
              · next hc2 =>
                  rw [if_neg hc2]
                  exact ih h
          · next hb =>
              rw [if_neg hb]
              obtain ⟨r₁, happend, h⟩ := except_bind_eq_ok.mp h
              rw [happend, except_ok_bind]
              exact ih h

theorem readLoop_le {fuel' : Nat} (hle : fuel ≤ fuel') {r r' : Reading}
    (h : readLoop fails fuel r = .ok r') :
    readLoop fails fuel' r = .ok r' := by
  induction hle with
  | refl => exact h
  | step hle ih => exact readLoop_succ ih

/-- What `readInput` returns, however many rounds it was allowed. -/
theorem readInput_line {stdin rest : List UInt8} {input : Block UInt8}
    {heap heap' : Heap}
    (hread : readInput noFailures fuel stdin heap =
      .ok (some input, rest, heap')) :
    ∃ line stored spare, logicalLine stdin = some (line, rest) ∧
      Doubled line stored ∧
      input.cells = stored.map some ++ some 0 :: spare := by
  obtain ⟨string, heap₁, hnew⟩ : ∃ string heap₁,
      makeNewDynamicByteArray (β := UInt8) noFailures 1 heap =
        (some string, heap₁) := ⟨_, _, rfl⟩
  obtain ⟨hrep, htype⟩ := makeNewDynamicByteArray_represents hnew
  cases hline : logicalLine stdin with
  | none =>
      rw [readInput, hnew] at hread
      simp only [readLoop_never_ends hline ⟨htype, [], hrep⟩] at hread
      cases hread
  | some result =>
      obtain ⟨line, rest'⟩ := result
      obtain ⟨stored, hstored, hdoubled⟩ := storedLine_of_logicalLine hline
      -- as many rounds as both runs of the loop have
      have hmore : readInput noFailures (fuel + (stdin.length + 1)) stdin heap =
          .ok (some input, rest, heap') := by
        rw [readInput, hnew] at hread ⊢
        obtain ⟨r, hloop, hread⟩ := except_bind_eq_ok.mp hread
        simp only [readLoop_le (Nat.le_add_right _ _) hloop, except_ok_bind]
        exact hread
      have hfuel : stdin.length < fuel + (stdin.length + 1) := by omega
      obtain ⟨id, spare, heap'', hread'⟩ := readInput_eq hstored hfuel heap
      rw [hmore] at hread'
      cases hread'
      exact ⟨line, stored, spare, rfl, hdoubled, rfl⟩

/-- **The grammar decides about the line as it was typed**, although
`readInput` stores something else. -/
theorem sentence_iff {stdin rest : List UInt8} {input input' : Block UInt8}
    {strings : Strings} {sentence : List CString} {heap heap₁ heap₂ : Heap}
    (hread : readInput noFailures fuel stdin heap =
      .ok (some input, rest, heap₁))
    (htokenise : tokenise noFailures input heap₁ =
      .ok (some strings, input', heap₂))
    (hload : loadSentence input' strings = .ok sentence) :
    DerivesList sentence ↔ IsCommandLine stdin := by
  obtain ⟨line, stored, spare, hline, hdoubled, hcells⟩ := readInput_line hread
  have hagree := cString_agree hdoubled
  -- what `tokenise` sees of the line
  have htexts : sentence.map CString.bytes = runs isSpace (cString stored) := by
    obtain ⟨behind, hbehind⟩ := cString_cells stored spare
    obtain ⟨strings', input'', heap', tokens, htokenise', hload', htexts⟩ :=
      tokenise_eq input.id (cString_nulFree stored) behind heap₁
    rw [← hbehind, ← hcells, htokenise] at htokenise'
    cases htokenise'
    rw [hload] at hload'
    cases hload'
    exact htexts
  constructor
  · intro hderives
    refine ⟨line, rest, sentence, hline, ?_, hderives⟩
    rw [htexts, hagree.eq]
    intro hmem
    exact not_derivesList_of_backslash (hagree.subset hmem) htexts hderives
  · rintro ⟨line', rest', tokens, hline', htokens, hderives⟩
    rw [hline] at hline'
    cases hline'
    have hplain : backslash ∉ cString line := fun hmem =>
      not_derivesList_of_backslash hmem htokens hderives
    rw [hagree.eq hplain, ← htokens] at htexts
    rw [List.map_injective_iff.mpr CString.bytes_injective htexts]
    exact hderives

end CommandLines

/-! ## The body of the loop of `main` -/

section Body

variable {start heap heap' : Heap} {blocks : Multiset Nat} {fuel : Nat}
  {stdin stdin' : List UInt8}

/-- What `main` has allocated for a line when it calls `interpretInput`. -/
def lineBlocks (strings : Strings) (input : Block UInt8) : Multiset Nat :=
  {strings.id} + {input.id}

theorem freeLine_owns {strings : Strings} {input : Block UInt8}
    (h : start.Owns heap (lineBlocks strings input + blocks)) :
    start.Owns (freeLine strings input heap) blocks := by
  apply Heap.Owns.free
  apply Heap.Owns.free
  apply h.of_eq
  rw [lineBlocks, add_assoc]

/-- A line that is not a command line leaves nothing; a command line leaves
its tree besides what `main` has allocated. -/
theorem nextLine_owns {outcome : LineOutcome} (h : start.Owns heap blocks)
    (hline : nextLine noFailures fuel stdin heap =
      .ok (outcome, stdin', heap')) :
    match outcome with
    | .exit _ => True
    | .invalid => start.Owns heap' blocks ∧ ¬ IsCommandLine stdin
    | .run command =>
      start.Owns heap'
        (lineBlocks command.strings command.input +
          (treeBlocks command.list + blocks)) ∧
      IsCommandLine stdin := by
  unfold nextLine at hline
  obtain ⟨⟨_ | input, rest, heap₁⟩, hread, hline⟩ :=
    except_bind_eq_ok.mp hline
  · cases hline
    trivial
  · obtain ⟨⟨_ | strings, input', heap₂⟩, htokenise, hline⟩ :=
      except_bind_eq_ok.mp hline
    · cases hline
      trivial
    · obtain ⟨sentence, hload, hline⟩ := except_bind_eq_ok.mp hline
      have hiff := sentence_iff hread htokenise hload
      obtain ⟨hstrings, hid⟩ := tokenise_owns (readInput_owns h hread) htokenise
      split at hline
      · cases hline
        trivial
      · obtain ⟨⟨_ | list, heap₃⟩, hlist, hline⟩ := except_bind_eq_ok.mp hline
        · cases hline
          obtain ⟨hrest, hreject⟩ := interpretInputList_owns hstrings hlist
          refine ⟨?_, fun hcommand => hreject (hiff.mpr hcommand)⟩
          apply freeLine_owns
          apply hrest.of_eq
          rw [lineBlocks, hid, add_assoc]
        · cases hline
          obtain ⟨htree, haccept⟩ := interpretInputList_owns hstrings hlist
          refine ⟨?_, hiff.mp haccept⟩
          apply htree.of_eq
          rw [lineBlocks, hid]
          abel

end Body

/-! ## Sessions -/

section Session

variable {start s s' : Session} {inputs : List (List UInt8)}

/-- The shell itself takes the step, at the prompt: handlers and stages leave
its place and its heap alone. -/
def ReadsLine (s s' : Session) : Prop :=
  s.shell = .prompt ∧ (s'.shell ≠ s.shell ∨ s'.heap ≠ s.heap)

/-- The sessions that follow `start`, each with what stood on the standard
input at every prompt at which a line was read. -/
inductive History (start : Session) : List (List UInt8) → Session → Prop
  | start : History start [] start
  | line {inputs : List (List UInt8)} {s s' : Session}
      (h : History start inputs s) (hstep : SessionStep noFailures s s')
      (hreads : ReadsLine s s') : History start (inputs ++ [s.stdin]) s'
  | other {inputs : List (List UInt8)} {s s' : Session}
      (h : History start inputs s) (hstep : SessionStep noFailures s s')
      (hreads : ¬ ReadsLine s s') : History start inputs s'

/-- Every run has a history. -/
theorem exists_history (hruns : Runs (SessionStep noFailures) start s) :
    ∃ inputs, History start inputs s := by
  induction hruns with
  | refl => exact ⟨[], .start⟩
  | @tail s s' hruns hstep ih =>
      obtain ⟨inputs, hhistory⟩ := ih
      by_cases hreads : ReadsLine s s'
      · exact ⟨_, hhistory.line hstep hreads⟩
      · exact ⟨_, hhistory.other hstep hreads⟩

/-- What the shell holds of the line it is busy with, while it has not
gone. -/
def heldBlocks : ShellState → Option (Multiset Nat)
  | .prompt => some 0
  | .forked _ command => some (lineBlocks command.strings command.input)
  | .waiting _ command => some (lineBlocks command.strings command.input)
  | .exited _ => none
  | .crashed _ => none

/-- Besides what it holds for a line the shell has kept nothing exactly if no
input has begun with a command line. -/
def Keeps (heap₀ : Heap) (inputs : List (List UInt8)) (s : Session) : Prop :=
  ∀ held, heldBlocks s.shell = some held → ∃ kept : Multiset Nat,
    (kept = 0 ↔ ∀ input ∈ inputs, ¬ IsCommandLine input) ∧
    heap₀.Owns s.heap (held + kept)

variable {heap₀ : Heap}

/-- A step in which the shell stays where it is, or goes. -/
theorem Keeps.other (h : Keeps heap₀ inputs s) (hheap : s'.heap = s.heap)
    (hheld : ∀ held, heldBlocks s'.shell = some held →
      heldBlocks s.shell = some held) : Keeps heap₀ inputs s' := by
  intro held hheld'
  obtain ⟨kept, hkept, howns⟩ := h held (hheld held hheld')
  refine ⟨kept, hkept, ?_⟩
  rw [hheap]
  exact howns

theorem Keeps.gone (hgone : heldBlocks s'.shell = none) :
    Keeps heap₀ inputs s' := by
  intro held hheld
  rw [hgone] at hheld
  cases hheld

theorem Keeps.prompt (h : Keeps heap₀ inputs s) (hshell : s.shell = .prompt) :
    ∃ kept : Multiset Nat,
      (kept = 0 ↔ ∀ input ∈ inputs, ¬ IsCommandLine input) ∧
      heap₀.Owns s.heap kept := by
  obtain ⟨kept, hkept, howns⟩ := h 0 (by rw [hshell]; rfl)
  exact ⟨kept, hkept, howns.of_eq (zero_add kept)⟩

/-- Back at the prompt the line is gone and the tree is not. -/
theorem Keeps.done (h : Keeps heap₀ inputs s) {command : Command}
    (hshell : heldBlocks s.shell =
      some (lineBlocks command.strings command.input)) :
    Keeps heap₀ inputs (s.done command) := by
  intro held hheld
  cases hheld
  obtain ⟨kept, hkept, howns⟩ := h _ hshell
  exact ⟨kept, hkept, (freeLine_owns howns).of_eq (zero_add kept).symm⟩

/-- A line that the grammar does not accept. -/
theorem Keeps.invalid (h : Keeps heap₀ inputs s) (hshell : s.shell = .prompt)
    {fuel : Nat} {stdin : List UInt8} {heap : Heap}
    (hline : nextLine noFailures fuel s.stdin s.heap =
      .ok (.invalid, stdin, heap)) (jobs : List JobRecord) :
    Keeps heap₀ (inputs ++ [s.stdin]) ⟨.prompt, stdin, heap, jobs⟩ := by
  intro held hheld
  cases hheld
  obtain ⟨kept, hkept, howns⟩ := h.prompt hshell
  obtain ⟨hrest, hreject⟩ := nextLine_owns howns hline
  refine ⟨kept, ?_, hrest.of_eq (zero_add kept).symm⟩
  rw [hkept, List.forall_mem_append, List.forall_mem_singleton]
  exact (and_iff_left hreject).symm

/-- A command line adds its tree to what is kept. -/
theorem Keeps.fork (h : Keeps heap₀ inputs s) (hshell : s.shell = .prompt)
    {fuel pid : Nat} {stdin : List UInt8} {heap : Heap} {command : Command}
    (hline : nextLine noFailures fuel s.stdin s.heap =
      .ok (.run command, stdin, heap)) (jobs : List JobRecord) :
    Keeps heap₀ (inputs ++ [s.stdin])
      ⟨.forked pid command, stdin, heap, jobs⟩ := by
  intro held hheld
  cases hheld
  obtain ⟨kept, -, howns⟩ := h.prompt hshell
  obtain ⟨htree, haccept⟩ := nextLine_owns howns hline
  refine ⟨treeBlocks command.list + kept, ?_, htree⟩
  constructor
  · intro hnone
    rw [treeBlocks, add_assoc, Multiset.singleton_add] at hnone
    exact absurd hnone (Multiset.cons_ne_zero)
  · intro hall
    exact absurd haccept (hall _ (by simp))

/-- A step at the prompt. -/
theorem Keeps.line (h : Keeps heap₀ inputs s)
    (hstep : SessionStep noFailures s s') (hreads : ReadsLine s s') :
    Keeps heap₀ (inputs ++ [s.stdin]) s' := by
  obtain ⟨hprompt, hchange⟩ := hreads
  cases hstep with
  | exit hshell hline => exact .gone rfl
  | crash hshell hline hfault => exact .gone rfl
  | invalid hshell hline => exact h.invalid hshell hline _
  | fork hshell hline => exact h.fork hshell hline _
  | noFork hshell hline => exact .gone rfl
  | background hshell hflag => cases hprompt.symm.trans hshell
  | foreground hshell hflag => cases hprompt.symm.trans hshell
  | waited hshell hrecord hexited => cases hprompt.symm.trans hshell
  | job hrecord hstep => exact absurd hchange (by simp)
  | stageReads hrecord hrunning hstdin => exact absurd hchange (by simp)

/-- Any other step. -/
theorem Keeps.step (h : Keeps heap₀ inputs s)
    (hstep : SessionStep noFailures s s') (hreads : ¬ ReadsLine s s') :
    Keeps heap₀ inputs s' := by
  cases hstep with
  | exit hshell hline => exact .gone rfl
  | crash hshell hline hfault => exact .gone rfl
  | invalid hshell hline =>
      -- a step that reads a line changes the heap
      have hheap : _ = s.heap := not_not.mp fun hne =>
        hreads ⟨hshell, Or.inr hne⟩
      apply h.other hheap
      intro held hheld
      rw [hshell]
      exact hheld
  | fork hshell hline =>
      refine absurd ⟨hshell, Or.inl ?_⟩ hreads
      rw [hshell]
      exact ShellState.noConfusion
  | noFork hshell hline => exact .gone rfl
  | background hshell hflag => exact h.done (by rw [hshell]; rfl)
  | foreground hshell hflag =>
      refine h.other (by rfl) ?_
      intro held hheld
      rw [hshell]
      exact hheld
  | waited hshell hrecord hexited => exact h.done (by rw [hshell]; rfl)
  | job hrecord hstep => exact h.other rfl fun _ hheld => hheld
  | stageReads hrecord hrunning hstdin =>
      exact h.other rfl fun _ hheld => hheld

theorem Keeps.history {stdin : List UInt8}
    (h : History (.initial stdin heap₀) inputs s) : Keeps heap₀ inputs s := by
  induction h with
  | start =>
      intro held hheld
      cases hheld
      refine ⟨0, iff_of_true rfl (by simp), ?_⟩
      exact (Heap.Owns.refl heap₀).of_eq (zero_add 0).symm
  | line h hstep hreads ih => exact ih.line hstep hreads
  | other h hstep hreads ih => exact ih.step hstep hreads

/-- **Exactly when nothing is left.**  In every state of every session in
which the shell is back at the prompt, every block that it has allocated has
been freed exactly once if and only if no line so far was a command line. -/
theorem prompt_freedOnce_iff {stdin : List UInt8}
    (hhistory : History (.initial stdin heap₀) inputs s)
    (hprompt : s.shell = .prompt) :
    heap₀.FreedOnce s.heap ↔ ∀ input ∈ inputs, ¬ IsCommandLine input := by
  obtain ⟨kept, hkept, howns⟩ := (Keeps.history hhistory).prompt hprompt
  rw [howns.freedOnce_iff, hkept]

set_option maxRecDepth 10000 in
/-- The line `a &`. -/
theorem nextLine_daemon : ∃ command heap,
    nextLine noFailures 5 [97, 32, 38, 10] Heap.empty =
      .ok (.run command, [], heap) ∧
    command.list.hasDaemonAmpersand ≠ 0 :=
  ⟨_, _, rfl, by decide⟩

/-- `a &` and a newline, with the shell back at the prompt. -/
theorem prompt_freedOnce_iff_daemon : ∃ inputs s,
    History (.initial [97, 32, 38, 10] Heap.empty) inputs s ∧
    s.shell = .prompt ∧ inputs ≠ [] ∧
    (Heap.empty.FreedOnce s.heap ↔
      ∀ input ∈ inputs, ¬ IsCommandLine input) := by
  obtain ⟨command, heap, hline, hflag⟩ := nextLine_daemon
  have hforked : History (.initial [97, 32, 38, 10] Heap.empty) _
      ⟨.forked 0 command, [], heap, [command.forked]⟩ :=
    .line .start (.fork rfl hline) ⟨rfl, Or.inl ShellState.noConfusion⟩
  have hprompt := hforked.other (.background rfl hflag)
    fun hreads => ShellState.noConfusion hreads.1
  exact ⟨_, _, hprompt, rfl, by simp, prompt_freedOnce_iff hprompt rfl⟩

/-- The tree of `a &` is still there at the next prompt. -/
theorem daemon_keeps_tree : ∃ s,
    Runs (SessionStep noFailures) (.initial [97, 32, 38, 10] Heap.empty) s ∧
    s.shell = .prompt ∧ ¬ Heap.empty.FreedOnce s.heap := by
  obtain ⟨command, heap, hline, hflag⟩ := nextLine_daemon
  have hfork : SessionStep noFailures
      (.initial [97, 32, 38, 10] Heap.empty)
      ⟨.forked 0 command, [], heap, [command.forked]⟩ := .fork rfl hline
  have hruns := (Relation.ReflTransGen.single hfork).tail
    (.background rfl hflag)
  obtain ⟨htree, -⟩ := nextLine_owns (Heap.Owns.refl Heap.empty) hline
  have howns := freeLine_owns htree
  refine ⟨_, hruns, rfl, fun hfreed => ?_⟩
  have hnone := howns.freedOnce_iff.mp hfreed
  rw [treeBlocks, add_assoc, Multiset.singleton_add] at hnone
  exact absurd hnone Multiset.cons_ne_zero

end Session

end OsLabs.Iwish.Sessions
