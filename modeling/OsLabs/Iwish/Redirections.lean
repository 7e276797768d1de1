import OsLabs.Iwish.Arguments
import OsLabs.Iwish.ArgumentArray

/-!
# Redirections

`handleCommandList_redirects`: the redirections of a command are performed
from left to right, up to the first file that cannot be opened, and override
the pipes.  The environment decides about every `open` and `creat`; the other
calls succeed.  When `dup2` may fail as well, `connected_redirected_iff` says
which calls have to be granted.
-/

namespace OsLabs.Iwish.Redirections

open OsLabs.Posix
open OsLabs.Iwish.ParserTokens
open OsLabs.Iwish.DBA
open OsLabs.Iwish.Interpreter
open OsLabs.Iwish.Arguments
open OsLabs.Iwish.ArgumentArray

/-! ## Elements -/

/-- The direction and the file of a redirection that has both. -/
def elementRedirection (element : SimpleCommandElement) :
    Option (Bool × CString) :=
  match element.redirectionPointer with
  | some ⟨_, some isInputRedirection, some word⟩ =>
    some (isInputRedirection != 0, word)
  | _ => none

/-- An element as the parser completes it: a word, or a redirection with its
direction and its file. -/
def ElementComplete (element : SimpleCommandElement) : Prop :=
  (element.isRedirection = 0 ∧ element.word.isSome) ∨
    (element.isRedirection ≠ 0 ∧ (elementRedirection element).isSome)

/-- The redirections of an element list, in order. -/
def listRedirections (list : SimpleCommandElementList) :
    List (Bool × CString) :=
  list.filterMap fun node =>
    if node.element.isRedirection ≠ 0 then elementRedirection node.element
    else none

/-- The descriptor that a redirection changes. -/
def redirectedFd (isInput : Bool) : Nat :=
  if isInput then stdinFd else stdoutFd

/-- The file of the last redirection of a direction. -/
def lastFile (isInput : Bool) (redirections : List (Bool × CString)) :
    Option CString :=
  ((redirections.filter fun r => r.1 == isInput).getLast?).map Prod.snd

/-- What standard input or output is to refer to: the file of the last
redirection, else the pipe, else what it did before. -/
def finalTarget {α : Type} (isInput : Bool) (pipeEnd : Int)
    (redirections : List (Bool × CString)) (table : FdTable (Description α)) :
    Option (Description α) :=
  match lastFile isInput redirections with
  | some word => some (.file isInput word)
  | none =>
    if 0 ≤ pipeEnd then table.entryAt pipeEnd
    else table.entry (redirectedFd isInput)

/-- No pipe, or an open descriptor above the standard ones. -/
def PipeChoice {α : Type} (pipeEnd : Int) (table : FdTable (Description α)) :
    Prop :=
  pipeEnd < 0 ∨ (2 < pipeEnd ∧ (table.entryAt pipeEnd).isSome)

/-! ## Files that cannot be opened -/

/-- The environment in which `openFails` decides about `open` and `creat`, and
every other call succeeds that can. -/
def opening (openFails : Nat → Bool) : Environment :=
  ⟨noFailures, openFails, fun _ => false⟩

/-- The files asked for, up to and including the first that cannot be opened;
`n` calls have been made before. -/
def askedFor (openFails : Nat → Bool) : Nat → List (Bool × CString) →
    List (Bool × CString)
  | _, [] => []
  | n, r :: rest =>
    if openFails n then [r] else r :: askedFor openFails (n + 1) rest

/-- Every one of `count` files can be opened, `n` calls having been made
before. -/
def AllOpen (openFails : Nat → Bool) (n count : Nat) : Prop :=
  ∀ k, k < count → openFails (n + k) = false

section

variable {openFails : Nat → Bool} {n count : Nat}

theorem not_allOpen_of_first (h : openFails n = true) :
    ¬ AllOpen openFails n (count + 1) := by
  intro hall
  have hfirst := hall 0 (Nat.succ_pos count)
  rw [Nat.add_zero, h] at hfirst
  cases hfirst

theorem allOpen_succ (h : openFails n = false) :
    AllOpen openFails n (count + 1) ↔ AllOpen openFails (n + 1) count := by
  constructor
  · intro hall k hk
    rw [Nat.add_right_comm]
    exact hall (k + 1) (Nat.succ_lt_succ hk)
  · intro hall k hk
    cases k with
    | zero => exact h
    | succ k =>
        have hnext := hall k (Nat.lt_of_succ_lt_succ hk)
        rw [Nat.add_right_comm] at hnext
        exact hnext

end

/-! ## The final targets -/

section Table

variable {α : Type} {table : FdTable (Description α)}
  {redirections : List (Bool × CString)} {fd : Nat}

/-- One redirection, seen from a descriptor that was open. -/
theorem performRedirection_entry (h : (table.entry fd).isSome)
    (r : Bool × CString) :
    (performRedirection table r).entry fd =
      if redirectedFd r.1 = fd then some (.file r.1 r.2)
      else table.entry fd := by
  have hfree : fd ≠ table.lowestFree := by
    intro heq
    rw [heq, table.entry_lowestFree] at h
    cases h
  unfold performRedirection FdTable.openFile redirectedFd
  rw [FdTable.entry_set, FdTable.entry_set, if_neg hfree]
  by_cases htarget : (if r.1 then stdinFd else stdoutFd) = fd
  · rw [if_pos htarget, if_pos htarget.symm]
  · rw [if_neg htarget, if_neg (Ne.symm htarget)]

/-- All of them: the last one that concerns a descriptor decides. -/
theorem foldl_performRedirection_entry (redirections : List (Bool × CString))
    (h : (table.entry fd).isSome) :
    (redirections.foldl performRedirection table).entry fd =
      (((redirections.filter fun r => redirectedFd r.1 == fd).getLast?).map
        fun r => Description.file r.1 r.2).or (table.entry fd) := by
  induction redirections generalizing table with
  | nil => rfl
  | cons r rest ih =>
      have hstep := performRedirection_entry h r
      rw [List.foldl_cons]
      by_cases htarget : redirectedFd r.1 = fd
      · rw [if_pos htarget] at hstep
        rw [ih (by rw [hstep]; rfl), hstep,
          List.filter_cons_of_pos (by simp [htarget]), List.getLast?_cons]
        cases (rest.filter fun r => redirectedFd r.1 == fd).getLast? <;> rfl
      · rw [if_neg htarget] at hstep
        rw [ih (by rw [hstep]; exact h), hstep,
          List.filter_cons_of_neg (by simp [htarget])]

theorem filter_redirectedFd (isInput : Bool)
    (redirections : List (Bool × CString)) :
    (redirections.filter fun r => redirectedFd r.1 == redirectedFd isInput) =
      redirections.filter fun r => r.1 == isInput := by
  congr 1
  funext r
  cases r.1 <;> cases isInput <;> rfl

/-- Standard input or output after the redirections. -/
theorem foldl_performRedirection_standard (isInput : Bool)
    (redirections : List (Bool × CString))
    (h : (table.entry (redirectedFd isInput)).isSome) :
    (redirections.foldl performRedirection table).entry
        (redirectedFd isInput) =
      match lastFile isInput redirections with
      | some word => some (.file isInput word)
      | none => table.entry (redirectedFd isInput) := by
  rw [foldl_performRedirection_entry redirections h, filter_redirectedFd]
  unfold lastFile
  cases hlast : (redirections.filter fun r => r.1 == isInput).getLast? with
  | none => rfl
  | some r =>
      have hmem := (List.mem_filter.mp (List.mem_of_getLast? hlast)).2
      have hdirection : r.1 = isInput := by simpa using hmem
      rw [← hdirection]
      rfl

end Table

/-! ## The functions of the interpreter -/

section

variable {α : Type} {openFails : Nat → Bool}

/-- `dup2` of an open descriptor. -/
theorem dup2Call_eq (env : Environment) {p : Process α} {old : Int}
    {d : Description α} (h : p.table.entryAt old = some d) (new : Nat) :
    dup2Call env old new p =
      if env.dup2Fails p.dups then (-1, { p with dups := p.dups + 1 })
      else ((new : Int), { p with
        table := p.table.set new d
        dups := p.dups + 1 }) := by
  unfold dup2Call
  rw [FdTable.dup2_eq h]

/-- A redirection asks for its file, and then for a descriptor. -/
theorem handleRedirection_eq (env : Environment)
    {element : SimpleCommandElement} {r : Bool × CString}
    (h : elementRedirection element = some r) (p : Process α) :
    ∃ refused, handleRedirection env element.redirectionPointer p =
      if env.openFails p.opened.length then
        .ok (-1, { p with opened := p.opened ++ [r] })
      else if env.dup2Fails p.dups then .ok (-1, refused)
      else
        .ok (0, { p with
          table := performRedirection p.table r
          opened := p.opened ++ [r]
          dups := p.dups + 1 }) := by
  unfold elementRedirection at h
  split at h
  · rename_i block flag word hpointer
    cases h
    rw [hpointer]
    unfold handleRedirection openCall
    cases hopen : env.openFails p.opened.length with
    | true => exact ⟨p, rfl⟩
    | false =>
        have hnonneg : ¬ (p.table.lowestFree : Int) < 0 := by omega
        have hentry : (p.table.openFile (.file (flag != 0) word)).2.entryAt
            (p.table.lowestFree : Int) = some (.file (flag != 0) word) := by
          rw [FdTable.entryAt_ofNat]
          exact if_pos rfl
        have hdup2 := dup2Call_eq env (p := { p with
          table := (p.table.openFile (.file (flag != 0) word)).2
          opened := p.opened ++ [(flag != 0, word)] }) hentry
        simp only [Bool.false_eq_true, if_false, FdTable.openFile] at hdup2 ⊢
        simp only [if_neg hnonneg, hdup2]
        cases env.dup2Fails p.dups with
        | true => exact ⟨_, rfl⟩
        | false =>
            refine ⟨p, ?_⟩
            cases flag != 0 <;> rfl
  · cases h

/-- A redirection is performed, or its file is asked for in vain. -/
theorem handleRedirection_opening (openFails : Nat → Bool)
    {element : SimpleCommandElement} {r : Bool × CString}
    (h : elementRedirection element = some r) (p : Process α) :
    handleRedirection (opening openFails) element.redirectionPointer p =
      if openFails p.opened.length then
        .ok (-1, { p with opened := p.opened ++ [r] })
      else
        .ok (0, { p with
          table := performRedirection p.table r
          opened := p.opened ++ [r]
          dups := p.dups + 1 }) := by
  obtain ⟨refused, hcall⟩ := handleRedirection_eq (opening openFails) h p
  exact hcall

variable {list : SimpleCommandElementList} {pointers : List (Option CString)}
  {dynArr : Arguments}

/-- How an element list is left: every file could be opened, the words are
collected and the redirections performed; or one could not. -/
structure Handled (openFails : Nat → Bool) (list : SimpleCommandElementList)
    (pointers : List (Option CString)) (p : Process α) (status : Int)
    (dynArr : Arguments) (p' : Process α) : Prop where
  opened : p'.opened =
    p.opened ++ askedFor openFails p.opened.length (listRedirections list)
  done : AllOpen openFails p.opened.length (listRedirections list).length →
    status = 0 ∧ Collected dynArr (pointers ++ (listWords list).map some) ∧
      p'.table = (listRedirections list).foldl performRedirection p.table
  failed : ¬ AllOpen openFails p.opened.length (listRedirections list).length →
    status = -1

theorem listRedirections_word {node : SimpleCommandElementNode}
    (hflag : node.element.isRedirection = 0)
    (next : SimpleCommandElementList) :
    listRedirections (node :: next) = listRedirections next := by
  unfold listRedirections
  rw [List.filterMap_cons, if_neg (not_not_intro hflag)]

theorem listRedirections_redirection {node : SimpleCommandElementNode}
    {r : Bool × CString} (hflag : node.element.isRedirection ≠ 0)
    (hr : elementRedirection node.element = some r)
    (next : SimpleCommandElementList) :
    listRedirections (node :: next) = r :: listRedirections next := by
  unfold listRedirections
  rw [List.filterMap_cons, if_pos hflag, hr]

section Steps

variable {node : SimpleCommandElementNode} {next : SimpleCommandElementList}
  {p p' : Process α} {status : Int}

/-- A word in front of a list. -/
theorem Handled.word {word : CString} {heap : Heap}
    (hflag : node.element.isRedirection = 0)
    (hword : node.element.word = some word)
    (h : Handled openFails next (pointers ++ [some word])
      { p with heap := heap } status dynArr p') :
    Handled openFails (node :: next) pointers p status dynArr p' := by
  have hsame := listRedirections_word hflag next
  refine ⟨?_, ?_, ?_⟩
  · rw [hsame]
    exact h.opened
  · rw [hsame, listWords_word hflag hword, List.map_cons, List.append_cons]
    exact h.done
  · rw [hsame]
    exact h.failed

/-- A redirection in front of a list, performed. -/
theorem Handled.redirection {r : Bool × CString} {dups : Nat}
    (hflag : node.element.isRedirection ≠ 0)
    (hr : elementRedirection node.element = some r)
    (hfails : openFails p.opened.length = false)
    (h : Handled openFails next pointers { p with
      table := performRedirection p.table r
      opened := p.opened ++ [r]
      dups := dups } status dynArr p') :
    Handled openFails (node :: next) pointers p status dynArr p' := by
  have hlength : (p.opened ++ [r]).length = p.opened.length + 1 := by simp
  have hopened := h.opened
  have hdone := h.done
  have hfailed := h.failed
  simp only [hlength] at hopened hdone hfailed
  have hlist := listRedirections_redirection hflag hr next
  have hall : AllOpen openFails p.opened.length
      ((listRedirections next).length + 1) ↔ _ := allOpen_succ hfails
  refine ⟨?_, ?_, ?_⟩
  · rw [hlist, hopened, askedFor, hfails, List.append_assoc]
    rfl
  · rw [hlist, List.length_cons, hall, listWords_redirection hflag]
    exact hdone
  · rw [hlist, List.length_cons, hall]
    exact hfailed

/-- A redirection in front of a list, whose file cannot be opened. -/
theorem Handled.refused {r : Bool × CString}
    (hflag : node.element.isRedirection ≠ 0)
    (hr : elementRedirection node.element = some r)
    (hfails : openFails p.opened.length = true) :
    Handled openFails (node :: next) pointers p (-1) dynArr
      { p with opened := p.opened ++ [r] } := by
  have hlist := listRedirections_redirection hflag hr next
  refine ⟨?_, ?_, fun _ => rfl⟩
  · rw [hlist, askedFor, if_pos hfails]
  · intro hall
    rw [hlist, List.length_cons] at hall
    exact absurd hall (not_allOpen_of_first hfails)

end Steps

/-- **The recursion over the elements**, by the kind of the first one. -/
theorem handleCommandElementList_opening (openFails : Nat → Bool)
    (hcomplete : ∀ node ∈ list, ElementComplete node.element)
    (hcollected : Collected dynArr pointers) (p : Process α) :
    ∃ status dynArr' p',
      handleCommandElementList (opening openFails) list dynArr p =
        .ok (status, dynArr', p') ∧
      Handled openFails list pointers p status dynArr' p' := by
  induction list generalizing dynArr pointers p with
  | nil =>
      refine ⟨0, dynArr, p, rfl, ?_, fun _ => ⟨rfl, ?_, rfl⟩, ?_⟩
      · exact (List.append_nil _).symm
      · show Collected dynArr (pointers ++ [])
        rw [List.append_nil]
        exact hcollected
      · intro hnot
        exact absurd (fun k hk => absurd hk (Nat.not_lt_zero k)) hnot
  | cons node next ih =>
      have hnext := fun n hn => hcomplete n (List.mem_cons_of_mem node hn)
      rcases hcomplete node List.mem_cons_self with ⟨hflag, hword⟩ | ⟨hflag, hr⟩
      · obtain ⟨word, hword⟩ := Option.isSome_iff_exists.mp hword
        obtain ⟨dynArr₁, heap, hadd, hcollected₁⟩ :=
          handleCommandlineArgument_quiet hcollected (some word) p
        obtain ⟨status, dynArr', p', hrest, hhandled⟩ :=
          ih hnext hcollected₁ { p with heap := heap }
        refine ⟨status, dynArr', p', ?_, hhandled.word hflag hword⟩
        have hcall : handleCommandlineArgument (opening openFails)
            node.element.word dynArr p =
            .ok (0, dynArr₁, { p with heap := heap }) := by
          rw [hword]
          exact hadd
        rw [handleCommandElementList, if_neg (not_not_intro hflag), hcall]
        exact hrest
      · obtain ⟨r, hr⟩ := Option.isSome_iff_exists.mp hr
        have hcall := handleRedirection_opening openFails hr p
        cases hfails : openFails p.opened.length with
        | true =>
            rw [if_pos hfails] at hcall
            refine ⟨-1, dynArr, _, ?_, Handled.refused hflag hr hfails⟩
            rw [handleCommandElementList, if_pos hflag, hcall]
            rfl
        | false =>
            rw [hfails] at hcall
            obtain ⟨status, dynArr', p', hrest, hhandled⟩ :=
              ih hnext hcollected { p with
                table := performRedirection p.table r
                opened := p.opened ++ [r]
                dups := p.dups + 1 }
            refine ⟨status, dynArr', p', ?_,
              hhandled.redirection hflag hr hfails⟩
            rw [handleCommandElementList, if_pos hflag, hcall]
            exact hrest

theorem freeArguments_opened (dynArr : Arguments) (p : Process α) :
    (freeArguments dynArr p).opened = p.opened := by
  cases dynArr <;> rfl

/-- With every word collected, `execvp` is reached. -/
theorem executeArguments_opening (openFails : Nat → Bool)
    {words : List CString} (h : Collected dynArr (words.map some))
    (p : Process α) :
    ∃ p', executeArguments (opening openFails) dynArr p =
        .ok (some words, p') ∧
      p'.opened = p.opened ∧ p'.table = p.table := by
  obtain ⟨dynArr', heap', hnull, arr', rfl, hholds⟩ :=
    handleCommandlineArgument_quiet h none p
  have hcall : handleCommandlineArgument (opening openFails) none dynArr p =
      .ok (0, some arr', { p with heap := heap' }) := hnull
  have hload : loadPointerArray (getInternalArray arr') = .ok words :=
    hholds.load
  refine ⟨freeArguments (some arr') { p with heap := heap' }, ?_, rfl, rfl⟩
  unfold executeArguments
  rw [hcall]
  simp only [except_ok_bind, hload]
  rfl

theorem executeCommand_opening (openFails : Nat → Bool)
    (hcomplete : ∀ node ∈ list, ElementComplete node.element)
    (p : Process α) :
    ∃ reached p', executeCommand (opening openFails) list p =
        .ok (reached, p') ∧
      p'.opened = p.opened ++
        askedFor openFails p.opened.length (listRedirections list) ∧
      (reached.isSome ↔
        AllOpen openFails p.opened.length (listRedirections list).length) ∧
      (reached.isSome → p'.table =
        (listRedirections list).foldl performRedirection p.table) := by
  obtain ⟨arr, heap, hnew⟩ : ∃ arr heap,
      makeNewDynamicByteArray (β := PointerByte CString) noFailures pointerSize
        p.heap = (some arr, heap) := ⟨_, _, rfl⟩
  have hstart : Collected (some arr) [] :=
    ⟨arr, rfl, makeNewDynamicByteArray_holdsPointers hnew⟩
  obtain ⟨status, dynArr, p₁, hrun, hhandled⟩ :=
    handleCommandElementList_opening openFails hcomplete hstart
      (withHeap p heap)
  have hopened := hhandled.opened
  by_cases hall : AllOpen openFails p.opened.length
    (listRedirections list).length
  · obtain ⟨hstatus, hcollected, htable⟩ := hhandled.done hall
    subst hstatus
    rw [List.nil_append] at hcollected
    obtain ⟨p', hexecute, hopened', htable'⟩ :=
      executeArguments_opening openFails hcollected p₁
    refine ⟨some (listWords list), p', ?_, hopened'.trans hopened,
      iff_of_true rfl hall, fun _ => htable'.trans htable⟩
    rw [executeCommand_stored hnew hrun]
    exact hexecute
  · have hstatus : status < 0 := by
      rw [hhandled.failed hall]
      decide
    refine ⟨none, freeArguments dynArr p₁,
      executeCommand_failed hnew hrun hstatus,
      (freeArguments_opened dynArr p₁).trans hopened, ?_, ?_⟩
    · exact iff_of_false (by simp) hall
    · intro hreached
      cases hreached

/-! ## The pipes -/

theorem PipeChoice.connectable {pipeEnd : Int}
    {table : FdTable (Description α)} (h : PipeChoice pipeEnd table) :
    Connectable pipeEnd table := by
  intro hpipe
  rcases h with hnone | ⟨-, hopen⟩
  · omega
  · exact Option.isSome_iff_exists.mp hopen

/-- What connecting a pipe does to each descriptor. -/
theorem PipeChoice.connectedTable_entry {pipeEnd : Int}
    {table : FdTable (Description α)} (h : PipeChoice pipeEnd table)
    (fd n : Nat) :
    (connectedTable pipeEnd fd table).entry n =
      if n = fd ∧ 0 ≤ pipeEnd then table.entryAt pipeEnd
      else table.entry n := by
  unfold connectedTable
  rcases h with hnone | ⟨habove, hopen⟩
  · have hentry : table.entryAt pipeEnd = none := by
      cases pipeEnd with
      | ofNat m => exact absurd hnone (Int.not_lt.mpr (Int.natCast_nonneg m))
      | negSucc m => rfl
    rw [hentry, if_neg (by omega)]
  · obtain ⟨d, hd⟩ := Option.isSome_iff_exists.mp hopen
    have hpipe : 0 ≤ pipeEnd := by omega
    rw [hd]
    simp only [FdTable.entry_set, hpipe, and_true]

/-- Both pipes connected: each standard descriptor refers to its pipe, if it
has one, and the others to what they did. -/
theorem connectedTable_both {table : FdTable (Description α)}
    {input output : Int} (hin : PipeChoice input table)
    (hout : PipeChoice output table) :
    PipeChoice output (connectedTable input stdinFd table) ∧
    ∀ n, (connectedTable output stdoutFd
        (connectedTable input stdinFd table)).entry n =
      if n = stdoutFd ∧ 0 ≤ output then table.entryAt output
      else if n = stdinFd ∧ 0 ≤ input then table.entryAt input
      else table.entry n := by
  have hsame : 0 ≤ output →
      (connectedTable input stdinFd table).entryAt output =
        table.entryAt output := by
    intro hpipe
    cases output with
    | negSucc m => omega
    | ofNat m =>
        have hne : ¬ (m = stdinFd ∧ 0 ≤ input) := by
          rcases hout with hnone | ⟨habove, -⟩
          · omega
          · intro hzero
            rw [hzero.1] at habove
            exact absurd habove (by decide)
        exact (hin.connectedTable_entry stdinFd m).trans (if_neg hne)
  have hchoice : PipeChoice output (connectedTable input stdinFd table) := by
    rcases hout with hnone | ⟨habove, hopen⟩
    · exact Or.inl hnone
    · exact Or.inr ⟨habove, by rw [hsame (by omega)]; exact hopen⟩
  refine ⟨hchoice, fun n => ?_⟩
  rw [hchoice.connectedTable_entry, hin.connectedTable_entry]
  by_cases hpipe : n = stdoutFd ∧ 0 ≤ output
  · rw [if_pos hpipe, if_pos hpipe, hsame hpipe.2]
  · rw [if_neg hpipe, if_neg hpipe]

/-- What the command's standard input or output refers to in the end. -/
theorem finalTarget_eq (isInput : Bool)
    {table connected : FdTable (Description α)} {pipeEnd : Int}
    (redirections : List (Bool × CString))
    (hopen : (table.entry (redirectedFd isInput)).isSome)
    (hpipe : PipeChoice pipeEnd table)
    (hconnected : connected.entry (redirectedFd isInput) =
      if 0 ≤ pipeEnd then table.entryAt pipeEnd
      else table.entry (redirectedFd isInput)) :
    (redirections.foldl performRedirection connected).entry
        (redirectedFd isInput) =
      finalTarget isInput pipeEnd redirections table := by
  have hsome : (connected.entry (redirectedFd isInput)).isSome := by
    rw [hconnected]
    split
    · rcases hpipe with hnone | ⟨-, hsome⟩
      · omega
      · exact hsome
    · exact hopen
  rw [foldl_performRedirection_standard isInput redirections hsome]
  unfold finalTarget
  cases lastFile isInput redirections with
  | some word => rfl
  | none => exact hconnected

/-- A descriptor other than standard input and output is left alone. -/
theorem foldl_performRedirection_other {table : FdTable (Description α)}
    (redirections : List (Bool × CString)) {fd : Nat} (hzero : fd ≠ stdinFd)
    (hone : fd ≠ stdoutFd) (hopen : (table.entry fd).isSome) :
    (redirections.foldl performRedirection table).entry fd =
      table.entry fd := by
  have hnone : ∀ r ∈ redirections, ¬ redirectedFd r.1 = fd := by
    intro r _ htarget
    unfold redirectedFd at htarget
    split at htarget
    · exact hzero htarget.symm
    · exact hone htarget.symm
  rw [foldl_performRedirection_entry _ hopen, List.filter_eq_nil_iff.mpr]
  · rfl
  · intro r hr htarget
    exact hnone r hr (by simpa using htarget)

/-- Both pipes are connected before the command is executed. -/
theorem handleCommandList_connected (openFails : Nat → Bool)
    (node : SimpleCommandNode) (next : SimpleCommandList)
    {table : FdTable (Description α)} {input output : Int}
    (hin : PipeChoice input table) (hout : PipeChoice output table)
    (heap : Heap) :
    ∃ dups, handleCommandList (opening openFails) (node :: next) input output
        (.forked table heap) =
      executeCommand (opening openFails) node.simpleCommand.elementList
        ⟨connectedTable output stdoutFd (connectedTable input stdinFd table),
          [], dups, heap⟩ := by
  obtain ⟨hchoice, -⟩ := connectedTable_both hin hout
  obtain ⟨dups, status, hfirst, hstatus⟩ :=
    connectPipe_quiet (p := .forked table heap) hin.connectable stdinFd
  obtain ⟨dups', status', hsecond, hstatus'⟩ :=
    connectPipe_quiet (p := ⟨connectedTable input stdinFd table, [], dups,
      heap⟩) hchoice.connectable stdoutFd
  have hinput : connectPipe (opening openFails) input stdinFd
      (.forked table heap) =
        (status, ⟨connectedTable input stdinFd table, [], dups, heap⟩) :=
    hfirst
  have houtput : connectPipe (opening openFails) output stdoutFd
      ⟨connectedTable input stdinFd table, [], dups, heap⟩ =
        (status', ⟨connectedTable output stdoutFd
          (connectedTable input stdinFd table), [], dups', heap⟩) := hsecond
  refine ⟨dups', ?_⟩
  unfold handleCommandList
  simp only [hinput, houtput, if_neg (Int.not_lt.mpr hstatus),
    if_neg (Int.not_lt.mpr hstatus')]

/-- **Redirections are performed from left to right and override the pipes.**
`execvp` is reached exactly when every file can be opened; the files asked for
are those up to the first that cannot; and when `execvp` is reached, standard
input and output are the last file redirected to them, else the pipe, else
what they were, and every other descriptor is unchanged. -/
theorem handleCommandList_redirects (openFails : Nat → Bool)
    (node : SimpleCommandNode) (next : SimpleCommandList)
    (hcomplete : ∀ n ∈ node.simpleCommand.elementList,
      ElementComplete n.element)
    (table : FdTable (Description α))
    (hopen : ∀ fd, fd ≤ 2 → (table.entry fd).isSome)
    {incomingInputPipe incomingOutputPipe : Int}
    (hin : PipeChoice incomingInputPipe table)
    (hout : PipeChoice incomingOutputPipe table) (heap : Heap) :
    ∃ reached p', handleCommandList (opening openFails) (node :: next)
        incomingInputPipe incomingOutputPipe (.forked table heap) =
        .ok (reached, p') ∧
      (reached.isSome ↔ AllOpen openFails 0
        (listRedirections node.simpleCommand.elementList).length) ∧
      p'.opened = askedFor openFails 0
        (listRedirections node.simpleCommand.elementList) ∧
      (reached.isSome →
        p'.table.entry stdinFd = finalTarget true incomingInputPipe
          (listRedirections node.simpleCommand.elementList) table ∧
        p'.table.entry stdoutFd = finalTarget false incomingOutputPipe
          (listRedirections node.simpleCommand.elementList) table ∧
        ∀ fd, fd ≠ stdinFd → fd ≠ stdoutFd → (table.entry fd).isSome →
          p'.table.entry fd = table.entry fd) := by
  obtain ⟨-, hentry⟩ := connectedTable_both hin hout
  obtain ⟨dups, hrun⟩ :=
    handleCommandList_connected openFails node next hin hout heap
  obtain ⟨reached, p', hexecute, hopened, hiff, htable⟩ :=
    executeCommand_opening openFails hcomplete
      ⟨connectedTable incomingOutputPipe stdoutFd
        (connectedTable incomingInputPipe stdinFd table), [], dups, heap⟩
  refine ⟨reached, p', hrun.trans hexecute, hiff, hopened, fun hreached => ?_⟩
  have hne : stdinFd ≠ stdoutFd := by decide
  have hstdin := hentry stdinFd
  have hstdout := hentry stdoutFd
  simp only [hne, hne.symm, false_and, true_and, if_false] at hstdin hstdout
  rw [htable hreached]
  refine ⟨?_, ?_, ?_⟩
  · exact finalTarget_eq true _ (hopen 0 (by decide)) hin hstdin
  · exact finalTarget_eq false _ (hopen 1 (by decide)) hout hstdout
  · intro fd hzero hone hfd
    have hsame := hentry fd
    rw [if_neg (fun h => hone h.1), if_neg (fun h => hzero h.1)] at hsame
    rw [foldl_performRedirection_other _ hzero hone (hsame ▸ hfd), hsame]

/-! ## Exactly when pipes and redirections succeed -/

section Succeed

variable {env : Environment} {opens dups count : Nat} {p : Process α}

/-- Neither the `open` nor the `dup2` of any of `count` redirections fails;
`opens` and `dups` such calls have been made before. -/
def RedirectionsGranted (env : Environment) (opens dups count : Nat) : Prop :=
  ∀ k < count,
    env.openFails (opens + k) = false ∧ env.dup2Fails (dups + k) = false

/-- The `dup2` calls that a pipe needs. -/
def pipeCalls (pipeEnd : Int) : Nat := if 0 ≤ pipeEnd then 1 else 0

/-- The `dup2` calls for the two pipes do not fail; `dups` have been made
before. -/
def PipesGranted (env : Environment) (dups : Nat) (input output : Int) : Prop :=
  (0 ≤ input → env.dup2Fails dups = false) ∧
    (0 ≤ output → env.dup2Fails (dups + pipeCalls input) = false)

theorem redirectionsGranted_succ :
    RedirectionsGranted env opens dups (count + 1) ↔
      (env.openFails opens = false ∧ env.dup2Fails dups = false) ∧
        RedirectionsGranted env (opens + 1) (dups + 1) count := by
  unfold RedirectionsGranted
  rw [Nat.forall_lt_succ_left]
  simp only [Nat.add_zero, Nat.add_right_comm _ 1, Nat.add_assoc]

/-- **The redirections of a list succeed** if and only if none of their calls
fails. -/
theorem redirectionsSucceed_iff (env : Environment)
    {list : SimpleCommandElementList}
    (hcomplete : ∀ node ∈ list, ElementComplete node.element)
    (p : Process α) :
    redirectionsSucceed env list p = true ↔
      RedirectionsGranted env p.opened.length p.dups
        (listRedirections list).length := by
  induction list generalizing p with
  | nil => exact iff_of_true rfl fun k hk => absurd hk (Nat.not_lt_zero k)
  | cons node next ih =>
      have hnext := ih fun n hn => hcomplete n (List.mem_cons_of_mem node hn)
      rcases hcomplete node List.mem_cons_self with ⟨hflag, -⟩ | ⟨hflag, hr⟩
      · rw [redirectionsSucceed, if_neg (not_not_intro hflag),
          listRedirections_word hflag, hnext]
      · obtain ⟨r, hr⟩ := Option.isSome_iff_exists.mp hr
        obtain ⟨refused, hcall⟩ := handleRedirection_eq env hr p
        rw [redirectionsSucceed, if_pos hflag,
          listRedirections_redirection hflag hr, List.length_cons,
          redirectionsGranted_succ, hcall]
        cases env.openFails p.opened.length with
        | true => exact iff_of_false Bool.false_ne_true (by simp)
        | false =>
            cases env.dup2Fails p.dups with
            | true => exact iff_of_false Bool.false_ne_true (by simp)
            | false =>
                have hrest := hnext { p with
                  table := performRedirection p.table r
                  opened := p.opened ++ [r]
                  dups := p.dups + 1 }
                rw [List.length_append] at hrest
                rw [and_iff_right ⟨rfl, rfl⟩]
                exact hrest

/-- Connecting a pipe is one call, or none. -/
theorem connectPipe_eq (env : Environment) {pipeEnd : Int}
    (h : Connectable pipeEnd p.table) (fd : Nat) :
    ∃ status refused, 0 ≤ status ∧ connectPipe env pipeEnd fd p =
      if 0 ≤ pipeEnd ∧ env.dup2Fails p.dups = true then (-1, refused)
      else (status, { p with
        table := connectedTable pipeEnd fd p.table
        dups := p.dups + pipeCalls pipeEnd }) := by
  unfold connectPipe connectedTable pipeCalls
  by_cases hpipe : 0 ≤ pipeEnd
  · obtain ⟨d, hd⟩ := h hpipe
    refine ⟨fd, { p with dups := p.dups + 1 }, Int.natCast_nonneg fd, ?_⟩
    rw [if_pos hpipe, if_pos hpipe, dup2Call_eq env hd, hd]
    simp only [hpipe, true_and]
  · have hnone : p.table.entryAt pipeEnd = none := by
      cases pipeEnd with
      | ofNat n => exact absurd (Int.natCast_nonneg n) hpipe
      | negSucc n => rfl
    refine ⟨0, p, Int.le_refl 0, ?_⟩
    rw [if_neg hpipe, if_neg hpipe, hnone, if_neg fun hand => hpipe hand.1]
    rfl

/-- **The pipes are connected** if and only if no `dup2` for them fails. -/
theorem connectPipes_eq_some_iff (env : Environment) {input output : Int}
    (hin : PipeChoice input p.table) (hout : PipeChoice output p.table)
    (p₁ : Process α) :
    connectPipes env input output p = some p₁ ↔
      PipesGranted env p.dups input output ∧
        p₁ = { p with
          table := connectedTable output stdoutFd
            (connectedTable input stdinFd p.table)
          dups := p.dups + pipeCalls input + pipeCalls output } := by
  obtain ⟨hchoice, -⟩ := connectedTable_both hin hout
  obtain ⟨status, refused, hstatus, hfirst⟩ :=
    connectPipe_eq env hin.connectable stdinFd
  obtain ⟨status', refused', hstatus', hsecond⟩ :=
    connectPipe_eq (p := { p with
      table := connectedTable input stdinFd p.table
      dups := p.dups + pipeCalls input }) env hchoice.connectable stdoutFd
  have hminus : (-1 : Int) < 0 := by decide
  unfold connectPipes PipesGranted
  rw [hfirst]
  by_cases hinput : 0 ≤ input ∧ env.dup2Fails p.dups = true
  · rw [if_pos hinput]
    simp only [if_pos hminus]
    refine iff_of_false nofun fun h => ?_
    rw [h.1.1 hinput.1] at hinput
    cases hinput.2
  · rw [if_neg hinput]
    simp only [if_neg (Int.not_lt.mpr hstatus), hsecond]
    have hgranted : 0 ≤ input → env.dup2Fails p.dups = false :=
      fun hpipe => eq_false_of_ne_true fun hfails => hinput ⟨hpipe, hfails⟩
    by_cases houtput :
        0 ≤ output ∧ env.dup2Fails (p.dups + pipeCalls input) = true
    · rw [if_pos houtput]
      simp only [if_pos hminus]
      refine iff_of_false nofun fun h => ?_
      rw [h.1.2 houtput.1] at houtput
      cases houtput.2
    · rw [if_neg houtput]
      simp only [if_neg (Int.not_lt.mpr hstatus'), Option.some.injEq]
      have hgranted' : 0 ≤ output →
          env.dup2Fails (p.dups + pipeCalls input) = false :=
        fun hpipe => eq_false_of_ne_true fun hfails => houtput ⟨hpipe, hfails⟩
      rw [and_iff_right ⟨hgranted, hgranted'⟩]
      exact eq_comm

/-- **What a command asks of the system before its arguments are complete**:
the calls for its pipes, and behind them those for its redirections. -/
theorem connected_redirected_iff (env : Environment)
    {list : SimpleCommandElementList}
    (hcomplete : ∀ node ∈ list, ElementComplete node.element)
    {input output : Int} (hin : PipeChoice input p.table)
    (hout : PipeChoice output p.table) :
    (∃ p₁, connectPipes env input output p = some p₁ ∧
      redirectionsSucceed env list p₁ = true) ↔
      PipesGranted env p.dups input output ∧
        RedirectionsGranted env p.opened.length
          (p.dups + pipeCalls input + pipeCalls output)
          (listRedirections list).length := by
  constructor
  · rintro ⟨p₁, hconnected, hsucceed⟩
    obtain ⟨hpipes, rfl⟩ :=
      (connectPipes_eq_some_iff env hin hout p₁).mp hconnected
    exact ⟨hpipes, (redirectionsSucceed_iff env hcomplete _).mp hsucceed⟩
  · rintro ⟨hpipes, hredirections⟩
    exact ⟨_, (connectPipes_eq_some_iff env hin hout _).mpr ⟨hpipes, rfl⟩,
      (redirectionsSucceed_iff env hcomplete _).mpr hredirections⟩

end Succeed

end

/-- A redirection from or to the file `a`. -/
def redirectionNode (flag : Int) : SimpleCommandElementNode :=
  ⟨0, ⟨1, some ⟨0, some flag, some ⟨[97], wordNode_nulFree⟩⟩, none⟩⟩

/-- `a < a > a`. -/
def redirectedCommand : SimpleCommandNode :=
  ⟨0, ⟨[wordNode, redirectionNode 1, redirectionNode 0]⟩⟩

theorem redirectedCommand_complete :
    ∀ n ∈ redirectedCommand.simpleCommand.elementList,
      ElementComplete n.element := by
  intro n hn
  rcases List.mem_cons.mp hn with rfl | hn
  · exact Or.inl ⟨rfl, rfl⟩
  · rcases List.mem_cons.mp hn with rfl | hn
    · exact Or.inr ⟨by decide, rfl⟩
    · rw [List.mem_singleton.mp hn]
      exact Or.inr ⟨by decide, rfl⟩

theorem standard_open (fd : Nat) (h : fd ≤ 2) :
    ((FdTable.standard.map Description.inherited).entry fd).isSome := by
  have hlt : fd < 3 := Nat.lt_succ_of_le h
  show ((if fd < 3 then some fd else none).map Description.inherited).isSome
  rw [if_pos hlt]
  rfl

/-- The second file cannot be opened: both are asked for, and `execvp` is not
reached. -/
theorem handleCommandList_redirects_refused :
    ∃ reached p', handleCommandList (opening fun call => call == 1)
        [redirectedCommand] (-1) (-1)
        (.forked (FdTable.standard.map .inherited) Heap.empty) =
        .ok (reached, p') ∧
      (reached.isSome ↔ AllOpen (fun call => call == 1) 0 2) ∧
      p'.opened = askedFor (fun call => call == 1) 0
        (listRedirections redirectedCommand.simpleCommand.elementList) := by
  have hpipe : PipeChoice (-1) (FdTable.standard.map Description.inherited) :=
    Or.inl (by decide)
  obtain ⟨reached, p', hrun, hiff, hopened, -⟩ := handleCommandList_redirects
    (fun call => call == 1) redirectedCommand [] redirectedCommand_complete
    (FdTable.standard.map .inherited) standard_open hpipe hpipe Heap.empty
  exact ⟨reached, p', hrun, hiff, hopened⟩

end OsLabs.Iwish.Redirections
