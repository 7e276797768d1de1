import OsLabs.Iwish.ArrayGrowth
import OsLabs.Iwish.Interpreter

/-!
# The argument array under refusals

`handleCommandList` looks at the result of every append to the argument array
but the last, and does not look whether the array was made at all.
`handleCommandList_iff` says when this shows: the array is refused and the
first use of it is reached, or the growth that is refused is the one for the
null pointer.  Of the pipes and the redirections it takes how they end
(`connectPipes`, `redirectionsSucceed`); the calls that this rests on are
those of `connected_redirected_iff` in `OsLabs.Iwish.Redirections`.
-/

namespace OsLabs.Iwish.ArgumentArray

open OsLabs.Posix
open OsLabs.Iwish.ParserTokens
open OsLabs.Iwish.DBA
open OsLabs.Iwish.Interpreter

/-! ## Elements -/

/-- An element as the parser leaves it: a word, or a redirection whose
direction has been set. -/
def ElementFilled (element : SimpleCommandElement) : Prop :=
  (element.isRedirection = 0 ∧ element.word.isSome) ∨
    (element.isRedirection ≠ 0 ∧ ∀ redirection,
      element.redirectionPointer = some redirection →
        redirection.isInputRedirection.isSome)

/-- The words of an element list, in order. -/
def listWords (list : SimpleCommandElementList) : List CString :=
  list.filterMap fun node =>
    if node.element.isRedirection ≠ 0 then none else node.element.word

/-- The redirections in front of the first word. -/
def leadingRedirections (list : SimpleCommandElementList) :
    SimpleCommandElementList :=
  list.takeWhile fun node => node.element.isRedirection != 0

section

variable {α : Type} (env : Environment)

/-- Whether every redirection of a list is performed, in a process that starts
with the descriptors of `p`. -/
def redirectionsSucceed : SimpleCommandElementList → Process α → Bool
  | [], _ => true
  | node :: next, p =>
    if node.element.isRedirection ≠ 0 then
      match handleRedirection env node.element.redirectionPointer p with
      | .ok (status, p) => decide (0 ≤ status) && redirectionsSucceed next p
      | .error _ => false
    else redirectionsSucceed next p

/-- A process with its pipes connected, or `none` when that fails. -/
def connectPipes (incomingInputPipe incomingOutputPipe : Int)
    (p : Process α) : Option (Process α) :=
  let (status, p) := connectPipe env incomingInputPipe stdinFd p
  if status < 0 then none
  else
    let (status, p) := connectPipe env incomingOutputPipe stdoutFd p
    if status < 0 then none else some p

end

/-! ## The heap and the descriptors do not depend on each other -/

section Frame

variable {α : Type} (env : Environment) (p : Process α) (heap : Heap)

/-- `p` with another heap. -/
def withHeap (p : Process α) (heap : Heap) : Process α :=
  { p with heap := heap }

theorem openCall_withHeap (isInput : Bool) (word : Option CString) :
    openCall env isInput word (withHeap p heap) =
      ((openCall env isInput word p).1,
        withHeap (openCall env isInput word p).2 heap) := by
  cases word with
  | none => rfl
  | some word =>
      unfold openCall withHeap
      cases env.openFails p.opened.length <;> rfl

theorem dup2Call_withHeap (old : Int) (new : Nat) :
    dup2Call env old new (withHeap p heap) =
      ((dup2Call env old new p).1,
        withHeap (dup2Call env old new p).2 heap) := by
  unfold dup2Call withHeap
  cases p.table.dup2 old new with
  | none => rfl
  | some table => cases env.dup2Fails p.dups <;> rfl

theorem openCall_heap (isInput : Bool) (word : Option CString) :
    (openCall env isInput word p).2.heap = p.heap := by
  have hframe := openCall_withHeap env p p.heap isInput word
  exact congrArg (fun call => call.2.heap) hframe

theorem dup2Call_heap (old : Int) (new : Nat) :
    (dup2Call env old new p).2.heap = p.heap := by
  have hframe := dup2Call_withHeap env p p.heap old new
  exact congrArg (fun call => call.2.heap) hframe

/-- A redirection whose direction is set is performed or fails, whatever the
heap is, and leaves it alone. -/
theorem handleRedirection_withHeap {redirection : Option Redirection}
    (h : ∀ r, redirection = some r → r.isInputRedirection.isSome) :
    ∃ status p', handleRedirection env redirection p = .ok (status, p') ∧
      p'.heap = p.heap ∧ ∀ heap,
        handleRedirection env redirection (withHeap p heap) =
          .ok (status, withHeap p' heap) := by
  cases redirection with
  | none => exact ⟨-1, p, rfl, rfl, fun _ => rfl⟩
  | some redirection =>
      obtain ⟨flag, hflag⟩ := Option.isSome_iff_exists.mp (h _ rfl)
      unfold handleRedirection
      simp only [hflag, openCall_withHeap]
      generalize (if flag != 0 then stdinFd else stdoutFd) = fd
      have hopened := openCall_heap env p (flag != 0) redirection.word
      generalize openCall env (flag != 0) redirection.word p = call at hopened
      by_cases hfile : call.1 < 0
      · simp only [if_pos hfile]
        exact ⟨-1, _, rfl, hopened, fun _ => rfl⟩
      · simp only [if_neg hfile, dup2Call_withHeap]
        have hduped := dup2Call_heap env call.2 call.1 fd
        generalize dup2Call env call.1 fd call.2 = copied at hduped
        by_cases hcopied : copied.1 < 0
        · simp only [if_pos hcopied]
          exact ⟨-1, _, rfl, hduped.trans hopened, fun _ => rfl⟩
        · simp only [if_neg hcopied]
          exact ⟨0, _, rfl, hduped.trans hopened, fun _ => rfl⟩

theorem redirectionsSucceed_withHeap {list : SimpleCommandElementList}
    (h : ∀ node ∈ list, ElementFilled node.element) :
    redirectionsSucceed env list (withHeap p heap) =
      redirectionsSucceed env list p := by
  induction list generalizing p with
  | nil => rfl
  | cons node next ih =>
      have hrest := fun n hn => h n (List.mem_cons_of_mem node hn)
      unfold redirectionsSucceed
      by_cases hflag : node.element.isRedirection ≠ 0
      · have hset : ∀ r, node.element.redirectionPointer = some r →
            r.isInputRedirection.isSome := by
          rcases h node List.mem_cons_self with ⟨hzero, -⟩ | ⟨-, hset⟩
          · exact absurd hzero hflag
          · exact hset
        obtain ⟨status, p', hdone, -, hframe⟩ :=
          handleRedirection_withHeap env p hset
        simp only [if_pos hflag, hdone, hframe heap, ih p' hrest]
      · simp only [if_neg hflag, ih p hrest]

theorem connectPipe_heap (pipeEnd : Int) (fd : Nat) :
    (connectPipe env pipeEnd fd p).2.heap = p.heap := by
  unfold connectPipe
  split
  · exact dup2Call_heap env p pipeEnd fd
  · rfl

theorem connectPipes_heap {p p' : Process α} {input output : Int}
    (h : connectPipes env input output p = some p') : p'.heap = p.heap := by
  unfold connectPipes at h
  have hfirst := connectPipe_heap env p input stdinFd
  generalize connectPipe env input stdinFd p = first at h hfirst
  by_cases hinput : first.1 < 0
  · simp only [if_pos hinput] at h
    cases h
  · have hsecond := connectPipe_heap env first.2 output stdoutFd
    simp only [if_neg hinput] at h
    generalize connectPipe env output stdoutFd first.2 = second at h hsecond
    by_cases houtput : second.1 < 0
    · simp only [if_pos houtput] at h
      cases h
    · simp only [if_neg houtput] at h
      cases h
      exact hsecond.trans hfirst

end Frame

/-! ## Without an array -/

section

variable {α : Type} {env : Environment} {list : SimpleCommandElementList}
  {p : Process α}

/-- A redirection in front of the rest of a list. -/
theorem handleCommandElementList_redirection (env : Environment)
    {node : SimpleCommandElementNode}
    (hflag : node.element.isRedirection ≠ 0)
    (h : ElementFilled node.element) (next : SimpleCommandElementList)
    (dynArr : Arguments) (p : Process α) :
    ∃ p', p'.heap = p.heap ∧
      ((∀ others, redirectionsSucceed env (node :: others) p = false) ∧
          handleCommandElementList env (node :: next) dynArr p =
            .ok (-1, dynArr, p') ∨
        (∀ others, redirectionsSucceed env (node :: others) p =
            redirectionsSucceed env others p') ∧
          handleCommandElementList env (node :: next) dynArr p =
            handleCommandElementList env next dynArr p') := by
  have hset : ∀ r, node.element.redirectionPointer = some r →
      r.isInputRedirection.isSome := by
    rcases h with ⟨hzero, -⟩ | ⟨-, hset⟩
    · exact absurd hzero hflag
    · exact hset
  obtain ⟨status, p', hdone, hheap, -⟩ :=
    handleRedirection_withHeap env p hset
  refine ⟨p', hheap, ?_⟩
  by_cases hstatus : status < 0
  · refine Or.inl ⟨fun others => ?_, ?_⟩
    · simp only [redirectionsSucceed, if_pos hflag, hdone]
      rw [decide_eq_false (by omega), Bool.false_and]
    · rw [handleCommandElementList, if_pos hflag, hdone]
      exact if_pos hstatus
  · refine Or.inr ⟨fun others => ?_, ?_⟩
    · simp only [redirectionsSucceed, if_pos hflag, hdone]
      rw [decide_eq_true (by omega), Bool.true_and]
    · rw [handleCommandElementList, if_pos hflag, hdone]
      exact if_neg hstatus

theorem leadingRedirections_redirection {node : SimpleCommandElementNode}
    (hflag : node.element.isRedirection ≠ 0)
    (next : SimpleCommandElementList) :
    leadingRedirections (node :: next) = node :: leadingRedirections next :=
  List.takeWhile_cons_of_pos (bne_iff_ne.mpr hflag)

theorem leadingRedirections_word {node : SimpleCommandElementNode}
    (hflag : node.element.isRedirection = 0)
    (next : SimpleCommandElementList) :
    leadingRedirections (node :: next) = [] :=
  List.takeWhile_cons_of_neg (by simp [hflag])

/-- Without an array the list is left at the first redirection that fails, or
the first word dereferences the null pointer. -/
theorem handleCommandElementList_null (env : Environment)
    (h : ∀ node ∈ list, ElementFilled node.element) (p : Process α) :
    (redirectionsSucceed env (leadingRedirections list) p = false ∧
      ∃ p', handleCommandElementList env list none p = .ok (-1, none, p')) ∨
    (redirectionsSucceed env (leadingRedirections list) p = true ∧
      (handleCommandElementList env list none p = .error .nullDereference ∨
        ∃ p', handleCommandElementList env list none p =
          .ok (0, none, p'))) := by
  induction list generalizing p with
  | nil => exact Or.inr ⟨rfl, Or.inr ⟨p, rfl⟩⟩
  | cons node next ih =>
      have hrest := fun n hn => h n (List.mem_cons_of_mem node hn)
      by_cases hflag : node.element.isRedirection = 0
      · rw [leadingRedirections_word hflag]
        refine Or.inr ⟨rfl, Or.inl ?_⟩
        rw [handleCommandElementList, if_neg (not_not_intro hflag)]
        rfl
      · rw [leadingRedirections_redirection hflag]
        obtain ⟨p', -, ⟨hfailed, hrun⟩ | ⟨hdone, hrun⟩⟩ :=
          handleCommandElementList_redirection env hflag
            (h node List.mem_cons_self) next none p
        · exact Or.inl ⟨hfailed _, p', hrun⟩
        · rw [hdone, hrun]
          exact ih hrest p'

/-! ## With an array -/

/-- The array holds these pointers and nothing behind them. -/
structure HoldsOnly (arr : DynamicByteArray (PointerByte CString))
    (pointers : List (Option CString)) : Prop where
  typeSize : arr.typeSize = pointerSize
  filled : Filled arr (pointers.map pointerBytes)

variable {arr : DynamicByteArray (PointerByte CString)}
  {pointers : List (Option CString)}

theorem HoldsOnly.fits (h : HoldsOnly arr pointers) :
    pointers.length ≤ arr.capacity := by
  simpa using h.filled.represents.fits

theorem HoldsOnly.cells (h : HoldsOnly arr pointers) :
    ∃ n, arr.elements = pointersBytes pointers ++ indeterminate n :=
  ⟨_, h.filled.cells⟩

/-- One pointer more, or a refused request. -/
theorem HoldsOnly.add (h : HoldsOnly arr pointers) (env : Environment)
    (arg : Option CString) (p : Process α) :
    (∃ arr' p', handleCommandlineArgument env arg (some arr) p =
        .ok (0, some arr', p') ∧
      HoldsOnly arr' (pointers ++ [arg]) ∧
      (∃ heap', p' = withHeap p heap') ∧
      ∀ total, pointers.length < total →
        (Granted env.mallocFails p.heap.calls arr.capacity total ↔
          Granted env.mallocFails p'.heap.calls arr'.capacity total)) ∨
    (∃ p', handleCommandlineArgument env arg (some arr) p =
        .ok (-1, some arr, p') ∧
      ∀ total, pointers.length < total →
        ¬ Granted env.mallocFails p.heap.calls arr.capacity total) := by
  have hbytes : (pointerBytes arg).length = arr.typeSize := by
    rw [h.typeSize, pointerBytes_length]
  have hlength : (pointers.map pointerBytes).length = pointers.length :=
    List.length_map _
  rcases h.filled.add env.mallocFails hbytes p.heap with
    ⟨arr', heap', hadd, htype, hfilled, hgranted⟩ | ⟨hadd, hrefused⟩
  · refine Or.inl ⟨arr', withHeap p heap', ?_,
      ⟨htype.trans h.typeSize, ?_⟩, ⟨heap', rfl⟩, fun total htotal =>
        hgranted total (hlength.symm ▸ htotal)⟩
    · simp only [handleCommandlineArgument, hadd, except_ok_bind]
      rfl
    · rw [List.map_append]
      exact hfilled
  · refine Or.inr ⟨withHeap p { p.heap with calls := p.heap.calls + 1 }, ?_,
      fun total htotal => hrefused total (hlength.symm ▸ htotal)⟩
    simp only [handleCommandlineArgument, hadd, except_ok_bind]
    rfl

theorem listWords_redirection {node : SimpleCommandElementNode}
    (hflag : node.element.isRedirection ≠ 0)
    (next : SimpleCommandElementList) :
    listWords (node :: next) = listWords next := by
  unfold listWords
  rw [List.filterMap_cons, if_pos hflag]

theorem listWords_word {node : SimpleCommandElementNode} {word : CString}
    (hflag : node.element.isRedirection = 0)
    (hword : node.element.word = some word)
    (next : SimpleCommandElementList) :
    listWords (node :: next) = word :: listWords next := by
  unfold listWords
  rw [List.filterMap_cons, if_neg (not_not_intro hflag), hword]

/-- With an array the list is gone through exactly when every redirection is
performed and every growth for its words is granted. -/
theorem handleCommandElementList_array (env : Environment)
    (h : ∀ node ∈ list, ElementFilled node.element)
    (harr : HoldsOnly arr pointers) (p : Process α) :
    ∃ status arr' p', handleCommandElementList env list (some arr) p =
        .ok (status, some arr', p') ∧
      (status < 0 ∧
          ¬ (redirectionsSucceed env list p = true ∧
            Granted env.mallocFails p.heap.calls arr.capacity
              (pointers.length + (listWords list).length)) ∨
        status = 0 ∧ redirectionsSucceed env list p = true ∧
          HoldsOnly arr' (pointers ++ (listWords list).map some) ∧
          ∀ total, pointers.length + (listWords list).length ≤ total →
            (Granted env.mallocFails p.heap.calls arr.capacity total ↔
              Granted env.mallocFails p'.heap.calls arr'.capacity total)) := by
  induction list generalizing pointers arr p with
  | nil =>
      refine ⟨0, arr, p, rfl, Or.inr ⟨rfl, rfl, ?_, fun _ _ => Iff.rfl⟩⟩
      rw [show listWords [] = [] from rfl, List.map_nil, List.append_nil]
      exact harr
  | cons node next ih =>
      have hrest := fun n hn => h n (List.mem_cons_of_mem node hn)
      rcases h node List.mem_cons_self with ⟨hflag, hword⟩ | ⟨hflag, hset⟩
      · obtain ⟨word, hword⟩ := Option.isSome_iff_exists.mp hword
        have hsucceed : ∀ q : Process α, redirectionsSucceed env
            (node :: next) q = redirectionsSucceed env next q := fun q => by
          rw [redirectionsSucceed, if_neg (not_not_intro hflag)]
        rw [listWords_word hflag hword, hsucceed, List.length_cons,
          handleCommandElementList, if_neg (not_not_intro hflag), hword]
        rcases harr.add env (some word) p with
          ⟨arr₁, p₁, hadd, harr₁, ⟨heap₁, rfl⟩, hgranted₁⟩ |
            ⟨p₁, hadd, hrefused⟩
        · obtain ⟨status, arr', p', hlist, hcases⟩ :=
            ih hrest harr₁ (withHeap p heap₁)
          rw [redirectionsSucceed_withHeap env p heap₁ hrest,
            List.length_append, List.length_singleton, Nat.add_assoc,
            Nat.add_comm 1] at hcases
          refine ⟨status, arr', p', ?_, ?_⟩
          · rw [hadd]
            exact hlist
          · rcases hcases with ⟨hstatus, hfail⟩ |
              ⟨hstatus, hdone, hholds, hgranted⟩
            · refine Or.inl ⟨hstatus, fun hboth => hfail ⟨hboth.1, ?_⟩⟩
              exact (hgranted₁ _ (by omega)).mp hboth.2
            · refine Or.inr ⟨hstatus, hdone, ?_, fun total htotal => ?_⟩
              · rw [List.append_assoc] at hholds
                exact hholds
              · rw [hgranted₁ total (by omega)]
                exact hgranted total htotal
        · refine ⟨-1, arr, p₁, ?_, Or.inl ⟨by decide, fun hboth => ?_⟩⟩
          · rw [hadd]
            rfl
          · exact hrefused _ (by omega) hboth.2
      · rw [listWords_redirection hflag]
        obtain ⟨p₁, hheap, ⟨hfailed, hrun⟩ | ⟨hdone, hrun⟩⟩ :=
          handleCommandElementList_redirection env hflag
            (h node List.mem_cons_self) next (some arr) p
        · refine ⟨-1, arr, p₁, hrun, Or.inl ⟨by decide, fun hboth => ?_⟩⟩
          rw [hfailed] at hboth
          cases hboth.1
        · rw [hdone, hrun, ← hheap]
          exact ih hrest harr p₁

/-! ## The null pointer at the end -/

/-- Pointers without a null pointer behind them are not an array that `execvp`
can read. -/
theorem loadPointers_unterminated (front words : List CString) (n fuel : Nat) :
    ∃ fault, loadPointers
        (pointersBytes ((front ++ words).map some) ++ indeterminate n)
        fuel front.length = .error fault := by
  induction words generalizing front fuel with
  | nil =>
      cases fuel with
      | zero => exact ⟨_, rfl⟩
      | succ fuel =>
          have hdrop : (pointersBytes ((front ++ []).map some) ++
              (indeterminate n : List (Option (PointerByte CString)))).drop
                (front.length * pointerSize) = indeterminate n := by
            rw [List.append_nil, ← List.length_map (f := some),
              ← pointersBytes_length, List.drop_left]
          unfold loadPointers loadPointer
          rw [hdrop]
          cases n with
          | zero => exact ⟨_, rfl⟩
          | succ n => exact ⟨_, rfl⟩
  | cons word words ih =>
      cases fuel with
      | zero => exact ⟨_, rfl⟩
      | succ fuel =>
          obtain ⟨fault, hfault⟩ := ih (front ++ [word]) fuel
          rw [List.append_assoc, List.length_append] at hfault
          have hhead := loadPointer_pointersBytes (front.map some)
            (words.map some) (some word) (indeterminate n)
          rw [List.length_map] at hhead
          refine ⟨fault, ?_⟩
          rw [List.map_append, List.map_cons, loadPointers, hhead]
          rw [List.map_append] at hfault
          exact congrArg (· >>= fun rest => .ok (word :: rest)) hfault

/-- What `executeCommand` does once it has been through its list. -/
def executeArguments (env : Environment) (dynArr : Arguments)
    (p : Process α) : Except Fault (Option (List CString) × Process α) := do
  let (_, commandlineArguments, p) ←
    handleCommandlineArgument env none dynArr p
  match commandlineArguments with
  | none => throw .nullDereference
  | some arr =>
    let newargv ← loadPointerArray (getInternalArray arr)
    return (some newargv, freeArguments commandlineArguments p)

section Elements

variable {dynArr dynArr' : Arguments} {heap : Heap} {p' : Process α}

theorem executeCommand_failed {status : Int}
    (hnew : makeNewDynamicByteArray env.mallocFails pointerSize p.heap =
      (dynArr, heap))
    (hrun : handleCommandElementList env list dynArr (withHeap p heap) =
      .ok (status, dynArr', p')) (hstatus : status < 0) :
    executeCommand env list p = .ok (none, freeArguments dynArr' p') := by
  unfold executeCommand
  rw [hnew]
  show handleCommandElementList env list dynArr (withHeap p heap) >>= _ = _
  rw [hrun]
  exact if_pos hstatus

theorem executeCommand_fault {fault : Fault}
    (hnew : makeNewDynamicByteArray env.mallocFails pointerSize p.heap =
      (dynArr, heap))
    (hrun : handleCommandElementList env list dynArr (withHeap p heap) =
      .error fault) : executeCommand env list p = .error fault := by
  unfold executeCommand
  rw [hnew]
  show handleCommandElementList env list dynArr (withHeap p heap) >>= _ = _
  rw [hrun]
  rfl

theorem executeCommand_stored
    (hnew : makeNewDynamicByteArray env.mallocFails pointerSize p.heap =
      (dynArr, heap))
    (hrun : handleCommandElementList env list dynArr (withHeap p heap) =
      .ok (0, dynArr', p')) :
    executeCommand env list p = executeArguments env dynArr' p' := by
  unfold executeCommand
  rw [hnew]
  show handleCommandElementList env list dynArr (withHeap p heap) >>= _ = _
  rw [hrun]
  rfl

end Elements

/-- The array of the words is read by `execvp` exactly when the null pointer
finds room behind them. -/
theorem executeArguments_iff (env : Environment) {words : List CString}
    (harr : HoldsOnly arr (words.map some)) (p : Process α) :
    (∀ p', executeArguments env (some arr) p ≠ .ok (none, p')) ∧
    ((∃ p', executeArguments env (some arr) p = .ok (some words, p')) ↔
      Granted env.mallocFails p.heap.calls arr.capacity
        (words.length + 1)) := by
  have hlength : (words.map some).length = words.length := List.length_map _
  rcases harr.add env none p with
    ⟨arr', p₁, hadd, harr', -, hgranted⟩ | ⟨p₁, hadd, hrefused⟩
  · obtain ⟨n, hcells⟩ := harr'.cells
    have hload : loadPointerArray (getInternalArray arr') = .ok words := by
      unfold getInternalArray
      rw [hcells]
      exact loadPointerArray_eq _ _
    have hrun : executeArguments env (some arr) p =
        .ok (some words, freeArguments (some arr') p₁) := by
      unfold executeArguments
      rw [hadd]
      simp only [except_ok_bind, hload]
      rfl
    refine ⟨fun p' hnone => ?_, iff_of_true ⟨_, hrun⟩ ?_⟩
    · rw [hrun] at hnone
      cases hnone
    · have hroom := harr'.fits
      rw [List.length_append, hlength, List.length_singleton] at hroom
      rw [hgranted _ (by omega)]
      exact granted_of_le hroom
  · obtain ⟨n, hcells⟩ := harr.cells
    obtain ⟨fault, hload⟩ := loadPointers_unterminated [] words n
      (arr.elements.length + 1)
    have hload : loadPointerArray (getInternalArray arr) = .error fault := by
      unfold getInternalArray loadPointerArray
      rw [hcells] at hload ⊢
      exact hload
    have hrun : executeArguments env (some arr) p = .error fault := by
      unfold executeArguments
      rw [hadd]
      simp only [except_ok_bind, hload, except_error_bind]
    rw [hrun]
    refine ⟨fun p' hnone => ?_, iff_of_false ?_ ?_⟩
    · cases hnone
    · rintro ⟨p', hnone⟩
      cases hnone
    · exact hrefused _ (by omega)

/-- Without an array only a redirection that fails in front of the first word
keeps the null pointer from being followed. -/
theorem executeCommand_refused_iff
    (h : ∀ node ∈ list, ElementFilled node.element) {p : Process α}
    {heap : Heap}
    (hnew : makeNewDynamicByteArray (β := PointerByte CString) env.mallocFails
      pointerSize p.heap = (none, heap)) :
    ((∃ p', executeCommand env list p = .ok (none, p')) ∨
        ∃ p', executeCommand env list p = .ok (some (listWords list), p')) ↔
      redirectionsSucceed env (leadingRedirections list) p = false := by
  have hleading : ∀ node ∈ leadingRedirections list,
      ElementFilled node.element :=
    fun node hn => h node ((List.takeWhile_prefix _).subset hn)
  have hframe := redirectionsSucceed_withHeap env p heap hleading
  rcases handleCommandElementList_null env h (withHeap p heap) with
    ⟨hfailed, p', hrun⟩ | ⟨hdone, hrun⟩
  · have hexecute := executeCommand_failed hnew hrun (by decide)
    exact iff_of_true (Or.inl ⟨_, hexecute⟩) (hframe.symm.trans hfailed)
  · have hfault : executeCommand env list p = .error .nullDereference := by
      rcases hrun with hrun | ⟨p', hrun⟩
      · exact executeCommand_fault hnew hrun
      · exact executeCommand_stored hnew hrun
    rw [hfault, hframe.symm.trans hdone]
    simp

/-- With an array the growths for the words and for the null pointer decide. -/
theorem executeCommand_made_iff
    (h : ∀ node ∈ list, ElementFilled node.element) {p : Process α}
    {heap : Heap} {arr : DynamicByteArray (PointerByte CString)}
    (hnew : makeNewDynamicByteArray env.mallocFails pointerSize p.heap =
      (some arr, heap)) :
    ((∃ p', executeCommand env list p = .ok (none, p')) ∨
        ∃ p', executeCommand env list p = .ok (some (listWords list), p')) ↔
      (redirectionsSucceed env list p = true →
        Granted env.mallocFails (p.heap.calls + 2) initSize
          (listWords list).length →
        Granted env.mallocFails (p.heap.calls + 2) initSize
          ((listWords list).length + 1)) := by
  obtain ⟨hfilled, htype, hcapacity, hcalls⟩ :=
    makeNewDynamicByteArray_filled hnew
  have hempty : HoldsOnly arr [] := ⟨htype, hfilled⟩
  obtain ⟨status, arr', p', hrun, hcases⟩ :=
    handleCommandElementList_array env h hempty (withHeap p heap)
  have hplan : (withHeap p heap).heap.calls = p.heap.calls + 2 := hcalls
  rw [redirectionsSucceed_withHeap env p heap h, hplan, hcapacity,
    List.length_nil, Nat.zero_add, List.nil_append] at hcases
  rcases hcases with ⟨hstatus, hfail⟩ | ⟨rfl, hdone, hholds, hgranted⟩
  · have hexecute := executeCommand_failed hnew hrun hstatus
    exact iff_of_true (Or.inl ⟨_, hexecute⟩)
      fun hdone hwords => absurd ⟨hdone, hwords⟩ hfail
  · obtain ⟨hnull, hiff⟩ := executeArguments_iff env hholds p'
    have hwords : Granted env.mallocFails (p.heap.calls + 2) initSize
        (listWords list).length := by
      have hroom := hholds.fits
      rw [List.length_map] at hroom
      exact (hgranted _ (Nat.le_refl _)).mpr (granted_of_le hroom)
    rw [executeCommand_stored hnew hrun, hiff,
      ← hgranted _ (Nat.le_succ _)]
    constructor
    · rintro (⟨p'', hnone⟩ | hgranted) - -
      · exact absurd hnone (hnull p'')
      · exact hgranted
    · exact fun himplies => Or.inr (himplies hdone hwords)

/-- **`execvp` gets the words and a null pointer** exactly when the array does
not have to grow for the null pointer or may. -/
theorem executeCommand_iff (h : ∀ node ∈ list, ElementFilled node.element)
    (p : Process α) :
    ((∃ p', executeCommand env list p = .ok (none, p')) ∨
        ∃ p', executeCommand env list p = .ok (some (listWords list), p')) ↔
      if env.mallocFails p.heap.calls = true ∨
          env.mallocFails (p.heap.calls + 1) = true then
        redirectionsSucceed env (leadingRedirections list) p = false
      else
        redirectionsSucceed env list p = true →
        Granted env.mallocFails (p.heap.calls + 2) initSize
          (listWords list).length →
        Granted env.mallocFails (p.heap.calls + 2) initSize
          ((listWords list).length + 1) := by
  have hnone := makeNewDynamicByteArray_none_iff (β := PointerByte CString)
    env.mallocFails pointerSize p.heap
  rcases hnew : makeNewDynamicByteArray (β := PointerByte CString)
    env.mallocFails pointerSize p.heap with ⟨_ | arr, heap⟩
  · rw [hnew] at hnone
    rw [if_pos (hnone.mp rfl)]
    exact executeCommand_refused_iff h hnew
  · rw [hnew] at hnone
    have hmade : ¬ (env.mallocFails p.heap.calls = true ∨
        env.mallocFails (p.heap.calls + 1) = true) :=
      fun hrefused => Option.some_ne_none _ (hnone.mpr hrefused)
    rw [if_neg hmade]
    exact executeCommand_made_iff h hnew

/-- Connecting the pipes fails, or what is left is `executeCommand`. -/
theorem handleCommandList_connected (env : Environment)
    (node : SimpleCommandNode) (next : SimpleCommandList)
    (input output : Int) (p : Process α) :
    (connectPipes env input output p = none ∧
      ∃ p', handleCommandList env (node :: next) input output p =
        .ok (none, p')) ∨
    ∃ p₁, connectPipes env input output p = some p₁ ∧
      handleCommandList env (node :: next) input output p =
        executeCommand env node.simpleCommand.elementList p₁ := by
  unfold connectPipes handleCommandList
  generalize connectPipe env input stdinFd p = first
  by_cases hinput : first.1 < 0
  · simp only [if_pos hinput]
    exact Or.inl ⟨trivial, first.2, rfl⟩
  · simp only [if_neg hinput]
    generalize connectPipe env output stdoutFd first.2 = second
    by_cases houtput : second.1 < 0
    · simp only [if_pos houtput]
      exact Or.inl ⟨trivial, second.2, rfl⟩
    · simp only [if_neg houtput]
      exact Or.inr ⟨second.2, rfl, rfl⟩

/-- **Exactly when a command is executed as it was written.**
`handleCommandList` returns -1 or calls `execvp` with the words of the
command and a null pointer if and only if the pipes cannot be connected, or:
when the array is refused, a redirection in front of the first word fails; and
when it is not, and every redirection and every word goes through, the null
pointer needs no growth or its growth is granted. -/
theorem handleCommandList_iff (env : Environment) (node : SimpleCommandNode)
    (next : SimpleCommandList)
    (h : ∀ n ∈ node.simpleCommand.elementList, ElementFilled n.element)
    (incomingInputPipe incomingOutputPipe : Int) (p : Process α) :
    ((∃ p', handleCommandList env (node :: next) incomingInputPipe
          incomingOutputPipe p = .ok (none, p')) ∨
      ∃ p', handleCommandList env (node :: next) incomingInputPipe
          incomingOutputPipe p =
        .ok (some (listWords node.simpleCommand.elementList), p')) ↔
      ∀ p₁, connectPipes env incomingInputPipe incomingOutputPipe p =
          some p₁ →
        if env.mallocFails p.heap.calls = true ∨
            env.mallocFails (p.heap.calls + 1) = true then
          redirectionsSucceed env
            (leadingRedirections node.simpleCommand.elementList) p₁ = false
        else
          redirectionsSucceed env node.simpleCommand.elementList p₁ = true →
          Granted env.mallocFails (p.heap.calls + 2) initSize
            (listWords node.simpleCommand.elementList).length →
          Granted env.mallocFails (p.heap.calls + 2) initSize
            ((listWords node.simpleCommand.elementList).length + 1) := by
  rcases handleCommandList_connected env node next incomingInputPipe
      incomingOutputPipe p with ⟨hnone, p', hrun⟩ | ⟨p₁, hsome, hrun⟩
  · refine iff_of_true (Or.inl ⟨p', hrun⟩) fun p₁ hsome => ?_
    rw [hnone] at hsome
    cases hsome
  · rw [hrun, executeCommand_iff h p₁, connectPipes_heap env hsome, hsome]
    constructor
    · intro hgood p₂ hp₂
      cases hp₂
      exact hgood
    · intro hgood
      exact hgood p₁ rfl

theorem wordNode_nulFree : (0 : UInt8) ∉ [97] := by
  decide

/-- The word `a` as an element. -/
def wordNode : SimpleCommandElementNode :=
  ⟨0, ⟨0, none, some ⟨[97], wordNode_nulFree⟩⟩⟩

/-- A command that consists of `n` words. -/
def wordsCommand (n : Nat) : SimpleCommandNode :=
  ⟨0, ⟨List.replicate n wordNode⟩⟩

/-- The environment in which one request for memory fails. -/
def refusing (request : Nat) : Environment :=
  ⟨fun call => call == request, fun _ => false, fun _ => false⟩

/-- A process with an empty heap and nothing but the standard descriptors. -/
def freshProcess : Process Nat :=
  .forked (FdTable.standard.map .inherited) Heap.empty

theorem wordsCommand_filled (n : Nat) :
    ∀ node ∈ (wordsCommand n).simpleCommand.elementList,
      ElementFilled node.element := by
  intro node hnode
  rw [List.eq_of_mem_replicate hnode]
  exact .inl ⟨rfl, rfl⟩

/-- With the first growth refused: for seventeen words it is the growth for
the last of them, and the refusal is reported; for sixteen it is the one for
the null pointer. -/
theorem handleCommandList_iff_refusing :
    ((∃ p', handleCommandList (refusing 2) [wordsCommand 17] (-1) (-1)
          freshProcess = .ok (none, p')) ∨
      ∃ p', handleCommandList (refusing 2) [wordsCommand 17] (-1) (-1)
          freshProcess =
        .ok (some (listWords (wordsCommand 17).simpleCommand.elementList),
          p')) ∧
    ¬ ((∃ p', handleCommandList (refusing 2) [wordsCommand 16] (-1) (-1)
          freshProcess = .ok (none, p')) ∨
      ∃ p', handleCommandList (refusing 2) [wordsCommand 16] (-1) (-1)
          freshProcess =
        .ok (some (listWords (wordsCommand 16).simpleCommand.elementList),
          p')) := by
  have hmade : ¬ ((refusing 2).mallocFails freshProcess.heap.calls = true ∨
      (refusing 2).mallocFails (freshProcess.heap.calls + 1) = true) := by
    decide
  constructor
  · rw [handleCommandList_iff (refusing 2) (wordsCommand 17) []
      (wordsCommand_filled 17)]
    intro p₁ _
    rw [if_neg hmade]
    intro _ hwords
    exact absurd hwords (not_granted_of_refused (by decide) rfl)
  · rw [handleCommandList_iff (refusing 2) (wordsCommand 16) []
      (wordsCommand_filled 16)]
    intro hgood
    have hconnected := hgood freshProcess rfl
    rw [if_neg hmade] at hconnected
    have hterminated := hconnected rfl (granted_of_le (by decide))
    exact not_granted_of_refused (by decide) rfl hterminated

set_option maxRecDepth 10000 in
/-- Sixteen words fill the array: when the growth for the null pointer is
refused, `execvp` reads behind the block.  When the array is refused, the
first word is stored through a null pointer. -/
theorem handleCommandList_refused :
    handleCommandList (refusing 2) [wordsCommand 16] (-1) (-1)
      freshProcess = .error .outOfBounds ∧
    handleCommandList (refusing 0) [wordsCommand 1] (-1) (-1)
      freshProcess = .error .nullDereference :=
  ⟨rfl, rfl⟩

end

end OsLabs.Iwish.ArgumentArray
