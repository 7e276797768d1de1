import OsLabs.Iwish.Parser
import OsLabs.Posix.Traced

/-!
# What the parser reads

The functions of `parser.c` once more, with a log of every read of the token
array, of every read of a token's letters, and of every recursive call.  The
log is kept across faults, so it tells what happens up to a null pointer that
is written through.  What `strcmp` and `fprintf` read of a token is not
logged: both stop at its NUL.

Without their logs the functions are those of `OsLabs.Iwish.Parser`
(`outcome_parseInput`).
-/

namespace OsLabs.Iwish.ParserTrace

open OsLabs.Posix
open OsLabs.Iwish.ParserTokens
open OsLabs.Iwish.Parser (lessThan greaterThan bar ampersand isAsciiLetter
  isPathPunctuation Parsed)

/-! ## The log -/

/-- The functions that call themselves, `parsePipeLine` through
`parsePipeLine2`. -/
inductive Recursive where
  | parseSimpleCommand
  | parsePipeLine
  deriving Repr, DecidableEq

/-- An entry of the log. -/
inductive Event where
  /-- A read of `sentence[index]`. -/
  | token (index : Nat)
  /-- A read of `sentence[index][letterIndex]`. -/
  | letter (index letterIndex : Nat)
  /-- A call that starts at `start` inside one that started at `caller`. -/
  | recursion (function : Recursive) (caller start : Nat)
  deriving Repr, DecidableEq

section

variable (fails : FailurePlan) (sentence : List CString)

/-- `sentence[index]` -/
def tokenAt (index : Nat) : Traced Event (Option CString) :=
  ⟨[.token index], pointerAt sentence index⟩

/-- `sentence[index][letterIndex]` -/
def letterAt (index letterIndex : Nat) : Traced Event UInt8 := do
  match ← tokenAt sentence index with
  | none => Traced.fault .nullDereference
  | some token => ⟨[.letter index letterIndex], token.charAt letterIndex⟩

/-- `strcmp(sentence[index], operator) == 0` -/
def tokenIs (index : Nat) (operator : CString) : Traced Event Bool := do
  match ← tokenAt sentence index with
  | none => Traced.fault .nullDereference
  | some token => return token = operator

/-! ## The parse functions -/

/-- `parseLetter` -/
def parseLetter (index letterIndex : Nat) : Traced Event (Bool × Nat) := do
  match ← tokenAt sentence index with
  | none => return (false, letterIndex)
  | some _ =>
    let letter ← letterAt sentence index letterIndex
    if isAsciiLetter letter then
      return (true, letterIndex + 1)
    else if isPathPunctuation letter then
      return (true, letterIndex + 1)
    else
      return (false, letterIndex)

/-- The loop of `parseWord`. -/
def parseWordLoop (index : Nat) : Nat → Nat → Traced Event Bool
  | 0, _ => Traced.fault .outOfFuel
  | fuel + 1, letterIndex => do
    if (← letterAt sentence index letterIndex) = 0 then
      return true
    else
      let (ok, letterIndex) ← parseLetter sentence index letterIndex
      if ok then parseWordLoop index fuel letterIndex
      else return false

/-- `parseWord` -/
def parseWord (index : Nat) : Traced Event (Bool × Nat) := do
  match ← tokenAt sentence index with
  | none => return (false, index)
  | some token =>
    if ← parseWordLoop sentence index (token.bytes.length + 1) 0 then
      return (true, index + 1)
    else
      return (false, index)

/-- The part of `parseRedirection` after the operator. -/
def parseRedirectionWord (index : Nat) (redirection : Option Redirection)
    (isInputRedirection : Int) :
    Traced Event (Bool × Nat × Option Redirection) := do
  match redirection with
  | none => Traced.fault .nullDereference
  | some redirection =>
    let redirection :=
      { redirection with isInputRedirection := some isInputRedirection }
    let (ok, next) ← parseWord sentence (index + 1)
    if ok then
      let word ← tokenAt sentence (next - 1)
      return (true, next, some { redirection with word := word })
    else
      return (false, index, some redirection)

/-- `parseRedirection` -/
def parseRedirection (index : Nat) (redirection : Option Redirection) :
    Traced Event (Bool × Nat × Option Redirection) := do
  match ← tokenAt sentence index with
  | none => return (false, index, redirection)
  | some _ =>
    if ← tokenIs sentence index lessThan then
      parseRedirectionWord sentence index redirection 1
    else if ← tokenIs sentence index greaterThan then
      parseRedirectionWord sentence index redirection 0
    else
      return (false, index, redirection)

/-- `parseSimpleCommandElement` -/
def parseSimpleCommandElement (index : Nat) (element : SimpleCommandElement)
    (heap : Heap) : Traced Event (Parsed SimpleCommandElement) := do
  match ← tokenAt sentence index with
  | none => return ⟨false, index, element, heap⟩
  | some _ =>
    let (isWord, next) ← parseWord sentence index
    if isWord then
      let word ← tokenAt sentence index
      return ⟨true, next, ⟨0, none, word⟩, heap⟩
    else
      let (redirection, heap) := makeNewRedirection fails heap
      let (ok, next, redirection) ←
        parseRedirection sentence index redirection
      if ok then
        return ⟨true, next, ⟨1, redirection, none⟩, heap⟩
      else
        return ⟨false, index, { element with redirectionPointer := none },
          freeRedirection redirection heap⟩

/-- `parseSimpleCommand` -/
def parseSimpleCommand : Nat → Nat → SimpleCommandElementList → Heap →
    Traced Event (Parsed SimpleCommandElementList)
  | 0, _, _, _ => Traced.fault .outOfFuel
  | fuel + 1, index, list, heap => do
    match ← tokenAt sentence index with
    | none => return ⟨false, index, list, heap⟩
    | some _ =>
      match list with
      | [] => Traced.fault .nullDereference
      | node :: next =>
        let parsed ← parseSimpleCommandElement fails sentence index
          node.element heap
        let node := { node with element := parsed.node }
        if parsed.ok then
          match makeNewSimpleCommandElementList fails parsed.heap with
          | ([], heap) => return ⟨false, parsed.index, [node], heap⟩
          | (child, heap) =>
            Traced.emit (.recursion .parseSimpleCommand index parsed.index)
            let rest ← parseSimpleCommand fuel parsed.index child heap
            if rest.ok then
              return ⟨true, rest.index, node :: rest.node, rest.heap⟩
            else
              return ⟨true, rest.index, [node],
                freeSimpleCommandElementList rest.node rest.heap⟩
        else
          return ⟨false, index, node :: next, parsed.heap⟩

/-- `parsePipeLine2` -/
def parsePipeLine2
    (parsePipeLine : Nat → SimpleCommandList → Heap →
      Traced Event (Parsed SimpleCommandList))
    (index : Nat) (previous : SimpleCommandList) (heap : Heap) :
    Traced Event (Parsed SimpleCommandList) := do
  match ← tokenAt sentence index with
  | none => return ⟨false, index, previous, heap⟩
  | some _ =>
    if ← tokenIs sentence index bar then
      match previous with
      | [] => Traced.fault .nullDereference
      | node :: _ =>
        match makeNewSimpleCommandList fails heap with
        | ([], heap) => return ⟨false, index + 1, [node], heap⟩
        | (next, heap) =>
          let parsed ← parsePipeLine (index + 1) next heap
          if parsed.ok then
            return ⟨true, parsed.index, node :: parsed.node, parsed.heap⟩
          else
            return ⟨false, index + 1, [node],
              freeSimpleCommandList parsed.node parsed.heap⟩
    else
      return ⟨false, index, previous, heap⟩

/-- `parsePipeLine`.  The last read is that of the error message. -/
def parsePipeLine : Nat → Nat → SimpleCommandList → Heap →
    Traced Event (Parsed SimpleCommandList)
  | 0, _, _, _ => Traced.fault .outOfFuel
  | fuel + 1, index, list, heap => do
    match ← tokenAt sentence index with
    | none => return ⟨false, index, list, heap⟩
    | some _ =>
      let (isWord, next) ← parseWord sentence index
      if isWord then
        match list with
        | [] => Traced.fault .nullDereference
        | node :: tail =>
          let command ← parseSimpleCommand fails sentence
            (sentence.length + 1) (next - 1) node.simpleCommand.elementList
            heap
          let list := { node with simpleCommand := ⟨command.node⟩ } :: tail
          if command.ok then
            let parsed ← parsePipeLine2 fails sentence
              (fun start next heap => do
                Traced.emit (.recursion .parsePipeLine index start)
                parsePipeLine fuel start next heap)
              command.index list command.heap
            if parsed.ok then return parsed
            else return { parsed with ok := true, index := command.index }
          else
            return ⟨false, index, list, command.heap⟩
      else
        let _ ← tokenAt sentence index
        return ⟨false, index, list, heap⟩

/-- `sentence[index] != NULL && strcmp(sentence[index], operator) == 0` -/
def nextIs (index : Nat) (operator : CString) : Traced Event Bool := do
  match ← tokenAt sentence index with
  | none => return false
  | some _ => tokenIs sentence index operator

/-- `parseInput` -/
def parseInput (list : SimpleList) (heap : Heap) :
    Traced Event (Bool × SimpleList × Heap) := do
  match ← tokenAt sentence 0 with
  | none => return (false, list, heap)
  | some _ =>
    let parsed ← parsePipeLine fails sentence (sentence.length + 1) 0
      list.pipeline.simpleCommandList heap
    let list := { list with pipeline := ⟨parsed.node⟩ }
    if parsed.ok then
      if ← nextIs sentence parsed.index ampersand then
        let last ← tokenAt sentence (parsed.index + 1)
        return (last.isNone, { list with hasDaemonAmpersand := 1 },
          parsed.heap)
      else
        let last ← tokenAt sentence parsed.index
        return (last.isNone, list, parsed.heap)
    else
      return (false, list, parsed.heap)

end

/-! ## Without the log -/

section Outcome

variable {fails : FailurePlan} {sentence : List CString} {index : Nat}

@[simp] theorem outcome_tokenAt (index : Nat) :
    (tokenAt sentence index).outcome = pointerAt sentence index := rfl

/-- A test of the array element, in both models. -/
theorem outcome_tokenAt_bind {α : Type} {f : Option CString → Traced Event α}
    {g : Option CString → Except Fault α}
    (h : ∀ pointer, pointerAt sentence index = .ok pointer →
      (f pointer).outcome = g pointer) :
    (tokenAt sentence index >>= f).outcome =
      pointerAt sentence index >>= g := by
  rw [Traced.outcome_bind, outcome_tokenAt]
  cases hread : pointerAt sentence index with
  | error fault => rfl
  | ok pointer => exact h pointer hread

theorem outcome_tokenIs {token : CString} (operator : CString)
    (htoken : pointerAt sentence index = .ok (some token)) :
    (tokenIs sentence index operator).outcome =
      .ok (decide (token = operator)) := by
  simp [tokenIs, htoken]

theorem outcome_letterAt {token : CString} (letterIndex : Nat)
    (htoken : pointerAt sentence index = .ok (some token)) :
    (letterAt sentence index letterIndex).outcome =
      token.charAt letterIndex := by
  simp [letterAt, htoken]

theorem outcome_parseLetter (letterIndex : Nat) :
    (parseLetter sentence index letterIndex).outcome =
      Parser.parseLetter sentence index letterIndex := by
  refine outcome_tokenAt_bind fun pointer hpointer => ?_
  cases pointer with
  | none => rfl
  | some token =>
      simp only [Traced.outcome_bind, outcome_letterAt letterIndex hpointer,
        Traced.outcome_ite, Traced.outcome_pure, except_pure]

theorem outcome_parseWordLoop {token : CString}
    (htoken : pointerAt sentence index = .ok (some token))
    (fuel letterIndex : Nat) :
    (parseWordLoop sentence index fuel letterIndex).outcome =
      Parser.parseWordLoop sentence index fuel letterIndex := by
  induction fuel generalizing letterIndex with
  | zero => rfl
  | succ fuel ih =>
      simp only [parseWordLoop, Parser.parseWordLoop, htoken,
        Traced.outcome_bind, outcome_letterAt letterIndex htoken,
        Traced.outcome_ite, Traced.outcome_pure, outcome_parseLetter, ih,
        except_pure, except_ok_bind]

theorem outcome_parseWord (index : Nat) :
    (parseWord sentence index).outcome = Parser.parseWord sentence index := by
  refine outcome_tokenAt_bind fun pointer hpointer => ?_
  cases pointer with
  | none => rfl
  | some token =>
      simp only [Traced.outcome_bind, outcome_parseWordLoop hpointer,
        Traced.outcome_ite, Traced.outcome_pure, except_pure]

theorem outcome_parseRedirectionWord (redirection : Option Redirection)
    (isInputRedirection : Int) :
    (parseRedirectionWord sentence index redirection
      isInputRedirection).outcome =
      Parser.parseRedirectionWord sentence index redirection
        isInputRedirection := by
  cases redirection with
  | none => rfl
  | some redirection =>
      simp only [parseRedirectionWord, Parser.parseRedirectionWord,
        Traced.outcome_bind, outcome_parseWord, Traced.outcome_ite,
        outcome_tokenAt, Traced.outcome_pure, except_pure]

theorem outcome_parseRedirection (redirection : Option Redirection) :
    (parseRedirection sentence index redirection).outcome =
      Parser.parseRedirection sentence index redirection := by
  refine outcome_tokenAt_bind fun pointer hpointer => ?_
  cases pointer with
  | none => rfl
  | some token =>
      simp only [Traced.outcome_bind, outcome_tokenIs _ hpointer,
        except_ok_bind, Traced.outcome_ite, outcome_parseRedirectionWord,
        Traced.outcome_pure, except_pure, decide_eq_true_eq]

theorem outcome_parseSimpleCommandElement (element : SimpleCommandElement)
    (heap : Heap) :
    (parseSimpleCommandElement fails sentence index element heap).outcome =
      Parser.parseSimpleCommandElement fails sentence index element heap := by
  refine outcome_tokenAt_bind fun pointer hpointer => ?_
  cases pointer with
  | none => rfl
  | some token =>
      simp only [Traced.outcome_bind, outcome_parseWord, Traced.outcome_ite,
        outcome_tokenAt, hpointer, outcome_parseRedirection,
        Traced.outcome_pure, except_pure, except_ok_bind]

theorem outcome_parseSimpleCommand (fuel : Nat) :
    ∀ (index : Nat) (list : SimpleCommandElementList) (heap : Heap),
      (parseSimpleCommand fails sentence fuel index list heap).outcome =
        Parser.parseSimpleCommand fails sentence fuel index list heap := by
  induction fuel with
  | zero => exact fun _ _ _ => rfl
  | succ fuel ih =>
      intro index list heap
      refine outcome_tokenAt_bind fun pointer hpointer => ?_
      cases pointer with
      | none => rfl
      | some token =>
          cases list with
          | nil => rfl
          | cons node next =>
              simp only [Traced.outcome_bind,
                outcome_parseSimpleCommandElement, Traced.outcome_ite,
                Traced.outcome_pure, except_pure]
              congr 1
              funext parsed
              congr 1
              generalize makeNewSimpleCommandElementList fails
                parsed.heap = made
              cases made with
              | mk child heap =>
                  cases child with
                  | nil => rfl
                  | cons first others =>
                      simp only [Traced.outcome_bind, Traced.outcome_emit, ih,
                        Traced.outcome_ite, Traced.outcome_pure,
                        except_ok_bind]

theorem outcome_parsePipeLine2
    {parse : Nat → SimpleCommandList → Heap →
      Traced Event (Parsed SimpleCommandList)}
    {parse' : Nat → SimpleCommandList → Heap →
      Except Fault (Parsed SimpleCommandList)}
    (hparse : ∀ start list heap,
      (parse start list heap).outcome = parse' start list heap)
    (index : Nat) (previous : SimpleCommandList) (heap : Heap) :
    (parsePipeLine2 fails sentence parse index previous heap).outcome =
      Parser.parsePipeLine2 fails sentence parse' index previous heap := by
  refine outcome_tokenAt_bind fun pointer hpointer => ?_
  cases pointer with
  | none => rfl
  | some token =>
      simp only [Traced.outcome_bind, outcome_tokenIs _ hpointer,
        except_ok_bind, Traced.outcome_ite, Traced.outcome_pure, except_pure,
        decide_eq_true_eq]
      congr 1
      cases previous with
      | nil => rfl
      | cons node next =>
          generalize makeNewSimpleCommandList fails heap = made
          cases made with
          | mk created heap =>
              cases created with
              | nil => rfl
              | cons first others =>
                  simp only [Traced.outcome_bind, hparse, Traced.outcome_ite,
                    Traced.outcome_pure]

theorem outcome_parsePipeLine (fuel : Nat) :
    ∀ (index : Nat) (list : SimpleCommandList) (heap : Heap),
      (parsePipeLine fails sentence fuel index list heap).outcome =
        Parser.parsePipeLine fails sentence fuel index list heap := by
  induction fuel with
  | zero => exact fun _ _ _ => rfl
  | succ fuel ih =>
      intro index list heap
      refine outcome_tokenAt_bind fun pointer hpointer => ?_
      have hcontinue : ∀ start next heap,
          (do
            Traced.emit (Event.recursion .parsePipeLine index start)
            parsePipeLine fails sentence fuel start next heap).outcome =
          Parser.parsePipeLine fails sentence fuel start next heap := by
        intro start next heap
        simp only [Traced.outcome_bind, Traced.outcome_emit, ih,
          except_ok_bind]
      cases pointer with
      | none => rfl
      | some token =>
          cases list with
          | nil =>
              simp only [Traced.outcome_bind, outcome_parseWord,
                Traced.outcome_ite, outcome_tokenAt, hpointer,
                Traced.outcome_fault, Traced.outcome_pure, except_ok_bind,
                except_pure, except_throw]
          | cons node tail =>
              simp only [Traced.outcome_bind, outcome_parseWord,
                Traced.outcome_ite, outcome_tokenAt, hpointer,
                outcome_parseSimpleCommand,
                outcome_parsePipeLine2 hcontinue,
                Traced.outcome_pure, except_ok_bind, except_pure]

theorem outcome_nextIs (index : Nat) (operator : CString) :
    (nextIs sentence index operator).outcome =
      pointerAt sentence index >>= fun pointer =>
        .ok (decide (pointer = some operator)) := by
  refine outcome_tokenAt_bind fun pointer hpointer => ?_
  cases pointer with
  | none => rfl
  | some token =>
      simp only [outcome_tokenIs operator hpointer, Option.some.injEq]

/-- Without its log the function is the parser. -/
theorem outcome_parseInput (list : SimpleList) (heap : Heap) :
    (parseInput fails sentence list heap).outcome =
      Parser.parseInput fails sentence list heap := by
  refine outcome_tokenAt_bind fun pointer hpointer => ?_
  cases pointer with
  | none => rfl
  | some token =>
      simp only [Traced.outcome_bind, outcome_parsePipeLine,
        Traced.outcome_ite, outcome_nextIs, outcome_tokenAt,
        Traced.outcome_pure, except_pure, bind_assoc, except_ok_bind,
        decide_eq_true_eq]

end Outcome

/-! ## What the log says -/

/-- What is to hold of an entry: a read is within the array, or within the
token, and a recursive call starts later than its caller. -/
def Event.Within (sentence : List CString) : Event → Prop
  | .token index => index ≤ sentence.length
  | .letter index letterIndex => ∃ token,
    sentence[index]? = some token ∧ letterIndex ≤ token.bytes.length
  | .recursion _ caller start => caller < start

/-- All entries are within the array, and the only fault is a null pointer
that is followed. -/
abbrev Safe {α : Type} (sentence : List CString) (Q : α → Prop)
    (x : Traced Event α) : Prop :=
  x.Keeps (Event.Within sentence) (· = .nullDereference) Q

section Safe

variable {fails : FailurePlan} {sentence : List CString} {token : CString}
  {index letterIndex : Nat}

theorem safe_tokenAt (h : index ≤ sentence.length) :
    Safe sentence (fun pointer => pointer = sentence[index]?)
      (tokenAt sentence index) := by
  rw [tokenAt, pointerAt_eq h]
  exact .logged h rfl

theorem index_lt (htoken : sentence[index]? = some token) :
    index < sentence.length :=
  (List.getElem?_eq_some_iff.mp htoken).1

/-- A token that is there is read again. -/
theorem safe_tokenAt_again (htoken : sentence[index]? = some token) :
    Safe sentence (fun pointer => pointer = some token)
      (tokenAt sentence index) := by
  rw [← htoken]
  exact safe_tokenAt (Nat.le_of_lt (index_lt htoken))

theorem safe_letterAt (htoken : sentence[index]? = some token)
    (h : letterIndex ≤ token.bytes.length) :
    Safe sentence (fun c => c ≠ 0 → letterIndex < token.bytes.length)
      (letterAt sentence index letterIndex) := by
  refine (safe_tokenAt_again htoken).bind fun pointer hpointer => ?_
  subst hpointer
  obtain ⟨c, hc, hlt⟩ := token.charAt_le h
  show Safe sentence _ ⟨[.letter index letterIndex], _⟩
  rw [hc]
  exact .logged ⟨token, htoken, h⟩ hlt

theorem safe_tokenIs (htoken : sentence[index]? = some token)
    (operator : CString) :
    Safe sentence (fun _ => True) (tokenIs sentence index operator) := by
  refine (safe_tokenAt_again htoken).bind fun pointer hpointer => ?_
  subst hpointer
  exact Traced.Keeps.pure trivial

theorem safe_parseLetter (htoken : sentence[index]? = some token)
    (h : letterIndex ≤ token.bytes.length) :
    Safe sentence (fun result => result.1 = true →
        result.2 = letterIndex + 1)
      (parseLetter sentence index letterIndex) := by
  refine (safe_tokenAt_again htoken).bind fun pointer hpointer => ?_
  subst hpointer
  refine (safe_letterAt htoken h).bind fun letter _ => ?_
  refine .ite (fun _ => .pure fun _ => rfl) fun _ => ?_
  exact .ite (fun _ => .pure fun _ => rfl) fun _ => .pure nofun

/-- A letter that is not the NUL has another one behind it. -/
theorem safe_parseWordLoop (htoken : sentence[index]? = some token)
    {fuel : Nat} (h : letterIndex ≤ token.bytes.length)
    (hfuel : token.bytes.length < fuel + letterIndex) :
    Safe sentence (fun _ => True)
      (parseWordLoop sentence index fuel letterIndex) := by
  induction fuel generalizing letterIndex with
  | zero => omega
  | succ fuel ih =>
      refine (safe_letterAt htoken h).bind fun c hc => ?_
      refine .ite (fun _ => .pure trivial) fun hnul => ?_
      have hlt := hc hnul
      refine (safe_parseLetter htoken h).bind fun ⟨ok, next⟩ hresult => ?_
      refine .ite (fun hok => ?_) fun _ => .pure trivial
      have hnext : next = letterIndex + 1 := hresult hok
      exact ih (by omega) (by omega)

theorem safe_parseWord (h : index ≤ sentence.length) :
    Safe sentence (fun result => result.1 = true →
        result.2 = index + 1 ∧ index < sentence.length)
      (parseWord sentence index) := by
  refine (safe_tokenAt h).bind fun pointer hpointer => ?_
  cases pointer with
  | none => exact .pure nofun
  | some token =>
      have htoken := hpointer.symm
      refine (safe_parseWordLoop htoken (Nat.zero_le _)
        (Nat.lt_succ_self _)).bind fun isWord _ => ?_
      exact .ite (fun _ => .pure fun _ => ⟨rfl, index_lt htoken⟩)
        fun _ => .pure nofun

/-! ## Where a call starts and ends -/

/-- A call that starts at `index` ends at `next`: within the array, and if it
has read something later than it started. -/
structure Moves (sentence : List CString) (index : Nat) (ok : Bool)
    (next : Nat) : Prop where
  start_le : index ≤ next
  le : next ≤ sentence.length
  lt : ok = true → index < next

theorem Moves.stay (h : index ≤ sentence.length) :
    Moves sentence index false index :=
  ⟨Nat.le_refl index, h, nofun⟩

theorem Moves.ahead {ok : Bool} {next : Nat} (hlt : index < next)
    (hle : next ≤ sentence.length) : Moves sentence index ok next :=
  ⟨Nat.le_of_lt hlt, hle, fun _ => hlt⟩

theorem safe_recursion (function : Recursive) {caller start : Nat}
    (h : caller < start) :
    Safe sentence (fun _ => True)
      (Traced.emit (.recursion function caller start)) :=
  .emit h

theorem safe_parseRedirectionWord (h : index < sentence.length)
    (redirection : Option Redirection) (isInputRedirection : Int) :
    Safe sentence (fun result => Moves sentence index result.1 result.2.1)
      (parseRedirectionWord sentence index redirection
        isInputRedirection) := by
  cases redirection with
  | none => exact .fault rfl
  | some redirection =>
      refine (safe_parseWord h).bind fun ⟨ok, next⟩ hresult => ?_
      refine .ite (fun hok => ?_) fun _ => .pure (Moves.stay (Nat.le_of_lt h))
      have hnext : next = index + 1 + 1 ∧ index + 1 < sentence.length :=
        hresult hok
      have hword : next - 1 ≤ sentence.length := by omega
      have hmoves : Moves sentence index true next :=
        .ahead (by omega) (by omega)
      exact (safe_tokenAt hword).bind fun word _ => .pure hmoves

theorem safe_parseRedirection (h : index ≤ sentence.length)
    (redirection : Option Redirection) :
    Safe sentence (fun result => Moves sentence index result.1 result.2.1)
      (parseRedirection sentence index redirection) := by
  refine (safe_tokenAt h).bind fun pointer hpointer => ?_
  cases pointer with
  | none => exact .pure (Moves.stay h)
  | some token =>
      have htoken := hpointer.symm
      have hword := safe_parseRedirectionWord (index_lt htoken) redirection
      refine (safe_tokenIs htoken lessThan).bind fun isInput _ => ?_
      refine .ite (fun _ => hword 1) fun _ => ?_
      refine (safe_tokenIs htoken greaterThan).bind fun isOutput _ => ?_
      exact .ite (fun _ => hword 0) fun _ => .pure (Moves.stay h)

theorem safe_parseSimpleCommandElement (fails : FailurePlan)
    (h : index ≤ sentence.length) (element : SimpleCommandElement)
    (heap : Heap) :
    Safe sentence (fun parsed => Moves sentence index parsed.ok parsed.index)
      (parseSimpleCommandElement fails sentence index element heap) := by
  refine (safe_tokenAt h).bind fun pointer _ => ?_
  cases pointer with
  | none => exact .pure (Moves.stay h)
  | some token =>
      refine (safe_parseWord h).bind fun ⟨isWord, next⟩ hword => ?_
      refine .ite (fun hisWord => ?_) fun _ => ?_
      · have hnext : next = index + 1 ∧ index < sentence.length :=
          hword hisWord
        have hmoves : Moves sentence index true next :=
          .ahead (by omega) (by omega)
        exact (safe_tokenAt h).bind fun _ _ => .pure hmoves
      · refine (safe_parseRedirection h _).bind
          fun ⟨ok, next, redirection⟩ hresult => ?_
        refine .ite (fun hok => ?_) fun _ => .pure (Moves.stay h)
        exact .pure (Moves.ahead (hresult.lt hok) hresult.le)

/-- On the tokens that are left: an element takes at least one of them. -/
theorem safe_parseSimpleCommand (fails : FailurePlan) {fuel : Nat}
    (h : index ≤ sentence.length) (hfuel : sentence.length < fuel + index)
    (list : SimpleCommandElementList) (heap : Heap) :
    Safe sentence (fun parsed => Moves sentence index parsed.ok parsed.index)
      (parseSimpleCommand fails sentence fuel index list heap) := by
  induction fuel generalizing index list heap with
  | zero => omega
  | succ fuel ih =>
      refine (safe_tokenAt h).bind fun pointer _ => ?_
      cases pointer with
      | none => exact .pure (Moves.stay h)
      | some token =>
          cases list with
          | nil => exact .fault rfl
          | cons node next =>
              refine (safe_parseSimpleCommandElement fails h node.element
                heap).bind fun parsed hparsed => ?_
              refine .ite (fun hok => ?_) fun _ => .pure (Moves.stay h)
              have hlt := hparsed.lt hok
              have hle := hparsed.le
              generalize makeNewSimpleCommandElementList fails
                parsed.heap = made
              cases made with
              | mk child heap =>
                  cases child with
                  | nil => exact .pure (Moves.ahead hlt hle)
                  | cons first others =>
                      refine (safe_recursion .parseSimpleCommand hlt).bind
                        fun _ _ => ?_
                      refine (ih hle (by omega) (first :: others)
                        heap).bind fun rest hrest => ?_
                      have hmoves : Moves sentence index true rest.index :=
                        .ahead (Nat.lt_of_lt_of_le hlt hrest.start_le)
                          hrest.le
                      exact .ite (fun _ => .pure hmoves)
                        fun _ => .pure hmoves

/-- The call inside starts behind the `|`. -/
theorem safe_parsePipeLine2 (fails : FailurePlan)
    {parse : Nat → SimpleCommandList → Heap →
      Traced Event (Parsed SimpleCommandList)}
    (hparse : ∀ start list heap, start = index + 1 →
      start ≤ sentence.length →
      Safe sentence (fun parsed => parsed.index ≤ sentence.length)
        (parse start list heap))
    (h : index ≤ sentence.length) (previous : SimpleCommandList)
    (heap : Heap) :
    Safe sentence (fun parsed => parsed.index ≤ sentence.length)
      (parsePipeLine2 fails sentence parse index previous heap) := by
  refine (safe_tokenAt h).bind fun pointer hpointer => ?_
  cases pointer with
  | none => exact .pure h
  | some token =>
      have htoken := hpointer.symm
      have hlt := index_lt htoken
      refine (safe_tokenIs htoken bar).bind fun isBar _ => ?_
      refine .ite (fun _ => ?_) fun _ => .pure h
      cases previous with
      | nil => exact .fault rfl
      | cons node tail =>
          generalize makeNewSimpleCommandList fails heap = made
          cases made with
          | mk created heap =>
              cases created with
              | nil => exact .pure hlt
              | cons first others =>
                  refine (hparse (index + 1) (first :: others) heap rfl
                    hlt).bind fun parsed hparsed => ?_
                  exact .ite (fun _ => .pure hparsed) fun _ => .pure hlt

theorem safe_parsePipeLine (fails : FailurePlan) {fuel : Nat}
    (h : index ≤ sentence.length) (hfuel : sentence.length < fuel + index)
    (list : SimpleCommandList) (heap : Heap) :
    Safe sentence (fun parsed => parsed.index ≤ sentence.length)
      (parsePipeLine fails sentence fuel index list heap) := by
  induction fuel generalizing index list heap with
  | zero => omega
  | succ fuel ih =>
      refine (safe_tokenAt h).bind fun pointer _ => ?_
      cases pointer with
      | none => exact .pure h
      | some token =>
          refine (safe_parseWord h).bind fun ⟨isWord, next⟩ hword => ?_
          refine .ite (fun hisWord => ?_) fun _ =>
            (safe_tokenAt h).bind fun _ _ => .pure h
          have hnext : next = index + 1 ∧ index < sentence.length :=
            hword hisWord
          cases list with
          | nil => exact .fault rfl
          | cons node tail =>
              refine (safe_parseSimpleCommand fails (by omega) (by omega)
                node.simpleCommand.elementList heap).bind
                fun command hcommand => ?_
              refine .ite (fun _ => ?_) fun _ => .pure h
              have hstart := hcommand.start_le
              refine (safe_parsePipeLine2 fails ?_ hcommand.le _ _).bind
                fun parsed hparsed => ?_
              · intro start list heap hbehind hle
                have hlater : index < start := by omega
                exact (safe_recursion .parsePipeLine hlater).bind fun _ _ =>
                  ih hle (by omega) list heap
              · exact .ite (fun _ => .pure hparsed)
                  fun _ => .pure hcommand.le

theorem safe_nextIs (h : index ≤ sentence.length) (operator : CString) :
    Safe sentence (fun isNext => isNext = true → index < sentence.length)
      (nextIs sentence index operator) := by
  refine (safe_tokenAt h).bind fun pointer hpointer => ?_
  cases pointer with
  | none => exact .pure nofun
  | some token =>
      have htoken := hpointer.symm
      exact (safe_tokenIs htoken operator).weaken fun _ _ _ => index_lt htoken

theorem safe_parseInput (fails : FailurePlan) (sentence : List CString)
    (list : SimpleList) (heap : Heap) :
    Safe sentence (fun _ => True) (parseInput fails sentence list heap) := by
  refine (safe_tokenAt (Nat.zero_le _)).bind fun pointer _ => ?_
  cases pointer with
  | none => exact .pure trivial
  | some token =>
      refine (safe_parsePipeLine fails (Nat.zero_le _)
        (Nat.lt_succ_self _) _ heap).bind fun parsed hparsed => ?_
      refine .ite (fun _ => ?_) fun _ => .pure trivial
      refine (safe_nextIs hparsed ampersand).bind fun isAmpersand hnext => ?_
      exact .ite
        (fun his => (safe_tokenAt (hnext his)).bind fun _ _ => .pure trivial)
        fun _ => (safe_tokenAt hparsed).bind fun _ _ => .pure trivial

/-- **Every read of a parse is within the array and within the token it is in,
and the recursion ends**: a recursive call starts later than its caller, and
the fuel of `parseInput` lasts. -/
theorem parseInput_reads_within (fails : FailurePlan)
    (sentence : List CString) (list : SimpleList) (heap : Heap) :
    (parseInput fails sentence list heap).outcome =
        Parser.parseInput fails sentence list heap ∧
      (∀ event ∈ (parseInput fails sentence list heap).log,
        event.Within sentence) ∧
      Parser.parseInput fails sentence list heap ≠ .error .outOfFuel := by
  have hsafe := safe_parseInput fails sentence list heap
  refine ⟨outcome_parseInput list heap, hsafe.entries, fun hfuel => ?_⟩
  rw [← outcome_parseInput list heap] at hfuel
  cases hsafe.faults _ hfuel

end Safe

/-! ## What a parse must have read -/

/-- Every token from `start` on and before `stop` has been read. -/
def Covers (start stop : Nat) (log : List Event) : Prop :=
  ∀ index, start ≤ index → index < stop → .token index ∈ log

section Covers

variable {fails : FailurePlan} {sentence : List CString}
  {start middle stop index : Nat} {before after log : List Event}

theorem Covers.nothing (h : stop ≤ start) : Covers start stop log :=
  fun _ hstart hstop =>
    absurd (Nat.lt_of_lt_of_le hstop h) (Nat.not_lt_of_le hstart)

theorem Covers.stay : Covers index index log :=
  .nothing (Nat.le_refl index)

theorem Covers.append (h : Covers start stop before) :
    Covers start stop (before ++ after) :=
  fun index hstart hstop => List.mem_append_left after (h index hstart hstop)

theorem Covers.behind (h : Covers start stop after) :
    Covers start stop (before ++ after) :=
  fun index hstart hstop => List.mem_append_right before (h index hstart hstop)

/-- What the first half has read and what the second one goes on with. -/
theorem Covers.trans (h : Covers start middle before)
    (h' : Covers middle stop after) :
    Covers start stop (before ++ after) := by
  intro index hstart hstop
  by_cases hfirst : index < middle
  · exact h.append index hstart hfirst
  · exact h'.behind index (Nat.le_of_not_lt hfirst) hstop

theorem tokenAt_reads (index : Nat) :
    (tokenAt sentence index).Ends fun pointer log =>
      pointer = sentence[index]? ∧ Covers index (index + 1) log := by
  refine fun pointer hread => ⟨(getElem?_of_pointerAt hread).symm, ?_⟩
  intro i hstart hstop
  have hi : i = index := by omega
  rw [hi]
  exact List.mem_singleton_self _

/-- A word is one token. -/
theorem parseWord_reads (index : Nat) :
    (parseWord sentence index).Ends fun result log =>
      result.2 ≤ index + 1 ∧ Covers index result.2 log := by
  refine (tokenAt_reads index).bind fun pointer before hread => ?_
  have hstay : index ≤ index + 1 := Nat.le_succ index
  cases pointer with
  | none => exact .pure ⟨hstay, .stay⟩
  | some token =>
      refine Traced.Ends.any.bind fun isWord _ _ => ?_
      refine .ite (fun _ => .pure ⟨Nat.le_refl _, hread.2.append⟩) fun _ => ?_
      exact .pure ⟨hstay, .stay⟩

/-- The operator is the caller's. -/
theorem parseRedirectionWord_reads (sentence : List CString) (index : Nat)
    (redirection : Option Redirection) (isInputRedirection : Int) :
    (parseRedirectionWord sentence index redirection
      isInputRedirection).Ends fun result log =>
        Covers (index + 1) result.2.1 log := by
  cases redirection with
  | none => exact .fault
  | some redirection =>
      refine (parseWord_reads (index + 1)).bind
        fun ⟨ok, next⟩ before hword => ?_
      refine .ite (fun _ => ?_) fun _ => .pure (.nothing (Nat.le_succ index))
      exact Traced.Ends.any.bind fun _ _ _ => .pure hword.2.append

theorem parseRedirection_reads (index : Nat)
    (redirection : Option Redirection) :
    (parseRedirection sentence index redirection).Ends fun result log =>
      Covers index result.2.1 log := by
  refine (tokenAt_reads index).bind fun pointer before hread => ?_
  cases pointer with
  | none => exact .pure .stay
  | some token =>
      have hword := parseRedirectionWord_reads sentence index redirection
      refine Traced.Ends.any.bind fun isInput _ _ => .ite (fun _ => ?_)
        fun _ => ?_
      · exact (hword 1).weaken fun _ _ h => hread.2.trans h.behind
      refine Traced.Ends.any.bind fun isOutput _ _ => .ite (fun _ => ?_)
        fun _ => .pure .stay
      exact (hword 0).weaken fun _ _ h => hread.2.trans h.behind.behind

theorem parseSimpleCommandElement_reads (fails : FailurePlan) (index : Nat)
    (element : SimpleCommandElement) (heap : Heap) :
    (parseSimpleCommandElement fails sentence index element heap).Ends
      fun parsed log => Covers index parsed.index log := by
  refine Traced.Ends.any.bind fun pointer _ _ => ?_
  cases pointer with
  | none => exact .pure .stay
  | some token =>
      refine (parseWord_reads index).bind fun ⟨isWord, next⟩ _ hword => ?_
      refine .ite (fun _ => ?_) fun _ => ?_
      · exact Traced.Ends.any.bind fun _ _ _ => .pure hword.2.append.behind
      · refine (parseRedirection_reads index _).bind
          fun ⟨ok, next, redirection⟩ _ hredirection => ?_
        refine .ite (fun _ => .pure hredirection.append.behind.behind)
          fun _ => .pure .stay

/-- The command that is called for the rest goes on where the element
ends. -/
theorem parseSimpleCommand_reads (fails : FailurePlan) (fuel index : Nat)
    (list : SimpleCommandElementList) (heap : Heap) :
    (parseSimpleCommand fails sentence fuel index list heap).Ends
      fun parsed log => Covers index parsed.index log := by
  induction fuel generalizing index list heap with
  | zero => exact .fault
  | succ fuel ih =>
      refine Traced.Ends.any.bind fun pointer _ _ => ?_
      cases pointer with
      | none => exact .pure .stay
      | some token =>
          cases list with
          | nil => exact .fault
          | cons node next =>
              refine (parseSimpleCommandElement_reads fails index node.element
                heap).bind fun parsed _ hparsed => ?_
              refine .ite (fun _ => ?_) fun _ => .pure .stay
              generalize makeNewSimpleCommandElementList fails
                parsed.heap = made
              cases made with
              | mk child heap =>
                  cases child with
                  | nil => exact .pure hparsed.append.behind
                  | cons first others =>
                      refine Traced.Ends.any.bind fun _ _ _ => ?_
                      refine (ih parsed.index (first :: others) heap).bind
                        fun rest _ hrest => ?_
                      refine .ite (fun _ => ?_) fun _ => ?_
                      · exact .pure (hparsed.trans hrest.append.behind).behind
                      · exact .pure (hparsed.trans hrest.append.behind).behind

theorem parsePipeLine2_reads (fails : FailurePlan)
    {parse : Nat → SimpleCommandList → Heap →
      Traced Event (Parsed SimpleCommandList)}
    (hparse : ∀ start list heap, (parse start list heap).Ends
      fun parsed log => Covers start parsed.index log)
    (index : Nat) (previous : SimpleCommandList) (heap : Heap) :
    (parsePipeLine2 fails sentence parse index previous heap).Ends
      fun parsed log => Covers index parsed.index log := by
  refine (tokenAt_reads index).bind fun pointer _ hread => ?_
  cases pointer with
  | none => exact .pure .stay
  | some token =>
      refine Traced.Ends.any.bind fun isBar _ _ => ?_
      refine .ite (fun _ => ?_) fun _ => .pure .stay
      cases previous with
      | nil => exact .fault
      | cons node tail =>
          generalize makeNewSimpleCommandList fails heap = made
          cases made with
          | mk created heap =>
              cases created with
              | nil => exact .pure hread.2.append
              | cons first others =>
                  refine (hparse (index + 1) (first :: others) heap).bind
                    fun parsed _ hparsed => ?_
                  exact .ite
                    (fun _ => .pure (hread.2.trans hparsed.append.behind))
                    fun _ => .pure hread.2.append

theorem parsePipeLine_reads (fails : FailurePlan) (fuel index : Nat)
    (list : SimpleCommandList) (heap : Heap) :
    (parsePipeLine fails sentence fuel index list heap).Ends
      fun parsed log => Covers index parsed.index log := by
  induction fuel generalizing index list heap with
  | zero => exact .fault
  | succ fuel ih =>
      refine Traced.Ends.any.bind fun pointer _ _ => ?_
      cases pointer with
      | none => exact .pure .stay
      | some token =>
          refine (parseWord_reads index).bind
            fun ⟨isWord, next⟩ _ hword => ?_
          refine .ite (fun _ => ?_) fun _ => Traced.Ends.any.bind fun _ _ _ =>
            .pure .stay
          -- the word is read once more, as the first element
          have hagain : next - 1 ≤ index := by
            have := hword.1
            omega
          cases list with
          | nil => exact .fault
          | cons node tail =>
              refine (parseSimpleCommand_reads fails _ (next - 1)
                node.simpleCommand.elementList heap).bind
                fun command _ hcommand => ?_
              have hfirst : Covers index command.index _ :=
                fun i hstart => hcommand i (Nat.le_trans hagain hstart)
              refine .ite (fun _ => ?_) fun _ => .pure .stay
              refine (parsePipeLine2_reads fails ?_ command.index _ _).bind
                fun parsed _ hparsed => ?_
              · intro start list heap
                exact Traced.Ends.any.bind fun _ _ _ =>
                  (ih start list heap).weaken fun _ _ h => h.behind
              · exact .ite
                  (fun _ => .pure (hfirst.trans hparsed.append).behind.behind)
                  fun _ => .pure hfirst.append.behind.behind

theorem nextIs_reads (index : Nat) (operator : CString) :
    (nextIs sentence index operator).Ends fun _ log =>
      Covers index (index + 1) log := by
  refine (tokenAt_reads index).bind fun pointer _ hread => ?_
  cases pointer with
  | none => exact .pure hread.2.append
  | some token => exact Traced.Ends.any.weaken fun _ _ _ => hread.2.append

/-- The null pointer behind the last token is where an accepted parse
stops. -/
theorem length_le_of_isNone {pointer : Option CString}
    (hread : pointer = sentence[index]?) (hnone : pointer.isNone = true) :
    sentence.length ≤ index := by
  rw [hread, Option.isNone_iff_eq_none] at hnone
  exact List.getElem?_eq_none_iff.mp hnone

theorem parseInput_reads (fails : FailurePlan) (sentence : List CString)
    (list : SimpleList) (heap : Heap) :
    (parseInput fails sentence list heap).Ends fun result log =>
      result.1 = true → Covers 0 (sentence.length + 1) log := by
  refine Traced.Ends.any.bind fun pointer _ _ => ?_
  cases pointer with
  | none => exact .pure nofun
  | some token =>
      refine (parsePipeLine_reads fails _ 0 _ heap).bind
        fun parsed _ hparsed => ?_
      refine .ite (fun _ => ?_) fun _ => .pure nofun
      refine (nextIs_reads parsed.index ampersand).bind
        fun isAmpersand _ hnext => ?_
      refine .ite (fun _ => ?_) fun _ => ?_
      · refine (tokenAt_reads _).bind fun last _ hlast =>
          .pure fun haccept i _ hi => ?_
        have hle := length_le_of_isNone hlast.1 haccept
        exact (hparsed.trans (hnext.trans hlast.2.append)).behind i
          (Nat.zero_le i) (by omega)
      · refine (tokenAt_reads _).bind fun last _ hlast =>
          .pure fun haccept i _ hi => ?_
        have hle := length_le_of_isNone hlast.1 haccept
        exact (hparsed.trans hlast.2.append.behind).behind i
          (Nat.zero_le i) (by omega)

/-- **A parse that accepts has read every token, and the null pointer behind
the last one**: the log of `parseInput_reads_within` is not an empty one. -/
theorem parseInput_reads_all {list list' : SimpleList} {heap heap' : Heap}
    (h : Parser.parseInput fails sentence list heap =
      .ok (true, list', heap')) :
    ∀ index ≤ sentence.length,
      .token index ∈ (parseInput fails sentence list heap).log := by
  rw [← outcome_parseInput list heap] at h
  have hreads := parseInput_reads fails sentence list heap _ h rfl
  exact fun index hindex =>
    hreads index (Nat.zero_le index) (Nat.lt_succ_of_le hindex)

end Covers

end OsLabs.Iwish.ParserTrace
