import OsLabs.Iwish.Parser

/-!
# The command-line language

The language `parseInput` is meant to recognise, independently of how it does
so.  It is given twice: as the productions

    list ::= pipe | pipe '&'          cmd  ::= word elem*
    pipe ::= cmd | cmd '|' pipe       elem ::= word | '<' word | '>' word

and as abstract syntax, where a `CommandLine` cannot be built unless it is a
sentence: a `Word` carries the proof that its characters are word characters,
a `Stage` has a program word before its elements, and there is a first stage.
`derivesList_iff` says that the two agree.
-/

namespace OsLabs.Iwish.Grammar

open OsLabs.Posix
open OsLabs.Iwish.Parser

/-- The word characters: ASCII letters, `-`, `.`, `/` and `_`. -/
def isWordByte (c : UInt8) : Bool := isAsciiLetter c || isPathPunctuation c

/-- A token all of whose characters are word characters. -/
def isWord (token : CString) : Bool := token.bytes.all isWordByte

/-! ## Productions -/

/-- `elem ::= word | '<' word | '>' word` -/
inductive DerivesElement : List CString → Prop
  | word {w : CString} (hw : isWord w = true) : DerivesElement [w]
  | input {w : CString} (hw : isWord w = true) : DerivesElement [lessThan, w]
  | output {w : CString} (hw : isWord w = true) :
      DerivesElement [greaterThan, w]

/-- `elem*` -/
inductive DerivesElements : List CString → Prop
  | nil : DerivesElements []
  | cons {element rest : List CString} (head : DerivesElement element)
      (tail : DerivesElements rest) : DerivesElements (element ++ rest)

/-- `cmd ::= word elem*` -/
inductive DerivesCommand : List CString → Prop
  | mk {w : CString} {rest : List CString} (hw : isWord w = true)
      (tail : DerivesElements rest) : DerivesCommand (w :: rest)

/-- `pipe ::= cmd | cmd '|' pipe` -/
inductive DerivesPipe : List CString → Prop
  | last {command : List CString} (head : DerivesCommand command) :
      DerivesPipe command
  | cons {command rest : List CString} (head : DerivesCommand command)
      (tail : DerivesPipe rest) : DerivesPipe (command ++ bar :: rest)

/-- `list ::= pipe | pipe '&'` -/
inductive DerivesList : List CString → Prop
  | foreground {pipe : List CString} (h : DerivesPipe pipe) : DerivesList pipe
  | background {pipe : List CString} (h : DerivesPipe pipe) :
      DerivesList (pipe ++ [ampersand])

/-! ## Abstract syntax -/

/-- A word of the language. -/
structure Word where
  text : CString
  isWord : isWord text = true
  deriving DecidableEq

/-- An argument, or a redirection to or from the file named by a word. -/
inductive Element where
  | word (w : Word)
  | redirect (isInput : Bool) (w : Word)
  deriving DecidableEq

/-- One command of a pipeline. -/
structure Stage where
  program : Word
  arguments : List Element
  deriving DecidableEq

/-- A pipeline, and whether it is to run in the background. -/
structure CommandLine where
  first : Stage
  others : List Stage
  daemon : Bool
  deriving DecidableEq

/-- The operator of a redirection. -/
def operator (isInput : Bool) : CString :=
  if isInput then lessThan else greaterThan

def Element.tokens : Element → List CString
  | .word w => [w.text]
  | .redirect isInput w => [operator isInput, w.text]

def elementTokens (elements : List Element) : List CString :=
  elements.flatMap Element.tokens

/-- A stage as its elements, the program word being the first. -/
def Stage.elements (stage : Stage) : List Element :=
  .word stage.program :: stage.arguments

def Stage.tokens (stage : Stage) : List CString := elementTokens stage.elements

def pipelineTokens : Stage → List Stage → List CString
  | stage, [] => stage.tokens
  | stage, next :: others => stage.tokens ++ bar :: pipelineTokens next others

def daemonTokens (daemon : Bool) : List CString :=
  if daemon then [ampersand] else []

def CommandLine.stages (line : CommandLine) : List Stage :=
  line.first :: line.others

def CommandLine.tokens (line : CommandLine) : List CString :=
  pipelineTokens line.first line.others ++ daemonTokens line.daemon

@[simp] theorem elementTokens_nil : elementTokens [] = [] := rfl

@[simp] theorem elementTokens_cons (element : Element)
    (elements : List Element) :
    elementTokens (element :: elements) =
      element.tokens ++ elementTokens elements := rfl

@[simp] theorem elementTokens_append (front elements : List Element) :
    elementTokens (front ++ elements) =
      elementTokens front ++ elementTokens elements := by
  simp [elementTokens]

/-- Every element has a token of its own. -/
theorem length_le_elementTokens (elements : List Element) :
    elements.length ≤ (elementTokens elements).length := by
  induction elements with
  | nil => exact Nat.le_refl 0
  | cons element elements ih =>
      have hpos : 1 ≤ element.tokens.length := by
        cases element <;> simp [Element.tokens]
      simp only [List.length_cons, elementTokens_cons, List.length_append]
      omega

theorem pipelineTokens_eq_cons (stage : Stage) (others : List Stage) :
    ∃ rest, pipelineTokens stage others = stage.program.text :: rest := by
  cases others with
  | nil => exact ⟨_, rfl⟩
  | cons next others => exact ⟨_, rfl⟩

theorem length_le_pipelineTokens (stage : Stage) (others : List Stage) :
    others.length ≤ (pipelineTokens stage others).length := by
  induction others generalizing stage with
  | nil => exact Nat.zero_le _
  | cons next others ih =>
      have hrest := ih next
      simp only [pipelineTokens, List.length_append, List.length_cons]
      omega

/-- Two words, for examples. -/
def tokenA : CString := ⟨[97], by decide⟩

def tokenB : CString := ⟨[98], by decide⟩

/-- A stage without arguments. -/
def Stage.ofToken (token : CString) (h : Grammar.isWord token = true) : Stage :=
  ⟨⟨token, h⟩, []⟩

/-! ## The operators are not words -/

theorem operator_ne_word (isInput : Bool) (w : Word) :
    operator isInput ≠ w.text := by
  intro h
  have hw := w.isWord
  rw [← h] at hw
  cases isInput <;> exact absurd hw (by decide)

theorem bar_ne_word (w : Word) : w.text ≠ bar := by
  intro h
  have hw := w.isWord
  rw [h] at hw
  exact absurd hw (by decide)

theorem ampersand_ne_word (w : Word) : w.text ≠ ampersand := by
  intro h
  have hw := w.isWord
  rw [h] at hw
  exact absurd hw (by decide)

/-- The tokens of a line are words and operators. -/
theorem mem_elementTokens {elements : List Element} {token : CString}
    (h : token ∈ elementTokens elements) :
    isWord token = true ∨ token = lessThan ∨ token = greaterThan := by
  obtain ⟨element, -, htoken⟩ := List.mem_flatMap.mp h
  cases element with
  | word w =>
      rw [List.mem_singleton.mp htoken]
      exact Or.inl w.isWord
  | redirect isInput w =>
      simp only [Element.tokens, List.mem_cons, List.not_mem_nil,
        or_false] at htoken
      rcases htoken with rfl | rfl
      · cases isInput
        · exact Or.inr (Or.inr rfl)
        · exact Or.inr (Or.inl rfl)
      · exact Or.inl w.isWord

theorem mem_pipelineTokens {stage : Stage} {others : List Stage}
    {token : CString} (h : token ∈ pipelineTokens stage others) :
    isWord token = true ∨ token = lessThan ∨ token = greaterThan ∨
      token = bar := by
  have hstage : ∀ stage : Stage, token ∈ stage.tokens →
      isWord token = true ∨ token = lessThan ∨ token = greaterThan ∨
        token = bar := by
    intro stage hmem
    rcases mem_elementTokens hmem with hw | hless | hgreater
    · exact Or.inl hw
    · exact Or.inr (Or.inl hless)
    · exact Or.inr (Or.inr (Or.inl hgreater))
  induction others generalizing stage with
  | nil => exact hstage stage h
  | cons next others ih =>
      rcases List.mem_append.mp h with hmem | hrest
      · exact hstage stage hmem
      · rcases List.mem_cons.mp hrest with hbar | hothers
        · exact Or.inr (Or.inr (Or.inr hbar))
        · exact ih hothers

/-- No element begins with `|` or `&`. -/
theorem Element.tokens_head (element : Element) :
    ∃ head rest, element.tokens = head :: rest ∧
      head ≠ bar ∧ head ≠ ampersand := by
  cases element with
  | word w => exact ⟨w.text, [], rfl, bar_ne_word w, ampersand_ne_word w⟩
  | redirect isInput w =>
      refine ⟨operator isInput, [w.text], rfl, ?_, ?_⟩ <;>
        cases isInput <;> decide

/-! ## The productions and the abstract syntax agree -/

theorem derivesElement_iff (tokens : List CString) :
    DerivesElement tokens ↔ ∃ element : Element, element.tokens = tokens := by
  constructor
  · intro h
    cases h with
    | word hw => exact ⟨.word ⟨_, hw⟩, rfl⟩
    | input hw => exact ⟨.redirect true ⟨_, hw⟩, rfl⟩
    | output hw => exact ⟨.redirect false ⟨_, hw⟩, rfl⟩
  · rintro ⟨element, rfl⟩
    cases element with
    | word w => exact .word w.isWord
    | redirect isInput w =>
        cases isInput with
        | true => exact .input w.isWord
        | false => exact .output w.isWord

theorem derivesElements_iff (tokens : List CString) :
    DerivesElements tokens ↔ ∃ elements, elementTokens elements = tokens := by
  constructor
  · intro h
    induction h with
    | nil => exact ⟨[], rfl⟩
    | cons head _ ih =>
        obtain ⟨element, rfl⟩ := (derivesElement_iff _).mp head
        obtain ⟨elements, rfl⟩ := ih
        exact ⟨element :: elements, rfl⟩
  · rintro ⟨elements, rfl⟩
    induction elements with
    | nil => exact .nil
    | cons element elements ih =>
        exact .cons ((derivesElement_iff _).mpr ⟨element, rfl⟩) ih

theorem derivesCommand_iff (tokens : List CString) :
    DerivesCommand tokens ↔ ∃ stage : Stage, stage.tokens = tokens := by
  constructor
  · rintro ⟨hw, tail⟩
    obtain ⟨elements, rfl⟩ := (derivesElements_iff _).mp tail
    exact ⟨⟨⟨_, hw⟩, elements⟩, rfl⟩
  · rintro ⟨stage, rfl⟩
    exact .mk stage.program.isWord ((derivesElements_iff _).mpr ⟨_, rfl⟩)

theorem derivesPipe_iff (tokens : List CString) :
    DerivesPipe tokens ↔
      ∃ stage others, pipelineTokens stage others = tokens := by
  constructor
  · intro h
    induction h with
    | last head =>
        obtain ⟨stage, rfl⟩ := (derivesCommand_iff _).mp head
        exact ⟨stage, [], rfl⟩
    | cons head _ ih =>
        obtain ⟨stage, rfl⟩ := (derivesCommand_iff _).mp head
        obtain ⟨next, others, rfl⟩ := ih
        exact ⟨stage, next :: others, rfl⟩
  · rintro ⟨stage, others, rfl⟩
    induction others generalizing stage with
    | nil => exact .last ((derivesCommand_iff _).mpr ⟨stage, rfl⟩)
    | cons next others ih =>
        exact .cons ((derivesCommand_iff _).mpr ⟨stage, rfl⟩) (ih next)

/-- The sentences of the grammar are the token lists of the command lines. -/
theorem derivesList_iff (tokens : List CString) :
    DerivesList tokens ↔ ∃ line : CommandLine, line.tokens = tokens := by
  constructor
  · intro h
    cases h with
    | foreground h =>
        obtain ⟨stage, others, rfl⟩ := (derivesPipe_iff _).mp h
        exact ⟨⟨stage, others, false⟩, List.append_nil _⟩
    | background h =>
        obtain ⟨stage, others, rfl⟩ := (derivesPipe_iff _).mp h
        exact ⟨⟨stage, others, true⟩, rfl⟩
  · rintro ⟨⟨stage, others, daemon⟩, rfl⟩
    have hpipe := (derivesPipe_iff _).mpr ⟨stage, others, rfl⟩
    cases daemon with
    | false =>
        have hnil : CommandLine.tokens ⟨stage, others, false⟩ =
            pipelineTokens stage others := List.append_nil _
        rw [hnil]
        exact .foreground hpipe
    | true => exact .background hpipe

end OsLabs.Iwish.Grammar
