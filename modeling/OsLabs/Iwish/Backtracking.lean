import OsLabs.Iwish.PipelineSpec

/-!
# What a failed parse function leaves behind

A parse function that returns false should leave the index where it was, and
nothing attached to the node it was given.  With every request granted all of
them do, on every array and from every index, except `parsePipeLine2`: it
saves the index a second time behind the `|`, and goes back to there.
`backtracks_iff` says when that shows.
-/

namespace OsLabs.Iwish.Backtracking

open OsLabs.Posix
open OsLabs.Iwish.ParserTokens
open OsLabs.Iwish.Parser
open OsLabs.Iwish.Grammar
open OsLabs.Iwish.ParserSpec
open OsLabs.Iwish.PipelineSpec

/-! ## The discipline -/

/-- If the call returns false, then with the index it started at and with a
node that is bare. -/
def Restores {σ : Type} (index : Nat) (bare : σ → Prop)
    (outcome : Except Fault (Parsed σ)) : Prop :=
  ∀ parsed, outcome = .ok parsed → parsed.ok = false →
    parsed.index = index ∧ bare parsed.node

/-- The element is as it was, or its redirection pointer is null. -/
def ElementBare (before after : SimpleCommandElement) : Prop :=
  after = before ∨ after = { before with redirectionPointer := none }

/-- So is the first element of the list, and the nodes behind it are those
that were there. -/
def ElementsBare (before after : SimpleCommandElementList) : Prop :=
  after = before ∨ ∃ node next element,
    before = node :: next ∧ after = { node with element := element } :: next ∧
      ElementBare node.element element

/-- The list is as it was, or the `next` pointer of its first node is null. -/
def CommandsBare (before after : SimpleCommandList) : Prop :=
  after = before ∨ ∃ node next, before = node :: next ∧ after = [node]

/-- The discipline of all functions, for calls that start at `index`. -/
structure Backtracks (sentence : List CString) (index : Nat) : Prop where
  redirection : ∀ redirection next after,
    parseRedirection sentence index redirection = .ok (false, next, after) →
      next = index ∧
        after.map Redirection.word = redirection.map Redirection.word
  word : ∀ next, parseWord sentence index = .ok (false, next) → next = index
  element : ∀ element heap, Restores index (ElementBare element)
    (parseSimpleCommandElement noFailures sentence index element heap)
  command : ∀ fuel list heap, Restores index (ElementsBare list)
    (parseSimpleCommand noFailures sentence fuel index list heap)
  pipeLine2 : ∀ fuel previous heap, Restores index (CommandsBare previous)
    (parsePipeLine2 noFailures sentence
      (parsePipeLine noFailures sentence fuel) index previous heap)
  pipeLine : ∀ fuel list heap, Restores index (CommandsBare list)
    (parsePipeLine noFailures sentence fuel index list heap)

/-- A `|` that no word follows. -/
def BarStranded (sentence : List CString) (index : Nat) : Prop :=
  sentence[index]? = some bar ∧
    ∀ token, sentence[index + 1]? = some token → isWord token = false

section

variable {sentence : List CString} {index : Nat} {token : CString}

/-! ## Words, redirections and elements -/

theorem parseWord_restores {next : Nat}
    (h : parseWord sentence index = .ok (false, next)) : next = index := by
  cases hread : pointerAt sentence index with
  | error fault =>
      rw [parseWord, hread] at h
      cases h
  | ok pointer =>
      cases pointer with
      | none =>
          rw [parseWord_null hread] at h
          cases h
          rfl
      | some token =>
          rw [parseWord_eq hread] at h
          by_cases hword : isWord token
          · simp [hword] at h
          · simp only [hword] at h
            cases h
            rfl

theorem parseRedirectionWord_restores {redirection after : Option Redirection}
    {flag : Int} {next : Nat}
    (h : parseRedirectionWord sentence index redirection flag =
      .ok (false, next, after)) :
    next = index ∧
      after.map Redirection.word = redirection.map Redirection.word := by
  cases redirection with
  | none => cases h
  | some redirection =>
      obtain ⟨⟨ok, behind⟩, -, h⟩ := except_bind_eq_ok.mp h
      cases ok with
      | true =>
          obtain ⟨word, -, h⟩ := except_bind_eq_ok.mp h
          cases h
      | false =>
          cases h
          exact ⟨rfl, rfl⟩

theorem parseRedirection_restores {redirection after : Option Redirection}
    {next : Nat}
    (h : parseRedirection sentence index redirection =
      .ok (false, next, after)) :
    next = index ∧
      after.map Redirection.word = redirection.map Redirection.word := by
  obtain ⟨pointer, -, h⟩ := except_bind_eq_ok.mp h
  cases pointer with
  | none =>
      cases h
      exact ⟨rfl, rfl⟩
  | some token =>
      simp only at h
      by_cases hless : token = lessThan
      · rw [if_pos hless] at h
        exact parseRedirectionWord_restores h
      · rw [if_neg hless] at h
        by_cases hgreater : token = greaterThan
        · rw [if_pos hgreater] at h
          exact parseRedirectionWord_restores h
        · rw [if_neg hgreater] at h
          cases h
          exact ⟨rfl, rfl⟩

theorem parseSimpleCommandElement_restores (fails : FailurePlan)
    (element : SimpleCommandElement) (heap : Heap) :
    Restores index (ElementBare element)
      (parseSimpleCommandElement fails sentence index element heap) := by
  intro parsed h hfalse
  obtain ⟨pointer, -, h⟩ := except_bind_eq_ok.mp h
  cases pointer with
  | none =>
      cases h
      exact ⟨rfl, Or.inl rfl⟩
  | some token =>
      obtain ⟨⟨hisWord, next⟩, -, h⟩ := except_bind_eq_ok.mp h
      cases hisWord with
      | true =>
          cases h
          cases hfalse
      | false =>
          obtain ⟨⟨ok, behind, redirection⟩, -, h⟩ := except_bind_eq_ok.mp h
          cases ok with
          | true =>
              cases h
              cases hfalse
          | false =>
              cases h
              exact ⟨rfl, Or.inr rfl⟩

/-! ## Commands -/

theorem parseSimpleCommand_restores (fuel : Nat)
    (list : SimpleCommandElementList) (heap : Heap) :
    Restores index (ElementsBare list)
      (parseSimpleCommand noFailures sentence fuel index list heap) := by
  intro parsed h hfalse
  cases fuel with
  | zero => cases h
  | succ fuel =>
      cases parseSimpleCommand_returns h with
      | atEnd => exact ⟨rfl, Or.inl rfl⟩
      | noElement hread helement hok =>
          have hbare := parseSimpleCommandElement_restores noFailures _ _ _
            helement hok
          exact ⟨rfl, Or.inr ⟨_, _, _, rfl, rfl, hbare.2⟩⟩
      | refused hread helement hok hnew => cases hnew
      | accepted => cases hfalse

/-- A command that begins with a word is accepted. -/
theorem parseSimpleCommand_ok {fuel : Nat} {list : SimpleCommandElementList}
    {heap : Heap} {parsed : Parsed SimpleCommandElementList}
    (htoken : pointerAt sentence index = .ok (some token))
    (hword : isWord token = true)
    (h : parseSimpleCommand noFailures sentence fuel index list heap =
      .ok parsed) : parsed.ok = true := by
  cases fuel with
  | zero => cases h
  | succ fuel =>
      cases parseSimpleCommand_returns h with
      | atEnd hread => cases hread.symm.trans htoken
      | noElement hread helement hok =>
          rw [parseSimpleCommandElement, htoken, except_ok_bind] at helement
          simp only [parseWord_eq htoken, hword, if_true,
            except_ok_bind] at helement
          cases helement
          cases hok
      | refused hread helement hok hnew => cases hnew
      | accepted => rfl

/-! ## Pipelines -/

/-- So is a pipeline that does. -/
theorem parsePipeLine_ok {fuel : Nat} {list : SimpleCommandList} {heap : Heap}
    {parsed : Parsed SimpleCommandList}
    (htoken : pointerAt sentence index = .ok (some token))
    (hword : isWord token = true)
    (h : parsePipeLine noFailures sentence fuel index list heap =
      .ok parsed) : parsed.ok = true := by
  cases fuel with
  | zero => cases h
  | succ fuel =>
      cases parsePipeLine_returns h with
      | noWord hread hnone =>
          have hpointer := Except.ok.inj (hread.symm.trans htoken)
          exact absurd hword (by rw [hnone token hpointer]; decide)
      | noCommand hread _ hcommand hok =>
          rw [← hok]
          exact parseSimpleCommand_ok htoken hword hcommand
      | accepted => rfl

/-- One that does not is given up at once. -/
theorem parsePipeLine_refused (fails : FailurePlan) (fuel : Nat)
    (list : SimpleCommandList) (heap : Heap) {pointer : Option CString}
    (hread : pointerAt sentence index = .ok pointer)
    (hnone : ∀ token, pointer = some token → isWord token = false) :
    parsePipeLine fails sentence (fuel + 1) index list heap =
      .ok ⟨false, index, list, heap⟩ := by
  rw [parsePipeLine, hread, except_ok_bind]
  cases pointer with
  | none => rfl
  | some token =>
      simp only [parseWord_eq hread, hnone token rfl, except_ok_bind]
      rfl

theorem parsePipeLine_restores (fuel : Nat) (list : SimpleCommandList)
    (heap : Heap) :
    Restores index (CommandsBare list)
      (parsePipeLine noFailures sentence fuel index list heap) := by
  intro parsed h hfalse
  cases fuel with
  | zero => cases h
  | succ fuel =>
      cases parsePipeLine_returns h with
      | noWord => exact ⟨rfl, Or.inl rfl⟩
      | noCommand hread hword hcommand hok =>
          have haccepted := parseSimpleCommand_ok hread hword hcommand
          rw [hok] at haccepted
          cases haccepted
      | accepted => cases hfalse

theorem word_of_not_stranded (hbar : ¬ BarStranded sentence index)
    (htoken : sentence[index]? = some bar) :
    ∃ token, sentence[index + 1]? = some token ∧ isWord token = true := by
  by_contra hno
  refine hbar ⟨htoken, fun token hget => ?_⟩
  exact eq_false_of_ne_true fun hword => hno ⟨token, hget, hword⟩

/-- Behind a `|` that is not stranded the call inside does not fail. -/
theorem parsePipeLine2_restores (hbar : ¬ BarStranded sentence index)
    (fuel : Nat) (previous : SimpleCommandList) (heap : Heap) :
    Restores index (CommandsBare previous)
      (parsePipeLine2 noFailures sentence
        (parsePipeLine noFailures sentence fuel) index previous heap) := by
  intro parsed h hfalse
  cases parsePipeLine2_returns h with
  | noBar => exact ⟨rfl, Or.inl rfl⟩
  | refused hread hnew => cases hnew
  | failed hread hnew hinside hok =>
      obtain ⟨word, hget, hword⟩ :=
        word_of_not_stranded hbar (getElem?_of_pointerAt hread)
      have hlt := (List.getElem?_eq_some_iff.mp hget).1
      have hnext : pointerAt sentence (index + 1) = .ok (some word) := by
        rw [pointerAt_eq (Nat.le_of_lt hlt), hget]
      have haccepted := parsePipeLine_ok hnext hword hinside
      rw [hok] at haccepted
      cases haccepted
  | continued => cases hfalse

theorem makeNewSimpleCommandList_granted (heap : Heap) :
    ∃ node heap', makeNewSimpleCommandList noFailures heap =
      ([node], heap') :=
  ⟨_, _, rfl⟩

/-- The index stays behind a stranded `|`. -/
theorem parsePipeLine2_strands (hbar : BarStranded sentence index)
    (fuel : Nat) (node : SimpleCommandNode) (tail : SimpleCommandList)
    (heap : Heap) :
    ∃ heap', parsePipeLine2 noFailures sentence
        (parsePipeLine noFailures sentence (fuel + 1)) index (node :: tail)
        heap = .ok ⟨false, index + 1, [node], heap'⟩ := by
  have hlt := (List.getElem?_eq_some_iff.mp hbar.1).1
  have hread : pointerAt sentence index = .ok (some bar) := by
    rw [pointerAt_eq (Nat.le_of_lt hlt), hbar.1]
  obtain ⟨created, heap', hcreated⟩ := makeNewSimpleCommandList_granted heap
  simp only [parsePipeLine2, hread, except_ok_bind, if_true, hcreated,
    parsePipeLine_refused noFailures fuel _ _ (pointerAt_eq hlt) hbar.2]
  exact ⟨_, rfl⟩

end

/-! ## All of them -/

/-- **Exactly when the parse functions backtrack.**  A stranded `|` is what
`parsePipeLine2` does not go back over. -/
theorem backtracks_iff (sentence : List CString) (index : Nat) :
    Backtracks sentence index ↔ ¬ BarStranded sentence index := by
  constructor
  · intro h hbar
    obtain ⟨heap, hstrands⟩ :=
      parsePipeLine2_strands hbar 0 ⟨0, ⟨[]⟩⟩ [] Heap.empty
    have hindex := (h.pipeLine2 1 _ _ _ hstrands rfl).1
    exact Nat.succ_ne_self index hindex
  · intro hbar
    exact
      { redirection := fun _ _ _ => parseRedirection_restores
        word := fun _ => parseWord_restores
        element := parseSimpleCommandElement_restores noFailures
        command := parseSimpleCommand_restores
        pipeLine2 := parsePipeLine2_restores hbar
        pipeLine := parsePipeLine_restores }

/-- The array of one `|`: the call fails and leaves the index at 1. -/
theorem parsePipeLine2_leaves_bar :
    parsePipeLine2 noFailures [bar] (parsePipeLine noFailures [bar] 2) 0
        [⟨0, ⟨[⟨1, uninitialisedElement⟩]⟩⟩] ⟨2, [.alloc 1, .alloc 0]⟩ =
      .ok ⟨false, 1, [⟨0, ⟨[⟨1, uninitialisedElement⟩]⟩⟩],
        ⟨4, [.free 2, .free 3, .alloc 3, .alloc 2, .alloc 1, .alloc 0]⟩⟩ ∧
      ¬ Backtracks [bar] 0 := by
  refine ⟨rfl, fun h => ?_⟩
  have hindex := (h.pipeLine2 2 [⟨0, ⟨[⟨1, uninitialisedElement⟩]⟩⟩]
    ⟨2, [.alloc 1, .alloc 0]⟩ _ rfl rfl).1
  exact Nat.one_ne_zero hindex

end OsLabs.Iwish.Backtracking
