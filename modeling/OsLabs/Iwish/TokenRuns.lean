import OsLabs.Posix.MaximalRuns
import OsLabs.Iwish.FrontEnd

/-!
# What `tokenise` makes of the spaces

`tokenise_exact`: the token array holds the maximal space-free runs of the
line, however many there are and however they are spaced.
-/

namespace OsLabs.Iwish.TokenRuns

open OsLabs.Posix
open OsLabs.Iwish.Reader
open OsLabs.Iwish.FrontEnd

/-- `tokenise`, given a buffer with the string `bytes` in it and anything
behind its terminator, returns an array of pointers to `tokens` that ends with
a null pointer. -/
def TokenisesTo (bytes : List UInt8) (tokens : List CString) : Prop :=
  ∀ (id : Nat) (spare : List (Option UInt8)) (heap : Heap),
    ∃ strings input heap',
      tokenise noFailures ⟨id, bytes.map some ++ some 0 :: spare⟩ heap =
        .ok (some strings, input, heap') ∧
      loadSentence input strings = .ok tokens

/-- `' '` -/
def space : UInt8 := 32

theorem isSpace_space : isSpace space = true := rfl

theorem isSpace_nul : isSpace 0 = false := rfl

variable {bytes bytes' : List UInt8} {tokens : List CString}

/-- A string is determined by its bytes. -/
theorem bytes_injective (s s' : CString) (h : s.bytes = s'.bytes) : s = s' := by
  cases s with
  | mk bytes hnul =>
      cases s' with
      | mk bytes' hnul' =>
          cases h
          rfl

/-- A string tokenises to the strings that are its runs. -/
theorem tokenisesTo_of_runs (hnul : (0 : UInt8) ∉ bytes)
    (htokens : tokens.map CString.bytes = runs isSpace bytes) :
    TokenisesTo bytes tokens := by
  intro id spare heap
  obtain ⟨strings, input, heap', found, hcall, hload, hfound⟩ :=
    tokenise_eq id hnul spare heap
  have heq : found = tokens :=
    (List.map_inj_right bytes_injective).mp (hfound.trans htokens.symm)
  rw [heq] at hload
  exact ⟨strings, input, heap', hcall, hload⟩

/-- The tokens joined by single spaces. -/
def joined (tokens : List CString) : List UInt8 :=
  [space].intercalate (tokens.map CString.bytes)

theorem nul_not_mem_joined (tokens : List CString) :
    (0 : UInt8) ∉ joined tokens := by
  unfold joined
  induction tokens with
  | nil => exact List.not_mem_nil
  | cons token tokens ih =>
      cases tokens with
      | nil =>
          rw [List.map_cons, List.map_nil, List.intercalate_singleton]
          exact token.nulFree
      | cons next tokens =>
          rw [List.map_cons, List.map_cons, List.intercalate_cons_cons]
          intro hmem
          rcases List.mem_append.mp hmem with hfront | hrest
          · rcases List.mem_append.mp hfront with htoken | hspace
            · exact token.nulFree htoken
            · cases List.mem_singleton.mp hspace
          · exact ih hrest

/-- **`tokenise` is exact.**  It returns the maximal space-free runs of the
line, none of them empty, and a null pointer; the same for every line that is
spaced differently, and for the tokens joined again. -/
theorem tokenise_exact (hnul : (0 : UInt8) ∉ bytes) :
    ∃ tokens, TokenisesTo bytes tokens ∧
      tokens.map CString.bytes = maximalRuns isSpace bytes ∧
      (∀ token ∈ tokens, token.bytes ≠ []) ∧
      (∀ bytes', SameSpacing isSpace bytes bytes' →
        TokenisesTo bytes' tokens) ∧
      TokenisesTo (joined tokens) tokens := by
  obtain ⟨tokens, htokens⟩ := exists_tokens (runs isSpace bytes)
    fun run hrun hmem => hnul (mem_of_mem_runs hrun hmem)
  have hrun : ∀ token ∈ tokens, token.bytes ∈ runs isSpace bytes := by
    intro token htoken
    rw [← htokens]
    exact List.mem_map_of_mem htoken
  have hjoined : runs isSpace (joined tokens) = tokens.map CString.bytes := by
    apply runs_intercalate isSpace_space
    intro run hmem
    rw [htokens] at hmem
    exact ⟨ne_nil_of_mem_runs hmem, fun c => delimiterFree_of_mem_runs hmem⟩
  refine ⟨tokens, tokenisesTo_of_runs hnul htokens, ?_, ?_, ?_, ?_⟩
  · rw [htokens, runs_eq_maximalRuns]
  · exact fun token htoken => ne_nil_of_mem_runs (hrun token htoken)
  · intro bytes' hspacing
    apply tokenisesTo_of_runs
    · exact fun hmem => hnul ((hspacing.mem_iff isSpace_nul).mpr hmem)
    · rw [htokens, hspacing.runs_eq]
  · exact tokenisesTo_of_runs (nul_not_mem_joined tokens) hjoined.symm

/-- ` ls  -l`, and the tab is an ordinary byte. -/
theorem tokenise_exact_spaced :
    ∃ tokens, TokenisesTo [32, 108, 115, 32, 32, 9, 108] tokens ∧
      tokens.map CString.bytes =
        maximalRuns isSpace [32, 108, 115, 32, 32, 9, 108] := by
  obtain ⟨tokens, htokenises, hruns, -⟩ :=
    tokenise_exact (show (0 : UInt8) ∉ [32, 108, 115, 32, 32, 9, 108] by decide)
  exact ⟨tokens, htokenises, hruns⟩

end OsLabs.Iwish.TokenRuns
