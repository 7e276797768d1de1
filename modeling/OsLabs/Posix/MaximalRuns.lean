import Mathlib.Logic.Relation
import OsLabs.Posix.Strtok

/-!
# Maximal runs

`runs` cuts a list at its delimiters and throws the empty pieces away.  Here
it is what its name says: `runs_eq_maximalRuns` lists, by position, the places
where a maximal run starts, and what stands there.

Two lists with `SameSpacing` differ only in how many delimiters stand at
places that have one already, or at the ends; their runs are the same.
-/

namespace OsLabs.Posix

variable {β : Type}

/-! ## The runs by position -/

/-- Whether a maximal run starts at position `i`: the element there is not a
delimiter, and the one before it, if any, is. -/
def startsRun (isDelimiter : β → Bool) (l : List β) (i : Nat) : Bool :=
  l[i]?.any (fun c => !isDelimiter c) &&
    (i == 0 || l[i - 1]?.any isDelimiter)

/-- What stands from position `i` on, up to the next delimiter. -/
def runFrom (isDelimiter : β → Bool) (l : List β) (i : Nat) : List β :=
  (l.drop i).takeWhile fun c => !isDelimiter c

/-- The maximal runs of a list, in the order of their positions. -/
def maximalRuns (isDelimiter : β → Bool) (l : List β) : List (List β) :=
  ((List.range l.length).filter (startsRun isDelimiter l)).map
    (runFrom isDelimiter l)

example : maximalRuns (· == 0) [0, 5, 6, 0, 0, 7] = [[5, 6], [7]] := by
  decide

section Maximal

variable {isDelimiter : β → Bool} {front l token : List β} {c d : β}

/-- A run goes up to the next delimiter. -/
theorem runs_cons_token (hc : isDelimiter c = false) :
    runs isDelimiter (c :: l) =
      (c :: l).takeWhile (fun d => !isDelimiter d) ::
        runs isDelimiter (l.dropWhile fun d => !isDelimiter d) := by
  have hhead : (c :: l).takeWhile (fun d => !isDelimiter d) =
      c :: l.takeWhile fun d => !isDelimiter d :=
    List.takeWhile_cons_of_pos (by simp [hc])
  have htoken : ∀ d ∈ c :: l.takeWhile (fun d => !isDelimiter d),
      isDelimiter d = false := by
    intro d hd
    rcases List.mem_cons.mp hd with rfl | hd
    · exact hc
    · have hall := List.all_eq_true.mp List.all_takeWhile d hd
      simpa using hall
  have hsplit : c :: l = (c :: l.takeWhile fun d => !isDelimiter d) ++
      l.dropWhile fun d => !isDelimiter d := by
    rw [List.cons_append, List.takeWhile_append_dropWhile]
  rw [hhead]
  cases hrest : l.dropWhile fun d => !isDelimiter d with
  | nil =>
      rw [hrest, List.append_nil] at hsplit
      rw [hsplit, runs_token (List.cons_ne_nil _ _) htoken]
      rfl
  | cons d more =>
      have hd : isDelimiter d = true := by
        have hnot := List.head_dropWhile_not (fun d => !isDelimiter d) (l := l)
          (by rw [hrest]; exact List.cons_ne_nil _ _)
        simpa [hrest] using hnot
      rw [hrest] at hsplit
      rw [hsplit, runs_token_delimiter (List.cons_ne_nil _ _) htoken hd,
        runs_delimiter hd]

/-- The maximal runs that start behind the first `front` of a list. -/
def runsBehind (isDelimiter : β → Bool) (front l : List β) : List (List β) :=
  ((List.range' front.length l.length).filter
    (startsRun isDelimiter (front ++ l))).map
      (runFrom isDelimiter (front ++ l))

/-- Whether a run may start right behind `front`. -/
def atBoundary (isDelimiter : β → Bool) (front : List β) : Bool :=
  front.getLast?.all isDelimiter

theorem startsRun_behind (isDelimiter : β → Bool) (front : List β) (c : β)
    (l : List β) :
    startsRun isDelimiter (front ++ c :: l) front.length =
      (!isDelimiter c && atBoundary isDelimiter front) := by
  have hat : (front ++ c :: l)[front.length]? = some c := by simp
  unfold startsRun atBoundary
  rw [hat]
  rcases List.eq_nil_or_concat front with rfl | ⟨before, d, rfl⟩
  · simp
  · have hbefore : (before ++ [d] ++ c :: l)[(before ++ [d]).length - 1]? =
        some d := by simp
    rw [List.concat_eq_append, hbefore]
    simp

/-- The run that starts right behind `front`, if any, and the later ones. -/
theorem runsBehind_cons (isDelimiter : β → Bool) (front : List β) (c : β)
    (l : List β) :
    runsBehind isDelimiter front (c :: l) =
      if !isDelimiter c && atBoundary isDelimiter front then
        (c :: l).takeWhile (fun d => !isDelimiter d) ::
          runsBehind isDelimiter (front ++ [c]) l
      else runsBehind isDelimiter (front ++ [c]) l := by
  have hmove : front ++ [c] ++ l = front ++ c :: l :=
    List.append_cons _ _ _ ▸ rfl
  have hlength : (front ++ [c]).length = front.length + 1 := by simp
  have hfrom : runFrom isDelimiter (front ++ c :: l) front.length =
      (c :: l).takeWhile fun d => !isDelimiter d := by
    rw [runFrom, List.drop_left]
  unfold runsBehind
  rw [List.length_cons, List.range'_succ, List.filter_cons, startsRun_behind,
    hmove, hlength]
  split
  · rw [List.map_cons, hfrom]
  · rfl

/-- Behind `front` the runs are those of the rest, or those of the rest
without the run that `front` has begun. -/
theorem runsBehind_eq (isDelimiter : β → Bool) (front l : List β) :
    runsBehind isDelimiter front l =
      if atBoundary isDelimiter front then runs isDelimiter l
      else runs isDelimiter (l.dropWhile fun d => !isDelimiter d) := by
  induction l generalizing front with
  | nil =>
      show [] = if atBoundary isDelimiter front then [] else []
      split <;> rfl
  | cons c l ih =>
      have hboundary :
          atBoundary isDelimiter (front ++ [c]) = isDelimiter c := by
        simp [atBoundary]
      rw [runsBehind_cons, ih, hboundary]
      cases hc : isDelimiter c with
      | true =>
          rw [List.dropWhile_cons_of_neg (by simp [hc]), runs_delimiter hc]
          simp
      | false =>
          rw [List.dropWhile_cons_of_pos (by simp [hc]), runs_cons_token hc]
          simp [hc]

/-- **The runs of a list are its maximal runs**, in order. -/
theorem runs_eq_maximalRuns (isDelimiter : β → Bool) (l : List β) :
    runs isDelimiter l = maximalRuns isDelimiter l := by
  have hbehind := runsBehind_eq isDelimiter [] l
  unfold maximalRuns
  rw [List.range_eq_range']
  exact hbehind.symm

theorem ne_nil_of_mem_runs {run : List β} (h : run ∈ runs isDelimiter l) :
    run ≠ [] := by
  have hnonempty := (List.mem_filter.mp h).2
  intro hnil
  rw [hnil] at hnonempty
  cases hnonempty

theorem delimiterFree_of_mem_runs {run : List β}
    (h : run ∈ runs isDelimiter l) (hc : c ∈ run) : isDelimiter c = false := by
  rw [runs_eq_maximalRuns] at h
  obtain ⟨i, -, rfl⟩ := List.mem_map.mp h
  have hall := List.all_eq_true.mp List.all_takeWhile c hc
  simpa using hall

end Maximal

/-! ## Spacing -/

/-- One delimiter more, next to another one or at an end of the list. -/
inductive SpacingStep (isDelimiter : β → Bool) : List β → List β → Prop where
  | beside {before after : List β} {d d' : β} :
      isDelimiter d = true → isDelimiter d' = true →
      SpacingStep isDelimiter (before ++ d :: after)
        (before ++ d :: d' :: after)
  | front {l : List β} {d : β} :
      isDelimiter d = true → SpacingStep isDelimiter l (d :: l)
  | back {l : List β} {d : β} :
      isDelimiter d = true → SpacingStep isDelimiter l (l ++ [d])

/-- Two lists that differ only in how many delimiters stand where there is
one already, or at the ends. -/
def SameSpacing (isDelimiter : β → Bool) : List β → List β → Prop :=
  Relation.EqvGen (SpacingStep isDelimiter)

section Spacing

variable {isDelimiter : β → Bool} {l l' : List β} {c d : β}

/-- A delimiter ends whatever run stands before it. -/
theorem runs_append_delimiter (hd : isDelimiter d = true)
    (before after : List β) :
    runs isDelimiter (before ++ d :: after) =
      runs isDelimiter before ++ runs isDelimiter after := by
  unfold runs
  rw [List.splitOnP_append_cons before after hd, List.filter_append]

theorem SpacingStep.runs_eq (h : SpacingStep isDelimiter l l') :
    runs isDelimiter l = runs isDelimiter l' := by
  cases h with
  | beside hd hd' =>
      rw [runs_append_delimiter hd, runs_append_delimiter hd,
        runs_delimiter hd']
  | front hd => rw [runs_delimiter hd]
  | back hd =>
      rw [runs_append_delimiter hd]
      exact (List.append_nil _).symm

theorem SameSpacing.runs_eq (h : SameSpacing isDelimiter l l') :
    runs isDelimiter l = runs isDelimiter l' := by
  induction h with
  | rel _ _ hstep => exact hstep.runs_eq
  | refl _ => rfl
  | symm _ _ _ ih => exact ih.symm
  | trans _ _ _ _ _ ih ih' => exact ih.trans ih'

/-- Spacing concerns delimiters only. -/
theorem SameSpacing.mem_iff (h : SameSpacing isDelimiter l l')
    (hc : isDelimiter c = false) : c ∈ l ↔ c ∈ l' := by
  have hne : ∀ d, isDelimiter d = true → c ≠ d := by
    intro d hd heq
    rw [heq, hd] at hc
    cases hc
  induction h with
  | rel _ _ hstep =>
      cases hstep with
      | beside hd hd' => simp [hne _ hd']
      | front hd => simp [hne _ hd]
      | back hd => simp [hne _ hd]
  | refl _ => rfl
  | symm _ _ _ ih => exact ih.symm
  | trans _ _ _ _ _ ih ih' => exact ih.trans ih'

/-- Runs joined by single delimiters are found again. -/
theorem runs_intercalate (hd : isDelimiter d = true) {tokens : List (List β)}
    (h : ∀ token ∈ tokens, token ≠ [] ∧ ∀ c ∈ token, isDelimiter c = false) :
    runs isDelimiter ([d].intercalate tokens) = tokens := by
  induction tokens with
  | nil => rfl
  | cons token tokens ih =>
      obtain ⟨hne, hfree⟩ := h token List.mem_cons_self
      have hrest := ih fun t ht => h t (List.mem_cons_of_mem token ht)
      cases tokens with
      | nil =>
          rw [List.intercalate_singleton]
          exact runs_token hne hfree
      | cons next tokens =>
          rw [List.intercalate_cons_cons, List.append_assoc,
            List.singleton_append, runs_token_delimiter hne hfree hd, hrest]

end Spacing

end OsLabs.Posix
