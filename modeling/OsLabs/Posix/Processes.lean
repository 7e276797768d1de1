import Mathlib.Logic.Relation
import Mathlib.Order.WellFounded

/-!
# Runs of a system, and waiting for children

A system of processes is a step relation; a run is a sequence of steps, in
whatever order the processes take them.

The children of a process are a list, in the order of their creation.  A child
that ends becomes a zombie that keeps its status for a later `wait`, or, when
the parent has set `SA_NOCLDWAIT` for `SIGCHLD`, disappears at once.  The
status of a child that is gone is kept in the model only.
-/

namespace OsLabs.Posix

/-! ## Runs -/

section Runs

variable {σ : Type} {step : σ → σ → Prop} {s t : σ}

/-- `t` is reached from `s` by some number of steps. -/
abbrev Runs (step : σ → σ → Prop) : σ → σ → Prop := Relation.ReflTransGen step

/-- What every step preserves holds along every run. -/
theorem Runs.invariant {I : σ → Prop} (hstep : ∀ a b, I a → step a b → I b)
    (hruns : Runs step s t) (hs : I s) : I t := by
  induction hruns with
  | refl => exact hs
  | tail _ hlast ih => exact hstep _ _ ih hlast

/-- A run of a component is a run of the system it is put into. -/
theorem Runs.lift {τ : Type} {step' : τ → τ → Prop} (f : σ → τ)
    (hstep : ∀ a b, step a b → step' (f a) (f b)) (hruns : Runs step s t) :
    Runs step' (f s) (f t) := by
  induction hruns with
  | refl => exact Relation.ReflTransGen.refl
  | tail _ hlast ih => exact ih.tail (hstep _ _ hlast)

/-- A run whose steps preserve `I` and, where it holds, lower a weight comes to
an end. -/
theorem Runs.no_infinite {I : σ → Prop} {weight : σ → Nat}
    (hstep : ∀ a b, I a → step a b → I b ∧ weight b < weight a)
    (run : Nat → σ) (hstart : I (run 0)) :
    ¬ ∀ k, step (run k) (run (k + 1)) := by
  intro hrun
  have hinvariant : ∀ k, I (run k) := by
    intro k
    induction k with
    | zero => exact hstart
    | succ k ih => exact (hstep _ _ ih (hrun k)).1
  have hweight : ∀ k, weight (run k) + k ≤ weight (run 0) := by
    intro k
    induction k with
    | zero => exact Nat.le_refl _
    | succ k ih =>
        have hlower := (hstep _ _ (hinvariant k) (hrun k)).2
        omega
  have hlast := hweight (weight (run 0) + 1)
  omega

/-- A run in which every step lowers a size, or keeps it and lowers a weight,
comes to an end. -/
theorem Runs.no_infinite_lex (size weight : σ → Nat)
    (hstep : ∀ a b, step a b →
      size b < size a ∨ size b = size a ∧ weight b < weight a)
    (run : Nat → σ) : ¬ ∀ k, step (run k) (run (k + 1)) := by
  intro hrun
  obtain ⟨k, hk⟩ := WellFounded.not_rel_apply_succ
    (r := Prod.Lex (· < ·) (· < ·)) fun k => (size (run k), weight (run k))
  apply hk
  rw [Prod.lex_def]
  exact hstep _ _ (hrun k)

/-- A run comes to an end when its states have budgets and every step leaves a
smaller one. -/
theorem Runs.no_infinite_budget {B : σ → Nat → Prop}
    (hstep : ∀ a b m, B a m → step a b → ∃ m', m' < m ∧ B b m')
    (run : Nat → σ) {m : Nat} (hstart : B (run 0) m) :
    ¬ ∀ k, step (run k) (run (k + 1)) := by
  intro hrun
  have hnone : ∀ m k, ¬ B (run k) m := by
    intro m
    induction m using Nat.strong_induction_on with
    | _ m ih =>
        intro k hk
        obtain ⟨m', hless, hnext⟩ := hstep _ _ m hk (hrun k)
        exact ih m' hless (k + 1) hnext
  exact hnone m 0 hstart

end Runs

/-! ## Lists of processes -/

section Lists

variable {β : Type} {l : List β} {j k : Nat} {new found : β}

/-- What is in a list with one more entry. -/
theorem getElem?_concat_cases (h : (l ++ [new])[k]? = some found) :
    l[k]? = some found ∨ k = l.length ∧ new = found := by
  rcases Nat.lt_trichotomy k l.length with hlt | rfl | hgt
  · rw [List.getElem?_append_left hlt] at h
    exact Or.inl h
  · rw [List.getElem?_concat_length] at h
    exact Or.inr ⟨rfl, Option.some.inj h⟩
  · rw [List.getElem?_eq_none] at h
    · cases h
    · rw [List.length_append]
      exact hgt

/-- What is in a list with one entry replaced. -/
theorem getElem?_set_cases (h : (l.set j new)[k]? = some found) :
    j = k ∧ new = found ∨ j ≠ k ∧ l[k]? = some found := by
  by_cases hj : j = k
  · subst hj
    have hlt := (List.getElem?_eq_some_iff.mp h).1
    rw [List.length_set] at hlt
    rw [List.getElem?_set_self hlt] at h
    exact Or.inl ⟨rfl, Option.some.inj h⟩
  · rw [List.getElem?_set_ne hj] at h
    exact Or.inr ⟨hj, h⟩

end Lists

/-! ## Children -/

/-- How a process has ended: with an exit code, or by a signal. -/
inductive WaitStatus where
  | exited (code : UInt8)
  | signaled (signal : Nat)
  deriving Repr, DecidableEq

/-- A child, as its parent's process table has it. -/
inductive ChildState where
  | running
  | zombie (status : WaitStatus)
  | gone (status : WaitStatus)
  deriving Repr, DecidableEq

/-- A child that has just ended. -/
def ChildState.ended (noCldWait : Bool) (status : WaitStatus) : ChildState :=
  if noCldWait then .gone status else .zombie status

/-- One running child ends. -/
inductive Terminates (noCldWait : Bool) :
    List ChildState → List ChildState → Prop
  | child (front rest : List ChildState) (status : WaitStatus) :
      Terminates noCldWait (front ++ .running :: rest)
        (front ++ .ended noCldWait status :: rest)

/-- No child is left. -/
def AllGone (children : List ChildState) : Prop :=
  ∀ child ∈ children, ∃ status, child = .gone status

/-- `wait` returns: the status of a zombie, which is then gone, or `ECHILD`
(`none`) when no child is left.  While neither is possible it blocks. -/
inductive Waits : List ChildState → Option WaitStatus → List ChildState → Prop
  | reaped (front rest : List ChildState) (status : WaitStatus) :
      Waits (front ++ .zombie status :: rest) (some status)
        (front ++ .gone status :: rest)
  | noChild {children : List ChildState} (h : AllGone children) :
      Waits children none children

/-- No child is waiting to be reaped. -/
def NoZombie (children : List ChildState) : Prop :=
  ∀ child ∈ children, ∀ status, child ≠ .zombie status

theorem AllGone.nil : AllGone [] :=
  fun _ hchild => absurd hchild List.not_mem_nil

theorem NoZombie.nil : NoZombie [] :=
  fun _ hchild => absurd hchild List.not_mem_nil

section Children

variable {children children' : List ChildState} {status : Option WaitStatus}

theorem Terminates.length_eq {noCldWait : Bool}
    (h : Terminates noCldWait children children') :
    children'.length = children.length := by
  rcases h with ⟨front, rest, status⟩
  simp

theorem Waits.length_eq (h : Waits children status children') :
    children'.length = children.length := by
  rcases h with ⟨front, rest, status⟩ | hgone
  · simp
  · rfl

theorem AllGone.no_terminates {noCldWait : Bool} (h : AllGone children) :
    ¬ Terminates noCldWait children children' := by
  rintro ⟨front, rest, status⟩
  obtain ⟨status', hgone⟩ := h .running (by simp)
  cases hgone

theorem NoZombie.terminates (h : NoZombie children)
    (hends : Terminates true children children') : NoZombie children' := by
  rcases hends with ⟨front, rest, status⟩
  intro child hchild status' hzombie
  rcases List.mem_append.mp hchild with hfront | hrest
  · exact h child (by simp [hfront]) status' hzombie
  · rcases List.mem_cons.mp hrest with rfl | hrest
    · cases hzombie
    · exact h child (by simp [hrest]) status' hzombie

/-- Where children are not kept, `wait` can only report that none is left. -/
theorem NoZombie.waits (h : NoZombie children)
    (hwaits : Waits children status children') :
    status = none ∧ children' = children ∧ AllGone children := by
  rcases hwaits with ⟨front, rest, status⟩ | hgone
  · exact absurd rfl (h (.zombie status) (by simp) status)
  · exact ⟨rfl, rfl, hgone⟩

/-- Any children can come to their ends, with any statuses. -/
theorem runs_terminate (front : List ChildState) (statuses : List WaitStatus) :
    Runs (Terminates true)
      (front ++ List.replicate statuses.length .running)
      (front ++ statuses.map .gone) := by
  induction statuses generalizing front with
  | nil => exact Relation.ReflTransGen.refl
  | cons status statuses ih =>
      have hfirst : Terminates true
          (front ++ .running :: List.replicate statuses.length .running)
          (front ++ .gone status ::
            List.replicate statuses.length .running) :=
        .child front _ status
      have hrest := ih (front ++ [.gone status])
      simp only [List.append_assoc, List.singleton_append] at hrest
      exact Relation.ReflTransGen.head hfirst hrest

end Children

end OsLabs.Posix
