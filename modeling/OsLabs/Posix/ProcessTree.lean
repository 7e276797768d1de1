import OsLabs.Posix.Processes

/-!
# Processes that end with their creators

A table of processes, each at some point of its program and each with the
process that has forked it.  A process can ask the kernel for a signal at the
death of its creator; any process may die at any moment.  A process number is
a position in the table, and is not used again.

Two facts are what such a signal is good for.  A process that asks while its
creator lives has received the signal whenever its creator is gone
(`Covered.step`).  A process that asks too late can find out, since `getppid`
no longer returns the number of its creator.
-/

namespace OsLabs.Posix

/-! ## Programs -/

/-- What a process does next, with the control state that it goes on in. -/
inductive Call (κ : Type) where
  /-- Something that is of no concern to the other processes. -/
  | silent (next : κ)
  | getpid (next : Nat → κ)
  /-- `fork()`, with the states after a failure, in the parent and in the
  child. -/
  | fork (failed : κ) (parent : Nat → κ) (child : κ)
  /-- `prctl(PR_SET_PDEATHSIG, SIGTERM)` -/
  | prctl (failed done : κ)
  | getppid (next : Nat → κ)
  | exit

/-- A program: what can be done next in which control state. -/
abbrev Program (κ : Type) := κ → Call κ → Prop

/-- Whatever the process does from here, it reaches `exit` after finitely many
silent steps and does nothing else, and it passes no state of `avoided`. -/
inductive OnlyExits {κ : Type} (program : Program κ) (avoided : κ → Prop) :
    κ → Prop
  | intro {control : κ} (havoided : ¬ avoided control)
      (hcan : ∃ call, program control call)
      (honly : ∀ call, program control call →
        call = .exit ∨ ∃ next, call = .silent next)
      (hnext : ∀ next, program control (.silent next) →
        OnlyExits program avoided next) : OnlyExits program avoided control

section OnlyExits

variable {κ : Type} {program : Program κ} {avoided : κ → Prop} {control : κ}

theorem OnlyExits.exit (havoided : ¬ avoided control)
    (hcalls : ∀ call, program control call ↔ call = .exit) :
    OnlyExits program avoided control := by
  refine .intro havoided ⟨.exit, (hcalls _).mpr rfl⟩ ?_ ?_
  · intro call hcall
    exact Or.inl ((hcalls call).mp hcall)
  · intro next hcall
    cases (hcalls _).mp hcall

theorem OnlyExits.silent {next : κ} (havoided : ¬ avoided control)
    (hcalls : ∀ call, program control call ↔ call = .silent next)
    (h : OnlyExits program avoided next) :
    OnlyExits program avoided control := by
  refine .intro havoided ⟨.silent next, (hcalls _).mpr rfl⟩ ?_ ?_
  · intro call hcall
    exact Or.inr ⟨next, (hcalls call).mp hcall⟩
  · intro other hcall
    cases (hcalls _).mp hcall
    exact h

end OnlyExits

/-! ## The table -/

/-- A process: is it still alive, has it asked for a signal at the death of its
creator, and has it received one? -/
structure Proc (κ : Type) where
  control : κ
  creator : Option Nat
  alive : Bool
  deathSignal : Bool
  sigterm : Bool

/-- A child fresh from `fork`, which inherits neither the request nor a
signal. -/
def Proc.forked {κ : Type} (creator : Nat) (control : κ) : Proc κ :=
  ⟨control, some creator, true, false, false⟩

/-- A process that nobody has forked. -/
def Proc.first {κ : Type} (control : κ) : Proc κ :=
  ⟨control, none, true, false, false⟩

section

variable {κ : Type}

/-- Process `pid` exists and has not ended. -/
def Alive (table : List (Proc κ)) (pid : Nat) : Prop :=
  ∃ proc, table[pid]? = some proc ∧ proc.alive = true

/-- What the death of `dead` does to process `pid`. -/
def Proc.afterDeath (dead pid : Nat) (proc : Proc κ) : Proc κ :=
  if pid = dead then { proc with alive := false }
  else if proc.creator = some dead ∧ proc.alive ∧ proc.deathSignal then
    { proc with sigterm := true }
  else proc

/-- The table after a death. -/
def afterDeath (table : List (Proc κ)) (dead : Nat) : List (Proc κ) :=
  table.mapIdx (Proc.afterDeath dead)

/-- `getppid` returns the creator as long as it lives, and some other process
from then on. -/
def Getppid (table : List (Proc κ)) (proc : Proc κ) (ppid : Nat) : Prop :=
  ∀ creator, proc.creator = some creator →
    (ppid = creator ↔ Alive table creator)

variable (program : Program κ)

/-- A step of the living process `pid`: what becomes of it, and the processes
that it adds to the table. -/
inductive Moves (table : List (Proc κ)) (pid : Nat) :
    Proc κ → Proc κ → List (Proc κ) → Prop
  | silent {proc : Proc κ} {next : κ}
      (hcall : program proc.control (.silent next)) :
      Moves table pid proc { proc with control := next } []
  | getpid {proc : Proc κ} {next : Nat → κ}
      (hcall : program proc.control (.getpid next)) :
      Moves table pid proc { proc with control := next pid } []
  | fork {proc : Proc κ} {failed : κ} {parent : Nat → κ} {child : κ}
      (hcall : program proc.control (.fork failed parent child)) :
      Moves table pid proc { proc with control := parent table.length }
        [.forked pid child]
  | noFork {proc : Proc κ} {failed : κ} {parent : Nat → κ} {child : κ}
      (hcall : program proc.control (.fork failed parent child)) :
      Moves table pid proc { proc with control := failed } []
  | prctl {proc : Proc κ} {failed done : κ}
      (hcall : program proc.control (.prctl failed done)) :
      Moves table pid proc { proc with control := done, deathSignal := true } []
  | noPrctl {proc : Proc κ} {failed done : κ}
      (hcall : program proc.control (.prctl failed done)) :
      Moves table pid proc { proc with control := failed } []
  | getppid {proc : Proc κ} {next : Nat → κ} {ppid : Nat}
      (hcall : program proc.control (.getppid next))
      (hppid : Getppid table proc ppid) :
      Moves table pid proc { proc with control := next ppid } []

/-- One step of the system. -/
inductive TableStep : List (Proc κ) → List (Proc κ) → Prop
  | moves {table new : List (Proc κ)} {pid : Nat} {proc proc' : Proc κ}
      (hproc : table[pid]? = some proc) (halive : proc.alive = true)
      (hmoves : Moves program table pid proc proc' new) :
      TableStep table (table.set pid proc' ++ new)
  | exit {table : List (Proc κ)} {pid : Nat} {proc : Proc κ}
      (hproc : table[pid]? = some proc) (halive : proc.alive = true)
      (hcall : program proc.control .exit) :
      TableStep table (afterDeath table pid)
  /-- A signal ends a process, or whatever else may end it. -/
  | killed {table : List (Proc κ)} {pid : Nat} {proc : Proc κ}
      (hproc : table[pid]? = some proc) (halive : proc.alive = true) :
      TableStep table (afterDeath table pid)

end

/-! ## What a step does to one process -/

section Steps

variable {κ : Type} {program : Program κ} {table table' new : List (Proc κ)}
  {pid other : Nat} {proc proc' : Proc κ}

/-- What no step takes back. -/
structure Proc.Later (proc proc' : Proc κ) : Prop where
  creator : proc'.creator = proc.creator
  alive : proc'.alive = true → proc.alive = true
  deathSignal : proc.deathSignal = true → proc'.deathSignal = true
  sigterm : proc.sigterm = true → proc'.sigterm = true

theorem Proc.Later.refl (proc : Proc κ) : proc.Later proc :=
  ⟨rfl, id, id, id⟩

theorem Moves.later (h : Moves program table pid proc proc' new) :
    proc.Later proc' := by
  cases h <;> exact ⟨rfl, id, fun hsignal => by simp [hsignal], id⟩

theorem Moves.alive (h : Moves program table pid proc proc' new) :
    proc'.alive = proc.alive := by
  cases h <;> rfl

/-- A death leaves the control state of every process alone. -/
theorem Proc.afterDeath_control (dead pid : Nat) (proc : Proc κ) :
    (proc.afterDeath dead pid).control = proc.control ∧
      (proc.afterDeath dead pid).deathSignal = proc.deathSignal := by
  unfold Proc.afterDeath
  split
  · exact ⟨rfl, rfl⟩
  · split <;> exact ⟨rfl, rfl⟩

theorem Proc.afterDeath_later (dead pid : Nat) (proc : Proc κ) :
    proc.Later (proc.afterDeath dead pid) := by
  unfold Proc.afterDeath
  split
  · exact ⟨rfl, fun halive => Bool.noConfusion halive, id, id⟩
  · split
    · exact ⟨rfl, id, id, fun _ => rfl⟩
    · exact .refl proc

theorem getElem?_afterDeath (table : List (Proc κ)) (dead pid : Nat) :
    (afterDeath table dead)[pid]? =
      table[pid]?.map (Proc.afterDeath dead pid) :=
  List.getElem?_mapIdx

theorem getElem?_moved (pid : Nat) (proc' : Proc κ) (new : List (Proc κ))
    (hlt : other < table.length) :
    (table.set pid proc' ++ new)[other]? =
      if pid = other then some proc' else table[other]? := by
  rw [List.getElem?_append_left (by rwa [List.length_set])]
  split
  · next heq =>
      subst heq
      exact List.getElem?_set_self hlt
  · next hne => exact List.getElem?_set_ne hne

/-- A process stays in the table. -/
theorem TableStep.later (hstep : TableStep program table table')
    (hproc : table[pid]? = some proc) :
    ∃ proc', table'[pid]? = some proc' ∧ proc.Later proc' := by
  have hdeath : ∀ dead, ∃ proc', (afterDeath table dead)[pid]? = some proc' ∧
      proc.Later proc' := fun dead =>
    ⟨_, by rw [getElem?_afterDeath, hproc]; rfl,
      Proc.afterDeath_later dead pid proc⟩
  cases hstep with
  | @moves new mover old moved hmover halive hmoves =>
      rw [getElem?_moved mover moved new (List.getElem?_eq_some_iff.mp hproc).1]
      split
      · next heq =>
          subst heq
          rw [hproc] at hmover
          cases hmover
          exact ⟨moved, rfl, hmoves.later⟩
      · exact ⟨proc, hproc, .refl proc⟩
  | exit hdead halive hcall => exact hdeath _
  | killed hdead halive => exact hdeath _

/-- Where a process of the new table comes from: it has taken the step, or
another one has and it is where it was, or it has just been forked. -/
theorem TableStep.origin (hstep : TableStep program table table')
    (hproc' : table'[pid]? = some proc') :
    (∃ proc new, table[pid]? = some proc ∧ proc.alive = true ∧
      Moves program table pid proc proc' new) ∨
    (∃ proc, table[pid]? = some proc ∧ proc.Later proc' ∧
      proc'.control = proc.control ∧ proc'.deathSignal = proc.deathSignal) ∨
    ∃ creator parent failed next child, table.length ≤ pid ∧
      table[creator]? = some parent ∧ parent.alive = true ∧
      program parent.control (.fork failed next child) ∧
      proc' = .forked creator child := by
  have hdeath : ∀ dead, (afterDeath table dead)[pid]? = some proc' →
      ∃ proc, table[pid]? = some proc ∧ proc.Later proc' ∧
        proc'.control = proc.control ∧
        proc'.deathSignal = proc.deathSignal := by
    intro dead hdead
    rw [getElem?_afterDeath] at hdead
    obtain ⟨proc, hproc, rfl⟩ := Option.map_eq_some_iff.mp hdead
    exact ⟨proc, hproc, Proc.afterDeath_later dead pid proc,
      Proc.afterDeath_control dead pid proc⟩
  cases hstep with
  | @moves new mover old moved hmover halive hmoves =>
      by_cases hlt : pid < table.length
      · rw [getElem?_moved mover moved new hlt] at hproc'
        split at hproc'
        · next heq =>
            subst heq
            cases hproc'
            exact Or.inl ⟨old, new, hmover, halive, hmoves⟩
        · exact Or.inr (Or.inl ⟨proc', hproc', .refl proc', rfl, rfl⟩)
      · -- only `fork` adds a process
        have hle := Nat.le_of_not_lt hlt
        rw [List.getElem?_append_right (by rwa [List.length_set])] at hproc'
        have hmem := List.mem_of_getElem? hproc'
        cases hmoves with
        | fork hcall =>
            rw [List.mem_singleton.mp hmem]
            exact Or.inr (Or.inr ⟨mover, old, _, _, _, hle, hmover, halive,
              hcall, rfl⟩)
        | _ => cases hmem
  | exit hdead halive hcall => exact Or.inr (Or.inl (hdeath _ hproc'))
  | killed hdead halive => exact Or.inr (Or.inl (hdeath _ hproc'))

/-! ## Creators -/

/-- A process can only die. -/
theorem TableStep.alive (hstep : TableStep program table table')
    (hlt : pid < table.length) (h : Alive table' pid) : Alive table pid := by
  obtain ⟨proc', hproc', halive⟩ := h
  obtain ⟨later, hlater, horder⟩ :=
    hstep.later (List.getElem?_eq_getElem hlt)
  rw [hproc'] at hlater
  cases hlater
  exact ⟨_, List.getElem?_eq_getElem hlt, horder.alive halive⟩

/-- Every creator is in the table. -/
def CreatorsKnown (table : List (Proc κ)) : Prop :=
  ∀ (pid : Nat) (proc : Proc κ) (creator : Nat), table[pid]? = some proc →
    proc.creator = some creator → creator < table.length

theorem TableStep.length_le (hstep : TableStep program table table') :
    table.length ≤ table'.length := by
  cases hstep with
  | moves hproc halive hmoves =>
      rw [List.length_append, List.length_set]
      exact Nat.le_add_right _ _
  | exit hdead halive hcall => exact Nat.le_of_eq List.length_mapIdx.symm
  | killed hdead halive => exact Nat.le_of_eq List.length_mapIdx.symm

theorem CreatorsKnown.step (h : CreatorsKnown table)
    (hstep : TableStep program table table') : CreatorsKnown table' := by
  intro pid proc' creator hproc' hcreator
  apply Nat.lt_of_lt_of_le _ hstep.length_le
  rcases hstep.origin hproc' with ⟨proc, new, hproc, -, hmoves⟩ |
    ⟨proc, hproc, hlater, -⟩ | ⟨forker, parent, _, _, _, -, hparent, -, -, rfl⟩
  · exact h pid proc creator hproc (hmoves.later.creator ▸ hcreator)
  · exact h pid proc creator hproc (hlater.creator ▸ hcreator)
  · cases hcreator
    exact (List.getElem?_eq_some_iff.mp hparent).1

/-- The creator of the process, if it has one, is alive, or the process has
received the signal, which it has asked for. -/
def Covered (table : List (Proc κ)) (proc : Proc κ) : Prop :=
  ∀ creator, proc.creator = some creator → proc.deathSignal = true ∧
    (Alive table creator ∨ proc.sigterm = true)

/-- **A request made in time is served.** -/
theorem Covered.step (h : Covered table proc)
    (hstep : TableStep program table table') (hproc : table[pid]? = some proc)
    (hproc' : table'[pid]? = some proc') (halive' : proc'.alive = true) :
    Covered table' proc' := by
  obtain ⟨later, hsame, hlater⟩ := hstep.later hproc
  rw [hproc'] at hsame
  cases hsame
  intro creator hcreator
  rw [hlater.creator] at hcreator
  obtain ⟨hsignal, hcovered⟩ := h creator hcreator
  refine ⟨hlater.deathSignal hsignal, ?_⟩
  rcases hcovered with halive | hsigterm
  · obtain ⟨parent, hparent, hparentAlive⟩ := halive
    have hdeath : ∀ dead, (afterDeath table dead)[pid]? = some proc' →
        Alive (afterDeath table dead) creator ∨ proc'.sigterm = true := by
      intro dead hdead
      rw [getElem?_afterDeath, hproc] at hdead
      cases hdead
      by_cases heq : creator = dead
      · -- the death that sends the signal
        subst heq
        right
        unfold Proc.afterDeath at halive' ⊢
        by_cases hself : pid = creator
        · rw [if_pos hself] at halive'
          cases halive'
        · rw [if_neg hself, if_pos ⟨hcreator, hlater.alive halive', hsignal⟩]
      · left
        refine ⟨parent.afterDeath dead creator, ?_, ?_⟩
        · rw [getElem?_afterDeath, hparent]
          rfl
        · unfold Proc.afterDeath
          rw [if_neg heq]
          split <;> exact hparentAlive
    cases hstep with
    | @moves new mover old moved hmover halive hmoves =>
        left
        have hlt := (List.getElem?_eq_some_iff.mp hparent).1
        unfold Alive
        rw [getElem?_moved mover moved new hlt]
        split
        · exact ⟨moved, rfl, hmoves.alive.trans halive⟩
        · exact ⟨parent, hparent, hparentAlive⟩
    | exit hdead halive hcall => exact hdeath _ hproc'
    | killed hdead halive => exact hdeath _ hproc'
  · exact Or.inr (hlater.sigterm hsigterm)

end Steps

end OsLabs.Posix
