import Mathlib.Algebra.GroupWithZero.Nat
import OsLabs.Lab1.RingPipes
import OsLabs.Posix.Processes

/-!
# Setting up the ring

`recursivelyForkToNProcesses` of `ring.c` and what each process does up to the
end of `initMyPipes`: the processes in the order of their creation, each with
its own descriptor table, and one `close` after the other.  The processes take
their steps in any order.

`ring_setup`: whatever the order, the set-up comes to its end, with `n`
processes that are numbered as they were created and whose pipes form one
ring.
-/

namespace OsLabs.Lab1.RingSetup

open OsLabs.Posix
open OsLabs.Lab1.Ring
open OsLabs.Lab1.RingPipes
open OsLabs.Lab1.RingShutdown (PipeEnd Mine)

/-! ## The processes -/

/-- How far a process is: in a call of `recFork`, behind the call of
`recursivelyForkToNProcesses` in `main`, in `initMyPipes` with numbers still to
close, or behind it. -/
inductive Phase where
  | forking (processNr : Nat)
  | returned (myProcessNr : Nat)
  | initialising (myProcessNr : Nat) (todo : List Nat)
  | ready (myProcessNr : Nat)
  | stopped (stop : Stop)
  deriving Repr, DecidableEq

/-- A process with its descriptors. -/
structure Process (α : Type) where
  phase : Phase
  table : FdTable (Description α)

/-- The same process in another phase. -/
def Process.enter {α : Type} (p : Process α) (phase : Phase) : Process α :=
  { p with phase := phase }

/-- A call of `recursivelyForkToNProcesses`. -/
def recursivelyForkToNProcesses (n : Nat) : Phase :=
  if n < 1 then .stopped .exited else .forking 0

/-- What `recursivelyForkToNProcesses` returns for a number of `recFork`: the
number is unsigned, becomes an `int`, and unsigned again. -/
def returnedNr (processNr : Nat) : Nat := (uint32 (toInt32 processNr)).toNat

section

variable {α : Type} (env : Environment) (n : Nat) (pipeArr : PipeArr)

/-- What a process does next: the process after it, and its new child if it
forks. -/
def advance (forkCalls : Nat) (p : Process α) :
    Option (Process α × Option (Process α)) :=
  match p.phase with
  | .forking processNr =>
    if (processNr : Int) = uint32 (n - 1) then
      some (p.enter (.returned (returnedNr processNr)), none)
    else if env.forkFails forkCalls then
      some (p.enter (.stopped .exited), none)
    else
      some (p.enter (.returned (returnedNr processNr)),
        some (p.enter (.forking (uint32 (processNr + 1)).toNat)))
  | .returned myProcessNr =>
    match initMyPipes pipeArr myProcessNr n with
    | .ok todo => some (p.enter (.initialising myProcessNr todo), none)
    | .error stop => some (p.enter (.stopped stop), none)
  | .initialising myProcessNr (fd :: todo) =>
    some (⟨.initialising myProcessNr todo, p.table.close fd⟩, none)
  | .initialising myProcessNr [] => some (p.enter (.ready myProcessNr), none)
  | .ready _ => none
  | .stopped _ => none

/-- The processes in the order of their creation. -/
abbrev State (α : Type) := List (Process α)

/-- One of the processes takes a step; a child is born with the descriptors of
its parent. -/
inductive Step : State α → State α → Prop
  | advance {s : State α} {k : Nat} {p p' : Process α}
      {child : Option (Process α)} (hp : s[k]? = some p)
      (h : advance env n pipeArr (s.length - 1) p = some (p', child)) :
      Step s (s.set k p' ++ child.toList)

/-- The process that has made the pipes. -/
def State.initial (table : FdTable (Description α)) : State α :=
  [⟨recursivelyForkToNProcesses n, table⟩]

end

/-! ## The invariant -/

section Invariant

variable {α : Type} {env : Environment} {n k count : Nat} {pipeArr : PipeArr}
  {base : FdTable α} {table₀ : FdTable (Description α)}
  {p p' : Process α} {child : Option (Process α)} {s s' : State α}

/-- Process `k` of `count`, in each of its phases: its number is `k`, only the
last process is in `recFork` while there are fewer than `n`, and the ends that
`initMyPipes` has not closed yet are open. -/
inductive ProcessOk (n : Nat) (pipeArr : PipeArr) (base : FdTable α)
    (count k : Nat) : Process α → Prop
  | forking {table : FdTable (Description α)} (hlast : k + 1 = count)
      (h : Holding pipeArr base (fun e => e.pipe < n) table) :
      ProcessOk n pipeArr base count k ⟨.forking k, table⟩
  | returned {table : FdTable (Description α)}
      (hlast : k + 1 = count → count = n)
      (h : Holding pipeArr base (fun e => e.pipe < n) table) :
      ProcessOk n pipeArr base count k ⟨.returned k, table⟩
  | initialising {table : FdTable (Description α)}
      {closed ends : List PipeEnd} {todo : List Nat}
      (hlast : k + 1 = count → count = n)
      (hsplit : RingShutdown.initMyPipes n k = closed ++ ends)
      (htodo : ends.map pipeArr.numberOf = todo.map some)
      (h : Holding pipeArr base (fun e => e.pipe < n ∧ e ∉ closed) table) :
      ProcessOk n pipeArr base count k ⟨.initialising k todo, table⟩
  | ready {table : FdTable (Description α)}
      (hlast : k + 1 = count → count = n)
      (h : Holding pipeArr base (Mine n k) table) :
      ProcessOk n pipeArr base count k ⟨.ready k, table⟩

/-- The set-up is under way. -/
structure SettingUp (n : Nat) (pipeArr : PipeArr) (base : FdTable α)
    (s : State α) : Prop where
  pos : 0 < s.length
  le : s.length ≤ n
  processes : ∀ k p, s[k]? = some p →
    ProcessOk n pipeArr base s.length k p

/-- An upper bound of the steps that a process and its descendants take. -/
def weight (n : Nat) (p : Process α) : Nat :=
  match p.phase with
  | .forking processNr => (n - processNr) * (2 * n + 5)
  | .returned _ => 2 * n + 4
  | .initialising _ todo => todo.length + 1
  | .ready _ => 0
  | .stopped _ => 0

theorem weight_forking (n k : Nat) (table : FdTable (Description α)) :
    weight n ⟨.forking k, table⟩ = (n - k) * (2 * n + 5) := rfl

theorem weight_returned (n k : Nat) (table : FdTable (Description α)) :
    weight n ⟨.returned k, table⟩ = 2 * n + 4 := rfl

/-- A process that is not the last one does not see a new one. -/
theorem ProcessOk.grow (h : ProcessOk n pipeArr base count k p)
    (hk : k + 1 < count) : ProcessOk n pipeArr base (count + 1) k p := by
  cases h with
  | forking hlast => omega
  | returned hlast hheld => exact .returned (fun heq => by omega) hheld
  | initialising hlast hsplit htodo hheld =>
      exact .initialising (fun heq => by omega) hsplit htodo hheld
  | ready hlast hheld => exact .ready (fun heq => by omega) hheld

theorem length_initMyPipes_le (n k : Nat) :
    (RingShutdown.initMyPipes n k).length ≤ 2 * n + 2 := by
  have hothers : ∀ list : List Nat, (list.flatMap fun j =>
      if j ≠ myInputPipe n k ∧ j ≠ k then RingShutdown.closeUnnecessaryPipe j
      else []).length ≤ 2 * list.length := by
    intro list
    induction list with
    | nil => exact Nat.le_refl 0
    | cons j list ih =>
        rw [List.flatMap_cons, List.length_append, List.length_cons]
        split
        · rw [RingShutdown.closeUnnecessaryPipe, List.length_cons,
            List.length_singleton]
          omega
        · rw [List.length_nil]
          omega
  have hrange := hothers (List.range n)
  rw [List.length_range] at hrange
  rw [RingShutdown.initMyPipes, List.length_cons, List.length_cons]
  omega

theorem returnedNr_eq (hk : k < 2147483648) : returnedNr k = k := by
  have hfits : InInt32 (k : Int) := by
    unfold InInt32
    omega
  rw [returnedNr, toInt32_of_fits hfits, uint32_of_fits (by omega) (by omega)]
  rfl

/-- Where the last number goes, `recFork` ends. -/
theorem isLast_iff (hn : 0 < n) (hbound : n * 2 ≤ 2147483647) :
    (k : Int) = uint32 ((n : Int) - 1) ↔ k + 1 = n := by
  rw [uint32_of_fits (by omega) (by omega)]
  omega

/-- What a step of one process is: it goes on for itself, or the last one
makes the next. -/
inductive Advanced (n : Nat) (pipeArr : PipeArr) (base : FdTable α)
    (count k : Nat) (p p' : Process α) : Option (Process α) → Prop
  | alone (h : ProcessOk n pipeArr base count k p')
      (hweight : weight n p' < weight n p) :
      Advanced n pipeArr base count k p p' none
  | forked {child : Process α} (hlast : k + 1 = count) (hlt : count < n)
      (h : ProcessOk n pipeArr base (count + 1) k p')
      (hchild : ProcessOk n pipeArr base (count + 1) count child)
      (hweight : weight n p' + weight n child < weight n p) :
      Advanced n pipeArr base count k p p' (some child)

/-- A step of a process that is still in `recFork`. -/
theorem advanced_forking {table : FdTable (Description α)} {calls : Nat}
    (hn : 0 < n) (hbound : n * 2 ≤ 2147483647)
    (hforks : ∀ call, env.forkFails call = false)
    (hlast : k + 1 = count) (hcount : count ≤ n)
    (h : Holding pipeArr base (fun e => e.pipe < n) table)
    (hadvance : advance env n pipeArr calls ⟨.forking k, table⟩ =
      some (p', child)) :
    Advanced n pipeArr base count k ⟨.forking k, table⟩ p' child := by
  have hreturned : returnedNr k = k := returnedNr_eq (by omega)
  have hnext : (uint32 ((k : Int) + 1)).toNat = k + 1 := by
    rw [uint32_of_fits (by omega) (by omega)]
    rfl
  unfold advance at hadvance
  simp only [isLast_iff hn hbound, hforks, hreturned, hnext] at hadvance
  obtain ⟨rounds, hrounds⟩ : ∃ rounds, n - k = rounds + 1 :=
    ⟨n - k - 1, by omega⟩
  have hwork : weight n (⟨.forking k, table⟩ : Process α) =
      rounds * (2 * n + 5) + (2 * n + 5) := by
    rw [weight_forking, hrounds, Nat.add_mul, Nat.one_mul]
  split at hadvance
  · cases hadvance
    refine .alone (.returned (fun _ => by omega) h) ?_
    show weight n (⟨.returned k, table⟩ : Process α) < _
    rw [weight_returned, hwork]
    omega
  · cases hadvance
    have hchild : weight n (⟨.forking (k + 1), table⟩ : Process α) =
        rounds * (2 * n + 5) := by
      have hfewer : n - (k + 1) = rounds := by omega
      rw [weight_forking, hfewer]
    refine .forked hlast (by omega) (.returned (fun heq => by omega) h) ?_ ?_
    · rw [← hlast]
      exact .forking rfl h
    · show weight n (⟨.returned k, table⟩ : Process α) +
        weight n (⟨.forking (k + 1), table⟩ : Process α) < _
      rw [weight_returned, hchild, hwork]
      omega

/-- A step of a process that enters `initMyPipes`. -/
theorem advanced_returned {table : FdTable (Description α)} {calls : Nat}
    (hcreated : Created n n base pipeArr table₀)
    (hbound : n * 2 ≤ 2147483647) (hk : k < n)
    (hlast : k + 1 = count → count = n)
    (h : Holding pipeArr base (fun e => e.pipe < n) table)
    (hadvance : advance env n pipeArr calls ⟨.returned k, table⟩ =
      some (p', child)) :
    Advanced n pipeArr base count k ⟨.returned k, table⟩ p' child := by
  obtain ⟨todo, hrun, htodo⟩ := initMyPipes_eq hcreated hbound hk
  unfold advance at hadvance
  simp only [hrun] at hadvance
  cases hadvance
  have hopen : Holding pipeArr base (fun e => e.pipe < n ∧ e ∉ []) table :=
    h.congr fun e => (and_iff_left List.not_mem_nil).symm
  refine .alone (.initialising hlast (List.nil_append _).symm htodo hopen) ?_
  have hlength := congrArg List.length htodo
  rw [List.length_map, List.length_map] at hlength
  have hle := length_initMyPipes_le n k
  show todo.length + 1 < 2 * n + 4
  omega

/-- A step of a process in `initMyPipes`. -/
theorem advanced_initialising {table : FdTable (Description α)} {calls : Nat}
    {closed ends : List PipeEnd} {todo : List Nat}
    (hcreated : Created n n base pipeArr table₀) (hn : 2 ≤ n) (hk : k < n)
    (hlast : k + 1 = count → count = n)
    (hsplit : RingShutdown.initMyPipes n k = closed ++ ends)
    (htodo : ends.map pipeArr.numberOf = todo.map some)
    (h : Holding pipeArr base (fun e => e.pipe < n ∧ e ∉ closed) table)
    (hadvance : advance env n pipeArr calls ⟨.initialising k todo, table⟩ =
      some (p', child)) :
    Advanced n pipeArr base count k ⟨.initialising k todo, table⟩ p'
      child := by
  have hmem : ∀ e, e ∈ closed ++ ends ↔ e.pipe < n ∧ ¬ Mine n k e := by
    intro e
    rw [← hsplit]
    exact RingShutdown.mem_initMyPipes_iff hn hk
  cases todo with
  | nil =>
      have hends : ends = [] := List.map_eq_nil_iff.mp htodo
      cases hadvance
      refine .alone (.ready hlast (h.congr fun e => ?_)) (Nat.succ_pos _)
      have hclosed := hmem e
      rw [hends, List.append_nil] at hclosed
      rw [hclosed]
      constructor
      · rintro ⟨hlt, hnot⟩
        by_contra hmine
        exact hnot ⟨hlt, hmine⟩
      · exact fun hmine => ⟨hmine.lt hk, fun hand => hand.2 hmine⟩
  | cons fd todo =>
      cases ends with
      | nil => cases htodo
      | cons e ends =>
          rw [List.map_cons, List.map_cons, List.cons.injEq] at htodo
          cases hadvance
          have he : e.pipe < n := ((hmem e).mp (by simp)).1
          have hclosed : RingShutdown.initMyPipes n k =
              (closed ++ [e]) ++ ends := by
            rw [hsplit, List.append_assoc, List.singleton_append]
          refine .alone (.initialising hlast hclosed htodo.2
            ((h.close hcreated (fun _ hheld => hheld.1) he htodo.1).congr
              fun e' => ?_)) (Nat.lt_succ_self _)
          rw [List.mem_append, List.mem_singleton, not_or, and_assoc]

/-- A step of any process. -/
theorem ProcessOk.advance {calls : Nat}
    (hcreated : Created n n base pipeArr table₀) (hn : 2 ≤ n)
    (hbound : n * 2 ≤ 2147483647)
    (hforks : ∀ call, env.forkFails call = false)
    (h : ProcessOk n pipeArr base count k p) (hk : k < count)
    (hcount : count ≤ n)
    (hadvance : RingSetup.advance env n pipeArr calls p = some (p', child)) :
    Advanced n pipeArr base count k p p' child := by
  cases h with
  | forking hlast hheld =>
      exact advanced_forking (by omega) hbound hforks hlast hcount hheld
        hadvance
  | returned hlast hheld =>
      exact advanced_returned hcreated hbound (by omega) hlast hheld hadvance
  | initialising hlast hsplit htodo hheld =>
      exact advanced_initialising hcreated hn (by omega) hlast hsplit htodo
        hheld hadvance
  | ready => cases hadvance

/-! ## Runs -/

/-- The weight of the whole system. -/
def total (n : Nat) (s : State α) : Nat := (s.map (weight n)).sum

theorem total_set (n : Nat) (p' : Process α) (hp : s[k]? = some p) :
    total n (s.set k p') + weight n p = total n s + weight n p' := by
  induction s generalizing k with
  | nil => cases hp
  | cons q s ih =>
      unfold total at ih ⊢
      cases k with
      | zero =>
          cases hp
          simp only [List.set_cons_zero, List.map_cons, List.sum_cons]
          omega
      | succ k =>
          have hrest := ih (k := k) hp
          simp only [List.set_cons_succ, List.map_cons, List.sum_cons]
          omega

theorem SettingUp.initial (hcreated : Created n n base pipeArr table₀)
    (hn : 2 ≤ n) : SettingUp n pipeArr base (State.initial n table₀) := by
  refine ⟨Nat.one_pos, ?_, fun k p hp => ?_⟩
  · show 1 ≤ n
    omega
  · have hcall : recursivelyForkToNProcesses n = .forking 0 :=
      if_neg (by omega)
    rw [State.initial, hcall] at hp
    cases k with
    | zero =>
        cases hp
        exact .forking rfl hcreated.holding
    | succ k => cases hp

/-- The processes after a step of the `k`-th one. -/
theorem processOk_set {count j : Nat} {p' q : Process α}
    (hok : ProcessOk n pipeArr base count k p')
    (hothers : ∀ j q, s[j]? = some q → k ≠ j →
      ProcessOk n pipeArr base count j q)
    (hq : (s.set k p')[j]? = some q) : ProcessOk n pipeArr base count j q := by
  rcases getElem?_set_cases hq with ⟨rfl, rfl⟩ | ⟨hjk, hold⟩
  · exact hok
  · exact hothers j q hold hjk

theorem total_append (n : Nat) (s : State α) (newborn : Process α) :
    total n (s ++ [newborn]) = total n s + weight n newborn := by
  unfold total
  rw [List.map_append, List.sum_append, List.map_singleton,
    List.sum_singleton]

/-- One step of the system. -/
theorem SettingUp.step (hcreated : Created n n base pipeArr table₀)
    (hn : 2 ≤ n) (hbound : n * 2 ≤ 2147483647)
    (hforks : ∀ call, env.forkFails call = false)
    (h : SettingUp n pipeArr base s) (hstep : Step env n pipeArr s s') :
    SettingUp n pipeArr base s' ∧ total n s' < total n s := by
  rcases hstep with ⟨hp, hadvance⟩
  rename_i k p p' child
  have hk : k < s.length := (List.getElem?_eq_some_iff.mp hp).1
  have hadvanced := (h.processes k p hp).advance hcreated hn hbound hforks hk
    h.le hadvance
  have hsum := total_set n p' hp
  have hset : (s.set k p').length = s.length := List.length_set
  cases hadvanced with
  | alone hok hweight =>
      rw [Option.toList_none, List.append_nil]
      refine ⟨⟨?_, ?_, fun j q hq => ?_⟩, by omega⟩
      · rw [hset]
        exact h.pos
      · rw [hset]
        exact h.le
      · rw [hset]
        exact processOk_set hok (fun j q hq _ => h.processes j q hq) hq
  | @forked newborn hlast hlt hok hchild hweight =>
      rw [Option.toList_some]
      have hlength : (s.set k p' ++ [newborn]).length = s.length + 1 := by
        rw [List.length_append, hset, List.length_singleton]
      have htotal := total_append n (s.set k p') newborn
      refine ⟨⟨by omega, by omega, fun j q hq => ?_⟩, by omega⟩
      rw [hlength]
      rcases getElem?_concat_cases hq with hold | ⟨rfl, rfl⟩
      · refine processOk_set hok (fun j q hq hjk => ?_) hold
        have hlt := (List.getElem?_eq_some_iff.mp hq).1
        exact (h.processes j q hq).grow (by omega)
      · exact hset ▸ hchild

end Invariant

/-! ## The ring -/

section Ring

variable {α : Type} {env : Environment} {n i j k : Nat} {pipeArr : PipeArr}
  {base : FdTable α} {table : FdTable (Description α)} {e : PipeEnd}
  {p : Process α} {s : State α}

/-- The number that `recursivelyForkToNProcesses` has returned. -/
def Phase.number : Phase → Option Nat
  | .forking _ => none
  | .returned myProcessNr => some myProcessNr
  | .initialising myProcessNr _ => some myProcessNr
  | .ready myProcessNr => some myProcessNr
  | .stopped _ => none

/-- No process is in `recFork` any more. -/
def Forked (s : State α) : Prop :=
  ∀ p ∈ s, ∀ processNr, p.phase ≠ .forking processNr

/-- A process has an end open. -/
def Process.Holds (p : Process α) (e : PipeEnd) : Prop :=
  ∃ fd, p.table.entry fd = some (.pipeEnd e)

/-- The `k`-th process has an end open. -/
def Holds (s : State α) (k : Nat) (e : PipeEnd) : Prop :=
  ∃ p, s[k]? = some p ∧ p.Holds e

/-- The `j`-th process reads what the `k`-th one writes. -/
def Feeds (s : State α) (k j : Nat) : Prop :=
  ∃ pipe, Holds s k ⟨pipe, true⟩ ∧ Holds s j ⟨pipe, false⟩

/-- All processes are through with `initMyPipes`, and the pipes form a single
cycle.  What was open besides the pipes still is. -/
structure IsRing (n : Nat) (base : FdTable α) (s : State α) : Prop where
  phases : s.map Process.phase = (List.range n).map .ready
  holds_iff : ∀ k e, Holds s k e ↔
    k < n ∧ (e = ⟨k, true⟩ ∨ e = ⟨(k + n - 1) % n, false⟩)
  once : ∀ p ∈ s, ∀ e fd fd', p.table.entry fd = some (.pipeEnd e) →
    p.table.entry fd' = some (.pipeEnd e) → fd = fd'
  others : ∀ p ∈ s, ∀ fd a,
    p.table.entry fd = some (.other a) ↔ base.entry fd = some a
  writer : ∀ pipe < n, ∃! k, Holds s k ⟨pipe, true⟩
  reader : ∀ pipe < n, ∃! k, Holds s k ⟨pipe, false⟩
  feeds_iff : ∀ k j, Feeds s k j ↔ k < n ∧ j = (k + 1) % n
  cycle : ∀ k < n, ∀ j < n, Relation.TransGen (Feeds s) k j

theorem ProcessOk.number {count : Nat}
    (h : ProcessOk n pipeArr base count k p)
    (hreturned : ∀ processNr, p.phase ≠ .forking processNr) :
    p.phase.number = some k ∧ (k + 1 = count → count = n) := by
  cases h with
  | forking => exact absurd rfl (hreturned k)
  | returned hlast => exact ⟨rfl, hlast⟩
  | initialising hlast => exact ⟨rfl, hlast⟩
  | ready hlast => exact ⟨rfl, hlast⟩

/-- Behind the forks there are `n` processes. -/
theorem SettingUp.length_eq (h : SettingUp n pipeArr base s)
    (hforked : Forked s) : s.length = n := by
  have hpos := h.pos
  have hlt : s.length - 1 < s.length := by omega
  have hlast := h.processes _ _ (List.getElem?_eq_getElem hlt)
  exact (hlast.number (hforked _ (List.getElem_mem hlt))).2 (by omega)

theorem SettingUp.numbers (h : SettingUp n pipeArr base s)
    (hforked : Forked s) :
    s.map (fun p => p.phase.number) = (List.range n).map some := by
  have hlength := h.length_eq hforked
  refine List.ext_getElem (by simpa using hlength) fun k hk _ => ?_
  rw [List.length_map] at hk
  have hok := h.processes k _ (List.getElem?_eq_getElem hk)
  have hnumber := (hok.number (hforked _ (List.getElem_mem hk))).1
  simpa using hnumber

/-- A process that is through holds its own two ends, whatever the others are
doing. -/
theorem SettingUp.ready (h : SettingUp n pipeArr base s)
    (hp : s[k]? = some p) {nr : Nat} (hphase : p.phase = .ready nr) :
    nr = k ∧ Holding pipeArr base (Mine n k) p.table := by
  have hok := h.processes k p hp
  cases hok with
  | ready hlast hheld =>
      cases hphase
      exact ⟨rfl, hheld⟩
  | forking => cases hphase
  | returned => cases hphase
  | initialising => cases hphase

theorem Process.holds_iff {table₀ : FdTable (Description α)}
    (hcreated : Created n n base pipeArr table₀) (hk : k < n)
    (h : Holding pipeArr base (Mine n k) p.table) :
    p.Holds e ↔ Mine n k e := by
  constructor
  · rintro ⟨fd, hfd⟩
    exact ((h.pipeEnd_iff fd e).mp hfd).1
  · intro hmine
    obtain ⟨fd, hfd⟩ := hcreated.number e (hmine.lt hk)
    exact ⟨fd, (h.pipeEnd_iff fd e).mpr ⟨hmine, hfd⟩⟩

/-- Around the ring, from one process to any other. -/
theorem transGen_of_succ {r : Nat → Nat → Prop} (hn : 0 < n)
    (hnext : ∀ k < n, r k ((k + 1) % n)) (hk : k < n) (hj : j < n) :
    Relation.TransGen r k j := by
  have hround : ∀ d, Relation.TransGen r k ((k + d + 1) % n) := by
    intro d
    induction d with
    | zero => exact .single (hnext k hk)
    | succ d ih =>
        have hstep := hnext ((k + d + 1) % n) (Nat.mod_lt _ hn)
        rw [Nat.mod_add_mod] at hstep
        exact ih.tail hstep
  have hend : (k + (j + n - k - 1) + 1) % n = j := by
    have hsum : k + (j + n - k - 1) + 1 = j + n := by omega
    rw [hsum, Nat.add_mod_right, Nat.mod_eq_of_lt hj]
  exact hend ▸ hround (j + n - k - 1)

/-- Every process is through with `initMyPipes`. -/
def AllReady (s : State α) : Prop := ∀ p ∈ s, ∃ nr, p.phase = .ready nr

theorem AllReady.forked (h : AllReady s) : Forked s := by
  intro p hp processNr hphase
  obtain ⟨nr, hnr⟩ := h p hp
  rw [hphase] at hnr
  cases hnr

theorem SettingUp.process (h : SettingUp n pipeArr base s)
    (hready : AllReady s) (hp : s[k]? = some p) :
    k < n ∧ p.phase = .ready k ∧
      Holding pipeArr base (Mine n k) p.table := by
  have hlength := h.length_eq hready.forked
  have hlt := (List.getElem?_eq_some_iff.mp hp).1
  obtain ⟨nr, hphase⟩ := hready p (List.mem_of_getElem? hp)
  obtain ⟨rfl, hheld⟩ := h.ready hp hphase
  exact ⟨by omega, hphase, hheld⟩

theorem SettingUp.holds_iff {table₀ : FdTable (Description α)}
    (hcreated : Created n n base pipeArr table₀)
    (h : SettingUp n pipeArr base s) (hready : AllReady s) (k : Nat)
    (e : PipeEnd) : Holds s k e ↔ k < n ∧ Mine n k e := by
  constructor
  · rintro ⟨p, hp, hopen⟩
    obtain ⟨hk, -, hheld⟩ := h.process hready hp
    exact ⟨hk, (Process.holds_iff hcreated hk hheld).mp hopen⟩
  · rintro ⟨hk, hmine⟩
    have hlength := h.length_eq hready.forked
    have hp := List.getElem?_eq_getElem (show k < s.length by omega)
    exact ⟨_, hp, (Process.holds_iff hcreated hk
      (h.process hready hp).2.2).mpr hmine⟩

section Cycle

variable (hn : 2 ≤ n) (hholds : ∀ k e, Holds s k e ↔ k < n ∧ Mine n k e)

include hholds

theorem writes_iff (k pipe : Nat) :
    Holds s k ⟨pipe, true⟩ ↔ k < n ∧ pipe = k := by
  rw [hholds, Mine]
  simp

theorem reads_iff (k pipe : Nat) :
    Holds s k ⟨pipe, false⟩ ↔ k < n ∧ pipe = myInputPipe n k := by
  rw [hholds, Mine]
  simp

theorem existsUnique_writer {pipe : Nat} (hpipe : pipe < n) :
    ∃! k, Holds s k ⟨pipe, true⟩ :=
  ⟨pipe, (writes_iff hholds pipe pipe).mpr ⟨hpipe, rfl⟩,
    fun k hk => ((writes_iff hholds k pipe).mp hk).2.symm⟩

include hn

/-- The reader of a pipe is the process behind its writer. -/
theorem reads_iff_succ {pipe : Nat} (hpipe : pipe < n) (k : Nat) :
    Holds s k ⟨pipe, false⟩ ↔ k = (pipe + 1) % n := by
  have hmod : (pipe + 1) % n < n := Nat.mod_lt _ (by omega)
  have hinput : myInputPipe n ((pipe + 1) % n) = pipe := by
    rw [myInputPipe_succ (by omega), Nat.mod_eq_of_lt hpipe]
  rw [reads_iff hholds]
  constructor
  · rintro ⟨hk, heq⟩
    exact myInputPipe_injective hk hmod (by rw [← heq, hinput])
  · rintro rfl
    exact ⟨hmod, hinput.symm⟩

theorem feeds_iff_succ (k j : Nat) :
    Feeds s k j ↔ k < n ∧ j = (k + 1) % n := by
  constructor
  · rintro ⟨pipe, hwrite, hread⟩
    obtain ⟨hk, rfl⟩ := (writes_iff hholds k pipe).mp hwrite
    exact ⟨hk, (reads_iff_succ hn hholds hk j).mp hread⟩
  · rintro ⟨hk, hj⟩
    exact ⟨k, (writes_iff hholds k k).mpr ⟨hk, rfl⟩,
      (reads_iff_succ hn hholds hk j).mpr hj⟩

end Cycle

/-- When all processes are through, the ring is complete. -/
theorem SettingUp.isRing {table₀ : FdTable (Description α)}
    (hcreated : Created n n base pipeArr table₀) (hn : 2 ≤ n)
    (h : SettingUp n pipeArr base s) (hready : AllReady s) :
    IsRing n base s := by
  have hholds := h.holds_iff hcreated hready
  have hfeeds := feeds_iff_succ hn hholds
  have hmem : ∀ p ∈ s, ∃ k, Holding pipeArr base (Mine n k) p.table := by
    intro p hp
    obtain ⟨k, hk⟩ := List.mem_iff_getElem?.mp hp
    exact ⟨k, (h.process hready hk).2.2⟩
  refine ⟨?_, hholds, ?_, ?_, ?_, ?_, hfeeds, ?_⟩
  · refine List.ext_getElem (by simpa using h.length_eq hready.forked)
      fun k hk _ => ?_
    rw [List.length_map] at hk
    have hphase := (h.process hready (List.getElem?_eq_getElem hk)).2.1
    simpa using hphase
  · intro p hp e fd fd' hfd hfd'
    obtain ⟨k, hheld⟩ := hmem p hp
    have hnumber := ((hheld.pipeEnd_iff fd e).mp hfd).2
    rw [((hheld.pipeEnd_iff fd' e).mp hfd').2] at hnumber
    exact (Option.some.inj hnumber).symm
  · intro p hp fd a
    obtain ⟨k, hheld⟩ := hmem p hp
    exact hheld.other_iff fd a
  · exact fun pipe hpipe => existsUnique_writer hholds hpipe
  · exact fun pipe hpipe => ⟨(pipe + 1) % n,
      (reads_iff_succ hn hholds hpipe _).mpr rfl,
      fun k hk => (reads_iff_succ hn hholds hpipe k).mp hk⟩
  · exact fun k hk j hj => transGen_of_succ (by omega)
      (fun m hm => (hfeeds m _).mpr ⟨hm, rfl⟩) hk hj

/-- Only a process that is through has nothing more to do. -/
theorem SettingUp.progress (env : Environment)
    (h : SettingUp n pipeArr base s) :
    AllReady s ∨ ∃ s', Step env n pipeArr s s' := by
  by_cases hready : AllReady s
  · exact Or.inl hready
  · right
    unfold AllReady at hready
    push Not at hready
    obtain ⟨p, hmem, hphase⟩ := hready
    obtain ⟨k, hp⟩ := List.mem_iff_getElem?.mp hmem
    have hmoves : ∃ next,
        advance env n pipeArr (s.length - 1) p = some next := by
      have hok := h.processes k p hp
      unfold advance
      cases hok with
      | forking =>
          simp only
          split
          · exact ⟨_, rfl⟩
          · split <;> exact ⟨_, rfl⟩
      | returned =>
          simp only
          split <;> exact ⟨_, rfl⟩
      | @initialising _ _ _ todo =>
          cases todo <;> exact ⟨_, rfl⟩
      | ready => exact absurd rfl (hphase k)
    obtain ⟨⟨p', child⟩, hmove⟩ := hmoves
    exact ⟨_, .advance hp hmove⟩

/-- A process that is through has nothing more to do. -/
theorem AllReady.no_step (hready : AllReady s) :
    ¬ ∃ s', Step env n pipeArr s s' := by
  rintro ⟨s', ⟨hp, hmove⟩⟩
  obtain ⟨nr, hphase⟩ := hready _ (List.mem_of_getElem? hp)
  rw [advance, hphase] at hmove
  cases hmove

/-- With all forks and pipes succeeding, the set-up comes to its end in every
order of steps: behind the forks there are `n` processes with the numbers from
0 on; a process behind `initMyPipes` holds the write end of its own pipe and
the read end of the one before; and when no process can go on, the ring is
complete. -/
theorem ring_setup (hn : 2 ≤ n) (hforks : ∀ call, env.forkFails call = false)
    (hpipes : env.Grants n) :
    ∃ pipeArr table,
      createPipes env n (base.map .other) = .ok (pipeArr, table) ∧
      (∀ run : Nat → State α, run 0 = State.initial n table →
        ¬ ∀ k, Step env n pipeArr (run k) (run (k + 1))) ∧
      ∀ s, Runs (Step env n pipeArr) (State.initial n table) s →
        (Forked s →
          s.map (fun p => p.phase.number) = (List.range n).map some) ∧
        (∀ (k nr : Nat) (p : Process α), s[k]? = some p →
          p.phase = .ready nr → nr = k ∧ ∀ e, p.Holds e ↔
            e = ⟨k, true⟩ ∨ e = ⟨(k + n - 1) % n, false⟩) ∧
        ((∃ s', Step env n pipeArr s s') ∨ IsRing n base s) := by
  obtain ⟨⟨pipeArr, table⟩, hmade⟩ :=
    (createPipes_ok_iff env (by omega) base).mpr hpipes
  obtain ⟨hcreated, hbound⟩ := createPipes_created (by omega) hmade
  have hstart := SettingUp.initial hcreated hn
  have hstep : ∀ s s', SettingUp n pipeArr base s →
      Step env n pipeArr s s' →
      SettingUp n pipeArr base s' ∧ total n s' < total n s :=
    fun s s' h => h.step hcreated hn hbound hforks
  refine ⟨pipeArr, table, hmade,
    fun run hrun => Runs.no_infinite hstep run (hrun ▸ hstart), ?_⟩
  intro s hruns
  have hs : SettingUp n pipeArr base s :=
    Runs.invariant (fun a b h hab => (hstep a b h hab).1) hruns hstart
  refine ⟨hs.numbers, fun k nr p hp hphase => ?_, ?_⟩
  · obtain ⟨hnr, hheld⟩ := hs.ready hp hphase
    have hlt := (List.getElem?_eq_some_iff.mp hp).1
    have hle := hs.le
    exact ⟨hnr, fun e => Process.holds_iff hcreated (by omega) hheld⟩
  · rcases hs.progress env with hready | hnext
    · exact Or.inr (hs.isRing hcreated hn hready)
    · exact Or.inl hnext

/-- The first process forks, and then each of the two goes on to its end. -/
theorem runs_two : ∃ pipeArr table,
    createPipes .quiet 2 (FdTable.standard.map .other) =
      .ok (pipeArr, table) ∧
    ∃ s : State Nat, Runs (Step .quiet 2 pipeArr) (State.initial 2 table) s ∧
      s.map Process.phase = [.ready 0, .ready 1] :=
  ⟨_, _, rfl, _, (((((((((Relation.ReflTransGen.single
    (.advance (k := 0) rfl rfl)).tail
    (.advance (k := 1) rfl rfl)).tail (.advance (k := 0) rfl rfl)).tail
    (.advance (k := 0) rfl rfl)).tail (.advance (k := 0) rfl rfl)).tail
    (.advance (k := 0) rfl rfl)).tail (.advance (k := 1) rfl rfl)).tail
    (.advance (k := 1) rfl rfl)).tail (.advance (k := 1) rfl rfl)).tail
    (.advance (k := 1) rfl rfl), rfl⟩

/-- Two processes, at the end of a run. -/
theorem ring_setup_two : ∃ pipeArr table,
    createPipes .quiet 2 (FdTable.standard.map .other) =
      .ok (pipeArr, table) ∧
    (∀ run : Nat → State Nat, run 0 = State.initial 2 table →
      ¬ ∀ k, Step .quiet 2 pipeArr (run k) (run (k + 1))) ∧
    ∃ s, Runs (Step .quiet 2 pipeArr) (State.initial 2 table) s ∧
      s.map (fun p => p.phase.number) = [some 0, some 1] ∧
      (∀ (k nr : Nat) (p : Process Nat), s[k]? = some p →
        p.phase = .ready nr → nr = k ∧ ∀ e, p.Holds e ↔
          e = ⟨k, true⟩ ∨ e = ⟨(k + 2 - 1) % 2, false⟩) ∧
      IsRing 2 FdTable.standard s := by
  have hgrants : Environment.quiet.Grants 2 :=
    ⟨fun _ _ => rfl, by decide, fun _ _ => rfl⟩
  obtain ⟨pipeArr, table, hmade, hends, hrun⟩ :=
    @ring_setup Nat .quiet 2 FdTable.standard (by decide) (fun _ => rfl)
      hgrants
  obtain ⟨pipeArr', table', hmade', s, hruns, hphases⟩ := runs_two
  rw [hmade] at hmade'
  cases hmade'
  obtain ⟨hnumbers, hholds, hring⟩ := hrun s hruns
  have hready : AllReady s := by
    intro p hp
    have hphase : p.phase ∈ s.map Process.phase := List.mem_map_of_mem hp
    rw [hphases, List.mem_pair] at hphase
    cases hphase with
    | inl hfirst => exact ⟨0, hfirst⟩
    | inr hsecond => exact ⟨1, hsecond⟩
  exact ⟨pipeArr, table, hmade, hends, s, hruns, hnumbers hready.forked,
    hholds, hring.resolve_left hready.no_step⟩

end Ring

end OsLabs.Lab1.RingSetup
