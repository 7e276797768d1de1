import OsLabs.Lab1.RingShutdown
import OsLabs.Posix.FdTable
import OsLabs.Posix.Integers
import OsLabs.Posix.Memory

/-!
# The pipes of the ring

`createPipes` and `initMyPipes` of `ring.c` down to the descriptors: the
arrays of pointers and of numbers that `createPipes` fills, and the numbers
that `initMyPipes` finds there and closes.

`createPipes_created` says what is open behind `createPipes`, and
`initMyPipes_eq` that the closes are those of the ends.
-/

namespace OsLabs.Lab1.RingPipes

open OsLabs.Posix
open OsLabs.Lab1.Ring
open OsLabs.Lab1.RingShutdown (PipeEnd)

/-! ## Descriptors and calls -/

/-- What a descriptor refers to: an end of a pipe, named by the call that made
it, or something that was open before. -/
inductive Description (α : Type) where
  | other (d : α)
  | pipeEnd (e : PipeEnd)
  deriving Repr, DecidableEq

/-- How a run ends early: `exit(EXIT_FAILURE)`, or what the language leaves
undefined. -/
inductive Stop where
  | exited
  | fault (fault : Fault)
  | overflow
  deriving Repr, DecidableEq

/-- Which calls fail, by their position among the calls of the same kind. -/
structure Environment where
  mallocFails : FailurePlan
  pipeFails : Nat → Bool
  forkFails : Nat → Bool

/-- The environment in which no call fails. -/
def Environment.quiet : Environment :=
  ⟨noFailures, fun _ => false, fun _ => false⟩

/-- What `createPipes` asks for is there: both blocks, for a number of cells
that is an `int`, and every pipe. -/
structure Environment.Grants (env : Environment) (nrOfProcesses : Nat) :
    Prop where
  mallocs : ∀ call < 2, env.mallocFails call = false
  cells : nrOfProcesses * 2 ≤ 2147483647
  pipes : ∀ i < nrOfProcesses, env.pipeFails i = false

/-- The array of pipes: its pointers, as offsets into the block of descriptor
numbers that the first of them points to, and that block. -/
structure PipeArr where
  pointers : List (Option Nat)
  numbers : List (Option Nat)
  deriving Repr, DecidableEq

/-- `pipeArr[i]` -/
def PipeArr.pointer (pipeArr : PipeArr) (i : Nat) : Except Stop Nat :=
  (loadAt pipeArr.pointers i).mapError .fault

/-- `pipe[0]` or `pipe[1]` -/
def PipeArr.number (pipeArr : PipeArr) (pipe i : Nat) : Except Stop Nat :=
  (loadAt pipeArr.numbers (pipe + i)).mapError .fault

/-! ## `createPipes` -/

section

variable {α : Type} (env : Environment)

/-- The loop of `createPipes`, with `rounds` to go. -/
def createPipesLoop : Nat → Nat → PipeArr → FdTable (Description α) →
    Except Stop (PipeArr × FdTable (Description α))
  | 0, _, pipeArr, table => .ok (pipeArr, table)
  | rounds + 1, i, pipeArr, table => do
    let first ← pipeArr.pointer 0
    let pointers ←
      (storeAt pipeArr.pointers i (first + 2 * i)).mapError .fault
    let pipe ← PipeArr.pointer { pipeArr with pointers := pointers } i
    if env.pipeFails i then .error .exited
    else
      let (readEnd, writeEnd, table) :=
        table.pipe (.pipeEnd ⟨i, false⟩) (.pipeEnd ⟨i, true⟩)
      let numbers ← (storeAt pipeArr.numbers pipe readEnd).mapError .fault
      let numbers ← (storeAt numbers (pipe + 1) writeEnd).mapError .fault
      createPipesLoop rounds (i + 1) ⟨pointers, numbers⟩ table

/-- `createPipes`.  What `malloc` returns is not tested; the number of cells
of the second block is computed as an `int`. -/
def createPipes (nrOfProcesses : Nat) (table : FdTable (Description α)) :
    Except Stop (PipeArr × FdTable (Description α)) :=
  if env.mallocFails 0 then .error (.fault .nullDereference)
  else
    match int32 (nrOfProcesses * 2) with
    | none => .error .overflow
    | some size =>
      -- a null pointer is stored first, and passed to `pipe`
      if env.mallocFails 1 then .error .exited
      else do
        let pointers ←
          (storeAt (indeterminate nrOfProcesses) 0 0).mapError .fault
        createPipesLoop env nrOfProcesses 0
          ⟨pointers, indeterminate size.toNat⟩ table

end

/-! ## `initMyPipes` -/

section

variable (pipeArr : PipeArr)

/-- `initPipe`: the number that it closes. -/
def initPipe (pipe : Nat) (isOutgoing : Bool) : Except Stop Nat :=
  pipeArr.number pipe (if isOutgoing then 0 else 1)

/-- `closeUnnecessaryPipe`: the numbers that it closes. -/
def closeUnnecessaryPipe (pipe : Nat) : Except Stop (List Nat) := do
  let readEnd ← pipeArr.number pipe 0
  let writeEnd ← pipeArr.number pipe 1
  return [readEnd, writeEnd]

/-- `getMyOutputPipe` -/
def getMyOutputPipe (myProcessNr : Nat) : Except Stop Nat :=
  pipeArr.pointer myProcessNr

/-- `getMyInputPipe`; the sum is unsigned. -/
def getMyInputPipe (myProcessNr nrOfProcesses : Nat) : Except Stop Nat :=
  pipeArr.pointer
    ((uint32 (myProcessNr + nrOfProcesses - 1)).toNat % nrOfProcesses)

/-- The loop of `initMyPipes`, with `rounds` to go. -/
def closeOtherPipes (myInputPipe myOutputPipe : Nat) :
    Nat → Nat → Except Stop (List Nat)
  | 0, _ => .ok []
  | rounds + 1, i => do
    let pipe ← pipeArr.pointer i
    let closed ←
      if pipe ≠ myInputPipe ∧ pipe ≠ myOutputPipe then
        closeUnnecessaryPipe pipeArr pipe
      else .ok []
    let rest ← closeOtherPipes myInputPipe myOutputPipe rounds (i + 1)
    return closed ++ rest

/-- `initMyPipes`: the numbers that it closes, in order. -/
def initMyPipes (myProcessNr nrOfProcesses : Nat) : Except Stop (List Nat) := do
  let myInputPipe ← getMyInputPipe pipeArr myProcessNr nrOfProcesses
  let myOutputPipe ← getMyOutputPipe pipeArr myProcessNr
  let readEnd ← initPipe pipeArr myOutputPipe true
  let writeEnd ← initPipe pipeArr myInputPipe false
  let others ←
    closeOtherPipes pipeArr myInputPipe myOutputPipe nrOfProcesses 0
  return readEnd :: writeEnd :: others

end

/-! ## The array of pipes -/

section Arrays

variable {α : Type} {env : Environment} {n i rounds : Nat} {pipeArr : PipeArr}
  {base : FdTable α} {table : FdTable (Description α)} {e : PipeEnd}
  {held : PipeEnd → Prop}

/-- Where the number of an end is stored. -/
def cell (e : PipeEnd) : Nat := 2 * e.pipe + if e.isWriteEnd then 1 else 0

/-- The number of an end. -/
def PipeArr.numberOf (pipeArr : PipeArr) (e : PipeEnd) : Option Nat :=
  pipeArr.numbers[cell e]?.join

/-- A table with the descriptors of `base`, and the ends `held` under their
numbers. -/
structure Holding (pipeArr : PipeArr) (base : FdTable α)
    (held : PipeEnd → Prop) (table : FdTable (Description α)) : Prop where
  other_iff : ∀ fd a,
    table.entry fd = some (.other a) ↔ base.entry fd = some a
  pipeEnd_iff : ∀ fd e, table.entry fd = some (.pipeEnd e) ↔
    held e ∧ pipeArr.numberOf e = some fd

/-- The first `i` of `n` pipes have been made. -/
structure Created (n i : Nat) (base : FdTable α) (pipeArr : PipeArr)
    (table : FdTable (Description α)) : Prop where
  pointersLength : pipeArr.pointers.length = n
  numbersLength : pipeArr.numbers.length = 2 * n
  first : pipeArr.pointers[0]? = some (some 0)
  pointer : ∀ k < i, pipeArr.pointers[k]? = some (some (2 * k))
  number : ∀ e : PipeEnd, e.pipe < i → ∃ fd, pipeArr.numberOf e = some fd
  holding : Holding pipeArr base (fun e => e.pipe < i) table

theorem pointer_of_getElem? {offset : Nat}
    (h : pipeArr.pointers[i]? = some (some offset)) :
    pipeArr.pointer i = .ok offset := by
  rw [PipeArr.pointer, loadAt, h]
  rfl

theorem storeAt_of_lt {cells : List (Option Nat)} (b : Nat)
    (h : i < cells.length) :
    (storeAt cells i b).mapError Stop.fault = .ok (cells.set i (some b)) := by
  rw [storeAt, if_pos h]
  rfl

/-- The array after pipe `i` has been made. -/
def PipeArr.extend (pipeArr : PipeArr) (i readEnd writeEnd : Nat) : PipeArr :=
  ⟨pipeArr.pointers.set i (some (2 * i)),
    (pipeArr.numbers.set (2 * i) (some readEnd)).set (2 * i + 1)
      (some writeEnd)⟩

theorem cell_lt (he : e.pipe < i) : cell e < 2 * i := by
  unfold cell
  split <;> omega

theorem Holding.congr {held' : PipeEnd → Prop}
    (h : Holding pipeArr base held table) (hheld : ∀ e, held e ↔ held' e) :
    Holding pipeArr base held' table :=
  ⟨h.other_iff, fun fd e => by rw [h.pipeEnd_iff, hheld]⟩

theorem Holding.free {fd : Nat} (h : Holding pipeArr base held table)
    (hfree : table.entry fd = none) : base.entry fd = none := by
  by_contra hopen
  obtain ⟨a, ha⟩ := Option.ne_none_iff_exists'.mp hopen
  have hentry := (h.other_iff fd a).mpr ha
  rw [hfree] at hentry
  cases hentry

/-- One more end, under a number that was free. -/
theorem Holding.set {pipeArr' : PipeArr} {fd : Nat}
    (h : Holding pipeArr base held table) (hfree : table.entry fd = none)
    (hnew : ¬ held e)
    (hsame : ∀ e', held e' → pipeArr'.numberOf e' = pipeArr.numberOf e')
    (hnumber : pipeArr'.numberOf e = some fd) :
    Holding pipeArr' base (fun e' => held e' ∨ e' = e)
      (table.set fd (.pipeEnd e)) := by
  refine ⟨fun n a => ?_, fun n e' => ?_⟩
  · rw [FdTable.entry_set]
    split
    · next heq =>
        rw [heq, h.free hfree]
        exact iff_of_false (fun hentry => nomatch hentry)
          (fun hentry => nomatch hentry)
    · exact h.other_iff n a
  · rw [FdTable.entry_set]
    by_cases he : e' = e
    · rw [he, hnumber]
      split
      · next heq =>
          rw [heq]
          exact iff_of_true rfl ⟨Or.inr rfl, rfl⟩
      · next hne =>
          have hclosed : table.entry n ≠ some (.pipeEnd e) :=
            fun hentry => hnew ((h.pipeEnd_iff n e).mp hentry).1
          exact iff_of_false hclosed fun hand =>
            hne (Option.some.inj hand.2).symm
    · have hold := h.pipeEnd_iff n e'
      have hright : (held e' ∨ e' = e) ∧ pipeArr'.numberOf e' = some n ↔
          held e' ∧ pipeArr.numberOf e' = some n := by
        constructor
        · rintro ⟨hor, hn⟩
          have hheld := hor.resolve_right he
          exact ⟨hheld, hsame e' hheld ▸ hn⟩
        · rintro ⟨hheld, hn⟩
          exact ⟨Or.inl hheld, (hsame e' hheld).trans hn⟩
      rw [hright, ← hold]
      split
      · next heq =>
          rw [heq, hfree]
          refine iff_of_false (fun hentry => ?_) (fun hentry => nomatch hentry)
          cases hentry
          exact he rfl
      · exact Iff.rfl

section Extend

variable {readEnd writeEnd : Nat}

theorem numberOf_extend_of_lt (he : e.pipe < i) :
    (pipeArr.extend i readEnd writeEnd).numberOf e = pipeArr.numberOf e := by
  have hlt := cell_lt he
  unfold PipeArr.numberOf PipeArr.extend
  rw [List.getElem?_set_ne (by omega), List.getElem?_set_ne (by omega)]

theorem numberOf_extend_readEnd (h : 2 * i < pipeArr.numbers.length) :
    (pipeArr.extend i readEnd writeEnd).numberOf ⟨i, false⟩ =
      some readEnd := by
  show ((pipeArr.numbers.set _ _).set _ _)[2 * i]?.join = _
  rw [List.getElem?_set_ne (by omega), List.getElem?_set_self h]
  rfl

theorem numberOf_extend_writeEnd (h : 2 * i + 1 < pipeArr.numbers.length) :
    (pipeArr.extend i readEnd writeEnd).numberOf ⟨i, true⟩ =
      some writeEnd := by
  show ((pipeArr.numbers.set _ _).set _ _)[2 * i + 1]?.join = _
  rw [List.getElem?_set_self (by rw [List.length_set]; exact h)]
  rfl

theorem lt_succ_iff_ends :
    (e.pipe < i ∨ e = ⟨i, false⟩) ∨ e = ⟨i, true⟩ ↔ e.pipe < i + 1 := by
  obtain ⟨pipe, isWriteEnd⟩ := e
  cases isWriteEnd <;> simp <;> omega

/-- A new pipe is found under its two numbers. -/
theorem Holding.extend
    (h : Holding pipeArr base (fun e => e.pipe < i) table)
    (hlength : 2 * i + 1 < pipeArr.numbers.length)
    (hr : table.entry readEnd = none) (hw : table.entry writeEnd = none)
    (hne : writeEnd ≠ readEnd) :
    Holding (pipeArr.extend i readEnd writeEnd) base
      (fun e => e.pipe < i + 1)
      ((table.set readEnd (.pipeEnd ⟨i, false⟩)).set writeEnd
        (.pipeEnd ⟨i, true⟩)) := by
  have hread : Holding (pipeArr.extend i readEnd writeEnd) base
      (fun e => e.pipe < i ∨ e = ⟨i, false⟩)
      (table.set readEnd (.pipeEnd ⟨i, false⟩)) :=
    h.set hr (Nat.lt_irrefl i) (fun e he => numberOf_extend_of_lt he)
      (numberOf_extend_readEnd (by omega))
  have hfree : (table.set readEnd (.pipeEnd ⟨i, false⟩)).entry writeEnd =
      none := by
    rw [FdTable.entry_set, if_neg hne]
    exact hw
  have hboth := hread.set hfree (e := ⟨i, true⟩) (by simp)
    (fun _ _ => rfl) (numberOf_extend_writeEnd hlength)
  exact hboth.congr fun e => lt_succ_iff_ends

/-- One round of `createPipes`. -/
theorem Created.extend (h : Created n i base pipeArr table) (hi : i < n)
    (hr : table.entry readEnd = none) (hw : table.entry writeEnd = none)
    (hne : writeEnd ≠ readEnd) :
    Created n (i + 1) base (pipeArr.extend i readEnd writeEnd)
      ((table.set readEnd (.pipeEnd ⟨i, false⟩)).set writeEnd
        (.pipeEnd ⟨i, true⟩)) := by
  have hpointers := h.pointersLength
  have hnumbers := h.numbersLength
  have hpointer : ∀ k < i + 1,
      (pipeArr.extend i readEnd writeEnd).pointers[k]? =
        some (some (2 * k)) := by
    intro k hk
    show (pipeArr.pointers.set i (some (2 * i)))[k]? = _
    by_cases hki : k = i
    · rw [hki, List.getElem?_set_self (by omega)]
    · rw [List.getElem?_set_ne (Ne.symm hki)]
      exact h.pointer k (by omega)
  refine ⟨?_, ?_, ?_, hpointer, ?_, ?_⟩
  · exact (List.length_set ..).trans hpointers
  · exact (List.length_set ..).trans ((List.length_set ..).trans hnumbers)
  · exact hpointer 0 (Nat.succ_pos i)
  · intro e he
    rcases lt_succ_iff_ends.mpr he with (hlt | rfl) | rfl
    · rw [numberOf_extend_of_lt hlt]
      exact h.number e hlt
    · exact ⟨_, numberOf_extend_readEnd (by omega)⟩
    · exact ⟨_, numberOf_extend_writeEnd (by omega)⟩
  · exact h.holding.extend (by omega) hr hw hne

end Extend

section CreatePipes

variable {pipeArr' : PipeArr} {table' : FdTable (Description α)}

theorem createPipesLoop_round (env : Environment) (rounds : Nat)
    (h : Created n i base pipeArr table) (hi : i < n) :
    ∃ readEnd writeEnd, table.entry readEnd = none ∧
      table.entry writeEnd = none ∧ writeEnd ≠ readEnd ∧
      createPipesLoop env (rounds + 1) i pipeArr table =
        if env.pipeFails i then .error .exited
        else
          createPipesLoop env rounds (i + 1)
            (pipeArr.extend i readEnd writeEnd)
            ((table.set readEnd (.pipeEnd ⟨i, false⟩)).set writeEnd
              (.pipeEnd ⟨i, true⟩)) := by
  obtain ⟨readEnd, writeEnd, hpipe, hr, hw, hne⟩ :=
    table.pipe_spec (.pipeEnd ⟨i, false⟩) (.pipeEnd ⟨i, true⟩)
  refine ⟨readEnd, writeEnd, hr, hw, hne, ?_⟩
  have hpointers := h.pointersLength
  have hnumbers := h.numbersLength
  have hstored : PipeArr.pointer { pipeArr with
      pointers := pipeArr.pointers.set i (some (0 + 2 * i)) } i =
        .ok (0 + 2 * i) :=
    pointer_of_getElem? (List.getElem?_set_self (by omega))
  have hroom : 2 * i + 1 <
      (pipeArr.numbers.set (2 * i) (some readEnd)).length := by
    rw [List.length_set]
    omega
  rw [createPipesLoop, pointer_of_getElem? h.first, except_ok_bind,
    storeAt_of_lt _ (by omega), except_ok_bind, hstored, except_ok_bind,
    Nat.zero_add, hpipe]
  simp only [storeAt_of_lt _ (show 2 * i < pipeArr.numbers.length by omega),
    storeAt_of_lt _ hroom, except_ok_bind]
  rfl

theorem createPipesLoop_created (h : Created n i base pipeArr table)
    (hi : i + rounds = n)
    (hrun : createPipesLoop env rounds i pipeArr table =
      .ok (pipeArr', table')) : Created n n base pipeArr' table' := by
  induction rounds generalizing i pipeArr table with
  | zero =>
      cases hrun
      have hend : i = n := hi
      exact hend ▸ h
  | succ rounds ih =>
      have hlt : i < n := by omega
      obtain ⟨readEnd, writeEnd, hr, hw, hne, hround⟩ :=
        createPipesLoop_round env rounds h hlt
      rw [hround] at hrun
      split at hrun
      · cases hrun
      · exact ih (h.extend hlt hr hw hne) (by omega) hrun

theorem createPipesLoop_ok_iff (env : Environment)
    (h : Created n i base pipeArr table) (hi : i + rounds = n) :
    (∃ result, createPipesLoop env rounds i pipeArr table = .ok result) ↔
      ∀ k, i ≤ k → k < n → env.pipeFails k = false := by
  induction rounds generalizing i pipeArr table with
  | zero => exact iff_of_true ⟨_, rfl⟩ fun k hge hlt => by omega
  | succ rounds ih =>
      have hlt : i < n := by omega
      obtain ⟨readEnd, writeEnd, hr, hw, hne, hround⟩ :=
        createPipesLoop_round env rounds h hlt
      rw [hround]
      cases hfails : env.pipeFails i with
      | true =>
          rw [if_pos rfl]
          refine iff_of_false nofun fun hall => ?_
          rw [hall i (Nat.le_refl i) hlt] at hfails
          cases hfails
      | false =>
          rw [if_neg Bool.false_ne_true,
            ih (h.extend hlt hr hw hne) (by omega)]
          constructor
          · intro hrest k hge hk
            cases Nat.eq_or_lt_of_le hge with
            | inl heq => rw [← heq, hfails]
            | inr hbehind => exact hrest k hbehind hk
          · exact fun hall k hge hk => hall k (Nat.le_of_succ_le hge) hk

/-- The arrays before the first round. -/
def PipeArr.start (n : Nat) : PipeArr :=
  ⟨(indeterminate n).set 0 (some 0), indeterminate (2 * n)⟩

theorem Created.start (hn : 0 < n) (base : FdTable α) :
    Created n 0 base (PipeArr.start n) (base.map .other) := by
  have hlength : 0 < (indeterminate (β := Nat) n).length := by
    simpa [indeterminate] using hn
  refine ⟨?_, ?_, ?_, ?_, ?_, ?_, ?_⟩
  · simp [PipeArr.start, indeterminate]
  · simp [PipeArr.start, indeterminate]
  · exact List.getElem?_set_self hlength
  · exact fun k hk => absurd hk (Nat.not_lt_zero k)
  · exact fun e he => absurd he (Nat.not_lt_zero e.pipe)
  · intro fd a
    rw [FdTable.entry_map]
    cases base.entry fd <;> simp
  · intro fd e
    rw [FdTable.entry_map]
    cases base.entry fd <;> simp

theorem createPipes_eq (env : Environment) (hn : 0 < n)
    (table : FdTable (Description α)) :
    createPipes env n table =
      if env.mallocFails 0 then .error (.fault .nullDereference)
      else if 2147483647 < n * 2 then .error .overflow
      else if env.mallocFails 1 then .error .exited
      else createPipesLoop env n 0 (PipeArr.start n) table := by
  have hlength : 0 < (indeterminate (β := Nat) n).length := by
    simpa [indeterminate] using hn
  have hcells : ((n : Int) * 2).toNat = 2 * n := by omega
  unfold createPipes
  by_cases hsize : 2147483647 < n * 2
  · have hoverflow : int32 ((n : Int) * 2) = none :=
      if_neg (by unfold InInt32; omega)
    rw [hoverflow, if_pos hsize]
  · rw [int32_of_fits (by unfold InInt32; omega), if_neg hsize]
    simp only [storeAt_of_lt 0 hlength, except_ok_bind, hcells]
    rfl

/-- **Exactly when the pipes are made.** -/
theorem createPipes_ok_iff (env : Environment) (hn : 0 < n)
    (base : FdTable α) :
    (∃ result, createPipes env n (base.map .other) = .ok result) ↔
      env.Grants n := by
  have hloop := createPipesLoop_ok_iff env (Created.start hn base)
    (Nat.zero_add n)
  rw [createPipes_eq env hn]
  constructor
  · rintro ⟨result, hrun⟩
    split at hrun
    · cases hrun
    · next hfirst =>
      split at hrun
      · cases hrun
      · next hsize =>
        split at hrun
        · cases hrun
        · next hsecond =>
          refine ⟨fun call hcall => ?_, Nat.le_of_not_lt hsize,
            fun i => hloop.mp ⟨result, hrun⟩ i (Nat.zero_le i)⟩
          cases Nat.le_one_iff_eq_zero_or_eq_one.mp
              (Nat.le_of_lt_succ hcall) with
          | inl hzero => rw [hzero, eq_false_of_ne_true hfirst]
          | inr hone => rw [hone, eq_false_of_ne_true hsecond]
  · intro hgrants
    rw [hgrants.mallocs 0 (by omega), if_neg Bool.false_ne_true,
      if_neg (Nat.not_lt_of_le hgrants.cells),
      hgrants.mallocs 1 (by omega), if_neg Bool.false_ne_true]
    exact hloop.mpr fun k _ hk => hgrants.pipes k hk

/-- What `createPipes` leaves when none of its calls fails. -/
theorem createPipes_created (hn : 0 < n)
    (hrun : createPipes env n (base.map .other) = .ok (pipeArr, table)) :
    Created n n base pipeArr table ∧ n * 2 ≤ 2147483647 := by
  refine ⟨?_, ((createPipes_ok_iff env hn base).mp ⟨_, hrun⟩).cells⟩
  rw [createPipes_eq env hn] at hrun
  split at hrun
  · cases hrun
  split at hrun
  · cases hrun
  split at hrun
  · cases hrun
  exact createPipesLoop_created (.start hn base) (Nat.zero_add n) hrun

end CreatePipes

/-! ## The closes -/

section Closes

variable {k : Nat}

theorem Created.pointer_eq (h : Created n n base pipeArr table) (hk : k < n) :
    pipeArr.pointer k = .ok (2 * k) :=
  pointer_of_getElem? (h.pointer k hk)

theorem number_of_numberOf {fd : Nat} (hnumber : pipeArr.numberOf e = some fd) :
    pipeArr.number (2 * e.pipe) (if e.isWriteEnd then 1 else 0) =
      .ok fd := by
  have hcell : pipeArr.numbers[cell e]? = some (some fd) :=
    Option.join_eq_some_iff.mp hnumber
  unfold cell at hcell
  rw [PipeArr.number, loadAt, hcell]
  rfl

theorem initPipe_eq (h : Created n n base pipeArr table) (hk : k < n)
    (isOutgoing : Bool) :
    ∃ fd, initPipe pipeArr (2 * k) isOutgoing = .ok fd ∧
      pipeArr.numberOf (RingShutdown.initPipe k isOutgoing) = some fd := by
  obtain ⟨fd, hfd⟩ := h.number (RingShutdown.initPipe k isOutgoing) hk
  refine ⟨fd, ?_, hfd⟩
  have hread := number_of_numberOf hfd
  cases isOutgoing with
  | true => exact hread
  | false => exact hread

theorem closeUnnecessaryPipe_eq (h : Created n n base pipeArr table)
    (hk : k < n) :
    ∃ fds, closeUnnecessaryPipe pipeArr (2 * k) = .ok fds ∧
      (RingShutdown.closeUnnecessaryPipe k).map pipeArr.numberOf =
        fds.map some := by
  obtain ⟨readEnd, hread⟩ := h.number ⟨k, false⟩ hk
  obtain ⟨writeEnd, hwrite⟩ := h.number ⟨k, true⟩ hk
  refine ⟨[readEnd, writeEnd], ?_, ?_⟩
  · have hfirst : pipeArr.number (2 * k) 0 = .ok readEnd :=
      number_of_numberOf hread
    have hsecond : pipeArr.number (2 * k) 1 = .ok writeEnd :=
      number_of_numberOf hwrite
    rw [closeUnnecessaryPipe, hfirst, except_ok_bind, hsecond]
    rfl
  · simp only [RingShutdown.closeUnnecessaryPipe, List.map_cons, hread, hwrite,
      List.map_nil]

theorem closeOtherPipes_eq (h : Created n n base pipeArr table)
    (input output : Nat) (hi : i + rounds = n) :
    ∃ fds, closeOtherPipes pipeArr (2 * input) (2 * output) rounds i =
        .ok fds ∧
      ((List.range' i rounds).flatMap fun j =>
        if j ≠ input ∧ j ≠ output then RingShutdown.closeUnnecessaryPipe j
        else []).map pipeArr.numberOf = fds.map some := by
  induction rounds generalizing i with
  | zero => exact ⟨[], rfl, rfl⟩
  | succ rounds ih =>
      have hlt : i < n := by omega
      obtain ⟨rest, hrest, hmap⟩ := ih (i := i + 1) (by omega)
      obtain ⟨closed, hclosed, hmap₁⟩ := closeUnnecessaryPipe_eq h hlt
      have hsame : 2 * i ≠ 2 * input ∧ 2 * i ≠ 2 * output ↔
          i ≠ input ∧ i ≠ output := by omega
      rw [closeOtherPipes, h.pointer_eq hlt, except_ok_bind]
      simp only [List.range'_succ, List.flatMap_cons, List.map_append, hmap,
        hsame, hrest, hclosed]
      by_cases hother : i ≠ input ∧ i ≠ output
      · refine ⟨closed ++ rest, ?_, ?_⟩
        · rw [if_pos hother]
          rfl
        · rw [if_pos hother, hmap₁, List.map_append]
      · refine ⟨rest, ?_, ?_⟩
        · rw [if_neg hother]
          rfl
        · rw [if_neg hother]
          rfl

theorem getMyInputPipe_eq (h : Created n n base pipeArr table)
    (hbound : n * 2 ≤ 2147483647) (hk : k < n) :
    getMyInputPipe pipeArr k n = .ok (2 * myInputPipe n k) := by
  have hindex : (uint32 ((k : Int) + n - 1)).toNat % n = myInputPipe n k := by
    rw [uint32_of_fits (by omega) (by omega), myInputPipe]
    congr 1
    omega
  rw [getMyInputPipe, hindex]
  exact h.pointer_eq (myInputPipe_lt hk)

/-- `initMyPipes` closes the numbers of the ends that it should. -/
theorem initMyPipes_eq (h : Created n n base pipeArr table)
    (hbound : n * 2 ≤ 2147483647) (hk : k < n) :
    ∃ fds, initMyPipes pipeArr k n = .ok fds ∧
      (RingShutdown.initMyPipes n k).map pipeArr.numberOf =
        fds.map some := by
  obtain ⟨readEnd, hread, hreadNr⟩ := initPipe_eq h hk true
  obtain ⟨writeEnd, hwrite, hwriteNr⟩ :=
    initPipe_eq h (myInputPipe_lt hk) false
  obtain ⟨others, hothers, hmap⟩ :=
    closeOtherPipes_eq h (myInputPipe n k) k (Nat.zero_add n)
  refine ⟨readEnd :: writeEnd :: others, ?_, ?_⟩
  · rw [initMyPipes, getMyInputPipe_eq h hbound hk, except_ok_bind,
      getMyOutputPipe, h.pointer_eq hk, except_ok_bind, hread, except_ok_bind,
      hwrite, except_ok_bind, hothers]
    rfl
  · rw [RingShutdown.initMyPipes, List.map_cons, List.map_cons, hreadNr,
      hwriteNr, List.range_eq_range', hmap]
    rfl

/-- One end less. -/
theorem Holding.close {table₀ : FdTable (Description α)} {fd : Nat}
    (h : Holding pipeArr base held table)
    (hcreated : Created n n base pipeArr table₀)
    (hheld : ∀ e', held e' → e'.pipe < n) (he : e.pipe < n)
    (hfd : pipeArr.numberOf e = some fd) :
    Holding pipeArr base (fun e' => held e' ∧ e' ≠ e) (table.close fd) := by
  have hstart : table₀.entry fd = some (.pipeEnd e) :=
    (hcreated.holding.pipeEnd_iff fd e).mpr ⟨he, hfd⟩
  refine ⟨fun m a => ?_, fun m e' => ?_⟩
  · rw [FdTable.entry_close]
    split
    · next heq =>
        have hbase : base.entry fd ≠ some a := by
          intro hopen
          have hentry := (hcreated.holding.other_iff fd a).mpr hopen
          rw [hstart] at hentry
          cases hentry
        obtain rfl : m = fd := Int.ofNat.inj heq
        exact iff_of_false (fun hentry => nomatch hentry) hbase
    · exact h.other_iff m a
  · rw [FdTable.entry_close]
    split
    · next heq =>
        obtain rfl : m = fd := Int.ofNat.inj heq
        refine iff_of_false (fun hentry => nomatch hentry) ?_
        rintro ⟨⟨hheld', hne⟩, hnumber⟩
        have hother := (hcreated.holding.pipeEnd_iff m e').mpr
          ⟨hheld e' hheld', hnumber⟩
        rw [hstart] at hother
        cases hother
        exact hne rfl
    · next hne =>
        rw [h.pipeEnd_iff]
        constructor
        · rintro ⟨hheld', hnumber⟩
          refine ⟨⟨hheld', ?_⟩, hnumber⟩
          rintro rfl
          rw [hfd] at hnumber
          exact hne (congrArg Int.ofNat (Option.some.inj hnumber.symm))
        · exact fun hand => ⟨hand.1.1, hand.2⟩

end Closes

end Arrays

end OsLabs.Lab1.RingPipes
