import Mathlib.Tactic.Common

/-!
# Descriptor tables

The table of open file descriptors of one process, and the calls that change
it.  What a descriptor refers to is a parameter `α`: an *open file
description*, of which nothing is assumed.

A table is a function from descriptor numbers, closed above a bound, so that
there always is a lowest free number.  The calls follow POSIX: `open` and
`pipe` take the lowest free numbers (`pipe` the read end first), `close` of a
number that is not open changes nothing, and `dup2` needs an open source.
-/

namespace OsLabs.Posix

/-- The open descriptors of a process. -/
structure FdTable (α : Type) where
  entry : Nat → Option α
  bound : Nat
  closedAbove : ∀ fd, bound ≤ fd → entry fd = none

namespace FdTable

variable {α β : Type}

/-! ## Single entries -/

/-- The table with `fd` referring to `d`. -/
def set (t : FdTable α) (fd : Nat) (d : α) : FdTable α where
  entry n := if n = fd then some d else t.entry n
  bound := max t.bound (fd + 1)
  closedAbove n hn := by
    rw [if_neg (by omega)]
    exact t.closedAbove n (by omega)

/-- The table with `fd` not open. -/
def clear (t : FdTable α) (fd : Nat) : FdTable α where
  entry n := if n = fd then none else t.entry n
  bound := t.bound
  closedAbove n hn := by
    by_cases h : n = fd
    · exact if_pos h
    · rw [if_neg h]
      exact t.closedAbove n hn

/-- The table with every description replaced. -/
def map (f : α → β) (t : FdTable α) : FdTable β where
  entry n := (t.entry n).map f
  bound := t.bound
  closedAbove n hn := by rw [t.closedAbove n hn]; rfl

/-- A table with just 0, 1 and 2 open. -/
def standard : FdTable Nat where
  entry n := if n < 3 then some n else none
  bound := 3
  closedAbove _ hn := if_neg (Nat.not_lt.mpr hn)

@[simp] theorem entry_set (t : FdTable α) (fd : Nat) (d : α) (n : Nat) :
    (t.set fd d).entry n = if n = fd then some d else t.entry n := rfl

@[simp] theorem entry_clear (t : FdTable α) (fd n : Nat) :
    (t.clear fd).entry n = if n = fd then none else t.entry n := rfl

@[simp] theorem entry_map (f : α → β) (t : FdTable α) (n : Nat) :
    (t.map f).entry n = (t.entry n).map f := rfl

/-! ## The lowest free number -/

/-- The first closed number from `n` on, looking at no more than `fuel` open
ones. -/
def firstFree (entry : Nat → Option α) : Nat → Nat → Nat
  | 0, n => n
  | fuel + 1, n =>
    if (entry n).isNone then n else firstFree entry fuel (n + 1)

/-- The number `open` takes next. -/
def lowestFree (t : FdTable α) : Nat := firstFree t.entry t.bound 0

theorem firstFree_spec (entry : Nat → Option α) (fuel n : Nat)
    (h : entry (n + fuel) = none) :
    n ≤ firstFree entry fuel n ∧ entry (firstFree entry fuel n) = none ∧
      ∀ m, n ≤ m → m < firstFree entry fuel n → entry m ≠ none := by
  induction fuel generalizing n with
  | zero =>
      refine ⟨Nat.le_refl n, h, fun m hle hlt => ?_⟩
      exact absurd hlt (Nat.not_lt.mpr hle)
  | succ fuel ih =>
      unfold firstFree
      by_cases hn : (entry n).isNone
      · rw [if_pos hn]
        refine ⟨Nat.le_refl n, Option.isNone_iff_eq_none.mp hn, ?_⟩
        intro m hle hlt
        exact absurd hlt (Nat.not_lt.mpr hle)
      · rw [if_neg hn]
        have hrest := ih (n + 1) (by rw [← h]; congr 1; omega)
        refine ⟨by omega, hrest.2.1, fun m hle hlt => ?_⟩
        by_cases hm : m = n
        · subst hm
          exact fun hnone => hn (Option.isNone_iff_eq_none.mpr hnone)
        · exact hrest.2.2 m (by omega) hlt

theorem entry_lowestFree (t : FdTable α) : t.entry t.lowestFree = none :=
  (firstFree_spec t.entry t.bound 0 (t.closedAbove _ (by omega))).2.1

theorem entry_of_lt_lowestFree (t : FdTable α) {n : Nat}
    (h : n < t.lowestFree) : t.entry n ≠ none :=
  (firstFree_spec t.entry t.bound 0 (t.closedAbove _ (by omega))).2.2 n
    (Nat.zero_le n) h

theorem lowestFree_le {t : FdTable α} {n : Nat} (hfree : t.entry n = none) :
    t.lowestFree ≤ n := by
  by_contra hlt
  exact t.entry_of_lt_lowestFree (Nat.lt_of_not_le hlt) hfree

/-- The lowest free number is the only free one with no free one below. -/
theorem lowestFree_eq {t : FdTable α} {n : Nat} (hfree : t.entry n = none)
    (hbelow : ∀ m, m < n → t.entry m ≠ none) : t.lowestFree = n := by
  rcases Nat.lt_trichotomy t.lowestFree n with hlt | heq | hgt
  · exact absurd t.entry_lowestFree (hbelow _ hlt)
  · exact heq
  · exact absurd hfree (t.entry_of_lt_lowestFree hgt)

/-! ## Calls -/

/-- What a number refers to; nothing if it is negative. -/
def entryAt (t : FdTable α) : Int → Option α
  | .ofNat n => t.entry n
  | .negSucc _ => none

/-- `open` or `creat`: the new descriptor. -/
def openFile (t : FdTable α) (d : α) : Nat × FdTable α :=
  (t.lowestFree, t.set t.lowestFree d)

/-- `close`; its failure `EBADF` leaves the table as it is. -/
def close (t : FdTable α) : Int → FdTable α
  | .ofNat n => t.clear n
  | .negSucc _ => t

/-- `dup2`; `none` is the failure `EBADF`. -/
def dup2 (t : FdTable α) (old : Int) (new : Nat) : Option (FdTable α) :=
  (t.entryAt old).map (t.set new)

/-- `pipe`: the numbers of the read and of the write end. -/
def pipe (t : FdTable α) (readEnd writeEnd : α) : Nat × Nat × FdTable α :=
  let (r, t) := t.openFile readEnd
  let (w, t) := t.openFile writeEnd
  (r, w, t)

@[simp] theorem entryAt_ofNat (t : FdTable α) (n : Nat) :
    t.entryAt (n : Int) = t.entry n := rfl

/-- `dup2` of an open descriptor. -/
theorem dup2_eq {t : FdTable α} {old : Int} {d : α} (h : t.entryAt old = some d)
    (new : Nat) : t.dup2 old new = some (t.set new d) := by
  rw [dup2, h]
  rfl

theorem entry_close (t : FdTable α) (fd : Int) (n : Nat) :
    (t.close fd).entry n = if (n : Int) = fd then none else t.entry n := by
  cases fd with
  | ofNat m =>
      show (if n = m then none else t.entry n) =
        if (n : Int) = (m : Int) then none else t.entry n
      simp only [Int.natCast_inj]
  | negSucc m =>
      have hne : (n : Int) ≠ Int.negSucc m := by omega
      rw [if_neg hne]
      rfl

/-- A number that is found open is not negative. -/
theorem exists_of_entryAt {t : FdTable α} {fd : Int} {d : α}
    (h : t.entryAt fd = some d) : ∃ n : Nat, fd = n ∧ t.entry n = some d := by
  cases fd with
  | ofNat n => exact ⟨n, rfl, h⟩
  | negSucc n => cases h

/-- `pipe` on a table whose two lowest free numbers are known. -/
theorem pipe_eq {t : FdTable α} {r w : Nat} (readEnd writeEnd : α)
    (hr : t.lowestFree = r) (hw : (t.set r readEnd).lowestFree = w) :
    t.pipe readEnd writeEnd =
      (r, w, (t.set r readEnd).set w writeEnd) := by
  subst hr hw
  rfl

/-- Both ends of a pipe were free, and they differ. -/
theorem pipe_spec (t : FdTable α) (readEnd writeEnd : α) :
    ∃ r w, t.pipe readEnd writeEnd =
        (r, w, (t.set r readEnd).set w writeEnd) ∧
      t.entry r = none ∧ t.entry w = none ∧ w ≠ r := by
  have hw := (t.set t.lowestFree readEnd).entry_lowestFree
  refine ⟨_, _, pipe_eq readEnd writeEnd rfl rfl, t.entry_lowestFree, ?_, ?_⟩
  · rw [entry_set] at hw
    split at hw
    · cases hw
    · exact hw
  · intro heq
    rw [heq, entry_set, if_pos rfl] at hw
    cases hw

/-! ## How many can still be opened -/

/-- How many numbers below a limit are not open. -/
def freeBelow (t : FdTable α) : Nat → Nat
  | 0 => 0
  | limit + 1 => t.freeBelow limit + if (t.entry limit).isNone then 1 else 0

theorem freeBelow_congr {t : FdTable α} {t' : FdTable β}
    (h : ∀ fd, t.entry fd = none ↔ t'.entry fd = none) (limit : Nat) :
    t.freeBelow limit = t'.freeBelow limit := by
  induction limit with
  | zero => rfl
  | succ limit ih =>
      rw [freeBelow, freeBelow, ih]
      simp only [Option.isNone_iff_eq_none, h limit]

/-- The next number is below the limit when some free one is. -/
theorem lowestFree_lt_iff (t : FdTable α) (limit : Nat) :
    t.lowestFree < limit ↔ 0 < t.freeBelow limit := by
  induction limit with
  | zero => exact iff_of_false (Nat.not_lt_zero _) (Nat.lt_irrefl 0)
  | succ limit ih =>
      rw [freeBelow]
      by_cases hfree : t.entry limit = none
      · have hle := lowestFree_le hfree
        rw [if_pos (Option.isNone_iff_eq_none.mpr hfree)]
        exact iff_of_true (by omega) (by omega)
      · have hne : t.lowestFree ≠ limit := fun heq =>
          hfree (heq ▸ t.entry_lowestFree)
        rw [if_neg fun h => hfree (Option.isNone_iff_eq_none.mp h)]
        omega

/-- A free number below the limit has been taken. -/
theorem freeBelow_set {t : FdTable α} {fd limit : Nat}
    (hfree : t.entry fd = none) (hlt : fd < limit) (d : α) :
    (t.set fd d).freeBelow limit + 1 = t.freeBelow limit := by
  have hbelow : ∀ n ≤ fd, (t.set fd d).freeBelow n = t.freeBelow n := by
    intro n hn
    induction n with
    | zero => rfl
    | succ n ih =>
        rw [freeBelow, freeBelow, ih (Nat.le_of_succ_le hn), entry_set,
          if_neg (Nat.ne_of_lt hn)]
  induction limit with
  | zero => exact absurd hlt (Nat.not_lt_zero _)
  | succ limit ih =>
      rw [freeBelow, freeBelow, entry_set]
      by_cases heq : limit = fd
      · subst heq
        rw [hbelow limit (Nat.le_refl _), if_pos rfl, hfree]
        rfl
      · rw [if_neg heq, ← ih (by omega)]
        omega

end FdTable

end OsLabs.Posix
