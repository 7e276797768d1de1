import OsLabs.Lab1.CompareFiles
import OsLabs.Posix.Integers
import OsLabs.Posix.Memory

/-!
# The two searches for duplicate pairs

`printDuplicateFilePairs` as it stands in `duplicates.c`, over an array with
its size, and in `duplicates_backup.c`, over a list that ends with a null
pointer.  What `compareFiles` answers for two files is the environment's
choice; the files' names are of any type, so two positions need not answer
alike.

`printDuplicateFilePairs_agree_iff`: the older version never sets its inner
index back, so the two agree exactly when no duplicates lie behind the first
name.
-/

namespace OsLabs.Lab1.DuplicatePairs

open OsLabs.Posix

/-! ## What is printed -/

/-- How a run ends other than by returning: with an access outside the list,
with the overflow of an index, or because the model ran out of rounds. -/
inductive Stop where
  | fault (fault : Fault)
  | overflow
  deriving Repr, DecidableEq

/-- A line "%s and %s are the same file", and the positions it is about. -/
structure Pair (α : Type) where
  i : Nat
  j : Nat
  file1 : α
  file2 : α
  deriving Repr, DecidableEq

section

variable {α : Type} (same : α → α → Bool)

/-- `++i` of an `int` that is not negative. -/
def increment (i : Nat) : Except Stop Nat :=
  if InInt32 (i + 1) then .ok (i + 1) else .error .overflow

/-- The body of both inner loops: `compareFiles`, which answers `false` for a
null pointer, and `fprintf`. -/
def comparePair (i j : Nat) (file1 file2 : Option α)
    (outStream : List (Pair α)) : List (Pair α) :=
  match file1, file2 with
  | some a, some b =>
    if same a b then outStream ++ [⟨i, j, a, b⟩] else outStream
  | _, _ => outStream

/-! ## `duplicates.c` -/

namespace Duplicates

/-- `arr->elems[i]` -/
def elemAt (arr : List α) (i : Nat) : Except Stop (Option α) :=
  ((readAt arr i).map some).mapError .fault

/-- The inner loop of `printDuplicateFilePairs`. -/
def innerLoop (arr : List α) (i : Nat) : Nat → Nat → List (Pair α) →
    Except Stop (List (Pair α))
  | 0, _, _ => .error (.fault .outOfFuel)
  | fuel + 1, j, outStream =>
    if j < arr.length then do
      let file1 ← elemAt arr i
      let file2 ← elemAt arr j
      let next ← increment j
      innerLoop arr i fuel next (comparePair same i j file1 file2 outStream)
    else .ok outStream

/-- The outer loop of `printDuplicateFilePairs`. -/
def outerLoop (arr : List α) : Nat → Nat → List (Pair α) →
    Except Stop (List (Pair α))
  | 0, _, _ => .error (.fault .outOfFuel)
  | fuel + 1, i, outStream =>
    if i < arr.length then do
      let j ← increment i
      let outStream ← innerLoop same arr i (arr.length + 1) j outStream
      let next ← increment i
      outerLoop arr fuel next outStream
    else .ok outStream

/-- `printDuplicateFilePairs` -/
def printDuplicateFilePairs (arr : List α) : Except Stop (List (Pair α)) :=
  outerLoop same arr (arr.length + 1) 0 []

end Duplicates

/-! ## `duplicates_backup.c` -/

namespace DuplicatesBackup

/-- `fileNames[i]` -/
def fileNameAt (fileNames : List α) (i : Nat) : Except Stop (Option α) :=
  (pointerAt fileNames i).mapError .fault

/-- The inner loop of `printDuplicateFilePairs`: the index `j` after it, and
the output. -/
def innerLoop (fileNames : List α) (i : Nat) : Nat → Nat → List (Pair α) →
    Except Stop (Nat × List (Pair α))
  | 0, _, _ => .error (.fault .outOfFuel)
  | fuel + 1, j, outStream => do
    let file2 ← fileNameAt fileNames j
    if file2.isSome then
      let file1 ← fileNameAt fileNames i
      let next ← increment j
      innerLoop fileNames i fuel next
        (comparePair same i j file1 file2 outStream)
    else return (j, outStream)

/-- The outer loop of `printDuplicateFilePairs`.  It keeps `j`. -/
def outerLoop (fileNames : List α) : Nat → Nat → Nat → List (Pair α) →
    Except Stop (List (Pair α))
  | 0, _, _, _ => .error (.fault .outOfFuel)
  | fuel + 1, i, j, outStream => do
    let file1 ← fileNameAt fileNames i
    if file1.isSome then
      let (j, outStream) ←
        innerLoop same fileNames i (fileNames.length + 1) j outStream
      let next ← increment i
      outerLoop fileNames fuel next j outStream
    else return outStream

/-- `printDuplicateFilePairs` -/
def printDuplicateFilePairs (fileNames : List α) :
    Except Stop (List (Pair α)) := do
  let j ← increment 0
  outerLoop same fileNames (fileNames.length + 1) 0 j []

end DuplicatesBackup

/-! ## Rows of pairs -/

/-- The pairs of position `i` with the positions from `j` on. -/
def row (i : Nat) (a : α) : Nat → List α → List (Pair α)
  | _, [] => []
  | j, b :: ahead => comparePair same i j (some a) (some b) [] ++
      row i a (j + 1) ahead

/-- The pairs of the positions from `i` on. -/
def rows : Nat → List α → List (Pair α)
  | _, [] => []
  | i, a :: ahead => row same i a (i + 1) ahead ++ rows (i + 1) ahead

end

section Rows

variable {α : Type} {same : α → α → Bool} {names ahead : List α} {i j k : Nat}
  {a b : α} {outStream : List (Pair α)} {pair : Pair α}

theorem increment_of_lt (h : i < 2147483647) : increment i = .ok (i + 1) := by
  have hfits : InInt32 ((i : Int) + 1) := by
    unfold InInt32
    omega
  exact if_pos hfits

theorem increment_last : increment 2147483647 = .error .overflow := by
  have hout : ¬ InInt32 (((2147483647 : Nat) : Int) + 1) := by
    unfold InInt32
    omega
  exact if_neg hout

theorem comparePair_some (same : α → α → Bool) (i j : Nat) (a b : α)
    (outStream : List (Pair α)) :
    comparePair same i j (some a) (some b) outStream =
      if same a b then outStream ++ [⟨i, j, a, b⟩] else outStream := rfl

/-- What is printed goes behind the output that is there. -/
theorem comparePair_append (same : α → α → Bool) (i j : Nat) (a b : α)
    (outStream : List (Pair α)) :
    comparePair same i j (some a) (some b) outStream =
      outStream ++ comparePair same i j (some a) (some b) [] := by
  rw [comparePair_some, comparePair_some]
  split
  · rw [List.nil_append]
  · rw [List.append_nil]

theorem mem_comparePair : pair ∈ comparePair same i j (some a) (some b) [] ↔
    same a b = true ∧ pair = ⟨i, j, a, b⟩ := by
  rw [comparePair_some]
  split
  · rename_i hsame
    rw [List.nil_append, List.mem_singleton, hsame]
    exact ⟨fun h => ⟨rfl, h⟩, fun h => h.2⟩
  · rename_i hsame
    exact ⟨fun h => absurd h List.not_mem_nil, fun h => absurd h.1 hsame⟩

theorem mem_row : pair ∈ row same i a j ahead ↔
    pair.i = i ∧ pair.file1 = a ∧ same a pair.file2 = true ∧
      j ≤ pair.j ∧ ahead[pair.j - j]? = some pair.file2 := by
  induction ahead generalizing j with
  | nil =>
      rw [row, List.getElem?_nil]
      exact ⟨fun h => absurd h List.not_mem_nil, fun h => nomatch h.2.2.2.2⟩
  | cons b ahead ih =>
      rw [row, List.mem_append, mem_comparePair, ih]
      constructor
      · intro h
        rcases h with hfirst | hlater
        · rw [hfirst.2]
          refine ⟨rfl, rfl, hfirst.1, Nat.le_refl j, ?_⟩
          rw [Nat.sub_self]
          rfl
        · have hshift : pair.j - j = pair.j - (j + 1) + 1 := by
            have := hlater.2.2.2.1
            omega
          refine ⟨hlater.1, hlater.2.1, hlater.2.2.1, by omega, ?_⟩
          rw [hshift]
          exact hlater.2.2.2.2
      · rintro ⟨hi, hfile1, hsame, hle, hget⟩
        by_cases heq : pair.j = j
        · left
          rw [heq, Nat.sub_self] at hget
          have hb : b = pair.file2 := Option.some.inj hget
          refine ⟨hb ▸ hsame, ?_⟩
          rw [hb, ← hi, ← hfile1, ← heq]
        · right
          have hshift : pair.j - j = pair.j - (j + 1) + 1 := by omega
          rw [hshift] at hget
          exact ⟨hi, hfile1, hsame, by omega, hget⟩

theorem mem_rows : pair ∈ rows same k ahead ↔
    k ≤ pair.i ∧ pair.i < pair.j ∧ ahead[pair.i - k]? = some pair.file1 ∧
      ahead[pair.j - k]? = some pair.file2 ∧
      same pair.file1 pair.file2 = true := by
  induction ahead generalizing k with
  | nil =>
      rw [rows, List.getElem?_nil]
      exact ⟨fun h => absurd h List.not_mem_nil, fun h => nomatch h.2.2.1⟩
  | cons a ahead ih =>
      rw [rows, List.mem_append, mem_row, ih]
      constructor
      · intro h
        rcases h with ⟨hi, hfile1, hsame, hle, hget⟩ | hlater
        · have hshift : pair.j - k = pair.j - (k + 1) + 1 := by omega
          refine ⟨by omega, by omega, ?_, ?_, hfile1 ▸ hsame⟩
          · rw [hi, Nat.sub_self, hfile1]
            rfl
          · rw [hshift]
            exact hget
        · have hle := hlater.1
          have hlt := hlater.2.1
          have hshift₁ : pair.i - k = pair.i - (k + 1) + 1 := by omega
          have hshift₂ : pair.j - k = pair.j - (k + 1) + 1 := by omega
          rw [hshift₁, hshift₂]
          exact ⟨by omega, hlater.2⟩
      · rintro ⟨hle, hlt, hget₁, hget₂, hsame⟩
        have hshift₂ : pair.j - k = pair.j - (k + 1) + 1 := by omega
        rw [hshift₂] at hget₂
        by_cases heq : pair.i = k
        · left
          rw [heq, Nat.sub_self] at hget₁
          have ha : a = pair.file1 := Option.some.inj hget₁
          exact ⟨heq, ha.symm, ha ▸ hsame, by omega, hget₂⟩
        · right
          have hshift₁ : pair.i - k = pair.i - (k + 1) + 1 := by omega
          rw [hshift₁] at hget₁
          exact ⟨by omega, hlt, hget₁, hget₂, hsame⟩

/-- Earlier in the lexicographic order of the positions. -/
def Pair.Before (pair pair' : Pair α) : Prop :=
  pair.i < pair'.i ∨ pair.i = pair'.i ∧ pair.j < pair'.j

theorem pairwise_row (same : α → α → Bool) (i : Nat) (a : α) (j : Nat)
    (ahead : List α) : (row same i a j ahead).Pairwise Pair.Before := by
  induction ahead generalizing j with
  | nil => exact List.Pairwise.nil
  | cons b ahead ih =>
      rw [row]
      refine List.pairwise_append.mpr ⟨?_, ih (j + 1), ?_⟩
      · rw [comparePair_some]
        split
        · exact List.pairwise_singleton _ _
        · exact List.Pairwise.nil
      · intro first hfirst later hlater
        have hpair := (mem_comparePair.mp hfirst).2
        have hlater := mem_row.mp hlater
        rw [hpair]
        exact Or.inr ⟨hlater.1.symm, hlater.2.2.2.1⟩

theorem pairwise_rows (same : α → α → Bool) (k : Nat) (ahead : List α) :
    (rows same k ahead).Pairwise Pair.Before := by
  induction ahead generalizing k with
  | nil => exact List.Pairwise.nil
  | cons a ahead ih =>
      rw [rows]
      refine List.pairwise_append.mpr
        ⟨pairwise_row same k a (k + 1) ahead, ih (k + 1), ?_⟩
      intro first hfirst later hlater
      have hi := (mem_row.mp hfirst).1
      have hk := (mem_rows.mp hlater).1
      exact Or.inl (by omega)

/-- The first row of several. -/
theorem filter_rows (same : α → α → Bool) (k : Nat) (a : α)
    (ahead : List α) :
    (rows same k (a :: ahead)).filter (fun pair => pair.i = k) =
      row same k a (k + 1) ahead := by
  have hrow : ∀ pair ∈ row same k a (k + 1) ahead,
      decide (pair.i = k) = true := by
    intro pair hpair
    exact decide_eq_true (mem_row.mp hpair).1
  have hrows : ∀ pair ∈ rows same (k + 1) ahead,
      ¬ decide (pair.i = k) = true := by
    intro pair hpair
    have hle := (mem_rows.mp hpair).1
    rw [decide_eq_true_iff]
    omega
  rw [rows, List.filter_append, List.filter_eq_self.mpr hrow,
    List.filter_eq_nil_iff.mpr hrows, List.append_nil]

end Rows

/-! ## The array version -/

namespace Duplicates

section

variable {α : Type} {same : α → α → Bool} {arr ahead : List α} {i j fuel : Nat}
  {a b : α} {outStream : List (Pair α)}

theorem elemAt_of_ahead (h : Ahead arr i (a :: ahead)) :
    elemAt arr i = .ok (some a) := by
  have hget := getElem?_of_drop_cons h.drop_eq
  rw [elemAt, readAt, hget]
  rfl

/-- A round of the inner loop. -/
theorem innerLoop_round (hi : elemAt arr i = .ok (some a))
    (h : Ahead arr j (b :: ahead)) :
    innerLoop same arr i (fuel + 1) j outStream = (do
      let next ← increment j
      innerLoop same arr i fuel next
        (comparePair same i j (some a) (some b) outStream)) := by
  have hlength := h.length_eq
  rw [List.length_cons] at hlength
  have hlt : j < arr.length := by omega
  rw [innerLoop, if_pos hlt, hi, elemAt_of_ahead h, except_ok_bind,
    except_ok_bind]

theorem innerLoop_eq (hi : elemAt arr i = .ok (some a))
    (hfits : arr.length ≤ 2147483647) (h : Ahead arr j ahead)
    (hfuel : ahead.length < fuel) :
    innerLoop same arr i fuel j outStream =
      .ok (outStream ++ row same i a j ahead) := by
  induction ahead generalizing j fuel outStream with
  | nil =>
      obtain ⟨rounds, rfl⟩ : ∃ rounds, fuel = rounds + 1 :=
        ⟨fuel - 1, by omega⟩
      have hend : ¬ j < arr.length := by
        have := h.length_eq
        rw [List.length_nil] at this
        omega
      rw [innerLoop, if_neg hend, row, List.append_nil]
  | cons b ahead ih =>
      rw [List.length_cons] at hfuel
      obtain ⟨rounds, rfl⟩ : ∃ rounds, fuel = rounds + 1 :=
        ⟨fuel - 1, by omega⟩
      have hlength := h.length_eq
      rw [List.length_cons] at hlength
      have hj : j < 2147483647 := by omega
      have hrounds : ahead.length < rounds := by omega
      rw [innerLoop_round hi h, increment_of_lt hj]
      show innerLoop same arr i rounds (j + 1) _ = _
      rw [ih h.next hrounds, comparePair_append, List.append_assoc, row]

/-- In a longer array the index runs into the largest `int`. -/
theorem innerLoop_overflow (hi : elemAt arr i = .ok (some a))
    (hlong : 2147483647 < arr.length) (hj : j ≤ 2147483647)
    (hfuel : 2147483647 - j < fuel) :
    innerLoop same arr i fuel j outStream = .error .overflow := by
  induction fuel generalizing j outStream with
  | zero => omega
  | succ fuel ih =>
      have hlt : j < arr.length := by omega
      have hahead : Ahead arr j (arr[j] :: arr.drop (j + 1)) :=
        ⟨by omega, List.drop_eq_getElem_cons hlt⟩
      rw [innerLoop_round hi hahead]
      by_cases hlast : j = 2147483647
      · have hstop : increment j = .error .overflow :=
          hlast ▸ increment_last
        rw [hstop, except_error_bind]
      · have hj' : j < 2147483647 := by omega
        rw [increment_of_lt hj', except_ok_bind]
        exact ih (by omega) (by omega)

theorem outerLoop_eq (hfits : arr.length ≤ 2147483647)
    (h : Ahead arr i ahead) (hfuel : ahead.length < fuel) :
    outerLoop same arr fuel i outStream =
      .ok (outStream ++ rows same i ahead) := by
  induction ahead generalizing i fuel outStream with
  | nil =>
      obtain ⟨rounds, rfl⟩ : ∃ rounds, fuel = rounds + 1 :=
        ⟨fuel - 1, by omega⟩
      have hend : ¬ i < arr.length := by
        have := h.length_eq
        rw [List.length_nil] at this
        omega
      rw [outerLoop, if_neg hend, rows, List.append_nil]
  | cons a ahead ih =>
      rw [List.length_cons] at hfuel
      obtain ⟨rounds, rfl⟩ : ∃ rounds, fuel = rounds + 1 :=
        ⟨fuel - 1, by omega⟩
      have hlength := h.length_eq
      rw [List.length_cons] at hlength
      have hlt : i < arr.length := by omega
      have hi : i < 2147483647 := by omega
      have hinner : innerLoop same arr i (arr.length + 1) (i + 1) outStream =
          .ok (outStream ++ row same i a (i + 1) ahead) :=
        innerLoop_eq (elemAt_of_ahead h) hfits h.next (by omega)
      rw [outerLoop, if_pos hlt, increment_of_lt hi]
      simp only [except_ok_bind, hinner]
      rw [ih h.next (by omega), List.append_assoc, rows]

theorem printDuplicateFilePairs_eq (same : α → α → Bool)
    (hfits : arr.length ≤ 2147483647) :
    printDuplicateFilePairs same arr = .ok (rows same 0 arr) :=
  outerLoop_eq hfits (Ahead.start arr) (Nat.lt_succ_self _)

theorem printDuplicateFilePairs_overflow (same : α → α → Bool)
    (hlong : 2147483647 < arr.length) :
    printDuplicateFilePairs same arr = .error .overflow := by
  have hpos : 0 < arr.length := by omega
  have hfirst : elemAt arr 0 = .ok (some arr[0]) :=
    elemAt_of_ahead ⟨Nat.zero_le _, List.drop_eq_getElem_cons hpos⟩
  have hinner : innerLoop same arr 0 (arr.length + 1) 1 [] =
      .error .overflow :=
    innerLoop_overflow hfirst hlong (by omega) (by omega)
  have hzero : increment 0 = .ok 1 := increment_of_lt (by omega)
  rw [printDuplicateFilePairs, outerLoop, if_pos hpos, hzero]
  simp only [except_ok_bind, hinner, except_error_bind]

end

end Duplicates

/-! ## The version with a null pointer at the end -/

namespace DuplicatesBackup

section

variable {α : Type} {same : α → α → Bool} {fileNames ahead : List α}
  {i j fuel : Nat} {a b : α} {outStream : List (Pair α)}

theorem fileNameAt_of_cons (h : Ahead fileNames i (a :: ahead)) :
    fileNameAt fileNames i = .ok (some a) := by
  rw [fileNameAt, h.pointerAt_cons]
  rfl

theorem fileNameAt_of_nil (h : Ahead fileNames i []) :
    fileNameAt fileNames i = .ok none := by
  rw [fileNameAt, h.pointerAt_nil]
  rfl

/-- A round of the inner loop. -/
theorem innerLoop_round (hi : fileNameAt fileNames i = .ok (some a))
    (h : Ahead fileNames j (b :: ahead)) :
    innerLoop same fileNames i (fuel + 1) j outStream = (do
      let next ← increment j
      innerLoop same fileNames i fuel next
        (comparePair same i j (some a) (some b) outStream)) := by
  rw [innerLoop, fileNameAt_of_cons h, hi, except_ok_bind,
    Option.isSome_some, if_pos rfl, except_ok_bind]

/-- The null pointer ends the loop. -/
theorem innerLoop_end (h : Ahead fileNames j []) :
    innerLoop same fileNames i (fuel + 1) j outStream =
      .ok (j, outStream) := by
  rw [innerLoop, fileNameAt_of_nil h, except_ok_bind, Option.isSome_none,
    if_neg Bool.false_ne_true]
  rfl

theorem innerLoop_eq (hi : fileNameAt fileNames i = .ok (some a))
    (hfits : fileNames.length ≤ 2147483647) (h : Ahead fileNames j ahead)
    (hfuel : ahead.length < fuel) :
    innerLoop same fileNames i fuel j outStream =
      .ok (fileNames.length, outStream ++ row same i a j ahead) := by
  induction ahead generalizing j fuel outStream with
  | nil =>
      obtain ⟨rounds, rfl⟩ : ∃ rounds, fuel = rounds + 1 :=
        ⟨fuel - 1, by omega⟩
      have hend : j = fileNames.length := h.length_eq
      rw [innerLoop_end h, row, List.append_nil, hend]
  | cons b ahead ih =>
      rw [List.length_cons] at hfuel
      obtain ⟨rounds, rfl⟩ : ∃ rounds, fuel = rounds + 1 :=
        ⟨fuel - 1, by omega⟩
      have hlength := h.length_eq
      rw [List.length_cons] at hlength
      have hj : j < 2147483647 := by omega
      have hrounds : ahead.length < rounds := by omega
      rw [innerLoop_round hi h, increment_of_lt hj, except_ok_bind,
        ih h.next hrounds, comparePair_append, List.append_assoc, row]

/-- A round of the outer loop. -/
theorem outerLoop_round (h : Ahead fileNames i (a :: ahead)) :
    outerLoop same fileNames (fuel + 1) i j outStream = (do
      let inner ←
        innerLoop same fileNames i (fileNames.length + 1) j outStream
      let next ← increment i
      outerLoop same fileNames fuel next inner.1 inner.2) := by
  rw [outerLoop, fileNameAt_of_cons h, except_ok_bind, Option.isSome_some,
    if_pos rfl]

theorem outerLoop_end (h : Ahead fileNames i []) :
    outerLoop same fileNames (fuel + 1) i j outStream = .ok outStream := by
  rw [outerLoop, fileNameAt_of_nil h, except_ok_bind, Option.isSome_none,
    if_neg Bool.false_ne_true]
  rfl

/-- Once `j` stands at the end, the remaining rounds print nothing. -/
theorem outerLoop_idle (hfits : fileNames.length ≤ 2147483647)
    (h : Ahead fileNames i ahead) (hfuel : ahead.length < fuel) :
    outerLoop same fileNames fuel i fileNames.length outStream =
      .ok outStream := by
  induction ahead generalizing i fuel with
  | nil =>
      obtain ⟨rounds, rfl⟩ : ∃ rounds, fuel = rounds + 1 :=
        ⟨fuel - 1, by omega⟩
      exact outerLoop_end h
  | cons a ahead ih =>
      rw [List.length_cons] at hfuel
      obtain ⟨rounds, rfl⟩ : ∃ rounds, fuel = rounds + 1 :=
        ⟨fuel - 1, by omega⟩
      have hlength := h.length_eq
      rw [List.length_cons] at hlength
      have hi : i < 2147483647 := by omega
      have hnull : Ahead fileNames fileNames.length [] :=
        ⟨Nat.le_refl _, List.drop_length⟩
      rw [outerLoop_round h, innerLoop_end hnull, except_ok_bind,
        increment_of_lt hi, except_ok_bind]
      exact ih h.next (by omega)

/-- The pairs of the first name are all that is printed. -/
theorem printDuplicateFilePairs_eq (same : α → α → Bool)
    (hfits : fileNames.length ≤ 2147483647) :
    printDuplicateFilePairs same fileNames =
      .ok ((rows same 0 fileNames).filter fun pair => pair.i = 0) := by
  have hzero : increment 0 = .ok 1 := increment_of_lt (by omega)
  have hstart := Ahead.start fileNames
  rw [printDuplicateFilePairs, hzero, except_ok_bind]
  cases hnames : fileNames with
  | nil => rfl
  | cons a ahead =>
      rw [filter_rows, ← hnames]
      have hahead : Ahead fileNames 0 (a :: ahead) := hnames ▸ hstart
      have hlength := hahead.length_eq
      rw [List.length_cons] at hlength
      have hinner : innerLoop same fileNames 0 (fileNames.length + 1) 1 [] =
          .ok (fileNames.length, [] ++ row same 0 a 1 ahead) :=
        innerLoop_eq (fileNameAt_of_cons hahead) hfits hahead.next (by omega)
      rw [outerLoop_round hahead, hinner, except_ok_bind, hzero,
        except_ok_bind]
      exact outerLoop_idle hfits hahead.next (by omega)

end

end DuplicatesBackup

/-! ## Where the two agree -/

section

variable {α : Type} {same : α → α → Bool} {names : List α}

/-- `printed` is every pair `i < j` of equal files, once each, in the
lexicographic order of the positions. -/
structure AllEqualPairs (same : α → α → Bool) (names : List α)
    (printed : List (Pair α)) : Prop where
  mem_iff : ∀ pair, pair ∈ printed ↔
    pair.i < pair.j ∧ names[pair.i]? = some pair.file1 ∧
      names[pair.j]? = some pair.file2 ∧ same pair.file1 pair.file2 = true
  ordered : printed.Pairwise Pair.Before

/-- Both searches return, with the same output, and it is right. -/
def Agree (same : α → α → Bool) (names : List α) : Prop :=
  ∃ printed, AllEqualPairs same names printed ∧
    Duplicates.printDuplicateFilePairs same names = .ok printed ∧
    DuplicatesBackup.printDuplicateFilePairs same names = .ok printed

theorem allEqualPairs_rows (same : α → α → Bool) (names : List α) :
    AllEqualPairs same names (rows same 0 names) := by
  refine ⟨fun pair => ?_, pairwise_rows same 0 names⟩
  rw [mem_rows, Nat.sub_zero, Nat.sub_zero]
  exact and_iff_right (Nat.zero_le _)

theorem row_filePairs (same : α → α → Bool) (i : Nat) (a : α) (j : Nat)
    (ahead : List α) :
    (row same i a j ahead).map (fun pair => (pair.file1, pair.file2)) =
      (ahead.map fun b => (a, b)).filter fun pair => same pair.1 pair.2 := by
  induction ahead generalizing j with
  | nil => rfl
  | cons b ahead ih =>
      rw [row, List.map_append, ih, comparePair_some, List.map_cons,
        List.filter_cons]
      split
      · rfl
      · rfl

/-- The pairs of names are those of the list model of the search. -/
theorem rows_filePairs (same : α → α → Bool) (k : Nat) (names : List α) :
    (rows same k names).map (fun pair => (pair.file1, pair.file2)) =
      (CompareFiles.filePairs names).filter fun pair =>
        same pair.1 pair.2 := by
  induction names generalizing k with
  | nil => rfl
  | cons a ahead ih =>
      rw [rows, List.map_append, row_filePairs, ih, CompareFiles.filePairs,
        List.filter_append]

/-- The two searches agree exactly when the list is short enough for an `int`
index and no two equal files lie behind the first one. -/
theorem printDuplicateFilePairs_agree_iff (same : α → α → Bool)
    (names : List α) :
    Agree same names ↔
      names.length ≤ 2147483647 ∧
        ∀ i j a b, 1 ≤ i → i < j → names[i]? = some a → names[j]? = some b →
          same a b = false := by
  by_cases hfits : names.length ≤ 2147483647
  · have harray := Duplicates.printDuplicateFilePairs_eq same hfits
    have hbackup := DuplicatesBackup.printDuplicateFilePairs_eq same hfits
    have hright := allEqualPairs_rows same names
    constructor
    · rintro ⟨printed, -, hprinted, hprinted'⟩
      refine ⟨hfits, fun i j a b hi hij ha hb => ?_⟩
      have hsame : rows same 0 names =
          (rows same 0 names).filter fun pair => pair.i = 0 := by
        rw [harray] at hprinted
        rw [hbackup] at hprinted'
        rw [Except.ok.inj hprinted', Except.ok.inj hprinted]
      by_contra hequal
      have hmem : (⟨i, j, a, b⟩ : Pair α) ∈ rows same 0 names :=
        (hright.mem_iff _).mpr ⟨hij, ha, hb, eq_true_of_ne_false hequal⟩
      rw [hsame] at hmem
      have hzero : i = 0 := of_decide_eq_true (List.mem_filter.mp hmem).2
      omega
    · rintro ⟨-, hnone⟩
      refine ⟨_, hright, harray, ?_⟩
      rw [hbackup]
      refine congrArg Except.ok (List.filter_eq_self.mpr fun pair hpair => ?_)
      obtain ⟨hij, ha, hb, hequal⟩ := (hright.mem_iff pair).mp hpair
      refine decide_eq_true (Nat.eq_zero_of_not_pos fun hi => ?_)
      have hdiffer := hnone _ _ _ _ hi hij ha hb
      rw [hequal] at hdiffer
      cases hdiffer
  · refine iff_of_false ?_ fun h => hfits h.1
    rintro ⟨printed, -, hprinted, -⟩
    have harray := Duplicates.printDuplicateFilePairs_overflow same
      (Nat.lt_of_not_le hfits)
    rw [hprinted] at harray
    cases harray

end

/-- Three files with the same contents: the older version does not print the
second and the third. -/
theorem printDuplicateFilePairs_disagree :
    ¬ Agree (fun _ _ => true)
      [CompareFiles.nameA, CompareFiles.nameB, CompareFiles.nameC] := by
  rintro ⟨printed, hright, -, hbackup⟩
  have hprinted : printed = [⟨0, 1, CompareFiles.nameA, CompareFiles.nameB⟩,
      ⟨0, 2, CompareFiles.nameA, CompareFiles.nameC⟩] :=
    (Except.ok.inj hbackup).symm
  have hmem : (⟨1, 2, CompareFiles.nameB, CompareFiles.nameC⟩ :
      Pair CString) ∈ printed :=
    (hright.mem_iff _).mpr ⟨by decide, rfl, rfl, rfl⟩
  rw [hprinted] at hmem
  simp at hmem

end OsLabs.Lab1.DuplicatePairs
