import OsLabs.Posix.FdTable
import OsLabs.Posix.Integers
import OsLabs.Posix.Memory

/-!
# Comparing files

`compareFiles` and `printDuplicateFilePairs` of `duplicates.c`, on regular
files that do not change.  A descriptor opened by `compareFiles` refers to a
path and a position; the environment decides which calls fail, `open` also by
the number it would return.

`compareFiles_decides_iff`: the loop counter is an `int`, so two files are
compared to the end exactly when they differ in size or in their first `2 ^ 31`
bytes, or are smaller than that.  `printDuplicateFilePairs_sameOpen_iff`: the
descriptors are closed unless the files have the same size and different
bytes.
-/

namespace OsLabs.Lab1.CompareFiles

open OsLabs.Posix

/-! ## Files, calls and processes -/

/-- A regular file, of a size that `st_size` can express. -/
structure RegularFile where
  bytes : List UInt8
  sizeFits : bytes.length ≤ 9223372036854775807

/-- The regular files by their paths. -/
abbrev Files := CString → Option RegularFile

/-- What a descriptor refers to: something that `compareFiles` has not opened,
or a position in a file. -/
inductive Description (α : Type) where
  | other (d : α)
  | file (path : CString) (offset : Nat)
  deriving Repr, DecidableEq

/-- How a run ends other than by returning: `exit(EXIT_FAILURE)`, or what the
language leaves undefined. -/
inductive Stop where
  | exited
  | overflow
  | uninitialised
  | outOfFuel
  deriving Repr, DecidableEq

/-- Which calls fail, by their position among the calls of the same kind;
`open` also by the number it would return. -/
structure Environment where
  statFails : Nat → Bool
  openFails : Nat → Nat → Bool
  readFails : Nat → Bool

/-- The environment in which every call succeeds that can. -/
def Environment.quiet : Environment :=
  ⟨fun _ => false, fun _ _ => false, fun _ => false⟩

/-- The descriptors of a process, and how many calls it has made. -/
structure Process (α : Type) where
  table : FdTable (Description α)
  stats : Nat
  opens : Nat
  reads : Nat

/-! ## The source -/

section

variable {α : Type} (env : Environment) (files : Files)

/-- `stat`: the field `st_size`. -/
def statCall (path : CString) (p : Process α) : Option Nat × Process α :=
  let called := { p with stats := p.stats + 1 }
  if env.statFails p.stats then (none, called)
  else ((files path).map fun file => file.bytes.length, called)

/-- `open(path, O_RDONLY)`. -/
def openCall (path : CString) (p : Process α) : Option Nat × Process α :=
  let called := { p with opens := p.opens + 1 }
  match files path with
  | none => (none, called)
  | some _ =>
    if env.openFails p.opens p.table.lowestFree then (none, called)
    else
      let (fd, table) := p.table.openFile (.file path 0)
      (some fd, { called with table := table })

/-- `read(fd, &byte, 1)`: its result, and the variable `byte` after it. -/
def readCall (fd : Nat) (byte : Option UInt8) (p : Process α) :
    Int × Option UInt8 × Process α :=
  let called := { p with reads := p.reads + 1 }
  if env.readFails p.reads then (-1, byte, called)
  else
    match p.table.entry fd with
    | some (.file path offset) =>
      match files path with
      | none => (-1, byte, called)
      | some file =>
        match file.bytes[offset]? with
        | none => (0, byte, called)
        | some b =>
          (1, some b,
            { called with table := p.table.set fd (.file path (offset + 1)) })
    | _ => (-1, byte, called)

/-- `close(fd)`. -/
def closeCall (fd : Nat) (p : Process α) : Process α :=
  { p with table := p.table.clear fd }

/-- The loop of `compareFiles`.  It is left from inside when two bytes
differ. -/
def compareLoop (size fd1 fd2 : Nat) : Nat → Int → Option UInt8 →
    Option UInt8 → Process α → Except Stop (Bool × Process α)
  | 0, _, _, _, _ => throw .outOfFuel
  | fuel + 1, i, byte1, byte2, p =>
    if i < size then
      let (status1, byte1, p) := readCall env files fd1 byte1 p
      if status1 < 0 then throw .exited
      else
        let (status2, byte2, p) := readCall env files fd2 byte2 p
        if status2 < 0 then throw .exited
        else
          match byte1, byte2 with
          | some b1, some b2 =>
            if b1 ≠ b2 then return (false, p)
            else
              match int32 (i + 1) with
              | none => throw .overflow
              | some i => compareLoop size fd1 fd2 fuel i (some b1) (some b2) p
          | _, _ => throw .uninitialised
    else return (true, closeCall fd2 (closeCall fd1 p))

/-- `compareFiles`. -/
def compareFiles (filePath1 filePath2 : Option CString) (p : Process α) :
    Except Stop (Bool × Process α) :=
  match filePath1, filePath2 with
  | some path1, some path2 =>
    match statCall env files path1 p with
    | (none, _) => throw .exited
    | (some size1, p) =>
      match statCall env files path2 p with
      | (none, _) => throw .exited
      | (some size2, p) =>
        if size1 ≠ size2 then return (false, p)
        else
          match openCall env files path1 p with
          | (none, _) => throw .exited
          | (some fd1, p) =>
            match openCall env files path2 p with
            | (none, _) => throw .exited
            | (some fd2, p) =>
              compareLoop env files size1 fd1 fd2 (size1 + 1) 0 none none p
  | _, _ => return (false, p)

end

/-! ## What the loop computes -/

/-- The comparison of what lies ahead in two files of the same size, `i` bytes
into them; `++i` has no value when `i` is the largest `int`. -/
def compareFrom : Nat → List UInt8 → List UInt8 → Except Stop Bool
  | i, b1 :: rest1, b2 :: rest2 =>
    if b1 ≠ b2 then .ok false
    else if i + 1 ≤ 2147483647 then compareFrom (i + 1) rest1 rest2
    else .error .overflow
  | _, _, _ => .ok true

section Bytes

variable {i : Nat} {bytes1 bytes2 : List UInt8} {b : Bool} {stop : Stop}

theorem compareFrom_ok (hlength : bytes1.length = bytes2.length)
    (h : compareFrom i bytes1 bytes2 = .ok b) :
    b = decide (bytes1 = bytes2) := by
  induction bytes1 generalizing i bytes2 with
  | nil =>
      have hnil := List.length_eq_zero_iff.mp hlength.symm
      subst hnil
      cases h
      rfl
  | cons b1 rest1 ih =>
      cases bytes2 with
      | nil => cases hlength
      | cons b2 rest2 =>
          rw [compareFrom] at h
          by_cases hne : b1 = b2
          · rw [if_neg (not_not_intro hne)] at h
            split at h
            · rw [ih (Nat.succ.inj hlength) h]
              simp [hne]
            · cases h
          · rw [if_pos hne] at h
            cases h
            simp [hne]

/-- The comparison comes to an end exactly when the files are short enough or
differ before the counter overflows. -/
theorem compareFrom_decides_iff (hlength : bytes1.length = bytes2.length)
    (hi : i ≤ 2147483647) :
    compareFrom i bytes1 bytes2 = .ok (decide (bytes1 = bytes2)) ↔
      i + bytes1.length ≤ 2147483647 ∨
        bytes1.take (2147483648 - i) ≠ bytes2.take (2147483648 - i) := by
  induction bytes1 generalizing i bytes2 with
  | nil =>
      have hnil := List.length_eq_zero_iff.mp hlength.symm
      subst hnil
      exact iff_of_true rfl (Or.inl hi)
  | cons b1 rest1 ih =>
      cases bytes2 with
      | nil => cases hlength
      | cons b2 rest2 =>
          obtain ⟨ahead, hahead⟩ : ∃ ahead, 2147483648 - i = ahead + 1 :=
            ⟨2147483647 - i, by omega⟩
          rw [compareFrom, hahead, List.take_succ_cons, List.take_succ_cons]
          by_cases hne : b1 = b2
          · subst hne
            rw [if_neg (not_not_intro rfl)]
            by_cases hroom : i + 1 ≤ 2147483647
            · have hnext := ih (Nat.succ.inj hlength) hroom
              have hahead' : 2147483648 - (i + 1) = ahead := by omega
              rw [if_pos hroom]
              simp only [List.cons.injEq, true_and, List.length_cons, ne_eq]
              rw [hnext, hahead', Nat.add_assoc, Nat.add_comm 1]
            · have hzero : ahead = 0 := by omega
              rw [if_neg hroom, hzero]
              simp only [List.take_zero, ne_eq, not_true_eq_false, or_false,
                List.length_cons, reduceCtorEq, false_iff]
              omega
          · rw [if_pos hne]
            exact iff_of_true (by simp [hne]) (Or.inr (by simp [hne]))

end Bytes

/-! ## One round -/

section Rounds

variable {α : Type} {env : Environment} {files : Files} {p p' : Process α}
  {base : Nat → Option (Description α)} {path1 path2 path : CString}
  {file1 file2 file : RegularFile} {fd1 fd2 fd size k : Nat}

/-- A process in the middle of a comparison, `k` bytes into both files; `base`
are the descriptors it had before. -/
structure Comparing (base : Nat → Option (Description α)) (fd1 fd2 : Nat)
    (path1 path2 : CString) (k : Nat) (p : Process α) : Prop where
  ne : fd1 ≠ fd2
  first : p.table.entry fd1 = some (.file path1 k)
  second : p.table.entry fd2 = some (.file path2 k)
  others : ∀ n, n ≠ fd1 → n ≠ fd2 → p.table.entry n = base n

/-- A read from inside a file fails, or gives the byte and moves on. -/
theorem readCall_inside (env : Environment) (byte : Option UInt8)
    (hopen : p.table.entry fd = some (.file path k))
    (hfile : files path = some file) {b : UInt8}
    (hbyte : file.bytes[k]? = some b) :
    (env.readFails p.reads = true ∧ readCall env files fd byte p =
      (-1, byte, { p with reads := p.reads + 1 })) ∨
    (env.readFails p.reads = false ∧ readCall env files fd byte p =
      (1, some b, { p with
        table := p.table.set fd (.file path (k + 1))
        reads := p.reads + 1 })) := by
  unfold readCall
  cases hfails : env.readFails p.reads with
  | true => exact Or.inl ⟨rfl, rfl⟩
  | false =>
      right
      simp only [hopen, hfile, hbyte, Bool.false_eq_true, if_false, and_self]

/-- How the loop is left, `k` bytes into both files. -/
inductive LoopEnds (env : Environment) (base : Nat → Option (Description α))
    (fd1 fd2 : Nat) (path1 path2 : CString) (k : Nat)
    (ahead1 ahead2 : List UInt8) : Except Stop (Bool × Process α) → Prop where
  | exited {n : Nat} :
      env.readFails n = true →
      LoopEnds env base fd1 fd2 path1 path2 k ahead1 ahead2 (.error .exited)
  | overflow :
      compareFrom k ahead1 ahead2 = .error .overflow →
      LoopEnds env base fd1 fd2 path1 path2 k ahead1 ahead2 (.error .overflow)
  | differ {k' : Nat} {p' : Process α} :
      compareFrom k ahead1 ahead2 = .ok false →
      Comparing base fd1 fd2 path1 path2 k' p' →
      LoopEnds env base fd1 fd2 path1 path2 k ahead1 ahead2 (.ok (false, p'))
  | equal {p' : Process α} :
      compareFrom k ahead1 ahead2 = .ok true →
      (∀ n, p'.table.entry n = if n = fd1 ∨ n = fd2 then none else base n) →
      LoopEnds env base fd1 fd2 path1 path2 k ahead1 ahead2 (.ok (true, p'))

/-- Both bytes have been read. -/
theorem Comparing.advance (h : Comparing base fd1 fd2 path1 path2 k p)
    (reads : Nat) :
    Comparing base fd1 fd2 path1 path2 (k + 1) { p with
      table := (p.table.set fd1 (.file path1 (k + 1))).set fd2
        (.file path2 (k + 1))
      reads := reads } := by
  refine ⟨h.ne, ?_, ?_, ?_⟩
  · show (if fd1 = fd2 then _ else if fd1 = fd1 then _ else _) = _
    rw [if_neg h.ne, if_pos rfl]
  · exact if_pos rfl
  · intro n hn1 hn2
    show (if n = fd2 then _ else if n = fd1 then _ else p.table.entry n) = _
    rw [if_neg hn2, if_neg hn1]
    exact h.others n hn1 hn2

/-- Both files are closed. -/
theorem Comparing.closed (h : Comparing base fd1 fd2 path1 path2 k p)
    (n : Nat) :
    (closeCall fd2 (closeCall fd1 p)).table.entry n =
      if n = fd1 ∨ n = fd2 then none else base n := by
  show (if n = fd2 then none else if n = fd1 then none
    else p.table.entry n) = _
  by_cases hn2 : n = fd2
  · rw [if_pos hn2, if_pos (Or.inr hn2)]
  · by_cases hn1 : n = fd1
    · rw [if_neg hn2, if_pos hn1, if_pos (Or.inl hn1)]
    · rw [if_neg hn2, if_neg hn1, if_neg (fun hor => hor.elim hn1 hn2)]
      exact h.others n hn1 hn2

/-- A round that changes nothing about the outcome. -/
theorem LoopEnds.of_eq {k' : Nat} {ahead1 ahead2 ahead1' ahead2' : List UInt8}
    {result : Except Stop (Bool × Process α)}
    (heq : compareFrom k ahead1 ahead2 = compareFrom k' ahead1' ahead2')
    (h : LoopEnds env base fd1 fd2 path1 path2 k' ahead1' ahead2' result) :
    LoopEnds env base fd1 fd2 path1 path2 k ahead1 ahead2 result := by
  cases h with
  | exited hfails => exact .exited hfails
  | overflow hcompare => exact .overflow (heq.trans hcompare)
  | differ hcompare hcomparing => exact .differ (heq.trans hcompare) hcomparing
  | equal hcompare hclosed => exact .equal (heq.trans hcompare) hclosed

/-- The byte at a position, and what lies ahead of it. -/
theorem drop_of_lt (hsize : file.bytes.length = size) (hlt : k < size) :
    ∃ b, file.bytes[k]? = some b ∧
      file.bytes.drop k = b :: file.bytes.drop (k + 1) := by
  have hbound : k < file.bytes.length := by omega
  exact ⟨_, List.getElem?_eq_getElem hbound, List.drop_eq_getElem_cons hbound⟩

/-- A round of the loop in which both reads succeed. -/
theorem compareLoop_round {p1 p2 : Process α} {b1 b2 : UInt8} {i : Int}
    {byte1 byte2 : Option UInt8} (fuel : Nat) (hlt : i < size)
    (hread1 : readCall env files fd1 byte1 p = (1, some b1, p1))
    (hread2 : readCall env files fd2 byte2 p1 = (1, some b2, p2)) :
    compareLoop env files size fd1 fd2 (fuel + 1) i byte1 byte2 p =
      if b1 ≠ b2 then .ok (false, p2)
      else
        match int32 (i + 1) with
        | none => .error .overflow
        | some i =>
          compareLoop env files size fd1 fd2 fuel i (some b1) (some b2) p2 := by
  have hstatus : ¬ (1 : Int) < 0 := by decide
  rw [compareLoop, if_pos hlt, hread1]
  show (if (1 : Int) < 0 then _ else _) = _
  rw [if_neg hstatus, hread2]
  show (if (1 : Int) < 0 then _ else _) = _
  rw [if_neg hstatus]
  rfl

/-- A round in which the first read fails. -/
theorem compareLoop_exited_first {p1 : Process α} {i : Int}
    {byte1 byte2 : Option UInt8} (fuel : Nat) (hlt : i < size)
    (hread1 : readCall env files fd1 byte1 p = (-1, byte1, p1)) :
    compareLoop env files size fd1 fd2 (fuel + 1) i byte1 byte2 p =
      .error .exited := by
  have hfailed : (-1 : Int) < 0 := by decide
  rw [compareLoop, if_pos hlt, hread1]
  exact if_pos hfailed

/-- A round in which the second one does. -/
theorem compareLoop_exited_second {p1 p2 : Process α} {b1 : UInt8} {i : Int}
    {byte1 byte2 : Option UInt8} (fuel : Nat) (hlt : i < size)
    (hread1 : readCall env files fd1 byte1 p = (1, some b1, p1))
    (hread2 : readCall env files fd2 byte2 p1 = (-1, byte2, p2)) :
    compareLoop env files size fd1 fd2 (fuel + 1) i byte1 byte2 p =
      .error .exited := by
  have hstatus : ¬ (1 : Int) < 0 := by decide
  have hfailed : (-1 : Int) < 0 := by decide
  rw [compareLoop, if_pos hlt, hread1]
  show (if (1 : Int) < 0 then _ else _) = _
  rw [if_neg hstatus, hread2]
  exact if_pos hfailed

/-- A round inside both files: a read fails, or both bytes are read. -/
theorem compareLoop_inside (env : Environment)
    (hfile1 : files path1 = some file1) (hfile2 : files path2 = some file2)
    {b1 b2 : UInt8} (hbyte1 : file1.bytes[k]? = some b1)
    (hbyte2 : file2.bytes[k]? = some b2) (hlt : k < size) (fuel : Nat)
    (h : Comparing base fd1 fd2 path1 path2 k p) (byte1 byte2 : Option UInt8) :
    ((∃ n, env.readFails n = true) ∧
      compareLoop env files size fd1 fd2 (fuel + 1) k byte1 byte2 p =
        .error .exited) ∨
    ∃ p1 p2, readCall env files fd1 byte1 p = (1, some b1, p1) ∧
      readCall env files fd2 byte2 p1 = (1, some b2, p2) ∧
      Comparing base fd1 fd2 path1 path2 (k + 1) p2 := by
  have hround : (k : Int) < size := Int.ofNat_lt.mpr hlt
  rcases readCall_inside env byte1 h.first hfile1 hbyte1 with
    ⟨hfails, hread1⟩ | ⟨-, hread1⟩
  · exact Or.inl ⟨⟨_, hfails⟩,
      compareLoop_exited_first fuel hround hread1⟩
  · have hsecond : (p.table.set fd1 (.file path1 (k + 1))).entry fd2 =
        some (.file path2 k) :=
      (if_neg h.ne.symm).trans h.second
    rcases readCall_inside (p := { p with
      table := p.table.set fd1 (.file path1 (k + 1))
      reads := p.reads + 1 }) env byte2 hsecond hfile2 hbyte2 with
      ⟨hfails, hread2⟩ | ⟨-, hread2⟩
    · exact Or.inl ⟨⟨_, hfails⟩,
        compareLoop_exited_second fuel hround hread1 hread2⟩
    · exact Or.inr ⟨_, _, hread1, hread2, h.advance (p.reads + 1 + 1)⟩

/-- **The loop**, from any position that the counter can reach. -/
theorem compareLoop_ends (env : Environment) (hfile1 : files path1 = some file1)
    (hfile2 : files path2 = some file2) (hsize1 : file1.bytes.length = size)
    (hsize2 : file2.bytes.length = size) (fuel : Nat)
    (h : Comparing base fd1 fd2 path1 path2 k p) (hk : k ≤ size)
    (hint : k ≤ 2147483647) (hfuel : size - k < fuel)
    (byte1 byte2 : Option UInt8) :
    LoopEnds env base fd1 fd2 path1 path2 k (file1.bytes.drop k)
      (file2.bytes.drop k)
      (compareLoop env files size fd1 fd2 fuel k byte1 byte2 p) := by
  induction fuel generalizing k p byte1 byte2 with
  | zero => exact absurd hfuel (Nat.not_lt_zero _)
  | succ fuel ih =>
      by_cases hlt : k < size
      · obtain ⟨b1, hbyte1, hdrop1⟩ := drop_of_lt hsize1 hlt
        obtain ⟨b2, hbyte2, hdrop2⟩ := drop_of_lt hsize2 hlt
        rw [hdrop1, hdrop2]
        rcases compareLoop_inside env hfile1 hfile2 hbyte1 hbyte2 hlt fuel h
          byte1 byte2 with
          ⟨⟨n, hfails⟩, hexited⟩ | ⟨p1, p2, hread1, hread2, hadvance⟩
        · rw [hexited]
          exact .exited hfails
        · rw [compareLoop_round fuel (Int.ofNat_lt.mpr hlt) hread1 hread2]
          by_cases hne : b1 = b2
          · subst hne
            rw [if_neg (not_not_intro rfl)]
            by_cases hroom : k + 1 ≤ 2147483647
            · have hcounter :
                  int32 ((k : Int) + 1) = some ((k + 1 : Nat) : Int) :=
                int32_of_fits (by unfold InInt32; omega)
              have hrest := ih hadvance (by omega) hroom (by omega) (some b1)
                (some b1)
              have heq : compareFrom k (b1 :: file1.bytes.drop (k + 1))
                  (b1 :: file2.bytes.drop (k + 1)) =
                compareFrom (k + 1) (file1.bytes.drop (k + 1))
                  (file2.bytes.drop (k + 1)) := by
                rw [compareFrom, if_neg (not_not_intro rfl), if_pos hroom]
              rw [hcounter]
              exact hrest.of_eq heq
            · have hcounter : int32 ((k : Int) + 1) = none :=
                if_neg (by unfold InInt32; omega)
              rw [hcounter]
              apply LoopEnds.overflow
              rw [compareFrom, if_neg (not_not_intro rfl), if_neg hroom]
          · rw [if_pos hne]
            refine .differ ?_ hadvance
            rw [compareFrom, if_pos hne]
      · have hend1 : file1.bytes.drop k = [] :=
          List.drop_eq_nil_iff.mpr (by omega)
        have hend2 : file2.bytes.drop k = [] :=
          List.drop_eq_nil_iff.mpr (by omega)
        rw [compareLoop, if_neg (by omega), hend1, hend2]
        exact .equal rfl h.closed

end Rounds

/-! ## `compareFiles` -/

section Compare

variable {α : Type} {env : Environment} {files : Files} {p p' : Process α}
  {path path1 path2 : CString} {file file1 file2 : RegularFile}

theorem statCall_file (env : Environment) (hfile : files path = some file)
    (p : Process α) :
    (env.statFails p.stats = true ∧ statCall env files path p =
      (none, { p with stats := p.stats + 1 })) ∨
    (statCall env files path p =
      (some file.bytes.length, { p with stats := p.stats + 1 })) := by
  unfold statCall
  cases hfails : env.statFails p.stats with
  | true => exact Or.inl ⟨rfl, rfl⟩
  | false =>
      right
      simp only [hfile, Bool.false_eq_true, if_false, Option.map_some]

theorem openCall_file (env : Environment) (hfile : files path = some file)
    (p : Process α) :
    (env.openFails p.opens p.table.lowestFree = true ∧
      openCall env files path p = (none, { p with opens := p.opens + 1 })) ∨
    (openCall env files path p = (some p.table.lowestFree, { p with
      table := p.table.set p.table.lowestFree (.file path 0)
      opens := p.opens + 1 })) := by
  unfold openCall
  cases hfails : env.openFails p.opens p.table.lowestFree with
  | true =>
      left
      simp only [hfile, if_true, and_self]
  | false =>
      right
      simp only [hfile, Bool.false_eq_true, if_false]
      rfl

/-- A number that the next two `open` calls may return. -/
def NextOpened (base : Nat → Option (Description α)) (fd : Nat) : Prop :=
  ∀ n m, n < m → base n = none → base m = none → fd ≤ m

/-- Some call of a comparison fails. -/
def Environment.Fails (env : Environment)
    (base : Nat → Option (Description α)) : Prop :=
  (∃ n, env.statFails n = true) ∨
    (∃ n fd, NextOpened base fd ∧ env.openFails n fd = true) ∨
    ∃ n, env.readFails n = true

/-- How a comparison of two files is left. -/
inductive CompareEnds (env : Environment) (base : Nat → Option (Description α))
    (path1 path2 : CString) (file1 file2 : RegularFile) :
    Except Stop (Bool × Process α) → Prop where
  | exited :
      env.Fails base →
      CompareEnds env base path1 path2 file1 file2 (.error .exited)
  | sizes {p' : Process α} :
      file1.bytes.length ≠ file2.bytes.length → p'.table.entry = base →
      CompareEnds env base path1 path2 file1 file2 (.ok (false, p'))
  | loop {fd1 fd2 : Nat} {result : Except Stop (Bool × Process α)} :
      file1.bytes.length = file2.bytes.length →
      base fd1 = none → base fd2 = none →
      LoopEnds env base fd1 fd2 path1 path2 0 file1.bytes file2.bytes result →
      CompareEnds env base path1 path2 file1 file2 result

/-- Both files have just been opened, at two numbers that were free. -/
theorem Comparing.start (t : FdTable (Description α)) (path1 path2 : CString)
    (stats opens reads : Nat) :
    t.entry (t.set t.lowestFree (.file path1 0)).lowestFree = none ∧
    Comparing t.entry t.lowestFree
      (t.set t.lowestFree (.file path1 0)).lowestFree path1 path2 0
      ⟨(t.set t.lowestFree (.file path1 0)).set
        (t.set t.lowestFree (.file path1 0)).lowestFree (.file path2 0),
        stats, opens, reads⟩ := by
  have hfree := (t.set t.lowestFree (.file path1 0)).entry_lowestFree
  generalize (t.set t.lowestFree (.file path1 0)).lowestFree = fd2 at hfree ⊢
  rw [FdTable.entry_set] at hfree
  have hne : t.lowestFree ≠ fd2 := by
    intro heq
    rw [if_pos heq.symm] at hfree
    cases hfree
  rw [if_neg (Ne.symm hne)] at hfree
  refine ⟨hfree, hne, ?_, if_pos rfl, ?_⟩
  · exact (if_neg hne).trans (if_pos rfl)
  · intro n hn1 hn2
    exact (if_neg hn2).trans (if_neg hn1)

theorem nextOpened_first (t : FdTable (Description α)) :
    NextOpened t.entry t.lowestFree := by
  intro n m hlt hn _
  have hle := FdTable.lowestFree_le hn
  omega

theorem nextOpened_second (t : FdTable (Description α))
    (d : Description α) :
    NextOpened t.entry (t.set t.lowestFree d).lowestFree := by
  intro n m hlt hn hm
  have hle := FdTable.lowestFree_le hn
  apply FdTable.lowestFree_le
  rw [FdTable.entry_set, if_neg (by omega)]
  exact hm

theorem compareFiles_ends (env : Environment)
    (hfile1 : files path1 = some file1) (hfile2 : files path2 = some file2)
    (p : Process α) :
    CompareEnds env p.table.entry path1 path2 file1 file2
      (compareFiles env files (some path1) (some path2) p) := by
  unfold compareFiles
  rcases statCall_file env hfile1 p with ⟨hfails, hstat1⟩ | hstat1
  · simp only [hstat1]
    exact .exited (Or.inl ⟨_, hfails⟩)
  · rcases statCall_file env hfile2 { p with stats := p.stats + 1 } with
      ⟨hfails, hstat2⟩ | hstat2
    · simp only [hstat1, hstat2]
      exact .exited (Or.inl ⟨_, hfails⟩)
    · simp only [hstat1, hstat2]
      by_cases hsize : file1.bytes.length = file2.bytes.length
      · rw [if_neg (not_not_intro hsize)]
        rcases openCall_file env hfile1
          { p with stats := p.stats + 1 + 1 } with ⟨hfails, hopen1⟩ | hopen1
        · simp only [hopen1]
          exact .exited
            (Or.inr (Or.inl ⟨_, _, nextOpened_first p.table, hfails⟩))
        · simp only [hopen1]
          rcases openCall_file env hfile2 { p with
            table := p.table.set p.table.lowestFree (.file path1 0)
            stats := p.stats + 1 + 1
            opens := p.opens + 1 } with ⟨hfails, hopen2⟩ | hopen2
          · simp only [hopen2]
            exact .exited
              (Or.inr (Or.inl ⟨_, _, nextOpened_second p.table _, hfails⟩))
          · simp only [hopen2]
            obtain ⟨hfree, hstart⟩ := Comparing.start p.table path1 path2
              (p.stats + 1 + 1) (p.opens + 1 + 1) p.reads
            exact .loop hsize p.table.entry_lowestFree hfree
              (compareLoop_ends env hfile1 hfile2 rfl hsize.symm _ hstart
                (Nat.zero_le _) (Nat.zero_le _) (Nat.lt_succ_self _) none none)
      · rw [if_pos hsize]
        exact .sizes hsize rfl

theorem not_quiet_fails (base : Nat → Option (Description α)) :
    ¬ Environment.quiet.Fails base := by
  rintro (⟨n, h⟩ | ⟨n, fd, -, h⟩ | ⟨n, h⟩) <;> cases h

theorem quiet_readFails (n : Nat) : ¬ Environment.quiet.readFails n = true :=
  Bool.false_ne_true

/-- When the counter overflows, files that are equal are not found to be. -/
theorem compareFiles_overflow (hfile1 : files path1 = some file1)
    (hfile2 : files path2 = some file2) (hsame : file1.bytes = file2.bytes)
    (hlarge : 2147483647 < file1.bytes.length) (p : Process α) :
    compareFiles .quiet files (some path1) (some path2) p =
      .error .overflow := by
  have hends := compareFiles_ends .quiet hfile1 hfile2 p
  have hnot : compareFrom 0 file1.bytes file2.bytes ≠
      .ok (decide (file1.bytes = file2.bytes)) := by
    rw [ne_eq, compareFrom_decides_iff (congrArg _ hsame) (Nat.zero_le _)]
    rintro (hshort | htake)
    · omega
    · exact htake (congrArg _ hsame)
  generalize compareFiles .quiet files (some path1) (some path2) p = result
    at hends ⊢
  cases hends with
  | exited hfails => exact absurd hfails (not_quiet_fails _)
  | sizes hne _ => exact absurd (congrArg _ hsame) hne
  | loop hsize _ _ hloop =>
      cases hloop with
      | exited hfails => exact absurd hfails (quiet_readFails _)
      | overflow _ => rfl
      | differ hcompare _ =>
          exact absurd (compareFrom_ok hsize hcompare ▸ hcompare) hnot
      | equal hcompare _ =>
          exact absurd (compareFrom_ok hsize hcompare ▸ hcompare) hnot

/-- **`compareFiles` decides whether two files are equal** exactly when they
differ in size or within the first `2 ^ 31` bytes, or are smaller than
that. -/
theorem compareFiles_decides_iff (hfile1 : files path1 = some file1)
    (hfile2 : files path2 = some file2) (p : Process α) :
    (∃ p', compareFiles .quiet files (some path1) (some path2) p =
        .ok (decide (file1.bytes = file2.bytes), p')) ↔
      file1.bytes.length ≠ file2.bytes.length ∨
        file1.bytes.length ≤ 2147483647 ∨
        file1.bytes.take 2147483648 ≠ file2.bytes.take 2147483648 := by
  have hends := compareFiles_ends .quiet hfile1 hfile2 p
  generalize compareFiles .quiet files (some path1) (some path2) p = result
    at hends ⊢
  cases hends with
  | exited hfails => exact absurd hfails (not_quiet_fails _)
  | sizes hne _ =>
      have hbytes : file1.bytes ≠ file2.bytes :=
        fun heq => hne (congrArg _ heq)
      rw [decide_eq_false hbytes]
      exact iff_of_true ⟨_, rfl⟩ (Or.inl hne)
  | loop hsize _ _ hloop =>
      have hiff := compareFrom_decides_iff hsize (Nat.zero_le 2147483647)
      rw [Nat.zero_add] at hiff
      rw [or_iff_right (not_not_intro hsize), ← hiff]
      cases hloop with
      | exited hfails => exact absurd hfails (quiet_readFails _)
      | overflow hcompare =>
          rw [hcompare]
          exact iff_of_false (fun ⟨_, h⟩ => by cases h) (fun h => by cases h)
      | differ hcompare _ =>
          rw [← compareFrom_ok hsize hcompare]
          exact iff_of_true ⟨_, rfl⟩ hcompare
      | equal hcompare _ =>
          rw [← compareFrom_ok hsize hcompare]
          exact iff_of_true ⟨_, rfl⟩ hcompare

/-! ### Two files of zeros -/

theorem nameA_nulFree : (0 : UInt8) ∉ [97] := by
  decide

theorem nameB_nulFree : (0 : UInt8) ∉ [98] := by
  decide

/-- `a` -/
def nameA : CString := ⟨[97], nameA_nulFree⟩

/-- `b` -/
def nameB : CString := ⟨[98], nameB_nulFree⟩

theorem two_fits : 2 ≤ 9223372036854775807 := by
  decide

theorem large_fits : 2147483648 ≤ 9223372036854775807 := by
  decide

/-- A file of zeros. -/
def zeros (size : Nat) (h : size ≤ 9223372036854775807) : RegularFile :=
  ⟨List.replicate size 0, by rw [List.length_replicate]; exact h⟩

/-- A file that the counter is too small for. -/
def largeFile : RegularFile := zeros 2147483648 large_fits

theorem largeFile_length : largeFile.bytes.length = 2147483648 :=
  List.length_replicate

/-- A directory of two files. -/
def twoFiles (fileA fileB : RegularFile) : Files := fun path =>
  if path = nameA then some fileA else if path = nameB then some fileB else none

/-- A process with nothing but the standard descriptors. -/
def freshProcess : Process Nat :=
  ⟨FdTable.standard.map .other, 0, 0, 0⟩

/-- Two files of two bytes, both zero. -/
theorem compareFiles_decides_iff_small :
    (∃ p', compareFiles .quiet
        (twoFiles (zeros 2 two_fits) (zeros 2 two_fits))
        (some nameA) (some nameB) freshProcess =
        .ok (decide ((zeros 2 two_fits).bytes = (zeros 2 two_fits).bytes),
          p')) ↔
      (zeros 2 two_fits).bytes.length ≠ (zeros 2 two_fits).bytes.length ∨
        (zeros 2 two_fits).bytes.length ≤ 2147483647 ∨
        (zeros 2 two_fits).bytes.take 2147483648 ≠
          (zeros 2 two_fits).bytes.take 2147483648 :=
  compareFiles_decides_iff rfl rfl freshProcess

/-- Two equal files of `2 ^ 31` bytes: the counter overflows. -/
theorem compareFiles_large :
    compareFiles .quiet (twoFiles largeFile largeFile) (some nameA)
        (some nameB) freshProcess = .error .overflow ∧
      ¬ ∃ p', compareFiles .quiet (twoFiles largeFile largeFile) (some nameA)
        (some nameB) freshProcess = .ok (true, p') := by
  have hlarge : 2147483647 < largeFile.bytes.length := by
    rw [largeFile_length]
    decide
  have hfile1 : twoFiles largeFile largeFile nameA = some largeFile := rfl
  have hfile2 : twoFiles largeFile largeFile nameB = some largeFile := rfl
  have hrun := compareFiles_overflow hfile1 hfile2 rfl hlarge freshProcess
  refine ⟨hrun, ?_⟩
  rw [hrun]
  rintro ⟨p', hreturned⟩
  cases hreturned

end Compare

/-! ## Pairs of files -/

/-- The pairs `i < j` of an array, in the order of the two loops of
`printDuplicateFilePairs`. -/
def filePairs {β : Type} : List β → List (β × β)
  | [] => []
  | elem :: rest => rest.map (fun other => (elem, other)) ++ filePairs rest

/-- A call of `compareFiles` that has returned, and the descriptors before and
after it. -/
structure Call (α : Type) where
  pair : Option CString × Option CString
  result : Bool
  before : FdTable (Description α)
  after : FdTable (Description α)

section Pairs

variable {α : Type}

/-- The calls of `compareFiles` that return, and how the last one leaves the
process. -/
def comparePairs (env : Environment) (files : Files) :
    List (Option CString × Option CString) → Process α →
    List (Call α) × Except Stop (Process α)
  | [], p => ([], .ok p)
  | pair :: pairs, p =>
    match compareFiles env files pair.1 pair.2 p with
    | .error stop => ([], .error stop)
    | .ok (result, p') =>
      let (calls, ending) := comparePairs env files pairs p'
      (⟨pair, result, p.table, p'.table⟩ :: calls, ending)

/-- `printDuplicateFilePairs`: its calls of `compareFiles`; it prints the
pairs for which the result is true. -/
def printDuplicateFilePairs (env : Environment) (files : Files)
    (arr : List (Option CString)) (p : Process α) :
    List (Call α) × Except Stop (Process α) :=
  comparePairs env files (filePairs arr) p

/-- The same numbers are open. -/
def SameOpen (before after : FdTable (Description α)) : Prop :=
  ∀ fd, (after.entry fd).isSome ↔ (before.entry fd).isSome

/-- Two files of the same size with different bytes. -/
def DifferInside (files : Files) (pair : Option CString × Option CString) :
    Prop :=
  ∃ path1 path2 file1 file2, pair = (some path1, some path2) ∧
    files path1 = some file1 ∧ files path2 = some file2 ∧
    file1.bytes.length = file2.bytes.length ∧ file1.bytes ≠ file2.bytes

variable {env : Environment} {files : Files} {p p' : Process α}
  {base : Nat → Option (Description α)} {path1 path2 : CString}
  {file1 file2 : RegularFile} {result : Bool}

/-- A file that `stat` finds exists. -/
theorem exists_file_of_statCall {path : CString} {size : Nat}
    {called : Process α} (h : statCall env files path p = (some size, called)) :
    ∃ file, files path = some file := by
  unfold statCall at h
  split at h
  · cases h
  · cases hfile : files path with
    | none =>
        rw [hfile] at h
        cases h
    | some file => exact ⟨file, rfl⟩

/-- Only files that exist are compared. -/
theorem exists_files_of_compareFiles
    (h : compareFiles env files (some path1) (some path2) p =
      .ok (result, p')) :
    ∃ file1 file2, files path1 = some file1 ∧ files path2 = some file2 := by
  unfold compareFiles at h
  rcases hstat1 : statCall env files path1 p with ⟨_ | size1, p1⟩
  · simp only [hstat1] at h
    cases h
  · rcases hstat2 : statCall env files path2 p1 with ⟨_ | size2, p2⟩
    · simp only [hstat1, hstat2] at h
      cases h
    · obtain ⟨file1, hfile1⟩ := exists_file_of_statCall hstat1
      obtain ⟨file2, hfile2⟩ := exists_file_of_statCall hstat2
      exact ⟨file1, file2, hfile1, hfile2⟩

theorem differInside_iff (hfile1 : files path1 = some file1)
    (hfile2 : files path2 = some file2) :
    DifferInside files (some path1, some path2) ↔
      file1.bytes.length = file2.bytes.length ∧ file1.bytes ≠ file2.bytes := by
  constructor
  · rintro ⟨_, _, other1, other2, hpair, hother1, hother2, hdiffer⟩
    cases hpair
    rw [hfile1] at hother1
    rw [hfile2] at hother2
    cases hother1
    cases hother2
    exact hdiffer
  · intro hdiffer
    exact ⟨path1, path2, file1, file2, rfl, hfile1, hfile2, hdiffer⟩

/-- A file that stays open was not open before. -/
theorem Comparing.not_sameOpen {fd1 fd2 k : Nat}
    (h : Comparing p.table.entry fd1 fd2 path1 path2 k p')
    (hfree : p.table.entry fd1 = none) : ¬ SameOpen p.table p'.table := by
  intro hsame
  have hleft := (hsame fd1).mp (by rw [h.first]; rfl)
  rw [hfree] at hleft
  cases hleft

theorem sameOpen_of_closed {fd1 fd2 : Nat} (hfree1 : p.table.entry fd1 = none)
    (hfree2 : p.table.entry fd2 = none)
    (hclosed : ∀ n, p'.table.entry n =
      if n = fd1 ∨ n = fd2 then none else p.table.entry n) :
    SameOpen p.table p'.table := by
  intro fd
  rw [hclosed fd]
  split
  · rename_i hfd
    rcases hfd with rfl | rfl
    · rw [hfree1]
    · rw [hfree2]
  · rfl

/-- A comparison of two files leaves the same numbers open unless it has found
different bytes in files of the same size. -/
theorem CompareEnds.sameOpen_iff
    (h : CompareEnds env p.table.entry path1 path2 file1 file2
      (.ok (result, p'))) :
    SameOpen p.table p'.table ↔
      ¬ (file1.bytes.length = file2.bytes.length ∧
        file1.bytes ≠ file2.bytes) := by
  cases h with
  | sizes hne hentry =>
      refine iff_of_true (fun fd => ?_) (fun hdiffer => hne hdiffer.1)
      rw [hentry]
  | loop hsize hfree1 hfree2 hloop =>
      cases hloop with
      | differ hcompare hcomparing =>
          have hbytes : file1.bytes ≠ file2.bytes :=
            of_decide_eq_false (compareFrom_ok hsize hcompare).symm
          exact iff_of_false (hcomparing.not_sameOpen hfree1)
            (not_not_intro ⟨hsize, hbytes⟩)
      | equal hcompare hclosed =>
          have hbytes : file1.bytes = file2.bytes :=
            of_decide_eq_true (compareFrom_ok hsize hcompare).symm
          exact iff_of_true (sameOpen_of_closed hfree1 hfree2 hclosed)
            (fun hdiffer => hdiffer.2 hbytes)

/-- **One call**: it leaves the same numbers open unless it was given two files
of the same size with different bytes. -/
theorem compareFiles_sameOpen_iff {pair : Option CString × Option CString}
    (h : compareFiles env files pair.1 pair.2 p = .ok (result, p')) :
    SameOpen p.table p'.table ↔ ¬ DifferInside files pair := by
  obtain ⟨filePath1, filePath2⟩ := pair
  cases filePath1 with
  | none =>
      cases h
      refine iff_of_true (fun _ => Iff.rfl) ?_
      rintro ⟨_, _, _, _, hpair, -⟩
      cases hpair
  | some path1 =>
      cases filePath2 with
      | none =>
          cases h
          refine iff_of_true (fun _ => Iff.rfl) ?_
          rintro ⟨_, _, _, _, hpair, -⟩
          cases hpair
      | some path2 =>
          obtain ⟨file1, file2, hfile1, hfile2⟩ :=
            exists_files_of_compareFiles h
          have hends := compareFiles_ends env hfile1 hfile2 p
          rw [h] at hends
          rw [differInside_iff hfile1 hfile2]
          exact hends.sameOpen_iff

/-- Every call in the log is a call of `compareFiles` that has returned. -/
theorem comparePairs_log {pairs : List (Option CString × Option CString)}
    {call : Call α} (h : call ∈ (comparePairs env files pairs p).1) :
    call.pair ∈ pairs ∧ ∃ before after,
      compareFiles env files call.pair.1 call.pair.2 before =
        .ok (call.result, after) ∧
      call.before = before.table ∧ call.after = after.table := by
  induction pairs generalizing p with
  | nil => cases h
  | cons pair pairs ih =>
      rw [comparePairs] at h
      split at h
      · cases h
      · rename_i result p' hcompare
        rcases List.mem_cons.mp h with hhead | htail
        · subst hhead
          exact ⟨List.mem_cons_self, p, p', hcompare, rfl, rfl⟩
        · have hrest := ih htail
          exact ⟨List.mem_cons_of_mem _ hrest.1, hrest.2⟩

/-- Without files of the same size with different bytes, the numbers that were
open at the start are open after every call. -/
theorem comparePairs_sameOpen {pairs : List (Option CString × Option CString)}
    (hpairs : ∀ pair ∈ pairs, ¬ DifferInside files pair) :
    ∀ call ∈ (comparePairs env files pairs p).1,
      SameOpen p.table call.after := by
  induction pairs generalizing p with
  | nil =>
      intro call h
      cases h
  | cons pair pairs ih =>
      intro call h
      rw [comparePairs] at h
      split at h
      · cases h
      · rename_i result p' hcompare
        have hsame : SameOpen p.table p'.table :=
          (compareFiles_sameOpen_iff hcompare).mpr
            (hpairs pair List.mem_cons_self)
        rcases List.mem_cons.mp h with hhead | htail
        · subst hhead
          exact hsame
        · have hrest := ih
            (fun other hother => hpairs other (List.mem_cons_of_mem _ hother))
            call htail
          exact fun fd => (hrest fd).trans (hsame fd)

/-! ### A limit on descriptors -/

/-- Only `open` fails, when the number would not be below the limit. -/
def Environment.limited (limit : Nat) : Environment :=
  ⟨fun _ => false, fun _ fd => decide (limit ≤ fd), fun _ => false⟩

/-- Two descriptors can still be opened. -/
def RoomForTwo (limit : Nat) (t : FdTable (Description α)) : Prop :=
  ∃ n m, n < m ∧ m < limit ∧ t.entry n = none ∧ t.entry m = none

/-- The names that are not `NULL` are names of regular files. -/
def NamesExist (files : Files)
    (pair : Option CString × Option CString) : Prop :=
  (∀ path, pair.1 = some path → ∃ file, files path = some file) ∧
    ∀ path, pair.2 = some path → ∃ file, files path = some file

theorem RoomForTwo.sameOpen {limit : Nat}
    {before after : FdTable (Description α)} (h : RoomForTwo limit before)
    (hsame : SameOpen before after) : RoomForTwo limit after := by
  have hclosed : ∀ fd, before.entry fd = none → after.entry fd = none := by
    intro fd hfree
    have hiff := hsame fd
    rw [hfree] at hiff
    exact Option.not_isSome_iff_eq_none.mp fun hopen => by
      cases hiff.mp hopen
  obtain ⟨n, m, hlt, hlimit, hn, hm⟩ := h
  exact ⟨n, m, hlt, hlimit, hclosed n hn, hclosed m hm⟩

theorem not_limited_fails {limit : Nat} {t : FdTable (Description α)}
    (hroom : RoomForTwo limit t) :
    ¬ (Environment.limited limit).Fails t.entry := by
  rintro (⟨n, h⟩ | ⟨n, fd, hnext, h⟩ | ⟨n, h⟩)
  · cases h
  · obtain ⟨k, m, hlt, hlimit, hk, hm⟩ := hroom
    have hle := hnext k m hlt hk hm
    have hfd : limit ≤ fd := of_decide_eq_true h
    omega
  · cases h

/-- With room for two descriptors a comparison is not given up. -/
theorem compareFiles_not_exited {limit : Nat}
    {pair : Option CString × Option CString} (hnames : NamesExist files pair)
    (hroom : RoomForTwo limit p.table) :
    compareFiles (.limited limit) files pair.1 pair.2 p ≠ .error .exited := by
  obtain ⟨filePath1, filePath2⟩ := pair
  cases filePath1 with
  | none => exact fun h => by cases h
  | some path1 =>
      cases filePath2 with
      | none => exact fun h => by cases h
      | some path2 =>
          obtain ⟨file1, hfile1⟩ := hnames.1 path1 rfl
          obtain ⟨file2, hfile2⟩ := hnames.2 path2 rfl
          have hends := compareFiles_ends (.limited limit) hfile1 hfile2 p
          intro hexited
          rw [hexited] at hends
          cases hends with
          | exited hfails => exact not_limited_fails hroom hfails
          | loop _ _ _ hloop =>
              cases hloop with
              | exited hfails => cases hfails

/-- As many pairs as there are can be compared with two free descriptors. -/
theorem comparePairs_not_exited {limit : Nat}
    {pairs : List (Option CString × Option CString)}
    (hnames : ∀ pair ∈ pairs, NamesExist files pair)
    (hpairs : ∀ pair ∈ pairs, ¬ DifferInside files pair)
    (hroom : RoomForTwo limit p.table) :
    (comparePairs (.limited limit) files pairs p).2 ≠ .error .exited := by
  induction pairs generalizing p with
  | nil => exact fun h => by cases h
  | cons pair pairs ih =>
      rw [comparePairs]
      split
      · rename_i stop hcompare
        intro hexited
        cases hexited
        exact compareFiles_not_exited (hnames pair List.mem_cons_self) hroom
          hcompare
      · rename_i result p' hcompare
        have hsame : SameOpen p.table p'.table :=
          (compareFiles_sameOpen_iff hcompare).mpr
            (hpairs pair List.mem_cons_self)
        exact ih
          (fun other hother => hnames other (List.mem_cons_of_mem _ hother))
          (fun other hother => hpairs other (List.mem_cons_of_mem _ hother))
          (hroom.sameOpen hsame)

theorem mem_filePairs {β : Type} {arr : List β} {pair : β × β}
    (h : pair ∈ filePairs arr) : pair.1 ∈ arr ∧ pair.2 ∈ arr := by
  induction arr with
  | nil => cases h
  | cons elem rest ih =>
      rcases List.mem_append.mp h with hrow | hrest
      · obtain ⟨other, hother, rfl⟩ := List.mem_map.mp hrow
        exact ⟨List.mem_cons_self, List.mem_cons_of_mem _ hother⟩
      · exact ⟨List.mem_cons_of_mem _ (ih hrest).1,
          List.mem_cons_of_mem _ (ih hrest).2⟩

/-- **A call of `compareFiles` leaves the same numbers open** exactly when it
was not given two files of the same size with different bytes.  Where no two
files of the list are such, no call of the run leaves a descriptor behind, and
a limit with room for two more stops no run. -/
theorem printDuplicateFilePairs_sameOpen_iff (env : Environment)
    (files : Files) (arr : List (Option CString)) (p : Process α) :
    (∀ call ∈ (printDuplicateFilePairs env files arr p).1,
      (SameOpen call.before call.after ↔ ¬ DifferInside files call.pair)) ∧
    ((∀ pair ∈ filePairs arr, ¬ DifferInside files pair) →
      (∀ call ∈ (printDuplicateFilePairs env files arr p).1,
        SameOpen p.table call.after) ∧
      ∀ limit, env = .limited limit →
        (∀ path, some path ∈ arr → ∃ file, files path = some file) →
        RoomForTwo limit p.table →
        (printDuplicateFilePairs env files arr p).2 ≠ .error .exited) := by
  refine ⟨?_, fun hpairs => ⟨comparePairs_sameOpen hpairs, ?_⟩⟩
  · intro call hcall
    obtain ⟨-, before, after, hreturned, hbefore, hafter⟩ :=
      comparePairs_log hcall
    rw [hbefore, hafter]
    exact compareFiles_sameOpen_iff hreturned
  · rintro limit rfl hexist hroom
    refine comparePairs_not_exited (fun pair hpair => ?_) hpairs hroom
    have hmem := mem_filePairs hpair
    exact ⟨fun path heq => hexist path (heq ▸ hmem.1),
      fun path heq => hexist path (heq ▸ hmem.2)⟩

/-- With a limit of five descriptors, two equal files. -/
theorem printDuplicateFilePairs_sameOpen_iff_limited :
    (printDuplicateFilePairs (.limited 5)
      (twoFiles (zeros 2 two_fits) (zeros 2 two_fits))
      [some nameA, some nameB] freshProcess).2 ≠ .error .exited := by
  refine ((printDuplicateFilePairs_sameOpen_iff _ _ _ _).2 ?_).2 5 rfl ?_ ?_
  · intro pair hpair hdiffer
    have heq := List.mem_singleton.mp hpair
    subst heq
    exact ((differInside_iff rfl rfl).mp hdiffer).2 rfl
  · intro path hpath
    rcases List.mem_cons.mp hpath with heq | htail
    · cases heq
      exact ⟨_, rfl⟩
    · cases List.mem_singleton.mp htail
      exact ⟨_, rfl⟩
  · exact ⟨3, 4, by decide, by decide, rfl, rfl⟩

theorem nameC_nulFree : (0 : UInt8) ∉ [99] := by
  decide

/-- `c` -/
def nameC : CString := ⟨[99], nameC_nulFree⟩

theorem byte_fits (b : UInt8) : [b].length ≤ 9223372036854775807 :=
  Nat.le_of_ble_eq_true rfl

/-- Three files of one byte, all different. -/
def threeFiles : Files := fun path =>
  if path = nameC then some ⟨[2], byte_fits 2⟩
  else twoFiles ⟨[0], byte_fits 0⟩ ⟨[1], byte_fits 1⟩ path

/-- The first call leaves 3 and 4 open; with a limit of six descriptors the
second call ends the program. -/
theorem printDuplicateFilePairs_leaks :
    (∃ call,
      (printDuplicateFilePairs (.limited 6) threeFiles
        [some nameA, some nameB, some nameC] freshProcess).1 = [call] ∧
      call.result = false ∧ ¬ SameOpen call.before call.after) ∧
    (printDuplicateFilePairs (.limited 6) threeFiles
        [some nameA, some nameB, some nameC] freshProcess).2 =
      .error .exited := by
  refine ⟨⟨_, rfl, rfl, fun hsame => ?_⟩, rfl⟩
  have hthree := (hsame 3).mp rfl
  cases hthree

end Pairs

end OsLabs.Lab1.CompareFiles
