import OsLabs.Iwish.Arguments
import OsLabs.Iwish.SpawnLoop

/-!
# How the stages of a pipeline are connected

With every call succeeding, and without redirections, stage `k` should run
with its standard input on pipe `k - 1` and its standard output on pipe `k`.
Which numbers the pipes get depends on the numbers freed before: if `f₀`,
`f₁`, `f₂` are the lowest free ones, pipe 0 is `(f₀, f₁)`, pipe 1 is
`(f₁, f₂)` and pipe 2 is `(f₀, f₂)`.  In the third round `incomingPipe[1]`
still holds `f₂`, which the job handler has closed and the kernel has just
given to the new write end, and the child closes it.

`spawnPipeline_wired_iff`: the stages are all connected exactly when there are
at most three of them.
-/

namespace OsLabs.Iwish.PipelineWiring

open OsLabs.Posix
open OsLabs.Iwish.ParserTokens
open OsLabs.Iwish.Grammar
open OsLabs.Iwish.ParseTree
open OsLabs.Iwish.Interpreter
open OsLabs.Iwish.SpawnLoop
open OsLabs.Iwish.Arguments

variable {α : Type}

/-! ## A child with every call succeeding -/

/-- A command without redirections. -/
def Plain (node : SimpleCommandNode) : Prop :=
  ∃ stage : Stage, elementRedirections stage.elements = [] ∧
    eraseElementList node.simpleCommand.elementList =
      elementNodes stage.elements

/-- The descriptors of a child that has closed the unused ends. -/
def childTable (s : SpawnState α) : FdTable (Description α) :=
  closeEnd s.outgoingPipe.readEnd (closeEnd s.incomingPipe.writeEnd s.table)

/-- The child reaches `execvp` with these two standard descriptors. -/
def Reaches (stdin stdout : Option (Description α)) (ending : Ending α) :
    Prop :=
  ∃ argv p, ending = .ok (some argv, p) ∧ p.table.entry stdinFd = stdin ∧
    p.table.entry stdoutFd = stdout

theorem entry_childTable (s : SpawnState α) (fd : Nat) :
    (childTable s).entry fd =
      if (fd : Int) = s.outgoingPipe.readEnd ∨
        (fd : Int) = s.incomingPipe.writeEnd then none
      else s.table.entry fd := by
  unfold childTable
  rw [entry_closeEnd, entry_closeEnd]
  by_cases hread : (fd : Int) = s.outgoingPipe.readEnd
  · rw [if_pos hread, if_pos (Or.inl hread)]
  · by_cases hwrite : (fd : Int) = s.incomingPipe.writeEnd
    · rw [if_neg hread, if_pos hwrite, if_pos (Or.inr hwrite)]
    · rw [if_neg hread, if_neg hwrite, if_neg (not_or.mpr ⟨hread, hwrite⟩)]

theorem entry_connectedTable (pipeEnd : Int) (fd : Nat)
    (table : FdTable (Description α)) (n : Nat) :
    (connectedTable pipeEnd fd table).entry n =
      if n = fd then (table.entryAt pipeEnd).or (table.entry n)
      else table.entry n := by
  unfold connectedTable
  rcases table.entryAt pipeEnd with _ | d
  · rw [Option.none_or, ite_self]
  · rw [FdTable.entry_set, Option.some_or]

section Child

variable {s : SpawnState α} {node : SimpleCommandNode}
  {next : SimpleCommandList} {heap : Heap}

/-- A child whose two ends are open gets both. -/
theorem runChild_reaches (hplain : Plain node)
    (hin : Connectable s.incomingPipe.readEnd (childTable s))
    (hout : Connectable s.outgoingPipe.writeEnd (childTable s))
    (hne : s.outgoingPipe.writeEnd ≠ 0) :
    Reaches
      (((childTable s).entryAt s.incomingPipe.readEnd).or
        ((childTable s).entry stdinFd))
      (((childTable s).entryAt s.outgoingPipe.writeEnd).or
        ((childTable s).entry stdoutFd))
      (runChild .quiet heap (node :: next) s) := by
  obtain ⟨stage, hwords, herase⟩ := hplain
  obtain ⟨p, hrun, -, htable⟩ := handleCommandList_quiet stage.elements next
    herase (.forked (childTable s) heap) hin hout
  rw [hwords] at htable
  change p.table = connectedTable s.outgoingPipe.writeEnd stdoutFd
    (connectedTable s.incomingPipe.readEnd stdinFd (childTable s)) at htable
  refine ⟨_, p, hrun, ?_, ?_⟩
  · rw [htable, entry_connectedTable, if_neg (by decide),
      entry_connectedTable, if_pos rfl]
  · have hsame : (connectedTable s.incomingPipe.readEnd stdinFd
        (childTable s)).entryAt s.outgoingPipe.writeEnd =
        (childTable s).entryAt s.outgoingPipe.writeEnd := by
      cases hwrite : s.outgoingPipe.writeEnd with
      | ofNat w =>
          show (connectedTable _ _ _).entry w = (childTable s).entry w
          rw [entry_connectedTable, if_neg]
          intro hw
          rw [hwrite, hw] at hne
          exact hne rfl
      | negSucc w => rfl
    rw [htable, entry_connectedTable, if_pos rfl, hsame,
      entry_connectedTable, if_neg (by decide)]

/-- A child whose outgoing end is not open stops before `execvp`. -/
theorem runChild_stops
    (hin : Connectable s.incomingPipe.readEnd (childTable s)) {w : Nat}
    (hwrite : s.outgoingPipe.writeEnd = w) (hw : w ≠ stdinFd)
    (hclosed : (childTable s).entry w = none) :
    ∃ p, runChild .quiet heap (node :: next) s = .ok (none, p) := by
  obtain ⟨dups, status, hfirst, hstatus⟩ :=
    connectPipe_quiet (p := .forked (childTable s) heap) hin stdinFd
  have hnone : (connectedTable s.incomingPipe.readEnd stdinFd
      (childTable s)).entryAt (w : Int) = none := by
    rw [FdTable.entryAt_ofNat, entry_connectedTable, if_neg hw]
    exact hclosed
  refine ⟨{ Process.forked (childTable s) heap with
    table := connectedTable s.incomingPipe.readEnd stdinFd (childTable s)
    dups := dups + 1 }, ?_⟩
  show handleCommandList .quiet (node :: next) s.incomingPipe.readEnd
    s.outgoingPipe.writeEnd (.forked (childTable s) heap) = _
  unfold handleCommandList
  simp only [hfirst, if_neg (Int.not_lt.mpr hstatus), hwrite]
  rw [connectPipe_closed .quiet (Int.natCast_nonneg w) hnone]
  rfl

end Child

/-! ## The rounds of the loop -/

/-- The two lowest free numbers of a table. -/
structure NextPair (table : FdTable α) (a b : Nat) : Prop where
  first : table.entry a = none
  second : table.entry b = none
  lt : a < b
  below : ∀ n, n < b → n ≠ a → table.entry n ≠ none

theorem NextPair.connected {s : SpawnState α} {a b : Nat}
    (h : NextPair s.table a b) :
    s.connected false =
      { s with
        outgoingPipe := ⟨a, b⟩
        table := (s.table.set a (.readEnd s.round)).set b
          (.writeEnd s.round) } := by
  have ha : s.table.lowestFree = a :=
    FdTable.lowestFree_eq h.first fun n hn =>
      h.below n (Nat.lt_trans hn h.lt) (Nat.ne_of_lt hn)
  have hb : (s.table.set a (.readEnd s.round)).lowestFree = b := by
    apply FdTable.lowestFree_eq
    · rw [FdTable.entry_set, if_neg (Nat.ne_of_gt h.lt)]
      exact h.second
    · intro n hn
      rw [FdTable.entry_set]
      by_cases hna : n = a
      · rw [if_pos hna]
        exact Option.some_ne_none _
      · rw [if_neg hna]
        exact h.below n hn hna
  show s.withPipe = _
  unfold SpawnState.withPipe
  rw [FdTable.pipe_eq _ _ ha hb]

/-- At the head of round `k + 1`: the read end `r` of pipe `k` is open, and
nothing else but the initial descriptors; `w` is the number its write end
had. -/
structure Carrying (initial : FdTable (Description α)) (s : SpawnState α)
    (k r w : Nat) : Prop where
  round : s.round = k + 1
  incoming : s.incomingPipe = ⟨r, w⟩
  entries : ∀ fd, s.table.entry fd =
    if fd = r then some (.readEnd k) else initial.entry fd
  readFree : initial.entry r = none
  writeFree : initial.entry w = none
  ne : r ≠ w

/-- The standard descriptors are open. -/
def StandardOpen (initial : FdTable (Description α)) : Prop :=
  ∀ fd, fd < 3 → initial.entry fd ≠ none

section Rounds

variable {initial : FdTable (Description α)} {s : SpawnState α}
  {k r w a b fd : Nat} {node : SimpleCommandNode}
  {following : SimpleCommandList} {heap : Heap}

theorem StandardOpen.ne (h : StandardOpen initial) (hfd : fd < 3)
    (ha : initial.entry a = none) : fd ≠ a := by
  intro heq
  rw [← heq] at ha
  exact h fd hfd ha

theorem StandardOpen.cast_ne (h : StandardOpen initial) (hfd : fd < 3)
    (ha : initial.entry a = none) : (fd : Int) ≠ (a : Int) :=
  fun heq => h.ne hfd ha (Int.ofNat.inj heq)

/-- The state after the first round. -/
theorem Carrying.start (h : NextPair initial a b) :
    Carrying initial ((SpawnState.initial initial).connected false).next
      0 a b := by
  have hconnected := NextPair.connected (s := SpawnState.initial initial) h
  rw [hconnected]
  refine ⟨rfl, rfl, fun fd => ?_, h.first, h.second, Nat.ne_of_lt h.lt⟩
  show (closeEnd (b : Int) (closeEnd (-1) ((initial.set a (.readEnd 0)).set b
    (.writeEnd 0)))).entry fd = _
  rw [entry_closeEnd_ofNat, closeEnd_neg_one, FdTable.entry_set,
    FdTable.entry_set]
  by_cases hb : fd = b
  · have hne : fd ≠ a := by
      have := h.lt
      omega
    rw [if_pos hb, if_neg hne, hb]
    exact h.second.symm
  · rw [if_neg hb, if_neg hb]

/-- The numbers of the next pipe were free initially, and are not the carried
one. -/
theorem Carrying.free (h : Carrying initial s k r w)
    (hfd : s.table.entry fd = none) : initial.entry fd = none ∧ fd ≠ r := by
  rw [h.entries] at hfd
  by_cases hr : fd = r
  · rw [if_pos hr] at hfd
    cases hfd
  · rw [if_neg hr] at hfd
    exact ⟨hfd, hr⟩

theorem Carrying.connected_entries (h : Carrying initial s k r w)
    (hpair : NextPair s.table a b) (fd : Nat) :
    (s.connected false).table.entry fd =
      if fd = b then some (.writeEnd (k + 1))
      else if fd = a then some (.readEnd (k + 1))
      else if fd = r then some (.readEnd k) else initial.entry fd := by
  rw [hpair.connected, FdTable.entry_set, FdTable.entry_set, h.entries,
    h.round]

/-- The state after a later round. -/
theorem Carrying.next (h : Carrying initial s k r w)
    (hpair : NextPair s.table a b) :
    Carrying initial (s.connected false).next (k + 1) a b := by
  obtain ⟨ha, har⟩ := h.free hpair.first
  obtain ⟨hb, hbr⟩ := h.free hpair.second
  have hlt := hpair.lt
  refine ⟨?_, ?_, fun fd => ?_, ha, hb, Nat.ne_of_lt hlt⟩
  · rw [SpawnState.next_round, SpawnState.connected_round, h.round]
  · rw [hpair.connected]
    rfl
  · show (closeEnd (s.connected false).outgoingPipe.writeEnd
      (closeEnd (s.connected false).incomingPipe.readEnd
        (s.connected false).table)).entry fd = _
    have hout : (s.connected false).outgoingPipe.writeEnd = (b : Int) := by
      rw [hpair.connected]
    rw [hout, SpawnState.connected_incomingPipe, h.incoming,
      entry_closeEnd_ofNat, entry_closeEnd_ofNat, h.connected_entries hpair]
    by_cases hfdb : fd = b
    · have hne : fd ≠ a := by omega
      rw [if_pos hfdb, if_neg hne, hfdb]
      exact hb.symm
    · by_cases hfdr : fd = r
      · have hne : fd ≠ a := by omega
        rw [if_neg hfdb, if_pos hfdr, if_neg hne, hfdr]
        exact h.readFree.symm
      · rw [if_neg hfdb, if_neg hfdr, if_neg hfdb, if_neg hfdr]

/-! ## The stages -/

theorem connectable_neg_one (table : FdTable (Description α)) :
    Connectable (-1) table := by
  intro h
  exact absurd h (by decide)

theorem connectable_ofNat {table : FdTable (Description α)}
    {d : Description α} (h : table.entry fd = some d) :
    Connectable (fd : Int) table := fun _ => ⟨d, h⟩

/-- The only stage of a pipeline keeps the inherited descriptors. -/
theorem reaches_alone (hplain : Plain node) :
    Reaches (initial.entry stdinFd) (initial.entry stdoutFd)
      (runChild .quiet heap (node :: following)
        ((SpawnState.initial initial).connected true)) :=
  runChild_reaches hplain (connectable_neg_one _) (connectable_neg_one _)
    (show (-1 : Int) ≠ 0 by decide)

/-- The first stage of several writes to pipe 0. -/
theorem reaches_first (hplain : Plain node) (hopen : StandardOpen initial)
    (hpair : NextPair initial a b) :
    Reaches (initial.entry stdinFd) (some (.writeEnd 0))
      (runChild .quiet heap (node :: following)
        ((SpawnState.initial initial).connected false)) := by
  have hconnected := NextPair.connected (s := SpawnState.initial initial) hpair
  have hentries : ∀ fd,
      (childTable ((SpawnState.initial initial).connected false)).entry fd =
        if fd = a then none
        else if fd = b then some (.writeEnd 0) else initial.entry fd := by
    intro fd
    rw [hconnected]
    show (closeEnd (a : Int) (closeEnd (-1) ((initial.set a (.readEnd 0)).set b
      (.writeEnd 0)))).entry fd = _
    rw [entry_closeEnd_ofNat, closeEnd_neg_one, FdTable.entry_set,
      FdTable.entry_set]
    by_cases ha : fd = a
    · rw [if_pos ha, if_pos ha]
    · rw [if_neg ha, if_neg ha, if_neg ha]
  have hread : ((SpawnState.initial initial).connected
      false).incomingPipe.readEnd = -1 := by
    rw [SpawnState.connected_incomingPipe]
    rfl
  have hwrite : ((SpawnState.initial initial).connected
      false).outgoingPipe.writeEnd = (b : Int) := by
    rw [hconnected]
  have hb : (childTable ((SpawnState.initial initial).connected false)).entry
      b = some (.writeEnd 0) := by
    rw [hentries, if_neg (Nat.ne_of_gt hpair.lt), if_pos rfl]
  have hreaches : Reaches _ _ (runChild .quiet heap (node :: following)
      ((SpawnState.initial initial).connected false)) := runChild_reaches hplain
    (by rw [hread]; exact connectable_neg_one _)
    (by rw [hwrite]; exact connectable_ofNat hb)
    (by rw [hwrite]; exact (hopen.cast_ne (by decide) hpair.second).symm)
  rw [hread, hwrite, FdTable.entryAt_ofNat, hb, hentries] at hreaches
  rw [if_neg (hopen.ne (by decide) hpair.first),
    if_neg (hopen.ne (by decide) hpair.second)] at hreaches
  exact hreaches

/-- What the child of a middle stage holds once it has closed its two
numbers. -/
theorem Carrying.entry_childTable (h : Carrying initial s k r w)
    (hpair : NextPair s.table a b) (fd : Nat) :
    (childTable (s.connected false)).entry fd =
      if fd = a ∨ fd = w then none
      else if fd = b then some (.writeEnd (k + 1))
      else if fd = r then some (.readEnd k) else initial.entry fd := by
  have hread : (s.connected false).outgoingPipe.readEnd = (a : Int) := by
    rw [hpair.connected]
  rw [PipelineWiring.entry_childTable, hread,
    SpawnState.connected_incomingPipe, h.incoming,
    h.connected_entries hpair]
  simp only [Int.natCast_inj]
  by_cases hclosed : fd = a ∨ fd = w
  · rw [if_pos hclosed, if_pos hclosed]
  · rw [if_neg hclosed, if_neg hclosed,
      if_neg fun ha => hclosed (Or.inl ha)]

theorem Carrying.readEnd_open (h : Carrying initial s k r w)
    (hpair : NextPair s.table a b) :
    (childTable (s.connected false)).entry r = some (.readEnd k) := by
  have har := (h.free hpair.first).2
  have hbr := (h.free hpair.second).2
  rw [h.entry_childTable hpair,
    if_neg (not_or.mpr ⟨fun heq => har heq.symm, h.ne⟩),
    if_neg fun heq => hbr heq.symm, if_pos rfl]

/-- A middle stage reads one pipe and writes the next, unless the new write
end has the number of the old one. -/
theorem reaches_middle (hplain : Plain node) (hopen : StandardOpen initial)
    (h : Carrying initial s k r w) (hpair : NextPair s.table a b)
    (hne : b ≠ w) :
    Reaches (some (.readEnd k)) (some (.writeEnd (k + 1)))
      (runChild .quiet heap (node :: following) (s.connected false)) := by
  have hread : (s.connected false).incomingPipe.readEnd = (r : Int) := by
    rw [SpawnState.connected_incomingPipe, h.incoming]
  have hwrite : (s.connected false).outgoingPipe.writeEnd = (b : Int) := by
    rw [hpair.connected]
  have hr := h.readEnd_open hpair
  have hb : (childTable (s.connected false)).entry b =
      some (.writeEnd (k + 1)) := by
    rw [h.entry_childTable hpair,
      if_neg (not_or.mpr ⟨Nat.ne_of_gt hpair.lt, hne⟩), if_pos rfl]
  have hfree := (h.free hpair.second).1
  have hreaches : Reaches _ _ (runChild .quiet heap (node :: following)
      (s.connected false)) := runChild_reaches hplain
    (by rw [hread]; exact connectable_ofNat hr)
    (by rw [hwrite]; exact connectable_ofNat hb)
    (by rw [hwrite]; exact (hopen.cast_ne (by decide) hfree).symm)
  rw [hread, hwrite, FdTable.entryAt_ofNat, FdTable.entryAt_ofNat, hr,
    hb] at hreaches
  exact hreaches

/-- When it has, the stage closes its own output and stops. -/
theorem stops_middle (hopen : StandardOpen initial)
    (h : Carrying initial s k r w) (hpair : NextPair s.table a w) :
    ∃ p, runChild .quiet heap (node :: following) (s.connected false) =
      .ok (none, p) := by
  have hread : (s.connected false).incomingPipe.readEnd = (r : Int) := by
    rw [SpawnState.connected_incomingPipe, h.incoming]
  have hwrite : (s.connected false).outgoingPipe.writeEnd = (w : Int) := by
    rw [hpair.connected]
  apply runChild_stops _ hwrite
  · exact (hopen.ne (by decide) h.writeFree).symm
  · rw [h.entry_childTable hpair, if_pos (Or.inr rfl)]
  · rw [hread]
    exact connectable_ofNat (h.readEnd_open hpair)

/-- The last stage of several reads the last pipe. -/
theorem reaches_last (hplain : Plain node) (hopen : StandardOpen initial)
    (h : Carrying initial s k r w) :
    Reaches (some (.readEnd k)) (initial.entry stdoutFd)
      (runChild .quiet heap (node :: following) (s.connected true)) := by
  have hentries : ∀ fd, (childTable (s.connected true)).entry fd =
      if fd = w then none
      else if fd = r then some (.readEnd k) else initial.entry fd := by
    intro fd
    show (closeEnd (-1) (closeEnd s.incomingPipe.writeEnd s.table)).entry fd = _
    rw [closeEnd_neg_one, h.incoming, entry_closeEnd_ofNat, h.entries]
  have hread : (s.connected true).incomingPipe.readEnd = (r : Int) := by
    rw [SpawnState.connected_incomingPipe, h.incoming]
  have hr : (childTable (s.connected true)).entry r = some (.readEnd k) := by
    rw [hentries, if_neg h.ne, if_pos rfl]
  have hreaches : Reaches _ _ (runChild .quiet heap (node :: following)
      (s.connected true)) := runChild_reaches hplain
    (by rw [hread]; exact connectable_ofNat hr)
    (connectable_neg_one _) (show (-1 : Int) ≠ 0 by decide)
  rw [hread, FdTable.entryAt_ofNat, hr] at hreaches
  have hstdout : (childTable (s.connected true)).entry stdoutFd =
      initial.entry stdoutFd := by
    rw [hentries, if_neg (hopen.ne (by decide) h.writeFree),
      if_neg (hopen.ne (by decide) h.readFree)]
  rw [hstdout] at hreaches
  exact hreaches

end Rounds

/-! ## Which numbers the pipes get -/

/-- The three lowest free numbers of a table. -/
structure FreeNumbers (table : FdTable α) (f₀ f₁ f₂ : Nat) : Prop where
  lt₁ : f₀ < f₁
  lt₂ : f₁ < f₂
  free₀ : table.entry f₀ = none
  free₁ : table.entry f₁ = none
  free₂ : table.entry f₂ = none
  below : ∀ n, n < f₂ → n ≠ f₀ → n ≠ f₁ → table.entry n ≠ none

/-- The lowest free number above `f`, when nothing else below it is free. -/
theorem exists_next_free (table : FdTable α) (f : Nat) :
    ∃ g, f < g ∧ table.entry g = none ∧
      ∀ n, f < n → n < g → table.entry n ≠ none := by
  obtain ⟨hle, hfree, hbelow⟩ := FdTable.firstFree_spec table.entry table.bound
    (f + 1) (table.closedAbove _ (by omega))
  exact ⟨_, hle, hfree, fun n hn hlt => hbelow n hn hlt⟩

theorem exists_freeNumbers (table : FdTable α) :
    ∃ f₀ f₁ f₂, FreeNumbers table f₀ f₁ f₂ := by
  obtain ⟨f₁, hlt₁, hfree₁, hbelow₁⟩ := exists_next_free table table.lowestFree
  obtain ⟨f₂, hlt₂, hfree₂, hbelow₂⟩ := exists_next_free table f₁
  refine ⟨table.lowestFree, f₁, f₂, hlt₁, hlt₂, table.entry_lowestFree, hfree₁,
    hfree₂, fun n hn hn₀ hn₁ => ?_⟩
  rcases Nat.lt_trichotomy n table.lowestFree with hlt | heq | hgt
  · exact table.entry_of_lt_lowestFree hlt
  · exact absurd heq hn₀
  · rcases Nat.lt_trichotomy n f₁ with hlt | heq | hgt₁
    · exact hbelow₁ n hgt hlt
    · exact absurd heq hn₁
    · exact hbelow₂ n hgt₁ hn

section Numbers

variable {initial : FdTable (Description α)} {s : SpawnState α}
  {k w f₀ f₁ f₂ : Nat}

/-- Pipe 0 is `(f₀, f₁)`. -/
theorem FreeNumbers.initial_pair (h : FreeNumbers initial f₀ f₁ f₂) :
    NextPair initial f₀ f₁ := by
  have hlt₁ := h.lt₁
  have hlt₂ := h.lt₂
  refine ⟨h.free₀, h.free₁, hlt₁, fun n hn hn₀ => ?_⟩
  exact h.below n (by omega) hn₀ (by omega)

/-- With `f₀` carried, the next pipe is `(f₁, f₂)`. -/
theorem FreeNumbers.second_pair (h : FreeNumbers initial f₀ f₁ f₂)
    (hs : Carrying initial s k f₀ w) : NextPair s.table f₁ f₂ := by
  have hlt₁ := h.lt₁
  have hlt₂ := h.lt₂
  refine ⟨?_, ?_, hlt₂, fun n hn hn₁ => ?_⟩
  · rw [hs.entries, if_neg (by omega)]
    exact h.free₁
  · rw [hs.entries, if_neg (by omega)]
    exact h.free₂
  · rw [hs.entries]
    by_cases hn₀ : n = f₀
    · rw [if_pos hn₀]
      exact Option.some_ne_none _
    · rw [if_neg hn₀]
      exact h.below n hn hn₀ hn₁

/-- With `f₁` carried, it is `(f₀, f₂)`. -/
theorem FreeNumbers.third_pair (h : FreeNumbers initial f₀ f₁ f₂)
    (hs : Carrying initial s k f₁ w) : NextPair s.table f₀ f₂ := by
  have hlt₁ := h.lt₁
  have hlt₂ := h.lt₂
  refine ⟨?_, ?_, by omega, fun n hn hn₀ => ?_⟩
  · rw [hs.entries, if_neg (by omega)]
    exact h.free₀
  · rw [hs.entries, if_neg (by omega)]
    exact h.free₂
  · rw [hs.entries]
    by_cases hn₁ : n = f₁
    · rw [if_pos hn₁]
      exact Option.some_ne_none _
    · rw [if_neg hn₁]
      exact h.below n hn hn₀ hn₁

end Numbers

/-! ## The whole pipeline -/

theorem spawnLoop_quiet (heap : Heap) (node : SimpleCommandNode)
    (next : SimpleCommandList) (s : SpawnState α) :
    (spawnLoop .quiet heap (node :: next) s).children =
      runChild .quiet heap (node :: next) (s.connected next.isEmpty) ::
        (spawnLoop .quiet heap next
          (s.connected next.isEmpty).next).children := by
  have hpipe : (!next.isEmpty && SpawnEnvironment.quiet.pipeFails s.round) =
      false := Bool.and_false _
  rw [spawnLoop, hpipe]
  rfl

/-- What standard input of stage `k` should refer to. -/
def stageInput (initial : FdTable (Description α)) (k : Nat) :
    Option (Description α) :=
  if k = 0 then initial.entry stdinFd else some (.readEnd (k - 1))

/-- What standard output of stage `k` of `n` should refer to. -/
def stageOutput (initial : FdTable (Description α)) (n k : Nat) :
    Option (Description α) :=
  if k + 1 = n then initial.entry stdoutFd else some (.writeEnd k)

/-- Every stage reaches `execvp`, connected to its neighbours. -/
def Connected (initial : FdTable (Description α)) (n : Nat)
    (children : List (Ending α)) : Prop :=
  ∀ k, k < n → ∃ ending, children[k]? = some ending ∧
    Reaches (stageInput initial k) (stageOutput initial n k) ending

section Pipeline

variable {initial : FdTable (Description α)} {heap : Heap}
  {first second third fourth : SimpleCommandNode} {rest : SimpleCommandList}

theorem connected_one (hfirst : Plain first) :
    Connected initial 1
      (spawnLoop .quiet heap [first] (.initial initial)).children := by
  intro k hk
  obtain rfl : k = 0 := by omega
  rw [spawnLoop_quiet]
  exact ⟨_, rfl, reaches_alone hfirst⟩

theorem connected_two (hopen : StandardOpen initial) (hfirst : Plain first)
    (hsecond : Plain second) :
    Connected initial 2
      (spawnLoop .quiet heap [first, second] (.initial initial)).children := by
  obtain ⟨f₀, f₁, f₂, hfree⟩ := exists_freeNumbers initial
  have hcarry := Carrying.start hfree.initial_pair
  intro k hk
  rw [spawnLoop_quiet, spawnLoop_quiet]
  obtain rfl | rfl : k = 0 ∨ k = 1 := by omega
  · exact ⟨_, rfl, reaches_first hfirst hopen hfree.initial_pair⟩
  · exact ⟨_, rfl, reaches_last hsecond hopen hcarry⟩

theorem connected_three (hopen : StandardOpen initial) (hfirst : Plain first)
    (hsecond : Plain second) (hthird : Plain third) :
    Connected initial 3 (spawnLoop .quiet heap [first, second, third]
      (.initial initial)).children := by
  obtain ⟨f₀, f₁, f₂, hfree⟩ := exists_freeNumbers initial
  have hcarry := Carrying.start hfree.initial_pair
  have hpair := hfree.second_pair hcarry
  intro k hk
  rw [spawnLoop_quiet, spawnLoop_quiet, spawnLoop_quiet]
  obtain rfl | rfl | rfl : k = 0 ∨ k = 1 ∨ k = 2 := by omega
  · exact ⟨_, rfl, reaches_first hfirst hopen hfree.initial_pair⟩
  · exact ⟨_, rfl, reaches_middle hsecond hopen hcarry hpair
      (Nat.ne_of_gt hfree.lt₂)⟩
  · exact ⟨_, rfl, reaches_last hthird hopen (hcarry.next hpair)⟩

/-- The third of four or more stages never runs. -/
theorem not_connected_four (hopen : StandardOpen initial) :
    ∃ p, (spawnLoop .quiet heap (first :: second :: third :: fourth :: rest)
      (.initial initial)).children[2]? = some (.ok (none, p)) := by
  obtain ⟨f₀, f₁, f₂, hfree⟩ := exists_freeNumbers initial
  have hcarry := Carrying.start hfree.initial_pair
  have hcarry' := hcarry.next (hfree.second_pair hcarry)
  have hstops : ∃ p, runChild .quiet heap (third :: fourth :: rest) _ =
      .ok (none, p) := stops_middle hopen hcarry' (hfree.third_pair hcarry')
  obtain ⟨p, hp⟩ := hstops
  refine ⟨p, ?_⟩
  rw [spawnLoop_quiet, spawnLoop_quiet, spawnLoop_quiet]
  exact congrArg some hp

end Pipeline

theorem plain_of_erase {list : SimpleList} {line : CommandLine}
    (h : eraseSimpleList list = lineTree line)
    (hwords : ∀ stage ∈ line.stages, elementRedirections stage.elements = [])
    {node : SimpleCommandNode}
    (hnode : node ∈ list.pipeline.simpleCommandList) :
    Plain node := by
  obtain ⟨k, hlt, hget⟩ := List.mem_iff_getElem.mp hnode
  have hk : k < line.stages.length := by
    rw [← length_of_erase h]
    exact hlt
  obtain ⟨node', next, hdrop, herase⟩ := drop_of_erase h
    (List.getElem?_eq_getElem hk)
  rw [List.drop_eq_getElem_cons hlt, hget] at hdrop
  cases hdrop
  exact ⟨_, hwords _ (List.getElem_mem hk), herase⟩

/-- **The stages of a pipeline are connected as written exactly when there are
at most three.** -/
theorem spawnPipeline_wired_iff (heap : Heap) {list : SimpleList}
    {line : CommandLine} (hlist : eraseSimpleList list = lineTree line)
    (hwords : ∀ stage ∈ line.stages, elementRedirections stage.elements = [])
    (table : FdTable α) (hopen : ∀ fd, fd < 3 → table.entry fd ≠ none) :
    Connected (table.map .inherited) line.stages.length
        (spawnPipeline .quiet heap list table).children ↔
      line.stages.length ≤ 3 := by
  have hstandard : StandardOpen (table.map Description.inherited) := by
    intro fd hfd hnone
    rw [FdTable.entry_map, Option.map_eq_none_iff] at hnone
    exact hopen fd hfd hnone
  have hplain : ∀ node ∈ list.pipeline.simpleCommandList, Plain node :=
    fun node hnode => plain_of_erase hlist hwords hnode
  rw [← length_of_erase hlist]
  unfold spawnPipeline
  generalize list.pipeline.simpleCommandList = commands at hplain ⊢
  rcases commands with _ | ⟨first, _ | ⟨second, _ | ⟨third, _ | ⟨fourth, rest⟩⟩⟩⟩
  · exact ⟨fun _ => Nat.zero_le 3, fun _ k hk => absurd hk (Nat.not_lt_zero k)⟩
  · exact ⟨fun _ => by simp, fun _ => connected_one (hplain _ (by simp))⟩
  · exact ⟨fun _ => by simp, fun _ => connected_two hstandard
      (hplain _ (by simp)) (hplain _ (by simp))⟩
  · exact ⟨fun _ => by simp, fun _ => connected_three hstandard
      (hplain _ (by simp)) (hplain _ (by simp)) (hplain _ (by simp))⟩
  · constructor
    · intro hconnected
      obtain ⟨ending, hending, argv, p, rfl, -⟩ :=
        hconnected 2 (by simp only [List.length_cons]; omega)
      obtain ⟨q, hq⟩ := not_connected_four hstandard
      rw [hq] at hending
      cases hending
    · intro hlength
      simp only [List.length_cons] at hlength
      omega

/-- `a | b` -/
def lineOfTwo : CommandLine :=
  ⟨.ofToken tokenA rfl, [.ofToken tokenB rfl], false⟩

theorem spawnPipeline_wired_iff_two_stages :
    Connected (FdTable.standard.map .inherited) 2
        (spawnPipeline .quiet Heap.empty (lineTree lineOfTwo)
          FdTable.standard).children ↔ 2 ≤ 3 := by
  have hwords : ∀ stage ∈ lineOfTwo.stages,
      elementRedirections stage.elements = [] := by
    intro stage hstage
    rcases List.mem_cons.mp hstage with rfl | hstage
    · rfl
    · rw [List.mem_singleton.mp hstage]
      rfl
  exact spawnPipeline_wired_iff Heap.empty
    (show eraseSimpleList (lineTree lineOfTwo) = lineTree lineOfTwo from rfl)
    hwords FdTable.standard (by decide)

/-- `a | b | a | b` -/
def lineOfFour : CommandLine :=
  ⟨.ofToken tokenA rfl, [.ofToken tokenB rfl,
    .ofToken tokenA rfl, .ofToken tokenB rfl], false⟩

/-- With only 0, 1 and 2 open, the third command of `a | b | a | b` is never
executed. -/
theorem spawnPipeline_four_stages :
    (∀ fd, fd < 3 → FdTable.standard.entry fd ≠ none) ∧
    ¬ Connected (FdTable.standard.map .inherited) 4
      (spawnPipeline .quiet Heap.empty (lineTree lineOfFour)
        FdTable.standard).children := by
  have hopen : ∀ fd, fd < 3 → FdTable.standard.entry fd ≠ none := by decide
  refine ⟨hopen, fun hconnected => ?_⟩
  obtain ⟨ending, hending, argv, p, rfl, -⟩ := hconnected 2 (by decide)
  have hthird : ∃ q, (spawnPipeline .quiet Heap.empty (lineTree lineOfFour)
      FdTable.standard).children[2]? = some (.ok (none, q)) := by
    apply not_connected_four
    intro fd hfd hnone
    rw [FdTable.entry_map, Option.map_eq_none_iff] at hnone
    exact hopen fd hfd hnone
  obtain ⟨q, hq⟩ := hthird
  rw [hq] at hending
  cases hending

end OsLabs.Iwish.PipelineWiring
