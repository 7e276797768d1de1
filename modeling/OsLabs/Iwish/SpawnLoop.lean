import OsLabs.Iwish.Interpreter
import OsLabs.Iwish.ParseTree

/-!
# Who holds the ends of the pipes

The two arrays of the spawn loop keep numbers of descriptors that have been
closed, and the kernel hands freed numbers out again.  The invariant ties the
numbers to the table the job handler started with: every stored number is -1
or was free then (`Stale`), and the only descriptor the loop carries from one
round to the next is the read end of the last pipe, under the number in
`incomingPipe` (`AtHead`).

* `spawnPipeline_restores` — however the loop ends, the job handler has the
  descriptors it started with.
* `spawnPipeline_pipeEnds` — the ends of a pipe are open in its two stages and
  nowhere else.
-/

namespace OsLabs.Iwish.SpawnLoop

open OsLabs.Posix
open OsLabs.Iwish.ParserTokens
open OsLabs.Iwish.Grammar
open OsLabs.Iwish.ParseTree
open OsLabs.Iwish.DBA
open OsLabs.Iwish.Interpreter

variable {α : Type}

/-! ## Stored numbers -/

/-- Both numbers are -1, or both were free in the table `initial`. -/
def Stale (initial : FdTable (Description α)) (pipe : PipePair) : Prop :=
  pipe = .absent ∨ ∃ r w : Nat, pipe = ⟨r, w⟩ ∧
    initial.entry r = none ∧ initial.entry w = none

section Stale

variable {initial : FdTable (Description α)} {pipe : PipePair}

theorem Stale.readEnd_free (h : Stale initial pipe) {fd : Nat}
    (hfd : (fd : Int) = pipe.readEnd) : initial.entry fd = none := by
  rcases h with rfl | ⟨r, w, rfl, hr, -⟩
  · exact absurd hfd (by simp only [PipePair.absent]; omega)
  · rw [Int.ofNat.inj hfd]
    exact hr

theorem Stale.writeEnd_free (h : Stale initial pipe) {fd : Nat}
    (hfd : (fd : Int) = pipe.writeEnd) : initial.entry fd = none := by
  rcases h with rfl | ⟨r, w, rfl, -, hw⟩
  · exact absurd hfd (by simp only [PipePair.absent]; omega)
  · rw [Int.ofNat.inj hfd]
    exact hw

theorem entry_closeEnd (fd : Int) (table : FdTable α) (n : Nat) :
    (closeEnd fd table).entry n =
      if (n : Int) = fd then none else table.entry n := by
  unfold closeEnd
  by_cases hfd : fd = -1
  · have hne : (n : Int) ≠ fd := by omega
    rw [if_neg (not_not.mpr hfd), if_neg hne]
  · rw [if_pos hfd, FdTable.entry_close]

theorem entry_closeEnd_ofNat (m : Nat) (table : FdTable α) (n : Nat) :
    (closeEnd (m : Int) table).entry n =
      if n = m then none else table.entry n := by
  rw [entry_closeEnd]
  simp only [Int.natCast_inj]

@[simp] theorem closeEnd_neg_one (table : FdTable α) :
    closeEnd (-1) table = table := rfl

/-- `closePipe` closes both ends, as neither is -1 alone. -/
theorem Stale.entry_closePipe (h : Stale initial pipe)
    (table : FdTable (Description α)) (n : Nat) :
    (closePipe pipe table).entry n =
      if (n : Int) = pipe.readEnd ∨ (n : Int) = pipe.writeEnd then none
      else table.entry n := by
  unfold closePipe
  rcases h with rfl | ⟨r, w, rfl, -, -⟩
  · have hne : ¬ ((n : Int) = PipePair.absent.readEnd ∨
        (n : Int) = PipePair.absent.writeEnd) := by
      simp only [PipePair.absent]
      omega
    rw [if_neg (fun hends => hends.1 rfl), if_neg hne]
  · rw [if_pos ⟨by simp only; omega, by simp only; omega⟩,
      FdTable.entry_close, FdTable.entry_close]
    by_cases hw : (n : Int) = w
    · rw [if_pos hw, if_pos (Or.inr hw)]
    · by_cases hr : (n : Int) = r
      · rw [if_neg hw, if_pos hr, if_pos (Or.inl hr)]
      · rw [if_neg hw, if_neg hr, if_neg (not_or.mpr ⟨hr, hw⟩)]

end Stale

/-! ## The invariant -/

/-- At the head of the loop: the initial descriptors and the read end of the
last pipe. -/
structure AtHead (initial : FdTable (Description α)) (s : SpawnState α) :
    Prop where
  incoming : Stale initial s.incomingPipe
  outgoing : Stale initial s.outgoingPipe
  entries : ∀ fd : Nat, s.table.entry fd = initial.entry fd ∨
    ((fd : Int) = s.incomingPipe.readEnd ∧
      ∃ pipe, pipe + 1 = s.round ∧ s.table.entry fd = some (.readEnd pipe))

/-- Between `pipe` and `fork`: also the two ends of the new pipe. -/
structure Wired (initial : FdTable (Description α)) (s : SpawnState α) :
    Prop where
  incoming : Stale initial s.incomingPipe
  outgoing : Stale initial s.outgoingPipe
  entries : ∀ fd : Nat, s.table.entry fd = initial.entry fd ∨
    ((fd : Int) = s.incomingPipe.readEnd ∧
      ∃ pipe, pipe + 1 = s.round ∧ s.table.entry fd = some (.readEnd pipe)) ∨
    ((fd : Int) = s.outgoingPipe.readEnd ∧
      s.table.entry fd = some (.readEnd s.round)) ∨
    ((fd : Int) = s.outgoingPipe.writeEnd ∧
      s.table.entry fd = some (.writeEnd s.round))

section Invariant

variable {initial : FdTable (Description α)} {s : SpawnState α}

theorem AtHead.start (table : FdTable α) :
    AtHead (table.map .inherited) (.initial (table.map .inherited)) :=
  ⟨Or.inl rfl, Or.inl rfl, fun _ => Or.inl rfl⟩

/-- A number that is free at the head of the loop was free initially. -/
theorem AtHead.free (h : AtHead initial s) {fd : Nat}
    (hfree : s.table.entry fd = none) : initial.entry fd = none := by
  rcases h.entries fd with heq | ⟨-, pipe, -, hread⟩
  · rw [← heq]
    exact hfree
  · rw [hfree] at hread
    cases hread

/-- The first part of a round makes one pipe, or none. -/
theorem AtHead.connected (h : AtHead initial s) (isLast : Bool) :
    Wired initial (s.connected isLast) := by
  cases isLast with
  | true =>
      refine ⟨h.incoming, Or.inl rfl, fun fd => ?_⟩
      rcases h.entries fd with heq | hread
      · exact Or.inl heq
      · exact Or.inr (Or.inl hread)
  | false =>
      obtain ⟨r, w, hpipe, htable, hr, hw, hne⟩ := s.connected_between
      refine ⟨by rw [SpawnState.connected_incomingPipe]; exact h.incoming,
        Or.inr ⟨r, w, hpipe, h.free hr, h.free hw⟩, fun fd => ?_⟩
      rw [SpawnState.connected_incomingPipe, SpawnState.connected_round,
        hpipe, htable, FdTable.entry_set, FdTable.entry_set]
      by_cases hfdw : fd = w
      · refine Or.inr (Or.inr (Or.inr ⟨by rw [hfdw], ?_⟩))
        rw [if_pos hfdw]
      · by_cases hfdr : fd = r
        · refine Or.inr (Or.inr (Or.inl ⟨by rw [hfdr], ?_⟩))
          rw [if_neg hfdw, if_pos hfdr]
        · rw [if_neg hfdw, if_neg hfdr]
          rcases h.entries fd with heq | hread
          · exact Or.inl heq
          · exact Or.inr (Or.inl hread)

theorem AtHead.wired (h : AtHead initial s) : Wired initial s := by
  refine ⟨h.incoming, h.outgoing, fun fd => ?_⟩
  rcases h.entries fd with heq | hread
  · exact Or.inl heq
  · exact Or.inr (Or.inl hread)

/-- What the error paths close is exactly what the loop has opened. -/
theorem Wired.entry_abandoned (h : Wired initial s) (fd : Nat) :
    s.abandoned.entry fd = initial.entry fd := by
  unfold SpawnState.abandoned
  rw [h.outgoing.entry_closePipe, h.incoming.entry_closePipe]
  by_cases hout : (fd : Int) = s.outgoingPipe.readEnd ∨
      (fd : Int) = s.outgoingPipe.writeEnd
  · rw [if_pos hout]
    rcases hout with hread | hwrite
    · exact (h.outgoing.readEnd_free hread).symm
    · exact (h.outgoing.writeEnd_free hwrite).symm
  · rw [if_neg hout]
    by_cases hin : (fd : Int) = s.incomingPipe.readEnd ∨
        (fd : Int) = s.incomingPipe.writeEnd
    · rw [if_pos hin]
      rcases hin with hread | hwrite
      · exact (h.incoming.readEnd_free hread).symm
      · exact (h.incoming.writeEnd_free hwrite).symm
    · rw [if_neg hin]
      rcases h.entries fd with heq | ⟨hread, -⟩ | ⟨hread, -⟩ | ⟨hwrite, -⟩
      · exact heq
      · exact absurd (Or.inl hread) hin
      · exact absurd (Or.inl hread) hout
      · exact absurd (Or.inr hwrite) hout

/-- The parent's part of a round leads back to the head. -/
theorem Wired.next (h : Wired initial s) : AtHead initial s.next := by
  refine ⟨h.outgoing, h.incoming, fun fd => ?_⟩
  show (closeEnd s.outgoingPipe.writeEnd
      (closeEnd s.incomingPipe.readEnd s.table)).entry fd = _ ∨
    ((fd : Int) = s.outgoingPipe.readEnd ∧ ∃ pipe, pipe + 1 = s.round + 1 ∧
      (closeEnd s.outgoingPipe.writeEnd
        (closeEnd s.incomingPipe.readEnd s.table)).entry fd =
          some (.readEnd pipe))
  rw [entry_closeEnd, entry_closeEnd]
  by_cases hwrite : (fd : Int) = s.outgoingPipe.writeEnd
  · rw [if_pos hwrite, h.outgoing.writeEnd_free hwrite]
    exact Or.inl rfl
  · rw [if_neg hwrite]
    by_cases hread : (fd : Int) = s.incomingPipe.readEnd
    · rw [if_pos hread, h.incoming.readEnd_free hread]
      exact Or.inl rfl
    · rw [if_neg hread]
      rcases h.entries fd with heq | ⟨hin, -⟩ | ⟨hout, hentry⟩ | ⟨hout, -⟩
      · exact Or.inl heq
      · exact absurd hin hread
      · exact Or.inr ⟨hout, s.round, rfl, hentry⟩
      · exact absurd hout hwrite

end Invariant

/-! ## The job handler's descriptors -/

theorem spawnLoop_restores (env : SpawnEnvironment) (heap : Heap)
    {initial : FdTable (Description α)} (list : SimpleCommandList)
    {s : SpawnState α} (h : AtHead initial s)
    (hlast : list = [] → s.incomingPipe = .absent) (fd : Nat) :
    (spawnLoop env heap list s).table.entry fd = initial.entry fd := by
  induction list generalizing s with
  | nil =>
      show s.table.entry fd = initial.entry fd
      rcases h.entries fd with heq | ⟨hread, -⟩
      · exact heq
      · rw [hlast rfl] at hread
        exact absurd hread (by simp only [PipePair.absent]; omega)
  | cons node next ih =>
      have hwired := h.connected next.isEmpty
      unfold spawnLoop
      by_cases hpipe : (!next.isEmpty && env.pipeFails s.round) = true
      · rw [if_pos hpipe]
        exact h.wired.entry_abandoned fd
      · rw [if_neg hpipe]
        by_cases hfork : env.forkFails (s.connected next.isEmpty).round = true
        · simp only [hfork, if_true]
          exact hwired.entry_abandoned fd
        · simp only [hfork]
          refine ih hwired.next fun hnil => ?_
          rw [hnil]
          rfl

/-- **The spawn loop is neutral.**  Whichever `pipe` or `fork` fails, the job
handler leaves the loop with exactly the descriptors it entered it with. -/
theorem spawnPipeline_restores (env : SpawnEnvironment) (heap : Heap)
    (list : SimpleList) (table : FdTable α) (fd : Nat) :
    (spawnPipeline env heap list table).table.entry fd =
      (table.map Description.inherited).entry fd :=
  spawnLoop_restores env heap _ (AtHead.start table) (fun _ => rfl) fd

/-! ## What a child can come to hold -/

/-- Every open descriptor refers to something that satisfies `P`. -/
def Holds (P : Description α → Prop) (table : FdTable (Description α)) :
    Prop :=
  ∀ fd d, table.entry fd = some d → P d

section Holds

variable {P : Description α → Prop} {table : FdTable (Description α)}
  {env : Environment} {p p' : Process α}

theorem Holds.set (h : Holds P table) {d : Description α} (hd : P d)
    (fd : Nat) : Holds P (table.set fd d) := by
  intro n e hn
  rw [FdTable.entry_set] at hn
  by_cases hfd : n = fd
  · rw [if_pos hfd] at hn
    cases hn
    exact hd
  · rw [if_neg hfd] at hn
    exact h n e hn

theorem Holds.dup2Call (h : Holds P p.table) (old : Int) (new : Nat) :
    Holds P (dup2Call env old new p).2.table := by
  unfold Interpreter.dup2Call
  rcases hold : p.table.entryAt old with _ | d
  · simp only [FdTable.dup2, hold, Option.map_none]
    exact h
  · obtain ⟨n, -, hn⟩ := FdTable.exists_of_entryAt hold
    simp only [FdTable.dup2, hold, Option.map_some]
    split
    · exact h
    · exact h.set (h n d hn) new

section

variable (hfile : ∀ isInput word, P (.file isInput word))
include hfile

theorem Holds.openCall (h : Holds P p.table) (isInput : Bool)
    (word : Option CString) :
    Holds P (openCall env isInput word p).2.table := by
  unfold Interpreter.openCall
  rcases word with _ | word
  · exact h
  · simp only
    split
    · exact h
    · exact h.set (hfile isInput word) _

theorem handleRedirection_holds (h : Holds P p.table)
    {redirection : Option Redirection} {status : Int}
    (hrun : handleRedirection env redirection p = .ok (status, p')) :
    Holds P p'.table := by
  unfold handleRedirection at hrun
  rcases redirection with _ | ⟨block, _ | flag, word⟩
  · cases hrun
    exact h
  · cases hrun
  · have hopened : Holds P (openCall env (flag != 0) word p).2.table :=
      h.openCall hfile (flag != 0) word
    simp only at hrun
    generalize openCall env (flag != 0) word p = result at hrun hopened
    rcases result with ⟨file, q⟩
    simp only at hrun hopened
    by_cases hneg : file < 0
    · rw [if_pos hneg] at hrun
      cases hrun
      exact hopened
    · rw [if_neg hneg] at hrun
      have hdone : Holds P (dup2Call env file
          (if (flag != 0) = true then stdinFd else stdoutFd) q).2.table :=
        Holds.dup2Call hopened file _
      generalize dup2Call env file
        (if (flag != 0) = true then stdinFd else stdoutFd) q = result
        at hrun hdone
      by_cases hfd : result.1 < 0
      · rw [if_pos hfd] at hrun
        cases hrun
        exact hdone
      · rw [if_neg hfd] at hrun
        cases hrun
        exact hdone

end

theorem handleCommandlineArgument_table {arg : Option CString}
    {dynArr dynArr' : Arguments} {status : Int}
    (hrun : handleCommandlineArgument env arg dynArr p =
      .ok (status, dynArr', p')) : p'.table = p.table := by
  unfold handleCommandlineArgument at hrun
  rcases dynArr with _ | arr
  · cases hrun
  · obtain ⟨added, -, hresult⟩ := except_bind_eq_ok.mp hrun
    cases hresult
    rfl

section

variable (hfile : ∀ isInput word, P (.file isInput word))
include hfile

theorem handleCommandElementList_holds (list : SimpleCommandElementList)
    {dynArr dynArr' : Arguments} {status : Int} (h : Holds P p.table)
    (hrun : handleCommandElementList env list dynArr p =
      .ok (status, dynArr', p')) : Holds P p'.table := by
  induction list generalizing dynArr p with
  | nil =>
      cases hrun
      exact h
  | cons node next ih =>
      unfold handleCommandElementList at hrun
      split at hrun
      · obtain ⟨⟨done, q⟩, hredirect, hrest⟩ := except_bind_eq_ok.mp hrun
        have hq := handleRedirection_holds hfile h hredirect
        simp only at hrest
        split at hrest
        · cases hrest
          exact hq
        · exact ih hq hrest
      · obtain ⟨⟨done, arr, q⟩, hadd, hrest⟩ := except_bind_eq_ok.mp hrun
        have hq : Holds P q.table := by
          rw [handleCommandlineArgument_table hadd]
          exact h
        simp only at hrest
        split at hrest
        · cases hrest
          exact hq
        · exact ih hq hrest

theorem executeCommand_holds {list : SimpleCommandElementList}
    {argv : Option (List CString)} (h : Holds P p.table)
    (hrun : executeCommand env list p = .ok (argv, p')) :
    Holds P p'.table := by
  have hfree : ∀ (dynArr : Arguments) (q : Process α),
      (freeArguments dynArr q).table = q.table := by
    intro dynArr q
    cases dynArr <;> rfl
  unfold executeCommand at hrun
  obtain ⟨⟨status, dynArr, q⟩, hlist, hrest⟩ := except_bind_eq_ok.mp hrun
  have hq : Holds P q.table := by
    refine handleCommandElementList_holds hfile list ?_ hlist
    exact h
  simp only at hrest
  split at hrest
  · cases hrest
    rw [hfree]
    exact hq
  · obtain ⟨⟨status', dynArr', q'⟩, hnull, hrest⟩ := except_bind_eq_ok.mp hrest
    rw [← handleCommandlineArgument_table hnull] at hq
    rcases dynArr' with _ | arr
    · cases hrest
    · obtain ⟨newargv, -, hresult⟩ := except_bind_eq_ok.mp hrest
      cases hresult
      rw [hfree]
      exact hq

/-- However a command fares, it ends up with what it was started with and the
files it has opened. -/
theorem handleCommandList_holds {list : SimpleCommandList}
    {incoming outgoing : Int} {argv : Option (List CString)}
    (h : Holds P p.table)
    (hrun : handleCommandList env list incoming outgoing p =
      .ok (argv, p')) : Holds P p'.table := by
  have hconnect : ∀ (pipeEnd : Int) (fd : Nat) (q : Process α),
      Holds P q.table → Holds P (connectPipe env pipeEnd fd q).2.table := by
    intro pipeEnd fd q hq
    unfold connectPipe
    split
    · exact hq.dup2Call pipeEnd fd
    · exact hq
  unfold handleCommandList at hrun
  rcases list with _ | ⟨node, next⟩
  · cases hrun
    exact h
  · have hin := hconnect incoming stdinFd p h
    have hout := hconnect outgoing stdoutFd _ hin
    simp only at hrun
    split at hrun
    · cases hrun
      exact hin
    · split at hrun
      · cases hrun
        exact hout
      · exact executeCommand_holds hfile hout hrun

end

end Holds

/-! ## The ends of the pipes -/

/-- What stage `k` may have open: of the pipes, the read end of the one before
it and the write end of the one after it. -/
def StageHolds (k : Nat) : Description α → Prop
  | .inherited _ => True
  | .file _ _ => True
  | .readEnd pipe => pipe + 1 = k
  | .writeEnd pipe => pipe = k

section Children

variable {env : SpawnEnvironment} {heap : Heap}
  {initial : FdTable (Description α)} {s : SpawnState α}

/-- The initial table of a job handler, of which only this matters. -/
def Inherited (initial : FdTable (Description α)) : Prop :=
  Holds (fun d => ∃ x, d = .inherited x) initial

theorem inherited_map (table : FdTable α) :
    Inherited (table.map Description.inherited) := by
  intro fd d hd
  rw [FdTable.entry_map] at hd
  obtain ⟨x, -, rfl⟩ := Option.map_eq_some_iff.mp hd
  exact ⟨x, rfl⟩

theorem runChild_holds (h : Wired initial s) (hinherited : Inherited initial)
    {list : SimpleCommandList} {argv : Option (List CString)} {p : Process α}
    (hrun : runChild env heap list s = .ok (argv, p)) :
    Holds (StageHolds s.round) p.table := by
  unfold runChild at hrun
  split at hrun
  · cases hrun
    intro fd d hd
    have hentry : initial.entry fd = some d := by
      rw [← h.entry_abandoned fd]
      exact hd
    obtain ⟨x, rfl⟩ := hinherited fd d hentry
    trivial
  · refine handleCommandList_holds (P := StageHolds s.round)
      (fun _ _ => trivial) ?_ hrun
    intro fd d hd
    change (closeEnd s.outgoingPipe.readEnd
      (closeEnd s.incomingPipe.writeEnd s.table)).entry fd = some d at hd
    rw [entry_closeEnd, entry_closeEnd] at hd
    split at hd
    · cases hd
    · split at hd
      · cases hd
      · rename_i hread _
        rcases h.entries fd with heq | ⟨-, pipe, hpipe, hentry⟩ |
          ⟨hout, -⟩ | ⟨-, hentry⟩
        · rw [heq] at hd
          obtain ⟨x, rfl⟩ := hinherited fd d hd
          trivial
        · rw [hentry] at hd
          cases hd
          exact hpipe
        · exact absurd hout hread
        · rw [hentry] at hd
          cases hd
          rfl

theorem spawnLoop_children (list : SimpleCommandList)
    (h : AtHead initial s) (hinherited : Inherited initial) {j : Nat}
    {argv : Option (List CString)} {p : Process α}
    (hchild : (spawnLoop env heap list s).children[j]? = some (.ok (argv, p))) :
    Holds (StageHolds (s.round + j)) p.table := by
  induction list generalizing s j with
  | nil => cases hchild
  | cons node next ih =>
      have hwired := h.connected next.isEmpty
      unfold spawnLoop at hchild
      split at hchild
      · cases hchild
      · simp only at hchild
        split at hchild
        · cases hchild
        · cases j with
          | zero =>
              have hrun : runChild env heap (node :: next)
                  (s.connected next.isEmpty) = .ok (argv, p) :=
                Option.some.inj hchild
              have hholds := runChild_holds hwired hinherited hrun
              rw [SpawnState.connected_round] at hholds
              exact hholds
          | succ j =>
              have hrest := ih hwired.next hchild
              rw [SpawnState.next_round, SpawnState.connected_round] at hrest
              rw [Nat.add_succ, ← Nat.succ_add]
              exact hrest

end Children

/-- **Every pipe end is where it belongs.**  Once the job handler has left the
spawn loop it has no end of a pipe open; and however a stage fares, the write
end of pipe `k` is open in no stage but `k`, its read end in none but
`k + 1`. -/
theorem spawnPipeline_pipeEnds (env : SpawnEnvironment) (heap : Heap)
    (list : SimpleList) (table : FdTable α) (pipe fd : Nat) :
    (spawnPipeline env heap list table).table.entry fd ≠
        some (.writeEnd pipe) ∧
    (spawnPipeline env heap list table).table.entry fd ≠
        some (.readEnd pipe) ∧
    ∀ (stage : Nat) (argv : Option (List CString)) (p : Process α),
      (spawnPipeline env heap list table).children[stage]? =
        some (.ok (argv, p)) →
      (p.table.entry fd = some (.writeEnd pipe) → stage = pipe) ∧
      (p.table.entry fd = some (.readEnd pipe) → stage = pipe + 1) := by
  have hhandler : ∀ d, (spawnPipeline env heap list table).table.entry fd =
      some d → ∃ x, d = .inherited x := by
    intro d hd
    have hsame := spawnLoop_restores env heap list.pipeline.simpleCommandList
      (AtHead.start table) (fun _ => rfl) fd
    exact inherited_map table fd d (hsame ▸ hd)
  refine ⟨?_, ?_, ?_⟩
  · intro hwrite
    obtain ⟨x, hx⟩ := hhandler _ hwrite
    cases hx
  · intro hread
    obtain ⟨x, hx⟩ := hhandler _ hread
    cases hx
  · intro stage argv p hchild
    have hholds := spawnLoop_children list.pipeline.simpleCommandList
      (AtHead.start table) (inherited_map table) hchild
    rw [show (SpawnState.initial (table.map Description.inherited)).round +
      stage = stage from Nat.zero_add stage] at hholds
    constructor
    · intro hwrite
      exact (hholds fd _ hwrite).symm
    · intro hread
      exact (hholds fd _ hread).symm

/-- What the job handler of `a | b` leaves behind. -/
def twoStages : Spawned Nat :=
  spawnPipeline .quiet Heap.empty (lineTree
    ⟨.ofToken tokenA (by decide), [.ofToken tokenB (by decide)], false⟩)
    FdTable.standard

set_option maxRecDepth 10000 in
/-- `b` in `a | b` reads the only pipe, and nothing else does. -/
theorem spawnPipeline_pipeEnds_two_stages :
    ∃ p, twoStages.children[1]? = some (.ok (some [tokenB], p)) ∧
      p.table.entry 0 = some (.readEnd 0) ∧ 1 = 0 + 1 := by
  obtain ⟨p, hchild, hentry⟩ : ∃ p,
      twoStages.children[1]? = some (.ok (some [tokenB], p)) ∧
      p.table.entry 0 = some (.readEnd 0) := ⟨_, rfl, rfl⟩
  have hends := (spawnPipeline_pipeEnds .quiet Heap.empty _ FdTable.standard
    0 0).2.2 1 (some [tokenB]) p hchild
  exact ⟨p, hchild, hentry, hends.2 hentry⟩

end OsLabs.Iwish.SpawnLoop
