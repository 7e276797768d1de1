import OsLabs.Posix.Filters
import OsLabs.Posix.Processes
import OsLabs.Iwish.PipelineStages

/-!
# A pipeline at work

The job handler starts the stages of a pipeline one after the other, and those
that it has started run beside it: they close the ends they do not use, make
their redirections and call `execvp`, and the programs then read and write.
What a program does is given (`Programs`), as it is not part of the shell.

Whether a reader finds the end of its pipe, and whether a writer is killed,
depends on who has the other end open: the job handler, a child that has not
closed it yet, or a stage.  The files are part of the state: a child that
redirects its output truncates them, and programs write to them.

`jobStep_simulates`: between them the processes keep just those ends open that
make a job a chain of programs, as long as no file that one of them reads is
one that another writes (`Apart`).
-/

namespace OsLabs.Iwish.PipelineJob

open OsLabs.Posix
open OsLabs.Posix.Filters
open OsLabs.Iwish.ParserTokens
open OsLabs.Iwish.Interpreter
open OsLabs.Iwish.SpawnLoop
open OsLabs.Iwish.PipelineStages (openingStages)

/-! ## Programs, stages and the job handler -/

/-- What `execvp` makes of an argument array, if it finds a program, and what
programs do. -/
structure Programs (σ : Type) where
  exec : List CString → Option σ
  act : σ → Action σ

/-- A stage between `fork` and its end.  A child that has just been forked has
the variables and the descriptors of the job handler. -/
inductive StageLife (σ α : Type) where
  | forked (list : SimpleCommandList) (handler : SpawnState α)
  | running (state : σ)
  | exited
  | killed

/-- A stage, with the number of bytes that it has read of a standard input that
is not a pipe, and everything it has written to its standard output. -/
structure Stage (σ α : Type) where
  life : StageLife σ α
  table : FdTable (Description α)
  taken : Nat
  written : List UInt8

/-- The job handler at the head of its loop, or behind `fork`. -/
inductive Handler (α : Type) where
  | atHead (commands : SimpleCommandList) (s : SpawnState α)
  | forked (next : SimpleCommandList) (s : SpawnState α)

def Handler.table {α : Type} : Handler α → FdTable (Description α)
  | .atHead _ s => s.table
  | .forked _ s => s.table

/-- What each file holds. -/
abbrev Files := CString → List UInt8

/-- The job handler, the stages it has started, the bytes on the pipes, and the
files. -/
structure JobState (σ α : Type) where
  handler : Handler α
  stages : List (Stage σ α)
  pipe : Nat → List UInt8
  file : Files

/-! ## Files -/

/-- `creat` truncates. -/
def Files.truncate (file : Files) (words : List CString) : Files := fun word =>
  if word ∈ words then [] else file word

/-- A write at a position; a gap in front of it is filled with zeros. -/
def writeAt (bytes : List UInt8) (position : Nat) (byte : UInt8) :
    List UInt8 :=
  (bytes ++ List.replicate (position + 1 - bytes.length) 0).set position byte

section Files

variable {α : Type}

/-- A write to what a descriptor refers to. -/
def Files.store (file : Files) (d : Description α) (position : Nat)
    (byte : UInt8) : Files :=
  match d with
  | .file _ word =>
    Function.update file word (writeAt (file word) position byte)
  | _ => file

/-- What can be read from a description that is not a pipe of the job;
`inherited` says what the shell's own descriptors lead to. -/
def Files.contents (file : Files) (inherited : α → List UInt8) :
    Description α → List UInt8
  | .inherited x => inherited x
  | .file _ word => file word
  | _ => []

/-- The files that a child has truncated: those for which its `creat` has not
failed. -/
def truncated (openFails : Nat → Bool) (ending : Ending α) : List CString :=
  match ending with
  | .ok (_, p) => p.opened.zipIdx.filterMap fun (r, call) =>
    if r.1 = false ∧ openFails call = false then some r.2 else none
  | .error _ => []

variable {file file' : Files} {words : List CString} {word : CString}
  {d : Description α}

theorem truncate_mem (h : word ∈ words) : file.truncate words word = [] :=
  if_pos h

theorem truncate_other (h : word ∉ words) :
    file.truncate words word = file word :=
  if_neg h

/-- A write behind the last byte. -/
theorem writeAt_length (bytes : List UInt8) (byte : UInt8) :
    writeAt bytes bytes.length byte = bytes ++ [byte] := by
  unfold writeAt
  rw [Nat.add_sub_cancel_left,
    List.set_append_right bytes.length byte (Nat.le_refl _), Nat.sub_self]
  rfl

theorem store_file (isInput : Bool) (position : Nat) (byte : UInt8) :
    file.store (.file isInput word : Description α) position byte word =
      writeAt (file word) position byte :=
  Function.update_self word _ file

theorem store_other (position : Nat) (byte : UInt8)
    (h : ∀ isInput, d ≠ .file isInput word) :
    file.store d position byte word = file word := by
  cases d with
  | file isInput word' =>
      have hne : word ≠ word' := fun heq => h isInput (by rw [heq])
      exact Function.update_of_ne hne _ _
  | inherited x => rfl
  | readEnd pipe => rfl
  | writeEnd pipe => rfl

/-- Only what it leads to matters for a description. -/
theorem contents_congr (inherited : α → List UInt8)
    (h : ∀ isInput word, d = .file isInput word → file word = file' word) :
    file.contents inherited d = file'.contents inherited d := by
  cases d with
  | file isInput word => exact h isInput word rfl
  | inherited x => rfl
  | readEnd pipe => rfl
  | writeEnd pipe => rfl

end Files

/-! ## Steps -/

section System

variable {σ α : Type}

def JobState.initial (list : SimpleList) (table : FdTable α) (file : Files) :
    JobState σ α :=
  ⟨.atHead list.pipeline.simpleCommandList
    (.initial (table.map .inherited)), [], fun _ => [], file⟩

def Stage.Live (stage : Stage σ α) : Prop :=
  match stage.life with
  | .forked _ _ => True
  | .running _ => True
  | .exited => False
  | .killed => False

/-- Some descriptor refers to `d`. -/
def Refers (table : FdTable (Description α)) (d : Description α) : Prop :=
  ∃ fd, table.entry fd = some d

/-- Some process has `d` open. -/
def JobState.Open (s : JobState σ α) (d : Description α) : Prop :=
  Refers s.handler.table d ∨
    ∃ stage ∈ s.stages, stage.Live ∧ Refers stage.table d

/-- A description that is not an end of a pipe of the job. -/
def Outside : Description α → Prop
  | .inherited _ => True
  | .file _ _ => True
  | .readEnd _ => False
  | .writeEnd _ => False

/-- What a process reads from its standard input, unless that is a pipe. -/
def ownInput (contents : Description α → List UInt8)
    (table : FdTable (Description α)) : Option (List UInt8) :=
  match table.entry stdinFd with
  | some (.readEnd _) => none
  | some d => some (contents d)
  | none => some []

def writesPipe (table : FdTable (Description α)) : Bool :=
  match table.entry stdoutFd with
  | some (.writeEnd _) => true
  | _ => false

/-- A child in which `execvp` has succeeded or has not. -/
def Stage.prepared (programs : Programs σ) (ending : Ending α)
    (stage : Stage σ α) : Stage σ α :=
  match ending with
  | .ok (some argv, p) =>
    match programs.exec argv with
    | some state => ⟨.running state, p.table, 0, []⟩
    | none => ⟨.exited, p.table, 0, []⟩
  | .ok (none, p) => ⟨.exited, p.table, 0, []⟩
  | .error _ => ⟨.exited, stage.table, 0, []⟩

section Prepared

variable {programs : Programs σ} {argv : List CString} (p : Process α)
  (stage : Stage σ α)

theorem prepared_found {state : σ} (h : programs.exec argv = some state) :
    stage.prepared programs (.ok (some argv, p)) =
      ⟨.running state, p.table, 0, []⟩ := by
  simp only [Stage.prepared, h]

theorem prepared_notFound (h : programs.exec argv = none) :
    stage.prepared programs (.ok (some argv, p)) =
      ⟨.exited, p.table, 0, []⟩ := by
  simp only [Stage.prepared, h]

theorem prepared_written (programs : Programs σ) (ending : Ending α) :
    (stage.prepared programs ending).written = [] := by
  match ending with
  | .error fault => rfl
  | .ok (none, p) => rfl
  | .ok (some argv, p) =>
      cases hexec : programs.exec argv with
      | none => rw [prepared_notFound p stage hexec]
      | some state => rw [prepared_found p stage hexec]

end Prepared

/-- What a program does to its stage, to the pipes and to the files.  A pipe has
room for `capacity` bytes. -/
inductive StageActs (act : σ → Action σ) (inherited : α → List UInt8)
    (capacity : Nat) (s : JobState σ α) (stage : Stage σ α) :
    Stage σ α → (Nat → List UInt8) → Files → Prop
  | read {state : σ} {next : Option UInt8 → σ} {d : Description α}
      {byte : UInt8} (hlife : stage.life = .running state)
      (hact : act state = .read next)
      (hstdin : stage.table.entry stdinFd = some d) (hd : Outside d)
      (hbyte : (s.file.contents inherited d)[stage.taken]? = some byte) :
      StageActs act inherited capacity s stage
        { stage with
          life := .running (next (some byte))
          taken := stage.taken + 1 } s.pipe s.file
  | readAll {state : σ} {next : Option UInt8 → σ} {d : Description α}
      (hlife : stage.life = .running state) (hact : act state = .read next)
      (hstdin : stage.table.entry stdinFd = some d) (hd : Outside d)
      (hend : (s.file.contents inherited d)[stage.taken]? = none) :
      StageActs act inherited capacity s stage
        { stage with life := .running (next none) } s.pipe s.file
  | readPipe {state : σ} {next : Option UInt8 → σ} {pipe : Nat} {byte : UInt8}
      {rest : List UInt8} (hlife : stage.life = .running state)
      (hact : act state = .read next)
      (hstdin : stage.table.entry stdinFd = some (.readEnd pipe))
      (hpipe : s.pipe pipe = byte :: rest) :
      StageActs act inherited capacity s stage
        { stage with life := .running (next (some byte)) }
        (Function.update s.pipe pipe rest) s.file
  | readEnd {state : σ} {next : Option UInt8 → σ} {pipe : Nat}
      (hlife : stage.life = .running state) (hact : act state = .read next)
      (hstdin : stage.table.entry stdinFd = some (.readEnd pipe))
      (hpipe : s.pipe pipe = []) (hclosed : ¬ s.Open (.writeEnd pipe)) :
      StageActs act inherited capacity s stage
        { stage with life := .running (next none) } s.pipe s.file
  | write {state next : σ} {byte : UInt8} {d : Description α}
      (hlife : stage.life = .running state)
      (hact : act state = .write byte next)
      (hstdout : stage.table.entry stdoutFd = some d) (hd : Outside d) :
      StageActs act inherited capacity s stage
        { stage with
          life := .running next
          written := stage.written ++ [byte] } s.pipe
        (s.file.store d stage.written.length byte)
  | writePipe {state next : σ} {byte : UInt8} {pipe : Nat}
      (hlife : stage.life = .running state)
      (hact : act state = .write byte next)
      (hstdout : stage.table.entry stdoutFd = some (.writeEnd pipe))
      (hopen : s.Open (.readEnd pipe))
      (hroom : (s.pipe pipe).length < capacity) :
      StageActs act inherited capacity s stage
        { stage with
          life := .running next
          written := stage.written ++ [byte] }
        (Function.update s.pipe pipe (s.pipe pipe ++ [byte])) s.file
  | broken {state next : σ} {byte : UInt8} {pipe : Nat}
      (hlife : stage.life = .running state)
      (hact : act state = .write byte next)
      (hstdout : stage.table.entry stdoutFd = some (.writeEnd pipe))
      (hclosed : ¬ s.Open (.readEnd pipe)) :
      StageActs act inherited capacity s stage { stage with life := .killed }
        s.pipe s.file
  | exit {state : σ} {code : UInt8} (hlife : stage.life = .running state)
      (hact : act state = .exit code) :
      StageActs act inherited capacity s stage { stage with life := .exited }
        s.pipe s.file

/-- The job handler or one of the stages takes a step; all calls succeed that
can, apart from the `open`s and `creat`s that `openFails` names. -/
inductive JobStep (programs : Programs σ) (capacity : Nat)
    (inherited : α → List UInt8) (openFails : Nat → Nat → Bool) (heap : Heap) :
    JobState σ α → JobState σ α → Prop
  | fork {node : SimpleCommandNode} {next : SimpleCommandList}
      {t : SpawnState α} (stages : List (Stage σ α))
      (pipe : Nat → List UInt8) (file : Files) :
      JobStep programs capacity inherited openFails heap
        ⟨.atHead (node :: next) t, stages, pipe, file⟩
        ⟨.forked next (t.connected next.isEmpty), stages ++
          [⟨.forked (node :: next) (t.connected next.isEmpty),
            (t.connected next.isEmpty).table, 0, []⟩], pipe, file⟩
  | close {next : SimpleCommandList} {t : SpawnState α}
      (stages : List (Stage σ α)) (pipe : Nat → List UInt8) (file : Files) :
      JobStep programs capacity inherited openFails heap
        ⟨.forked next t, stages, pipe, file⟩
        ⟨.atHead next t.next, stages, pipe, file⟩
  | prepare {s : JobState σ α} {k : Nat} {stage : Stage σ α}
      {list : SimpleCommandList} {t : SpawnState α} {ending : Ending α}
      (hstage : s.stages[k]? = some stage)
      (hlife : stage.life = .forked list t)
      (hending : runChild (openingStages openFails) heap list t = ending) :
      JobStep programs capacity inherited openFails heap s
        { s with
          stages := s.stages.set k (stage.prepared programs ending)
          file := s.file.truncate (truncated (openFails k) ending) }
  | act {s : JobState σ α} {k : Nat} {stage stage' : Stage σ α}
      {pipe : Nat → List UInt8} {file : Files}
      (hstage : s.stages[k]? = some stage)
      (hacts : StageActs programs.act inherited capacity s stage stage' pipe
        file) :
      JobStep programs capacity inherited openFails heap s
        { s with
          stages := s.stages.set k stage'
          pipe := pipe
          file := file }

end System

/-! ## The chain behind a job -/

section Chains

variable {σ α : Type}

/-- A stage that does not come to run a program. -/
def idle : Plan σ := ⟨none, some [], false⟩

/-- What is to be expected of a child whose preparation ends like this. -/
def endingPlan (programs : Programs σ) (contents : Description α → List UInt8)
    (ending : Ending α) : Plan σ :=
  match ending with
  | .ok (some argv, p) =>
    match programs.exec argv with
    | some state =>
      ⟨some state, ownInput contents p.table, writesPipe p.table⟩
    | none => idle
  | _ => idle

/-- What is to be expected of all children. -/
def jobPlan (programs : Programs σ) (contents : Description α → List UInt8)
    (endings : List (Ending α)) (k : Nat) : Plan σ :=
  match endings[k]? with
  | some ending => endingPlan programs contents ending
  | none => idle

/-- What a stage has not yet read of its own input. -/
def Stage.left (plan : Plan σ) (stage : Stage σ α) : List UInt8 :=
  (plan.source.getD []).drop stage.taken

/-- A stage as a program of a chain. -/
def Stage.cell (plan : Plan σ) (stage : Stage σ α) : Cell σ :=
  match stage.life with
  | .forked _ _ => Chain.fresh plan
  | .running state => ⟨.running state, stage.left plan, stage.written⟩
  | .exited => ⟨.exited, stage.left plan, stage.written⟩
  | .killed => ⟨.killed, stage.left plan, stage.written⟩

def JobState.cell (plan : Nat → Plan σ) (s : JobState σ α) (k : Nat) :
    Cell σ :=
  match s.stages[k]? with
  | some stage => stage.cell (plan k)
  | none => Chain.fresh (plan k)

def JobState.chain (plan : Nat → Plan σ) (s : JobState σ α) : Chain σ :=
  ⟨s.cell plan, s.pipe⟩

variable {plan : Nat → Plan σ} {s : JobState σ α} {k : Nat}
  {stage : Stage σ α}

theorem cell_eq (h : s.stages[k]? = some stage) :
    s.cell plan k = stage.cell (plan k) := by
  unfold JobState.cell
  rw [h]

theorem chain_set (h : s.stages[k]? = some stage) (stage' : Stage σ α)
    (pipe : Nat → List UInt8) (file : Files) :
    JobState.chain plan { s with
        stages := s.stages.set k stage', pipe := pipe, file := file } =
      ⟨Function.update (s.cell plan) k (stage'.cell (plan k)), pipe⟩ := by
  have hlt := (List.getElem?_eq_some_iff.mp h).1
  unfold JobState.chain
  congr 1
  funext j
  unfold JobState.cell
  by_cases hj : j = k
  · subst hj
    rw [Function.update_self]
    simp only [List.getElem?_set_self hlt]
  · rw [Function.update_of_ne hj]
    simp only [List.getElem?_set_ne (Ne.symm hj)]

/-- A child that has not prepared yet is not different from one that has not
been forked. -/
theorem chain_fork (list : SimpleCommandList) (t : SpawnState α)
    (handler handler' : Handler α) (stages : List (Stage σ α))
    (pipe : Nat → List UInt8) (file : Files) :
    JobState.chain plan
        ⟨handler', stages ++ [⟨.forked list t, t.table, 0, []⟩], pipe, file⟩ =
      JobState.chain plan ⟨handler, stages, pipe, file⟩ := by
  unfold JobState.chain
  congr 1
  funext j
  unfold JobState.cell
  simp only
  rcases Nat.lt_trichotomy j stages.length with hlt | rfl | hgt
  · rw [List.getElem?_append_left hlt]
  · rw [List.getElem?_concat_length, List.getElem?_eq_none (Nat.le_refl _)]
    rfl
  · rw [List.getElem?_eq_none (Nat.le_of_lt hgt), List.getElem?_eq_none]
    rw [List.length_append]
    exact hgt

end Chains

/-! ## What the stages and the job handler have open -/

section Attached

variable {σ α : Type}

/-- Stage `k` of `n` has only its own ends of the pipes, and its standard
descriptors are open in the right direction. -/
structure Attached (n k : Nat) (table : FdTable (Description α)) : Prop where
  holds : Holds (StageHolds k) table
  stdin : ∃ d, table.entry stdinFd = some d ∧ ∀ pipe, d ≠ .writeEnd pipe
  stdout : ∃ d, table.entry stdoutFd = some d ∧ (∀ pipe, d ≠ .readEnd pipe) ∧
    ∀ pipe, d = .writeEnd pipe → pipe + 1 < n

variable {n k : Nat} {table : FdTable (Description α)}

theorem Attached.stdin_cases (h : Attached n k table)
    (contents : Description α → List UInt8) :
    (∃ d, table.entry stdinFd = some d ∧ Outside d ∧
      ownInput contents table = some (contents d)) ∨
    ∃ j, k = j + 1 ∧ table.entry stdinFd = some (.readEnd j) ∧
      ownInput contents table = none := by
  obtain ⟨d, hd, hnot⟩ := h.stdin
  have hholds := h.holds stdinFd d hd
  unfold ownInput
  rw [hd]
  cases d with
  | inherited x => exact Or.inl ⟨_, rfl, trivial, rfl⟩
  | file isInput word => exact Or.inl ⟨_, rfl, trivial, rfl⟩
  | readEnd pipe => exact Or.inr ⟨pipe, hholds.symm, rfl, rfl⟩
  | writeEnd pipe => exact absurd rfl (hnot pipe)

theorem Attached.stdout_cases (h : Attached n k table) :
    (∃ d, table.entry stdoutFd = some d ∧ Outside d ∧
      writesPipe table = false) ∨
    table.entry stdoutFd = some (.writeEnd k) ∧ k + 1 < n ∧
      writesPipe table = true := by
  obtain ⟨d, hd, hnot, hlast⟩ := h.stdout
  have hholds := h.holds stdoutFd d hd
  unfold writesPipe
  rw [hd]
  cases d with
  | inherited x => exact Or.inl ⟨_, rfl, trivial, rfl⟩
  | file isInput word => exact Or.inl ⟨_, rfl, trivial, rfl⟩
  | readEnd pipe => exact absurd rfl (hnot pipe)
  | writeEnd pipe =>
      obtain rfl : pipe = k := hholds
      exact Or.inr ⟨rfl, hlast pipe rfl, rfl⟩

end Attached

section Ends

variable {α : Type} {initial : FdTable (Description α)} {t : SpawnState α}

/-- The read end that the job handler carries to the next command, if there is
a next one. -/
def Carried (commands : SimpleCommandList) (t : SpawnState α) : Prop :=
  t.incomingPipe = .absent ∧ (t.round = 0 ∨ commands = []) ∨
    commands ≠ [] ∧ ∃ k r : Nat, t.round = k + 1 ∧ t.incomingPipe.readEnd = r ∧
      t.table.entry r = some (.readEnd k)

/-- The pipe between a child that has been forked and the next one. -/
def Made (next : SimpleCommandList) (t : SpawnState α) : Prop :=
  t.outgoingPipe = .absent ∧ next = [] ∨
    next ≠ [] ∧ ∃ r : Nat, t.outgoingPipe.readEnd = r ∧
      t.table.entry r = some (.readEnd t.round) ∧
      t.next.table.entry r = some (.readEnd t.round) ∧
      Refers t.table (.writeEnd t.round)

/-- What is carried stays open when the next pipe is made. -/
theorem Carried.connected {node : SimpleCommandNode}
    {next : SimpleCommandList} (h : Carried (node :: next) t) :
    Made next (t.connected next.isEmpty) ∧ ∀ k, t.round = k + 1 →
      Refers (t.connected next.isEmpty).table (.readEnd k) := by
  cases hnext : next with
  | nil =>
      refine ⟨Or.inl ⟨rfl, rfl⟩, fun k hk => ?_⟩
      rcases h with ⟨-, hround | hnil⟩ | ⟨-, j, r, hround, -, hentry⟩
      · omega
      · cases hnil
      · obtain rfl : j = k := by omega
        exact ⟨r, hentry⟩
  | cons following rest =>
      obtain ⟨r, w, hpipe, htable, hr, hw, hne⟩ := t.connected_between
      have hentry : ∀ fd, (t.connected false).table.entry fd =
          if fd = w then some (.writeEnd t.round)
          else if fd = r then some (.readEnd t.round)
          else t.table.entry fd := by
        intro fd
        rw [htable, FdTable.entry_set, FdTable.entry_set]
      have hread : (t.connected false).table.entry r =
          some (.readEnd t.round) := by
        rw [hentry, if_neg hne.symm, if_pos rfl]
      constructor
      · refine Or.inr ⟨List.cons_ne_nil _ _, r,
          by rw [List.isEmpty_cons, hpipe], hread, ?_, w, ?_⟩
        · show (closeEnd (t.connected false).outgoingPipe.writeEnd (closeEnd
            (t.connected false).incomingPipe.readEnd
              (t.connected false).table)).entry r = _
          have hcarried : (r : Int) ≠ t.incomingPipe.readEnd := by
            intro heq
            rcases h with ⟨habsent, -⟩ | ⟨-, j, r', -, hincoming, hopen⟩
            · rw [habsent] at heq
              simp only [PipePair.absent] at heq
              omega
            · rw [hincoming] at heq
              rw [Int.ofNat.inj heq, hopen] at hr
              cases hr
          rw [hpipe, entry_closeEnd_ofNat, if_neg hne.symm, entry_closeEnd,
            SpawnState.connected_incomingPipe, if_neg hcarried]
          exact hread
        · show (t.connected false).table.entry w = _
          rw [hentry, if_pos rfl]
          rfl
      · intro k hk
        rcases h with ⟨-, hround | hnil⟩ | ⟨-, j, r', hround, -, hopen⟩
        · omega
        · cases hnil
        · obtain rfl : j = k := by omega
          refine ⟨r', ?_⟩
          show (t.connected false).table.entry r' = _
          have hw' : r' ≠ w := by
            intro heq
            rw [heq, hw] at hopen
            cases hopen
          have hr' : r' ≠ r := by
            intro heq
            rw [heq, hr] at hopen
            cases hopen
          rw [hentry, if_neg hw', if_neg hr', hopen]

/-- The read end of the new pipe is what is carried next. -/
theorem Made.next {next : SimpleCommandList} (h : Made next t) :
    Carried next t.next := by
  rcases h with ⟨habsent, hnil⟩ | ⟨hne, r, hout, -, hentry, -⟩
  · exact Or.inl ⟨habsent, Or.inr hnil⟩
  · exact Or.inr ⟨hne, t.round, r, rfl, hout, hentry⟩

end Ends

/-! ## The invariant -/

section Invariant

variable {σ α : Type} (programs : Programs σ)
  (contents : Description α → List UInt8) (openFails : Nat → Nat → Bool)
  (heap : Heap) (initial : FdTable (Description α)) (n : Nat)
  (endings : List (Ending α))

/-- The job handler has started `started` of the `n` stages. -/
def HandlerOk (started : Nat) : Handler α → Prop
  | .atHead commands t => started + commands.length = n ∧
    t.round = started ∧ AtHead initial t ∧ Carried commands t ∧
    endings.drop started =
      (spawnLoop (openingStages openFails) heap commands t).children
  | .forked next t => started + next.length = n ∧ t.round + 1 = started ∧
    Wired initial t ∧ Made next t ∧ endings.drop started =
      (spawnLoop (openingStages openFails) heap next t.next).children

/-- Stage `k` is on its way to its ending, or runs the program that it has
come to. -/
def StageOk (k : Nat) (stage : Stage σ α) : Prop :=
  match stage.life with
  | .forked list t =>
    endings[k]? = some (runChild (openingStages openFails) heap list t) ∧
    stage.table = t.table ∧ stage.written = [] ∧
    (k + 1 < n → Refers t.table (.writeEnd k)) ∧
    ∀ j, k = j + 1 → Refers t.table (.readEnd j)
  | .running _ => ∃ argv p state, endings[k]? = some (.ok (some argv, p)) ∧
    programs.exec argv = some state ∧ stage.table = p.table
  | .exited => True
  | .killed => True

structure JobInv (s : JobState σ α) : Prop where
  handler : HandlerOk openFails heap initial n endings s.stages.length s.handler
  stage : ∀ k stage, s.stages[k]? = some stage →
    StageOk programs openFails heap n endings k stage

/-- Every child that comes to `execvp` is attached to its neighbours. -/
def AllAttached : Prop :=
  ∀ (k : Nat) (argv : List CString) (p : Process α),
    endings[k]? = some (.ok (some argv, p)) → Attached n k p.table

/-- `read` holds of every file that a program reads, and of none that a child
truncates or a program writes to. -/
structure Apart (read : CString → Prop) : Prop where
  reads : ∀ (k : Nat) (argv : List CString) (p : Process α) (isInput : Bool)
    (word : CString), endings[k]? = some (.ok (some argv, p)) →
    p.table.entry stdinFd = some (.file isInput word) → read word
  truncates : ∀ (k : Nat) (ending : Ending α), endings[k]? = some ending →
    ∀ word ∈ truncated (openFails k) ending, ¬ read word
  writes : ∀ (k : Nat) (argv : List CString) (p : Process α) (isInput : Bool)
    (word : CString), endings[k]? = some (.ok (some argv, p)) →
    p.table.entry stdoutFd = some (.file isInput word) → ¬ read word

/-- Child `k` is the one that truncates the file, and its program, if it comes
to run one, is the one that writes to it. -/
structure Owns (k : Nat) (word : CString) : Prop where
  truncates : ∀ (j : Nat) (ending : Ending α), endings[j]? = some ending →
    (word ∈ truncated (openFails j) ending ↔ j = k)
  writes : ∀ (j : Nat) (argv : List CString) (p : Process α),
    endings[j]? = some (.ok (some argv, p)) →
    ((∃ isInput, p.table.entry stdoutFd = some (.file isInput word)) ↔ j = k)

/-- The file holds what stage `k` has written since it prepared. -/
def Stored (k : Nat) (word : CString) (s : JobState σ α) : Prop :=
  ∀ stage : Stage σ α, s.stages[k]? = some stage →
    (∃ list t, stage.life = .forked list t) ∨ s.file word = stage.written

/-- The files that are read are as they were. -/
def Kept (read : CString → Prop) (file : Files) (s : JobState σ α) : Prop :=
  ∀ word, read word → s.file word = file word

variable {programs contents openFails heap initial n endings}
  {s s' : JobState σ α} {k : Nat} {stage stage' : Stage σ α}
  {inherited : α → List UInt8} {read : CString → Prop} {file : Files}

theorem JobInv.started_le
    (h : JobInv programs openFails heap initial n endings s) :
    s.stages.length ≤ n := by
  have hhandler := h.handler
  cases hcase : s.handler with
  | atHead commands t =>
      rw [hcase] at hhandler
      exact Nat.le.intro hhandler.1
  | forked next t =>
      rw [hcase] at hhandler
      exact Nat.le.intro hhandler.1

theorem JobInv.lt (h : JobInv programs openFails heap initial n endings s)
    (hstage : s.stages[k]? = some stage) : k < n :=
  Nat.lt_of_lt_of_le (List.getElem?_eq_some_iff.mp hstage).1 h.started_le

/-- A program that runs has its descriptors from the preparation. -/
theorem JobInv.prepared (h : JobInv programs openFails heap initial n endings s)
    {state : σ} (hstage : s.stages[k]? = some stage)
    (hlife : stage.life = .running state) :
    ∃ argv p start, endings[k]? = some (.ok (some argv, p)) ∧
      programs.exec argv = some start ∧ stage.table = p.table := by
  have hok := h.stage k stage hstage
  unfold StageOk at hok
  rw [hlife] at hok
  exact hok

/-- A program that runs is attached, and its plan says to what. -/
theorem JobInv.running (contents : Description α → List UInt8)
    (h : JobInv programs openFails heap initial n endings s)
    (hattached : AllAttached n endings) {state : σ}
    (hstage : s.stages[k]? = some stage)
    (hlife : stage.life = .running state) :
    Attached n k stage.table ∧
      (jobPlan programs contents endings k).source =
        ownInput contents stage.table ∧
      (jobPlan programs contents endings k).toPipe =
        writesPipe stage.table := by
  obtain ⟨argv, p, start, hending, hexec, htable⟩ := h.prepared hstage hlife
  rw [htable]
  have hplan : jobPlan programs contents endings k =
      ⟨some start, ownInput contents p.table, writesPipe p.table⟩ := by
    simp only [jobPlan, hending, endingPlan, hexec]
  rw [hplan]
  exact ⟨hattached k argv p hending, rfl, rfl⟩

theorem JobInv.start (programs : Programs σ) (openFails : Nat → Nat → Bool)
    (heap : Heap) (list : SimpleList) (table : FdTable α) (file : Files) :
    JobInv programs openFails heap (table.map .inherited)
      list.pipeline.simpleCommandList.length
      (spawnPipeline (openingStages openFails) heap list table).children
      (.initial list table file) := by
  constructor
  · refine ⟨Nat.zero_add _, rfl, AtHead.start table, ?_, rfl⟩
    exact Or.inl ⟨rfl, Or.inl rfl⟩
  · intro k stage hstage
    cases hstage

/-- What a program does leaves its stage a stage that runs or has ended, with
the same descriptors. -/
theorem StageActs.kept {capacity : Nat} {act : σ → Action σ}
    {pipe : Nat → List UInt8} {file : Files}
    (h : StageActs act inherited capacity s stage stage' pipe file) :
    (∃ state, stage.life = .running state) ∧ stage'.table = stage.table ∧
      ((∃ state, stage'.life = .running state) ∨ ¬ stage'.Live) := by
  cases h with
  | read hlife hact hstdin hd hbyte =>
      exact ⟨⟨_, hlife⟩, rfl, Or.inl ⟨_, rfl⟩⟩
  | readAll hlife hact hstdin hd hend =>
      exact ⟨⟨_, hlife⟩, rfl, Or.inl ⟨_, rfl⟩⟩
  | readPipe hlife hact hstdin hpipe =>
      exact ⟨⟨_, hlife⟩, rfl, Or.inl ⟨_, rfl⟩⟩
  | readEnd hlife hact hstdin hpipe hclosed =>
      exact ⟨⟨_, hlife⟩, rfl, Or.inl ⟨_, rfl⟩⟩
  | write hlife hact hstdout hd => exact ⟨⟨_, hlife⟩, rfl, Or.inl ⟨_, rfl⟩⟩
  | writePipe hlife hact hstdout hopen hroom =>
      exact ⟨⟨_, hlife⟩, rfl, Or.inl ⟨_, rfl⟩⟩
  | broken hlife hact hstdout hclosed => exact ⟨⟨_, hlife⟩, rfl, Or.inr id⟩
  | exit hlife hact => exact ⟨⟨_, hlife⟩, rfl, Or.inr id⟩

/-- A program writes to no other file than its standard output. -/
theorem StageActs.file_other {capacity : Nat} {act : σ → Action σ}
    {pipe : Nat → List UInt8} {file' : Files} {word : CString}
    (h : StageActs act inherited capacity s stage stage' pipe file')
    (hstdout : ∀ isInput,
      stage.table.entry stdoutFd ≠ some (.file isInput word)) :
    file' word = s.file word := by
  cases h with
  | @write _ _ byte d _ _ hentry _ =>
      apply store_other
      rintro isInput rfl
      exact hstdout isInput hentry
  | _ => rfl

/-- A program whose standard output is a file writes at the end of it. -/
theorem StageActs.stored {capacity : Nat} {act : σ → Action σ}
    {pipe : Nat → List UInt8} {file' : Files} {isInput : Bool} {word : CString}
    (h : StageActs act inherited capacity s stage stage' pipe file')
    (hstdout : stage.table.entry stdoutFd = some (.file isInput word))
    (hfile : s.file word = stage.written) : file' word = stage'.written := by
  cases h with
  | @write _ _ byte d _ _ hentry _ =>
      cases hentry.symm.trans hstdout
      rw [store_file, hfile]
      exact writeAt_length _ byte
  | writePipe _ _ hentry _ _ => cases hentry.symm.trans hstdout
  | _ => exact hfile

/-- A stage that has ended needs nothing. -/
theorem stageOk_of_not_live (h : ¬ stage.Live) :
    StageOk programs openFails heap n endings k stage := by
  unfold Stage.Live at h
  unfold StageOk
  cases hlife : stage.life with
  | forked list t =>
      rw [hlife] at h
      exact absurd trivial h
  | running state =>
      rw [hlife] at h
      exact absurd trivial h
  | exited => trivial
  | killed => trivial

theorem StageOk.acts {capacity : Nat} {act : σ → Action σ}
    {pipe : Nat → List UInt8} {file : Files}
    (hok : StageOk programs openFails heap n endings k stage)
    (h : StageActs act inherited capacity s stage stage' pipe file) :
    StageOk programs openFails heap n endings k stage' := by
  obtain ⟨⟨state, hlife⟩, htable, ⟨state', hlife'⟩ | hended⟩ := h.kept
  · unfold StageOk at hok ⊢
    rw [hlife] at hok
    rw [hlife', htable]
    exact hok
  · exact stageOk_of_not_live hended

theorem StageOk.ending {list : SimpleCommandList} {t : SpawnState α}
    (hok : StageOk programs openFails heap n endings k stage)
    (hlife : stage.life = .forked list t) :
    endings[k]? = some (runChild (openingStages openFails) heap list t) := by
  unfold StageOk at hok
  rw [hlife] at hok
  exact hok.1

theorem StageOk.prepared {ending : Ending α} (stage : Stage σ α)
    (hending : endings[k]? = some ending) :
    StageOk programs openFails heap n endings k
      (stage.prepared programs ending) := by
  match ending with
  | .error fault => exact stageOk_of_not_live id
  | .ok (none, p) => exact stageOk_of_not_live id
  | .ok (some argv, p) =>
      cases hexec : programs.exec argv with
      | none =>
          rw [prepared_notFound p stage hexec]
          exact stageOk_of_not_live id
      | some state =>
          rw [prepared_found p stage hexec]
          exact ⟨argv, p, state, hending, hexec, rfl⟩

/-- A round starts one child, and what is left to start is one less. -/
theorem HandlerOk.fork {node : SimpleCommandNode} {next : SimpleCommandList}
    {t : SpawnState α} {started : Nat}
    (h : HandlerOk openFails heap initial n endings started
      (.atHead (node :: next) t)) :
    HandlerOk openFails heap initial n endings (started + 1)
        (.forked next (t.connected next.isEmpty)) ∧
      StageOk programs openFails heap n endings started
        (⟨.forked (node :: next) (t.connected next.isEmpty),
          (t.connected next.isEmpty).table, 0, []⟩ : Stage σ α) := by
  obtain ⟨hcount, hround, hhead, hcarried, hchildren⟩ := h
  obtain ⟨hmade, hread⟩ := hcarried.connected
  rw [PipelineStages.spawnLoop_opening] at hchildren
  rw [List.length_cons] at hcount
  have hending : endings[started]? = some (runChild (openingStages openFails)
      heap (node :: next) (t.connected next.isEmpty)) := by
    rw [← List.head?_drop, hchildren]
    rfl
  constructor
  · refine ⟨by omega, ?_, hhead.connected _, hmade, ?_⟩
    · rw [SpawnState.connected_round, hround]
    · rw [← List.tail_drop, hchildren]
      rfl
  · refine ⟨hending, rfl, rfl, fun hlast => ?_, fun j hj => ?_⟩
    · rcases hmade with ⟨-, hnil⟩ | ⟨-, r, -, -, -, hwrite⟩
      · rw [hnil, List.length_nil] at hcount
        omega
      · rw [SpawnState.connected_round, hround] at hwrite
        exact hwrite
    · exact hread j (hround.trans hj)

theorem HandlerOk.close {next : SimpleCommandList} {t : SpawnState α}
    {started : Nat} (h : HandlerOk openFails heap initial n endings started
      (.forked next t)) :
    HandlerOk openFails heap initial n endings started
      (.atHead next t.next) := by
  obtain ⟨hcount, hround, hwired, hmade, hchildren⟩ := h
  exact ⟨hcount, hround, hwired.next, hmade.next, hchildren⟩

/-- Every step keeps the invariant. -/
theorem JobInv.step {capacity : Nat}
    (h : JobInv programs openFails heap initial n endings s)
    (hstep : JobStep programs capacity inherited openFails heap s s') :
    JobInv programs openFails heap initial n endings s' := by
  cases hstep with
  | fork stages pipe file =>
      obtain ⟨hhandler, hstage⟩ := HandlerOk.fork h.handler
      constructor
      · rw [List.length_append]
        exact hhandler
      · intro k stage hget
        rcases getElem?_concat_cases hget with hold | ⟨rfl, rfl⟩
        · exact h.stage k stage hold
        · exact hstage
  | close stages pipe file => exact ⟨HandlerOk.close h.handler, h.stage⟩
  | @prepare _ k stage list t ending hstage hlife hending =>
      constructor
      · rw [List.length_set]
        exact h.handler
      · intro j stage' hget
        rcases getElem?_set_cases hget with ⟨rfl, rfl⟩ | ⟨-, hold⟩
        · have hended := (h.stage k stage hstage).ending hlife
          rw [hending] at hended
          exact .prepared stage hended
        · exact h.stage j stage' hold
  | @act _ k stage stage₁ pipe file hstage hacts =>
      constructor
      · rw [List.length_set]
        exact h.handler
      · intro j stage' hget
        rcases getElem?_set_cases hget with ⟨rfl, rfl⟩ | ⟨-, hold⟩
        · exact (h.stage k stage hstage).acts hacts
        · exact h.stage j stage' hold

/-- No step changes a file that is read. -/
theorem Kept.step {capacity : Nat} (h : Kept read file s)
    (hinv : JobInv programs openFails heap initial n endings s)
    (hapart : Apart openFails endings read)
    (hstep : JobStep programs capacity inherited openFails heap s s') :
    Kept read file s' := by
  intro word hread
  rw [← h word hread]
  cases hstep with
  | fork stages pipe file => rfl
  | close stages pipe file => rfl
  | @prepare _ k stage list t ending hstage hlife hending =>
      have hended := (hinv.stage k stage hstage).ending hlife
      rw [hending] at hended
      exact truncate_other fun hmem =>
        hapart.truncates k ending hended word hmem hread
  | @act _ k stage stage₁ pipe file' hstage hacts =>
      obtain ⟨⟨state, hlife⟩, -, -⟩ := hacts.kept
      obtain ⟨argv, p, -, hending, -, htable⟩ := hinv.prepared hstage hlife
      refine hacts.file_other fun isInput hstdout => ?_
      rw [htable] at hstdout
      exact hapart.writes k argv p isInput word hending hstdout hread

/-- No step takes from a file what its owner has written. -/
theorem Stored.step {capacity : Nat} {word : CString} (h : Stored k word s)
    (hinv : JobInv programs openFails heap initial n endings s)
    (howns : Owns openFails endings k word)
    (hstep : JobStep programs capacity inherited openFails heap s s') :
    Stored k word s' := by
  intro stage hget
  cases hstep with
  | fork stages pipe file =>
      rcases getElem?_concat_cases hget with hold | ⟨-, rfl⟩
      · exact h stage hold
      · exact Or.inl ⟨_, _, rfl⟩
  | close stages pipe file => exact h stage hget
  | @prepare _ j before list t ending hstage hlife hending =>
      have hended := (hinv.stage j before hstage).ending hlife
      rw [hending] at hended
      have htruncates := howns.truncates j ending hended
      rcases getElem?_set_cases hget with ⟨rfl, rfl⟩ | ⟨hj, hold⟩
      · right
        rw [prepared_written]
        exact truncate_mem (htruncates.mpr rfl)
      · rcases h stage hold with hforked | hfile
        · exact Or.inl hforked
        · exact Or.inr
            ((truncate_other (mt htruncates.mp hj)).trans hfile)
  | @act _ j before after pipe file' hstage hacts =>
      obtain ⟨⟨state, hlife⟩, -, -⟩ := hacts.kept
      obtain ⟨argv, p, -, hending, -, htable⟩ := hinv.prepared hstage hlife
      have hwrites := howns.writes j argv p hending
      rw [← htable] at hwrites
      rcases getElem?_set_cases hget with ⟨rfl, rfl⟩ | ⟨hj, hold⟩
      · obtain ⟨isInput, hstdout⟩ := hwrites.mpr rfl
        rcases h before hstage with ⟨list, t, hforked⟩ | hfile
        · cases hlife.symm.trans hforked
        · exact Or.inr (hacts.stored hstdout hfile)
      · rcases h stage hold with hforked | hfile
        · exact Or.inl hforked
        · refine Or.inr ((hacts.file_other fun isInput hstdout => ?_).trans
            hfile)
          exact hj (hwrites.mp ⟨isInput, hstdout⟩)

/-- What a program reads is what was there at the start. -/
theorem Kept.contents_eq (h : Kept read file s)
    (hinv : JobInv programs openFails heap initial n endings s)
    (hapart : Apart openFails endings read) {state : σ} {d : Description α}
    (hstage : s.stages[k]? = some stage) (hlife : stage.life = .running state)
    (hstdin : stage.table.entry stdinFd = some d) :
    s.file.contents inherited d = file.contents inherited d := by
  obtain ⟨argv, p, -, hending, -, htable⟩ := hinv.prepared hstage hlife
  rw [htable] at hstdin
  refine contents_congr inherited fun isInput word hd => h word ?_
  rw [hd] at hstdin
  exact hapart.reads k argv p isInput word hending hstdin

/-! ## Jobs are chains -/

section Simulation

variable {plan : Nat → Plan σ}

theorem chain_ended (hstage : s.stages[k]? = some stage)
    (h : ¬ stage.Live) : ((s.chain plan).cell k).life.Ended := by
  show (s.cell plan k).life.Ended
  rw [cell_eq hstage]
  unfold Stage.Live at h
  unfold Stage.cell
  cases hlife : stage.life with
  | forked list t =>
      rw [hlife] at h
      exact absurd trivial h
  | running state =>
      rw [hlife] at h
      exact absurd trivial h
  | exited => trivial
  | killed => trivial

theorem open_of_live {d : Description α} (hstage : s.stages[k]? = some stage)
    (hlive : stage.Live) (h : Refers stage.table d) : s.Open d :=
  Or.inr ⟨stage, List.mem_of_getElem? hstage, hlive, h⟩

theorem live_of_running {state : σ} (h : stage.life = .running state) :
    stage.Live := by
  unfold Stage.Live
  rw [h]
  trivial

/-- When no process has the write end open, the stage in front has ended, or
writes elsewhere. -/
theorem JobInv.notWriting (contents : Description α → List UInt8)
    (h : JobInv programs openFails heap initial n endings s)
    (hattached : AllAttached n endings) {reader : Stage σ α}
    (hreader : s.stages[k + 1]? = some reader)
    (hclosed : ¬ s.Open (.writeEnd k)) :
    (s.chain (jobPlan programs contents endings)).NotWriting
      (jobPlan programs contents endings) k := by
  have hlt := (List.getElem?_eq_some_iff.mp hreader).1
  obtain ⟨writer, hwriter⟩ : ∃ writer, s.stages[k]? = some writer :=
    ⟨_, List.getElem?_eq_getElem (Nat.lt_of_succ_lt hlt)⟩
  by_cases hlive : writer.Live
  · have hok := h.stage k writer hwriter
    have hnot := mt (open_of_live hwriter hlive) hclosed
    unfold StageOk at hok
    unfold Stage.Live at hlive
    cases hlife : writer.life with
    | forked list t =>
        rw [hlife] at hok
        obtain ⟨-, htable, -, hwrite, -⟩ := hok
        rw [htable] at hnot
        exact absurd (hwrite (h.lt hreader)) hnot
    | running state =>
        obtain ⟨hends, -, htoPipe⟩ :=
          h.running contents hattached hwriter hlife
        right
        rw [htoPipe]
        rcases hends.stdout_cases with ⟨d, -, -, hoff⟩ | ⟨hstdout, -, -⟩
        · exact hoff
        · exact absurd ⟨stdoutFd, hstdout⟩ hnot
    | exited =>
        rw [hlife] at hlive
        exact hlive.elim
    | killed =>
        rw [hlife] at hlive
        exact hlive.elim
  · exact Or.inl (chain_ended hwriter hlive)

/-- The job handler has the read end open for the stage that comes next. -/
theorem HandlerOk.refers {handler : Handler α} (hk : k + 1 < n)
    (h : HandlerOk openFails heap initial n endings (k + 1) handler) :
    Refers handler.table (.readEnd k) := by
  cases handler with
  | atHead commands t =>
      obtain ⟨hcount, hround, -, hcarried, -⟩ := h
      rcases hcarried with ⟨-, hzero | hnil⟩ | ⟨-, j, r, hj, -, hentry⟩
      · omega
      · rw [hnil, List.length_nil] at hcount
        omega
      · obtain rfl : j = k := by omega
        exact ⟨r, hentry⟩
  | forked next t =>
      obtain ⟨hcount, hround, -, hmade, -⟩ := h
      rcases hmade with ⟨-, hnil⟩ | ⟨-, r, -, hentry, -, -⟩
      · rw [hnil, List.length_nil] at hcount
        omega
      · rw [show t.round = k by omega] at hentry
        exact ⟨r, hentry⟩

/-- When no process has the read end open, the stage behind has ended, or
reads elsewhere. -/
theorem JobInv.notReading (contents : Description α → List UInt8)
    (h : JobInv programs openFails heap initial n endings s)
    (hattached : AllAttached n endings) {writer : Stage σ α}
    (hwriter : s.stages[k]? = some writer) (hk : k + 1 < n)
    (hclosed : ¬ s.Open (.readEnd k)) :
    (s.chain (jobPlan programs contents endings)).NotReading
      (jobPlan programs contents endings) (k + 1) := by
  cases hreader : s.stages[k + 1]? with
  | none =>
      have hlength : s.stages.length = k + 1 := by
        have hlt := (List.getElem?_eq_some_iff.mp hwriter).1
        have hge := List.getElem?_eq_none_iff.mp hreader
        omega
      have hhandler := h.handler
      rw [hlength] at hhandler
      exact absurd (Or.inl (hhandler.refers hk)) hclosed
  | some reader =>
      by_cases hlive : reader.Live
      · have hok := h.stage (k + 1) reader hreader
        have hnot := mt (open_of_live hreader hlive) hclosed
        unfold StageOk at hok
        unfold Stage.Live at hlive
        cases hlife : reader.life with
        | forked list t =>
            rw [hlife] at hok
            obtain ⟨-, htable, -, -, hread⟩ := hok
            rw [htable] at hnot
            exact absurd (hread k rfl) hnot
        | running state =>
            obtain ⟨hends, hsource, -⟩ :=
              h.running contents hattached hreader hlife
            right
            rw [hsource]
            rcases hends.stdin_cases contents with
              ⟨d, -, -, hown⟩ | ⟨j, hj, hstdin, -⟩
            · rw [hown]
              exact Option.some_ne_none _
            · obtain rfl : k = j := Nat.succ.inj hj
              exact absurd ⟨stdinFd, hstdin⟩ hnot
        | exited =>
            rw [hlife] at hlive
            exact hlive.elim
        | killed =>
            rw [hlife] at hlive
            exact hlive.elim
      · exact Or.inl (chain_ended hreader hlive)

/-- A child that has prepared has started its program, or ended. -/
theorem chain_prepare {act : σ → Action σ} {ending : Ending α}
    {list : SimpleCommandList} {t : SpawnState α} (hk : k < n)
    (hstage : s.stages[k]? = some stage) (hlife : stage.life = .forked list t)
    (hplan : plan k = endingPlan programs contents ending) :
    Chain.Step act plan n (s.chain plan) (JobState.chain plan
      { s with
        stages := s.stages.set k (stage.prepared programs ending)
        file := file }) := by
  have hcell : (s.chain plan).cell k = Chain.fresh (plan k) := by
    show s.cell plan k = _
    rw [cell_eq hstage, Stage.cell, hlife]
  have hwaiting : ((s.chain plan).cell k).life = .waiting := by
    rw [hcell]
    rfl
  have hskip : ∀ table : FdTable (Description α), plan k = idle →
      Chain.Step act plan n (s.chain plan) ⟨Function.update (s.cell plan) k
        (Stage.cell (plan k) ⟨.exited, table, 0, []⟩), s.pipe⟩ := by
    intro table hidle
    have hstep : Chain.Step act plan n (s.chain plan)
        ((s.chain plan).setLife k .exited) :=
      .skip hk hwaiting (by rw [hidle]; rfl)
    rw [Chain.setLife, hcell, hidle] at hstep
    rw [hidle]
    exact hstep
  rw [chain_set hstage]
  match ending with
  | .error fault => exact hskip stage.table hplan
  | .ok (none, p) => exact hskip p.table hplan
  | .ok (some argv, p) =>
      cases hexec : programs.exec argv with
      | none =>
          rw [prepared_notFound p stage hexec]
          apply hskip p.table
          simp only [hplan, endingPlan, hexec]
      | some state =>
          have hstart : plan k = ⟨some state, ownInput contents p.table,
              writesPipe p.table⟩ := by
            simp only [hplan, endingPlan, hexec]
          have hstep : Chain.Step act plan n (s.chain plan)
              ((s.chain plan).setLife k (.running state)) :=
            .start hk hwaiting (by rw [hstart])
          rw [Chain.setLife, hcell, hstart] at hstep
          rw [prepared_found p stage hexec, hstart]
          exact hstep

/-- What a program does in its stage it does in the chain. -/
theorem JobInv.chain_act {capacity : Nat} {pipe : Nat → List UInt8}
    {file' : Files} (h : JobInv programs openFails heap initial n endings s)
    (hattached : AllAttached n endings)
    (hplan : plan = jobPlan programs contents endings)
    (hstage : s.stages[k]? = some stage)
    (hcontents : ∀ d, stage.table.entry stdinFd = some d →
      s.file.contents inherited d = contents d)
    (hacts : StageActs programs.act inherited capacity s stage stage' pipe
      file') :
    Chain.Step programs.act plan n (s.chain plan) (JobState.chain plan
      { s with
        stages := s.stages.set k stage'
        pipe := pipe
        file := file' }) := by
  have hk := h.lt hstage
  obtain ⟨⟨state, hlife⟩, -, -⟩ := hacts.kept
  obtain ⟨hends, hsource, htoPipe⟩ :=
    h.running contents hattached hstage hlife
  rw [← hplan] at hsource htoPipe
  have hcell : (s.chain plan).cell k =
      ⟨.running state, stage.left (plan k), stage.written⟩ := by
    show s.cell plan k = _
    rw [cell_eq hstage, Stage.cell, hlife]
  have hrunning : ((s.chain plan).cell k).life = .running state := by
    rw [hcell]
  have hreading := hends.stdin_cases contents
  have hwriting := hends.stdout_cases
  rw [← hsource] at hreading
  rw [← htoPipe] at hwriting
  rw [chain_set hstage]
  cases hacts with
  | @read state' next d byte hlife' hact hstdin hd hbyte =>
      cases hlife'.symm.trans hlife
      rcases hreading with ⟨d', hd', -, hown⟩ | ⟨j, -, hread, -⟩
      · cases hd'.symm.trans hstdin
        have hstep := Chain.Step.readSource hk hrunning hact hown
        rw [hcontents d hstdin] at hbyte
        rw [Chain.setCell, hcell, Stage.left, hown, Option.getD_some,
          List.head?_drop, hbyte, List.tail_drop] at hstep
        rw [Stage.cell, Stage.left, hown]
        exact hstep
      · cases hread.symm.trans hstdin
        exact hd.elim
  | @readAll state' next d hlife' hact hstdin hd hend =>
      cases hlife'.symm.trans hlife
      rcases hreading with ⟨d', hd', -, hown⟩ | ⟨j, -, hread, -⟩
      · cases hd'.symm.trans hstdin
        have hstep := Chain.Step.readSource hk hrunning hact hown
        rw [hcontents d hstdin] at hend
        have hnothing : (contents d).drop stage.taken = [] :=
          List.drop_eq_nil_iff.mpr (List.getElem?_eq_none_iff.mp hend)
        rw [Chain.setCell, hcell, Stage.left, hown, Option.getD_some,
          hnothing] at hstep
        rw [Stage.cell, Stage.left, hown, Option.getD_some, hnothing]
        exact hstep
      · cases hread.symm.trans hstdin
        exact hd.elim
  | @readPipe state' next pipe byte rest hlife' hact hstdin hpipe =>
      cases hlife'.symm.trans hlife
      rcases hreading with ⟨d, hd, houtside, -⟩ | ⟨j, rfl, hread, hnone⟩
      · cases hd.symm.trans hstdin
        exact houtside.elim
      · cases hread.symm.trans hstdin
        have hstep := Chain.Step.readPipe (c := s.chain plan) hk hrunning hact
          hnone hpipe
        rw [Chain.setLife, Chain.setPipe_cell, hcell] at hstep
        exact hstep
  | @readEnd state' next pipe hlife' hact hstdin hpipe hclosed =>
      cases hlife'.symm.trans hlife
      rcases hreading with ⟨d, hd, houtside, -⟩ | ⟨j, rfl, hread, hnone⟩
      · cases hd.symm.trans hstdin
        exact houtside.elim
      · cases hread.symm.trans hstdin
        have hdone := h.notWriting contents hattached hstage
          hclosed
        rw [← hplan] at hdone
        have hstep := Chain.Step.readEnd (c := s.chain plan) hk hrunning hact
          hnone hpipe hdone
        rw [Chain.setLife, hcell] at hstep
        exact hstep
  | @write state' next byte d hlife' hact hstdout hd =>
      cases hlife'.symm.trans hlife
      rcases hwriting with ⟨d', -, -, hoff⟩ | ⟨hwrite, -, -⟩
      · have hstep := Chain.Step.write hk hrunning hact hoff
        rw [Chain.setCell, hcell] at hstep
        exact hstep
      · cases hwrite.symm.trans hstdout
        exact hd.elim
  | @writePipe state' next byte pipe hlife' hact hstdout hopen hroom =>
      cases hlife'.symm.trans hlife
      rcases hwriting with ⟨d, hd, houtside, -⟩ | ⟨hwrite, -, hon⟩
      · cases hd.symm.trans hstdout
        exact houtside.elim
      · cases hwrite.symm.trans hstdout
        have hstep := Chain.Step.writePipe hk hrunning hact hon
        rw [Chain.setCell, hcell] at hstep
        exact hstep
  | @broken state' next byte pipe hlife' hact hstdout hclosed =>
      cases hlife'.symm.trans hlife
      rcases hwriting with ⟨d, hd, houtside, -⟩ | ⟨hwrite, hlast, hon⟩
      · cases hd.symm.trans hstdout
        exact houtside.elim
      · cases hwrite.symm.trans hstdout
        have hdone := h.notReading contents hattached hstage
          hlast hclosed
        rw [← hplan] at hdone
        have hstep := Chain.Step.broken hk hrunning hact hon hdone
        rw [Chain.setLife, hcell] at hstep
        exact hstep
  | @exit state' code hlife' hact =>
      cases hlife'.symm.trans hlife
      have hstep : Chain.Step programs.act plan n (s.chain plan)
          ((s.chain plan).setLife k .exited) := .exit hk hrunning hact
      rw [Chain.setLife, hcell] at hstep
      exact hstep

/-- The steps that the job handler still has to take. -/
def Handler.weight : Handler α → Nat
  | .atHead commands _ => 2 * commands.length
  | .forked next _ => 2 * next.length + 1

/-- **A job is a chain.**  Every step of a job is a step of the chain of its
programs, or one of the job handler that the chain does not see. -/
theorem jobStep_simulates {capacity : Nat}
    (h : JobInv programs openFails heap initial n endings s)
    (hattached : AllAttached n endings) (hapart : Apart openFails endings read)
    (hkept : Kept read file s)
    (hplan : plan = jobPlan programs (file.contents inherited) endings)
    (hstep : JobStep programs capacity inherited openFails heap s s') :
    s'.chain plan = s.chain plan ∧ s'.handler.weight < s.handler.weight ∨
      Chain.Step programs.act plan n (s.chain plan) (s'.chain plan) ∧
        s'.handler = s.handler := by
  cases hstep with
  | fork stages pipe file' =>
      refine Or.inl ⟨chain_fork _ _ _ _ stages pipe file', ?_⟩
      simp only [Handler.weight, List.length_cons]
      omega
  | close stages pipe file' => exact Or.inl ⟨rfl, Nat.lt_succ_self _⟩
  | @prepare _ k stage list t ending hstage hlife hending =>
      have hthis : plan k =
          endingPlan programs (file.contents inherited) ending := by
        rw [hplan, jobPlan, (h.stage k stage hstage).ending hlife, hending]
      exact Or.inr ⟨chain_prepare (h.lt hstage) hstage hlife hthis, rfl⟩
  | @act _ k stage stage₁ pipe file' hstage hacts =>
      obtain ⟨⟨state, hlife⟩, -, -⟩ := hacts.kept
      refine Or.inr ⟨h.chain_act hattached hplan hstage ?_ hacts, rfl⟩
      exact fun d hstdin => hkept.contents_eq h hapart hstage hlife hstdin

/-- No step takes a job away from what its programs write. -/
theorem JobInv.lowers {capacity budget : Nat} {output : Nat → List UInt8}
    (h : JobInv programs openFails heap initial n endings s)
    (hattached : AllAttached n endings) (hapart : Apart openFails endings read)
    (hkept : Kept read file s)
    (hplan : plan = jobPlan programs (file.contents inherited) endings)
    (hok : Chain.Ok programs.act plan n output (s.chain plan) budget)
    (hstep : JobStep programs capacity inherited openFails heap s s') :
    ∃ budget', budget' + s'.handler.weight < budget + s.handler.weight ∧
      Chain.Ok programs.act plan n output (s'.chain plan) budget' := by
  rcases jobStep_simulates h hattached hapart hkept hplan hstep with
    ⟨hsame, hweight⟩ | ⟨hchain, hhandler⟩
  · refine ⟨budget, by omega, ?_⟩
    rw [hsame]
    exact hok
  · obtain ⟨budget', hless, hok'⟩ := hok.step hchain
    refine ⟨budget', ?_, hok'⟩
    rw [hhandler]
    omega

end Simulation

end Invariant

end OsLabs.Iwish.PipelineJob
