import Mathlib.Algebra.Order.BigOperators.Group.Finset
import OsLabs.Posix.Processes

/-!
# Programs that read and write, and chains of them

A program is what it does next with its standard descriptors.  Alone it reads
its input from the front and ends with some output (`Computes`).

In a chain each program runs at its own pace.  It reads either an input of its
own or the pipe of the program in front of it, and it writes either to the
outside or to the pipe behind it.  It finds the end of a pipe when the program
in front has ended, and is killed when it writes to one whose reader has
ended.  `Flows` says what every program would write alone on what the one in
front of it would write; a chain cannot do anything else (`Chain.Ok.step`).
-/

namespace OsLabs.Posix.Filters

/-! ## A program alone -/

/-- What a program does next; a read of `none` has found the end. -/
inductive Action (σ : Type) where
  | read (next : Option UInt8 → σ)
  | write (byte : UInt8) (next : σ)
  | exit (code : UInt8)

section Alone

variable {σ : Type} (act : σ → Action σ)

/-- From `state`, with `input` ahead and `written` behind it, the program ends
after `n` reads and writes and has written `output` by then. -/
inductive EndsIn : Nat → σ → List UInt8 → List UInt8 → List UInt8 → Prop
  | exit {state : σ} {code : UInt8} (input written : List UInt8)
      (hact : act state = .exit code) : EndsIn 0 state input written written
  | read {n : Nat} {state : σ} {next : Option UInt8 → σ} {byte : UInt8}
      {input written output : List UInt8} (hact : act state = .read next)
      (hrest : EndsIn n (next (some byte)) input written output) :
      EndsIn (n + 1) state (byte :: input) written output
  | readEnd {n : Nat} {state : σ} {next : Option UInt8 → σ}
      {written output : List UInt8} (hact : act state = .read next)
      (hrest : EndsIn n (next none) [] written output) :
      EndsIn (n + 1) state [] written output
  | write {n : Nat} {state next : σ} {byte : UInt8}
      {input written output : List UInt8} (hact : act state = .write byte next)
      (hrest : EndsIn n next input (written ++ [byte]) output) :
      EndsIn (n + 1) state input written output

/-- Alone on `input` the program ends, and it has written `output`. -/
def Computes (state : σ) (input output : List UInt8) : Prop :=
  ∃ n, EndsIn act n state input [] output

variable {act} {n : Nat} {state : σ} {input written output : List UInt8}

theorem EndsIn.written_prefix (h : EndsIn act n state input written output) :
    written <+: output := by
  induction h with
  | exit input written hact => exact List.prefix_refl written
  | read hact hrest ih => exact ih
  | readEnd hact hrest ih => exact ih
  | write hact hrest ih => exact (List.prefix_append _ _).trans ih

theorem EndsIn.of_exit {code : UInt8}
    (h : EndsIn act n state input written output)
    (hact : act state = .exit code) : written = output := by
  cases h with
  | exit input written hexit => rfl
  | read hread hrest => cases hread.symm.trans hact
  | readEnd hread hrest => cases hread.symm.trans hact
  | write hwrite hrest => cases hwrite.symm.trans hact

theorem EndsIn.of_read {next : Option UInt8 → σ} {byte : UInt8}
    (h : EndsIn act n state (byte :: input) written output)
    (hact : act state = .read next) :
    ∃ m, n = m + 1 ∧ EndsIn act m (next (some byte)) input written output := by
  cases h with
  | exit input written hexit => cases hexit.symm.trans hact
  | read hread hrest =>
      cases hread.symm.trans hact
      exact ⟨_, rfl, hrest⟩
  | write hwrite hrest => cases hwrite.symm.trans hact

theorem EndsIn.of_readEnd {next : Option UInt8 → σ}
    (h : EndsIn act n state [] written output)
    (hact : act state = .read next) :
    ∃ m, n = m + 1 ∧ EndsIn act m (next none) [] written output := by
  cases h with
  | exit input written hexit => cases hexit.symm.trans hact
  | readEnd hread hrest =>
      cases hread.symm.trans hact
      exact ⟨_, rfl, hrest⟩
  | write hwrite hrest => cases hwrite.symm.trans hact

theorem EndsIn.of_write {next : σ} {byte : UInt8}
    (h : EndsIn act n state input written output)
    (hact : act state = .write byte next) :
    ∃ m, n = m + 1 ∧ EndsIn act m next input (written ++ [byte]) output := by
  cases h with
  | exit input written hexit => cases hexit.symm.trans hact
  | read hread hrest => cases hread.symm.trans hact
  | readEnd hread hrest => cases hread.symm.trans hact
  | write hwrite hrest =>
      cases hwrite.symm.trans hact
      exact ⟨_, rfl, hrest⟩

end Alone

/-! ## A chain -/

/-- What a program of a chain is to do: `start` is `none` for one that ends
without having read or written, `source` is `none` for one that reads the pipe
in front of it. -/
structure Plan (σ : Type) where
  start : Option σ
  source : Option (List UInt8)
  toPipe : Bool

inductive Life (σ : Type) where
  | waiting
  | running (state : σ)
  | exited
  | killed

def Life.Ended {σ : Type} : Life σ → Prop
  | .waiting => False
  | .running _ => False
  | .exited => True
  | .killed => True

/-- A program of a chain, with what is left of its own input and everything it
has written. -/
structure Cell (σ : Type) where
  life : Life σ
  input : List UInt8
  written : List UInt8

/-- Pipe `k` leads from program `k` to program `k + 1`. -/
structure Chain (σ : Type) where
  cell : Nat → Cell σ
  pipe : Nat → List UInt8

namespace Chain

variable {σ : Type}

/-- A program before it starts. -/
def fresh (plan : Plan σ) : Cell σ :=
  ⟨.waiting, plan.source.getD [], []⟩

def initial (plan : Nat → Plan σ) : Chain σ :=
  ⟨fun k => fresh (plan k), fun _ => []⟩

def setCell (c : Chain σ) (k : Nat) (cell : Cell σ) : Chain σ :=
  { c with cell := Function.update c.cell k cell }

def setPipe (c : Chain σ) (k : Nat) (bytes : List UInt8) : Chain σ :=
  { c with pipe := Function.update c.pipe k bytes }

def setLife (c : Chain σ) (k : Nat) (life : Life σ) : Chain σ :=
  c.setCell k { c.cell k with life := life }

section Updates

variable (c : Chain σ) {j k : Nat} (cell : Cell σ) (life : Life σ)
  (bytes : List UInt8)

@[simp] theorem setCell_cell_self :
    (c.setCell k cell).cell k = cell :=
  Function.update_self ..

theorem setCell_cell_of_ne (h : j ≠ k) :
    (c.setCell k cell).cell j = c.cell j :=
  Function.update_of_ne h ..

@[simp] theorem setCell_pipe : (c.setCell k cell).pipe = c.pipe := rfl

@[simp] theorem setPipe_cell : (c.setPipe k bytes).cell = c.cell := rfl

@[simp] theorem setPipe_pipe_self :
    (c.setPipe k bytes).pipe k = bytes :=
  Function.update_self ..

theorem setPipe_pipe_of_ne (h : j ≠ k) :
    (c.setPipe k bytes).pipe j = c.pipe j :=
  Function.update_of_ne h ..

@[simp] theorem setLife_cell_self :
    (c.setLife k life).cell k = { c.cell k with life := life } :=
  setCell_cell_self ..

theorem setLife_cell_of_ne (h : j ≠ k) :
    (c.setLife k life).cell j = c.cell j :=
  setCell_cell_of_ne c _ h

@[simp] theorem setLife_pipe : (c.setLife k life).pipe = c.pipe := rfl

@[simp] theorem setLife_written (j : Nat) :
    ((c.setLife k life).cell j).written = (c.cell j).written := by
  by_cases h : j = k
  · rw [h, setLife_cell_self]
  · rw [setLife_cell_of_ne c life h]

@[simp] theorem setLife_input (j : Nat) :
    ((c.setLife k life).cell j).input = (c.cell j).input := by
  by_cases h : j = k
  · rw [h, setLife_cell_self]
  · rw [setLife_cell_of_ne c life h]

end Updates

/-- Program `k` will not read from the pipe in front of it any more. -/
def NotReading (plan : Nat → Plan σ) (c : Chain σ) (k : Nat) : Prop :=
  (c.cell k).life.Ended ∨ (plan k).source ≠ none

/-- Program `k` will not write into the pipe behind it any more. -/
def NotWriting (plan : Nat → Plan σ) (c : Chain σ) (k : Nat) : Prop :=
  (c.cell k).life.Ended ∨ (plan k).toPipe = false

/-- One program of the first `n` takes a step. -/
inductive Step (act : σ → Action σ) (plan : Nat → Plan σ) (n : Nat) :
    Chain σ → Chain σ → Prop
  | start {c : Chain σ} {k : Nat} {state : σ} (hk : k < n)
      (hlife : (c.cell k).life = .waiting)
      (hstart : (plan k).start = some state) :
      Step act plan n c (c.setLife k (.running state))
  | skip {c : Chain σ} {k : Nat} (hk : k < n)
      (hlife : (c.cell k).life = .waiting) (hstart : (plan k).start = none) :
      Step act plan n c (c.setLife k .exited)
  | readSource {c : Chain σ} {k : Nat} {state : σ}
      {next : Option UInt8 → σ} {bytes : List UInt8} (hk : k < n)
      (hlife : (c.cell k).life = .running state)
      (hact : act state = .read next) (hsource : (plan k).source = some bytes) :
      Step act plan n c (c.setCell k
        { c.cell k with
          life := .running (next (c.cell k).input.head?)
          input := (c.cell k).input.tail })
  | readPipe {c : Chain σ} {k : Nat} {state : σ} {next : Option UInt8 → σ}
      {byte : UInt8} {rest : List UInt8} (hk : k + 1 < n)
      (hlife : (c.cell (k + 1)).life = .running state)
      (hact : act state = .read next) (hsource : (plan (k + 1)).source = none)
      (hpipe : c.pipe k = byte :: rest) :
      Step act plan n c
        ((c.setPipe k rest).setLife (k + 1) (.running (next (some byte))))
  | readEnd {c : Chain σ} {k : Nat} {state : σ} {next : Option UInt8 → σ}
      (hk : k + 1 < n) (hlife : (c.cell (k + 1)).life = .running state)
      (hact : act state = .read next) (hsource : (plan (k + 1)).source = none)
      (hpipe : c.pipe k = []) (hwriter : c.NotWriting plan k) :
      Step act plan n c (c.setLife (k + 1) (.running (next none)))
  | write {c : Chain σ} {k : Nat} {state next : σ} {byte : UInt8} (hk : k < n)
      (hlife : (c.cell k).life = .running state)
      (hact : act state = .write byte next)
      (htoPipe : (plan k).toPipe = false) :
      Step act plan n c (c.setCell k
        { c.cell k with
          life := .running next
          written := (c.cell k).written ++ [byte] })
  | writePipe {c : Chain σ} {k : Nat} {state next : σ} {byte : UInt8}
      (hk : k < n) (hlife : (c.cell k).life = .running state)
      (hact : act state = .write byte next)
      (htoPipe : (plan k).toPipe = true) :
      Step act plan n c ((c.setPipe k (c.pipe k ++ [byte])).setCell k
        { c.cell k with
          life := .running next
          written := (c.cell k).written ++ [byte] })
  | broken {c : Chain σ} {k : Nat} {state next : σ} {byte : UInt8}
      (hk : k < n) (hlife : (c.cell k).life = .running state)
      (hact : act state = .write byte next)
      (htoPipe : (plan k).toPipe = true)
      (hreader : c.NotReading plan (k + 1)) :
      Step act plan n c (c.setLife k .killed)
  | exit {c : Chain σ} {k : Nat} {state : σ} {code : UInt8} (hk : k < n)
      (hlife : (c.cell k).life = .running state)
      (hact : act state = .exit code) :
      Step act plan n c (c.setLife k .exited)

/-! ## What flows through a chain -/

/-- What program `k` is given, if the one in front of it writes all of its
output. -/
def inflow (plan : Nat → Plan σ) (output : Nat → List UInt8) (k : Nat) :
    List UInt8 :=
  match (plan k).source, k with
  | some bytes, _ => bytes
  | none, 0 => []
  | none, k + 1 => if (plan k).toPipe then output k else []

/-- `output k` is what program `k` writes alone on what it is given. -/
def Flows (act : σ → Action σ) (plan : Nat → Plan σ) (n : Nat)
    (output : Nat → List UInt8) : Prop :=
  ∀ k < n, match (plan k).start with
    | some state => Computes act state (inflow plan output k) (output k)
    | none => output k = []

/-- What is on pipe `k`, and what program `k` still has to write to it. -/
def onPipe (plan : Nat → Plan σ) (output : Nat → List UInt8) (c : Chain σ)
    (k : Nat) : List UInt8 :=
  c.pipe k ++
    if (plan k).toPipe then (output k).drop (c.cell k).written.length else []

/-- What is still to come for program `k`. -/
def ahead (plan : Nat → Plan σ) (output : Nat → List UInt8) (c : Chain σ)
    (k : Nat) : List UInt8 :=
  match (plan k).source, k with
  | some _, k => (c.cell k).input
  | none, 0 => []
  | none, k + 1 => c.onPipe plan output k

/-- Program `k` is on its way to its output, with at most `budget` steps to
take. -/
def LifeOk (act : σ → Action σ) (plan : Nat → Plan σ)
    (output : Nat → List UInt8) (c : Chain σ) (k : Nat) :
    Life σ → Nat → Prop
  | .waiting, budget => (c.cell k).written = [] ∧
    match (plan k).start with
    | some state => ∃ m, budget = m + 2 ∧
      EndsIn act m state (c.ahead plan output k) [] (output k)
    | none => budget = 1 ∧ output k = []
  | .running state, budget => ∃ m, budget = m + 1 ∧
    EndsIn act m state (c.ahead plan output k) (c.cell k).written (output k)
  | .exited, _ => (c.cell k).written = output k
  | .killed, _ => (c.cell k).written <+: output k ∧
    (plan k).toPipe = true ∧ c.NotReading plan (k + 1)

/-- Every program is on its way to its output. -/
def Ok (act : σ → Action σ) (plan : Nat → Plan σ) (n : Nat)
    (output : Nat → List UInt8) (c : Chain σ) (budget : Nat) : Prop :=
  ∃ budgets : Nat → Nat,
    (∀ k < n, LifeOk act plan output c k (c.cell k).life (budgets k)) ∧
    budget = ∑ k ∈ Finset.range n, budgets k

section Invariant

variable {act : σ → Action σ} {plan : Nat → Plan σ} {n k budget : Nat}
  {output : Nat → List UInt8} {c c' : Chain σ}

theorem ahead_of_source {bytes : List UInt8}
    (h : (plan k).source = some bytes) :
    c.ahead plan output k = (c.cell k).input := by
  unfold ahead
  rw [h]

theorem ahead_of_pipe (h : (plan (k + 1)).source = none) :
    c.ahead plan output (k + 1) = c.onPipe plan output k := by
  unfold ahead
  rw [h]

theorem ahead_congr (hinput : (c'.cell k).input = (c.cell k).input)
    (hpipe : ∀ j, j + 1 = k →
      c'.onPipe plan output j = c.onPipe plan output j) :
    c'.ahead plan output k = c.ahead plan output k := by
  cases hsource : (plan k).source with
  | some bytes => rw [ahead_of_source hsource, ahead_of_source hsource, hinput]
  | none =>
      cases k with
      | zero =>
          unfold ahead
          rw [hsource]
      | succ j =>
          rw [ahead_of_pipe hsource, ahead_of_pipe hsource, hpipe j rfl]

/-- Nothing changes for a program when neither it nor what is ahead of it
does. -/
theorem LifeOk.frame {life : Life σ}
    (h : LifeOk act plan output c k life budget)
    (hwritten : (c'.cell k).written = (c.cell k).written)
    (hahead : c'.ahead plan output k = c.ahead plan output k)
    (hreading : c.NotReading plan (k + 1) → c'.NotReading plan (k + 1)) :
    LifeOk act plan output c' k life budget := by
  cases life with
  | waiting =>
      simp only [LifeOk, hwritten, hahead]
      exact h
  | running state =>
      simp only [LifeOk, hwritten, hahead]
      exact h
  | exited => exact hwritten.trans h
  | killed =>
      obtain ⟨hbegins, htoPipe, hreader⟩ := h
      exact ⟨hwritten ▸ hbegins, htoPipe, hreading hreader⟩

/-- A step of program `k` that brings it nearer to its end, and changes at
most the pipe in front of it for others. -/
theorem Ok.update (h : Ok act plan n output c budget) (hk : k < n)
    (hlive : ¬ (c.cell k).life.Ended)
    (hcell : ∀ j, j ≠ k → c'.cell j = c.cell j)
    (hpipe : ∀ j, j + 1 ≠ k → c'.onPipe plan output j = c.onPipe plan output j)
    (hstep : ∀ m, LifeOk act plan output c k (c.cell k).life m →
      ∃ m', m' < m ∧ LifeOk act plan output c' k (c'.cell k).life m') :
    ∃ budget', budget' < budget ∧ Ok act plan n output c' budget' := by
  obtain ⟨budgets, hok, rfl⟩ := h
  obtain ⟨m', hless, hnew⟩ := hstep _ (hok k hk)
  have hreading : ∀ j, c.NotReading plan j → c'.NotReading plan j := by
    intro j hnot
    by_cases hj : j = k
    · rw [hj] at hnot ⊢
      exact Or.inr (hnot.resolve_left hlive)
    · unfold NotReading
      rw [hcell j hj]
      exact hnot
  refine ⟨_, ?_, Function.update budgets k m', fun j hj => ?_, rfl⟩
  · apply Finset.sum_lt_sum
    · intro j hj
      by_cases hjk : j = k
      · rw [hjk, Function.update_self]
        exact Nat.le_of_lt hless
      · rw [Function.update_of_ne hjk]
    · exact ⟨k, Finset.mem_range.mpr hk, by rwa [Function.update_self]⟩
  · by_cases hjk : j = k
    · subst hjk
      rw [Function.update_self]
      exact hnew
    · rw [Function.update_of_ne hjk, hcell j hjk]
      apply (hok j hj).frame
      · rw [hcell j hjk]
      · apply ahead_congr (congrArg Cell.input (hcell j hjk))
        intro i hi
        exact hpipe i fun heq => hjk (hi.symm.trans heq)
      · exact hreading (j + 1)

/-- How a program stands changes nothing on the pipes. -/
@[simp] theorem onPipe_setLife (life : Life σ) (j : Nat) :
    (c.setLife k life).onPipe plan output j = c.onPipe plan output j := by
  simp only [onPipe, setLife_pipe, setLife_written]

@[simp] theorem ahead_setLife (life : Life σ) (j : Nat) :
    (c.setLife k life).ahead plan output j = c.ahead plan output j :=
  ahead_congr (setLife_input c life j) fun i _ => onPipe_setLife life i

theorem not_ended_waiting (h : (c.cell k).life = .waiting) :
    ¬ (c.cell k).life.Ended := by
  rw [h]
  exact id

theorem not_ended_running {state : σ} (h : (c.cell k).life = .running state) :
    ¬ (c.cell k).life.Ended := by
  rw [h]
  exact id

/-- The steps that only change how a program stands. -/
theorem Ok.setLife {life : Life σ} (h : Ok act plan n output c budget)
    (hk : k < n) (hlive : ¬ (c.cell k).life.Ended)
    (hstep : ∀ m, LifeOk act plan output c k (c.cell k).life m →
      ∃ m', m' < m ∧ LifeOk act plan output (c.setLife k life) k life m') :
    ∃ budget', budget' < budget ∧
      Ok act plan n output (c.setLife k life) budget' := by
  apply h.update hk hlive
  · exact fun j hj => setLife_cell_of_ne c life hj
  · exact fun j _ => onPipe_setLife life j
  · rw [setLife_cell_self]
    exact hstep

/-- At the end of its pipe a program has been given everything. -/
theorem onPipe_dry {state : σ} (h : Ok act plan n output c budget)
    (hk : k + 1 < n) (hlife : (c.cell (k + 1)).life = .running state)
    (hsource : (plan (k + 1)).source = none) (hpipe : c.pipe k = [])
    (hwriter : c.NotWriting plan k) : c.onPipe plan output k = [] := by
  obtain ⟨budgets, hok, -⟩ := h
  unfold onPipe
  rw [hpipe, List.nil_append]
  rcases hwriter with hended | hoff
  · have hthis := hok k (Nat.lt_of_succ_lt hk)
    cases hwriting : (c.cell k).life with
    | waiting =>
        rw [hwriting] at hended
        exact hended.elim
    | running state =>
        rw [hwriting] at hended
        exact hended.elim
    | exited =>
        rw [hwriting] at hthis
        rw [show (c.cell k).written = output k from hthis, List.drop_length,
          ite_self]
    | killed =>
        -- its reader would have ended, and it is running
        rw [hwriting] at hthis
        obtain ⟨-, -, hreaderEnded | hreader⟩ := hthis
        · exact absurd hreaderEnded (not_ended_running hlife)
        · exact absurd hsource hreader
  · rw [hoff]
    rfl

theorem onPipe_append {byte : UInt8} (htoPipe : (plan k).toPipe = true)
    (hbegins : (c.cell k).written ++ [byte] <+: output k)
    (hpipe : c'.pipe k = c.pipe k ++ [byte])
    (hwritten : (c'.cell k).written = (c.cell k).written ++ [byte]) :
    c'.onPipe plan output k = c.onPipe plan output k := by
  obtain ⟨tail, htail⟩ := hbegins
  unfold onPipe
  rw [htoPipe, if_pos rfl, if_pos rfl, hpipe, hwritten, ← htail,
    List.drop_left, List.append_assoc, List.append_assoc, List.drop_left]

/-- **Every step brings the chain nearer to its output.** -/
theorem Ok.step (h : Ok act plan n output c budget)
    (hstep : Step act plan n c c') :
    ∃ budget', budget' < budget ∧ Ok act plan n output c' budget' := by
  cases hstep with
  | @start k state hk hlife hstart =>
      apply h.setLife hk (not_ended_waiting hlife)
      rw [hlife]
      rintro m ⟨hwritten, hthis⟩
      rw [hstart] at hthis
      obtain ⟨m, rfl, hends⟩ := hthis
      refine ⟨m + 1, Nat.lt_succ_self _, m, rfl, ?_⟩
      rw [ahead_setLife, setLife_written, hwritten]
      exact hends
  | @skip k hk hlife hstart =>
      apply h.setLife hk (not_ended_waiting hlife)
      rw [hlife]
      rintro m ⟨hwritten, hthis⟩
      rw [hstart] at hthis
      obtain ⟨rfl, houtput⟩ := hthis
      refine ⟨0, Nat.zero_lt_one, ?_⟩
      show ((c.setLife k .exited).cell k).written = output k
      rw [setLife_written, hwritten, houtput]
  | @readSource k state next bytes hk hlife hact hsource =>
      apply h.update hk (not_ended_running hlife)
      · exact fun j hj => setCell_cell_of_ne c _ hj
      · intro j hj
        unfold onPipe
        by_cases hjk : j = k
        · rw [hjk, setCell_cell_self, setCell_pipe]
        · rw [setCell_cell_of_ne c _ hjk, setCell_pipe]
      · rw [hlife, setCell_cell_self]
        rintro m ⟨m, rfl, hends⟩
        rw [ahead_of_source hsource] at hends
        suffices hnext : ∃ m', m = m' + 1 ∧ EndsIn act m'
            (next (c.cell k).input.head?) (c.cell k).input.tail
            (c.cell k).written (output k) by
          obtain ⟨m', rfl, hrest⟩ := hnext
          refine ⟨m' + 1, Nat.lt_succ_self _, m', rfl, ?_⟩
          rw [ahead_of_source hsource, setCell_cell_self]
          exact hrest
        cases hinput : (c.cell k).input with
        | nil =>
            rw [hinput] at hends
            exact hends.of_readEnd hact
        | cons byte rest =>
            rw [hinput] at hends
            exact hends.of_read hact
  | @readPipe k state next byte rest hk hlife hact hsource hpipe =>
      have hnew : ∀ j, j ≠ k →
          ((c.setPipe k rest).setLife (k + 1)
            (.running (next (some byte)))).onPipe plan output j =
          c.onPipe plan output j := by
        intro j hj
        rw [onPipe_setLife]
        unfold onPipe
        rw [setPipe_pipe_of_ne c rest hj, setPipe_cell]
      apply h.update hk (not_ended_running hlife)
      · exact fun j hj => setLife_cell_of_ne (c.setPipe k rest) _ hj
      · exact fun j hj => hnew j fun heq => hj (by rw [heq])
      · rw [hlife, setLife_cell_self]
        rintro m ⟨m, rfl, hends⟩
        rw [ahead_of_pipe hsource, onPipe, hpipe, List.cons_append] at hends
        obtain ⟨m', rfl, hrest⟩ := hends.of_read hact
        refine ⟨m' + 1, Nat.lt_succ_self _, m', rfl, ?_⟩
        rw [ahead_of_pipe hsource, onPipe_setLife, onPipe, setPipe_pipe_self,
          setLife_written]
        exact hrest
  | @readEnd k state next hk hlife hact hsource hpipe hwriter =>
      have hdry := onPipe_dry h hk hlife hsource hpipe hwriter
      apply h.setLife hk (not_ended_running hlife)
      rw [hlife]
      rintro m ⟨m, rfl, hends⟩
      rw [ahead_of_pipe hsource, hdry] at hends
      obtain ⟨m', rfl, hrest⟩ := hends.of_readEnd hact
      refine ⟨m' + 1, Nat.lt_succ_self _, m', rfl, ?_⟩
      rw [ahead_setLife, ahead_of_pipe hsource, hdry, setLife_written]
      exact hrest
  | @write k state next byte hk hlife hact htoPipe =>
      have hsame : ∀ j, (c.setCell k
          { c.cell k with
            life := .running next
            written := (c.cell k).written ++ [byte] }).onPipe plan output j =
          c.onPipe plan output j := by
        intro j
        unfold onPipe
        by_cases hj : j = k
        · rw [hj, htoPipe, setCell_pipe]
          rfl
        · rw [setCell_cell_of_ne c _ hj, setCell_pipe]
      apply h.update hk (not_ended_running hlife)
      · exact fun j hj => setCell_cell_of_ne c _ hj
      · exact fun j _ => hsame j
      · rw [hlife]
        rintro m ⟨m, rfl, hends⟩
        obtain ⟨m', rfl, hrest⟩ := hends.of_write hact
        refine ⟨m' + 1, Nat.lt_succ_self _, ?_⟩
        simp only [setCell_cell_self]
        refine ⟨m', rfl, ?_⟩
        rw [ahead_congr (by rw [setCell_cell_self]) fun j _ => hsame j,
          setCell_cell_self]
        exact hrest
  | @writePipe k state next byte hk hlife hact htoPipe =>
      have hbegins : (c.cell k).written ++ [byte] <+: output k := by
        obtain ⟨budgets, hok, -⟩ := h
        have hthis := hok k hk
        rw [hlife] at hthis
        obtain ⟨m, -, hends⟩ := hthis
        obtain ⟨m', -, hrest⟩ := hends.of_write hact
        exact hrest.written_prefix
      have hsame : ∀ j, ((c.setPipe k (c.pipe k ++ [byte])).setCell k
          { c.cell k with
            life := .running next
            written := (c.cell k).written ++ [byte] }).onPipe plan output j =
          c.onPipe plan output j := by
        intro j
        by_cases hj : j = k
        · rw [hj]
          apply onPipe_append htoPipe hbegins
          · rw [setCell_pipe, setPipe_pipe_self]
          · rw [setCell_cell_self]
        · unfold onPipe
          rw [setCell_cell_of_ne _ _ hj, setCell_pipe,
            setPipe_pipe_of_ne c _ hj, setPipe_cell]
      apply h.update hk (not_ended_running hlife)
      · exact fun j hj => setCell_cell_of_ne _ _ hj
      · exact fun j _ => hsame j
      · rw [hlife]
        rintro m ⟨m, rfl, hends⟩
        obtain ⟨m', rfl, hrest⟩ := hends.of_write hact
        refine ⟨m' + 1, Nat.lt_succ_self _, ?_⟩
        simp only [setCell_cell_self]
        refine ⟨m', rfl, ?_⟩
        rw [ahead_congr (by rw [setCell_cell_self]) fun j _ => hsame j,
          setCell_cell_self]
        exact hrest
  | @broken k state next byte hk hlife hact htoPipe hreader =>
      apply h.setLife hk (not_ended_running hlife)
      rw [hlife]
      rintro m ⟨m, rfl, hends⟩
      refine ⟨0, Nat.succ_pos m, ?_, htoPipe, ?_⟩
      · rw [setLife_written]
        exact hends.written_prefix
      · unfold NotReading
        rw [setLife_cell_of_ne c _ (Nat.succ_ne_self k)]
        exact hreader
  | @exit k state code hk hlife hact =>
      apply h.setLife hk (not_ended_running hlife)
      rw [hlife]
      rintro m ⟨m, rfl, hends⟩
      refine ⟨0, Nat.succ_pos m, ?_⟩
      show ((c.setLife k .exited).cell k).written = output k
      rw [setLife_written]
      exact hends.of_exit hact

/-- A chain that has not started is on its way to what flows through it. -/
theorem ok_initial (h : Flows act plan n output) :
    ∃ budget, Ok act plan n output (.initial plan) budget := by
  have hahead : ∀ k, (initial plan).ahead plan output k =
      inflow plan output k := by
    intro k
    cases hsource : (plan k).source with
    | some bytes =>
        rw [ahead_of_source hsource]
        simp only [initial, fresh, inflow, hsource, Option.getD_some]
    | none =>
        cases k with
        | zero => simp only [ahead, inflow, hsource]
        | succ k =>
            rw [ahead_of_pipe hsource]
            simp only [onPipe, initial, fresh, inflow, hsource, List.nil_append,
              List.length_nil, List.drop_zero]
  have hbudget : ∀ k, ∃ budget, k < n → LifeOk act plan output (initial plan) k
      .waiting budget := by
    intro k
    by_cases hk : k < n
    · have hflow := h k hk
      simp only [LifeOk]
      cases hstart : (plan k).start with
      | none =>
          rw [hstart] at hflow
          exact ⟨1, fun _ => ⟨rfl, rfl, hflow⟩⟩
      | some state =>
          rw [hstart] at hflow
          obtain ⟨m, hends⟩ := hflow
          rw [← hahead] at hends
          exact ⟨m + 2, fun _ => ⟨rfl, m, rfl, hends⟩⟩
    · exact ⟨0, fun hlt => absurd hlt hk⟩
  choose budgets hbudgets using hbudget
  exact ⟨_, budgets, hbudgets, rfl⟩

/-- What a program has written is what it will have written. -/
theorem Ok.written_prefix (h : Ok act plan n output c budget) (hk : k < n) :
    (c.cell k).written <+: output k := by
  obtain ⟨budgets, hok, -⟩ := h
  have hthis := hok k hk
  cases hlife : (c.cell k).life with
  | waiting =>
      rw [hlife] at hthis
      rw [hthis.1]
      exact List.nil_prefix
  | running state =>
      rw [hlife] at hthis
      obtain ⟨m, -, hends⟩ := hthis
      exact hends.written_prefix
  | exited =>
      rw [hlife] at hthis
      rw [show (c.cell k).written = output k from hthis]
  | killed =>
      rw [hlife] at hthis
      exact hthis.1

/-- A program that has ended has written all of its output, or was writing into
a pipe that nobody read. -/
theorem Ok.ended (h : Ok act plan n output c budget) (hk : k < n)
    (hended : (c.cell k).life.Ended) :
    (c.cell k).life = .exited ∧ (c.cell k).written = output k ∨
      (c.cell k).life = .killed ∧ (plan k).toPipe = true := by
  obtain ⟨budgets, hok, -⟩ := h
  have hthis := hok k hk
  cases hlife : (c.cell k).life with
  | waiting =>
      rw [hlife] at hended
      exact hended.elim
  | running state =>
      rw [hlife] at hended
      exact hended.elim
  | exited =>
      rw [hlife] at hthis
      exact Or.inl ⟨rfl, hthis⟩
  | killed =>
      rw [hlife] at hthis
      exact Or.inr ⟨rfl, hthis.2.1⟩

end Invariant

end Chain

end OsLabs.Posix.Filters
