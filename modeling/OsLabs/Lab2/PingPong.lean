import Mathlib.Algebra.GroupWithZero.Nat
import OsLabs.Posix.Processes
import Mathlib.Logic.Function.Basic

/-!
# Ping and pong

`pingpong.c`: a parent that makes two pipes and two children and waits twice,
`procPing` and `procPong`.  No process closes an end of a pipe, so that while
the parent is there a write finds a reader and a read from an empty pipe
waits.  Both calls of `pipe` succeed; a `fork` may fail, which the parent does
not notice.  What is printed is the sequence of the calls of `printf`: each
child has its own buffer, and a standard output that is not a terminal gets
the text of a child only when that exits.

`pingpong_ends`: in whatever order the processes take their steps, they call
in turn and every run comes to an end; the parent comes back from its two
calls of `waitpid` exactly when both of its children have been made or neither
has.
-/

namespace OsLabs.Lab2.PingPong

open OsLabs.Posix

/-! ## The source -/

/-- The two children.  `chanPing` is the pipe that `ping` writes, `chanPong`
the one that `pong` writes. -/
inductive Party where
  | ping
  | pong
  deriving Repr, DecidableEq

def Party.other : Party → Party
  | .ping => .pong
  | .pong => .ping

/-- The points of `procPing` and of `procPong` between two of their calls. -/
inductive Control where
  | pingTest (msg : Int)
  | pingPrinted (msg : Int)
  | pingReading
  | pongReading
  | pongReceived (msg : Int)
  | pongPrinted (msg : Int)
  | pongTest (msg : Int)
  deriving Repr, DecidableEq

/-- What a child does next, and where it is then. -/
inductive Action where
  | skip (next : Control)
  | print (line : Party) (next : Control)
  | write (msg : Int) (next : Control)
  | read (next : Int → Control)
  | exit

/-- `procPing` and `procPong`. -/
def action : Control → Action
  | .pingTest msg => if msg < 5 then .print .ping (.pingPrinted msg) else .exit
  | .pingPrinted msg => .write msg .pingReading
  | .pingReading => .read .pingTest
  | .pongReading => .read .pongReceived
  | .pongReceived msg => .print .pong (.pongPrinted msg)
  | .pongPrinted msg => .write (msg + 1) (.pongTest (msg + 1))
  | .pongTest msg => if msg < 5 then .skip .pongReading else .exit

/-- Where a child starts. -/
def Party.start : Party → Control
  | .ping => .pingTest 0
  | .pong => .pongReading

/-- A child, as long as it is not made, runs, has not been waited for, or has
been. -/
inductive Child where
  | unborn
  | running (control : Control)
  | zombie
  | gone
  deriving Repr, DecidableEq

/-- Where the parent is in `main`, and how many calls of `waitpid` are left. -/
inductive Parent where
  | forking (party : Party)
  | waiting (calls : Nat)
  deriving Repr, DecidableEq

/-- Where the parent is behind this `fork`. -/
def Parent.afterFork : Party → Parent
  | .ping => .forking .pong
  | .pong => .waiting 2

/-- The processes, the pipes, and the calls of `printf` so far. -/
structure System where
  parent : Parent
  child : Party → Child
  pipe : Party → List Int
  printed : List Party

/-- The pipes have been made. -/
def System.initial : System :=
  ⟨.forking .ping, fun _ => .unborn, fun _ => [], []⟩

section Updates

variable (s : System) (p : Party)

/-- A child enters another state. -/
def System.enter (child : Child) : System :=
  { s with child := Function.update s.child p child }

/-- The contents of a pipe change. -/
def System.setPipe (contents : List Int) : System :=
  { s with pipe := Function.update s.pipe p contents }

end Updates

/-- One of the processes takes a step. -/
inductive Step (forkFails : Party → Bool) : System → System → Prop
  | fork {s : System} {p : Party} (hparent : s.parent = .forking p)
      (h : forkFails p = false) :
      Step forkFails s
        { s.enter p (.running p.start) with parent := .afterFork p }
  | forkFails {s : System} {p : Party} (hparent : s.parent = .forking p)
      (h : forkFails p = true) :
      Step forkFails s { s with parent := .afterFork p }
  | skip {s : System} {p : Party} {c next : Control}
      (hchild : s.child p = .running c) (h : action c = .skip next) :
      Step forkFails s (s.enter p (.running next))
  | print {s : System} {p line : Party} {c next : Control}
      (hchild : s.child p = .running c) (h : action c = .print line next) :
      Step forkFails s
        { s.enter p (.running next) with printed := s.printed ++ [line] }
  | write {s : System} {p : Party} {c next : Control} {msg : Int}
      (hchild : s.child p = .running c) (h : action c = .write msg next) :
      Step forkFails s
        ((s.setPipe p (s.pipe p ++ [msg])).enter p (.running next))
  | read {s : System} {p : Party} {c : Control} {next : Int → Control}
      {msg : Int} {rest : List Int} (hchild : s.child p = .running c)
      (h : action c = .read next) (hpipe : s.pipe p.other = msg :: rest) :
      Step forkFails s
        ((s.setPipe p.other rest).enter p (.running (next msg)))
  | exit {s : System} {p : Party} {c : Control}
      (hchild : s.child p = .running c) (h : action c = .exit) :
      Step forkFails s (s.enter p .zombie)
  | reap {s : System} {p : Party} {calls : Nat}
      (hparent : s.parent = .waiting (calls + 1))
      (hchild : s.child p = .zombie) :
      Step forkFails s { s.enter p .gone with parent := .waiting calls }
  | noChild {s : System} {calls : Nat}
      (hparent : s.parent = .waiting (calls + 1))
      (hnone : ∀ p, s.child p = .unborn ∨ s.child p = .gone) :
      Step forkFails s { s with parent := .waiting calls }

/-! ## The conversation -/

/-- Who calls at this place of the output. -/
def caller (i : Nat) : Party := if i % 2 = 0 then .ping else .pong

/-- The first `count` lines. -/
def calls (count : Nat) : List Party := (List.range count).map caller

theorem calls_succ (count : Nat) :
    calls (count + 1) = calls count ++ [caller count] := by
  rw [calls, List.range_succ, List.map_append]
  rfl

theorem calls_prefix {count count' : Nat} (h : count ≤ count') :
    calls count <+: calls count' := by
  obtain ⟨more, rfl⟩ := Nat.exists_eq_add_of_le h
  unfold calls
  rw [List.range_add, List.map_append]
  exact List.prefix_append _ _

theorem caller_even (k : Nat) : caller (2 * k) = .ping :=
  if_pos (Nat.mul_mod_right 2 k)

theorem caller_odd (k : Nat) : caller (2 * k + 1) = .pong :=
  if_neg (by omega)

/-- Where `pong` is after `k` answers, when it is not its turn. -/
inductive PongWaits : Nat → Child → Prop
  | unborn : PongWaits 0 .unborn
  | reading {k : Nat} (hk : k < 5) : PongWaits k (.running .pongReading)
  | tested {k : Nat} (hpos : 0 < k) (hk : k ≤ 5) :
      PongWaits k (.running (.pongTest k))
  | zombie : PongWaits 5 .zombie
  | gone : PongWaits 5 .gone

/-- `ping` is through. -/
inductive PingDone : Child → Prop
  | zombie : PingDone .zombie
  | gone : PingDone .gone

/-- The children and what is in their pipes, when so many lines have been
printed. -/
inductive Conversation : Child → Child → List Int → List Int → Nat → Prop
  | unborn {pong : Child} (hpong : PongWaits 0 pong) :
      Conversation .unborn pong [] [] 0
  | turn {k : Nat} {pong : Child} (hk : k ≤ 5) (hpong : PongWaits k pong) :
      Conversation (.running (.pingTest k)) pong [] [] (2 * k)
  | called {k : Nat} {pong : Child} (hk : k < 5) (hpong : PongWaits k pong) :
      Conversation (.running (.pingPrinted k)) pong [] [] (2 * k + 1)
  | sent {k : Nat} {pong : Child} (hk : k < 5) (hpong : PongWaits k pong) :
      Conversation (.running .pingReading) pong [(k : Int)] [] (2 * k + 1)
  | received {k : Nat} (hk : k < 5) :
      Conversation (.running .pingReading) (.running (.pongReceived k)) [] []
        (2 * k + 1)
  | answered {k : Nat} (hk : k < 5) :
      Conversation (.running .pingReading) (.running (.pongPrinted k)) [] []
        (2 * (k + 1))
  | returned {k : Nat} {pong : Child} (hk : k ≤ 5)
      (hpong : PongWaits k pong) :
      Conversation (.running .pingReading) pong [] [(k : Int)] (2 * k)
  | done {ping pong : Child} (hping : PingDone ping)
      (hpong : PongWaits 5 pong) : Conversation ping pong [] [] 10

/-- The same, of the children and pipes by their names. -/
def Conversing (child : Party → Child) (pipe : Party → List Int)
    (count : Nat) : Prop :=
  Conversation (child .ping) (child .pong) (pipe .ping) (pipe .pong) count

section Conversation

variable {ping pong : Child} {fromPing fromPong : List Int} {count k : Nat}
  {c : Control}

/-- What `ping` does next, and that the conversation goes on with it. -/
inductive PingActs (pong : Child) (fromPing fromPong : List Int)
    (count : Nat) : Action → Prop
  | print {next : Control}
      (h : Conversation (.running next) pong fromPing fromPong (count + 1)) :
      PingActs pong fromPing fromPong count (.print (caller count) next)
  | write {msg : Int} {next : Control}
      (h : Conversation (.running next) pong (fromPing ++ [msg]) fromPong
        count) : PingActs pong fromPing fromPong count (.write msg next)
  | read {next : Int → Control}
      (h : ∀ msg rest, fromPong = msg :: rest →
        Conversation (.running (next msg)) pong fromPing rest count) :
      PingActs pong fromPing fromPong count (.read next)
  | exit (h : Conversation .zombie pong fromPing fromPong count) :
      PingActs pong fromPing fromPong count .exit

theorem Conversation.pingActs
    (h : Conversation (.running c) pong fromPing fromPong count) :
    PingActs pong fromPing fromPong count (action c) := by
  cases h with
  | @turn k _ hk hpong =>
      rw [action]
      split
      · next hlt =>
          rw [← caller_even k]
          exact .print (.called (by omega) hpong)
      · next hge =>
          obtain rfl : k = 5 := by omega
          exact .exit (.done .zombie hpong)
  | called hk hpong => exact .write (.sent hk hpong)
  | sent hk hpong => exact .read fun _ _ heq => nomatch heq
  | received hk => exact .read fun _ _ heq => nomatch heq
  | answered hk => exact .read fun _ _ heq => nomatch heq
  | returned hk hpong =>
      refine .read fun msg rest heq => ?_
      cases heq
      exact .turn hk hpong
  | done hping => cases hping

/-- What `pong` does next. -/
inductive PongActs (ping : Child) (fromPing fromPong : List Int)
    (count : Nat) : Action → Prop
  | skip {next : Control}
      (h : Conversation ping (.running next) fromPing fromPong count) :
      PongActs ping fromPing fromPong count (.skip next)
  | print {next : Control}
      (h : Conversation ping (.running next) fromPing fromPong (count + 1)) :
      PongActs ping fromPing fromPong count (.print (caller count) next)
  | write {msg : Int} {next : Control}
      (h : Conversation ping (.running next) fromPing (fromPong ++ [msg])
        count) : PongActs ping fromPing fromPong count (.write msg next)
  | read {next : Int → Control}
      (h : ∀ msg rest, fromPing = msg :: rest →
        Conversation ping (.running (next msg)) rest fromPong count) :
      PongActs ping fromPing fromPong count (.read next)
  | exit (h : Conversation ping .zombie fromPing fromPong count) :
      PongActs ping fromPing fromPong count .exit

/-- `pong` reads again, or exits, while the conversation stands still. -/
theorem PongWaits.acts (h : PongWaits k (.running c))
    (hstill : ∀ pong, PongWaits k pong →
      Conversation ping pong fromPing fromPong count)
    (hread : ∀ msg rest, fromPing = msg :: rest → k < 5 →
      Conversation ping (.running (.pongReceived msg)) rest fromPong count) :
    PongActs ping fromPing fromPong count (action c) := by
  cases h with
  | reading hk => exact .read fun msg rest heq => hread msg rest heq hk
  | tested hpos hk =>
      rw [action]
      split
      · next hlt => exact .skip (hstill _ (.reading (by omega)))
      · next hge =>
          obtain rfl : k = 5 := by omega
          exact .exit (hstill _ .zombie)

theorem Conversation.pongActs
    (h : Conversation ping (.running c) fromPing fromPong count) :
    PongActs ping fromPing fromPong count (action c) := by
  cases h with
  | unborn hpong =>
      exact hpong.acts (fun _ h => .unborn h) fun _ _ heq => nomatch heq
  | turn hk hpong =>
      exact hpong.acts (fun _ h => .turn hk h) fun _ _ heq => nomatch heq
  | called hk hpong =>
      exact hpong.acts (fun _ h => .called hk h) fun _ _ heq => nomatch heq
  | sent hk hpong =>
      refine hpong.acts (fun _ h => .sent hk h) fun msg rest heq hlt => ?_
      cases heq
      exact .received hlt
  | @received k hk =>
      have hprint : action (.pongReceived k) =
          .print (caller (2 * k + 1)) (.pongPrinted k) := by
        rw [caller_odd]
        rfl
      rw [hprint]
      exact .print (.answered hk)
  | @answered k hk =>
      exact .write (.returned hk (.tested (Nat.succ_pos k) hk))
  | returned hk hpong =>
      exact hpong.acts (fun _ h => .returned hk h) fun _ _ heq => nomatch heq
  | done hping hpong =>
      exact hpong.acts (fun _ h => .done hping h) fun _ _ heq => nomatch heq

/-- What a child does next, and what it leaves behind. -/
inductive Acts (child : Party → Child) (pipe : Party → List Int) (count : Nat)
    (p : Party) : Action → Prop
  | skip {next : Control}
      (h : Conversing (Function.update child p (.running next)) pipe count) :
      Acts child pipe count p (.skip next)
  | print {next : Control}
      (h : Conversing (Function.update child p (.running next)) pipe
        (count + 1)) : Acts child pipe count p (.print (caller count) next)
  | write {msg : Int} {next : Control}
      (h : Conversing (Function.update child p (.running next))
        (Function.update pipe p (pipe p ++ [msg])) count) :
      Acts child pipe count p (.write msg next)
  | read {next : Int → Control}
      (h : ∀ msg rest, pipe p.other = msg :: rest →
        Conversing (Function.update child p (.running (next msg)))
          (Function.update pipe p.other rest) count) :
      Acts child pipe count p (.read next)
  | exit (h : Conversing (Function.update child p .zombie) pipe count) :
      Acts child pipe count p .exit

theorem Conversing.acts {child : Party → Child} {pipe : Party → List Int}
    {p : Party} (h : Conversing child pipe count)
    (hchild : child p = .running c) : Acts child pipe count p (action c) := by
  unfold Conversing at h
  cases p with
  | ping =>
      rw [hchild] at h
      have hacts := h.pingActs
      generalize action c = next at hacts ⊢
      cases hacts with
      | print hnext => exact .print hnext
      | write hnext => exact .write hnext
      | read hnext => exact .read hnext
      | exit hnext => exact .exit hnext
  | pong =>
      rw [hchild] at h
      have hacts := h.pongActs
      generalize action c = next at hacts ⊢
      cases hacts with
      | skip hnext => exact .skip hnext
      | print hnext => exact .print hnext
      | write hnext => exact .write hnext
      | read hnext => exact .read hnext
      | exit hnext => exact .exit hnext

/-- `ping` is made, and it is its turn. -/
theorem Conversation.forkPing
    (h : Conversation .unborn pong fromPing fromPong count) :
    Conversation (.running Party.ping.start) pong fromPing fromPong count := by
  cases h with
  | unborn hpong => exact .turn (Nat.zero_le 5) hpong
  | done hping => cases hping

/-- `pong` is made while `ping` is at work. -/
theorem Conversation.forkPong
    (h : Conversation ping .unborn fromPing fromPong count) :
    Conversation ping (.running Party.pong.start) fromPing fromPong count := by
  have hstart : ∀ k, PongWaits k .unborn →
      PongWaits k (.running Party.pong.start) := by
    intro k hpong
    cases hpong
    exact .reading (by decide)
  cases h with
  | unborn hpong => exact .unborn (hstart _ hpong)
  | turn hk hpong => exact .turn hk (hstart _ hpong)
  | called hk hpong => exact .called hk (hstart _ hpong)
  | sent hk hpong => exact .sent hk (hstart _ hpong)
  | returned hk hpong => exact .returned hk (hstart _ hpong)
  | done hping hpong => cases hpong

/-- `ping` is waited for. -/
theorem Conversation.reapPing
    (h : Conversation .zombie pong fromPing fromPong count) :
    Conversation .gone pong fromPing fromPong count := by
  cases h with
  | done hping hpong => exact .done .gone hpong

/-- `pong` is waited for. -/
theorem Conversation.reapPong
    (h : Conversation ping .zombie fromPing fromPong count) :
    Conversation ping .gone fromPing fromPong count := by
  have hgone : ∀ k, PongWaits k .zombie → PongWaits k .gone := by
    intro k hpong
    cases hpong
    exact .gone
  cases h with
  | unborn hpong => cases hpong
  | turn hk hpong => exact .turn hk (hgone _ hpong)
  | called hk hpong => exact .called hk (hgone _ hpong)
  | sent hk hpong => exact .sent hk (hgone _ hpong)
  | returned hk hpong => exact .returned hk (hgone _ hpong)
  | done hping hpong => exact .done hping (hgone _ hpong)

theorem Conversation.count_le
    (h : Conversation ping pong fromPing fromPong count) : count ≤ 10 := by
  cases h <;> omega

/-- A child that ends has been talking to the other one. -/
theorem Conversation.both_made
    (h : Conversation ping pong fromPing fromPong count) :
    (ping = .gone → pong ≠ .unborn) ∧ (pong = .gone → ping ≠ .unborn) := by
  constructor
  · rintro rfl rfl
    cases h with
    | done hping hpong => cases hpong
  · rintro rfl rfl
    cases h with
    | unborn hpong => cases hpong
    | done hping => cases hping

/-- At most one message is under way. -/
theorem Conversation.in_flight
    (h : Conversation ping pong fromPing fromPong count) :
    fromPing.length + fromPong.length ≤ 1 := by
  cases h <;> simp

end Conversation

/-! ## The parent -/

/-- How many children have been waited for. -/
def goneCount (ping pong : Child) : Nat :=
  (if ping = .gone then 1 else 0) + if pong = .gone then 1 else 0

/-- Where the parent is: a child is made unless its `fork` fails, and a call
of `waitpid` returns for a child, or at once when there is none. -/
inductive ParentOk (forkFails : Party → Bool) :
    Parent → Child → Child → Prop
  | forkingPing : ParentOk forkFails (.forking .ping) .unborn .unborn
  | forkingPong {ping : Child} (hping : ping = .unborn ↔ forkFails .ping = true)
      (hgone : ping ≠ .gone) :
      ParentOk forkFails (.forking .pong) ping .unborn
  | waiting {ping pong : Child} {calls : Nat}
      (hping : ping = .unborn ↔ forkFails .ping = true)
      (hpong : pong = .unborn ↔ forkFails .pong = true)
      (hcalls : calls + goneCount ping pong = 2 ∨
        ping = .unborn ∧ pong = .unborn ∧ calls ≤ 2) :
      ParentOk forkFails (.waiting calls) ping pong

/-- The conversation is in order, and so is the parent. -/
structure Talking (forkFails : Party → Bool) (s : System) : Prop where
  conversation : ∃ count, s.printed = calls count ∧
    Conversing s.child s.pipe count
  parent : ParentOk forkFails s.parent (s.child .ping) (s.child .pong)

section Parent

variable {forkFails : Party → Bool} {parent : Parent}
  {ping pong ping' pong' : Child} {n : Nat}

/-- The parent does not see what its children do before they end. -/
structure Alike (child child' : Child) : Prop where
  unborn : child' = .unborn ↔ child = .unborn
  gone : child' = .gone ↔ child = .gone

theorem Alike.refl (child : Child) : Alike child child := ⟨Iff.rfl, Iff.rfl⟩

theorem Alike.running (c c' : Control) : Alike (.running c) (.running c') :=
  ⟨iff_of_false (by simp) (by simp), iff_of_false (by simp) (by simp)⟩

theorem Alike.exits (c : Control) : Alike (.running c) .zombie :=
  ⟨iff_of_false (by simp) (by simp), iff_of_false (by simp) (by simp)⟩

theorem ParentOk.alike (h : ParentOk forkFails parent ping pong)
    (hping : Alike ping ping') (hpong : Alike pong pong') :
    ParentOk forkFails parent ping' pong' := by
  cases h with
  | forkingPing =>
      rw [hping.unborn.mpr rfl, hpong.unborn.mpr rfl]
      exact .forkingPing
  | forkingPong hborn hgone =>
      rw [hpong.unborn.mpr rfl]
      exact .forkingPong (hping.unborn.trans hborn) (mt hping.gone.mp hgone)
  | waiting hborn hborn' hcalls =>
      refine .waiting (hping.unborn.trans hborn) (hpong.unborn.trans hborn') ?_
      simp only [goneCount, hping.gone, hpong.gone, hping.unborn,
        hpong.unborn]
      exact hcalls

/-- The first `fork`. -/
theorem ParentOk.forkPing (h : ParentOk forkFails (.forking .ping) ping pong) :
    ping = .unborn ∧ pong = .unborn ∧
      (forkFails .ping = true →
        ParentOk forkFails (.forking .pong) .unborn .unborn) ∧
      (forkFails .ping = false → ∀ c,
        ParentOk forkFails (.forking .pong) (.running c) .unborn) := by
  cases h with
  | forkingPing =>
      refine ⟨rfl, rfl, fun hfails => ?_, fun hmade c => ?_⟩
      · exact .forkingPong (iff_of_true rfl hfails) (by simp)
      · exact .forkingPong (iff_of_false (by simp) (by simp [hmade])) (by simp)

/-- The second `fork`. -/
theorem ParentOk.forkPong (h : ParentOk forkFails (.forking .pong) ping pong) :
    pong = .unborn ∧
      (forkFails .pong = true →
        ParentOk forkFails (.waiting 2) ping .unborn) ∧
      (forkFails .pong = false → ∀ c,
        ParentOk forkFails (.waiting 2) ping (.running c)) := by
  cases h with
  | forkingPong hborn hgone =>
      have hnone : ∀ pong, pong ≠ .gone → goneCount ping pong = 0 := by
        intro pong hpong
        rw [goneCount, if_neg hgone, if_neg hpong]
      refine ⟨rfl, fun hfails => ?_, fun hmade c => ?_⟩
      · refine .waiting hborn (iff_of_true rfl hfails) (Or.inl ?_)
        rw [hnone _ (by simp)]
      · refine .waiting hborn (iff_of_false (by simp) (by simp [hmade]))
          (Or.inl ?_)
        rw [hnone _ (by simp)]

/-- A call of `waitpid` returns for `ping`. -/
theorem ParentOk.reapPing
    (h : ParentOk forkFails (.waiting (n + 1)) .zombie pong) :
    ParentOk forkFails (.waiting n) .gone pong := by
  cases h with
  | waiting hborn hborn' hcalls =>
      refine .waiting (iff_of_false (by simp)
        (mt hborn.mpr (by simp))) hborn' (Or.inl ?_)
      simp only [goneCount, reduceCtorEq, if_false, if_true, false_and,
        or_false] at hcalls ⊢
      omega

theorem ParentOk.reapPong
    (h : ParentOk forkFails (.waiting (n + 1)) ping .zombie) :
    ParentOk forkFails (.waiting n) ping .gone := by
  cases h with
  | waiting hborn hborn' hcalls =>
      refine .waiting hborn (iff_of_false (by simp)
        (mt hborn'.mpr (by simp))) (Or.inl ?_)
      simp only [goneCount, reduceCtorEq, if_false, if_true, false_and,
        and_false, or_false] at hcalls ⊢
      omega

/-- It returns at once only when no child has ever been made. -/
theorem ParentOk.noChild
    (h : ParentOk forkFails (.waiting (n + 1)) ping pong)
    (hping : ping = .unborn ∨ ping = .gone)
    (hpong : pong = .unborn ∨ pong = .gone)
    (hconversation : ping = .gone → pong ≠ .unborn)
    (hconversation' : pong = .gone → ping ≠ .unborn) :
    ParentOk forkFails (.waiting n) ping pong := by
  cases h with
  | waiting hborn hborn' hcalls =>
      refine .waiting hborn hborn' (Or.inr ?_)
      rcases hping with rfl | rfl
      · rcases hpong with rfl | rfl
        · simp only [goneCount, reduceCtorEq, if_false, true_and] at hcalls ⊢
          omega
        · exact absurd rfl (hconversation' rfl)
      · rcases hpong with rfl | rfl
        · exact absurd rfl (hconversation rfl)
        · simp only [goneCount, if_true, reduceCtorEq, false_and,
            or_false] at hcalls
          omega

end Parent

/-! ## One step -/

section Preserve

variable {forkFails : Party → Bool} {s s' : System} {c : Control}

theorem Talking.initial (forkFails : Party → Bool) :
    Talking forkFails .initial :=
  ⟨⟨0, rfl, .unborn .unborn⟩, .forkingPing⟩

/-- A call of `fork`. -/
theorem Talking.fork (h : Talking forkFails s) {p : Party}
    (hparent : s.parent = .forking p) :
    (forkFails p = true →
      Talking forkFails { s with parent := .afterFork p }) ∧
    (forkFails p = false → Talking forkFails
      { s.enter p (.running p.start) with parent := .afterFork p }) := by
  obtain ⟨⟨count, hprinted, hconversation⟩, hok⟩ := h
  rw [hparent] at hok
  cases p with
  | ping =>
      obtain ⟨hping, hpong, hfails, hmade⟩ := hok.forkPing
      refine ⟨fun hf => ⟨⟨count, hprinted, hconversation⟩, ?_⟩,
        fun hf => ⟨⟨count, hprinted, ?_⟩, ?_⟩⟩
      · show ParentOk _ _ (s.child .ping) (s.child .pong)
        rw [hping, hpong]
        exact hfails hf
      · unfold Conversing at hconversation
        rw [hping] at hconversation
        exact hconversation.forkPing
      · show ParentOk _ _ _ (s.child .pong)
        rw [hpong]
        exact hmade hf _
  | pong =>
      obtain ⟨hpong, hfails, hmade⟩ := hok.forkPong
      refine ⟨fun hf => ⟨⟨count, hprinted, hconversation⟩, ?_⟩,
        fun hf => ⟨⟨count, hprinted, ?_⟩, hmade hf _⟩⟩
      · show ParentOk _ _ (s.child .ping) (s.child .pong)
        rw [hpong]
        exact hfails hf
      · unfold Conversing at hconversation
        rw [hpong] at hconversation
        exact hconversation.forkPong

/-- A child changes in a way that the parent does not see. -/
theorem Talking.enter (h : Talking forkFails s) {p : Party} {next : Child}
    {count : Nat} (halike : Alike (s.child p) next)
    (hparent : s'.parent = s.parent)
    (hchild : s'.child = Function.update s.child p next)
    (hprinted : s'.printed = calls count)
    (hconversing : Conversing (Function.update s.child p next) s'.pipe count) :
    Talking forkFails s' := by
  refine ⟨⟨count, hprinted, hchild ▸ hconversing⟩, ?_⟩
  rw [hparent, hchild]
  cases p with
  | ping => exact h.parent.alike halike (.refl _)
  | pong => exact h.parent.alike (.refl _) halike

/-- A child has been waited for. -/
theorem Talking.reap (h : Talking forkFails s) {p : Party} {n : Nat}
    (hparent : s.parent = .waiting (n + 1)) (hchild : s.child p = .zombie) :
    Talking forkFails { s.enter p .gone with parent := .waiting n } := by
  obtain ⟨⟨count, hprinted, hconversing⟩, hok⟩ := h
  unfold Conversing at hconversing
  rw [hparent] at hok
  cases p with
  | ping =>
      rw [hchild] at hconversing hok
      exact ⟨⟨count, hprinted, hconversing.reapPing⟩, hok.reapPing⟩
  | pong =>
      rw [hchild] at hconversing hok
      exact ⟨⟨count, hprinted, hconversing.reapPong⟩, hok.reapPong⟩

/-- **Every step keeps the conversation in order.** -/
theorem Talking.step (h : Talking forkFails s) (hstep : Step forkFails s s') :
    Talking forkFails s' := by
  obtain ⟨count, hprinted, hconversing⟩ := h.conversation
  cases hstep with
  | fork hparent hmade => exact (h.fork hparent).2 hmade
  | forkFails hparent hfails => exact (h.fork hparent).1 hfails
  | @skip p c next hchild haction =>
      have hacts := hconversing.acts hchild
      rw [haction] at hacts
      cases hacts with
      | skip hnext =>
          exact h.enter (hchild ▸ .running c next) rfl rfl hprinted hnext
  | @print p line c next hchild haction =>
      have hacts := hconversing.acts hchild
      rw [haction] at hacts
      cases hacts with
      | print hnext =>
          have hline : s.printed ++ [caller count] = calls (count + 1) := by
            rw [hprinted, calls_succ]
          exact h.enter (hchild ▸ .running c next) rfl rfl hline hnext
  | @write p c next msg hchild haction =>
      have hacts := hconversing.acts hchild
      rw [haction] at hacts
      cases hacts with
      | write hnext =>
          exact h.enter (hchild ▸ .running c next) rfl rfl hprinted hnext
  | @read p c next msg rest hchild haction hpipe =>
      have hacts := hconversing.acts hchild
      rw [haction] at hacts
      cases hacts with
      | read hnext =>
          exact h.enter (hchild ▸ .running c (next msg)) rfl rfl hprinted
            (hnext msg rest hpipe)
  | @exit p c hchild haction =>
      have hacts := hconversing.acts hchild
      rw [haction] at hacts
      cases hacts with
      | exit hnext =>
          exact h.enter (hchild ▸ .exits c) rfl rfl hprinted hnext
  | @reap p n hparent hchild => exact h.reap hparent hchild
  | @noChild n hparent hnone =>
      obtain ⟨hboth, hboth'⟩ := hconversing.both_made
      have hok := h.parent
      rw [hparent] at hok
      exact ⟨⟨count, hprinted, hconversing⟩,
        hok.noChild (hnone .ping) (hnone .pong) hboth hboth'⟩

theorem Talking.of_runs (hruns : Runs (Step forkFails) .initial s) :
    Talking forkFails s :=
  hruns.invariant (fun _ _ h hstep => h.step hstep) (.initial forkFails)

end Preserve

/-! ## Every run comes to an end -/

/-- The steps that are left of the rounds before the fifth. -/
def roundsWeight (msg : Int) : Nat := 10 * (5 - msg).toNat

/-- The steps that a child still causes. -/
def controlWeight : Control → Nat
  | .pingTest msg => roundsWeight msg + 2
  | .pingPrinted msg => roundsWeight (msg + 1) + 11
  | .pingReading => 2
  | .pongReading => 2
  | .pongReceived msg => roundsWeight (msg + 1) + 9
  | .pongPrinted msg => roundsWeight (msg + 1) + 8
  | .pongTest _ => 3

def childWeight : Child → Nat
  | .unborn => 0
  | .running control => controlWeight control
  | .zombie => 1
  | .gone => 0

def parentWeight : Parent → Nat
  | .forking .ping => 100
  | .forking .pong => 10
  | .waiting calls => calls

/-- The steps that a message still causes, in the pipe that `p` writes. -/
def messageWeight (p : Party) (msg : Int) : Nat :=
  match p with
  | .ping => roundsWeight (msg + 1) + 8
  | .pong => roundsWeight msg + 4

def pipeWeight (p : Party) (pipe : List Int) : Nat :=
  (pipe.map (messageWeight p)).sum

/-- What is left to do. -/
def weight (s : System) : Nat :=
  parentWeight s.parent + (childWeight (s.child .ping) +
    pipeWeight .ping (s.pipe .ping)) + (childWeight (s.child .pong) +
    pipeWeight .pong (s.pipe .pong))

/-- Whose function it is. -/
def Control.party : Control → Party
  | .pingTest _ => .ping
  | .pingPrinted _ => .ping
  | .pingReading => .ping
  | .pongReading => .pong
  | .pongReceived _ => .pong
  | .pongPrinted _ => .pong
  | .pongTest _ => .pong

section Weight

variable {forkFails : Party → Bool} {s s' : System} {p : Party}
  {c next : Control} {msg : Int}

theorem roundsWeight_succ (h : msg < 5) :
    roundsWeight msg = roundsWeight (msg + 1) + 10 := by
  unfold roundsWeight
  omega

theorem Conversation.ping_party {pong : Child} {fromPing fromPong : List Int}
    {count : Nat}
    (h : Conversation (.running c) pong fromPing fromPong count) :
    c.party = .ping := by
  cases h with
  | done hping => cases hping
  | _ => rfl

theorem PongWaits.party {k : Nat} (h : PongWaits k (.running c)) :
    c.party = .pong := by
  cases h <;> rfl

theorem Conversation.pong_party {ping : Child} {fromPing fromPong : List Int}
    {count : Nat}
    (h : Conversation ping (.running c) fromPing fromPong count) :
    c.party = .pong := by
  cases h with
  | received => rfl
  | answered => rfl
  | unborn hpong => exact hpong.party
  | turn hk hpong => exact hpong.party
  | called hk hpong => exact hpong.party
  | sent hk hpong => exact hpong.party
  | returned hk hpong => exact hpong.party
  | done hping hpong => exact hpong.party

/-- A child runs the function that is its own. -/
theorem Conversing.party {child : Party → Child} {pipe : Party → List Int}
    {count : Nat} (h : Conversing child pipe count)
    (hchild : child p = .running c) : c.party = p := by
  unfold Conversing at h
  cases p with
  | ping => exact (hchild ▸ h).ping_party
  | pong => exact (hchild ▸ h).pong_party

theorem controlWeight_skip (h : action c = .skip next) :
    controlWeight next < controlWeight c := by
  cases c with
  | pongTest msg =>
      rw [action] at h
      split at h <;> cases h
      exact Nat.lt_succ_self 2
  | pingTest msg =>
      rw [action] at h
      split at h <;> cases h
  | _ => cases h

theorem controlWeight_print {line : Party} (h : action c = .print line next) :
    controlWeight next < controlWeight c := by
  cases c with
  | pingTest msg =>
      rw [action] at h
      split at h
      · next hlt =>
          cases h
          rw [controlWeight, controlWeight, roundsWeight_succ hlt]
          omega
      · cases h
  | pongReceived msg =>
      cases h
      exact Nat.lt_succ_self _
  | pongTest msg =>
      rw [action] at h
      split at h <;> cases h
  | _ => cases h

theorem controlWeight_write (h : action c = .write msg next) :
    controlWeight next + messageWeight c.party msg < controlWeight c := by
  cases c with
  | pingPrinted msg =>
      cases h
      simp only [controlWeight, Control.party, messageWeight]
      omega
  | pongPrinted msg =>
      cases h
      simp only [controlWeight, Control.party, messageWeight]
      omega
  | pingTest msg =>
      rw [action] at h
      split at h <;> cases h
  | pongTest msg =>
      rw [action] at h
      split at h <;> cases h
  | _ => cases h

theorem controlWeight_read {next : Int → Control} (h : action c = .read next)
    (msg : Int) :
    controlWeight (next msg) <
      controlWeight c + messageWeight c.party.other msg := by
  cases c with
  | pingReading =>
      cases h
      simp only [controlWeight, Control.party, Party.other, messageWeight]
      omega
  | pongReading =>
      cases h
      simp only [controlWeight, Control.party, Party.other, messageWeight]
      omega
  | pingTest msg =>
      rw [action] at h
      split at h <;> cases h
  | pongTest msg =>
      rw [action] at h
      split at h <;> cases h
  | _ => cases h

theorem other_ne (p : Party) : p.other ≠ p := by
  cases p <;> decide

/-- What a child does leaves less to do, whatever the other one does. -/
theorem weight_lt
    (hother : childWeight (s'.child p.other) = childWeight (s.child p.other))
    (hless : parentWeight s'.parent + childWeight (s'.child p) +
        pipeWeight p (s'.pipe p) + pipeWeight p.other (s'.pipe p.other) <
      parentWeight s.parent + childWeight (s.child p) +
        pipeWeight p (s.pipe p) + pipeWeight p.other (s.pipe p.other)) :
    weight s' < weight s := by
  unfold weight
  cases p with
  | ping =>
      simp only [Party.other] at hother hless
      omega
  | pong =>
      simp only [Party.other] at hother hless
      omega

/-- A call of `fork` is worth more than the child. -/
theorem parentWeight_fork (p : Party) :
    parentWeight (.afterFork p) + childWeight (.running p.start) <
      parentWeight (.forking p) := by
  cases p <;> decide

theorem Talking.forking_unborn (h : Talking forkFails s)
    (hparent : s.parent = .forking p) : s.child p = .unborn := by
  have hok := h.parent
  rw [hparent] at hok
  cases p with
  | ping => exact hok.forkPing.1
  | pong => exact hok.forkPong.1

/-- **Every step leaves less to do.** -/
theorem weight_step (h : Talking forkFails s) (hstep : Step forkFails s s') :
    weight s' < weight s := by
  obtain ⟨count, hprinted, hconversing⟩ := h.conversation
  cases hstep with
  | @fork p hparent hmade =>
      have hpaid := parentWeight_fork p
      have hunborn := h.forking_unborn hparent
      refine weight_lt (p := p) ?_ ?_
      · simp only [System.enter, Function.update_of_ne (other_ne p)]
      · simp only [System.enter, Function.update_self, hparent, hunborn]
        rw [childWeight.eq_def .unborn]
        omega
  | @forkFails p hparent hfails =>
      have hpaid := parentWeight_fork p
      refine weight_lt (p := p) rfl ?_
      simp only [hparent]
      omega
  | @skip p c next hchild haction =>
      have hless := controlWeight_skip haction
      refine weight_lt (p := p) ?_ ?_
      · simp only [System.enter, Function.update_of_ne (other_ne p)]
      · simp only [System.enter, Function.update_self, hchild, childWeight]
        omega
  | @print p line c next hchild haction =>
      have hless := controlWeight_print haction
      refine weight_lt (p := p) ?_ ?_
      · simp only [System.enter, Function.update_of_ne (other_ne p)]
      · simp only [System.enter, Function.update_self, hchild, childWeight]
        omega
  | @write p c next msg hchild haction =>
      have hless := controlWeight_write haction
      rw [hconversing.party hchild] at hless
      refine weight_lt (p := p) ?_ ?_
      · simp only [System.enter, System.setPipe,
          Function.update_of_ne (other_ne p)]
      · simp only [System.enter, System.setPipe, Function.update_self,
          Function.update_of_ne (other_ne p), hchild, childWeight, pipeWeight,
          List.map_append, List.sum_append, List.map_singleton,
          List.sum_singleton]
        omega
  | @read p c next msg rest hchild haction hpipe =>
      have hless := controlWeight_read haction msg
      rw [hconversing.party hchild] at hless
      refine weight_lt (p := p) ?_ ?_
      · simp only [System.enter, System.setPipe,
          Function.update_of_ne (other_ne p)]
      · simp only [System.enter, System.setPipe, Function.update_self,
          Function.update_of_ne (other_ne p).symm, hchild, childWeight,
          pipeWeight, hpipe, List.map_cons, List.sum_cons]
        omega
  | @exit p c hchild haction =>
      have hpos : 1 < controlWeight c := by
        cases c <;> simp only [controlWeight] <;> omega
      refine weight_lt (p := p) ?_ ?_
      · simp only [System.enter, Function.update_of_ne (other_ne p)]
      · simp only [System.enter, Function.update_self, hchild, childWeight]
        omega
  | @reap p n hparent hchild =>
      refine weight_lt (p := p) ?_ ?_
      · simp only [System.enter, Function.update_of_ne (other_ne p)]
      · simp only [System.enter, Function.update_self, hparent, hchild,
          childWeight, parentWeight]
        omega
  | @noChild n hparent hnone =>
      refine weight_lt (p := .ping) rfl ?_
      simp only [hparent, parentWeight]
      omega

end Weight

/-! ## Where it ends -/

section Stuck

variable {forkFails : Party → Bool} {s : System} {p : Party}

/-- A child that does not wait for a message goes on. -/
theorem can_step_of_running {c : Control} (hchild : s.child p = .running c)
    (hread : ∀ next, action c = .read next → s.pipe p.other ≠ []) :
    ∃ s', Step forkFails s s' := by
  cases haction : action c with
  | skip next => exact ⟨_, .skip hchild haction⟩
  | print line next => exact ⟨_, .print hchild haction⟩
  | write msg next => exact ⟨_, .write hchild haction⟩
  | read next =>
      obtain ⟨msg, rest, hpipe⟩ := List.exists_cons_of_ne_nil
        (hread next haction)
      exact ⟨_, .read hchild haction hpipe⟩
  | exit => exact ⟨_, .exit hchild haction⟩

/-- Nothing more happens: both children are gone, or neither has been made, or
one has and waits for the other. -/
inductive Ends : Child → Child → Nat → Prop
  | gone : Ends .gone .gone 10
  | none : Ends .unborn .unborn 0
  | pingAlone {c : Control} : Ends (.running c) .unborn 1
  | pongAlone {c : Control} : Ends .unborn (.running c) 0

/-- The parent does not stop before a child that can be waited for. -/
theorem Talking.no_zombie (h : Talking forkFails s)
    (hstuck : ∀ s', ¬ Step forkFails s s') : s.child p ≠ .zombie := by
  intro hzombie
  have hok := h.parent
  cases hparent : s.parent with
  | forking p' =>
      cases hfork : forkFails p' with
      | true => exact hstuck _ (.forkFails hparent hfork)
      | false => exact hstuck _ (.fork hparent hfork)
  | waiting calls =>
      cases calls with
      | succ calls => exact hstuck _ (.reap hparent hzombie)
      | zero =>
          -- it has not been waited for, and has been made
          rw [hparent] at hok
          have hcount : goneCount (s.child .ping) (s.child .pong) < 2 := by
            unfold goneCount
            cases p with
            | ping =>
                rw [hzombie, if_neg (by simp)]
                split <;> decide
            | pong =>
                rw [hzombie, if_neg (show ¬ Child.zombie = .gone by simp)]
                split <;> decide
          have hmade : ¬ (s.child .ping = .unborn ∧ s.child .pong = .unborn) := by
            rintro ⟨hping, hpong⟩
            cases p with
            | ping => simp [hping] at hzombie
            | pong => simp [hpong] at hzombie
          cases hok with
          | waiting hborn hborn' hcalls =>
              rcases hcalls with hcalls | ⟨hping, hpong, -⟩
              · omega
              · exact hmade ⟨hping, hpong⟩

theorem Talking.ends (h : Talking forkFails s)
    (hstuck : ∀ s', ¬ Step forkFails s s') :
    ∃ count, s.printed = calls count ∧
      Ends (s.child .ping) (s.child .pong) count := by
  obtain ⟨count, hprinted, hconversing⟩ := h.conversation
  refine ⟨count, hprinted, ?_⟩
  have hping : ∀ c, s.child .ping = .running c →
      (∀ next, action c = .read next → s.pipe .pong ≠ []) → False :=
    fun c hchild hread =>
      (can_step_of_running hchild hread).elim hstuck
  have hpong : ∀ c, s.child .pong = .running c →
      (∀ next, action c = .read next → s.pipe .ping ≠ []) → False :=
    fun c hchild hread =>
      (can_step_of_running hchild hread).elim hstuck
  have htest : ∀ k, s.child .pong ≠ .running (.pongTest k) := by
    intro k hchild
    refine hpong _ hchild fun next hread => ?_
    rw [action] at hread
    split at hread <;> cases hread
  have hzombie := h.no_zombie (p := .ping) hstuck
  have hzombie' := h.no_zombie (p := .pong) hstuck
  unfold Conversing at hconversing
  generalize s.child .ping = ping at *
  generalize s.child .pong = pong at *
  generalize s.pipe .ping = fromPing at *
  generalize s.pipe .pong = fromPong at *
  cases hconversing with
  | unborn hwaits =>
      cases hwaits with
      | unborn => exact .none
      | reading => exact .pongAlone
      | tested hpos => exact absurd rfl (htest _)
  | turn hk hwaits =>
      refine (hping _ rfl fun next hread => ?_).elim
      rw [action] at hread
      split at hread <;> cases hread
  | called hk hwaits =>
      exact (hping _ rfl fun next hread => nomatch hread).elim
  | sent hk hwaits =>
      cases hwaits with
      | unborn => exact .pingAlone
      | reading => exact (hpong _ rfl fun _ _ => by simp).elim
      | tested => exact absurd rfl (htest _)
      | zombie => exact absurd rfl hzombie'
      | gone => omega
  | received hk => exact (hpong _ rfl fun next hread => nomatch hread).elim
  | answered hk => exact (hpong _ rfl fun next hread => nomatch hread).elim
  | returned hk hwaits => exact (hping _ rfl fun _ _ => by simp).elim
  | done hdone hwaits =>
      cases hdone with
      | zombie => exact absurd rfl hzombie
      | gone =>
          cases hwaits with
          | reading hk => omega
          | tested => exact absurd rfl (htest _)
          | zombie => exact absurd rfl hzombie'
          | gone => exact .gone

/-- What the parent has seen by then. -/
theorem ParentOk.outcome {ping pong : Child} {n count : Nat}
    (h : ParentOk forkFails (.waiting n) ping pong)
    (hends : Ends ping pong count)
    (hnone : ping = .unborn → pong = .unborn → n = 0) :
    (n = 0 ↔ forkFails .ping = forkFails .pong) ∧
      (forkFails .ping = false → forkFails .pong = false →
        count = 10 ∧ ping = .gone ∧ pong = .gone) := by
  cases h with
  | waiting hborn hborn' hcalls =>
      cases hends with
      | gone =>
          have hmade : forkFails .ping = false :=
            eq_false_of_ne_true (mt hborn.mpr (by simp))
          have hmade' : forkFails .pong = false :=
            eq_false_of_ne_true (mt hborn'.mpr (by simp))
          simp only [goneCount, if_true, reduceCtorEq, false_and,
            or_false] at hcalls
          exact ⟨iff_of_true (by omega) (hmade.trans hmade'.symm),
            fun _ _ => ⟨rfl, rfl, rfl⟩⟩
      | none =>
          have hfails := hborn.mp rfl
          refine ⟨iff_of_true (hnone rfl rfl)
            (hfails.trans (hborn'.mp rfl).symm), fun hmade => ?_⟩
          rw [hfails] at hmade
          cases hmade
      | pingAlone =>
          have hmade : forkFails .ping = false :=
            eq_false_of_ne_true (mt hborn.mpr (by simp))
          have hfails := hborn'.mp rfl
          simp only [goneCount, reduceCtorEq, if_false, false_and,
            or_false] at hcalls
          rw [hmade, hfails]
          exact ⟨iff_of_false (by omega) Bool.false_ne_true,
            fun _ hmade' => nomatch hmade'⟩
      | pongAlone =>
          have hfails := hborn.mp rfl
          have hmade : forkFails .pong = false :=
            eq_false_of_ne_true (mt hborn'.mpr (by simp))
          simp only [goneCount, reduceCtorEq, if_false, false_and,
            and_false, or_false] at hcalls
          rw [hmade, hfails]
          exact ⟨iff_of_false (by omega) (Ne.symm Bool.false_ne_true),
            fun hmade' => nomatch hmade'⟩

end Stuck

/-! ## Whole runs -/

/-- **The two call in turn, and the program ends unless one of them is
alone.**  In whatever order the steps are taken, no run goes on for ever, at
most one message is under way and the calls of `printf` come in turn; when
nothing can happen any more, the parent has come back from both calls of
`waitpid` exactly when both children could be made or neither could, and when
both could, they are gone and each has called five times. -/
theorem pingpong_ends (forkFails : Party → Bool) :
    (∀ run : Nat → System, run 0 = .initial →
      ¬ ∀ k, Step forkFails (run k) (run (k + 1))) ∧
    ∀ s, Runs (Step forkFails) .initial s →
      (s.pipe .ping).length + (s.pipe .pong).length ≤ 1 ∧
      s.printed <+: calls 10 ∧
      ((∀ s', ¬ Step forkFails s s') →
        (s.parent = .waiting 0 ↔ forkFails .ping = forkFails .pong) ∧
        (forkFails .ping = false → forkFails .pong = false →
          s.printed = calls 10 ∧ ∀ p, s.child p = .gone)) := by
  refine ⟨fun run hstart => ?_, fun s hruns => ?_⟩
  · have hlower : ∀ a b, Talking forkFails a → Step forkFails a b →
        Talking forkFails b ∧ weight b < weight a :=
      fun _ _ h hstep => ⟨h.step hstep, weight_step h hstep⟩
    exact Runs.no_infinite hlower run (hstart ▸ .initial forkFails)
  · have h := Talking.of_runs hruns
    obtain ⟨count, hprinted, hconversing⟩ := h.conversation
    refine ⟨hconversing.in_flight, ?_, fun hstuck => ?_⟩
    · rw [hprinted]
      exact calls_prefix hconversing.count_le
    · obtain ⟨count', hprinted', hends⟩ := h.ends hstuck
      have hok := h.parent
      cases hparent : s.parent with
      | forking p =>
          cases hfork : forkFails p with
          | true => exact absurd (.forkFails hparent hfork) (hstuck _)
          | false => exact absurd (.fork hparent hfork) (hstuck _)
      | waiting n =>
          rw [hparent] at hok
          have hnone : s.child .ping = .unborn → s.child .pong = .unborn →
              n = 0 := by
            intro hping hpong
            by_contra hn
            obtain ⟨k, rfl⟩ := Nat.exists_eq_succ_of_ne_zero hn
            refine hstuck _ (.noChild hparent fun p => Or.inl ?_)
            cases p with
            | ping => exact hping
            | pong => exact hpong
          obtain ⟨hwaits, hmade⟩ := hok.outcome hends hnone
          have hcalls : Parent.waiting n = .waiting 0 ↔ n = 0 := by
            rw [Parent.waiting.injEq]
          refine ⟨hcalls.trans hwaits, fun hf hf' => ?_⟩
          obtain ⟨rfl, hping, hpong⟩ := hmade hf hf'
          refine ⟨hprinted', fun p => ?_⟩
          cases p with
          | ping => exact hping
          | pong => exact hpong

end OsLabs.Lab2.PingPong
