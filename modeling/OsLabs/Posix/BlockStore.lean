import Mathlib.Logic.Function.Basic
import OsLabs.Posix.Memory

/-!
# Blocks with their contents

The heap together with what its blocks hold, for programs in which several
objects live side by side: a block is found under its number, and an access to
one block is seen to leave the others alone.  A number that the allocator has
not given out, or that has been freed, refers to nothing.
-/

namespace OsLabs.Posix

/-- The allocator's state, and the live blocks with their cells. -/
structure BlockStore (β : Type) where
  heap : Heap
  blocks : Nat → Option (List (Option β))

namespace BlockStore

variable {β : Type}

/-! ## Calls and accesses -/

/-- `malloc` of `n` cells. -/
def malloc (fails : FailurePlan) (n : Nat) (m : BlockStore β) :
    Option Nat × BlockStore β :=
  match m.heap.malloc fails with
  | (none, heap) => (none, { m with heap := heap })
  | (some id, heap) =>
    (some id, ⟨heap, Function.update m.blocks id (some (indeterminate n))⟩)

/-- `realloc` of a block to `n` cells. -/
def realloc (fails : FailurePlan) (id n : Nat) (m : BlockStore β) :
    Except Fault (Option Nat × BlockStore β) :=
  match m.blocks id with
  | none => .error .outOfBounds
  | some cells =>
    match m.heap.realloc fails id with
    | (none, heap) => .ok (none, { m with heap := heap })
    | (some id', heap) =>
      .ok (some id', ⟨heap, Function.update (Function.update m.blocks id none)
        id' (some (reallocCells cells n))⟩)

/-- `free` -/
def free (id : Nat) (m : BlockStore β) : BlockStore β :=
  ⟨m.heap.free id, Function.update m.blocks id none⟩

/-- A read from block `id`. -/
def load (m : BlockStore β) (id i : Nat) : Except Fault β :=
  match m.blocks id with
  | none => .error .outOfBounds
  | some cells => loadAt cells i

/-- A write to block `id`. -/
def store (m : BlockStore β) (id i : Nat) (b : β) :
    Except Fault (BlockStore β) :=
  match m.blocks id with
  | none => .error .outOfBounds
  | some cells => do
    let cells ← storeAt cells i b
    return { m with blocks := Function.update m.blocks id (some cells) }

/-! ## What they do -/

section

variable {fails : FailurePlan} {m : BlockStore β} {id i n : Nat}
  {cells front rest : List (Option β)} {old : Option β} {b : β}

theorem malloc_granted (h : fails m.heap.calls = false) :
    m.malloc fails n = (some m.heap.calls,
      ⟨⟨m.heap.calls + 1, .alloc m.heap.calls :: m.heap.ledger⟩,
        Function.update m.blocks m.heap.calls (some (indeterminate n))⟩) := by
  rw [malloc, Heap.malloc_granted h]

theorem realloc_granted (hblock : m.blocks id = some cells)
    (h : fails m.heap.calls = false) :
    m.realloc fails id n = .ok (some m.heap.calls,
      ⟨⟨m.heap.calls + 1,
          .alloc m.heap.calls :: .free id :: m.heap.ledger⟩,
        Function.update (Function.update m.blocks id none) m.heap.calls
          (some (reallocCells cells n))⟩) := by
  rw [realloc, hblock, Heap.realloc, if_neg (by simp [h])]

theorem realloc_refused (hblock : m.blocks id = some cells)
    (h : fails m.heap.calls = true) :
    m.realloc fails id n =
      .ok (none, { m with
        heap := { m.heap with calls := m.heap.calls + 1 } }) := by
  rw [realloc, hblock, Heap.realloc, if_pos h]

/-- A read just behind a front of known length. -/
theorem load_append (hblock : m.blocks id = some (front ++ some b :: rest))
    (h : front.length = i) : m.load id i = .ok b := by
  rw [load, hblock]
  exact loadAt_append h

/-- A write just behind a front of known length. -/
theorem store_append (hblock : m.blocks id = some (front ++ old :: rest))
    (h : front.length = i) :
    m.store id i b = .ok { m with
      blocks := Function.update m.blocks id
        (some (front ++ some b :: rest)) } := by
  rw [store, hblock]
  simp only [storeAt_append h, except_ok_bind]
  rfl

end

end BlockStore

end OsLabs.Posix
