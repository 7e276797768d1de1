import Mathlib.Tactic.Common

/-!
# Heap, C strings and pointer arrays

The part of the C abstract machine that the programs of this development
rest on, stated for arbitrary programs.

A C function is modelled as a function into `Except Fault`: the error side
collects what the language leaves undefined (a dereferenced null pointer, an
access outside an object, a read of an indeterminate value) together with
`outOfFuel`, which only says that the model of a loop was given too few
rounds.

The allocator is a *failure plan* `Nat → Bool` chosen by the environment:
the `n`-th request of a run is refused iff the plan says so.  Every granted
request is numbered by its position in the run, so block identities are
never reused, and a ledger records each grant and each release.
-/

namespace OsLabs.Posix

/-! ## Faults -/

/-- How a run of a C function can leave the defined behaviour. -/
inductive Fault where
  | nullDereference
  | outOfBounds
  | uninitialised
  | outOfFuel
  deriving Repr, DecidableEq

section Except

variable {ε α β : Type}

@[simp] theorem except_pure (a : α) : (pure a : Except ε α) = .ok a := rfl

@[simp] theorem except_throw (e : ε) : (throw e : Except ε α) = .error e := rfl

@[simp] theorem except_ok_bind (a : α) (f : α → Except ε β) :
    (Except.ok a >>= f) = f a := rfl

@[simp] theorem except_error_bind (e : ε) (f : α → Except ε β) :
    (Except.error e >>= f) = .error e := rfl

/-- A sequence succeeds exactly when both of its halves do. -/
theorem except_bind_eq_ok {x : Except ε α} {f : α → Except ε β} {b : β} :
    (x >>= f) = .ok b ↔ ∃ a, x = .ok a ∧ f a = .ok b := by
  cases x with
  | error e => simp
  | ok a => simp

/-- A sequence faults exactly when its first half does, or its second. -/
theorem except_bind_eq_error {x : Except ε α} {f : α → Except ε β} {e : ε} :
    (x >>= f) = .error e ↔ x = .error e ∨ ∃ a, x = .ok a ∧ f a = .error e := by
  cases x with
  | error e' => simp
  | ok a => simp

end Except

/-! ## The heap -/

/-- The environment's choice of which allocation requests it refuses. -/
abbrev FailurePlan := Nat → Bool

/-- The plan under which every request is granted. -/
def noFailures : FailurePlan := fun _ => false

@[simp] theorem noFailures_apply (n : Nat) : noFailures n = false := rfl

/-- An entry of the allocation ledger. -/
inductive HeapEvent where
  | alloc (block : Nat)
  | free (block : Nat)
  deriving Repr, DecidableEq

/-- The allocator's state: the number of requests made so far, and the
ledger of the run, newest entry first. -/
structure Heap where
  calls : Nat
  ledger : List HeapEvent
  deriving Repr, DecidableEq

/-- The heap of a process that has not allocated anything. -/
def Heap.empty : Heap := ⟨0, []⟩

/-- `malloc`: a fresh block, or `none` for a null pointer. -/
def Heap.malloc (fails : FailurePlan) (heap : Heap) : Option Nat × Heap :=
  if fails heap.calls then (none, { heap with calls := heap.calls + 1 })
  else (some heap.calls, ⟨heap.calls + 1, .alloc heap.calls :: heap.ledger⟩)

/-- `realloc` of a live block: the old block is given up only when the
request is granted. -/
def Heap.realloc (fails : FailurePlan) (block : Nat) (heap : Heap) :
    Option Nat × Heap :=
  if fails heap.calls then (none, { heap with calls := heap.calls + 1 })
  else (some heap.calls,
    ⟨heap.calls + 1, .alloc heap.calls :: .free block :: heap.ledger⟩)

/-- `free` of a block. -/
def Heap.free (block : Nat) (heap : Heap) : Heap :=
  { heap with ledger := .free block :: heap.ledger }

@[simp] theorem Heap.free_calls (block : Nat) (heap : Heap) :
    (heap.free block).calls = heap.calls := rfl

theorem Heap.malloc_granted {fails : FailurePlan} {heap : Heap}
    (h : fails heap.calls = false) :
    heap.malloc fails =
      (some heap.calls,
        ⟨heap.calls + 1, .alloc heap.calls :: heap.ledger⟩) := by
  simp [Heap.malloc, h]

theorem Heap.malloc_refused {fails : FailurePlan} {heap : Heap}
    (h : fails heap.calls = true) :
    heap.malloc fails = (none, { heap with calls := heap.calls + 1 }) := by
  simp [Heap.malloc, h]

/-- Every request advances the request counter, granted or not. -/
@[simp] theorem Heap.malloc_calls (fails : FailurePlan) (heap : Heap) :
    (heap.malloc fails).2.calls = heap.calls + 1 := by
  unfold Heap.malloc
  split <;> rfl

/-! ## Reading a list from a position -/

section Drop

variable {α : Type} {list rest : List α} {i : Nat} {a : α}

theorem getElem?_of_drop_cons (h : list.drop i = a :: rest) :
    list[i]? = some a := by
  have hdrop := congrArg (fun l => l[0]?) h
  simpa using hdrop

/-- Stepping over the first element of a suffix. -/
theorem drop_succ_of_drop_cons (h : list.drop i = a :: rest) :
    list.drop (i + 1) = rest := by
  rw [← List.drop_drop, h]
  rfl

end Drop

/-! ## The contents of a block -/

section Cells

variable {β : Type} {cells front rest : List (Option β)} {bytes : List β}
  {n i : Nat} {b : β}

/-- `n` cells fresh from the allocator. -/
def indeterminate (n : Nat) : List (Option β) := List.replicate n none

/-- What `realloc` to `n` cells leaves in the block. -/
def reallocCells (cells : List (Option β)) (n : Nat) : List (Option β) :=
  cells.take n ++ indeterminate (n - cells.length)

/-- A read from memory all of which is determinate. -/
def readAt (bytes : List β) (i : Nat) : Except Fault β :=
  match bytes[i]? with
  | some b => .ok b
  | none => .error .outOfBounds

/-- A read from a block. -/
def loadAt (cells : List (Option β)) (i : Nat) : Except Fault β :=
  match cells[i]? with
  | some (some b) => .ok b
  | some none => .error .uninitialised
  | none => .error .outOfBounds

/-- A write to a block. -/
def storeAt (cells : List (Option β)) (i : Nat) (b : β) :
    Except Fault (List (Option β)) :=
  if i < cells.length then .ok (cells.set i (some b))
  else .error .outOfBounds

@[simp] theorem reallocCells_length (cells : List (Option β)) (n : Nat) :
    (reallocCells cells n).length = n := by
  simp only [reallocCells, indeterminate, List.length_append, List.length_take,
    List.length_replicate]
  omega

theorem reallocCells_grow (h : cells.length ≤ n) :
    reallocCells cells n = cells ++ indeterminate (n - cells.length) := by
  rw [reallocCells, List.take_of_length_le h]

theorem readAt_eq (h : i < bytes.length) : readAt bytes i = .ok bytes[i] := by
  simp [readAt, List.getElem?_eq_getElem h]

/-- A write just behind a front of known length. -/
theorem storeAt_append {old : Option β} (h : front.length = i) :
    storeAt (front ++ old :: rest) i b = .ok (front ++ some b :: rest) := by
  subst h
  simp [storeAt]

/-- A read just behind a front of known length. -/
theorem loadAt_append (h : front.length = i) :
    loadAt (front ++ some b :: rest) i = .ok b := by
  subst h
  simp [loadAt]

end Cells

/-- A block of the heap with its contents. -/
structure Block (β : Type) where
  id : Nat
  cells : List (Option β)
  deriving Repr, DecidableEq

/-! ## C strings -/

/-- A C string: the bytes before the terminating NUL. -/
structure CString where
  bytes : List UInt8
  nulFree : (0 : UInt8) ∉ bytes
  deriving Repr, DecidableEq

/-- The memory image of a string, its terminator included. -/
def CString.image (s : CString) : List UInt8 := s.bytes ++ [0]

/-- `s[i]`: defined up to and including the terminator. -/
def CString.charAt (s : CString) (i : Nat) : Except Fault UInt8 :=
  match s.image[i]? with
  | some c => .ok c
  | none => .error .outOfBounds

theorem CString.charAt_of_drop {s : CString} {i : Nat} {c : UInt8}
    {rest : List UInt8} (h : s.bytes.drop i = c :: rest) :
    s.charAt i = .ok c := by
  have hget := getElem?_of_drop_cons h
  have hlt : i < s.bytes.length := (List.getElem?_eq_some_iff.mp hget).1
  simp [CString.charAt, CString.image, List.getElem?_append_left hlt, hget]

theorem CString.charAt_length (s : CString) :
    s.charAt s.bytes.length = .ok 0 := by
  simp [CString.charAt, CString.image]

theorem CString.charAt_le (s : CString) {i : Nat} (h : i ≤ s.bytes.length) :
    ∃ c, s.charAt i = .ok c ∧ (c ≠ 0 → i < s.bytes.length) := by
  cases hdrop : s.bytes.drop i with
  | nil =>
      have hend : i = s.bytes.length :=
        Nat.le_antisymm h (List.drop_eq_nil_iff.mp hdrop)
      subst hend
      exact ⟨0, s.charAt_length, fun hne => absurd rfl hne⟩
  | cons c rest =>
      have hget := getElem?_of_drop_cons hdrop
      exact ⟨c, charAt_of_drop hdrop, fun _ =>
        (List.getElem?_eq_some_iff.mp hget).1⟩

/-- The string that a block holds from its first cell on. -/
def takeString : List (Option UInt8) → Except Fault CString
  | [] => .error .outOfBounds
  | none :: _ => .error .uninitialised
  | some c :: rest =>
    if h : c = 0 then .ok ⟨[], List.not_mem_nil⟩
    else do
      let s ← takeString rest
      return ⟨c :: s.bytes, by
        simpa using ⟨fun heq => h heq.symm, s.nulFree⟩⟩

/-- The string that `block + i` points to. -/
def loadString (cells : List (Option UInt8)) (i : Nat) :
    Except Fault CString :=
  takeString (cells.drop i)

theorem takeString_append (s : CString) (rest : List (Option UInt8)) :
    takeString (s.bytes.map some ++ some 0 :: rest) = .ok s := by
  rcases s with ⟨bytes, hnul⟩
  induction bytes with
  | nil => rfl
  | cons c bytes ih =>
      have hc : c ≠ 0 := fun heq => hnul (heq ▸ List.mem_cons_self)
      have hrest := ih fun h => hnul (List.mem_cons_of_mem c h)
      simp only [List.map_cons, List.cons_append, takeString, dif_neg hc]
      simp only at hrest
      rw [hrest]
      rfl

theorem loadString_append {front : List (Option UInt8)} {i : Nat}
    (h : front.length = i) (s : CString) (rest : List (Option UInt8)) :
    loadString (front ++ s.bytes.map some ++ some 0 :: rest) i = .ok s := by
  unfold loadString
  rw [← h, List.append_assoc, List.drop_left, takeString_append]

/-! ## Null-terminated pointer arrays -/

/-- `array[i]` for an array of pointers that ends with a null pointer: the
slot after the last element holds `none`, and nothing may be read past it. -/
def pointerAt {α : Type} (array : List α) (i : Nat) : Except Fault (Option α) :=
  match (array.map some ++ [none])[i]? with
  | some p => .ok p
  | none => .error .outOfBounds

theorem pointerAt_eq {α : Type} {array : List α} {i : Nat}
    (h : i ≤ array.length) : pointerAt array i = .ok array[i]? := by
  cases Nat.lt_or_eq_of_le h with
  | inl hlt =>
      have hlt' : i < (array.map some).length := by
        rw [List.length_map]
        exact hlt
      simp [pointerAt, List.getElem?_append_left hlt', hlt]
  | inr heq => simp [pointerAt, heq]

/-- A read that does not fault is within the array. -/
theorem getElem?_of_pointerAt {α : Type} {array : List α} {i : Nat}
    {p : Option α} (h : pointerAt array i = .ok p) : array[i]? = p := by
  by_cases hle : i ≤ array.length
  · rw [pointerAt_eq hle] at h
    exact Except.ok.inj h
  · have hbeyond : (array.map some ++ [none]).length ≤ i := by
      rw [List.length_append, List.length_map, List.length_singleton]
      omega
    rw [pointerAt, List.getElem?_eq_none hbeyond] at h
    cases h

/-- `suffix` is what an array holds from position `i` on, the null pointer
excluded. -/
structure Ahead {α : Type} (array : List α) (i : Nat) (suffix : List α) :
    Prop where
  le : i ≤ array.length
  drop_eq : array.drop i = suffix

section Ahead

variable {α : Type} {array suffix front : List α} {i : Nat} {a : α}

theorem Ahead.start (array : List α) : Ahead array 0 array :=
  ⟨Nat.zero_le _, rfl⟩

theorem Ahead.pointerAt_cons (h : Ahead array i (a :: suffix)) :
    pointerAt array i = .ok (some a) := by
  have hget := getElem?_of_drop_cons h.drop_eq
  have hlt : i < (array.map some).length := by
    simpa using (List.getElem?_eq_some_iff.mp hget).1
  simp [pointerAt, List.getElem?_append_left hlt, hget]

theorem Ahead.pointerAt_nil (h : Ahead array i []) :
    pointerAt array i = .ok none := by
  have hge : array.length ≤ i := List.drop_eq_nil_iff.mp h.drop_eq
  have heq : i = array.length := Nat.le_antisymm h.le hge
  simp [pointerAt, heq]

/-- What is read at a position lies ahead of it. -/
theorem Ahead.exists_cons (h : Ahead array i suffix)
    (hread : pointerAt array i = .ok (some a)) :
    ∃ rest, suffix = a :: rest := by
  cases suffix with
  | nil =>
      rw [h.pointerAt_nil] at hread
      cases hread
  | cons b rest =>
      rw [h.pointerAt_cons] at hread
      cases hread
      exact ⟨rest, rfl⟩

theorem Ahead.length_eq (h : Ahead array i suffix) :
    i + suffix.length = array.length := by
  have hlen := congrArg List.length h.drop_eq
  have := h.le
  simp only [List.length_drop] at hlen
  omega

/-- What lies ahead determines the position. -/
theorem Ahead.index_eq (h : Ahead array i suffix) :
    i = array.length - suffix.length := by
  have := h.length_eq
  omega

theorem Ahead.skip (h : Ahead array i (front ++ suffix)) :
    Ahead array (i + front.length) suffix := by
  have hlen := h.length_eq
  refine ⟨by simp only [List.length_append] at hlen; omega, ?_⟩
  rw [← List.drop_drop, h.drop_eq, List.drop_left]

/-- A suffix of what lies ahead lies ahead of a later position. -/
theorem Ahead.of_suffix (h : Ahead array i front) (hs : suffix <:+ front) :
    Ahead array (array.length - suffix.length) suffix := by
  obtain ⟨before, rfl⟩ := hs
  have hskip := h.skip
  rw [← hskip.index_eq]
  exact hskip

theorem Ahead.next (h : Ahead array i (a :: suffix)) :
    Ahead array (i + 1) suffix := by
  have hfront : Ahead array i ([a] ++ suffix) := h
  exact hfront.skip

end Ahead

end OsLabs.Posix
