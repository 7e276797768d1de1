import OsLabs.Posix.PointerArray

/-!
# The pointer array of the first lab

`DynamicArray.h` and `DynamicArray.c`.  `capacity` counts elements, and
`DYNARR_resizeArr` hands it to `realloc` as a number of bytes: a block that
has grown holds an eighth of what `capacity` says.  `keepsPointers_iff` says
for which runs of `DYNARR_addElem` this does not show.
-/

namespace OsLabs.Lab1.DYNARR

open OsLabs.Posix

variable {π σ : Type}

/-! ## The source -/

/-- `DYNARR_INITSIZE` -/
def initSize : Nat := 16

/-- `DynamicArray`, with the block of the header.  `elems` is `none` where the
source holds a null pointer; the destructor acts on a state of type `σ`. -/
structure DynamicArray (π σ : Type) where
  block : Nat
  elems : Option (Block (PointerByte π))
  size : Nat
  capacity : Nat
  elemDestructorFunc : Option π → σ → σ

/-- `DYNARR_makeNewArray`.  The header is written to without a check. -/
def makeNewArray (fails : FailurePlan) (elemSize : Nat)
    (elemDestructorFunc : Option π → σ → σ) (heap : Heap) :
    Except Fault (DynamicArray π σ × Heap) :=
  match heap.malloc fails with
  | (none, _) => .error .nullDereference
  | (some block, heap) =>
    match heap.malloc fails with
    | (none, heap) => .ok (⟨block, none, 0, initSize, elemDestructorFunc⟩, heap)
    | (some id, heap) =>
      .ok (⟨block, some ⟨id, indeterminate (initSize * elemSize)⟩, 0, initSize,
        elemDestructorFunc⟩, heap)

/-- `arr->elemDestructorFunc(arr->elems[i])` -/
def destroyElem [DecidableEq π] (arr : DynamicArray π σ) (s : σ) (i : Nat) :
    Except Fault σ :=
  match arr.elems with
  | none => throw .nullDereference
  | some elems => do
    let elem ← loadPointer elems.cells i
    return arr.elemDestructorFunc elem s

/-- `DYNARR_destroyArray`. -/
def destroyArray [DecidableEq π] (arr : DynamicArray π σ) (s : σ)
    (heap : Heap) : Except Fault (σ × Heap) := do
  let s ← (List.range arr.size).foldlM (destroyElem arr) s
  let heap := match arr.elems with
    | none => heap
    | some elems => heap.free elems.id
  return (s, heap.free arr.block)

/-- `DYNARR_resizeArr`.  `realloc` of a null pointer is `malloc`. -/
def resizeArr (fails : FailurePlan) (arr : DynamicArray π σ)
    (newCapacity : Nat) (heap : Heap) : DynamicArray π σ × Heap :=
  match arr.elems with
  | none =>
    match heap.malloc fails with
    | (none, heap) => (arr, heap)
    | (some tempPtr, heap) =>
      ({ arr with
        elems := some ⟨tempPtr, indeterminate newCapacity⟩
        capacity := newCapacity }, heap)
  | some elems =>
    match heap.realloc fails elems.id with
    | (none, heap) => (arr, heap)
    | (some tempPtr, heap) =>
      ({ arr with
        elems := some ⟨tempPtr, reallocCells elems.cells newCapacity⟩
        capacity := newCapacity }, heap)

/-- `DYNARR_addElem`. -/
def addElem (fails : FailurePlan) (arr : DynamicArray π σ) (elem : Option π)
    (heap : Heap) : Except Fault (DynamicArray π σ × Heap) := do
  let (arr, heap) :=
    if arr.size = arr.capacity then resizeArr fails arr (2 * arr.size) heap
    else (arr, heap)
  match arr.elems with
  | none => throw .nullDereference
  | some elems =>
    let cells ← storePointer elems.cells arr.size elem
    return ({ arr with
      elems := some { elems with cells := cells }
      size := arr.size + 1 }, heap)

/-- A run of `DYNARR_addElem` calls. -/
def addElems (fails : FailurePlan) (pointers : List (Option π))
    (arr : DynamicArray π σ) (heap : Heap) :
    Except Fault (DynamicArray π σ × Heap) :=
  pointers.foldlM (fun s elem => addElem fails s.1 elem s.2) (arr, heap)

/-! ## Arrays that have not grown -/

section Holds

variable {arr : DynamicArray π σ} {pointers : List (Option π)}

/-- The array holds these pointers, in a block as large as its capacity. -/
structure Holds (arr : DynamicArray π σ) (pointers : List (Option π)) :
    Prop where
  size : arr.size = pointers.length
  fits : pointers.length ≤ arr.capacity
  stored : ∃ id spare, arr.elems = some ⟨id, pointersBytes pointers ++ spare⟩ ∧
    pointers.length * pointerSize + spare.length = arr.capacity * pointerSize

/-- An addition to an array that is not full. -/
theorem Holds.addElem (h : Holds arr pointers)
    (hroom : pointers.length < arr.capacity) (fails : FailurePlan)
    (elem : Option π) (heap : Heap) :
    ∃ arr', addElem fails arr elem heap = .ok (arr', heap) ∧
      Holds arr' (pointers ++ [elem]) ∧ arr'.capacity = arr.capacity ∧
      arr'.elemDestructorFunc = arr.elemDestructorFunc := by
  obtain ⟨id, spare, helems, hlength⟩ := h.stored
  have hsize := h.size
  have hspare : pointerSize ≤ spare.length := by
    have hnext : (pointers.length + 1) * pointerSize ≤
        arr.capacity * pointerSize := Nat.mul_le_mul_right _ hroom
    rw [Nat.succ_mul] at hnext
    omega
  have hstore := storePointer_pointersBytes pointers elem hspare
  refine ⟨{ arr with
    elems := some ⟨id, pointersBytes (pointers ++ [elem]) ++
      spare.drop pointerSize⟩
    size := arr.size + 1 }, ?_, ⟨?_, ?_, id, _, rfl, ?_⟩, rfl, rfl⟩
  · unfold DYNARR.addElem
    rw [if_neg (by omega)]
    simp only [helems, hsize, hstore, except_ok_bind, except_pure]
  · show arr.size + 1 = _
    rw [hsize, List.length_append, List.length_singleton]
  · rw [List.length_append, List.length_singleton]
    exact hroom
  · rw [List.length_append, List.length_singleton, List.length_drop,
      Nat.succ_mul]
    show _ = arr.capacity * pointerSize
    omega

/-- **An addition to a full array writes outside its block**: the new block
has two bytes for each element. -/
theorem Holds.addElem_full (h : Holds arr pointers)
    (hfull : pointers.length = arr.capacity) (elem : Option π) (heap : Heap) :
    DYNARR.addElem noFailures arr elem heap = .error .outOfBounds := by
  obtain ⟨id, spare, helems, -⟩ := h.stored
  have hsize : arr.size = arr.capacity := h.size.trans hfull
  have hresize : resizeArr noFailures arr (2 * arr.size) heap =
      ({ arr with
        elems := some ⟨heap.calls,
          reallocCells (pointersBytes pointers ++ spare) (2 * arr.size)⟩
        capacity := 2 * arr.size },
      ⟨heap.calls + 1, .alloc heap.calls :: .free id :: heap.ledger⟩) := by
    unfold resizeArr
    rw [helems]
    rfl
  have hbehind : ¬ (arr.size + 1) * pointerSize ≤ 2 * arr.size := by
    unfold pointerSize
    omega
  unfold DYNARR.addElem
  rw [if_pos hsize, hresize]
  simp only [storePointer, reallocCells_length, if_neg hbehind,
    except_error_bind]

/-- Additions that the first block has room for. -/
theorem Holds.addElems (h : Holds arr pointers) (fails : FailurePlan)
    (more : List (Option π))
    (hroom : pointers.length + more.length ≤ arr.capacity) (heap : Heap) :
    ∃ arr', addElems fails more arr heap = .ok (arr', heap) ∧
      Holds arr' (pointers ++ more) ∧ arr'.capacity = arr.capacity ∧
      arr'.elemDestructorFunc = arr.elemDestructorFunc := by
  induction more generalizing arr pointers with
  | nil =>
      refine ⟨arr, rfl, ?_, rfl, rfl⟩
      rw [List.append_nil]
      exact h
  | cons elem more ih =>
      rw [List.length_cons] at hroom
      obtain ⟨arr₁, hadd, h₁, hcapacity₁, hdestructor₁⟩ :=
        h.addElem (by omega) fails elem heap
      obtain ⟨arr', hrest, h', hcapacity', hdestructor'⟩ := ih h₁ (by
        rw [List.length_append, List.length_singleton]
        omega)
      refine ⟨arr', ?_, ?_, hcapacity'.trans hcapacity₁,
        hdestructor'.trans hdestructor₁⟩
      · unfold DYNARR.addElems
        rw [List.foldlM_cons, hadd]
        exact hrest
      · rw [List.append_assoc] at h'
        exact h'

variable [DecidableEq π]

theorem Holds.loadPointer (h : Holds arr pointers) :
    ∃ elems, arr.elems = some elems ∧ ∀ i elem, pointers[i]? = some elem →
      loadPointer elems.cells i = .ok elem := by
  obtain ⟨id, spare, helems, -⟩ := h.stored
  refine ⟨_, helems, fun i elem hget => ?_⟩
  obtain ⟨hlt, rfl⟩ := List.getElem?_eq_some_iff.mp hget
  have hload := loadPointer_pointersBytes (pointers.take i)
    (pointers.drop (i + 1)) pointers[i] spare
  rw [← List.drop_eq_getElem_cons hlt, List.take_append_drop,
    List.length_take_of_le (Nat.le_of_lt hlt)] at hload
  exact hload

/-- The destructor is handed every pointer once, in order. -/
theorem Holds.destroyElems (h : Holds arr pointers) (s : σ) :
    (List.range arr.size).foldlM (destroyElem arr) s =
      .ok (pointers.foldl (fun s elem => arr.elemDestructorFunc elem s) s) := by
  obtain ⟨elems, helems, hload⟩ := h.loadPointer
  have hloop : ∀ n ≤ pointers.length,
      (List.range n).foldlM (destroyElem arr) s =
        .ok ((pointers.take n).foldl
          (fun s elem => arr.elemDestructorFunc elem s) s) := by
    intro n hn
    induction n with
    | zero => rfl
    | succ n ih =>
        have hget : pointers[n]? = some pointers[n] :=
          List.getElem?_eq_getElem hn
        have helem : ∀ s, destroyElem arr s n =
            .ok (arr.elemDestructorFunc pointers[n] s) := by
          intro s
          unfold destroyElem
          simp only [helems, hload n _ hget, except_ok_bind, except_pure]
        rw [List.range_succ, List.foldlM_append, ih (Nat.le_of_succ_le hn),
          List.take_add_one, hget, List.foldl_append, except_ok_bind,
          List.foldlM_cons, helem]
        rfl
  rw [h.size, hloop _ (Nat.le_refl _), List.take_length]

end Holds

/-! ## Whole runs -/

section Runs

theorem makeNewArray_holds (elemDestructorFunc : Option π → σ → σ)
    (heap : Heap) :
    ∃ arr heap', makeNewArray noFailures pointerSize elemDestructorFunc heap =
        .ok (arr, heap') ∧
      Holds arr [] ∧ arr.capacity = initSize ∧
      arr.elemDestructorFunc = elemDestructorFunc := by
  refine ⟨_, _, rfl, ⟨rfl, Nat.zero_le _, _,
    indeterminate (initSize * pointerSize), rfl, ?_⟩, rfl, rfl⟩
  rw [List.length_nil, Nat.zero_mul, Nat.zero_add]
  exact List.length_replicate

/-- The seventeenth addition is the first to a full array. -/
theorem addElems_overflow (first : List (Option π)) (elem : Option π)
    (hfirst : first.length = initSize) (rest : List (Option π))
    {new : DynamicArray π σ} (hnew : Holds new [])
    (hcapacity : new.capacity = initSize) (heap : Heap) :
    addElems noFailures (first ++ elem :: rest) new heap =
      .error .outOfBounds := by
  obtain ⟨arr, hadd, hholds, hcapacity', -⟩ :=
    hnew.addElems noFailures first (by simp [hfirst, hcapacity]) heap
  rw [List.nil_append] at hholds
  have hfull : first.length = arr.capacity := by
    rw [hfirst, hcapacity', hcapacity]
  unfold addElems at hadd ⊢
  rw [List.foldlM_append, hadd, except_ok_bind, List.foldlM_cons,
    hholds.addElem_full hfull]
  rfl

variable [DecidableEq π] {pointers : List (Option π)}
  {elemDestructorFunc : Option π → σ → σ}

/-- What a run of additions to a new array should leave: a block with room for
the capacity of the array, the pointers in it in order, and a destruction that
hands each of them to the destructor once. -/
def KeepsPointers (elemDestructorFunc : Option π → σ → σ)
    (pointers : List (Option π)) (heap₀ : Heap) : Prop :=
  ∃ new heap₁ arr heap elems,
    makeNewArray noFailures pointerSize elemDestructorFunc heap₀ =
      .ok (new, heap₁) ∧
    addElems noFailures pointers new heap₁ = .ok (arr, heap) ∧
    arr.elems = some elems ∧
    arr.capacity * pointerSize ≤ elems.cells.length ∧
    arr.size = pointers.length ∧ arr.size ≤ arr.capacity ∧
    (∀ i elem, pointers[i]? = some elem →
      loadPointer elems.cells i = .ok elem) ∧
    ∀ s, ∃ heap', destroyArray arr s heap =
      .ok (pointers.foldl (fun s elem => elemDestructorFunc elem s) s, heap')

theorem keepsPointers_of_le (h : pointers.length ≤ initSize) (heap₀ : Heap) :
    KeepsPointers elemDestructorFunc pointers heap₀ := by
  obtain ⟨new, heap₁, hnew, hempty, hcapacity, hdestructor⟩ :=
    makeNewArray_holds elemDestructorFunc heap₀
  obtain ⟨arr, hadd, hholds, hcapacity', hdestructor'⟩ :=
    hempty.addElems noFailures pointers (by simpa [hcapacity] using h) heap₁
  rw [List.nil_append] at hholds
  obtain ⟨elems, helems, hload⟩ := hholds.loadPointer
  obtain ⟨id, spare, hstored, hlength⟩ := hholds.stored
  refine ⟨new, heap₁, arr, heap₁, elems, hnew, hadd, helems, ?_, hholds.size,
    ?_, hload, fun s => ⟨(heap₁.free elems.id).free arr.block, ?_⟩⟩
  · rw [helems] at hstored
    cases hstored
    rw [List.length_append, pointersBytes_length]
    exact Nat.le_of_eq hlength.symm
  · rw [hholds.size]
    exact hholds.fits
  · unfold destroyArray
    rw [hholds.destroyElems, hdestructor', hdestructor, helems]
    rfl

/-- **Exactly when the array keeps what is added to it.**  After every
addition of a run the block is as large as the capacity says and holds the
pointers added so far, all to be handed to the destructor, if and only if the
run has at most 16 additions. -/
theorem keepsPointers_iff (elemDestructorFunc : Option π → σ → σ)
    (pointers : List (Option π)) (heap₀ : Heap) :
    (∀ front, front <+: pointers →
      KeepsPointers elemDestructorFunc front heap₀) ↔
      pointers.length ≤ initSize := by
  constructor
  · intro hkeeps
    rcases Nat.lt_or_ge initSize pointers.length with hlong | hshort
    · obtain ⟨new, heap₁, arr, heap, elems, hnew, hadd, -⟩ :=
        hkeeps pointers List.prefix_rfl
      obtain ⟨new', heap', hnew', hempty, hcapacity, -⟩ :=
        makeNewArray_holds elemDestructorFunc heap₀
      rw [hnew] at hnew'
      cases hnew'
      have hoverflow := addElems_overflow (pointers.take initSize)
        pointers[initSize] (List.length_take_of_le (Nat.le_of_lt hlong))
        (pointers.drop (initSize + 1)) hempty hcapacity heap₁
      rw [← List.drop_eq_getElem_cons hlong, List.take_append_drop]
        at hoverflow
      rw [hoverflow] at hadd
      cases hadd
    · exact hshort
  · intro hshort front hfront
    exact keepsPointers_of_le (Nat.le_trans hfront.length_le hshort) heap₀

/-- Seventeen additions leave the block. -/
theorem addElems_seventeen : ∃ new heap,
    makeNewArray noFailures pointerSize
        (fun elem log => log ++ [elem] :
          Option Nat → List (Option Nat) → List (Option Nat)) Heap.empty =
      .ok (new, heap) ∧
    addElems noFailures (List.replicate 17 (some 0)) new heap =
      .error .outOfBounds := by
  obtain ⟨new, heap, hnew, hempty, hcapacity, -⟩ :=
    makeNewArray_holds (fun elem log => log ++ [elem] :
      Option Nat → List (Option Nat) → List (Option Nat)) Heap.empty
  exact ⟨new, heap, hnew, addElems_overflow (List.replicate 16 (some 0))
    (some 0) rfl [] hempty hcapacity heap⟩

end Runs

end OsLabs.Lab1.DYNARR
