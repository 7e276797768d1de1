import OsLabs.Posix.BlockStore
import OsLabs.Posix.PointerArray

/-!
# The first dynamic array of the second lab

`DynamicArray.c` of the directory `depricated`: arrays of pointers, so a block
is a list of pointers, and `capacity` counts them.

The loop of `DYNARR_concatArrs` never moves on from the first element, so it
ends with the allocator only: `concatArrs_sound_iff`.
-/

namespace OsLabs.Lab2.DYNARR

open OsLabs.Posix

/-! ## The source -/

/-- `DYNARR_INITSIZE` -/
def initSize : Nat := 16

/-- `DynamicArray`, with the block of the header. -/
structure DynamicArray (δ : Type) where
  block : Nat
  elems : Nat
  size : Nat
  capacity : Nat
  elemDestructorFunc : δ
  deriving Repr, DecidableEq

section

variable {π δ : Type} (fails : FailurePlan)

/-- `DYNARR_makeNewArray`: the array, or `none` for a null pointer. -/
def makeNewArray (elemSize : Nat) (elemDestructorFunc : δ)
    (m : BlockStore (Option π)) :
    Option (DynamicArray δ) × BlockStore (Option π) :=
  match m.malloc fails 0 with
  | (none, m) => (none, m)
  | (some block, m) =>
    match m.malloc fails (initSize * elemSize / pointerSize) with
    | (none, m) => (none, m.free block)
    | (some elems, m) =>
      (some ⟨block, elems, 0, initSize, elemDestructorFunc⟩, m)

/-- `DYNARR_resizeArr` -/
def resizeArr (arr : DynamicArray δ) (newCapacity : Nat)
    (m : BlockStore (Option π)) :
    Except Fault (Int × DynamicArray δ × BlockStore (Option π)) := do
  match ← m.realloc fails arr.elems newCapacity with
  | (none, m) => return (-1, arr, m)
  | (some tempPtr, m) =>
    return (0, { arr with elems := tempPtr, capacity := newCapacity }, m)

/-- The end of `DYNARR_addElem`. -/
def storeElem (arr : DynamicArray δ) (elem : Option π)
    (m : BlockStore (Option π)) :
    Except Fault (Int × DynamicArray δ × BlockStore (Option π)) := do
  let m ← m.store arr.elems arr.size elem
  return (0, { arr with size := arr.size + 1 }, m)

/-- `DYNARR_addElem` -/
def addElem (arr : DynamicArray δ) (elem : Option π)
    (m : BlockStore (Option π)) :
    Except Fault (Int × DynamicArray δ × BlockStore (Option π)) :=
  if arr.size = arr.capacity then do
    let (status, arr, m) ← resizeArr fails arr (2 * arr.size) m
    if status < 0 then return (-1, arr, m)
    else storeElem arr elem m
  else storeElem arr elem m

/-- The loop of `DYNARR_concatArrs`.  It does not change `i`. -/
def concatLoop (arr1SizeBackup arr1CapacityBackup i : Nat)
    (arr2 : DynamicArray δ) : Nat → DynamicArray δ → BlockStore (Option π) →
    Except Fault (Int × DynamicArray δ × BlockStore (Option π))
  | 0, _, _ => .error .outOfFuel
  | fuel + 1, arr1, m =>
    if i < arr2.size then do
      let element ← m.load arr2.elems i
      let (status, arr1, m) ← addElem fails arr1 element m
      if status < 0 then do
        let (_, arr1, m) ← resizeArr fails arr1 arr1CapacityBackup m
        return (-1, { arr1 with size := arr1SizeBackup }, m)
      else concatLoop arr1SizeBackup arr1CapacityBackup i arr2 fuel arr1 m
    else return (0, arr1, m)

/-- `DYNARR_concatArrs`, with `fuel` rounds of its loop. -/
def concatArrs (fuel : Nat) (arr1 arr2 : DynamicArray δ)
    (m : BlockStore (Option π)) :
    Except Fault (Int × DynamicArray δ × BlockStore (Option π)) :=
  concatLoop fails arr1.size arr1.capacity 0 arr2 fuel arr1 m

end

/-! ## Arrays with their pointers -/

section Holds

variable {π δ : Type} {fails : FailurePlan} {arr : DynamicArray δ}
  {m m' : BlockStore (Option π)} {pointers : List (Option π)}
  {elem : Option π}

/-- The array holds these pointers, in a block as large as its capacity. -/
structure Holds (m : BlockStore (Option π)) (arr : DynamicArray δ)
    (pointers : List (Option π)) : Prop where
  size : arr.size = pointers.length
  pos : 0 < arr.capacity
  old : arr.elems < m.heap.calls
  stored : ∃ spare,
    m.blocks arr.elems = some (pointers.map some ++ spare) ∧
      pointers.length + spare.length = arr.capacity

theorem Holds.fits (h : Holds m arr pointers) :
    pointers.length ≤ arr.capacity := by
  obtain ⟨spare, -, hlength⟩ := h.stored
  omega

/-- A new array of pointers. -/
theorem makeNewArray_holds {elemDestructorFunc : δ}
    (h : makeNewArray fails pointerSize elemDestructorFunc m =
      (some arr, m')) : Holds m' arr [] := by
  unfold makeNewArray at h
  cases hfirst : fails m.heap.calls with
  | true =>
      rw [BlockStore.malloc, Heap.malloc_refused hfirst] at h
      cases h
  | false =>
      rw [BlockStore.malloc_granted hfirst] at h
      simp only at h
      generalize hm₁ : (⟨_, _⟩ : BlockStore (Option π)) = m₁ at h
      cases hsecond : fails m₁.heap.calls with
      | true =>
          rw [BlockStore.malloc, Heap.malloc_refused hsecond] at h
          cases h
      | false =>
          rw [BlockStore.malloc_granted hsecond] at h
          cases h
          refine ⟨rfl, Nat.succ_pos _, Nat.lt_succ_self _,
            indeterminate (initSize * pointerSize / pointerSize), ?_, ?_⟩
          · exact Function.update_self ..
          · simp [indeterminate, initSize, pointerSize]

/-- The elements in front stay where they are. -/
theorem Holds.shrink {kept : List (Option π)} (h : Holds m arr pointers)
    (hkept : kept <+: pointers) :
    Holds m { arr with size := kept.length } kept := by
  obtain ⟨spare, hblock, hlength⟩ := h.stored
  obtain ⟨dropped, rfl⟩ := hkept
  refine ⟨rfl, h.pos, h.old, dropped.map some ++ spare, ?_, ?_⟩
  · show m.blocks arr.elems = _
    rw [hblock, List.map_append, List.append_assoc]
  · show kept.length + (dropped.map some ++ spare).length = arr.capacity
    rw [List.length_append, List.length_map]
    rw [List.length_append] at hlength
    omega

/-- Cells in front of a block survive a `realloc` to at least as many. -/
theorem reallocCells_keeps {kept : List (Option π)} {n : Nat}
    (spare : List (Option (Option π))) (h : kept.length ≤ n) :
    ∃ spare', reallocCells (kept.map some ++ spare) n =
        kept.map some ++ spare' ∧ kept.length + spare'.length = n := by
  have hlength := reallocCells_length (kept.map some ++ spare) n
  have htake : (kept.map some).take n = kept.map some :=
    List.take_of_length_le (by rw [List.length_map]; exact h)
  refine ⟨spare.take (n - (kept.map some).length) ++
    indeterminate (n - (kept.map some ++ spare).length), ?_, ?_⟩
  · rw [reallocCells, List.take_append, htake, List.append_assoc]
  · rw [reallocCells, List.take_append, htake, List.append_assoc,
      List.length_append] at hlength
    rw [List.length_map] at hlength ⊢
    exact hlength

/-- Two arrays in separate blocks. -/
structure Beside (m : BlockStore (Option π)) (arr1 : DynamicArray δ)
    (pointers1 : List (Option π)) (arr2 : DynamicArray δ)
    (pointers2 : List (Option π)) : Prop where
  first : Holds m arr1 pointers1
  second : Holds m arr2 pointers2
  ne : arr1.elems ≠ arr2.elems

section Two

variable {arr1 arr2 : DynamicArray δ}
  {pointers1 pointers2 kept : List (Option π)}

theorem resizeArr_refused (h : Beside m arr1 pointers1 arr2 pointers2)
    (newCapacity : Nat) (hrefused : fails m.heap.calls = true) :
    ∃ m', resizeArr fails arr1 newCapacity m = .ok (-1, arr1, m') ∧
      Beside m' arr1 pointers1 arr2 pointers2 ∧
      m'.heap.calls = m.heap.calls + 1 := by
  obtain ⟨spare, hblock, hlength⟩ := h.first.stored
  refine ⟨{ m with heap := { m.heap with calls := m.heap.calls + 1 } }, ?_,
    ⟨?_, ?_, h.ne⟩, rfl⟩
  · rw [resizeArr, BlockStore.realloc_refused hblock hrefused]
    rfl
  · exact ⟨h.first.size, h.first.pos, Nat.lt_succ_of_lt h.first.old,
      h.first.stored⟩
  · exact ⟨h.second.size, h.second.pos, Nat.lt_succ_of_lt h.second.old,
      h.second.stored⟩

/-- A granted resize keeps the elements that the new capacity has room for. -/
theorem resizeArr_granted (h : Beside m arr1 pointers1 arr2 pointers2)
    (newCapacity : Nat) (hgranted : fails m.heap.calls = false)
    (hpos : 0 < newCapacity) (hkept : kept <+: pointers1)
    (hroom : kept.length ≤ newCapacity) :
    ∃ m', resizeArr fails arr1 newCapacity m =
        .ok (0, { arr1 with elems := m.heap.calls, capacity := newCapacity },
          m') ∧
      Beside m' { arr1 with
        elems := m.heap.calls
        size := kept.length
        capacity := newCapacity } kept arr2 pointers2 ∧
      m'.heap.calls = m.heap.calls + 1 := by
  obtain ⟨spare, hblock, -⟩ := (h.first.shrink hkept).stored
  obtain ⟨spare₂, hblock₂, hlength₂⟩ := h.second.stored
  have hold₂ := h.second.old
  obtain ⟨spare', hcells, hlength⟩ := reallocCells_keeps spare hroom
  have hrealloc := BlockStore.realloc_granted (n := newCapacity) hblock
    hgranted
  rw [hcells] at hrealloc
  have hfirst : Function.update (Function.update m.blocks arr1.elems none)
      m.heap.calls (some (kept.map some ++ spare')) m.heap.calls =
        some (kept.map some ++ spare') := Function.update_self ..
  have hsecond : Function.update (Function.update m.blocks arr1.elems none)
      m.heap.calls (some (kept.map some ++ spare')) arr2.elems =
        some (pointers2.map some ++ spare₂) := by
    rw [Function.update_of_ne (Nat.ne_of_lt hold₂),
      Function.update_of_ne (Ne.symm h.ne), hblock₂]
  refine ⟨⟨⟨m.heap.calls + 1, .alloc m.heap.calls :: .free arr1.elems ::
      m.heap.ledger⟩, Function.update (Function.update m.blocks arr1.elems none)
        m.heap.calls (some (kept.map some ++ spare'))⟩, ?_,
    ⟨⟨rfl, hpos, Nat.lt_succ_self _, spare', hfirst, hlength⟩,
      ⟨h.second.size, h.second.pos, Nat.lt_succ_of_lt hold₂, spare₂, hsecond,
        hlength₂⟩, Ne.symm (Nat.ne_of_lt hold₂)⟩, rfl⟩
  rw [resizeArr]
  simp only at hrealloc
  rw [hrealloc]
  rfl

theorem storeElem_room (h : Beside m arr1 pointers1 arr2 pointers2)
    (hroom : pointers1.length < arr1.capacity) (elem : Option π) :
    ∃ m', storeElem arr1 elem m =
        .ok (0, { arr1 with size := arr1.size + 1 }, m') ∧
      Beside m' { arr1 with size := arr1.size + 1 } (pointers1 ++ [elem]) arr2
        pointers2 ∧
      m'.heap = m.heap := by
  obtain ⟨spare, hblock, hlength⟩ := h.first.stored
  obtain ⟨spare₂, hblock₂, hlength₂⟩ := h.second.stored
  have hsize := h.first.size
  cases spare with
  | nil =>
      rw [List.length_nil] at hlength
      omega
  | cons old spare =>
      rw [List.length_cons] at hlength
      have hstore := BlockStore.store_append (b := elem) hblock
        (i := arr1.size) (by rw [List.length_map, hsize])
      have hcells : pointers1.map some ++ some elem :: spare =
          (pointers1 ++ [elem]).map some ++ spare := by
        rw [List.map_append, List.append_assoc]
        rfl
      rw [hcells] at hstore
      have hsecond : Function.update m.blocks arr1.elems
          (some ((pointers1 ++ [elem]).map some ++ spare)) arr2.elems =
            some (pointers2.map some ++ spare₂) := by
        rw [Function.update_of_ne (Ne.symm h.ne), hblock₂]
      have hcount : (pointers1 ++ [elem]).length = pointers1.length + 1 := by
        rw [List.length_append, List.length_singleton]
      refine ⟨⟨m.heap, Function.update m.blocks arr1.elems
          (some ((pointers1 ++ [elem]).map some ++ spare))⟩, ?_,
        ⟨⟨?_, h.first.pos, h.first.old, spare, Function.update_self .., ?_⟩,
          ⟨h.second.size, h.second.pos, h.second.old, spare₂, hsecond,
            hlength₂⟩, h.ne⟩, rfl⟩
      · rw [storeElem, hstore]
        rfl
      · show arr1.size + 1 = _
        rw [hcount, hsize]
      · show (pointers1 ++ [elem]).length + spare.length = arr1.capacity
        omega

/-- What an addition does: it uses up room, or asks for twice the capacity,
which is granted or refused. -/
inductive Added (fails : FailurePlan) (m : BlockStore (Option π))
    (arr1 : DynamicArray δ) (pointers1 : List (Option π)) (elem : Option π)
    (arr2 : DynamicArray δ) (pointers2 : List (Option π)) :
    Except Fault (Int × DynamicArray δ × BlockStore (Option π)) → Prop
  | room {arr1' : DynamicArray δ} {m' : BlockStore (Option π)}
      (hroom : pointers1.length < arr1.capacity)
      (h : Beside m' arr1' (pointers1 ++ [elem]) arr2 pointers2)
      (hcapacity : arr1'.capacity = arr1.capacity)
      (hcalls : m'.heap.calls = m.heap.calls) :
      Added fails m arr1 pointers1 elem arr2 pointers2 (.ok (0, arr1', m'))
  | grown {arr1' : DynamicArray δ} {m' : BlockStore (Option π)}
      (hgranted : fails m.heap.calls = false)
      (h : Beside m' arr1' (pointers1 ++ [elem]) arr2 pointers2)
      (hcapacity : arr1.capacity ≤ arr1'.capacity)
      (hcalls : m'.heap.calls = m.heap.calls + 1) :
      Added fails m arr1 pointers1 elem arr2 pointers2 (.ok (0, arr1', m'))
  | refused {m' : BlockStore (Option π)}
      (hrefused : fails m.heap.calls = true)
      (h : Beside m' arr1 pointers1 arr2 pointers2)
      (hcalls : m'.heap.calls = m.heap.calls + 1) :
      Added fails m arr1 pointers1 elem arr2 pointers2 (.ok (-1, arr1, m'))

theorem addElem_added (fails : FailurePlan)
    (h : Beside m arr1 pointers1 arr2 pointers2) (elem : Option π) :
    Added fails m arr1 pointers1 elem arr2 pointers2
      (addElem fails arr1 elem m) := by
  have hsize := h.first.size
  have hfits := h.first.fits
  have hpos := h.first.pos
  unfold addElem
  by_cases hfull : arr1.size = arr1.capacity
  · rw [if_pos hfull]
    cases hcall : fails m.heap.calls with
    | true =>
        obtain ⟨m', hresize, hbeside, hcalls⟩ :=
          resizeArr_refused h (2 * arr1.size) hcall
        rw [hresize]
        exact .refused hcall hbeside hcalls
    | false =>
        obtain ⟨m', hresize, hbeside, hcalls⟩ :=
          resizeArr_granted h (2 * arr1.size) hcall (by omega)
            (List.prefix_refl pointers1) (by omega)
        obtain ⟨m'', hstore, hbeside', hheap⟩ :=
          storeElem_room hbeside (by show _ < 2 * arr1.size; omega) elem
        simp only [← hsize] at hstore hbeside'
        rw [hresize]
        simp only [except_ok_bind]
        rw [if_neg (by decide), hstore]
        refine .grown hcall hbeside' ?_ (by rw [hheap, hcalls])
        show arr1.capacity ≤ 2 * arr1.size
        omega
  · rw [if_neg hfull]
    have hroom : pointers1.length < arr1.capacity := by omega
    obtain ⟨m', hstore, hbeside, hheap⟩ := storeElem_room h hroom elem
    rw [hstore]
    exact .room hroom hbeside rfl (by rw [hheap])

/-! ## The loop -/

variable {first : Option π} {rest more : List (Option π)}
  {capacity fuel k : Nat}

/-- The way back: whether or not the block shrinks again, the elements in
front are there. -/
theorem resizeArr_rollback (fails : FailurePlan)
    (h : Beside m arr1 (kept ++ more) arr2 pointers2) (hpos : 0 < capacity)
    (hfits : kept.length ≤ capacity) :
    ∃ status arr1' m', resizeArr fails arr1 capacity m =
        .ok (status, arr1', m') ∧
      Beside m' { arr1' with size := kept.length } kept arr2 pointers2 := by
  have hkept : kept <+: kept ++ more := List.prefix_append kept more
  cases hcall : fails m.heap.calls with
  | true =>
      obtain ⟨m', hresize, hbeside, -⟩ := resizeArr_refused h capacity hcall
      exact ⟨_, _, _, hresize, hbeside.first.shrink hkept, hbeside.second,
        hbeside.ne⟩
  | false =>
      obtain ⟨m', hresize, hbeside, -⟩ :=
        resizeArr_granted h capacity hcall hpos hkept hfits
      exact ⟨_, _, _, hresize, hbeside⟩

/-- A round of the loop: the first element is added. -/
theorem concatLoop_round (h : Beside m arr1 pointers1 arr2 (first :: rest))
    (size : Nat) :
    concatLoop fails size capacity 0 arr2 (fuel + 1) arr1 m = (do
      let (status, arr1, m) ← addElem fails arr1 first m
      if status < 0 then do
        let (_, arr1, m) ← resizeArr fails arr1 capacity m
        return (-1, { arr1 with size := size }, m)
      else concatLoop fails size capacity 0 arr2 fuel arr1 m) := by
  obtain ⟨spare, hblock, -⟩ := h.second.stored
  have hfirst : m.blocks arr2.elems =
      some ([] ++ some first :: (rest.map some ++ spare)) := hblock
  have hload : m.load arr2.elems 0 = .ok first :=
    BlockStore.load_append hfirst rfl
  have hlt : 0 < arr2.size := by
    rw [h.second.size]
    exact Nat.succ_pos _
  rw [concatLoop, if_pos hlt, hload]
  rfl

/-- However often the loop goes round, it does not come to an end, or it ends
with the array as it was. -/
theorem concatLoop_ends (fails : FailurePlan) (fuel : Nat)
    (h : Beside m arr1 (kept ++ more) arr2 (first :: rest))
    (hpos : 0 < capacity) (hfits : kept.length ≤ capacity) :
    concatLoop fails kept.length capacity 0 arr2 fuel arr1 m =
        .error .outOfFuel ∨
      ∃ arr1' m', concatLoop fails kept.length capacity 0 arr2 fuel arr1 m =
          .ok (-1, arr1', m') ∧
        Beside m' arr1' kept arr2 (first :: rest) := by
  induction fuel generalizing arr1 m more with
  | zero => exact Or.inl rfl
  | succ fuel ih =>
      rw [concatLoop_round h]
      have hadded := addElem_added fails h first
      generalize addElem fails arr1 first m = result at hadded
      cases hadded with
      | room hroom hbeside =>
          rw [List.append_assoc] at hbeside
          exact ih hbeside
      | grown hgranted hbeside =>
          rw [List.append_assoc] at hbeside
          exact ih hbeside
      | refused hrefused hbeside =>
          obtain ⟨status, arr1', m', hresize, hback⟩ :=
            resizeArr_rollback fails hbeside hpos hfits
          refine Or.inr ⟨_, m', ?_, hback⟩
          simp only [except_ok_bind]
          rw [if_pos (by decide), hresize]
          rfl

/-- It does not come to an end without a refusal. -/
theorem concatLoop_outOfFuel
    (h : Beside m arr1 pointers1 arr2 (first :: rest))
    (size capacity fuel : Nat)
    (hnever : ∀ k, fails (m.heap.calls + k) = false) :
    concatLoop fails size capacity 0 arr2 fuel arr1 m =
      .error .outOfFuel := by
  induction fuel generalizing arr1 m pointers1 with
  | zero => rfl
  | succ fuel ih =>
      rw [concatLoop_round h]
      have hadded := addElem_added fails h first
      generalize addElem fails arr1 first m = result at hadded
      cases hadded with
      | room hroom hbeside hcapacity hcalls =>
          exact ih hbeside (by rw [hcalls]; exact hnever)
      | grown hgranted hbeside hcapacity hcalls =>
          refine ih hbeside fun k => ?_
          rw [hcalls, Nat.add_assoc]
          exact hnever (1 + k)
      | refused hrefused =>
          have hfirst := hnever 0
          rw [Nat.add_zero, hrefused] at hfirst
          cases hfirst

/-- A round in which the addition is refused is the last one. -/
theorem concatLoop_refused
    (h : Beside m arr1 pointers1 arr2 (first :: rest)) (size : Nat)
    (hadd : addElem fails arr1 first m = .ok (-1, arr1, m'))
    (hbeside : Beside m' arr1 pointers1 arr2 (first :: rest)) :
    ∃ result, concatLoop fails size capacity 0 arr2 1 arr1 m =
      .ok result := by
  rw [concatLoop_round h, hadd]
  simp only [except_ok_bind]
  rw [if_pos (by decide)]
  cases hcall : fails m'.heap.calls with
  | true =>
      obtain ⟨_, hresize, -⟩ := resizeArr_refused hbeside capacity hcall
      rw [hresize]
      exact ⟨_, rfl⟩
  | false =>
      obtain ⟨spare, hblock, -⟩ := hbeside.first.stored
      rw [resizeArr, BlockStore.realloc_granted hblock hcall]
      exact ⟨_, rfl⟩

/-- A round in which it succeeds is followed by the others. -/
theorem concatLoop_continues {arr1' : DynamicArray δ}
    (h : Beside m arr1 pointers1 arr2 (first :: rest)) (size : Nat)
    (hadd : addElem fails arr1 first m = .ok (0, arr1', m')) :
    concatLoop fails size capacity 0 arr2 (fuel + 1) arr1 m =
      concatLoop fails size capacity 0 arr2 fuel arr1' m' := by
  rw [concatLoop_round h, hadd]
  simp only [except_ok_bind]
  rw [if_neg (by decide)]

/-- With a refusal to come, it does come to an end: the room is used up, and
every request brings the refusal nearer. -/
theorem concatLoop_returns {m : BlockStore (Option π)}
    {arr1 : DynamicArray δ} {pointers1 : List (Option π)} {k : Nat}
    (h : Beside m arr1 pointers1 arr2 (first :: rest)) (size : Nat)
    (hrefusal : fails (m.heap.calls + k) = true) :
    ∃ fuel result,
      concatLoop fails size capacity 0 arr2 fuel arr1 m = .ok result := by
  have hadded := addElem_added fails h first
  generalize hadd : addElem fails arr1 first m = result at hadded
  cases hadded with
  | @room arr1' m' hroom hbeside hcapacity hcalls =>
      have hlength : (pointers1 ++ [first]).length = pointers1.length + 1 := by
        rw [List.length_append, List.length_singleton]
      obtain ⟨fuel, result, hloop⟩ :=
        concatLoop_returns hbeside size (by rw [hcalls]; exact hrefusal)
      exact ⟨fuel + 1, result, by rw [concatLoop_continues h size hadd, hloop]⟩
  | @grown arr1' m' hgranted hbeside hcapacity hcalls =>
      cases k with
      | zero =>
          rw [Nat.add_zero, hgranted] at hrefusal
          cases hrefusal
      | succ k =>
          have hrefusal' : fails (m'.heap.calls + k) = true := by
            rw [hcalls, Nat.add_assoc, Nat.add_comm 1]
            exact hrefusal
          obtain ⟨fuel, result, hloop⟩ :=
            concatLoop_returns hbeside size hrefusal'
          exact ⟨fuel + 1, result,
            by rw [concatLoop_continues h size hadd, hloop]⟩
  | refused hrefused hbeside =>
      exact ⟨1, concatLoop_refused h size hadd hbeside⟩
termination_by (k, arr1.capacity - pointers1.length)

/-! ## The whole function -/

/-- The function comes to an end.  With 0 it has appended the second array to
the first, with -1 it has left the first one alone; the second one it leaves
alone in both cases. -/
structure ConcatSound (fails : FailurePlan) (m : BlockStore (Option π))
    (arr1 : DynamicArray δ) (pointers1 : List (Option π))
    (arr2 : DynamicArray δ) (pointers2 : List (Option π)) : Prop where
  terminates : ∃ fuel result, concatArrs fails fuel arr1 arr2 m = .ok result
  returns : ∀ fuel status arr1' m',
    concatArrs fails fuel arr1 arr2 m = .ok (status, arr1', m') →
      ((status = 0 ∧ Holds m' arr1' (pointers1 ++ pointers2)) ∨
        (status = -1 ∧ Holds m' arr1' pointers1)) ∧
      Holds m' arr2 pointers2

/-- Whatever the second array holds, nothing of it is ever appended with
success. -/
theorem concatArrs_fails
    (h : Beside m arr1 pointers1 arr2 (first :: rest)) {status : Int}
    {arr1' : DynamicArray δ}
    (hreturns : concatArrs fails fuel arr1 arr2 m = .ok (status, arr1', m')) :
    status = -1 ∧ Beside m' arr1' pointers1 arr2 (first :: rest) := by
  have hstart := h
  rw [← List.append_nil pointers1] at hstart
  have hends := concatLoop_ends fails fuel hstart h.first.pos h.first.fits
  rw [← h.first.size] at hends
  unfold concatArrs at hreturns
  rw [hreturns] at hends
  cases hends with
  | inl hend => cases hend
  | inr hend =>
      obtain ⟨_, _, hresult, hbeside⟩ := hend
      cases hresult
      exact ⟨rfl, hbeside⟩

theorem concatArrs_nil (fails : FailurePlan)
    (h : Beside m arr1 pointers1 arr2 []) (fuel : Nat) :
    concatArrs fails (fuel + 1) arr1 arr2 m = .ok (0, arr1, m) := by
  have hsize : ¬ 0 < arr2.size := by
    rw [h.second.size]
    exact Nat.lt_irrefl 0
  rw [concatArrs, concatLoop, if_neg hsize]
  rfl

theorem concatSound_nil (fails : FailurePlan)
    (h : Beside m arr1 pointers1 arr2 []) :
    ConcatSound fails m arr1 pointers1 arr2 [] where
  terminates := ⟨1, _, concatArrs_nil fails h 0⟩
  returns fuel status arr1' m' hreturns := by
    cases fuel with
    | zero => cases hreturns
    | succ fuel =>
        rw [concatArrs_nil fails h] at hreturns
        cases hreturns
        rw [List.append_nil]
        exact ⟨Or.inl ⟨rfl, h.first⟩, h.second⟩

/-- The function keeps its promise only where there is nothing to append, or
where the allocator will refuse a request. -/
theorem concatArrs_sound_iff (fails : FailurePlan)
    (h : Beside m arr1 pointers1 arr2 pointers2) :
    ConcatSound fails m arr1 pointers1 arr2 pointers2 ↔
      pointers2 = [] ∨ ∃ k, fails (m.heap.calls + k) = true := by
  cases pointers2 with
  | nil => exact iff_of_true (concatSound_nil fails h) (Or.inl rfl)
  | cons first rest =>
      constructor
      · intro hsound
        obtain ⟨fuel, result, hreturns⟩ := hsound.terminates
        refine Or.inr (Classical.byContradiction fun hnever => ?_)
        have hfalse : ∀ k, fails (m.heap.calls + k) = false := fun k =>
          eq_false_of_ne_true fun hk => hnever ⟨k, hk⟩
        have hend := concatLoop_outOfFuel h arr1.size arr1.capacity fuel hfalse
        unfold concatArrs at hreturns
        rw [hend] at hreturns
        cases hreturns
      · intro hcases
        obtain ⟨k, hrefusal⟩ : ∃ k, fails (m.heap.calls + k) = true :=
          hcases.resolve_left (List.cons_ne_nil first rest)
        exact
          { terminates := concatLoop_returns h arr1.size hrefusal
            returns := fun fuel status arr1' m' hreturns => by
              obtain ⟨hstatus, hbeside⟩ := concatArrs_fails h hreturns
              exact ⟨Or.inr ⟨hstatus, hbeside.first⟩, hbeside.second⟩ }

end Two

end Holds

/-! ## A new array and one with a single pointer -/

/-- The blocks of the two arrays below. -/
def twoBlocks : BlockStore (Option Nat) where
  heap := ⟨4, [.alloc 3, .alloc 2, .alloc 1, .alloc 0]⟩
  blocks id :=
    if id = 1 then some (indeterminate initSize)
    else if id = 3 then some (some (some 7) :: indeterminate (initSize - 1))
    else none

def newArray : DynamicArray Unit := ⟨0, 1, 0, initSize, ()⟩

def oneElement : DynamicArray Unit := ⟨2, 3, 1, initSize, ()⟩

theorem twoBlocks_beside : Beside twoBlocks newArray [] oneElement [some 7]
    where
  first := ⟨rfl, by decide, by decide, indeterminate initSize, rfl, rfl⟩
  second := ⟨rfl, by decide, by decide, indeterminate (initSize - 1), rfl, rfl⟩
  ne := by decide

/-- The next request is refused. -/
theorem concatArrs_sound_iff_refused :
    ConcatSound (fun call => call == 4) twoBlocks newArray [] oneElement
        [some 7] ↔
      [some 7] = [] ∨ ∃ k, (4 + k == 4) = true :=
  concatArrs_sound_iff (fun call => call == 4) twoBlocks_beside

/-- No request is refused: the call does not come back. -/
theorem concatArrs_unending :
    Beside twoBlocks newArray [] oneElement [some 7] ∧
      (∀ fuel, concatArrs noFailures fuel newArray oneElement twoBlocks =
        .error .outOfFuel) ∧
      ¬ ConcatSound noFailures twoBlocks newArray [] oneElement [some 7] := by
  have hend : ∀ fuel, concatArrs noFailures fuel newArray oneElement
      twoBlocks = .error .outOfFuel := fun fuel =>
    concatLoop_outOfFuel twoBlocks_beside 0 initSize fuel fun _ => rfl
  refine ⟨twoBlocks_beside, hend, fun hsound => ?_⟩
  obtain ⟨fuel, result, hreturns⟩ := hsound.terminates
  rw [hend fuel] at hreturns
  cases hreturns

end OsLabs.Lab2.DYNARR
