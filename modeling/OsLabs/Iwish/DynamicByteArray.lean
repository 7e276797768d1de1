import OsLabs.Posix.PointerArray

/-!
# The growing byte array

`DynamicByteArray.h` and `DynamicByteArray.c`.  The source stores bytes of
whatever it is handed; here the type `β` of a byte is a parameter, so that one
model serves for the characters of a line and for the bytes of a pointer.  A
byte that `malloc` or `realloc` leaves indeterminate is `none`.  Sizes are
exact integers.

`Represents arr elems` says that the array holds the elements `elems`, each
`type_size` bytes wide and stored one after the other.
-/

namespace OsLabs.Iwish.DBA

open OsLabs.Posix

variable {β : Type}

/-! ## The source -/

/-- `DBA_INITSIZE` -/
def initSize : Nat := 16

/-- `DynamicByteArray`: the block of the header, its fields, and the block
`elements` points to together with its contents. -/
structure DynamicByteArray (β : Type) where
  block : Nat
  typeSize : Nat
  nrOfElements : Nat
  capacity : Nat
  elementsBlock : Nat
  elements : List (Option β)
  deriving Repr, DecidableEq

/-- `DBA_makeNewDynamicByteArray`. -/
def makeNewDynamicByteArray (fails : FailurePlan) (typeSize : Nat)
    (heap : Heap) : Option (DynamicByteArray β) × Heap :=
  match heap.malloc fails with
  | (none, heap) => (none, heap)
  | (some block, heap) =>
    match heap.malloc fails with
    | (none, heap) => (none, heap.free block)
    | (some elementsBlock, heap) =>
      (some ⟨block, typeSize, 0, initSize, elementsBlock,
        indeterminate (initSize * typeSize)⟩, heap)

/-- `DBA_resizeArr`. -/
def resizeArr (fails : FailurePlan) (arr : DynamicByteArray β)
    (newNrOfElements : Nat) (heap : Heap) : Int × DynamicByteArray β × Heap :=
  match heap.realloc fails arr.elementsBlock with
  | (none, heap) => (-1, arr, heap)
  | (some tempPtr, heap) =>
    (0, { arr with
      elementsBlock := tempPtr
      elements := reallocCells arr.elements (newNrOfElements * arr.typeSize)
      capacity := newNrOfElements }, heap)

/-- The copying loop of `DBA_addElemToArr`. -/
def copyElement (arr : DynamicByteArray β) (bytestring : List β) :
    Except Fault (List (Option β)) :=
  (List.range arr.typeSize).foldlM
    (fun elements i => do
      storeAt elements (arr.nrOfElements * arr.typeSize + i)
        (← readAt bytestring i))
    arr.elements

/-- `DBA_addElemToArr`. -/
def addElemToArr (fails : FailurePlan) (arr : DynamicByteArray β)
    (bytestring : List β) (heap : Heap) :
    Except Fault (Int × DynamicByteArray β × Heap) := do
  let (status, arr, heap) :=
    if arr.nrOfElements = arr.capacity then
      resizeArr fails arr (2 * arr.capacity) heap
    else (0, arr, heap)
  if status < 0 then
    return (-1, arr, heap)
  else
    let elements ← copyElement arr bytestring
    return (0, { arr with
      elements := elements
      nrOfElements := arr.nrOfElements + 1 }, heap)

/-- `DBA_getInternalArray`. -/
def getInternalArray (arr : DynamicByteArray β) : List (Option β) :=
  arr.elements

/-! ## The copying loop -/

/-- After `n` rounds the first `n` bytes stand behind the front of the
block. -/
theorem copy_loop_eq {elements : List (Option β)} {bytestring : List β}
    {start n : Nat} (hbytes : n ≤ bytestring.length)
    (hroom : start + n ≤ elements.length) :
    (List.range n).foldlM
        (fun elements i => do
          storeAt elements (start + i) (← readAt bytestring i))
        elements =
      (.ok (elements.take start ++ (bytestring.take n).map some ++
        elements.drop (start + n)) : Except Fault _) := by
  induction n with
  | zero => simp
  | succ n ih =>
      have hrest := ih (by omega) (by omega)
      have hread : readAt bytestring n = .ok bytestring[n] :=
        readAt_eq (by omega)
      rw [List.range_succ, List.foldlM_append, hrest]
      simp only [except_ok_bind, List.foldlM_cons, List.foldlM_nil, hread]
      have hfront : (elements.take start ++
          (bytestring.take n).map some).length = start + n := by
        simp only [List.length_append, List.length_take, List.length_map]
        omega
      obtain ⟨old, rest, hdrop⟩ : ∃ old rest,
          elements.drop (start + n) = old :: rest :=
        List.exists_cons_of_ne_nil (by
          intro hnil
          have := List.drop_eq_nil_iff.mp hnil
          omega)
      have hrest : elements.drop (start + (n + 1)) = rest :=
        drop_succ_of_drop_cons hdrop
      have htake : bytestring.take (n + 1) =
          bytestring.take n ++ [bytestring[n]] := by
        rw [List.take_add_one, List.getElem?_eq_getElem (by omega)]
        rfl
      rw [hdrop, storeAt_append hfront, hrest, htake]
      simp only [List.map_append, List.map_cons, List.map_nil,
        List.append_assoc, List.singleton_append, bind_pure]

/-! ## What an array represents -/

/-- `arr` holds exactly the elements `elems`. -/
structure Represents (arr : DynamicByteArray β) (elems : List (List β)) :
    Prop where
  width : ∀ e ∈ elems, e.length = arr.typeSize
  count : arr.nrOfElements = elems.length
  fits : elems.length ≤ arr.capacity
  growable : 0 < arr.capacity
  size : arr.elements.length = arr.capacity * arr.typeSize
  stored : ∃ spare, arr.elements = elems.flatten.map some ++ spare

/-- Elements of one width, laid out one after the other. -/
theorem flatten_length_of_width {l : List (List β)} {width : Nat}
    (h : ∀ e ∈ l, e.length = width) : l.flatten.length = l.length * width := by
  induction l with
  | nil => simp
  | cons e l ih =>
      have he := h e List.mem_cons_self
      have hrest := ih fun e' he' => h e' (List.mem_cons_of_mem e he')
      rw [List.flatten_cons, List.length_append, hrest, he, List.length_cons,
        Nat.succ_mul, Nat.add_comm]

section Represents

variable {arr arr' : DynamicByteArray β} {elems : List (List β)}
  {fails : FailurePlan} {heap heap' : Heap} {bytestring : List β}

theorem Represents.flatten_length (h : Represents arr elems) :
    elems.flatten.length = elems.length * arr.typeSize :=
  flatten_length_of_width h.width

/-- An array is made of two blocks. -/
theorem makeNewDynamicByteArray_some {typeSize : Nat}
    (h : makeNewDynamicByteArray fails typeSize heap = (some arr, heap')) :
    arr = ⟨heap.calls, typeSize, 0, initSize, heap.calls + 1,
        indeterminate (initSize * typeSize)⟩ ∧
      heap' = ⟨heap.calls + 2,
        .alloc (heap.calls + 1) :: .alloc heap.calls :: heap.ledger⟩ := by
  unfold makeNewDynamicByteArray at h
  cases hfirst : fails heap.calls with
  | true => simp [Heap.malloc, hfirst] at h
  | false =>
      cases hsecond : fails (heap.calls + 1) with
      | true => simp [Heap.malloc, hfirst, hsecond] at h
      | false =>
          have hgranted : (⟨heap.calls + 1, .alloc heap.calls :: heap.ledger⟩ :
              Heap).malloc fails = _ := Heap.malloc_granted hsecond
          simp only [Heap.malloc_granted hfirst, hgranted] at h
          cases h
          exact ⟨rfl, rfl⟩

theorem makeNewDynamicByteArray_represents {typeSize : Nat}
    (h : makeNewDynamicByteArray fails typeSize heap = (some arr, heap')) :
    Represents arr [] ∧ arr.typeSize = typeSize := by
  obtain ⟨rfl, -⟩ := makeNewDynamicByteArray_some h
  refine ⟨⟨by simp, rfl, Nat.zero_le _, ?_, ?_, ?_⟩, rfl⟩
  · show 0 < initSize
    decide
  · simp [indeterminate]
  · exact ⟨_, rfl⟩

theorem resizeArr_refused (arr : DynamicByteArray β) (newNrOfElements : Nat)
    (h : fails heap.calls = true) :
    resizeArr fails arr newNrOfElements heap =
      (-1, arr, { heap with calls := heap.calls + 1 }) := by
  simp [resizeArr, Heap.realloc, h]

/-- Growing an array changes neither its elements nor their number. -/
theorem resizeArr_granted (h : Represents arr elems)
    (hplan : fails heap.calls = false) :
    ∃ arr' heap',
      resizeArr fails arr (2 * arr.capacity) heap = (0, arr', heap') ∧
      arr'.typeSize = arr.typeSize ∧ elems.length < arr'.capacity ∧
      Represents arr' elems := by
  have hfits := h.fits
  have hgrow := h.growable
  obtain ⟨spare, hstored⟩ := h.stored
  have hresize : resizeArr fails arr (2 * arr.capacity) heap =
      (0, { arr with
        elementsBlock := heap.calls
        elements := reallocCells arr.elements (2 * arr.capacity * arr.typeSize)
        capacity := 2 * arr.capacity },
      ⟨heap.calls + 1, .alloc heap.calls :: .free arr.elementsBlock ::
        heap.ledger⟩) := by
    simp [resizeArr, Heap.realloc, hplan]
  refine ⟨_, _, hresize, rfl, ?_, h.width, h.count, ?_, ?_, ?_, ?_⟩
  · show elems.length < 2 * arr.capacity
    omega
  · show elems.length ≤ 2 * arr.capacity
    omega
  · show 0 < 2 * arr.capacity
    omega
  · exact reallocCells_length _ _
  · have hle : arr.elements.length ≤ 2 * arr.capacity * arr.typeSize := by
      rw [h.size]
      exact Nat.mul_le_mul_right arr.typeSize (by omega)
    refine ⟨spare ++ indeterminate
      (2 * arr.capacity * arr.typeSize - arr.elements.length), ?_⟩
    show reallocCells arr.elements (2 * arr.capacity * arr.typeSize) = _
    rw [reallocCells_grow hle, ← List.append_assoc, ← hstored]

/-- Storing an element behind the others, when there is room for it. -/
theorem Represents.copyElement (h : Represents arr elems)
    (hbytes : arr.typeSize ≤ bytestring.length)
    (hroom : elems.length < arr.capacity) :
    ∃ elements, copyElement arr bytestring = .ok elements ∧
      Represents { arr with
        elements := elements
        nrOfElements := arr.nrOfElements + 1 }
        (elems ++ [bytestring.take arr.typeSize]) := by
  have hsize := h.size
  have hlast : elems.length * arr.typeSize + arr.typeSize ≤
      arr.elements.length := by
    rw [hsize, ← Nat.succ_mul]
    exact Nat.mul_le_mul_right arr.typeSize hroom
  obtain ⟨spare, hstored⟩ := h.stored
  have hfront : arr.elements.take (elems.length * arr.typeSize) =
      elems.flatten.map some := by
    rw [hstored, ← h.flatten_length, ← List.length_map (f := some),
      List.take_left]
  have hcopy := copy_loop_eq hbytes hlast
  rw [hfront] at hcopy
  refine ⟨_, by unfold DBA.copyElement; rw [h.count]; exact hcopy, ?_⟩
  refine ⟨?_, ?_, ?_, h.growable, ?_, ?_⟩
  · intro e he
    rcases List.mem_append.mp he with hmem | hmem
    · exact h.width e hmem
    · rw [List.mem_singleton.mp hmem, List.length_take]
      exact Nat.min_eq_left hbytes
  · simp [h.count]
  · rw [List.length_append, List.length_singleton]
    exact hroom
  · show List.length (_ ++ _ ++ _) = arr.capacity * arr.typeSize
    rw [← hsize]
    simp only [List.length_append, List.length_map, List.length_take,
      List.length_drop, h.flatten_length, Nat.min_eq_left hbytes]
    omega
  · refine ⟨arr.elements.drop (elems.length * arr.typeSize + arr.typeSize), ?_⟩
    rw [List.flatten_append, List.flatten_singleton, List.map_append]

/-- **What `DBA_addElemToArr` does**, under any failure plan: it stores the
element, or the array is full, the request for more room is refused and
nothing changes. -/
theorem addElemToArr_spec (fails : FailurePlan) (heap : Heap)
    (h : Represents arr elems)
    (hbytes : arr.typeSize ≤ bytestring.length) :
    (∃ arr' heap', addElemToArr fails arr bytestring heap =
        .ok (0, arr', heap') ∧ arr'.typeSize = arr.typeSize ∧
      Represents arr' (elems ++ [bytestring.take arr.typeSize])) ∨
    (addElemToArr fails arr bytestring heap =
        .ok (-1, arr, { heap with calls := heap.calls + 1 }) ∧
      elems.length = arr.capacity ∧ fails heap.calls = true) := by
  have hcount := h.count
  have hfits := h.fits
  by_cases hfull : arr.nrOfElements = arr.capacity
  · cases hplan : fails heap.calls with
    | true =>
        refine Or.inr ⟨?_, by omega, rfl⟩
        simp [addElemToArr, hfull, resizeArr_refused arr _ hplan]
    | false =>
        obtain ⟨large, heap', hresize, htype, hroom, hlarge⟩ :=
          resizeArr_granted h hplan
        rw [← htype] at hbytes ⊢
        obtain ⟨elements, hcopy, hrep⟩ := hlarge.copyElement hbytes hroom
        have hadd : addElemToArr fails arr bytestring heap = .ok (0,
            { large with
              elements := elements
              nrOfElements := large.nrOfElements + 1 }, heap') := by
          simp [addElemToArr, hfull, hresize, hcopy]
        exact Or.inl ⟨_, heap', hadd, rfl, hrep⟩
  · obtain ⟨elements, hcopy, hrep⟩ := h.copyElement hbytes (by omega)
    have hadd : addElemToArr fails arr bytestring heap = .ok (0,
        { arr with
          elements := elements
          nrOfElements := arr.nrOfElements + 1 }, heap) := by
      simp [addElemToArr, hfull, hcopy]
    exact Or.inl ⟨_, heap, hadd, rfl, hrep⟩

theorem addElemToArr_noFailures (heap : Heap) (h : Represents arr elems)
    (hbytes : arr.typeSize ≤ bytestring.length) :
    ∃ arr' heap', addElemToArr noFailures arr bytestring heap =
        .ok (0, arr', heap') ∧ arr'.typeSize = arr.typeSize ∧
      Represents arr' (elems ++ [bytestring.take arr.typeSize]) := by
  rcases addElemToArr_spec noFailures heap h hbytes with hadded | ⟨-, -, hplan⟩
  · exact hadded
  · cases hplan

end Represents

/-! ## Arrays of pointers -/

section Pointers

variable {π : Type} {arr : DynamicByteArray (PointerByte π)}
  {pointers : List (Option π)} {heap heap' : Heap}

/-- `arr` holds exactly these pointers. -/
structure HoldsPointers (arr : DynamicByteArray (PointerByte π))
    (pointers : List (Option π)) : Prop where
  typeSize : arr.typeSize = pointerSize
  represents : Represents arr (pointers.map pointerBytes)

theorem makeNewDynamicByteArray_holdsPointers {fails : FailurePlan}
    (h : makeNewDynamicByteArray fails pointerSize heap = (some arr, heap')) :
    HoldsPointers arr [] := by
  obtain ⟨hrep, htype⟩ := makeNewDynamicByteArray_represents h
  exact ⟨htype, hrep⟩

theorem HoldsPointers.add (h : HoldsPointers arr pointers) (p : Option π)
    (heap : Heap) :
    ∃ arr' heap', addElemToArr noFailures arr (pointerBytes p) heap =
        .ok (0, arr', heap') ∧ HoldsPointers arr' (pointers ++ [p]) := by
  have hlength : (pointerBytes p).length = arr.typeSize := by
    rw [h.typeSize, pointerBytes_length]
  obtain ⟨arr', heap', hadd, htype, hrep⟩ := addElemToArr_noFailures heap
    h.represents (Nat.le_of_eq hlength.symm)
  refine ⟨arr', heap', hadd, htype.trans h.typeSize, ?_⟩
  rw [List.take_of_length_le (Nat.le_of_eq hlength)] at hrep
  rw [List.map_append]
  exact hrep

/-- With a null pointer at its end, the array reads back as the pointers
before it. -/
theorem HoldsPointers.load [DecidableEq π] {pointers : List π}
    (h : HoldsPointers arr (pointers.map some ++ [none])) :
    loadPointerArray arr.elements = .ok pointers := by
  obtain ⟨spare, hstored⟩ := h.represents.stored
  rw [hstored]
  exact loadPointerArray_eq pointers spare

end Pointers

end OsLabs.Iwish.DBA
