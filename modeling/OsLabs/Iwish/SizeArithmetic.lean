import OsLabs.Iwish.DynamicByteArray
import OsLabs.Posix.Traced

/-!
# The sizes of the growing byte array, in 64 bits

The functions of `DynamicByteArray.c` that compute sizes and positions, with a
`size_t` of 64 bits: every product and every sum is taken modulo `2 ^ 64`, and
its exact value is logged.  A request for more than `2 ^ 63 - 1` bytes is
refused.

There is no overflow check in the source.  None is needed: what the allocator
has granted bounds the next product (`run_fits`), so the functions compute
what those of `OsLabs.Iwish.DynamicByteArray` compute on exact integers
(`outcome_addElemToArr`).
-/

namespace OsLabs.Iwish.SizeArithmetic

open OsLabs.Posix
open OsLabs.Iwish.DBA (DynamicByteArray initSize)

/-! ## The source -/

/-- An entry of the log. -/
inductive Entry where
  /-- A product or a sum, by its exact value. -/
  | computed (exact : Nat)
  /-- A block for the elements: its bytes, and the capacity it is given for. -/
  | granted (bytes capacity : Nat)
  deriving Repr, DecidableEq

/-- A value of type `size_t`. -/
def toSize (exact : Nat) : Nat := exact % 18446744073709551616

/-- A product or a sum of type `size_t`. -/
def compute (exact : Nat) : Traced Entry Nat :=
  ⟨[.computed exact], .ok (toSize exact)⟩

/-- The most bytes a request may be for. -/
def requestLimit : Nat := 9223372036854775807

/-- The plan for a request of `bytes` bytes: one that is too large is
refused. -/
def limited (fails : FailurePlan) (bytes : Nat) : FailurePlan := fun call =>
  decide (requestLimit < bytes) || fails call

section

variable {β : Type} (fails : FailurePlan)

/-- `DBA_makeNewDynamicByteArray` -/
def makeNewDynamicByteArray (typeSize : Nat) (heap : Heap) :
    Traced Entry (Option (DynamicByteArray β) × Heap) :=
  match heap.malloc fails with
  | (none, heap) => return (none, heap)
  | (some block, heap) => do
    let bytes ← compute (initSize * typeSize)
    match heap.malloc (limited fails bytes) with
    | (none, heap) => return (none, heap.free block)
    | (some elementsBlock, heap) =>
      Traced.emit (.granted bytes initSize)
      return (some ⟨block, typeSize, 0, initSize, elementsBlock,
        indeterminate bytes⟩, heap)

/-- `DBA_resizeArr` -/
def resizeArr (arr : DynamicByteArray β) (newNrOfElements : Nat)
    (heap : Heap) : Traced Entry (Int × DynamicByteArray β × Heap) := do
  let bytes ← compute (newNrOfElements * arr.typeSize)
  match heap.realloc (limited fails bytes) arr.elementsBlock with
  | (none, heap) => return (-1, arr, heap)
  | (some tempPtr, heap) =>
    Traced.emit (.granted bytes newNrOfElements)
    return (0, { arr with
      elementsBlock := tempPtr
      elements := reallocCells arr.elements bytes
      capacity := newNrOfElements }, heap)

/-- A round of the copying loop of `DBA_addElemToArr`. -/
def copyByte (arr : DynamicByteArray β) (bytestring : List β)
    (elements : List (Option β)) (i : Nat) :
    Traced Entry (List (Option β)) := do
  let start ← compute (arr.nrOfElements * arr.typeSize)
  let position ← compute (start + i)
  let byte ← Traced.ofExcept (readAt bytestring i)
  Traced.ofExcept (storeAt elements position byte)

/-- The copying loop. -/
def copyElement (arr : DynamicByteArray β) (bytestring : List β) :
    Traced Entry (List (Option β)) :=
  (List.range arr.typeSize).foldlM (copyByte arr bytestring) arr.elements

/-- The end of `DBA_addElemToArr`. -/
def storeElem (arr : DynamicByteArray β) (bytestring : List β) (heap : Heap) :
    Traced Entry (Int × DynamicByteArray β × Heap) := do
  let elements ← copyElement arr bytestring
  let nrOfElements ← compute (arr.nrOfElements + 1)
  return (0, { arr with
    elements := elements
    nrOfElements := nrOfElements }, heap)

/-- `DBA_addElemToArr` -/
def addElemToArr (arr : DynamicByteArray β) (bytestring : List β)
    (heap : Heap) : Traced Entry (Int × DynamicByteArray β × Heap) :=
  if arr.nrOfElements = arr.capacity then do
    let newCapacity ← compute (2 * arr.capacity)
    let (status, arr, heap) ← resizeArr fails arr newCapacity heap
    if status < 0 then return (-1, arr, heap)
    else storeElem arr bytestring heap
  else storeElem arr bytestring heap

/-- A run of calls of `DBA_addElemToArr`, whatever they return. -/
def addElems : List (List β) → DynamicByteArray β → Heap →
    Traced Entry (DynamicByteArray β × Heap)
  | [], arr, heap => return (arr, heap)
  | bytestring :: bytestrings, arr, heap => do
    let (_, arr, heap) ← addElemToArr fails arr bytestring heap
    addElems bytestrings arr heap

/-- An array is made, and if it could be, elements are added. -/
def run (typeSize : Nat) (bytestrings : List (List β)) (heap : Heap) :
    Traced Entry (Option (DynamicByteArray β × Heap)) := do
  match ← makeNewDynamicByteArray fails typeSize heap with
  | (none, _) => return none
  | (some arr, heap) =>
    let result ← addElems fails bytestrings arr heap
    return some result

end

/-! ## What a request says about sizes -/

/-- What is to hold of an entry: the value is one of the type, and the block
has the size that the capacity stands for. -/
def Entry.Right (typeSize : Nat) : Entry → Prop
  | .computed exact => exact < 18446744073709551616
  | .granted bytes capacity => bytes = capacity * typeSize

/-- All entries are right, and a fault is an access out of bounds. -/
abbrev Exact {α : Type} (typeSize : Nat) (Q : α → Prop)
    (x : Traced Entry α) : Prop :=
  x.Keeps (Entry.Right typeSize) (· = .outOfBounds) Q

section

variable {β : Type} {fails : FailurePlan} {typeSize exact bytes block : Nat}
  {arr : DynamicByteArray β} {bytestring : List β} {heap heap' : Heap}

theorem toSize_of_lt (h : exact < 18446744073709551616) :
    toSize exact = exact :=
  Nat.mod_eq_of_lt h

theorem exact_compute (h : exact < 18446744073709551616) :
    Exact typeSize (fun value => value = exact) (compute exact) := by
  rw [compute, toSize_of_lt h]
  exact .logged h rfl

theorem exact_granted {capacity : Nat} (h : bytes = capacity * typeSize) :
    Exact typeSize (fun _ => True) (Traced.emit (.granted bytes capacity)) :=
  .emit h

/-- A request that is not refused is not too large. -/
theorem le_requestLimit {call : Nat} (h : limited fails bytes call = false) :
    bytes ≤ requestLimit := by
  simp only [limited, Bool.or_eq_false_iff, decide_eq_false_iff_not] at h
  exact Nat.le_of_not_lt h.1

theorem malloc_limited
    (h : heap.malloc (limited fails bytes) = (some block, heap')) :
    bytes ≤ requestLimit := by
  cases hplan : limited fails bytes heap.calls with
  | true =>
      rw [Heap.malloc_refused hplan] at h
      cases h
  | false => exact le_requestLimit hplan

theorem realloc_limited {old : Nat}
    (h : heap.realloc (limited fails bytes) old = (some block, heap')) :
    bytes ≤ requestLimit := by
  cases hplan : limited fails bytes heap.calls with
  | true =>
      rw [Heap.realloc, if_pos hplan] at h
      cases h
  | false => exact le_requestLimit hplan

/-! ## The invariant -/

/-- The block is as large as the capacity says, and no larger than a request
may be. -/
structure Fits (typeSize : Nat) (arr : DynamicByteArray β) : Prop where
  width : arr.typeSize = typeSize
  count : arr.nrOfElements ≤ arr.capacity
  growable : 0 < arr.capacity
  limit : arr.capacity * typeSize ≤ requestLimit
  size : arr.elements.length = arr.capacity * typeSize

theorem Fits.capacity_le (h : Fits typeSize arr) (hpos : 1 ≤ typeSize) :
    arr.capacity ≤ requestLimit :=
  Nat.le_trans (Nat.le_mul_of_pos_right arr.capacity hpos) h.limit

/-- Twice the bytes of a block are still a value of the type. -/
theorem Fits.double_lt (h : Fits typeSize arr) :
    2 * arr.capacity * typeSize < 18446744073709551616 := by
  have hlimit := h.limit
  unfold requestLimit at hlimit
  rw [Nat.mul_assoc]
  omega

/-- A byte of an element for which there is room is in the block. -/
theorem position_lt (hroom : arr.nrOfElements < arr.capacity) {i : Nat}
    (hi : i < typeSize) :
    arr.nrOfElements * typeSize + i < arr.capacity * typeSize := by
  have hnext : (arr.nrOfElements + 1) * typeSize ≤ arr.capacity * typeSize :=
    Nat.mul_le_mul_right typeSize hroom
  rw [Nat.succ_mul] at hnext
  omega

theorem initSize_mul_lt (hsize : typeSize < 1152921504606846976) :
    initSize * typeSize < 18446744073709551616 := by
  unfold initSize
  omega

/-- An array is not made, or it is made in a block that is granted for its
first capacity. -/
theorem makeNewDynamicByteArray_cases (fails : FailurePlan)
    (hsize : typeSize < 1152921504606846976) (heap : Heap) :
    (∃ log heap', (makeNewDynamicByteArray fails typeSize heap :
        Traced Entry (Option (DynamicByteArray β) × Heap)) =
          ⟨log, .ok (none, heap')⟩ ∧ ∀ entry ∈ log, entry.Right typeSize) ∨
    (initSize * typeSize ≤ requestLimit ∧ ∃ block elementsBlock heap',
      (makeNewDynamicByteArray fails typeSize heap :
        Traced Entry (Option (DynamicByteArray β) × Heap)) =
          ⟨[.computed (initSize * typeSize),
            .granted (initSize * typeSize) initSize],
          .ok (some ⟨block, typeSize, 0, initSize, elementsBlock,
            indeterminate (initSize * typeSize)⟩, heap')⟩) := by
  have hbytes := initSize_mul_lt hsize
  unfold makeNewDynamicByteArray
  cases heap.malloc fails with
  | mk header heap =>
      cases header with
      | none => exact .inl ⟨[], heap, rfl, nofun⟩
      | some block =>
          simp only [compute, toSize_of_lt hbytes]
          cases helements : heap.malloc
              (limited fails (initSize * typeSize)) with
          | mk elements heap' =>
              rw [Traced.ok_bind, helements]
              cases elements with
              | none =>
                  refine .inl ⟨_, heap'.free block, rfl, fun entry hentry => ?_⟩
                  rw [List.mem_singleton.mp hentry]
                  exact hbytes
              | some elementsBlock =>
                  exact .inr ⟨malloc_limited helements, block, elementsBlock,
                    heap', rfl⟩

theorem exact_makeNewDynamicByteArray (fails : FailurePlan)
    (hsize : typeSize < 1152921504606846976) (heap : Heap) :
    Exact typeSize
      (fun made : Option (DynamicByteArray β) × Heap =>
        ∀ arr, made.1 = some arr → Fits typeSize arr)
      (makeNewDynamicByteArray fails typeSize heap) := by
  have hbytes := initSize_mul_lt hsize
  obtain ⟨log, heap', hmade, hlog⟩ | ⟨hlimit, block, elements, heap', hmade⟩ :=
    makeNewDynamicByteArray_cases (β := β) fails hsize heap
  · rw [hmade]
    refine ⟨hlog, nofun, fun made hend arr harr => ?_⟩
    cases hend
    cases harr
  · rw [hmade]
    refine ⟨fun entry hentry => ?_, nofun, fun made hend arr harr => ?_⟩
    · cases hentry with
      | head => exact hbytes
      | tail _ hgranted =>
          rw [List.mem_singleton.mp hgranted]
          exact rfl
    · cases hend
      cases harr
      exact ⟨rfl, Nat.zero_le _, Nat.succ_pos _, hlimit, List.length_replicate⟩

/-- A request for twice the capacity. -/
theorem exact_resizeArr (fails : FailurePlan) (h : Fits typeSize arr)
    (heap : Heap) :
    Exact typeSize
      (fun result : Int × DynamicByteArray β × Heap =>
        Fits typeSize result.2.1 ∧ (¬ result.1 < 0 →
          result.2.1.nrOfElements < result.2.1.capacity))
      (resizeArr fails arr (2 * arr.capacity) heap) := by
  unfold resizeArr
  rw [h.width]
  refine (exact_compute h.double_lt).bind fun bytes hvalue => ?_
  subst hvalue
  cases hrequest : heap.realloc
      (limited fails (2 * arr.capacity * typeSize)) arr.elementsBlock with
  | mk tempPtr heap =>
      cases tempPtr with
      | none =>
          have hnegative : (-1 : Int) < 0 := by decide
          exact .pure ⟨h, fun hok => absurd hnegative hok⟩
      | some tempPtr =>
          have hlimit := realloc_limited hrequest
          have hcount := h.count
          have hgrowable := h.growable
          refine (exact_granted rfl).bind fun _ _ => .pure ⟨?_, fun _ => ?_⟩
          · refine ⟨rfl, ?_, ?_, hlimit, reallocCells_length _ _⟩
            · show arr.nrOfElements ≤ 2 * arr.capacity
              omega
            · show 0 < 2 * arr.capacity
              omega
          · show arr.nrOfElements < 2 * arr.capacity
            omega

theorem storeAt_length {cells cells' : List (Option β)} {i : Nat} {b : β}
    (h : storeAt cells i b = .ok cells') : cells'.length = cells.length := by
  unfold storeAt at h
  split at h
  · cases h
    exact List.length_set
  · cases h

/-- Neither access faults in another way than by leaving its object. -/
theorem exact_copyByte (h : Fits typeSize arr)
    (hroom : arr.nrOfElements < arr.capacity) (bytestring : List β)
    (elements : List (Option β)) {i : Nat} (hi : i < typeSize) :
    Exact typeSize (fun elements' => elements'.length = elements.length)
      (copyByte arr bytestring elements i) := by
  have hlimit := h.limit
  have hposition := position_lt hroom hi
  unfold requestLimit at hlimit
  unfold copyByte
  rw [h.width]
  refine (exact_compute (by omega)).bind fun start hstart => ?_
  subst hstart
  refine (exact_compute (by omega)).bind fun position hvalue => ?_
  refine Traced.Keeps.bind (Q := fun _ => True)
    (.ofExcept ?_ fun _ _ => trivial)
    fun byte _ => .ofExcept ?_ fun _ hstore => storeAt_length hstore
  · intro e he
    unfold readAt at he
    split at he
    · cases he
    · cases he
      rfl
  · intro e he
    unfold storeAt at he
    split at he
    · cases he
    · cases he
      rfl

theorem exact_copyElement (h : Fits typeSize arr)
    (hroom : arr.nrOfElements < arr.capacity) (bytestring : List β) :
    Exact typeSize (fun elements => elements.length = arr.elements.length)
      (copyElement arr bytestring) := by
  unfold copyElement
  rw [h.width]
  refine .foldlM rfl fun elements i hi hlength => ?_
  have hround := exact_copyByte h hroom bytestring elements
    (List.mem_range.mp hi)
  exact hround.weaken fun _ hsame => hsame.trans hlength

theorem exact_storeElem (hpos : 1 ≤ typeSize) (h : Fits typeSize arr)
    (hroom : arr.nrOfElements < arr.capacity) (bytestring : List β)
    (heap : Heap) :
    Exact typeSize (fun result => Fits typeSize result.2.1)
      (storeElem arr bytestring heap) := by
  have hcapacity := h.capacity_le hpos
  unfold requestLimit at hcapacity
  refine (exact_copyElement h hroom bytestring).bind fun elements hlength => ?_
  refine (exact_compute (by omega)).bind fun nrOfElements hvalue => ?_
  subst hvalue
  exact .pure ⟨h.width, hroom, h.growable, h.limit, hlength.trans h.size⟩

/-- **One call.** -/
theorem exact_addElemToArr (fails : FailurePlan) (hpos : 1 ≤ typeSize)
    (h : Fits typeSize arr) (bytestring : List β) (heap : Heap) :
    Exact typeSize (fun result => Fits typeSize result.2.1)
      (addElemToArr fails arr bytestring heap) := by
  have hcapacity := h.capacity_le hpos
  unfold requestLimit at hcapacity
  refine .ite (fun _ => ?_) fun hnotFull => ?_
  · refine (exact_compute (by omega)).bind fun newCapacity hvalue => ?_
    subst hvalue
    refine (exact_resizeArr fails h heap).bind
      fun ⟨status, arr', heap'⟩ hresized => ?_
    refine .ite (fun _ => .pure hresized.1) fun hok => ?_
    exact exact_storeElem hpos hresized.1 (hresized.2 hok) bytestring heap'
  · exact exact_storeElem hpos h (Nat.lt_of_le_of_ne h.count hnotFull)
      bytestring heap

/-- Any number of calls. -/
theorem exact_addElems (fails : FailurePlan) (hpos : 1 ≤ typeSize)
    (h : Fits typeSize arr) (bytestrings : List (List β)) (heap : Heap) :
    Exact typeSize (fun result => Fits typeSize result.1)
      (addElems fails bytestrings arr heap) := by
  induction bytestrings generalizing arr heap with
  | nil => exact .pure h
  | cons bytestring bytestrings ih =>
      refine (exact_addElemToArr fails hpos h bytestring heap).bind
        fun ⟨_, arr', heap'⟩ hadded => ?_
      exact ih hadded heap'

theorem exact_run (fails : FailurePlan) (hpos : 1 ≤ typeSize)
    (hsize : typeSize < 1152921504606846976) (bytestrings : List (List β))
    (heap : Heap) :
    Exact typeSize
      (fun result => ∀ arr heap, result = some (arr, heap) →
        Fits typeSize arr)
      (run fails typeSize bytestrings heap) := by
  refine (exact_makeNewDynamicByteArray fails hsize heap).bind
    fun ⟨made, heap'⟩ hmade => ?_
  cases made with
  | none => exact .pure nofun
  | some arr =>
      refine (exact_addElems fails hpos (hmade arr rfl) bytestrings
        heap').bind fun result hresult => .pure ?_
      intro arr heap heq
      cases heq
      exact hresult

/-! ## The functions on exact integers -/

@[simp] theorem outcome_compute (exact : Nat) :
    (compute exact).outcome = .ok (toSize exact) := rfl

theorem outcome_resizeArr (fails : FailurePlan) (h : Fits typeSize arr)
    (heap : Heap) :
    (resizeArr fails arr (2 * arr.capacity) heap).outcome =
      .ok (DBA.resizeArr (limited fails (2 * arr.capacity * typeSize)) arr
        (2 * arr.capacity) heap) := by
  unfold resizeArr DBA.resizeArr
  rw [Traced.outcome_bind, outcome_compute, except_ok_bind, h.width,
    toSize_of_lt h.double_lt]
  generalize heap.realloc (limited fails (2 * arr.capacity * typeSize))
    arr.elementsBlock = requested
  cases requested with
  | mk tempPtr heap =>
      cases tempPtr with
      | none => rfl
      | some tempPtr => rfl

theorem outcome_copyElement (h : Fits typeSize arr)
    (hroom : arr.nrOfElements < arr.capacity) (bytestring : List β) :
    (copyElement arr bytestring).outcome =
      DBA.copyElement arr bytestring := by
  have hlimit := h.limit
  unfold requestLimit at hlimit
  refine Traced.outcome_foldlM arr.elements fun elements i hi => ?_
  rw [h.width] at hi
  have hposition := position_lt hroom (List.mem_range.mp hi)
  have hstart : toSize (arr.nrOfElements * typeSize) =
      arr.nrOfElements * typeSize := toSize_of_lt (by omega)
  have hsum : toSize (arr.nrOfElements * typeSize + i) =
      arr.nrOfElements * typeSize + i := toSize_of_lt (by omega)
  unfold copyByte
  simp only [Traced.outcome_bind, outcome_compute, Traced.outcome_ofExcept,
    except_ok_bind, h.width, hstart, hsum]

theorem outcome_storeElem (hpos : 1 ≤ typeSize) (h : Fits typeSize arr)
    (hroom : arr.nrOfElements < arr.capacity) (bytestring : List β)
    (heap : Heap) :
    (storeElem arr bytestring heap).outcome = (do
      let elements ← DBA.copyElement arr bytestring
      return (0, { arr with
        elements := elements
        nrOfElements := arr.nrOfElements + 1 }, heap)) := by
  have hcapacity := h.capacity_le hpos
  unfold requestLimit at hcapacity
  unfold storeElem
  simp only [Traced.outcome_bind, outcome_copyElement h hroom,
    outcome_compute, except_ok_bind, Traced.outcome_pure, except_pure]
  rw [toSize_of_lt (by omega)]

/-- A call computes what it computes on exact integers, under the plan that
refuses what is too large. -/
theorem outcome_addElemToArr (fails : FailurePlan) (hpos : 1 ≤ typeSize)
    (h : Fits typeSize arr) (bytestring : List β) (heap : Heap) :
    (addElemToArr fails arr bytestring heap).outcome =
      DBA.addElemToArr (limited fails (2 * arr.capacity * typeSize)) arr
        bytestring heap := by
  have hcapacity := h.capacity_le hpos
  unfold requestLimit at hcapacity
  unfold addElemToArr DBA.addElemToArr
  by_cases hfull : arr.nrOfElements = arr.capacity
  · have hdouble : toSize (2 * arr.capacity) = 2 * arr.capacity :=
      toSize_of_lt (by omega)
    have houtcome := outcome_resizeArr fails h heap
    have hresized := (exact_resizeArr fails h heap).result _ houtcome
    rw [if_pos hfull, if_pos hfull, Traced.outcome_bind, outcome_compute,
      except_ok_bind, hdouble, Traced.outcome_bind, houtcome, except_ok_bind]
    generalize DBA.resizeArr (limited fails (2 * arr.capacity * typeSize)) arr
      (2 * arr.capacity) heap = resized at hresized
    cases resized with
    | mk status rest =>
        simp only [Traced.outcome_ite, Traced.outcome_pure, except_pure]
        by_cases hrefused : status < 0
        · rw [if_pos hrefused, if_pos hrefused]
        · rw [if_neg hrefused, if_neg hrefused]
          exact outcome_storeElem hpos hresized.1 (hresized.2 hrefused)
            bytestring rest.2
  · have hnone : ¬ (0 : Int) < 0 := Int.lt_irrefl 0
    rw [if_neg hfull, if_neg hfull]
    simp only
    rw [if_neg hnone]
    exact outcome_storeElem hpos h (Nat.lt_of_le_of_ne h.count hfull)
      bytestring heap

/-! ## A run returns -/

/-- One call, as on exact integers: the element is added or it is not. -/
theorem addElemToArr_returns (fails : FailurePlan) (hpos : 1 ≤ typeSize)
    (h : Fits typeSize arr) {elems : List (List β)}
    (hrep : DBA.Represents arr elems) (hbytes : typeSize ≤ bytestring.length)
    (heap : Heap) :
    ∃ status arr' heap' added,
      (addElemToArr fails arr bytestring heap).outcome =
        .ok (status, arr', heap') ∧ Fits typeSize arr' ∧
      added.Sublist [bytestring.take typeSize] ∧
      DBA.Represents arr' (elems ++ added) := by
  have houtcome := outcome_addElemToArr fails hpos h bytestring heap
  have hexact := exact_addElemToArr fails hpos h bytestring heap
  rw [← h.width] at hbytes
  obtain ⟨arr', heap', hadd, -, hrep'⟩ | ⟨hrefused, -, -⟩ :=
    DBA.addElemToArr_spec (limited fails (2 * arr.capacity * typeSize)) heap
      hrep hbytes
  · rw [hadd] at houtcome
    rw [h.width] at hrep'
    exact ⟨0, arr', heap', _, houtcome, hexact.result _ houtcome, .refl _,
      hrep'⟩
  · rw [hrefused] at houtcome
    refine ⟨-1, arr, _, [], houtcome, h, List.nil_sublist _, ?_⟩
    rwa [List.append_nil]

/-- On the elements that are still to be added. -/
theorem addElems_returns (fails : FailurePlan) (hpos : 1 ≤ typeSize)
    (h : Fits typeSize arr) {elems bytestrings : List (List β)}
    (hrep : DBA.Represents arr elems)
    (hbytes : ∀ bytestring ∈ bytestrings, typeSize ≤ bytestring.length)
    (heap : Heap) :
    ∃ arr' heap' added,
      (addElems fails bytestrings arr heap).outcome = .ok (arr', heap') ∧
      added.Sublist (bytestrings.map (List.take typeSize)) ∧
      DBA.Represents arr' (elems ++ added) := by
  induction bytestrings generalizing arr elems heap with
  | nil =>
      refine ⟨arr, heap, [], rfl, List.nil_sublist _, ?_⟩
      rwa [List.append_nil]
  | cons bytestring bytestrings ih =>
      obtain ⟨status, arr', heap', first, hadd, hfits, hfirst, hrep'⟩ :=
        addElemToArr_returns fails hpos h hrep
          (hbytes bytestring List.mem_cons_self) heap
      obtain ⟨arr'', heap'', rest, hrun, hrest, hrep''⟩ :=
        ih hfits hrep' (fun b hb => hbytes b (List.mem_cons_of_mem _ hb))
          heap'
      refine ⟨arr'', heap'', first ++ rest, ?_, hfirst.append hrest, ?_⟩
      · rw [addElems, Traced.outcome_bind, hadd, except_ok_bind]
        exact hrun
      · rwa [← List.append_assoc]

/-! ## A growth is logged -/

/-- The capacity is still the one at the start, or a block has been granted
for it. -/
def Logged (start stop : Nat) (log : List Entry) : Prop :=
  stop = start ∨ ∃ bytes, .granted bytes stop ∈ log

theorem Logged.behind {start stop : Nat} {before after : List Entry}
    (h : Logged start stop after) : Logged start stop (before ++ after) :=
  h.imp id fun ⟨bytes, hmem⟩ => ⟨bytes, List.mem_append_right before hmem⟩

theorem Logged.trans {start middle stop : Nat} {before after : List Entry}
    (h : Logged start middle before) (h' : Logged middle stop after) :
    Logged start stop (before ++ after) := by
  cases h' with
  | inl hsame =>
      rw [hsame]
      exact h.imp id fun ⟨bytes, hmem⟩ =>
        ⟨bytes, List.mem_append_left after hmem⟩
  | inr hgranted => exact Logged.behind (.inr hgranted)

theorem resizeArr_logs (fails : FailurePlan) (arr : DynamicByteArray β)
    (newNrOfElements : Nat) (heap : Heap) :
    (resizeArr fails arr newNrOfElements heap).Ends fun result log =>
      Logged arr.capacity result.2.1.capacity log := by
  refine Traced.Ends.any.bind fun bytes _ _ => ?_
  cases heap.realloc (limited fails bytes) arr.elementsBlock with
  | mk tempPtr heap =>
      cases tempPtr with
      | none => exact .pure (.inl rfl)
      | some tempPtr =>
          intro result hresult
          cases hresult
          exact .inr ⟨bytes, List.mem_append_right _ List.mem_cons_self⟩

theorem storeElem_logs (arr : DynamicByteArray β) (bytestring : List β)
    (heap : Heap) :
    (storeElem arr bytestring heap).Ends fun result log =>
      Logged arr.capacity result.2.1.capacity log :=
  Traced.Ends.any.bind fun _ _ _ =>
    Traced.Ends.any.bind fun _ _ _ => .pure (.inl rfl)

theorem addElemToArr_logs (fails : FailurePlan) (arr : DynamicByteArray β)
    (bytestring : List β) (heap : Heap) :
    (addElemToArr fails arr bytestring heap).Ends fun result log =>
      Logged arr.capacity result.2.1.capacity log := by
  refine .ite (fun _ => ?_) fun _ => storeElem_logs arr bytestring heap
  refine Traced.Ends.any.bind fun newCapacity _ _ => ?_
  refine (resizeArr_logs fails arr newCapacity heap).bind
    fun ⟨status, arr', heap'⟩ _ hresized => .ite (fun _ => ?_) fun _ => ?_
  · exact .pure (hresized.trans (.inl rfl)).behind
  · exact (storeElem_logs arr' bytestring heap').weaken fun _ _ hstored =>
      (hresized.trans hstored).behind

theorem addElems_logs (fails : FailurePlan) (bytestrings : List (List β))
    (arr : DynamicByteArray β) (heap : Heap) :
    (addElems fails bytestrings arr heap).Ends fun result log =>
      Logged arr.capacity result.1.capacity log := by
  induction bytestrings generalizing arr heap with
  | nil => exact .pure (.inl rfl)
  | cons bytestring bytestrings ih =>
      refine (addElemToArr_logs fails arr bytestring heap).bind
        fun ⟨status, arr', heap'⟩ _ hadded => ?_
      exact (ih arr' heap').weaken fun _ _ hrest => hadded.trans hrest

/-- The log of a run has the blocks of its two halves. -/
theorem run_logs (fails : FailurePlan)
    (hsize : typeSize < 1152921504606846976) (bytestrings : List (List β))
    (heap : Heap) :
    (run fails typeSize bytestrings heap).Ends fun result log =>
      ∀ arr heap', result = some (arr, heap') → ∃ bytes,
        .granted bytes arr.capacity ∈ log := by
  have hmakes : (makeNewDynamicByteArray fails typeSize heap).Ends
      fun (made : Option (DynamicByteArray β) × Heap) log =>
        ∀ arr, made.1 = some arr → ∃ bytes,
          .granted bytes arr.capacity ∈ log := by
    intro made hend arr harr
    obtain ⟨log, heap', hmade, -⟩ | ⟨-, block, elements, heap', hmade⟩ :=
      makeNewDynamicByteArray_cases (β := β) fails hsize heap
    · rw [hmade] at hend
      cases hend
      cases harr
    · rw [hmade] at hend ⊢
      cases hend
      cases harr
      exact ⟨_, List.mem_cons_of_mem _ List.mem_cons_self⟩
  refine hmakes.bind fun ⟨made, heap'⟩ before hmade => ?_
  cases made with
  | none => exact .pure nofun
  | some arr =>
      refine (addElems_logs fails bytestrings arr heap').bind
        fun result after hadded => .pure ?_
      intro arr' heap'' hresult
      cases hresult
      obtain ⟨bytes, hbytes⟩ := hmade arr rfl
      cases hadded with
      | inl hsame =>
          have hstart := List.mem_append_left (after ++ []) hbytes
          rw [← hsame] at hstart
          exact ⟨bytes, hstart⟩
      | inr hgrown =>
          obtain ⟨bytes', hbytes'⟩ := hgrown
          exact ⟨bytes', List.mem_append_right _
            (List.mem_append_left [] hbytes')⟩

/-! ## Every run -/

/-- **A run returns**: without an array, or with one that holds the elements
whose requests were granted, in a block that the log has the size of. -/
theorem run_returns (fails : FailurePlan) (hpos : 1 ≤ typeSize)
    (hsize : typeSize < 1152921504606846976) {bytestrings : List (List β)}
    (hbytes : ∀ bytestring ∈ bytestrings, typeSize ≤ bytestring.length)
    (heap : Heap) :
    (run fails typeSize bytestrings heap).outcome = .ok none ∨
      ∃ arr heap' added,
        (run fails typeSize bytestrings heap).outcome =
          .ok (some (arr, heap')) ∧
        added.Sublist (bytestrings.map (List.take typeSize)) ∧
        DBA.Represents arr added ∧
        .granted (arr.capacity * typeSize) arr.capacity ∈
          (run fails typeSize bytestrings heap).log := by
  obtain ⟨log, heap₁, hmade, -⟩ | ⟨hlimit, block, elements, heap₁, hmade⟩ :=
    makeNewDynamicByteArray_cases (β := β) fails hsize heap
  · refine .inl ?_
    rw [run, Traced.outcome_bind, hmade]
    rfl
  · have hfits := (exact_makeNewDynamicByteArray fails hsize heap).result _
      (congrArg Traced.outcome hmade)
    have hrep : DBA.Represents (⟨block, typeSize, 0, initSize, elements,
        indeterminate (initSize * typeSize)⟩ : DynamicByteArray β) [] :=
      ⟨nofun, rfl, Nat.zero_le _, Nat.succ_pos _, List.length_replicate, _,
        rfl⟩
    obtain ⟨arr', heap', added, hadd, hsublist, hrep'⟩ :=
      addElems_returns fails hpos (hfits _ rfl) hrep hbytes heap₁
    have hend : (run fails typeSize bytestrings heap).outcome =
        .ok (some (arr', heap')) := by
      rw [run, Traced.outcome_bind, hmade, except_ok_bind,
        Traced.outcome_bind, hadd]
      rfl
    obtain ⟨bytes, hlogged⟩ := run_logs fails hsize bytestrings heap _
      hend arr' heap' rfl
    have hexact : bytes = arr'.capacity * typeSize :=
      (exact_run fails hpos hsize bytestrings heap).entries _ hlogged
    rw [hexact] at hlogged
    exact .inr ⟨arr', heap', added, hend, hsublist, hrep', hlogged⟩

/-- **Nothing wraps, and every block has the size that its capacity records**:
for the requests of a run one by one, and for the array it ends with. -/
theorem run_fits (fails : FailurePlan) (hpos : 1 ≤ typeSize)
    (hsize : typeSize < 1152921504606846976) (bytestrings : List (List β))
    (heap : Heap) :
    (∀ entry ∈ (run fails typeSize bytestrings heap).log,
        entry.Right typeSize) ∧
      ∀ arr heap', (run fails typeSize bytestrings heap).outcome =
          .ok (some (arr, heap')) →
        arr.elements.length = arr.capacity * typeSize := by
  have hrun := exact_run fails hpos hsize bytestrings heap
  exact ⟨hrun.entries, fun arr heap' hend =>
    (hrun.result _ hend arr heap' rfl).size⟩

/-- Seventeen bytes, for the last of which the array grows. -/
theorem run_fits_seventeen :
    (∀ entry ∈ (run noFailures 1 (List.replicate 17 [(7 : UInt8)])
        Heap.empty).log, entry.Right 1) ∧
      ∀ arr heap', (run noFailures 1 (List.replicate 17 [(7 : UInt8)])
          Heap.empty).outcome = .ok (some (arr, heap')) →
        arr.elements.length = arr.capacity * 1 :=
  run_fits noFailures (by decide) (by decide) (List.replicate 17 [7])
    Heap.empty

example : (run noFailures 1 [[(7 : UInt8)]] Heap.empty).log =
    [.computed 16, .granted 16 16, .computed 0, .computed 0, .computed 1] := by
  decide

end

end OsLabs.Iwish.SizeArithmetic
