import Mathlib.Data.List.Induction
import OsLabs.Iwish.DynamicByteArray

/-!
# Runs of operations on a growing byte array

`addAll_refines`: under any failure plan, a sequence of `DBA_addElemToArr`
calls leaves the array holding the elements whose add returned 0, and
`DBA_getElem` reads them back.

`DBA_resizeArr` is exported too, and takes any number of elements.
`withinCapacity_iff` says when a mixture of both calls keeps the elements
inside the block: exactly when no resize goes below the number of elements
stored by then.  `DBA_addElemToArr` grows the block when it is full, but it
looks for equality, so an array that is more than full is never grown.
-/

namespace OsLabs.Iwish.DBA

open OsLabs.Posix

variable {β : Type}

/-! ## Reading elements -/

/-- A pointer into a block. -/
structure Address where
  block : Nat
  offset : Nat
  deriving Repr, DecidableEq

/-- `DBA_getElem`. -/
def getElem (arr : DynamicByteArray β) (index : Nat) : Address :=
  ⟨arr.elementsBlock, index * arr.typeSize⟩

/-- The `type_size` bytes that `DBA_getElem` points to. -/
def loadElem (arr : DynamicByteArray β) (index : Nat) :
    Except Fault (List β) :=
  (List.range arr.typeSize).mapM fun i =>
    loadAt arr.elements ((getElem arr index).offset + i)

/-- What `DBA_getElem` gives for every index below `nr_of_elements`. -/
def contents (arr : DynamicByteArray β) : Except Fault (List (List β)) :=
  (List.range arr.nrOfElements).mapM (loadElem arr)

section Loading

variable {cells front rest : List (Option β)} {bytes : List β}

/-- A loop whose rounds all succeed collects their results. -/
theorem mapM_eq_ok {ι ε γ : Type} {f : ι → Except ε γ} {g : ι → γ}
    {l : List ι} (h : ∀ i ∈ l, f i = .ok (g i)) : l.mapM f = .ok (l.map g) := by
  induction l with
  | nil => rfl
  | cons i l ih =>
      have hhead := h i List.mem_cons_self
      have htail := ih fun j hj => h j (List.mem_cons_of_mem i hj)
      rw [List.mapM_cons, hhead, except_ok_bind, htail]
      rfl

/-- Reading a list index by index gives the list. -/
theorem mapM_range_eq {ε γ : Type} {f : Nat → Except ε γ} {l : List γ}
    (h : ∀ (i : Nat) (hi : i < l.length), f i = .ok l[i]) :
    (List.range l.length).mapM f = .ok l := by
  cases l with
  | nil => rfl
  | cons a l =>
      have hround : ∀ i ∈ List.range (a :: l).length,
          f i = .ok ((a :: l).getD i a) := by
        intro i hi
        have hlt := List.mem_range.mp hi
        rw [h i hlt, List.getD, List.getElem?_eq_getElem hlt]
        rfl
      rw [mapM_eq_ok hround]
      congr 1
      apply List.ext_getElem
      · simp
      · intro i hi hi'
        simp [List.getD, List.getElem?_eq_getElem hi']

/-- A byte that follows a front of known length. -/
theorem loadAt_append_map {start i : Nat} (hstart : front.length = start)
    (hi : i < bytes.length) :
    loadAt (front ++ (bytes.map some ++ rest)) (start + i) = .ok bytes[i] := by
  have hlt : i < (bytes.map some).length := by rwa [List.length_map]
  unfold loadAt
  rw [List.getElem?_append_right (by omega), hstart, Nat.add_sub_cancel_left,
    List.getElem?_append_left hlt, List.getElem?_map,
    List.getElem?_eq_getElem hi]
  rfl

end Loading

section Represents

variable {arr arr' : DynamicByteArray β} {elems : List (List β)}

theorem Represents.loadElem (h : Represents arr elems) {index : Nat}
    (hindex : index < elems.length) :
    loadElem arr index = .ok elems[index] := by
  obtain ⟨spare, hstored⟩ := h.stored
  have hsplit : elems = elems.take index ++
      elems[index] :: elems.drop (index + 1) := by
    rw [← List.drop_eq_getElem_cons hindex, List.take_append_drop]
  have hfront : ((elems.take index).flatten.map some).length =
      index * arr.typeSize := by
    have hwidth : ∀ e ∈ elems.take index, e.length = arr.typeSize :=
      fun e he => h.width e (List.mem_of_mem_take he)
    rw [List.length_map, flatten_length_of_width hwidth, List.length_take,
      Nat.min_eq_left (Nat.le_of_lt hindex)]
  have hcells : arr.elements = (elems.take index).flatten.map some ++
      (elems[index].map some ++
        ((elems.drop (index + 1)).flatten.map some ++ spare)) := by
    rw [hstored]
    nth_rewrite 1 [hsplit]
    simp only [List.flatten_append, List.flatten_cons, List.map_append,
      List.append_assoc]
  unfold DBA.loadElem
  rw [← h.width elems[index] (List.getElem_mem hindex)]
  apply mapM_range_eq
  intro i hi
  rw [hcells]
  exact loadAt_append_map hfront hi

/-- `DBA_getElem` reads back what the array holds. -/
theorem Represents.contents (h : Represents arr elems) :
    contents arr = .ok elems := by
  unfold DBA.contents
  rw [h.count]
  apply mapM_range_eq
  intro index hindex
  exact h.loadElem hindex

end Represents

/-! ## A sequence of adds -/

/-- `DBA_addElemToArr` once for each of `bytestrings`: the values returned,
and the array at the end. -/
def addAll (fails : FailurePlan) : List (List β) → DynamicByteArray β → Heap →
    Except Fault (List Int × DynamicByteArray β × Heap)
  | [], arr, heap => return ([], arr, heap)
  | bytestring :: rest, arr, heap => do
    let (status, arr, heap) ← addElemToArr fails arr bytestring heap
    let (statuses, arr, heap) ← addAll fails rest arr heap
    return (status :: statuses, arr, heap)

/-- The elements whose add returned 0. -/
def stored : List (List β) → List Int → List (List β)
  | [], _ => []
  | _ :: _, [] => []
  | bytestring :: rest, status :: statuses =>
    if status = 0 then bytestring :: stored rest statuses
    else stored rest statuses

section Adds

variable {arr : DynamicByteArray β} {elems bytestrings : List (List β)}

/-- The run lemma: from an array that holds `elems`, the stored elements are
appended to them. -/
theorem addAll_represents (fails : FailurePlan) (heap : Heap)
    (h : Represents arr elems)
    (hwidth : ∀ b ∈ bytestrings, b.length = arr.typeSize) :
    ∃ statuses arr' heap', addAll fails bytestrings arr heap =
        .ok (statuses, arr', heap') ∧
      statuses.length = bytestrings.length ∧
      (∀ status ∈ statuses, status = 0 ∨ status = -1) ∧
      arr'.typeSize = arr.typeSize ∧
      Represents arr' (elems ++ stored bytestrings statuses) := by
  induction bytestrings generalizing arr elems heap with
  | nil =>
      refine ⟨[], arr, heap, rfl, rfl, ?_, rfl, ?_⟩
      · intro status hstatus
        cases hstatus
      · show Represents arr (elems ++ [])
        rw [List.append_nil]
        exact h
  | cons b rest ih =>
      have hb : b.length = arr.typeSize := hwidth b List.mem_cons_self
      have hrest := fun b' hb' => hwidth b' (List.mem_cons_of_mem b hb')
      rcases addElemToArr_spec fails heap h (Nat.le_of_eq hb.symm) with
        ⟨arr₁, heap₁, hadd, htype, hrep⟩ | ⟨hadd, -, -⟩
      · rw [List.take_of_length_le (Nat.le_of_eq hb)] at hrep
        obtain ⟨statuses, arr', heap', hall, hlength, hvalues, htype', hrep'⟩ :=
          ih heap₁ hrep fun b' hb' => (hrest b' hb').trans htype.symm
        refine ⟨0 :: statuses, arr', heap', ?_, ?_, ?_, htype'.trans htype, ?_⟩
        · simp only [addAll, hadd, except_ok_bind, hall]
          rfl
        · rw [List.length_cons, List.length_cons, hlength]
        · intro status hstatus
          rcases List.mem_cons.mp hstatus with rfl | hstatus
          · exact Or.inl rfl
          · exact hvalues status hstatus
        · rw [stored, if_pos rfl, List.append_cons]
          exact hrep'
      · obtain ⟨statuses, arr', heap', hall, hlength, hvalues, htype', hrep'⟩ :=
          ih { heap with calls := heap.calls + 1 } h hrest
        refine ⟨-1 :: statuses, arr', heap', ?_, ?_, ?_, htype', ?_⟩
        · simp only [addAll, hadd, except_ok_bind, hall]
          rfl
        · rw [List.length_cons, List.length_cons, hlength]
        · intro status hstatus
          rcases List.mem_cons.mp hstatus with rfl | hstatus
          · exact Or.inr rfl
          · exact hvalues status hstatus
        · rw [stored, if_neg (by decide)]
          exact hrep'

/-- A refused add changes nothing, and any later add for which the request is
granted succeeds. -/
theorem addElemToArr_refused {fails : FailurePlan} {heap heap' : Heap}
    {arr' : DynamicByteArray β} {bytestring : List β} {status : Int}
    (h : Represents arr elems) (hwidth : bytestring.length = arr.typeSize)
    (hadd : addElemToArr fails arr bytestring heap = .ok (status, arr', heap'))
    (hstatus : status = -1) :
    arr' = arr ∧ ∀ later : Heap, fails later.calls = false →
      ∃ arr'' heap'', addElemToArr fails arr' bytestring later =
        .ok (0, arr'', heap'') ∧
      Represents arr'' (elems ++ [bytestring]) := by
  have hbytes := Nat.le_of_eq hwidth.symm
  rcases addElemToArr_spec fails heap h hbytes with
    ⟨arr₁, heap₁, hadded, -, -⟩ | ⟨hrefused, -, -⟩
  · rw [hadded] at hadd
    cases hadd
    cases hstatus
  · rw [hrefused] at hadd
    cases hadd
    refine ⟨rfl, fun later hlater => ?_⟩
    rcases addElemToArr_spec fails later h hbytes with
      ⟨arr₁, heap₁, hadded, -, hrep⟩ | ⟨-, -, hplan⟩
    · rw [List.take_of_length_le (Nat.le_of_eq hwidth)] at hrep
      exact ⟨arr₁, heap₁, hadded, hrep⟩
    · rw [hlater] at hplan
      cases hplan

/-- **The array refines the list of the elements stored.**  Whatever requests
are refused, no byte is written outside the block, and what `DBA_getElem` gives
are the elements whose add returned 0; a refused add leaves the array as it
was. -/
theorem addAll_refines (fails : FailurePlan) {typeSize : Nat}
    {heap₀ heap : Heap} {arr : DynamicByteArray β}
    (hnew : makeNewDynamicByteArray fails typeSize heap₀ = (some arr, heap))
    {bytestrings : List (List β)}
    (hwidth : ∀ b ∈ bytestrings, b.length = typeSize) :
    ∃ statuses arr' heap', addAll fails bytestrings arr heap =
        .ok (statuses, arr', heap') ∧
      statuses.length = bytestrings.length ∧
      (∀ status ∈ statuses, status = 0 ∨ status = -1) ∧
      contents arr' = .ok (stored bytestrings statuses) ∧
      arr'.typeSize = typeSize ∧
      arr'.nrOfElements = (stored bytestrings statuses).length ∧
      arr'.nrOfElements ≤ arr'.capacity ∧
      arr'.elements.length = arr'.capacity * typeSize ∧
      ∀ (bytestring : List β) (arr'' : DynamicByteArray β) (heap'' : Heap),
        bytestring.length = typeSize →
        addElemToArr fails arr' bytestring heap' = .ok (-1, arr'', heap'') →
        arr'' = arr' ∧ ∀ later : Heap, fails later.calls = false →
          ∃ arr₃ heap₃, addElemToArr fails arr'' bytestring later =
            .ok (0, arr₃, heap₃) := by
  obtain ⟨hstart, rfl⟩ := makeNewDynamicByteArray_represents hnew
  obtain ⟨statuses, arr', heap', hall, hlength, hvalues, htype, hrep⟩ :=
    addAll_represents fails heap hstart hwidth
  rw [List.nil_append] at hrep
  refine ⟨statuses, arr', heap', hall, hlength, hvalues, hrep.contents, htype,
    hrep.count, ?_, ?_, ?_⟩
  · rw [hrep.count]
    exact hrep.fits
  · rw [← htype]
    exact hrep.size
  · intro bytestring arr'' heap'' hbytes hadd
    obtain ⟨hsame, hlater⟩ :=
      addElemToArr_refused hrep (hbytes.trans htype.symm) hadd rfl
    refine ⟨hsame, fun later hgranted => ?_⟩
    obtain ⟨arr₃, heap₃, hadded, -⟩ := hlater later hgranted
    exact ⟨arr₃, heap₃, hadded⟩

/-- Eighteen adds of two bytes, the first request for more room refused. -/
theorem addAll_refines_refused :
    ∃ statuses arr' heap', addAll (fun n => n == 2)
        (List.replicate 18 [7, 9])
        ⟨0, 2, 0, initSize, 1, indeterminate 32⟩ ⟨2, [.alloc 1, .alloc 0]⟩ =
        .ok (statuses, arr', heap') ∧
      statuses.length = 18 ∧
      contents arr' = .ok (stored (List.replicate 18 [7, 9]) statuses) := by
  have hwidth : ∀ b ∈ List.replicate 18 [7, 9], b.length = 2 := by decide
  have hnew : makeNewDynamicByteArray (β := Nat) (fun n => n == 2) 2
      Heap.empty = (some ⟨0, 2, 0, initSize, 1, indeterminate 32⟩,
        ⟨2, [.alloc 1, .alloc 0]⟩) := rfl
  obtain ⟨statuses, arr', heap', hall, hlength, -, hcontents, -⟩ :=
    addAll_refines (fun n => n == 2) hnew hwidth
  exact ⟨statuses, arr', heap', hall, hlength, hcontents⟩

end Adds

/-! ## Resizes and adds -/

/-- A call on an array. -/
inductive Operation (β : Type) where
  | resize (newNrOfElements : Nat)
  | add (bytestring : List β)
  deriving Repr, DecidableEq

/-- A call that a caller may make: for at least one element, or with as many
bytes as an element has. -/
def Operation.Valid (typeSize : Nat) : Operation β → Prop
  | .resize newNrOfElements => 1 ≤ newNrOfElements
  | .add bytestring => bytestring.length = typeSize

/-- The call. -/
def Operation.run (fails : FailurePlan) (op : Operation β)
    (arr : DynamicByteArray β) (heap : Heap) :
    Except Fault (Int × DynamicByteArray β × Heap) :=
  match op with
  | .resize newNrOfElements => .ok (resizeArr fails arr newNrOfElements heap)
  | .add bytestring => addElemToArr fails arr bytestring heap

/-- A sequence of calls. -/
def runOperations (fails : FailurePlan) : List (Operation β) →
    DynamicByteArray β → Heap → Except Fault (DynamicByteArray β × Heap)
  | [], arr, heap => return (arr, heap)
  | op :: ops, arr, heap => do
    let (_, arr, heap) ← op.run fails arr heap
    runOperations fails ops arr heap

/-- Every write of the sequence lies inside the block, and after every call
there are no more elements than the block has room for. -/
def WithinCapacity (ops : List (Operation β)) (arr : DynamicByteArray β)
    (heap : Heap) : Prop :=
  ∀ before, before <+: ops → ∃ arr' heap',
    runOperations noFailures before arr heap = .ok (arr', heap') ∧
      arr'.nrOfElements ≤ arr'.capacity

/-- The number of adds in a sequence. -/
def addCount : List (Operation β) → Nat
  | [] => 0
  | .resize _ :: ops => addCount ops
  | .add _ :: ops => addCount ops + 1

/-- No resize asks for less room than the adds before it have filled. -/
def NeverBelow (ops : List (Operation β)) : Prop :=
  ∀ before newNrOfElements, before ++ [.resize newNrOfElements] <+: ops →
    addCount before ≤ newNrOfElements

section Operations

variable {arr arr' : DynamicByteArray β} {ops before : List (Operation β)}
  {typeSize count : Nat} {heap : Heap}

@[simp] theorem addCount_append (ops more : List (Operation β)) :
    addCount (ops ++ more) = addCount ops + addCount more := by
  induction ops with
  | nil => simp [addCount]
  | cons op ops ih =>
      cases op with
      | resize n => simpa [addCount] using ih
      | add b =>
          simp only [List.cons_append, addCount, ih]
          omega

/-- A sequence goes on where its first part has ended. -/
theorem runOperations_append {fails : FailurePlan} {heap' : Heap}
    (h : runOperations fails ops arr heap = .ok (arr', heap'))
    (more : List (Operation β)) :
    runOperations fails (ops ++ more) arr heap =
      runOperations fails more arr' heap' := by
  induction ops generalizing arr heap with
  | nil =>
      cases h
      rfl
  | cons op ops ih =>
      rw [runOperations] at h
      obtain ⟨⟨status, arr₁, heap₁⟩, hop, hrest⟩ := except_bind_eq_ok.mp h
      rw [List.cons_append, runOperations, hop]
      exact ih hrest

/-- The fields of an array after `count` adds, its capacity apart. -/
structure Sized (arr : DynamicByteArray β) (typeSize count : Nat) : Prop where
  typeSize_eq : arr.typeSize = typeSize
  count_eq : arr.nrOfElements = count
  growable : 0 < arr.capacity
  size : arr.elements.length = arr.capacity * typeSize

theorem Sized.resize (h : Sized arr typeSize count) {newNrOfElements : Nat}
    (hvalid : 1 ≤ newNrOfElements) (heap : Heap) :
    ∃ arr' heap', resizeArr noFailures arr newNrOfElements heap =
        (0, arr', heap') ∧
      Sized arr' typeSize count ∧ arr'.capacity = newNrOfElements := by
  refine ⟨_, _, rfl, ⟨h.typeSize_eq, h.count_eq, hvalid, ?_⟩, rfl⟩
  show (reallocCells _ _).length = newNrOfElements * typeSize
  rw [reallocCells_length, h.typeSize_eq]

/-- The copying loop stays inside a block that has room. -/
theorem Sized.copyElement (h : Sized arr typeSize count)
    (hroom : count < arr.capacity) {bytestring : List β}
    (hbytes : bytestring.length = typeSize) :
    ∃ elements, copyElement arr bytestring = .ok elements ∧
      elements.length = arr.elements.length := by
  have hlast : count * typeSize + typeSize ≤ arr.elements.length := by
    rw [h.size, ← Nat.succ_mul]
    exact Nat.mul_le_mul_right typeSize hroom
  have hcopy := copy_loop_eq (Nat.le_of_eq hbytes.symm) hlast
  refine ⟨_, by
    unfold DBA.copyElement
    rw [h.count_eq, h.typeSize_eq]
    exact hcopy, ?_⟩
  simp only [List.length_append, List.length_take, List.length_map,
    List.length_drop]
  omega

/-- An add on an array that is not more than full leaves it so. -/
theorem Sized.add (h : Sized arr typeSize count) (hfits : count ≤ arr.capacity)
    {bytestring : List β} (hvalid : bytestring.length = typeSize)
    (heap : Heap) :
    ∃ arr' heap', addElemToArr noFailures arr bytestring heap =
        .ok (0, arr', heap') ∧
      Sized arr' typeSize (count + 1) ∧ count + 1 ≤ arr'.capacity := by
  have hgrow := h.growable
  by_cases hfull : arr.nrOfElements = arr.capacity
  · have hdouble : 1 ≤ 2 * arr.capacity := by omega
    obtain ⟨large, heap', hresize, hlarge, hcapacity⟩ := h.resize hdouble heap
    have hroom : count < large.capacity := by
      rw [hcapacity]
      omega
    obtain ⟨elements, hcopy, hlength⟩ := hlarge.copyElement hroom hvalid
    refine ⟨{ large with
      elements := elements
      nrOfElements := large.nrOfElements + 1 }, heap', ?_,
      ⟨hlarge.typeSize_eq, congrArg (· + 1) hlarge.count_eq, hlarge.growable,
        hlength.trans hlarge.size⟩, hroom⟩
    simp [addElemToArr, hfull, hresize, hcopy]
  · have hcount := h.count_eq
    obtain ⟨elements, hcopy, hlength⟩ := h.copyElement (by omega) hvalid
    refine ⟨{ arr with
      elements := elements
      nrOfElements := arr.nrOfElements + 1 }, heap, ?_,
      ⟨h.typeSize_eq, congrArg (· + 1) hcount, hgrow, hlength.trans h.size⟩, ?_⟩
    · simp [addElemToArr, hfull, hcopy]
    · show count + 1 ≤ arr.capacity
      omega

/-- **One call** on an array that is not more than full: the writes are inside
the block, and the elements still are unless the call is a resize below their
number. -/
theorem Sized.step (h : Sized arr typeSize count) (hfits : count ≤ arr.capacity)
    {op : Operation β} (hvalid : op.Valid typeSize) (heap : Heap) :
    ∃ arr' heap', runOperations noFailures [op] arr heap = .ok (arr', heap') ∧
      Sized arr' typeSize (count + addCount [op]) ∧
      (count + addCount [op] ≤ arr'.capacity ↔
        ∀ n, op = .resize n → count ≤ n) := by
  cases op with
  | resize n =>
      obtain ⟨arr', heap', hresize, hsized, hcapacity⟩ := h.resize hvalid heap
      refine ⟨arr', heap', ?_, hsized, ?_⟩
      · simp only [runOperations, Operation.run, hresize]
        rfl
      · rw [hcapacity]
        constructor
        · intro hle m hm
          cases hm
          exact hle
        · intro hle
          exact hle n rfl
  | add b =>
      obtain ⟨arr', heap', hadd, hsized, hfits'⟩ := h.add hfits hvalid heap
      refine ⟨arr', heap', ?_, hsized, ?_⟩
      · simp only [runOperations, Operation.run, hadd, except_ok_bind]
        rfl
      · constructor
        · intro _ n hn
          cases hn
        · intro _
          exact hfits'

/-- An array after a sequence of calls, none of which has left the block. -/
def Reaches (arr : DynamicByteArray β) (heap : Heap) (typeSize : Nat)
    (ops : List (Operation β)) : Prop :=
  ∃ arr' heap', runOperations noFailures ops arr heap = .ok (arr', heap') ∧
    Sized arr' typeSize (addCount ops) ∧ addCount ops ≤ arr'.capacity

/-- The run lemma: one more call on an array that a sequence has reached. -/
theorem Reaches.snoc (h : Reaches arr heap typeSize ops) {op : Operation β}
    (hvalid : op.Valid typeSize) :
    ∃ arr' heap', runOperations noFailures (ops ++ [op]) arr heap =
        .ok (arr', heap') ∧
      arr'.nrOfElements = addCount (ops ++ [op]) ∧
      (addCount (ops ++ [op]) ≤ arr'.capacity ↔
        ∀ n, op = .resize n → addCount ops ≤ n) ∧
      (addCount (ops ++ [op]) ≤ arr'.capacity →
        Reaches arr heap typeSize (ops ++ [op])) := by
  obtain ⟨arr₁, heap₁, hrun, hsized, hfits⟩ := h
  obtain ⟨arr', heap', hlast, hsized', hiff⟩ := hsized.step hfits hvalid heap₁
  rw [← runOperations_append hrun, ← addCount_append] at *
  exact ⟨arr', heap', hlast, hsized'.count_eq, hiff,
    fun hle => ⟨arr', heap', hlast, hsized', hle⟩⟩

theorem reaches_of_withinCapacity (h : Sized arr typeSize 0)
    (hvalid : ∀ op ∈ ops, op.Valid typeSize)
    (hwithin : WithinCapacity ops arr heap) :
    Reaches arr heap typeSize ops := by
  induction ops using List.reverseRecOn with
  | nil => exact ⟨arr, heap, rfl, h, Nat.zero_le _⟩
  | append_singleton ops op ih =>
      have hfront : WithinCapacity ops arr heap := fun before hbefore =>
        hwithin before (hbefore.trans (List.prefix_append ops [op]))
      have hreach :=
        ih (fun o ho => hvalid o (List.mem_append_left [op] ho)) hfront
      have hop := hvalid op (List.mem_append_right ops List.mem_cons_self)
      obtain ⟨arr₁, heap₁, hrun, hcount, -, hreach'⟩ := hreach.snoc hop
      obtain ⟨arr₂, heap₂, hall, hle⟩ := hwithin _ (List.prefix_refl _)
      rw [hrun] at hall
      cases hall
      exact hreach' (hcount ▸ hle)

theorem reaches_of_neverBelow (h : Sized arr typeSize 0)
    (hvalid : ∀ op ∈ ops, op.Valid typeSize) (hnever : NeverBelow ops) :
    Reaches arr heap typeSize ops := by
  induction ops using List.reverseRecOn with
  | nil => exact ⟨arr, heap, rfl, h, Nat.zero_le _⟩
  | append_singleton ops op ih =>
      have hfront : NeverBelow ops := fun before n hbefore =>
        hnever before n (hbefore.trans (List.prefix_append ops [op]))
      have hreach :=
        ih (fun o ho => hvalid o (List.mem_append_left [op] ho)) hfront
      have hop := hvalid op (List.mem_append_right ops List.mem_cons_self)
      obtain ⟨arr₁, heap₁, -, -, hiff, hreach'⟩ := hreach.snoc hop
      apply hreach'
      rw [hiff]
      intro n hn
      subst hn
      exact hnever ops n (List.prefix_refl _)

theorem WithinCapacity.of_prefix (h : WithinCapacity ops arr heap)
    (hbefore : before <+: ops) : WithinCapacity before arr heap :=
  fun front hfront => h front (hfront.trans hbefore)

theorem NeverBelow.of_prefix (h : NeverBelow ops) (hbefore : before <+: ops) :
    NeverBelow before :=
  fun front n hfront => h front n (hfront.trans hbefore)

theorem makeNewDynamicByteArray_sized {fails : FailurePlan} {heap₀ : Heap}
    (hnew : makeNewDynamicByteArray fails typeSize heap₀ = (some arr, heap)) :
    Sized arr typeSize 0 := by
  obtain ⟨hrep, rfl⟩ := makeNewDynamicByteArray_represents hnew
  exact ⟨rfl, hrep.count, hrep.growable, hrep.size⟩

/-- **Resizes and adds keep the elements inside the block** exactly when no
resize goes below the number of elements stored by then. -/
theorem withinCapacity_iff {heap₀ : Heap}
    (hnew : makeNewDynamicByteArray noFailures typeSize heap₀ =
      (some arr, heap))
    (hvalid : ∀ op ∈ ops, op.Valid typeSize) :
    WithinCapacity ops arr heap ↔ NeverBelow ops := by
  have hstart := makeNewDynamicByteArray_sized hnew
  constructor
  · intro hwithin before n hbefore
    have hvalid' : ∀ op ∈ before ++ [.resize n], op.Valid typeSize :=
      fun op hop => hvalid op (hbefore.subset hop)
    have hreach := reaches_of_withinCapacity hstart
      (fun op hop => hvalid' op (List.mem_append_left _ hop))
      (hwithin.of_prefix ((List.prefix_append before _).trans hbefore))
    have hresize := hvalid' _ (List.mem_append_right before List.mem_cons_self)
    obtain ⟨arr₁, heap₁, hrun, hcount, hiff, -⟩ := hreach.snoc hresize
    obtain ⟨arr₂, heap₂, hall, hle⟩ := hwithin _ hbefore
    rw [hrun] at hall
    cases hall
    rw [hcount] at hle
    exact hiff.mp hle n rfl
  · intro hnever before hbefore
    obtain ⟨arr', heap', hrun, hsized, hfits⟩ := reaches_of_neverBelow hstart
      (fun op hop => hvalid op (hbefore.subset hop)) (hnever.of_prefix hbefore)
    refine ⟨arr', heap', hrun, ?_⟩
    rw [hsized.count_eq]
    exact hfits

/-- Two adds and a resize to two elements. -/
theorem withinCapacity_iff_shrunk :
    WithinCapacity [.add [1], .add [2], .resize 2]
        ⟨0, 1, 0, initSize, 1, indeterminate 16⟩ ⟨2, [.alloc 1, .alloc 0]⟩ ↔
      NeverBelow [.add [1], .add [2], .resize 2] := by
  have hnew : makeNewDynamicByteArray (β := Nat) noFailures 1 Heap.empty =
    (some ⟨0, 1, 0, initSize, 1, indeterminate 16⟩,
      ⟨2, [.alloc 1, .alloc 0]⟩) := rfl
  apply withinCapacity_iff hnew
  intro op hop
  simp only [List.mem_cons, List.not_mem_nil, or_false] at hop
  rcases hop with rfl | rfl | rfl
  · rfl
  · rfl
  · show 1 ≤ 2
    omega

/-- Two adds and a resize to one element, which `DBA_resizeArr` accepts: the
add after that writes behind the end of the block. -/
theorem not_withinCapacity_of_shrunk :
    ∃ arr heap arr' heap',
      makeNewDynamicByteArray (β := Nat) noFailures 1 Heap.empty =
        (some arr, heap) ∧
      runOperations noFailures [.add [1], .add [2], .resize 1] arr heap =
        .ok (arr', heap') ∧
      arr'.nrOfElements = 2 ∧ arr'.capacity = 1 ∧
      runOperations noFailures [.add [1], .add [2], .resize 1, .add [3]]
        arr heap = .error .outOfBounds ∧
      ¬ WithinCapacity [.add [1], .add [2], .resize 1, .add [3]] arr heap := by
  refine ⟨_, _, _, _, rfl, rfl, rfl, rfl, rfl, ?_⟩
  intro hwithin
  obtain ⟨arr', heap', hrun, -⟩ := hwithin _ (List.prefix_refl _)
  cases hrun

end Operations

end OsLabs.Iwish.DBA
