import Mathlib.Algebra.Group.Nat.Defs
import OsLabs.Iwish.DynamicByteArray

/-!
# Growth under refusals

An array of capacity `c` asks for more room when it holds `c`, `2 * c`,
`4 * c`, … elements.  `Granted` says that none of these requests is refused on
the way to a given number of elements, and `Filled.add` is one append of that
way.  The bytes behind the last element are indeterminate (`Filled`), so what
was not stored cannot be read back either.
-/

namespace OsLabs.Iwish.DBA

open OsLabs.Posix

/-! ## The requests of a growing array -/

section Granted

variable {fails : FailurePlan} {calls capacity total : Nat}

/-- No request is refused while an array grows from `capacity` to hold `total`
elements, the first of them being request number `calls`. -/
def Granted (fails : FailurePlan) (calls capacity total : Nat) : Prop :=
  ∀ k, capacity * 2 ^ k < total → fails (calls + k) = false

/-- With room for all elements nothing is asked for. -/
theorem granted_of_le (h : total ≤ capacity) :
    Granted fails calls capacity total := by
  intro k hk
  have hpow : 1 ≤ 2 ^ k := Nat.one_le_two_pow
  have hle : capacity * 1 ≤ capacity * 2 ^ k := Nat.mul_le_mul_left _ hpow
  omega

/-- Without it the first request doubles the capacity. -/
theorem granted_iff_of_lt (h : capacity < total) :
    Granted fails calls capacity total ↔
      fails calls = false ∧ Granted fails (calls + 1) (2 * capacity) total := by
  have hdouble : ∀ k, capacity * 2 ^ (k + 1) = 2 * capacity * 2 ^ k := by
    intro k
    rw [Nat.pow_succ, ← Nat.mul_assoc, Nat.mul_comm _ 2, Nat.mul_assoc]
  constructor
  · intro hgranted
    refine ⟨hgranted 0 (by simpa using h), fun k hk => ?_⟩
    have hnext := hgranted (k + 1) (by rw [hdouble]; exact hk)
    rw [Nat.add_right_comm]
    exact hnext
  · rintro ⟨hfirst, hrest⟩ k hk
    cases k with
    | zero => exact hfirst
    | succ k =>
        have hnext := hrest k (by rw [← hdouble]; exact hk)
        rw [Nat.add_right_comm] at hnext
        exact hnext

theorem not_granted_of_refused (hfull : capacity < total)
    (h : fails calls = true) : ¬ Granted fails calls capacity total := by
  intro hgranted
  have hfirst := ((granted_iff_of_lt hfull).mp hgranted).1
  rw [h] at hfirst
  cases hfirst

end Granted

/-! ## One append -/

section Filled

variable {β : Type} {fails : FailurePlan} {arr : DynamicByteArray β}
  {elems : List (List β)} {bytestring : List β} {heap heap' : Heap}

/-- `arr` holds the elements `elems` and nothing behind them. -/
structure Filled (arr : DynamicByteArray β) (elems : List (List β)) :
    Prop where
  represents : Represents arr elems
  cells : arr.elements = elems.flatten.map some ++
    indeterminate ((arr.capacity - elems.length) * arr.typeSize)

/-- The requests of `DBA_makeNewDynamicByteArray`. -/
theorem makeNewDynamicByteArray_none_iff (fails : FailurePlan)
    (typeSize : Nat) (heap : Heap) :
    (makeNewDynamicByteArray (β := β) fails typeSize heap).1 = none ↔
      fails heap.calls = true ∨ fails (heap.calls + 1) = true := by
  unfold makeNewDynamicByteArray
  cases hfirst : fails heap.calls with
  | true => simp [Heap.malloc, hfirst]
  | false =>
      cases hsecond : fails (heap.calls + 1) <;>
        simp [Heap.malloc, hfirst, hsecond]

theorem makeNewDynamicByteArray_filled {typeSize : Nat}
    (h : makeNewDynamicByteArray fails typeSize heap = (some arr, heap')) :
    Filled arr [] ∧ arr.typeSize = typeSize ∧ arr.capacity = initSize ∧
      heap'.calls = heap.calls + 2 := by
  obtain ⟨hrep, htype⟩ := makeNewDynamicByteArray_represents h
  obtain ⟨rfl, rfl⟩ := makeNewDynamicByteArray_some h
  exact ⟨⟨hrep, rfl⟩, rfl, rfl, rfl⟩

/-- Growing leaves the array filled as it was. -/
theorem Filled.resizeArr (h : Filled arr elems)
    (hplan : fails heap.calls = false) :
    ∃ arr' heap',
      resizeArr fails arr (2 * arr.capacity) heap = (0, arr', heap') ∧
      arr'.typeSize = arr.typeSize ∧ arr'.nrOfElements = arr.nrOfElements ∧
      arr'.capacity = 2 * arr.capacity ∧ heap'.calls = heap.calls + 1 ∧
      Filled arr' elems := by
  obtain ⟨arr', heap', hresize, htype, -, hrep⟩ :=
    resizeArr_granted h.represents hplan
  have hcopy := hresize
  unfold DBA.resizeArr at hcopy
  simp only [Heap.realloc, hplan] at hcopy
  cases hcopy
  refine ⟨_, _, hresize, rfl, rfl, rfl, rfl, hrep, ?_⟩
  have hfits := h.represents.fits
  have hgrow : arr.elements.length ≤ 2 * arr.capacity * arr.typeSize := by
    rw [h.represents.size]
    exact Nat.mul_le_mul_right _ (by omega)
  show reallocCells arr.elements (2 * arr.capacity * arr.typeSize) =
    elems.flatten.map some ++
      indeterminate ((2 * arr.capacity - elems.length) * arr.typeSize)
  rw [reallocCells_grow hgrow, h.represents.size]
  rw [h.cells, List.append_assoc]
  unfold indeterminate
  rw [List.replicate_append_replicate, ← Nat.sub_mul, ← Nat.add_mul]
  congr 3
  omega

/-- Storing an element where there is room for it. -/
theorem Filled.copyElement (h : Filled arr elems)
    (hbytes : bytestring.length = arr.typeSize)
    (hroom : elems.length < arr.capacity) :
    ∃ elements, copyElement arr bytestring = .ok elements ∧
      Filled { arr with
        elements := elements
        nrOfElements := arr.nrOfElements + 1 } (elems ++ [bytestring]) := by
  obtain ⟨elements, hcopy, hrep⟩ :=
    h.represents.copyElement (Nat.le_of_eq hbytes.symm) hroom
  rw [List.take_of_length_le (Nat.le_of_eq hbytes)] at hrep
  refine ⟨elements, hcopy, hrep, ?_⟩
  have hlength := h.represents.flatten_length
  have hlast : elems.length * arr.typeSize + arr.typeSize ≤
      arr.elements.length := by
    rw [h.represents.size, ← Nat.succ_mul]
    exact Nat.mul_le_mul_right arr.typeSize hroom
  have hloop := copy_loop_eq (Nat.le_of_eq hbytes.symm) hlast
  unfold DBA.copyElement at hcopy
  rw [h.represents.count, hloop] at hcopy
  have hvalue := Except.ok.inj hcopy
  have hfront : arr.elements.take (elems.length * arr.typeSize) =
      elems.flatten.map some := by
    rw [h.cells, ← hlength, ← List.length_map (f := some), List.take_left]
  have hbehind : arr.elements.drop
      (elems.length * arr.typeSize + arr.typeSize) =
        indeterminate ((arr.capacity - (elems.length + 1)) * arr.typeSize) := by
    rw [h.cells, ← List.drop_drop, ← hlength, ← List.length_map (f := some),
      List.drop_left]
    unfold indeterminate
    rw [List.drop_replicate, ← Nat.sub_one_mul]
    rfl
  show elements = _
  rw [← hvalue, hfront, hbehind, List.take_of_length_le (Nat.le_of_eq hbytes)]
  simp only [List.flatten_append, List.flatten_singleton, List.map_append,
    List.length_append, List.length_singleton]

/-- **One append.**  It stores the element and leaves the same requests to be
granted, or it is refused one of them and stores nothing. -/
theorem Filled.add (fails : FailurePlan) (h : Filled arr elems)
    (hbytes : bytestring.length = arr.typeSize) (heap : Heap) :
    (∃ arr' heap', addElemToArr fails arr bytestring heap =
        .ok (0, arr', heap') ∧ arr'.typeSize = arr.typeSize ∧
      Filled arr' (elems ++ [bytestring]) ∧
      ∀ total, elems.length < total →
        (Granted fails heap.calls arr.capacity total ↔
          Granted fails heap'.calls arr'.capacity total)) ∨
    (addElemToArr fails arr bytestring heap =
        .ok (-1, arr, { heap with calls := heap.calls + 1 }) ∧
      ∀ total, elems.length < total →
        ¬ Granted fails heap.calls arr.capacity total) := by
  have hcount := h.represents.count
  have hfits := h.represents.fits
  by_cases hfull : arr.nrOfElements = arr.capacity
  · have hlength : elems.length = arr.capacity := hcount.symm.trans hfull
    cases hplan : fails heap.calls with
    | true =>
        refine Or.inr ⟨?_, fun total htotal =>
          not_granted_of_refused (hlength ▸ htotal) hplan⟩
        simp [addElemToArr, hfull, resizeArr_refused arr _ hplan]
    | false =>
        obtain ⟨large, heap', hresize, htype, hnr, hcapacity, hcalls, hlarge⟩ :=
          h.resizeArr hplan
        have hgrow := h.represents.growable
        obtain ⟨elements, hcopy, hfilled⟩ :=
          hlarge.copyElement (hbytes.trans htype.symm) (by omega)
        refine Or.inl ⟨{ large with
          elements := elements
          nrOfElements := large.nrOfElements + 1 }, heap', ?_, htype, hfilled,
          fun total htotal => ?_⟩
        · simp [addElemToArr, hfull, hresize, hcopy]
        · rw [granted_iff_of_lt (hlength ▸ htotal), hcalls]
          show _ ∧ Granted _ _ _ _ ↔ Granted _ _ large.capacity _
          rw [hcapacity]
          exact and_iff_right hplan
  · obtain ⟨elements, hcopy, hfilled⟩ := h.copyElement hbytes (by omega)
    refine Or.inl ⟨{ arr with
      elements := elements
      nrOfElements := arr.nrOfElements + 1 }, heap, ?_, rfl, hfilled,
      fun _ _ => Iff.rfl⟩
    simp [addElemToArr, hfull, hcopy]

end Filled

end OsLabs.Iwish.DBA
