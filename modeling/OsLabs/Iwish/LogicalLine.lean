import OsLabs.Iwish.Reader

/-!
# What `readInput` reads

The line a user means, `logicalLine`, has its backslash-newline pairs deleted
and every other pair of a backslash and a byte kept.  `storedLine` is what
`readInput` stores instead: it consumes the same bytes, but keeps the
backslash of such a pair twice, before and after the other byte.  The two
agree on the lines without a backslash.
-/

namespace OsLabs.Iwish.LogicalLine

open OsLabs.Posix
open OsLabs.Iwish.DBA
open OsLabs.Iwish.Reader

/-! ## Lines -/

/-- The first logical line of a stream and the bytes after its newline. -/
def logicalLine : List UInt8 → Option (List UInt8 × List UInt8)
  | [] => none
  | c :: stream =>
    if c = newline then some ([], stream)
    else if c = backslash then
      match stream with
      | [] => none
      | c2 :: stream =>
        if c2 = newline then logicalLine stream
        else (logicalLine stream).map fun line => (c :: c2 :: line.1, line.2)
    else (logicalLine stream).map fun line => (c :: line.1, line.2)

/-- What `readInput` makes of it. -/
def storedLine : List UInt8 → Option (List UInt8 × List UInt8)
  | [] => none
  | c :: stream =>
    if c = newline then some ([], stream)
    else if c = backslash then
      match stream with
      | [] => none
      | c2 :: stream =>
        if c2 = newline then storedLine stream
        else (storedLine stream).map fun line => (c :: c2 :: c :: line.1, line.2)
    else (storedLine stream).map fun line => (c :: line.1, line.2)

theorem storedLine_newline (stream : List UInt8) :
    storedLine (newline :: stream) = some ([], stream) := by
  unfold storedLine
  exact if_pos rfl

theorem storedLine_continued (stream : List UInt8) :
    storedLine (backslash :: newline :: stream) = storedLine stream := by
  rw [storedLine.eq_def]
  rfl

theorem storedLine_escape {c2 : UInt8} (hc2 : c2 ≠ newline)
    (stream : List UInt8) :
    storedLine (backslash :: c2 :: stream) = (storedLine stream).map
      fun line => (backslash :: c2 :: backslash :: line.1, line.2) := by
  rw [storedLine.eq_def]
  exact if_neg hc2

theorem storedLine_plain {c : UInt8} (hc : c ≠ newline) (hb : c ≠ backslash)
    (stream : List UInt8) :
    storedLine (c :: stream) =
      (storedLine stream).map fun line => (c :: line.1, line.2) := by
  rw [storedLine.eq_def]
  simp only [if_neg hc, if_neg hb]

/-- How the two lines of one stream compare. -/
structure Agree (line stored : List UInt8) : Prop where
  subset : line ⊆ stored
  eq : backslash ∉ line → stored = line

theorem agree_cons {line stored : List UInt8} (h : Agree line stored)
    (c : UInt8) : Agree (c :: line) (c :: stored) := by
  constructor
  · exact List.cons_subset_cons c h.subset
  · intro hnot
    rw [h.eq fun hmem => hnot (List.mem_cons_of_mem c hmem)]

theorem agree_escape {line stored : List UInt8} (h : Agree line stored)
    (c2 : UInt8) :
    Agree (backslash :: c2 :: line)
      (backslash :: c2 :: backslash :: stored) := by
  constructor
  · apply List.cons_subset_cons
    apply List.cons_subset_cons
    exact List.subset_cons_of_subset backslash h.subset
  · exact fun hnot => absurd List.mem_cons_self hnot

/-- A line and the line stored for it. -/
inductive Doubled : List UInt8 → List UInt8 → Prop
  | nil : Doubled [] []
  | plain {line stored : List UInt8} {c : UInt8} (hb : c ≠ backslash)
      (h : Doubled line stored) : Doubled (c :: line) (c :: stored)
  | escape {line stored : List UInt8} (c2 : UInt8) (h : Doubled line stored) :
      Doubled (backslash :: c2 :: line) (backslash :: c2 :: backslash :: stored)

theorem Doubled.agree {line stored : List UInt8} (h : Doubled line stored) :
    Agree line stored := by
  induction h with
  | nil => exact ⟨List.Subset.refl _, fun _ => rfl⟩
  | plain hb h ih => exact agree_cons ih _
  | escape c2 h ih => exact agree_escape ih c2

/-- `storedLine` exists where `logicalLine` does, and leaves the same rest. -/
theorem storedLine_of_logicalLine {stream line rest : List UInt8}
    (h : logicalLine stream = some (line, rest)) :
    ∃ stored, storedLine stream = some (stored, rest) ∧
      Doubled line stored := by
  fun_induction logicalLine stream generalizing line with
  | case1 => cases h
  | case2 stream =>
      cases h
      exact ⟨[], storedLine_newline _, .nil⟩
  | case3 => cases h
  | case4 stream hc ih =>
      obtain ⟨stored, hstored, hdoubled⟩ := ih h
      exact ⟨stored, (storedLine_continued stream).trans hstored, hdoubled⟩
  | case5 c2 stream hc2 hc ih =>
      obtain ⟨⟨line', rest'⟩, hline, heq⟩ := Option.map_eq_some_iff.mp h
      cases heq
      obtain ⟨stored, hstored, hdoubled⟩ := ih hline
      refine ⟨_, ?_, hdoubled.escape c2⟩
      rw [storedLine_escape hc2, hstored]
      rfl
  | case6 c stream hc hb ih =>
      obtain ⟨⟨line', rest'⟩, hline, heq⟩ := Option.map_eq_some_iff.mp h
      cases heq
      obtain ⟨stored, hstored, hdoubled⟩ := ih hline
      refine ⟨c :: stored, ?_, hdoubled.plain hb⟩
      rw [storedLine_plain hc hb, hstored]
      rfl

theorem storedLine_subset {stream stored rest : List UInt8}
    (h : storedLine stream = some (stored, rest)) : stored ⊆ stream := by
  fun_induction storedLine stream generalizing stored with
  | case1 => cases h
  | case2 stream =>
      cases h
      exact List.nil_subset _
  | case3 => cases h
  | case4 hc stream ih =>
      have hsub := ih h
      exact fun b hb =>
        List.mem_cons_of_mem _ (List.mem_cons_of_mem _ (hsub hb))
  | case5 hc c2 stream hc2 ih =>
      obtain ⟨⟨line', rest'⟩, hline, heq⟩ := Option.map_eq_some_iff.mp h
      cases heq
      have hsub := ih hline
      intro b hb
      simp only [List.mem_cons] at hb ⊢
      rcases hb with hb | hb | hb | hb
      · exact Or.inl hb
      · exact Or.inr (Or.inl hb)
      · exact Or.inl hb
      · exact Or.inr (Or.inr (hsub hb))
  | case6 c stream hc hb ih =>
      obtain ⟨⟨line', rest'⟩, hline, heq⟩ := Option.map_eq_some_iff.mp h
      cases heq
      exact List.cons_subset_cons c (ih hline)

/-! ## The loop over a complete line -/

section Appends

/-- Strings under construction are described by the text appended so far,
whatever that says about them. -/
def Appends (fails : FailurePlan)
    (describes : List UInt8 → DynamicByteArray UInt8 → Prop) : Prop :=
  ∀ text string, describes text string →
    ∀ (stream : List UInt8) (heap : Heap) (c : UInt8), ∃ string' heap',
      Reading.append fails ⟨string, stream, heap⟩ c =
        .ok ⟨string', stream, heap'⟩ ∧ describes (text ++ [c]) string'

variable {fails : FailurePlan}
  {describes : List UInt8 → DynamicByteArray UInt8 → Prop}
  {stored rest stream : List UInt8} {string : DynamicByteArray UInt8}

/-- The three appends of an escape. -/
theorem Appends.escape (happends : Appends fails describes)
    (text : List UInt8) (h : describes text string) (stream : List UInt8)
    (heap : Heap) (c2 : UInt8) :
    ∃ string' heap', describes (text ++ [backslash, c2, backslash]) string' ∧
      ∀ next : Reading → Except Fault Reading,
        (do
          let r ← Reading.append fails ⟨string, stream, heap⟩ backslash
          let r ← r.append fails c2
          let r ← r.append fails backslash
          next r) = next ⟨string', stream, heap'⟩ := by
  obtain ⟨string₁, heap₁, hfirst, h₁⟩ :=
    happends _ _ h stream heap backslash
  obtain ⟨string₂, heap₂, hsecond, h₂⟩ := happends _ _ h₁ stream heap₁ c2
  obtain ⟨string₃, heap₃, hthird, h₃⟩ :=
    happends _ _ h₂ stream heap₂ backslash
  refine ⟨string₃, heap₃, ?_, fun next => ?_⟩
  · simpa using h₃
  · simp only [hfirst, hsecond, hthird, except_ok_bind]

/-- With a complete line ahead the loop appends the stored line and ends
behind it. -/
theorem Appends.readLoop (happends : Appends fails describes)
    (text : List UInt8) (hline : storedLine stream = some (stored, rest))
    (h : describes text string) {fuel : Nat} (hfuel : stream.length ≤ fuel)
    (heap : Heap) :
    ∃ string' heap', Reader.readLoop fails (fuel + 1)
        ⟨string, stream, heap⟩ = .ok ⟨string', rest, heap'⟩ ∧
      describes (text ++ stored) string' := by
  fun_induction storedLine stream generalizing stored string text fuel heap with
  | case1 => cases hline
  | case2 stream =>
      cases hline
      rw [List.append_nil]
      exact ⟨string, heap, readLoop_newline fails fuel string _ heap, h⟩
  | case3 => cases hline
  | case4 stream hc ih =>
      simp only [List.length_cons] at hfuel
      obtain ⟨fuel, rfl⟩ := Nat.exists_eq_succ_of_ne_zero
        (show fuel ≠ 0 by omega)
      show ∃ string' heap', Reader.readLoop fails (fuel + 1 + 1)
        ⟨string, backslash :: newline :: stream, heap⟩ = _ ∧ _
      rw [readLoop_continued]
      exact ih text hline h (by omega) heap
  | case5 c2 stream hc2 hc ih =>
      simp only [List.length_cons] at hfuel
      obtain ⟨fuel, rfl⟩ := Nat.exists_eq_succ_of_ne_zero
        (show fuel ≠ 0 by omega)
      obtain ⟨⟨stored', rest'⟩, hrest, heq⟩ := Option.map_eq_some_iff.mp hline
      cases heq
      obtain ⟨string₁, heap₁, h₁, happend⟩ :=
        happends.escape text h stream heap c2
      have hrestFuel : stream.length ≤ fuel := by omega
      obtain ⟨string', heap', hloop, h'⟩ :=
        ih _ hrest h₁ hrestFuel heap₁
      refine ⟨string', heap', ?_, by simpa using h'⟩
      rw [readLoop_escape _ _ _ _ _ hc2, happend]
      exact hloop
  | case6 c stream hc hb ih =>
      simp only [List.length_cons] at hfuel
      obtain ⟨fuel, rfl⟩ := Nat.exists_eq_succ_of_ne_zero
        (show fuel ≠ 0 by omega)
      obtain ⟨⟨stored', rest'⟩, hrest, heq⟩ := Option.map_eq_some_iff.mp hline
      cases heq
      obtain ⟨string₁, heap₁, happend, h₁⟩ := happends _ _ h stream heap c
      have hrestFuel : stream.length ≤ fuel := by omega
      obtain ⟨string', heap', hloop, h'⟩ :=
        ih _ hrest h₁ hrestFuel heap₁
      refine ⟨string', heap', ?_, by simpa using h'⟩
      rw [readLoop_plain _ _ _ _ _ hc hb, happend, except_ok_bind]
      exact hloop

end Appends

/-! ## `readInput` reads the stored line -/

/-- The characters a string under construction holds. -/
def HoldsText (string : DynamicByteArray UInt8) (text : List UInt8) : Prop :=
  string.typeSize = 1 ∧ Represents string (text.map fun c => [c])

theorem HoldsText.append {string : DynamicByteArray UInt8} {text : List UInt8}
    (h : HoldsText string text) (stream : List UInt8) (heap : Heap)
    (c : UInt8) :
    ∃ string' heap', Reading.append noFailures ⟨string, stream, heap⟩ c =
        .ok ⟨string', stream, heap'⟩ ∧ HoldsText string' (text ++ [c]) := by
  obtain ⟨htype, hrep⟩ := h
  have hbytes : string.typeSize ≤ [c].length := Nat.le_of_eq htype
  obtain ⟨string', heap', hadd, htype', hrep'⟩ :=
    addElemToArr_noFailures heap hrep hbytes
  refine ⟨string', heap', ?_, htype'.trans htype, ?_⟩
  · simp only [Reading.append, hadd, except_ok_bind, except_pure]
  · rw [List.take_of_length_le (Nat.le_of_eq (by rw [htype]; rfl))] at hrep'
    rw [List.map_append]
    exact hrep'

theorem appends_holdsText :
    Appends noFailures fun text string => HoldsText string text :=
  fun _ _ h stream heap c => h.append stream heap c

/-- `readInput` returns the stored line with its NUL, and has consumed what
belongs to the line. -/
theorem readInput_eq {stream stored rest : List UInt8} {fuel : Nat}
    (hline : storedLine stream = some (stored, rest))
    (hfuel : stream.length < fuel) (heap : Heap) :
    ∃ id spare heap', readInput noFailures fuel stream heap =
      .ok (some ⟨id, stored.map some ++ some 0 :: spare⟩, rest, heap') := by
  obtain ⟨string, heap₁, hnew⟩ : ∃ string heap₁,
      makeNewDynamicByteArray (β := UInt8) noFailures 1 heap =
        (some string, heap₁) := ⟨_, _, rfl⟩
  obtain ⟨hrep, htype⟩ := makeNewDynamicByteArray_represents hnew
  have hstart : HoldsText string [] := ⟨htype, hrep⟩
  obtain ⟨fuel, rfl⟩ := Nat.exists_eq_succ_of_ne_zero
    (Nat.ne_of_gt (Nat.zero_lt_of_lt hfuel))
  obtain ⟨string₂, heap₂, hloop, h₂⟩ :=
    appends_holdsText.readLoop [] hline hstart (Nat.le_of_lt_succ hfuel)
      heap₁
  obtain ⟨string₃, heap₃, hnul, h₃⟩ := h₂.append rest heap₂ 0
  obtain ⟨spare, hstored⟩ := h₃.2.stored
  refine ⟨string₃.elementsBlock, spare, heap₃.free string₃.block, ?_⟩
  have hcells : string₃.elements = stored.map some ++ some 0 :: spare := by
    rw [hstored]
    simp [List.flatten_eq_flatMap, List.flatMap_map]
  unfold readInput
  rw [hnew]
  simp only [hloop, hnul, except_ok_bind, hcells]
  rfl

end OsLabs.Iwish.LogicalLine
