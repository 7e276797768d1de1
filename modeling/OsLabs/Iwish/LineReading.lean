import OsLabs.Iwish.ArrayGrowth
import OsLabs.Iwish.LogicalLine

/-!
# When `readInput` returns the line

Three things can go wrong in `readInput`.  A backslash that does not continue
the line is stored twice: `readInput_exact_iff`.  The end of the stream is not
looked for: `readLoop_ends_iff`.  An append that is refused more room loses
its byte: `readInput_complete_iff`.
-/

namespace OsLabs.Iwish.LineReading

open OsLabs.Posix
open OsLabs.Iwish.DBA
open OsLabs.Iwish.Reader
open OsLabs.Iwish.LogicalLine

/-! ## Escapes -/

/-- The backslashes of the first logical line that do not continue it. -/
def escapes : List UInt8 → Nat
  | [] => 0
  | c :: stream =>
    if c = newline then 0
    else if c = backslash then
      match stream with
      | [] => 0
      | c2 :: stream =>
        if c2 = newline then escapes stream else escapes stream + 1
    else escapes stream

theorem escapes_newline (stream : List UInt8) :
    escapes (newline :: stream) = 0 := by
  unfold escapes
  exact if_pos rfl

theorem escapes_continued (stream : List UInt8) :
    escapes (backslash :: newline :: stream) = escapes stream := by
  rw [escapes.eq_def]
  rfl

theorem escapes_escape {c2 : UInt8} (hc2 : c2 ≠ newline)
    (stream : List UInt8) :
    escapes (backslash :: c2 :: stream) = escapes stream + 1 := by
  rw [escapes.eq_def]
  exact if_neg hc2

theorem escapes_plain {c : UInt8} (hc : c ≠ newline) (hb : c ≠ backslash)
    (stream : List UInt8) : escapes (c :: stream) = escapes stream := by
  rw [escapes.eq_def]
  simp only [if_neg hc, if_neg hb]

/-- The stored line is the logical one with one more byte for each escape. -/
theorem storedLine_escapes {stream line rest : List UInt8}
    (h : logicalLine stream = some (line, rest)) :
    ∃ stored, storedLine stream = some (stored, rest) ∧
      stored.length = line.length + escapes stream ∧
      (escapes stream = 0 → stored = line) := by
  fun_induction logicalLine stream generalizing line with
  | case1 => cases h
  | case2 stream =>
      cases h
      rw [escapes_newline]
      exact ⟨[], storedLine_newline _, rfl, fun _ => rfl⟩
  | case3 => cases h
  | case4 stream hc ih =>
      obtain ⟨stored, hstored, hlength, heq⟩ := ih h
      show ∃ stored, storedLine (backslash :: newline :: stream) = _ ∧ _
      rw [escapes_continued, storedLine_continued]
      exact ⟨stored, hstored, hlength, heq⟩
  | case5 c2 stream hc2 hc ih =>
      obtain ⟨⟨line', rest'⟩, hline, hmap⟩ := Option.map_eq_some_iff.mp h
      cases hmap
      obtain ⟨stored, hstored, hlength, -⟩ := ih hline
      rw [escapes_escape hc2, storedLine_escape hc2, hstored]
      refine ⟨_, rfl, ?_, fun hnone => absurd hnone (Nat.succ_ne_zero _)⟩
      simp only [List.length_cons]
      omega
  | case6 c stream hc hb ih =>
      obtain ⟨⟨line', rest'⟩, hline, hmap⟩ := Option.map_eq_some_iff.mp h
      cases hmap
      obtain ⟨stored, hstored, hlength, heq⟩ := ih hline
      rw [escapes_plain hc hb, storedLine_plain hc hb, hstored]
      refine ⟨_, rfl, ?_, fun hnone => by rw [heq hnone]⟩
      simp only [List.length_cons]
      omega

/-- **Exactly when the logical line is returned.**  On a stream with a
complete line `readInput` returns that line as a C string if and only if none
of its backslashes is an escape. -/
theorem readInput_exact_iff {stream line rest : List UInt8} {fuel : Nat}
    (hnul : (0 : UInt8) ∉ stream)
    (hline : logicalLine stream = some (line, rest))
    (hfuel : stream.length < fuel) (heap : Heap) :
    (∃ input heap' string,
      readInput noFailures fuel stream heap = .ok (some input, rest, heap') ∧
      loadString input.cells 0 = .ok string ∧ string.bytes = line) ↔
      escapes stream = 0 := by
  obtain ⟨stored, hstored, hlength, heq⟩ := storedLine_escapes hline
  obtain ⟨id, spare, heap', hread⟩ := readInput_eq hstored hfuel heap
  have hnulStored : (0 : UInt8) ∉ stored :=
    fun hmem => hnul (storedLine_subset hstored hmem)
  have hload : loadString (stored.map some ++ some 0 :: spare) 0 =
      .ok ⟨stored, hnulStored⟩ :=
    takeString_append ⟨stored, hnulStored⟩ spare
  constructor
  · rintro ⟨input, heap'', string, hread', hload', hbytes⟩
    rw [hread] at hread'
    cases hread'
    rw [hload] at hload'
    cases hload'
    rw [show stored = line from hbytes] at hlength
    omega
  · intro hnone
    exact ⟨_, heap', ⟨stored, hnulStored⟩, hread, hload, heq hnone⟩

/-- `a\`, newline, `b` and a newline. -/
theorem readInput_exact_iff_continued :
    (∃ input heap' string,
      readInput noFailures 6 [97, 92, 10, 98, 10] Heap.empty =
        .ok (some input, [], heap') ∧
      loadString input.cells 0 = .ok string ∧ string.bytes = [97, 98]) ↔
      escapes [97, 92, 10, 98, 10] = 0 :=
  readInput_exact_iff (by decide) (by decide) (by decide) Heap.empty

/-- `a\b` is read as `a\b\`. -/
theorem readInput_doubles_backslash :
    logicalLine [97, 92, 98, 10] = some ([97, 92, 98], []) ∧
    ∃ input heap' string,
      readInput noFailures 5 [97, 92, 98, 10] Heap.empty =
        .ok (some input, [], heap') ∧
      loadString input.cells 0 = .ok string ∧
      string.bytes = [97, 92, 98, 92] ∧ string.bytes ≠ [97, 92, 98] :=
  ⟨by decide, _, _, _, rfl, rfl, rfl, by decide⟩

/-! ## The end of the stream -/

section End

variable {fails : FailurePlan} {string : DynamicByteArray UInt8}
  {stream : List UInt8}

/-- A string under construction, whatever it holds. -/
def Usable (string : DynamicByteArray UInt8) : Prop :=
  string.typeSize = 1 ∧ ∃ elems, Represents string elems

/-- Granted or refused, an append leaves a usable string. -/
theorem Usable.append (h : Usable string) (fails : FailurePlan)
    (stream : List UInt8) (heap : Heap) (c : UInt8) :
    ∃ string' heap', Reading.append fails ⟨string, stream, heap⟩ c =
      .ok ⟨string', stream, heap'⟩ ∧ Usable string' := by
  obtain ⟨htype, elems, hrep⟩ := h
  have hbytes : string.typeSize ≤ [c].length := Nat.le_of_eq htype
  rcases addElemToArr_spec fails heap hrep hbytes with
    ⟨string', heap', hadd, htype', hrep'⟩ | ⟨hadd, -, -⟩
  · refine ⟨string', heap', ?_, htype'.trans htype, _, hrep'⟩
    simp only [Reading.append, hadd, except_ok_bind, except_pure]
  · refine ⟨string, { heap with calls := heap.calls + 1 }, ?_, htype, elems,
      hrep⟩
    simp only [Reading.append, hadd, except_ok_bind, except_pure]

theorem appends_usable (fails : FailurePlan) :
    Appends fails fun _ string => Usable string :=
  fun _ _ h stream heap c => h.append fails stream heap c

/-- Once the stream is used up the loop never ends. -/
theorem readLoop_end_never (h : Usable string) (fuel : Nat) (heap : Heap) :
    readLoop fails fuel ⟨string, [], heap⟩ = .error .outOfFuel := by
  induction fuel generalizing string heap with
  | zero => rfl
  | succ fuel ih =>
      obtain ⟨string', heap', happend, h'⟩ := h.append fails [] heap 255
      rw [readLoop_end, happend, except_ok_bind]
      exact ih h' heap'

/-- Without a complete line ahead it runs into the end of the stream. -/
theorem readLoop_never_ends (hline : logicalLine stream = none)
    (h : Usable string) (fuel : Nat) (heap : Heap) :
    readLoop fails fuel ⟨string, stream, heap⟩ = .error .outOfFuel := by
  fun_induction logicalLine stream generalizing string fuel heap with
  | case1 => exact readLoop_end_never h fuel heap
  | case2 stream => cases hline
  | case3 =>
      cases fuel with
      | zero => rfl
      | succ fuel =>
          obtain ⟨string', heap', h', happend⟩ :=
            (appends_usable fails).escape [] h [] heap 255
          show readLoop fails (fuel + 1) ⟨string, [backslash], heap⟩ = _
          rw [readLoop_lastBackslash, happend]
          exact readLoop_end_never h' fuel heap'
  | case4 stream hc ih =>
      cases fuel with
      | zero => rfl
      | succ fuel =>
          show readLoop fails (fuel + 1)
            ⟨string, backslash :: newline :: stream, heap⟩ = _
          rw [readLoop_continued]
          exact ih hline h fuel heap
  | case5 c2 stream hc2 hc ih =>
      cases fuel with
      | zero => rfl
      | succ fuel =>
          obtain ⟨string', heap', h', happend⟩ :=
            (appends_usable fails).escape [] h stream heap c2
          rw [readLoop_escape _ _ _ _ _ hc2, happend]
          exact ih (Option.map_eq_none_iff.mp hline) h' fuel heap'
  | case6 c stream hc hb ih =>
      cases fuel with
      | zero => rfl
      | succ fuel =>
          obtain ⟨string', heap', happend, h'⟩ := h.append fails stream heap c
          rw [readLoop_plain _ _ _ _ _ hc hb, happend, except_ok_bind]
          exact ih (Option.map_eq_none_iff.mp hline) h' fuel heap'

/-- **Exactly when the loop ends.**  Whatever the allocator refuses, the loop
of `readInput` ends if and only if the stream has a newline that does not
belong to a backslash-newline pair. -/
theorem readLoop_ends_iff (fails : FailurePlan) (stream : List UInt8)
    {heap₀ heap : Heap}
    (hnew : makeNewDynamicByteArray fails 1 heap₀ = (some string, heap)) :
    (∃ fuel r, readLoop fails fuel ⟨string, stream, heap⟩ = .ok r) ↔
      ∃ line rest, logicalLine stream = some (line, rest) := by
  obtain ⟨hrep, htype⟩ := makeNewDynamicByteArray_represents hnew
  have husable : Usable string := ⟨htype, [], hrep⟩
  constructor
  · rintro ⟨fuel, r, hloop⟩
    cases hline : logicalLine stream with
    | none =>
        rw [readLoop_never_ends hline husable] at hloop
        cases hloop
    | some result => exact ⟨result.1, result.2, rfl⟩
  · rintro ⟨line, rest, hline⟩
    obtain ⟨stored, hstored, -⟩ := storedLine_of_logicalLine hline
    obtain ⟨string', heap', hloop, -⟩ :=
      (appends_usable fails).readLoop [] hstored husable (Nat.le_refl _) heap
    exact ⟨_, _, hloop⟩

/-- `a` and a newline. -/
theorem readLoop_ends_iff_one_line :
    ∃ string heap, makeNewDynamicByteArray noFailures 1 Heap.empty =
        (some string, heap) ∧
      ((∃ fuel r, readLoop noFailures fuel ⟨string, [97, 10], heap⟩ = .ok r) ↔
        ∃ line rest, logicalLine [97, 10] = some (line, rest)) :=
  ⟨_, _, rfl, readLoop_ends_iff noFailures [97, 10] rfl⟩

/-- `a` at the end of the stream: no number of rounds is enough. -/
theorem readLoop_hangs : ∃ string heap,
    makeNewDynamicByteArray noFailures 1 Heap.empty = (some string, heap) ∧
    ∀ fuel, readLoop noFailures fuel ⟨string, [97], heap⟩ =
      .error .outOfFuel := by
  obtain ⟨string, heap, hnew⟩ : ∃ string heap,
      makeNewDynamicByteArray (β := UInt8) noFailures 1 Heap.empty =
        (some string, heap) := ⟨_, _, rfl⟩
  obtain ⟨hrep, htype⟩ := makeNewDynamicByteArray_represents hnew
  exact ⟨string, heap, hnew, fun fuel =>
    readLoop_never_ends (by decide) ⟨htype, [], hrep⟩ fuel heap⟩

end End

/-! ## Refused requests -/

section Refusals

variable {fails : FailurePlan} {string : DynamicByteArray UInt8}
  {bytes stream line rest : List UInt8}

/-- The string under construction holds `bytes` and nothing behind them. -/
structure Text (string : DynamicByteArray UInt8) (bytes : List UInt8) :
    Prop where
  typeSize : string.typeSize = 1
  filled : Filled string (bytes.map fun c => [c])

theorem flatten_singletons (bytes : List UInt8) :
    (bytes.map fun c => [c]).flatten = bytes := by
  induction bytes with
  | nil => rfl
  | cons c bytes ih => simp only [List.map_cons, List.flatten_cons, ih,
      List.singleton_append]

theorem Text.cells (h : Text string bytes) :
    ∃ n, string.elements = bytes.map some ++ indeterminate n := by
  have hcells := h.filled.cells
  rw [flatten_singletons] at hcells
  exact ⟨_, hcells⟩

theorem Text.fits (h : Text string bytes) :
    bytes.length ≤ string.capacity := by
  simpa using h.filled.represents.fits

/-- A byte is stored, or a request is refused and the byte is lost. -/
theorem Text.append (h : Text string bytes) (fails : FailurePlan)
    (stream : List UInt8) (heap : Heap) (c : UInt8) :
    ∃ string' heap' stored, Reading.append fails ⟨string, stream, heap⟩ c =
        .ok ⟨string', stream, heap'⟩ ∧
      Text string' stored ∧ (stored = bytes ++ [c] ∨ stored = bytes) ∧
      ∀ total, bytes.length < total →
        (Granted fails heap.calls string.capacity total ↔
          stored = bytes ++ [c] ∧
            Granted fails heap'.calls string'.capacity total) := by
  have hbytes : [c].length = string.typeSize := h.typeSize.symm
  have hlength : (bytes.map fun c => [c]).length = bytes.length :=
    List.length_map _
  rcases h.filled.add fails hbytes heap with
    ⟨string', heap', hadd, htype, hfilled, hgranted⟩ | ⟨hadd, hrefused⟩
  · refine ⟨string', heap', bytes ++ [c], ?_,
      ⟨htype.trans h.typeSize, ?_⟩, Or.inl rfl, fun total htotal => ?_⟩
    · simp only [Reading.append, hadd, except_ok_bind, except_pure]
    · rw [List.map_append]
      exact hfilled
    · rw [hgranted total (hlength.symm ▸ htotal)]
      exact (and_iff_right rfl).symm
  · refine ⟨string, { heap with calls := heap.calls + 1 }, bytes, ?_, h,
      Or.inr rfl, fun total htotal => ?_⟩
    · simp only [Reading.append, hadd, except_ok_bind, except_pure]
    · have hlost : bytes ≠ bytes ++ [c] := by simp
      exact iff_of_false (hrefused total (hlength.symm ▸ htotal))
        fun hstored => hlost hstored.1

/-- The loop stores the whole line exactly when every request is granted. -/
theorem readLoop_line (fails : FailurePlan) (rest : List UInt8)
    (hplain : ∀ c ∈ line, c ≠ newline ∧ c ≠ backslash)
    (h : Text string bytes) (heap : Heap) {fuel : Nat}
    (hfuel : line.length < fuel) :
    ∃ string' heap' stored,
      readLoop fails fuel ⟨string, line ++ newline :: rest, heap⟩ =
        .ok ⟨string', rest, heap'⟩ ∧
      Text string' stored ∧ stored.length ≤ bytes.length + line.length ∧
      ∀ total, bytes.length + line.length < total →
        (Granted fails heap.calls string.capacity total ↔
          stored = bytes ++ line ∧
            Granted fails heap'.calls string'.capacity total) := by
  obtain ⟨fuel, rfl⟩ := Nat.exists_eq_succ_of_ne_zero
    (Nat.ne_of_gt (Nat.zero_lt_of_lt hfuel))
  induction line generalizing string bytes heap fuel with
  | nil =>
      refine ⟨string, heap, bytes, readLoop_newline fails fuel string rest heap,
        h, Nat.le_refl _, fun total _ => ?_⟩
      rw [List.append_nil]
      exact (and_iff_right rfl).symm
  | cons c line ih =>
      obtain ⟨hc, hb⟩ := hplain c List.mem_cons_self
      obtain ⟨string₁, heap₁, stored₁, happend, h₁, hstored₁, hgranted₁⟩ :=
        h.append fails (line ++ newline :: rest) heap c
      have hlength₁ : stored₁.length ≤ bytes.length + 1 := by
        rcases hstored₁ with rfl | rfl <;> simp
      simp only [List.length_cons] at hfuel ⊢
      obtain ⟨fuel, rfl⟩ := Nat.exists_eq_succ_of_ne_zero
        (show fuel ≠ 0 by omega)
      obtain ⟨string', heap', stored, hloop, h', hlength, hgranted⟩ :=
        ih (fun d hd => hplain d (List.mem_cons_of_mem c hd)) h₁ heap₁ fuel
          (by omega)
      refine ⟨string', heap', stored, ?_, h', by omega, fun total htotal => ?_⟩
      · rw [List.cons_append, readLoop_plain _ _ _ _ _ hc hb, happend,
          except_ok_bind]
        exact hloop
      · rw [hgranted₁ total (by omega), hgranted total (by omega)]
        constructor
        · rintro ⟨rfl, rfl, hrest⟩
          exact ⟨by rw [List.append_assoc]; rfl, hrest⟩
        · rintro ⟨hall, hrest⟩
          rcases hstored₁ with rfl | rfl
          · exact ⟨rfl, by rw [hall, List.append_assoc]; rfl, hrest⟩
          · -- a byte lost in this round is not made up for later
            rw [hall, List.length_append, List.length_cons] at hlength
            omega

/-- What lies behind the stored bytes cannot be read, so a string that can be
read was stored with its terminator. -/
theorem takeString_stored {n : Nat} {s : CString}
    (h : takeString (bytes.map some ++ indeterminate n) = .ok s) :
    ∃ behind, bytes = s.bytes ++ 0 :: behind := by
  induction bytes generalizing s with
  | nil =>
      cases n with
      | zero => cases h
      | succ n => cases h
  | cons c bytes ih =>
      simp only [List.map_cons, List.cons_append, takeString] at h
      by_cases hc : c = 0
      · rw [dif_pos hc] at h
        cases h
        exact ⟨bytes, by rw [hc]; rfl⟩
      · rw [dif_neg hc] at h
        obtain ⟨rest, hrest, hs⟩ := except_bind_eq_ok.mp h
        cases hs
        obtain ⟨behind, rfl⟩ := ih hrest
        exact ⟨behind, rfl⟩

/-- What `readInput` returns once it has its array: the whole line with its
terminator exactly when every growth for it is granted. -/
theorem readInput_stored {heap heap₁ : Heap}
    (hnew : makeNewDynamicByteArray fails 1 heap = (some string, heap₁))
    (rest : List UInt8) (hplain : ∀ c ∈ line, c ≠ newline ∧ c ≠ backslash)
    {fuel : Nat} (hfuel : line.length < fuel) :
    ∃ block stored heap' n,
      readInput fails fuel (line ++ newline :: rest) heap =
        .ok (some block, rest, heap') ∧
      block.cells = stored.map some ++ indeterminate n ∧
      stored.length ≤ line.length + 1 ∧
      (Granted fails (heap.calls + 2) initSize (line.length + 1) ↔
        stored = line ++ [0]) := by
  obtain ⟨hfilled, htype, hcapacity, hcalls⟩ :=
    makeNewDynamicByteArray_filled hnew
  have hempty : Text string [] := ⟨htype, hfilled⟩
  obtain ⟨string₁, heap₂, stored, hloop, htext, hlength, hgranted⟩ :=
    readLoop_line fails rest hplain hempty heap₁ hfuel
  obtain ⟨string₂, heap₃, stored₂, happend, htext₂, hstored₂, hgranted₂⟩ :=
    htext.append fails rest heap₂ 0
  obtain ⟨n, hcells⟩ := htext₂.cells
  rw [List.length_nil, Nat.zero_add] at hlength
  refine ⟨⟨string₂.elementsBlock, string₂.elements⟩, stored₂,
    heap₃.free string₂.block, n, ?_, hcells, ?_, ?_⟩
  · simp only [readInput, hnew, hloop, happend, except_ok_bind, except_pure]
  · rcases hstored₂ with rfl | rfl
    · rw [List.length_append]
      exact Nat.succ_le_succ hlength
    · exact Nat.le_succ_of_le hlength
  · rw [← hcalls, ← hcapacity, hgranted _ (by simp),
      hgranted₂ _ (Nat.lt_succ_of_le hlength), List.nil_append]
    constructor
    · rintro ⟨rfl, hlast, -⟩
      exact hlast
    · rintro rfl
      have hroom := htext₂.fits
      rcases hstored₂ with hlast | rfl
      · obtain rfl := List.append_cancel_right hlast
        refine ⟨rfl, rfl, granted_of_le ?_⟩
        simpa using hroom
      · rw [List.length_append] at hlength
        exact absurd hlength (Nat.not_succ_le_self _)

/-- **Exactly when the complete line comes back.**  On a line without
backslashes `readInput` returns a null pointer or the whole line with its
terminator if and only if the array is refused or every growth of it that the
line needs is granted. -/
theorem readInput_complete_iff (fails : FailurePlan)
    (hnul : (0 : UInt8) ∉ line)
    (hplain : ∀ c ∈ line, c ≠ newline ∧ c ≠ backslash) {fuel : Nat}
    (hfuel : line.length < fuel) (heap : Heap) :
    (∃ input stream heap',
      readInput fails fuel (line ++ newline :: rest) heap =
        .ok (input, stream, heap') ∧
      ∀ block, input = some block → ∃ string,
        loadString block.cells 0 = .ok string ∧ string.bytes = line) ↔
      (fails heap.calls = true ∨ fails (heap.calls + 1) = true) ∨
        Granted fails (heap.calls + 2) initSize (line.length + 1) := by
  have hnone := makeNewDynamicByteArray_none_iff (β := UInt8) fails 1 heap
  rcases hnew : makeNewDynamicByteArray (β := UInt8) fails 1 heap with
    ⟨_ | string, heap₁⟩
  · rw [hnew] at hnone
    refine iff_of_true ⟨none, line ++ newline :: rest, heap₁, ?_,
      fun _ hblock => by cases hblock⟩ (Or.inl (hnone.mp rfl))
    simp only [readInput, hnew, except_pure]
  · rw [hnew] at hnone
    have hmade : ¬ (fails heap.calls = true ∨ fails (heap.calls + 1) = true) :=
      fun hrefused => Option.some_ne_none _ (hnone.mpr hrefused)
    obtain ⟨returned, stored, heap', n, hread, hcells, hlength, hplan⟩ :=
      readInput_stored hnew rest hplain hfuel
    rw [or_iff_right hmade, hplan, hread]
    constructor
    · rintro ⟨input, stream, heap'', heq, hline⟩
      cases heq
      obtain ⟨string', hload, rfl⟩ := hline _ rfl
      rw [hcells] at hload
      obtain ⟨behind, hbehind⟩ := takeString_stored hload
      rw [hbehind, List.length_append, List.length_cons] at hlength
      rw [hbehind, List.eq_nil_of_length_eq_zero (by omega : behind.length = 0)]
    · rintro rfl
      refine ⟨_, _, _, rfl, fun block hblock => ?_⟩
      cases hblock
      refine ⟨⟨line, hnul⟩, ?_, rfl⟩
      rw [hcells, List.map_append, List.append_assoc]
      exact takeString_append ⟨line, hnul⟩ (indeterminate n)

/-- The plan that refuses the first growth of an array. -/
def firstGrowthFails : FailurePlan := fun call => call == 2

/-- The plan that refuses the second one. -/
def secondGrowthFails : FailurePlan := fun call => call == 3

theorem sixteen_plain :
    ∀ c ∈ List.replicate 16 (97 : UInt8), c ≠ newline ∧ c ≠ backslash := by
  intro c hc
  rw [List.eq_of_mem_replicate hc]
  decide

/-- Sixteen times `a`: the array grows once, for the terminator. -/
theorem readInput_complete_iff_sixteen :
    (¬ ∃ input stream heap',
      readInput firstGrowthFails 17
          (List.replicate 16 97 ++ newline :: []) Heap.empty =
        .ok (input, stream, heap') ∧
      ∀ block, input = some block → ∃ string,
        loadString block.cells 0 = .ok string ∧
        string.bytes = List.replicate 16 97) ∧
    ∃ input stream heap',
      readInput secondGrowthFails 17
          (List.replicate 16 97 ++ newline :: []) Heap.empty =
        .ok (input, stream, heap') ∧
      ∀ block, input = some block → ∃ string,
        loadString block.cells 0 = .ok string ∧
        string.bytes = List.replicate 16 97 := by
  have hfuel : (List.replicate 16 (97 : UInt8)).length < 17 := by decide
  have hfull : initSize < (List.replicate 16 (97 : UInt8)).length + 1 := by
    decide
  constructor
  · rw [readInput_complete_iff firstGrowthFails (by decide) sixteen_plain hfuel
      Heap.empty]
    rintro ((hheader | hbytes) | hgranted)
    · cases hheader
    · cases hbytes
    · exact not_granted_of_refused hfull rfl hgranted
  · rw [readInput_complete_iff secondGrowthFails (by decide) sixteen_plain hfuel
      Heap.empty]
    exact .inr ((granted_iff_of_lt hfull).mpr ⟨rfl, granted_of_le (by decide)⟩)

/-- Sixteen times `a`: the array is full when the terminator is appended, its
growth is refused, and the buffer that is returned is not terminated. -/
theorem readInput_unterminated :
    ∃ block stream heap',
      readInput firstGrowthFails 17
          (List.replicate 16 97 ++ newline :: []) Heap.empty =
        .ok (some block, stream, heap') ∧
      block.cells = List.replicate 16 (some 97) ∧
      loadString block.cells 0 = .error .outOfBounds :=
  ⟨_, _, _, rfl, rfl, rfl⟩

end Refusals

end OsLabs.Iwish.LineReading
