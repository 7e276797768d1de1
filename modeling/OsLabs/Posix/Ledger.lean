import Mathlib.Data.Multiset.Count
import Mathlib.Data.Multiset.AddSub
import OsLabs.Posix.Memory

/-!
# Live blocks

A ledger says which blocks are live: those granted and not yet released.
Releasing a block that is not live leaves it without meaning.

`start.Owns heap blocks` says that of the blocks granted between the heaps
`start` and `heap` exactly `blocks` are live.  A function that allocates and
releases is specified by what it does to `blocks`; whatever else is live stands
next to them in a sum.
-/

namespace OsLabs.Posix

/-! ## Ledgers -/

/-- The blocks that are live after the events of a ledger, newest first, or
`none` when something was released that was not live. -/
def liveBlocks : List HeapEvent → Option (Multiset Nat)
  | [] => some 0
  | .alloc block :: older => (liveBlocks older).map (block ::ₘ ·)
  | .free block :: older =>
    (liveBlocks older).bind fun live =>
      if block ∈ live then some (live.erase block) else none

section Ledgers

variable {events : List HeapEvent} {blocks : Multiset Nat} {calls : Nat}

/-- What is granted is live or has been released. -/
theorem liveBlocks_count (h : liveBlocks events = some blocks) (block : Nat) :
    events.count (.free block) + blocks.count block =
      events.count (.alloc block) := by
  induction events generalizing blocks with
  | nil =>
      cases h
      rfl
  | cons event older ih =>
      cases event with
      | alloc new =>
          obtain ⟨live, hlive, rfl⟩ := Option.map_eq_some_iff.mp h
          have hrest := ih hlive
          rw [List.count_cons, List.count_cons, Multiset.count_cons]
          simp only [reduceCtorEq, beq_iff_eq, HeapEvent.alloc.injEq]
          by_cases heq : new = block
          · rw [if_pos heq, if_pos heq.symm]
            simp only [if_false]
            omega
          · rw [if_neg heq, if_neg (Ne.symm heq)]
            simp only [if_false]
            omega
      | free old =>
          obtain ⟨live, hlive, h⟩ := Option.bind_eq_some_iff.mp h
          have hrest := ih hlive
          split at h
          · next hmem =>
              cases h
              rw [List.count_cons, List.count_cons]
              simp only [reduceCtorEq, beq_iff_eq, HeapEvent.free.injEq]
              by_cases heq : old = block
              · subst heq
                have hpos := Multiset.count_pos.mpr hmem
                rw [Multiset.count_erase_self, if_pos rfl]
                simp only [if_false]
                omega
              · rw [Multiset.count_erase_of_ne (Ne.symm heq), if_neg heq]
                simp only [if_false]
                omega
          · cases h

/-- A ledger of requests numbered below `calls` after which `blocks` are
live. -/
structure Recorded (events : List HeapEvent) (calls : Nat)
    (blocks : Multiset Nat) : Prop where
  live : liveBlocks events = some blocks
  once : ∀ block, events.count (.alloc block) ≤ 1
  old : ∀ block, .alloc block ∈ events → block < calls

theorem Recorded.grant (h : Recorded events calls blocks) :
    Recorded (.alloc calls :: events) (calls + 1) (calls ::ₘ blocks) where
  live := by rw [liveBlocks, h.live]; rfl
  once := fun block => by
    rw [List.count_cons]
    by_cases heq : calls = block
    · have hnew : HeapEvent.alloc block ∉ events := fun hmem =>
        Nat.lt_irrefl _ (heq ▸ h.old block hmem)
      rw [List.count_eq_zero_of_not_mem hnew]
      split <;> omega
    · rw [if_neg (by simpa using heq)]
      exact h.once block
  old := fun block hmem => by
    rcases List.mem_cons.mp hmem with heq | hmem
    · cases heq
      exact Nat.lt_succ_self _
    · exact Nat.lt_succ_of_lt (h.old block hmem)

theorem Recorded.refuse (h : Recorded events calls blocks) :
    Recorded events (calls + 1) blocks where
  live := h.live
  once := h.once
  old := fun block hmem => Nat.lt_succ_of_lt (h.old block hmem)

theorem Recorded.release {block : Nat}
    (h : Recorded events calls (block ::ₘ blocks)) :
    Recorded (.free block :: events) calls blocks where
  live := by
    rw [liveBlocks, h.live]
    show (if block ∈ block ::ₘ blocks then _ else _) = _
    rw [if_pos (Multiset.mem_cons_self _ _), Multiset.erase_cons_head]
  once := fun other => by
    rw [List.count_cons_of_ne (by simp)]
    exact h.once other
  old := fun other hmem => by
    rcases List.mem_cons.mp hmem with heq | hmem
    · cases heq
    · exact h.old other hmem

/-- No block is live twice. -/
theorem Recorded.nodup (h : Recorded events calls blocks) : blocks.Nodup := by
  rw [Multiset.nodup_iff_count_le_one]
  intro block
  have hcount := liveBlocks_count h.live block
  have honce := h.once block
  omega

/-- The live blocks are those that were granted and never released. -/
theorem Recorded.mem_iff (h : Recorded events calls blocks) (block : Nat) :
    block ∈ blocks ↔ .alloc block ∈ events ∧ .free block ∉ events := by
  have hcount := liveBlocks_count h.live block
  have honce := h.once block
  rw [← Multiset.count_pos, ← List.count_pos_iff, ← List.count_eq_zero]
  omega

/-- When nothing is live, everything that was granted has been released
once, and nothing else. -/
theorem Recorded.count_free (h : Recorded events calls 0) (block : Nat) :
    events.count (.free block) = if .alloc block ∈ events then 1 else 0 := by
  have hcount := liveBlocks_count h.live block
  have honce := h.once block
  rw [Multiset.count_zero] at hcount
  split
  · next hmem =>
      have hpos := List.count_pos_iff.mpr hmem
      omega
  · next hmem =>
      rw [List.count_eq_zero_of_not_mem hmem] at hcount
      omega

end Ledgers

/-! ## Ownership -/

/-- Of the blocks granted between `start` and `heap` exactly `blocks` are
live. -/
def Heap.Owns (start heap : Heap) (blocks : Multiset Nat) : Prop :=
  ∃ events, heap.ledger = events ++ start.ledger ∧
    Recorded events heap.calls blocks

/-- Every block granted between `start` and `heap` has been released exactly
once. -/
def Heap.FreedOnce (start heap : Heap) : Prop :=
  ∃ events, heap.ledger = events ++ start.ledger ∧
    ∀ block, .alloc block ∈ events → events.count (.free block) = 1

section Owns

variable {start heap : Heap} {blocks : Multiset Nat} {block : Nat}

theorem Heap.Owns.refl (start : Heap) : start.Owns start 0 :=
  ⟨[], rfl, rfl, fun _ => Nat.zero_le 1, fun _ hmem => nomatch hmem⟩

theorem Heap.Owns.grant (h : start.Owns heap blocks) :
    start.Owns ⟨heap.calls + 1, .alloc heap.calls :: heap.ledger⟩
      ({heap.calls} + blocks) := by
  obtain ⟨events, hledger, hrecorded⟩ := h
  refine ⟨.alloc heap.calls :: events, ?_, ?_⟩
  · show _ :: heap.ledger = _
    rw [hledger, List.cons_append]
  · rw [Multiset.singleton_add]
    exact hrecorded.grant

theorem Heap.Owns.refuse (h : start.Owns heap blocks) :
    start.Owns { heap with calls := heap.calls + 1 } blocks := by
  obtain ⟨events, hledger, hrecorded⟩ := h
  exact ⟨events, hledger, hrecorded.refuse⟩

theorem Heap.Owns.free (h : start.Owns heap ({block} + blocks)) :
    start.Owns (heap.free block) blocks := by
  obtain ⟨events, hledger, hrecorded⟩ := h
  rw [Multiset.singleton_add] at hrecorded
  refine ⟨.free block :: events, ?_, hrecorded.release⟩
  show _ :: heap.ledger = _
  rw [hledger, List.cons_append]

/-- The same blocks, summed in another order. -/
theorem Heap.Owns.of_eq {others : Multiset Nat} (h : start.Owns heap blocks)
    (heq : blocks = others) : start.Owns heap others :=
  heq ▸ h

/-- Everything has been released once exactly when nothing is live. -/
theorem Heap.Owns.freedOnce_iff (h : start.Owns heap blocks) :
    start.FreedOnce heap ↔ blocks = 0 := by
  obtain ⟨events, hledger, hrecorded⟩ := h
  constructor
  · rintro ⟨events', hledger', hfreed⟩
    obtain rfl : events' = events :=
      List.append_cancel_right (hledger'.symm.trans hledger)
    apply Multiset.eq_zero_of_forall_notMem
    intro block hmem
    obtain ⟨halloc, hfree⟩ := (hrecorded.mem_iff block).mp hmem
    have hone := hfreed block halloc
    rw [List.count_eq_zero_of_not_mem hfree] at hone
    cases hone
  · rintro rfl
    refine ⟨events, hledger, fun block hmem => ?_⟩
    rw [hrecorded.count_free, if_pos hmem]

end Owns

end OsLabs.Posix
