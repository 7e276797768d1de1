import OsLabs.Posix.Memory

/-!
# Copying strings

`strcpy` and `strcat` between objects that do not overlap.  Both write the
terminating NUL too, and neither looks at the size of the object it writes to:
`strcpy_overflow` and `strcat_overflow` are what happens when that is too
small.
-/

namespace OsLabs.Posix

variable {cells front old : List (Option UInt8)} {bytes : List UInt8} {i : Nat}
  {s t : CString}

/-! ## Strings -/

/-- One string after the other. -/
def CString.append (s t : CString) : CString where
  bytes := s.bytes ++ t.bytes
  nulFree := fun h => (List.mem_append.mp h).elim s.nulFree t.nulFree

@[simp] theorem CString.bytes_append (s t : CString) :
    (s.append t).bytes = s.bytes ++ t.bytes := rfl

theorem CString.ext_bytes (h : s.bytes = t.bytes) : s = t := by
  cases s
  cases t
  cases h
  rfl

theorem CString.image_length (s : CString) :
    s.image.length = s.bytes.length + 1 := by
  rw [CString.image, List.length_append, List.length_singleton]

/-- A string in memory, with the NUL drawn apart. -/
theorem CString.image_append (s : CString) (spare : List (Option UInt8)) :
    s.image.map some ++ spare = s.bytes.map some ++ some 0 :: spare := by
  rw [CString.image, List.map_append, List.append_assoc]
  rfl

/-- An object of `size` bytes that a string starts. -/
structure HoldsString (size : Nat) (s : CString)
    (cells : List (Option UInt8)) : Prop where
  length : cells.length = size
  starts : ∃ spare, cells = s.image.map some ++ spare

theorem HoldsString.load {size : Nat} (h : HoldsString size s cells) :
    loadString cells 0 = .ok s := by
  obtain ⟨spare, rfl⟩ := h.starts
  rw [loadString, List.drop_zero, CString.image_append, takeString_append]

theorem HoldsString.lt {size : Nat} (h : HoldsString size s cells) :
    s.bytes.length < size := by
  have hlength := h.length
  obtain ⟨spare, rfl⟩ := h.starts
  rw [List.length_append, List.length_map, CString.image_length] at hlength
  omega

/-! ## Writing bytes -/

/-- Bytes written one after the other, from position `i` on. -/
def storeBytes : List UInt8 → Nat → List (Option UInt8) →
    Except Fault (List (Option UInt8))
  | [], _, cells => .ok cells
  | b :: bytes, i, cells => do
    let cells ← storeAt cells i b
    storeBytes bytes (i + 1) cells

/-- Bytes for which there is room behind a front of known length. -/
theorem storeBytes_append (hfront : front.length = i)
    (hroom : bytes.length ≤ old.length) :
    storeBytes bytes i (front ++ old) =
      .ok (front ++ bytes.map some ++ old.drop bytes.length) := by
  induction bytes generalizing front old i with
  | nil =>
      show Except.ok (front ++ old) = .ok (front ++ [] ++ old.drop 0)
      rw [List.append_nil, List.drop_zero]
  | cons b bytes ih =>
      cases old with
      | nil => cases hroom
      | cons cell old =>
          have hnext : (front ++ [some b]).length = i + 1 := by
            rw [List.length_append, List.length_singleton, hfront]
          have hrest := ih hnext (Nat.le_of_succ_le_succ hroom)
          rw [List.append_assoc, List.singleton_append] at hrest
          rw [storeBytes, storeAt_append hfront, except_ok_bind, hrest,
            List.append_assoc front [some b]]
          rfl

/-- Bytes for which there is no room: the write leaves the object. -/
theorem storeBytes_overflow (hi : i ≤ cells.length)
    (hroom : cells.length < i + bytes.length) :
    storeBytes bytes i cells = .error .outOfBounds := by
  induction bytes generalizing cells i with
  | nil =>
      rw [List.length_nil] at hroom
      omega
  | cons b bytes ih =>
      rw [storeBytes, storeAt]
      by_cases hlt : i < cells.length
      · rw [if_pos hlt, except_ok_bind]
        rw [List.length_cons] at hroom
        apply ih
        · rw [List.length_set]
          omega
        · rw [List.length_set]
          omega
      · rw [if_neg hlt]
        rfl

/-! ## `strcpy` and `strcat` -/

/-- `strcpy(dest, src)` -/
def strcpy (dest : List (Option UInt8)) (src : CString) :
    Except Fault (List (Option UInt8)) :=
  storeBytes src.image 0 dest

/-- `strcat(dest, src)` -/
def strcat (dest : List (Option UInt8)) (src : CString) :
    Except Fault (List (Option UInt8)) := do
  let text ← loadString dest 0
  storeBytes src.image text.bytes.length dest

theorem strcpy_fits (h : s.bytes.length < cells.length) :
    ∃ copied, strcpy cells s = .ok copied ∧
      HoldsString cells.length s copied := by
  have hroom : s.image.length ≤ cells.length := by
    rw [CString.image_length]
    exact h
  have hstore : storeBytes s.image 0 ([] ++ cells) = _ :=
    storeBytes_append rfl hroom
  refine ⟨_, hstore, ?_, _, rfl⟩
  rw [List.nil_append, List.length_append, List.length_map, List.length_drop]
  omega

theorem strcpy_overflow (h : cells.length ≤ s.bytes.length) :
    strcpy cells s = .error .outOfBounds := by
  apply storeBytes_overflow (Nat.zero_le _)
  rw [CString.image_length]
  omega

theorem strcat_fits {size : Nat} (hheld : HoldsString size s cells)
    (h : (s.append t).bytes.length < size) :
    ∃ copied, strcat cells t = .ok copied ∧
      HoldsString size (s.append t) copied := by
  have hlength := hheld.length
  have hload := hheld.load
  obtain ⟨spare, rfl⟩ := hheld.starts
  rw [CString.image_append] at hlength hload ⊢
  have hfront : (s.bytes.map some).length = s.bytes.length :=
    List.length_map _
  have hroom : t.image.length ≤ (some 0 :: spare).length := by
    rw [List.length_append, hfront] at hlength
    rw [CString.bytes_append, List.length_append] at h
    rw [CString.image_length]
    omega
  have hstore := storeBytes_append hfront hroom
  rw [strcat, hload, except_ok_bind, hstore]
  refine ⟨_, rfl, ?_, (some 0 :: spare).drop t.image.length, ?_⟩
  · rw [← hlength]
    simp only [List.length_append, List.length_map, List.length_drop]
    omega
  · have himage : (s.append t).image = s.bytes ++ t.image :=
      List.append_assoc _ _ _
    rw [himage, List.map_append]

theorem strcat_overflow {size : Nat} (hheld : HoldsString size s cells)
    (h : size ≤ (s.append t).bytes.length) :
    strcat cells t = .error .outOfBounds := by
  have hlength := hheld.length
  rw [strcat, hheld.load, except_ok_bind]
  obtain ⟨spare, rfl⟩ := hheld.starts
  rw [List.length_append, List.length_map, CString.image_length] at hlength
  rw [CString.bytes_append, List.length_append] at h
  apply storeBytes_overflow
  · rw [List.length_append, List.length_map, CString.image_length]
    omega
  · rw [List.length_append, List.length_map, CString.image_length,
      CString.image_length]
    omega

end OsLabs.Posix
