import OsLabs.Posix.Memory

/-!
# Pointers stored as bytes

A block that is filled byte by byte may later be read as an array of
pointers.  The representation of a pointer is left open: its `k`-th byte is
the pair of the pointer and `k`, so that bytes can be copied one by one but
only the bytes of one pointer, in order, read back as that pointer.  `none`
is the null pointer.
-/

namespace OsLabs.Posix

variable {π : Type}

/-- `sizeof(char *)` -/
def pointerSize : Nat := 8

/-- One byte of a pointer. -/
abbrev PointerByte (π : Type) := Option π × Nat

/-- The bytes of a pointer in memory. -/
def pointerBytes (p : Option π) : List (PointerByte π) :=
  (List.range pointerSize).map fun k => (p, k)

@[simp] theorem pointerBytes_length (p : Option π) :
    (pointerBytes p).length = pointerSize := by
  simp [pointerBytes]

/-- The bytes of a list of pointers, one after the other. -/
def pointersBytes (pointers : List (Option π)) :
    List (Option (PointerByte π)) :=
  ((pointers.map pointerBytes).flatten).map some

@[simp] theorem pointersBytes_append (front rest : List (Option π)) :
    pointersBytes (front ++ rest) =
      pointersBytes front ++ pointersBytes rest := by
  simp [pointersBytes]

@[simp] theorem pointersBytes_singleton (p : Option π) :
    pointersBytes [p] = (pointerBytes p).map some := by
  simp [pointersBytes]

@[simp] theorem pointersBytes_length (pointers : List (Option π)) :
    (pointersBytes pointers).length = pointers.length * pointerSize := by
  induction pointers with
  | nil => rfl
  | cons p pointers ih =>
      have hcons : pointersBytes (p :: pointers) =
          pointersBytes [p] ++ pointersBytes pointers :=
        pointersBytes_append [p] pointers
      rw [hcons, List.length_append, ih, List.length_cons, Nat.succ_mul]
      simp [Nat.add_comm]

/-- `array[i] = p`, for a block written as an array of pointers. -/
def storePointer (cells : List (Option (PointerByte π))) (i : Nat)
    (p : Option π) : Except Fault (List (Option (PointerByte π))) :=
  if (i + 1) * pointerSize ≤ cells.length then
    .ok (cells.take (i * pointerSize) ++ (pointerBytes p).map some ++
      cells.drop ((i + 1) * pointerSize))
  else .error .outOfBounds

/-- Storing a pointer behind others. -/
theorem storePointer_pointersBytes (pointers : List (Option π))
    (p : Option π) {spare : List (Option (PointerByte π))}
    (h : pointerSize ≤ spare.length) :
    storePointer (pointersBytes pointers ++ spare) pointers.length p =
      .ok (pointersBytes (pointers ++ [p]) ++ spare.drop pointerSize) := by
  have hlength := pointersBytes_length pointers
  have hroom : (pointers.length + 1) * pointerSize ≤
      (pointersBytes pointers ++ spare).length := by
    rw [List.length_append, hlength, Nat.succ_mul]
    exact Nat.add_le_add_left h _
  unfold storePointer
  rw [if_pos hroom, Nat.succ_mul, ← List.drop_drop, ← hlength,
    List.take_left, List.drop_left, pointersBytes_append,
    pointersBytes_singleton]

section Read

variable [DecidableEq π]

/-- `array[i]`, for a block read as an array of pointers.  Bytes that are not
those of one pointer count as indeterminate. -/
def loadPointer (cells : List (Option (PointerByte π))) (i : Nat) :
    Except Fault (Option π) :=
  match cells.drop (i * pointerSize) with
  | [] => .error .outOfBounds
  | none :: _ => .error .uninitialised
  | some (p, k) :: rest =>
    if rest.length + 1 < pointerSize then .error .outOfBounds
    else if (some (p, k) :: rest).take pointerSize =
        (pointerBytes p).map some then .ok p
    else .error .uninitialised

/-- The pointers of a block from `array[i]` up to the first null pointer. -/
def loadPointers (cells : List (Option (PointerByte π))) :
    Nat → Nat → Except Fault (List π)
  | 0, _ => .error .outOfFuel
  | fuel + 1, i => do
    match ← loadPointer cells i with
    | none => return []
    | some p =>
      let rest ← loadPointers cells fuel (i + 1)
      return p :: rest

/-- The null-terminated array of pointers a block begins with. -/
def loadPointerArray (cells : List (Option (PointerByte π))) :
    Except Fault (List π) :=
  loadPointers cells (cells.length + 1) 0

theorem loadPointer_append {front rest : List (Option (PointerByte π))}
    {i : Nat} {p : Option π} (h : front.length = i * pointerSize) :
    loadPointer (front ++ (pointerBytes p).map some ++ rest) i = .ok p := by
  have hdrop : (front ++ (pointerBytes p).map some ++ rest).drop
      (i * pointerSize) = (pointerBytes p).map some ++ rest := by
    rw [← h, List.append_assoc, List.drop_left]
  unfold loadPointer
  rw [hdrop]
  simp [pointerBytes, pointerSize, List.range_succ]

/-- Element `front.length` of a block of pointers. -/
theorem loadPointer_pointersBytes (front rest : List (Option π))
    (p : Option π) (spare : List (Option (PointerByte π))) :
    loadPointer (pointersBytes (front ++ p :: rest) ++ spare) front.length =
      .ok p := by
  have hsplit : pointersBytes (front ++ p :: rest) ++ spare =
      pointersBytes front ++ (pointerBytes p).map some ++
        (pointersBytes rest ++ spare) := by
    have hcons : front ++ p :: rest = front ++ ([p] ++ rest) := rfl
    rw [hcons, pointersBytes_append, pointersBytes_append,
      pointersBytes_singleton]
    simp only [List.append_assoc]
  rw [hsplit]
  exact loadPointer_append (pointersBytes_length front)

theorem loadPointers_pointersBytes (front pointers : List π)
    (spare : List (Option (PointerByte π))) (fuel : Nat)
    (h : pointers.length < fuel) :
    loadPointers
        (pointersBytes ((front ++ pointers).map some ++ [none]) ++ spare)
        fuel front.length = .ok pointers := by
  induction pointers generalizing front fuel with
  | nil =>
      cases fuel with
      | zero => omega
      | succ fuel =>
          have hnull := loadPointer_pointersBytes (front.map some) [] none spare
          rw [List.length_map] at hnull
          rw [List.append_nil, loadPointers, hnull]
          rfl
  | cons p pointers ih =>
      cases fuel with
      | zero => omega
      | succ fuel =>
          have hlt : pointers.length < fuel := by
            simp only [List.length_cons] at h
            omega
          have hrest := ih (front ++ [p]) fuel hlt
          have hhead := loadPointer_pointersBytes (front.map some)
            (pointers.map some ++ [none]) (some p) spare
          simp only [List.length_map, List.length_append, List.length_singleton,
            List.append_assoc, List.map_append,
            List.map_cons, List.nil_append, List.cons_append]
            at hhead hrest ⊢
          rw [loadPointers, hhead]
          simp only [except_ok_bind, hrest]
          rfl

/-- **A block that holds pointers and then a null pointer reads back as those
pointers**, whatever follows. -/
theorem loadPointerArray_eq (pointers : List π)
    (spare : List (Option (PointerByte π))) :
    loadPointerArray (pointersBytes (pointers.map some ++ [none]) ++ spare) =
      .ok pointers := by
  apply loadPointers_pointersBytes [] pointers spare
  simp only [List.length_append, pointersBytes_length, List.length_map,
    List.length_singleton, pointerSize]
  omega

end Read

end OsLabs.Posix
