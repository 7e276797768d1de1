import OsLabs.Posix.Memory

/-!
# `strtok`

The function of the C standard, on a buffer that it overwrites: the delimiter
that ends a token becomes a NUL, and the position behind it is kept for the
next call.  What a sequence of calls finds are the maximal runs of bytes that
are not delimiters (`runs`).
-/

namespace OsLabs.Posix

/-! ## Runs -/

section Runs

variable {β : Type} {isDelimiter : β → Bool} {gap token more l : List β} {c : β}

/-- The maximal runs of a list between its delimiters. -/
def runs (isDelimiter : β → Bool) (l : List β) : List (List β) :=
  (l.splitOnP isDelimiter).filter fun run => !run.isEmpty

theorem runs_delimiter (hc : isDelimiter c = true) :
    runs isDelimiter (c :: l) = runs isDelimiter l := by
  unfold runs
  rw [List.splitOnP_cons_eq_if_modifyHead, if_pos hc]
  rfl

theorem runs_gap (hgap : ∀ c ∈ gap, isDelimiter c = true) :
    runs isDelimiter (gap ++ l) = runs isDelimiter l := by
  induction gap with
  | nil => rfl
  | cons c gap ih =>
      have hrest := ih fun d hd => hgap d (List.mem_cons_of_mem c hd)
      rw [List.cons_append, runs_delimiter (hgap c List.mem_cons_self), hrest]

theorem runs_all (h : ∀ c ∈ l, isDelimiter c = true) :
    runs isDelimiter l = [] := by
  have happend := runs_gap (l := []) h
  rw [List.append_nil] at happend
  rw [happend]
  rfl

theorem runs_token (hne : token ≠ [])
    (htoken : ∀ c ∈ token, isDelimiter c = false) :
    runs isDelimiter token = [token] := by
  unfold runs
  rw [List.splitOnP_eq_singleton htoken]
  simp [hne]

theorem runs_token_delimiter (hne : token ≠ [])
    (htoken : ∀ c ∈ token, isDelimiter c = false)
    (hc : isDelimiter c = true) :
    runs isDelimiter (token ++ c :: more) =
      token :: runs isDelimiter more := by
  unfold runs
  rw [List.splitOnP_append_cons_of_forall_mem htoken c hc]
  simp [hne]

theorem flatten_splitOnP (isDelimiter : β → Bool) (l : List β) :
    (l.splitOnP isDelimiter).flatten = l.filter fun c => !isDelimiter c := by
  induction l with
  | nil => simp
  | cons c l ih =>
      rw [List.splitOnP_cons_eq_if_modifyHead]
      cases hc : isDelimiter c with
      | true => simp [hc, ih]
      | false =>
          obtain ⟨head, tail, hsplit⟩ := List.exists_cons_of_ne_nil
            (List.splitOnP_ne_nil isDelimiter l)
          rw [hsplit] at ih ⊢
          simp only [List.flatten_cons] at ih
          simp [hc, ← ih]

/-- The runs lose no byte that is not a delimiter. -/
theorem exists_run_of_mem (hc : isDelimiter c = false) (hmem : c ∈ l) :
    ∃ run ∈ runs isDelimiter l, c ∈ run := by
  have hflat : c ∈ (l.splitOnP isDelimiter).flatten := by
    rw [flatten_splitOnP]
    exact List.mem_filter.mpr ⟨hmem, by simp [hc]⟩
  obtain ⟨run, hrun, hcrun⟩ := List.mem_flatten.mp hflat
  refine ⟨run, List.mem_filter.mpr ⟨hrun, ?_⟩, hcrun⟩
  rw [List.isEmpty_eq_false_iff_exists_mem.mpr ⟨c, hcrun⟩]
  rfl

theorem mem_of_mem_runs {run : List β} (hrun : run ∈ runs isDelimiter l)
    (hc : c ∈ run) : c ∈ l := by
  have hflat : c ∈ (l.splitOnP isDelimiter).flatten :=
    List.mem_flatten.mpr ⟨run, (List.mem_filter.mp hrun).1, hc⟩
  rw [flatten_splitOnP] at hflat
  exact (List.mem_filter.mp hflat).1

theorem runs_length_le (isDelimiter : β → Bool) (l : List β) :
    (runs isDelimiter l).length ≤ l.length + 1 := by
  have hsplit : (l.splitOnP isDelimiter).length ≤ l.length + 1 := by
    induction l with
    | nil => simp
    | cons c l ih =>
        rw [List.splitOnP_cons_eq_if_modifyHead]
        split
        · simp only [List.length_cons]
          omega
        · simp only [List.length_modifyHead, List.length_cons]
          omega
  exact Nat.le_trans (List.length_filter_le _ _) hsplit

/-- A list is all delimiters, or has a first run, which ends the list or is
followed by a delimiter. -/
theorem first_run (isDelimiter : β → Bool) (l : List β) :
    (∀ c ∈ l, isDelimiter c = true) ∨
    ∃ gap token rest, l = gap ++ token ++ rest ∧
      (∀ c ∈ gap, isDelimiter c = true) ∧ token ≠ [] ∧
      (∀ c ∈ token, isDelimiter c = false) ∧
      (rest = [] ∨ ∃ d more, rest = d :: more ∧ isDelimiter d = true) := by
  induction l with
  | nil => exact Or.inl fun c hc => absurd hc List.not_mem_nil
  | cons c l ih =>
      cases hc : isDelimiter c with
      | true =>
          rcases ih with hall | ⟨gap, token, rest, rfl, hgap, htoken⟩
          · refine Or.inl fun d hd => ?_
            rcases List.mem_cons.mp hd with rfl | hd
            · exact hc
            · exact hall d hd
          · refine Or.inr ⟨c :: gap, token, rest, rfl, fun d hd => ?_, htoken⟩
            rcases List.mem_cons.mp hd with rfl | hd
            · exact hc
            · exact hgap d hd
      | false =>
          right
          have hsplit := List.takeWhile_append_dropWhile
            (p := fun d => !isDelimiter d) (l := l)
          refine ⟨[], c :: l.takeWhile fun d => !isDelimiter d,
            l.dropWhile fun d => !isDelimiter d, ?_, ?_, ?_, ?_, ?_⟩
          · rw [List.nil_append, List.cons_append, hsplit]
          · exact fun d hd => absurd hd List.not_mem_nil
          · exact List.cons_ne_nil _ _
          · intro d hd
            rcases List.mem_cons.mp hd with rfl | hd
            · exact hc
            · have hall := List.all_eq_true.mp List.all_takeWhile d hd
              simpa using hall
          · rcases hrest : l.dropWhile fun d => !isDelimiter d with
              _ | ⟨d, more⟩
            · exact Or.inl rfl
            · have hhead := List.head_dropWhile_not
                (fun d => !isDelimiter d) (l := l) (by rw [hrest]; simp)
              simp only [hrest, List.head_cons, Bool.not_eq_false'] at hhead
              exact Or.inr ⟨d, more, rfl, hhead⟩

end Runs

/-! ## The function -/

/-- The first position from `i` on whose byte satisfies `stop`. -/
def scanTo (stop : UInt8 → Bool) (cells : List (Option UInt8)) :
    Nat → Nat → Except Fault Nat
  | 0, _ => .error .outOfFuel
  | fuel + 1, i => do
    if stop (← loadAt cells i) then return i
    else scanTo stop cells fuel (i + 1)

/-- `strtok` from position `start`: the token found (`none` for a null
pointer), the buffer, and the position kept for the next call. -/
def strtok (isDelimiter : UInt8 → Bool) (cells : List (Option UInt8))
    (start : Nat) : Except Fault (Option Nat × List (Option UInt8) × Nat) := do
  let first ← scanTo (fun c => c == 0 || !isDelimiter c) cells
    (cells.length + 1) start
  if (← loadAt cells first) = 0 then
    return (none, cells, first)
  else
    let last ← scanTo (fun c => c == 0 || isDelimiter c) cells
      (cells.length + 1) first
    if (← loadAt cells last) = 0 then
      return (some first, cells, last)
    else
      return (some first, ← storeAt cells last 0, last + 1)

section Strtok

variable {isDelimiter : UInt8 → Bool} {front rest : List (Option UInt8)}
  {gap token : List UInt8} {c : UInt8}

theorem scanTo_eq {stop : UInt8 → Bool} {skipped : List UInt8} {fuel i : Nat}
    (hi : front.length = i) (hskipped : ∀ c ∈ skipped, stop c = false)
    (hc : stop c = true) (hfuel : skipped.length < fuel) :
    scanTo stop (front ++ (skipped.map some ++ some c :: rest)) fuel i =
      .ok (i + skipped.length) := by
  induction skipped generalizing front fuel i with
  | nil =>
      rcases fuel with _ | fuel
      · exact absurd hfuel (Nat.not_lt_zero _)
      · unfold scanTo
        simp only [List.map_nil, List.nil_append]
        rw [loadAt_append hi]
        simp [hc]
  | cons d skipped ih =>
      rcases fuel with _ | fuel
      · exact absurd hfuel (Nat.not_lt_zero _)
      · have hd := hskipped d List.mem_cons_self
        have hrest : scanTo stop ((front ++ [some d]) ++
            (skipped.map some ++ some c :: rest)) fuel (i + 1) =
            .ok (i + 1 + skipped.length) :=
          ih (by simp [hi])
            (fun e he => hskipped e (List.mem_cons_of_mem d he))
            (by simp only [List.length_cons] at hfuel; omega)
        unfold scanTo
        simp only [List.map_cons, List.cons_append]
        rw [loadAt_append hi]
        simp only [List.append_assoc, List.singleton_append] at hrest
        simp only [except_ok_bind, hd, Bool.false_eq_true, if_false, hrest,
          List.length_cons]
        congr 1
        omega

/-- Nothing but delimiters: a null pointer, and an unchanged buffer. -/
theorem strtok_none {start : Nat} (hstart : front.length = start)
    (hgap : ∀ c ∈ gap, c ≠ 0 ∧ isDelimiter c = true) :
    strtok isDelimiter (front ++ (gap.map some ++ some 0 :: rest)) start =
      .ok (none, front ++ (gap.map some ++ some 0 :: rest),
        start + gap.length) := by
  have hscan : scanTo (fun c => c == 0 || !isDelimiter c)
      (front ++ (gap.map some ++ some 0 :: rest))
      ((front ++ (gap.map some ++ some 0 :: rest)).length + 1) start =
      .ok (start + gap.length) :=
    scanTo_eq hstart (fun c hc => by simp [hgap c hc]) (by simp)
      (by simp only [List.length_append, List.length_map]; omega)
  have hload : loadAt (front ++ (gap.map some ++ some 0 :: rest))
      (start + gap.length) = .ok 0 := by
    rw [← List.append_assoc]
    exact loadAt_append (by simp [hstart])
  unfold strtok
  rw [hscan]
  simp only [except_ok_bind, hload]
  rfl

section Token

variable {start : Nat} (hstart : front.length = start)
  (hgap : ∀ c ∈ gap, c ≠ 0 ∧ isDelimiter c = true) (hne : token ≠ [])
  (htoken : ∀ c ∈ token, c ≠ 0 ∧ isDelimiter c = false)
include hstart hgap hne htoken

/-- The part of `strtok` common to the two ways a token can end. -/
theorem strtok_scans (hc : (c == 0 || isDelimiter c) = true)
    {cells : List (Option UInt8)}
    (hcells : cells = front ++ (gap.map some ++ (token.map some ++
      some c :: rest))) :
    strtok isDelimiter cells start =
      if c = 0 then
        .ok (some (start + gap.length), cells,
          start + gap.length + token.length)
      else do
        return (some (start + gap.length),
          ← storeAt cells (start + gap.length + token.length) 0,
          start + gap.length + token.length + 1) := by
  obtain ⟨d, more, rfl⟩ := List.exists_cons_of_ne_nil hne
  have hd := htoken d List.mem_cons_self
  have hfirst : scanTo (fun c => c == 0 || !isDelimiter c) cells
      (cells.length + 1) start = .ok (start + gap.length) := by
    rw [hcells]
    refine scanTo_eq (c := d) hstart (fun e he => by simp [hgap e he])
      (by simp [hd]) ?_
    simp only [List.length_append, List.length_map]
    omega
  have hlast : scanTo (fun c => c == 0 || isDelimiter c) cells
      (cells.length + 1) (start + gap.length) =
        .ok (start + gap.length + (d :: more).length) := by
    have hsplit : cells = (front ++ gap.map some) ++
        ((d :: more).map some ++ some c :: rest) := by
      rw [hcells, List.append_assoc]
    rw [hsplit]
    refine scanTo_eq (by simp [hstart]) (fun e he => by simp [htoken e he])
      hc ?_
    simp only [List.length_append, List.length_map, List.length_cons]
    omega
  have hload : loadAt cells (start + gap.length) = .ok d := by
    rw [hcells, ← List.append_assoc]
    exact loadAt_append (by simp [hstart])
  have hloadLast : loadAt cells (start + gap.length + (d :: more).length) =
      .ok c := by
    have hsplit : cells = (front ++ gap.map some ++ (d :: more).map some) ++
        some c :: rest := by
      rw [hcells]
      simp only [List.append_assoc]
    rw [hsplit]
    exact loadAt_append (by simp [hstart]; omega)
  unfold strtok
  rw [hfirst]
  simp only [except_ok_bind, hload, if_neg hd.1, hlast, hloadLast]
  rfl

/-- A token that ends the string. -/
theorem strtok_last :
    strtok isDelimiter
        (front ++ (gap.map some ++ (token.map some ++ some 0 :: rest))) start =
      .ok (some (start + gap.length),
        front ++ (gap.map some ++ (token.map some ++ some 0 :: rest)),
        start + gap.length + token.length) := by
  rw [strtok_scans (c := 0) hstart hgap hne htoken (by simp) rfl, if_pos rfl]

/-- A token that a delimiter ends: the delimiter becomes a NUL. -/
theorem strtok_next (hc : isDelimiter c = true) (hc₀ : c ≠ 0) :
    strtok isDelimiter
        (front ++ (gap.map some ++ (token.map some ++ some c :: rest))) start =
      .ok (some (start + gap.length),
        front ++ (gap.map some ++ (token.map some ++ some 0 :: rest)),
        start + gap.length + token.length + 1) := by
  have hsplit : ∀ b, front ++ (gap.map some ++ (token.map some ++
      some b :: rest)) =
      (front ++ gap.map some ++ token.map some) ++ some b :: rest := by
    intro b
    simp only [List.append_assoc]
  have hstore : storeAt (front ++ (gap.map some ++ (token.map some ++
      some c :: rest))) (start + gap.length + token.length) 0 =
      .ok (front ++ (gap.map some ++ (token.map some ++ some 0 :: rest))) := by
    rw [hsplit, hsplit]
    exact storeAt_append (by simp [hstart]; omega)
  rw [strtok_scans (c := c) hstart hgap hne htoken (by simp [hc]) rfl,
    if_neg hc₀, hstore]
  rfl

end Token

end Strtok

/-! ## Buffers without a terminator -/

section Unterminated

variable {isDelimiter stop : UInt8 → Bool} {cells cells' : List (Option UInt8)}
  {fuel i j : Nat}

/-- No NUL stands from position `i` on. -/
def Unterminated (cells : List (Option UInt8)) (i : Nat) : Prop :=
  ∀ j, i ≤ j → cells[j]? ≠ some (some 0)

theorem Unterminated.mono (h : Unterminated cells i) (hle : i ≤ j) :
    Unterminated cells j :=
  fun k hk => h k (Nat.le_trans hle hk)

theorem Unterminated.loadAt (h : Unterminated cells i) :
    loadAt cells i ≠ .ok 0 := by
  intro hload
  apply h i (Nat.le_refl i)
  unfold Posix.loadAt at hload
  split at hload
  · next b hb =>
      cases hload
      exact hb
  · cases hload
  · cases hload

theorem scanTo_le (h : scanTo stop cells fuel i = .ok j) : i ≤ j := by
  induction fuel generalizing i with
  | zero => cases h
  | succ fuel ih =>
      unfold scanTo at h
      obtain ⟨c, -, h⟩ := except_bind_eq_ok.mp h
      split at h
      · cases h
        exact Nat.le_refl _
      · exact Nat.le_trans (Nat.le_succ i) (ih h)

/-- A write in front of a position does not terminate what stands from there
on. -/
theorem Unterminated.store {b : UInt8} (h : Unterminated cells i)
    (hlt : j < i) (hstore : storeAt cells j b = .ok cells') :
    Unterminated cells' i := by
  intro k hk
  unfold storeAt at hstore
  split at hstore
  · cases hstore
    rw [List.getElem?_set_ne (Nat.ne_of_lt (Nat.lt_of_lt_of_le hlt hk))]
    exact h k hk
  · cases hstore

/-- Without a terminator `strtok` finds a token, or runs out of the buffer. -/
theorem Unterminated.strtok {token : Option Nat} (h : Unterminated cells i)
    (hcall : strtok isDelimiter cells i = .ok (token, cells', j)) :
    token ≠ none ∧ Unterminated cells' j := by
  unfold Posix.strtok at hcall
  obtain ⟨first, hfirst, hcall⟩ := except_bind_eq_ok.mp hcall
  obtain ⟨c, hload, hcall⟩ := except_bind_eq_ok.mp hcall
  have hfrom := h.mono (scanTo_le hfirst)
  have hc : c ≠ 0 := fun hzero => hfrom.loadAt (hzero ▸ hload)
  rw [if_neg hc] at hcall
  obtain ⟨last, hlast, hcall⟩ := except_bind_eq_ok.mp hcall
  obtain ⟨d, hload', hcall⟩ := except_bind_eq_ok.mp hcall
  have hto := hfrom.mono (scanTo_le hlast)
  have hd : d ≠ 0 := fun hzero => hto.loadAt (hzero ▸ hload')
  rw [if_neg hd] at hcall
  obtain ⟨stored, hstore, hcall⟩ := except_bind_eq_ok.mp hcall
  cases hcall
  exact ⟨Option.some_ne_none _,
    (hto.mono (Nat.le_succ last)).store (Nat.lt_succ_self last) hstore⟩

end Unterminated

end OsLabs.Posix
