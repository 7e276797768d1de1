import OsLabs.Posix.Memory

/-!
# Runs with a log

A computation that may fault and writes a log of what it does.  The log of a
run that faults goes up to the fault, so a statement about every entry covers
the accesses of such a run as well.

`Keeps` is the triple for these computations; a sequence is dealt with by
`Keeps.bind`, one half at a time.  It says what no entry may be.  What the log
must hold once the run has ended is said by `Ends`, with the log of the whole
run at hand.
-/

namespace OsLabs.Posix

/-- What a run has logged, and how it ends. -/
structure Traced (ε α : Type) where
  log : List ε
  outcome : Except Fault α

namespace Traced

variable {ε α β : Type}

/-- A run that logs nothing. -/
def ofExcept (outcome : Except Fault α) : Traced ε α := ⟨[], outcome⟩

/-- A fault. -/
def fault (f : Fault) : Traced ε α := ofExcept (.error f)

/-- One entry of the log. -/
def emit (entry : ε) : Traced ε Unit := ⟨[entry], .ok ()⟩

/-- One run after another.  Behind a fault nothing happens. -/
def andThen (x : Traced ε α) (f : α → Traced ε β) : Traced ε β :=
  match x.outcome with
  | .error e => ⟨x.log, .error e⟩
  | .ok a => ⟨x.log ++ (f a).log, (f a).outcome⟩

instance : Monad (Traced ε) where
  pure a := ofExcept (.ok a)
  bind := andThen

theorem ok_bind (log : List ε) (a : α) (f : α → Traced ε β) :
    ((⟨log, .ok a⟩ : Traced ε α) >>= f) =
      ⟨log ++ (f a).log, (f a).outcome⟩ := rfl

/-! ## How it ends -/

@[simp] theorem outcome_pure (a : α) :
    (pure a : Traced ε α).outcome = .ok a := rfl

@[simp] theorem outcome_fault (f : Fault) :
    (fault f : Traced ε α).outcome = .error f := rfl

@[simp] theorem outcome_emit (entry : ε) : (emit entry).outcome = .ok () := rfl

@[simp] theorem outcome_bind (x : Traced ε α) (f : α → Traced ε β) :
    (x >>= f).outcome = x.outcome >>= fun a => (f a).outcome := by
  show (andThen x f).outcome = _
  unfold andThen
  cases x.outcome with
  | error e => rfl
  | ok a => rfl

@[simp] theorem outcome_ite (p : Prop) [Decidable p] (x y : Traced ε α) :
    (if p then x else y).outcome = if p then x.outcome else y.outcome :=
  apply_ite outcome p x y

@[simp] theorem outcome_ofExcept (outcome : Except Fault α) :
    (ofExcept outcome : Traced ε α).outcome = outcome := rfl

/-- A loop, round by round. -/
theorem outcome_foldlM {f : β → α → Traced ε β} {g : β → α → Except Fault β}
    {l : List α} (b : β)
    (hround : ∀ b, ∀ a ∈ l, (f b a).outcome = g b a) :
    (l.foldlM f b).outcome = l.foldlM g b := by
  induction l generalizing b with
  | nil => rfl
  | cons a l ih =>
      have hrest := fun b => ih b fun b a ha =>
        hround b a (List.mem_cons_of_mem _ ha)
      simp only [List.foldlM_cons, outcome_bind,
        hround b a List.mem_cons_self, hrest]

/-! ## What every entry satisfies -/

section Keeps

variable {P : ε → Prop} {allowed : Fault → Prop} {Q R : α → Prop}
  {S : β → Prop} {x : Traced ε α} {f : α → Traced ε β}

/-- Every entry satisfies `P`, every fault is an allowed one, and every result
satisfies `Q`. -/
structure Keeps (P : ε → Prop) (allowed : Fault → Prop) (Q : α → Prop)
    (x : Traced ε α) : Prop where
  entries : ∀ entry ∈ x.log, P entry
  faults : ∀ e, x.outcome = .error e → allowed e
  result : ∀ a, x.outcome = .ok a → Q a

theorem Keeps.pure {a : α} (h : Q a) :
    Keeps P allowed Q (Pure.pure a : Traced ε α) where
  entries _ hentry := nomatch hentry
  faults _ hfault := nomatch hfault
  result _ hresult := by
    cases hresult
    exact h

theorem Keeps.fault {e : Fault} (h : allowed e) :
    Keeps P allowed Q (Traced.fault e : Traced ε α) where
  entries _ hentry := nomatch hentry
  faults _ hfault := by
    cases hfault
    exact h
  result _ hresult := nomatch hresult

/-- An access that does not fault. -/
theorem Keeps.logged {entry : ε} {a : α} (hentry : P entry) (ha : Q a) :
    Keeps P allowed Q ⟨[entry], .ok a⟩ where
  entries _ hmem := by
    rw [List.mem_singleton.mp hmem]
    exact hentry
  faults _ hfault := nomatch hfault
  result _ hresult := by
    cases hresult
    exact ha

theorem Keeps.emit {entry : ε} (h : P entry) :
    Keeps P allowed (fun _ => True) (Traced.emit entry) :=
  .logged h trivial

theorem Keeps.weaken (h : Keeps P allowed Q x) (hweaker : ∀ a, Q a → R a) :
    Keeps P allowed R x where
  entries := h.entries
  faults := h.faults
  result a ha := hweaker a (h.result a ha)

theorem Keeps.ite {p : Prop} [Decidable p] {y : Traced ε α}
    (hx : p → Keeps P allowed Q x) (hy : ¬ p → Keeps P allowed Q y) :
    Keeps P allowed Q (if p then x else y) := by
  by_cases hp : p
  · rw [if_pos hp]
    exact hx hp
  · rw [if_neg hp]
    exact hy hp

/-- The second half starts from what the first one has established. -/
theorem Keeps.bind (hx : Keeps P allowed Q x)
    (hf : ∀ a, Q a → Keeps P allowed S (f a)) :
    Keeps P allowed S (x >>= f) := by
  show Keeps P allowed S (andThen x f)
  unfold andThen
  cases hend : x.outcome with
  | error e =>
      exact
        { entries := hx.entries
          faults := fun e' he' => by
            cases he'
            exact hx.faults e hend
          result := nofun }
  | ok a =>
      have ha := hf a (hx.result a hend)
      exact
        { entries := fun entry hentry =>
            (List.mem_append.mp hentry).elim (hx.entries entry)
              (ha.entries entry)
          faults := ha.faults
          result := ha.result }

theorem Keeps.ofExcept {outcome : Except Fault α}
    (hfault : ∀ e, outcome = .error e → allowed e)
    (hresult : ∀ a, outcome = .ok a → Q a) :
    Keeps P allowed Q (Traced.ofExcept outcome : Traced ε α) where
  entries _ hentry := nomatch hentry
  faults := hfault
  result := hresult

/-- What every round of a loop keeps, the loop keeps. -/
theorem Keeps.foldlM {g : β → α → Traced ε β} {l : List α} {b : β}
    (hstart : S b)
    (hround : ∀ b, ∀ a ∈ l, S b → Keeps P allowed S (g b a)) :
    Keeps P allowed S (l.foldlM g b) := by
  induction l generalizing b with
  | nil => exact .pure hstart
  | cons a l ih =>
      rw [List.foldlM_cons]
      refine (hround b a List.mem_cons_self hstart).bind fun b' hb' => ?_
      exact ih hb' fun b a ha => hround b a (List.mem_cons_of_mem _ ha)

end Keeps

/-! ## What the log holds at the end -/

section Ends

variable {Q R : α → List ε → Prop} {S : β → List ε → Prop} {x : Traced ε α}
  {f : α → Traced ε β}

/-- If the run ends with a result, `Q` holds of it and of the log. -/
def Ends (Q : α → List ε → Prop) (x : Traced ε α) : Prop :=
  ∀ a, x.outcome = .ok a → Q a x.log

theorem Ends.pure {a : α} (h : Q a []) :
    Ends Q (Pure.pure a : Traced ε α) := by
  intro b hb
  cases hb
  exact h

theorem Ends.fault {e : Fault} : Ends Q (Traced.fault e : Traced ε α) :=
  nofun

theorem Ends.any : Ends (fun _ _ => True) x :=
  fun _ _ => trivial

theorem Ends.weaken (h : Ends Q x) (hweaker : ∀ a log, Q a log → R a log) :
    Ends R x :=
  fun a ha => hweaker a x.log (h a ha)

theorem Ends.ite {p : Prop} [Decidable p] {y : Traced ε α}
    (hx : p → Ends Q x) (hy : ¬ p → Ends Q y) :
    Ends Q (if p then x else y) := by
  by_cases hp : p
  · rw [if_pos hp]
    exact hx hp
  · rw [if_neg hp]
    exact hy hp

/-- The log of the second half stands behind that of the first one. -/
theorem Ends.bind (hx : Ends Q x)
    (hf : ∀ a before, Q a before →
      Ends (fun b after => S b (before ++ after)) (f a)) :
    Ends S (x >>= f) := by
  intro b hb
  show S b (andThen x f).log
  change (andThen x f).outcome = _ at hb
  unfold andThen at hb ⊢
  cases hend : x.outcome with
  | error e =>
      rw [hend] at hb
      cases hb
  | ok a =>
      rw [hend] at hb
      exact hf a x.log (hx a hend) b hb

end Ends

end Traced

end OsLabs.Posix
