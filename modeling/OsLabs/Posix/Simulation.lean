import OsLabs.Posix.Processes

/-!
# Forward simulation

One system simulates another through an abstraction function when every step
of the concrete one, from a state with the invariant, is matched by a run of
the abstract one: no step at all, one step, or several.  Then every run of the
concrete system is explained by a run of the abstract one, and what is
invariant in the abstract system holds in every state the concrete one
reaches.
-/

namespace OsLabs.Posix

variable {σ τ : Type} {step : σ → σ → Prop} {step' : τ → τ → Prop}
  {I : σ → Prop} {abs : σ → τ} {s t : σ}

/-- The steps of `step` keep `I`, and are runs of `step'` under `abs`. -/
structure Simulates (step : σ → σ → Prop) (step' : τ → τ → Prop)
    (I : σ → Prop) (abs : σ → τ) : Prop where
  keeps : ∀ a b, I a → step a b → I b
  matched : ∀ a b, I a → step a b → Runs step' (abs a) (abs b)

theorem Simulates.invariant_runs (h : Simulates step step' I abs) (hs : I s)
    (hruns : Runs step s t) : I t :=
  hruns.invariant h.keeps hs

/-- Runs are matched by runs. -/
theorem Simulates.runs (h : Simulates step step' I abs) (hs : I s)
    (hruns : Runs step s t) : Runs step' (abs s) (abs t) := by
  induction hruns with
  | refl => exact Relation.ReflTransGen.refl
  | tail hruns hlast ih =>
      exact ih.trans (h.matched _ _ (h.invariant_runs hs hruns) hlast)

/-- An invariant of the abstract system, seen from the concrete one. -/
theorem Simulates.pull (h : Simulates step step' I abs) {J : τ → Prop}
    (hstep : ∀ a b, J a → step' a b → J b) (hs : I s) (hJ : J (abs s))
    (hruns : Runs step s t) : J (abs t) :=
  (h.runs hs hruns).invariant hstep hJ

end OsLabs.Posix
