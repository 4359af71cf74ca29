/-!
# Cs252.Lib.Refinement

Systems that are observed through events, and refinement between them.

A trace of a system is the list of events of one of its runs. One system refines
another if all its traces are traces of the other. A forward simulation, a
relation between the states of the two that every step of the first keeps by
a step of the second with the same event, is enough (`Simulation.refines`), and
what is shown about the events of the second system then holds of the first.
-/

universe u v w

/-- A transition system whose steps are observed as events. -/
structure Observed (σ : Type u) (ε : Type v) where
  /-- The initial states. -/
  init : σ → Prop
  /-- The steps, each with the event observed. -/
  step : σ → ε → σ → Prop

namespace Observed

variable {σ : Type u} {τ : Type w} {ε : Type v} {S : Observed σ ε} {s t r : σ} {e : ε}
  {es es' : List ε}

/-- Several steps, and what is observed of them. -/
inductive Steps (S : Observed σ ε) : σ → List ε → σ → Prop
  | nil {s : σ} : Steps S s [] s
  | cons {s t r : σ} {e : ε} {es : List ε} : S.step s e t → Steps S t es r → Steps S s (e :: es) r

@[simp] theorem steps_nil : S.Steps s [] t ↔ s = t :=
  ⟨fun h => by cases h; rfl, fun h => h ▸ .nil⟩

@[simp] theorem steps_cons : S.Steps s (e :: es) r ↔ ∃ t, S.step s e t ∧ S.Steps t es r := by
  constructor
  · intro h
    cases h with
    | cons hstep hsteps => exact ⟨_, hstep, hsteps⟩
  · intro h
    obtain ⟨t, hstep, hsteps⟩ := h
    exact .cons hstep hsteps

theorem steps_append : S.Steps s (es ++ es') r ↔ ∃ t, S.Steps s es t ∧ S.Steps t es' r := by
  induction es generalizing s with
  | nil => simp
  | cons e es ih =>
    simp only [List.cons_append, steps_cons, ih]
    constructor
    · intro h
      obtain ⟨t, hstep, t', hsteps, hrest⟩ := h
      exact ⟨t', ⟨t, hstep, hsteps⟩, hrest⟩
    · intro h
      obtain ⟨t', ⟨t, hstep, hsteps⟩, hrest⟩ := h
      exact ⟨t, hstep, t', hsteps, hrest⟩

/-- What every step keeps is kept by several. -/
theorem Steps.keeps {I : σ → Prop} (hstep : ∀ s e t, I s → S.step s e t → I t)
    (h : S.Steps s es t) (hs : I s) : I t := by
  induction h with
  | nil => exact hs
  | cons hfirst _ ih => exact ih (hstep _ _ _ hs hfirst)

/-- The lists of events of the runs of a system. -/
def Trace (S : Observed σ ε) (es : List ε) : Prop := ∃ s t, S.init s ∧ S.Steps s es t

/-- Every trace of `C` is one of `A`. -/
def Refines (C : Observed σ ε) (A : Observed τ ε) : Prop := ∀ es, C.Trace es → A.Trace es

/-- A forward simulation of `C` by `A`. -/
structure Simulation (C : Observed σ ε) (A : Observed τ ε) (R : σ → τ → Prop) : Prop where
  init : ∀ s, C.init s → ∃ a, A.init a ∧ R s a
  step : ∀ s e t a, R s a → C.step s e t → ∃ b, A.step a e b ∧ R t b

namespace Simulation

variable {C : Observed σ ε} {A : Observed τ ε} {R : σ → τ → Prop} {a : τ}

theorem steps (h : C.Simulation A R) (hsteps : C.Steps s es t) (ha : R s a) :
    ∃ b, A.Steps a es b ∧ R t b := by
  induction hsteps generalizing a with
  | nil => exact ⟨a, .nil, ha⟩
  | cons hstep _ ih =>
    obtain ⟨b, hb, hrel⟩ := h.step _ _ _ _ ha hstep
    obtain ⟨c, hc, hlast⟩ := ih hrel
    exact ⟨c, .cons hb hc, hlast⟩

/-- A system refines what simulates it. -/
theorem refines (h : C.Simulation A R) : C.Refines A := by
  intro es htrace
  obtain ⟨s, t, hinit, hsteps⟩ := htrace
  obtain ⟨a, ha, hrel⟩ := h.init s hinit
  obtain ⟨b, hb, -⟩ := h.steps hsteps hrel
  exact ⟨a, b, ha, hb⟩

end Simulation

end Observed
