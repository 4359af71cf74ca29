/-!
# Cs252.Lib.Transition

Transition systems and their invariants, over any type of states.

A system is a set of initial states and a step relation. What holds initially
and is kept by every step holds in every reachable state (`Invariant.holds`).

Steps may also be given by name. A property then holds in every state of a run
exactly if each step is taken under a condition, where the condition says which
steps keep the property (`Labelled.allStates_iff`).
-/

universe u v

/-- A transition system. -/
structure System (σ : Type u) where
  /-- The initial states. -/
  init : σ → Prop
  /-- The steps. -/
  step : σ → σ → Prop

namespace System

variable {σ : Type u} {S : System σ} {I : σ → Prop} {s : σ}

/-- The states reachable from an initial state. -/
inductive Reachable (S : System σ) : σ → Prop
  | start {s : σ} : S.init s → Reachable S s
  | step {s t : σ} : Reachable S s → S.step s t → Reachable S t

/-- A property that holds initially and is kept by every step. -/
structure Invariant (S : System σ) (I : σ → Prop) : Prop where
  init : ∀ s, S.init s → I s
  step : ∀ s t, I s → S.step s t → I t

/-- An invariant holds in every reachable state. -/
theorem Invariant.holds (h : S.Invariant I) (hs : S.Reachable s) : I s := by
  induction hs with
  | start hinit => exact h.init _ hinit
  | step _ hstep ih => exact h.step _ _ ih hstep

end System

/-! ### Runs of named steps -/

namespace Labelled

variable {σ : Type u} {α : Type v} (step : α → σ → Option σ)

/-- The state after a run of steps. -/
def run : List α → σ → Option σ
  | [], s => some s
  | a :: steps, s => (step a s).bind (run steps)

/-- A property of every state of a run, up to the first step that cannot be taken. -/
def AllStates (P : σ → Prop) : List α → σ → Prop
  | [], s => P s
  | a :: steps, s => P s ∧ ∀ s', step a s = some s' → AllStates P steps s'

/-- A condition for every step of a run, up to the first one that cannot be taken. -/
def AllSteps (C : α → σ → Prop) : List α → σ → Prop
  | [], _ => True
  | a :: steps, s => ∀ s', step a s = some s' → C a s ∧ AllSteps C steps s'

/-- What is observed of every step of a run, and of the first one that cannot be taken. -/
def AllTries (Q : α → σ → Prop) : List α → σ → Prop
  | [], _ => True
  | a :: steps, s => Q a s ∧ ∀ s', step a s = some s' → AllTries Q steps s'

variable {step}

theorem allStates_iff {P : σ → Prop} {C : α → σ → Prop}
    (hstep : ∀ a s s', P s → step a s = some s' → (P s' ↔ C a s)) {steps : List α} {s : σ}
    (hs : P s) : AllStates step P steps s ↔ AllSteps step C steps s := by
  induction steps generalizing s with
  | nil => exact iff_of_true hs trivial
  | cons a steps ih =>
    rw [AllStates, AllSteps, and_iff_right hs]
    refine forall_congr' fun s' => forall_congr' fun ha => ?_
    constructor
    · intro h
      have hs' : P s' := by
        cases steps with
        | nil => exact h
        | cons => exact h.1
      exact ⟨(hstep a s s' hs ha).mp hs', (ih hs').mp h⟩
    · intro h
      exact (ih ((hstep a s s' hs ha).mpr h.1)).mpr h.2

/-- What is observed depends on the conditions under which the steps are taken. -/
theorem allTries_iff {P : σ → Prop} {Q C : α → σ → Prop}
    (htry : ∀ a s, P s → (Q a s ↔ ∀ s', step a s = some s' → C a s))
    (hstep : ∀ a s s', P s → step a s = some s' → C a s → P s') {steps : List α} {s : σ}
    (hs : P s) : AllTries step Q steps s ↔ AllSteps step C steps s := by
  induction steps generalizing s with
  | nil => exact Iff.rfl
  | cons a steps ih =>
    rw [AllTries, AllSteps, htry a s hs]
    constructor
    · intro h s' ha
      exact ⟨h.1 s' ha, (ih (hstep a s s' hs ha (h.1 s' ha))).mp (h.2 s' ha)⟩
    · intro h
      refine ⟨fun s' ha => (h s' ha).1, fun s' ha => ?_⟩
      exact (ih (hstep a s s' hs ha (h s' ha).1)).mpr (h s' ha).2

end Labelled
