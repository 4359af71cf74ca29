import Cs252.Threads.ReactionRuns

/-!
# Cs252.Threads.ReactionEnds

How the runs of the reactions end.

A reaction goes on only with atoms or molecules that it has seen, or with a
signal, and both are limited. `budget` counts, for either kind of atom, what its
reaction can still start from. Only `create_o2` brings back molecules that are
already used, when it writes a number that it has read before `create_o3`
subtracted from it. It does so once in a round, so the runs are finite all the
same (`stepsLeft`).

At the halt the two threads that create atoms have exited, and the four reactions
wait for a signal that nobody sends. `main` joins all six, and never returns.
-/

namespace Cs252.Reactions

open BoundedBuffer (semWait)
open Threads

variable {oxyNum nitNum : Int}

/-! ### One kind of atom -/

/-- The thread that creates a kind of atom, the reaction that uses it, their
counter and their signal, and how many were created. -/
structure Kind where
  creator : Local
  reaction : Local
  num : Int
  sig : Nat
  created : Nat

/-- Oxygen. -/
def oxygen (s : State) : Kind :=
  ⟨s.locals .createOxygen, s.locals .createO2, s.shared.numOxygen, s.shared.sigO2,
    s.shared.oxygenCreated⟩

/-- Nitrogen. -/
def nitrogen (s : State) : Kind :=
  ⟨s.locals .createNitrogen, s.locals .createN2, s.shared.numNitrogen, s.shared.sigN2,
    s.shared.nitrogenCreated⟩

/-- What a step does to a kind of atom. -/
inductive Kind.Step (howMany : Int) : Kind → Kind → Prop
  | create {i v r n g m} : i < howMany →
      Step howMany ⟨⟨.create, i, v⟩, r, n, g, m⟩ ⟨⟨.create, i + 1, v⟩, r, n + 1, g, m + 1⟩
  | done {i v r n g m} : howMany ≤ i →
      Step howMany ⟨⟨.create, i, v⟩, r, n, g, m⟩ ⟨⟨.count, i, v⟩, r, n, g, m⟩
  | count {i v r n g m} : Step howMany ⟨⟨.count, i, v⟩, r, n, g, m⟩
      ⟨⟨if 2 ≤ n then .signal else .exited, i, v⟩, r, n, g, m⟩
  | signal {i v r n g m} :
      Step howMany ⟨⟨.signal, i, v⟩, r, n, g, m⟩ ⟨⟨.exited, i, v⟩, r, n, g + 1, m⟩
  | test {c i v n g m} : Step howMany ⟨c, ⟨.test, i, v⟩, n, g, m⟩
      ⟨c, ⟨if n < 2 then .wait else .react, i, v⟩, n, g, m⟩
  | wait {c i v n g m} : 0 < g →
      Step howMany ⟨c, ⟨.wait, i, v⟩, n, g, m⟩ ⟨c, ⟨.react, i, v⟩, n, g - 1, m⟩
  | react {c pc i v n g m} : pc ≠ .wait → pc ≠ .react →
      Step howMany ⟨c, ⟨.react, i, v⟩, n, g, m⟩ ⟨c, ⟨pc, i, v⟩, n - 2, g, m⟩
  /-- A step elsewhere in the round, or of another thread. -/
  | other {c r r' n g m} : r'.pc = r.pc ∨ r.pc ≠ .react ∧ r'.pc ≠ .react ∧ r'.pc ≠ .wait →
      Step howMany ⟨c, r, n, g, m⟩ ⟨c, r', n, g, m⟩

section Move

variable {s : State} {t : Reaction} {l : Local} {x : Shared}

theorem move_eq {l₀ : Local} {x₀ : Shared} (hl₀ : s.locals t = l₀) (hx₀ : s.shared = x₀) :
    s = s.move t l₀ x₀ := by
  rw [← hl₀, ← hx₀, Config.move_self]

theorem oxygen_step (hstep : Step oxyNum nitNum t (s.locals t) s.shared l x) :
    Kind.Step oxyNum (oxygen s) (oxygen (s.move t l x)) := by
  generalize hl₀ : s.locals t = l₀ at hstep
  generalize hx₀ : s.shared = x₀ at hstep
  have hs := move_eq hl₀ hx₀
  cases hstep with
  | oxygen hmore => rw [hs]; exact .create hmore
  | oxygenDone hdone => rw [hs]; exact .done hdone
  | oxygenCount => rw [hs]; exact .count
  | oxygenSignal => rw [hs]; exact .signal
  | o2Test => rw [hs]; exact .test
  | o2Wait hpos => rw [hs]; exact .wait hpos
  | o2React => rw [hs]; exact .react nofun nofun
  | no2Test | no2TestN2 | o3Test =>
    rw [hs]
    refine .other (Or.inr ⟨Pc.noConfusion, ?_⟩)
    simp only [Config.move_locals_self]
    split <;> exact ⟨Pc.noConfusion, Pc.noConfusion⟩
  | no2Signal | no2Read | no2Write | o3Signal =>
    rw [hs]
    exact .other (Or.inr ⟨Pc.noConfusion, Pc.noConfusion, Pc.noConfusion⟩)
  | _ => rw [hs]; exact .other (Or.inl rfl)

theorem nitrogen_step (hstep : Step oxyNum nitNum t (s.locals t) s.shared l x) :
    Kind.Step nitNum (nitrogen s) (nitrogen (s.move t l x)) := by
  generalize hl₀ : s.locals t = l₀ at hstep
  generalize hx₀ : s.shared = x₀ at hstep
  have hs := move_eq hl₀ hx₀
  cases hstep with
  | nitrogen hmore => rw [hs]; exact .create hmore
  | nitrogenDone hdone => rw [hs]; exact .done hdone
  | nitrogenCount => rw [hs]; exact .count
  | nitrogenSignal => rw [hs]; exact .signal
  | n2Test => rw [hs]; exact .test
  | n2Wait hpos => rw [hs]; exact .wait hpos
  | n2React => rw [hs]; exact .react Pc.noConfusion Pc.noConfusion
  | _ => rw [hs]; exact .other (Or.inl rfl)

end Move

/-! ### What is left to react -/

/-- The atoms that are still to be created. -/
def toCome (howMany : Int) (creator : Local) : Nat :=
  if creator.pc = .create then (howMany - creator.i).toNat else 0

/-- The signal that is still to be sent, or dropped. -/
def toSignal (creator : Local) : Nat :=
  if creator.pc = .create ∨ creator.pc = .count ∨ creator.pc = .signal then 1 else 0

/-- What is there for a reaction that uses `k` at a time, without what it has
seen and is about to use. -/
def unclaimed (num k : Int) (claimed : Prop) [Decidable claimed] : Int :=
  if claimed then num - k else num

section Unclaimed

variable {num bound k : Int} (claimed : Prop) [Decidable claimed]

theorem unclaimed_add_one_le (num k : Int) :
    (unclaimed (num + 1) k claimed).toNat ≤ (unclaimed num k claimed).toNat + 1 := by
  unfold unclaimed
  split <;> omega

theorem unclaimed_le (h : num ≤ bound) (hk : 0 ≤ k) :
    (unclaimed num k claimed).toNat ≤ bound.toNat := by
  unfold unclaimed
  split <;> omega

end Unclaimed

/-- The steps of a thread that creates atoms, after the last atom. -/
def creatorSteps : Pc → Nat
  | .create => 3
  | .count => 2
  | .signal => 1
  | _ => 0

namespace Kind

/-- The rounds the reaction can still start, at most. -/
def budget (howMany : Int) (k : Kind) : Nat :=
  toCome howMany k.creator + toSignal k.creator + (unclaimed k.num 2 (k.reaction.pc = .react)).toNat + k.sig

/-- The steps for a kind of atom, where a round of the reaction is worth `weight`. -/
def stepsLeft (howMany : Int) (weight : Nat) (k : Kind) : Nat :=
  weight * k.budget howMany + toCome howMany k.creator + creatorSteps k.creator.pc

/-- The reaction goes on. -/
def Starts (k k' : Kind) : Prop := k.reaction.pc ≠ .react ∧ k'.reaction.pc = .react

variable {howMany : Int} {k k' : Kind}

/-- The reaction goes on at the expense of its budget. -/
theorem Step.budget (h : Step howMany k k') :
    k'.budget howMany ≤ k.budget howMany ∧
      (k.Starts k' → k'.budget howMany < k.budget howMany) := by
  cases h with
  | create hmore => simp [Kind.budget, Starts, toCome, toSignal, unclaimed]; split <;> omega
  | @count _ _ _ n _ _ =>
    by_cases hn : 2 ≤ n <;> simp [Kind.budget, Starts, toCome, toSignal, unclaimed, hn]
  | signal => simp [Kind.budget, Starts, toCome, toSignal, unclaimed]; omega
  | @test _ _ _ n _ _ =>
    by_cases hn : n < 2
    · simp [Kind.budget, Starts, unclaimed, hn]
    · simp [Kind.budget, Starts, unclaimed, hn]
      omega
  | wait hpos => simp [Kind.budget, Starts, unclaimed]; omega
  | other hpc =>
    rcases hpc with hpc | ⟨hr, hr', -⟩
    · simp [Kind.budget, Starts, unclaimed, hpc]
    · simp [Kind.budget, Starts, unclaimed, hr, hr']
  | _ => simp [Kind.budget, Starts, toCome, toSignal, unclaimed, *]

/-- The thread that creates atoms has fewer steps left after each of its own. -/
theorem Step.creator (h : Step howMany k k') :
    k'.creator = k.creator ∨
      toCome howMany k'.creator + creatorSteps k'.creator.pc
        < toCome howMany k.creator + creatorSteps k.creator.pc := by
  cases h with
  | create hmore => right; simp [toCome]; omega
  | done hdone => right; simp [toCome, creatorSteps]
  | count => right; simp only [toCome, creatorSteps]; split <;> simp
  | signal => right; simp [toCome, creatorSteps]
  | _ => left; rfl

/-- No step adds to the steps left. A step of the thread that creates atoms takes
one of them, and the start of a round takes what a round is worth. -/
theorem Step.stepsLeft (h : Step howMany k k') (weight : Nat) :
    k'.stepsLeft howMany weight ≤ k.stepsLeft howMany weight ∧
      (k'.creator ≠ k.creator → k'.stepsLeft howMany weight < k.stepsLeft howMany weight) ∧
      (k.Starts k' → k'.stepsLeft howMany weight + weight ≤ k.stepsLeft howMany weight) := by
  have hbudget := Nat.mul_le_mul_left weight h.budget.1
  have hcreator : toCome howMany k'.creator + creatorSteps k'.creator.pc
      ≤ toCome howMany k.creator + creatorSteps k.creator.pc := by
    rcases h.creator with hsame | hless
    · rw [hsame]
    · exact Nat.le_of_lt hless
  unfold Kind.stepsLeft
  refine ⟨by omega, fun hmoved => ?_, fun hstarts => ?_⟩
  · have hless := h.creator.resolve_left hmoved
    omega
  · have hless := Nat.mul_le_mul_left weight (h.budget.2 hstarts)
    rw [Nat.mul_succ] at hless
    omega

end Kind

/-! ### The steps of a round -/

/-- The steps of `create_n2` in a round, and those its molecule allows for. -/
def n2Steps : Pc → Nat
  | .react => 7
  | .test => 2
  | .wait => 1
  | _ => 0

/-- The steps of `create_no2` in a round. -/
def no2Steps : Pc → Nat
  | .testO2 => 6
  | .react => 4
  | .test => 3
  | .wait => 1
  | _ => 0

/-- The steps of `create_o3` in a round. -/
def o3Steps : Pc → Nat
  | .react => 3
  | .test => 2
  | .wait => 1
  | _ => 0

/-- The steps of `create_o2` in a round, and those its molecule and its signals
allow for, with at most `most` molecules brought back. -/
def o2Steps (most : Nat) : Pc → Nat
  | .react => 3 * most + 20
  | .no2Test => 3 * most + 16
  | .no2TestN2 => 3 * most + 15
  | .no2Signal => 3 * most + 14
  | .no2Read => 3 * most + 9
  | .no2Write => 3 * most + 8
  | .o3Test => 7
  | .o3Signal => 6
  | .test => 2
  | .wait => 1
  | _ => 0

/-- There are at most so many molecules of O2. -/
def mostO2 (oxyNum : Int) : Nat := oxyNum.toNat + 1

/-- The N2 that `create_no2` has not seen yet. -/
def no2Unclaimed (s : State) : Int :=
  unclaimed s.shared.numN2 1
    ((s.locals .createNo2).pc = .testO2 ∨ (s.locals .createNo2).pc = .react)

/-- The O2 that `create_o3` has not seen yet. -/
def o3Unclaimed (s : State) : Int :=
  unclaimed s.shared.numO2 3 ((s.locals .createO3).pc = .react)

/-- No run takes more steps than these from a state on. -/
def stepsLeft (oxyNum nitNum : Int) (s : State) : Nat :=
  (oxygen s).stepsLeft oxyNum (3 * mostO2 oxyNum + 20) + o2Steps (mostO2 oxyNum) (s.locals .createO2).pc
  + ((nitrogen s).stepsLeft nitNum 7 + n2Steps (s.locals .createN2).pc)
  + (4 * ((no2Unclaimed s).toNat + s.shared.sigNo2)
    + no2Steps (s.locals .createNo2).pc)
  + (3 * ((o3Unclaimed s).toNat + s.shared.sigO3)
    + o3Steps (s.locals .createO3).pc)

/-- The molecules of O2, and those `create_o2` remembers, are bounded. -/
structure BoundedO2 (oxyNum : Int) (s : State) : Prop where
  numO2 : s.shared.numO2.toNat + (if (s.locals .createO2).pc = .react then 1 else 0)
    + (oxygen s).budget oxyNum ≤ mostO2 oxyNum
  read : (s.locals .createO2).pc = .no2Write →
    (s.locals .createO2).o2.toNat + (oxygen s).budget oxyNum ≤ mostO2 oxyNum

/-- A step of another thread leaves the bound, if it does not add to O2. -/
theorem BoundedO2.keep {s s' : State} (h : BoundedO2 oxyNum s)
    (hbudget : (oxygen s').budget oxyNum ≤ (oxygen s).budget oxyNum)
    (hsame : s'.locals .createO2 = s.locals .createO2) (hnum : s'.shared.numO2 ≤ s.shared.numO2) :
    BoundedO2 oxyNum s' := by
  have hbound := h.numO2
  have hread := h.read
  refine ⟨?_, fun hpc => ?_⟩
  · rw [hsame]
    omega
  · rw [hsame] at hpc ⊢
    have := hread hpc
    omega

theorem BoundedO2.step {s : State} {t : Reaction} {l₀ l : Local} {x₀ x : Shared}
    (h : BoundedO2 oxyNum s) (hl₀ : s.locals t = l₀) (hx₀ : s.shared = x₀)
    (hstep : Step oxyNum nitNum t l₀ x₀ l x) : BoundedO2 oxyNum (s.move t l x) := by
  have hoxygen := oxygen_step (s := s) (t := t) (by rw [hl₀, hx₀]; exact hstep)
  obtain ⟨hbudget, hstarts⟩ := hoxygen.budget
  have hnum := h.numO2
  have hread := h.read
  subst hx₀
  cases hstep with
  | o2Test =>
    by_cases hfew : s.shared.numOxygen < 2
    · simp only [hl₀, if_pos hfew, reduceCtorEq, if_false] at hnum hbudget ⊢
      exact ⟨by simp; omega, by simp⟩
    · have hless := hstarts ⟨by simp [oxygen, hl₀], by simp [oxygen, hfew]⟩
      simp only [hl₀, if_neg hfew, reduceCtorEq, if_false] at hnum hless ⊢
      exact ⟨by simp; omega, by simp⟩
  | o2Wait =>
    have hless := hstarts ⟨by simp [oxygen, hl₀], by simp [oxygen]⟩
    simp only [hl₀, reduceCtorEq, if_false] at hnum
    exact ⟨by simp; omega, by simp⟩
  | o2React =>
    simp only [hl₀, if_true] at hnum
    exact ⟨by simp; omega, by simp⟩
  | no2Test | no2TestN2 | o3Test =>
    simp only [hl₀, reduceCtorEq, if_false] at hnum
    constructor
    · simp only [Config.move_locals_self, Config.move_shared]
      rw [if_neg (by split <;> exact Pc.noConfusion)]
      omega
    · simp only [Config.move_locals_self]
      split <;> exact Pc.noConfusion
  | no2Signal | o3Signal =>
    simp only [hl₀, reduceCtorEq, if_false] at hnum
    exact ⟨by simp; omega, by simp⟩
  | no2Read =>
    simp only [hl₀, reduceCtorEq, if_false] at hnum
    exact ⟨by simp; omega, by simp; omega⟩
  | no2Write =>
    have hread := hread (by rw [hl₀])
    simp only [hl₀] at hread
    exact ⟨by simp; omega, by simp⟩
  | o3React => exact h.keep hbudget rfl (by simp only [Config.move_shared]; omega)
  | _ => exact h.keep hbudget rfl (Int.le_refl _)

theorem boundedO2_invariant : (reactions oxyNum nitNum).system.Invariant (BoundedO2 oxyNum) := by
  refine invariant_of_next ⟨?_, nofun⟩ fun _ _ _ _ hs hnext => hs.step rfl rfl (step_of_next hnext)
  simp [oxygen, Kind.budget, toCome, toSignal, unclaimed, reactions, start, Reaction.start, mostO2]

/-! ### Runs are finite -/

/-- Every step takes one of the steps left. -/
theorem stepsLeft_lt {s : State} {t : Reaction} {l₀ l : Local} {x₀ x : Shared}
    (h : BoundedO2 oxyNum s) (hl₀ : s.locals t = l₀) (hx₀ : s.shared = x₀)
    (hstep : Step oxyNum nitNum t l₀ x₀ l x) :
    stepsLeft oxyNum nitNum (s.move t l x) < stepsLeft oxyNum nitNum s := by
  have hstep' : Step oxyNum nitNum t (s.locals t) s.shared l x := by
    rw [hl₀, hx₀]
    exact hstep
  obtain ⟨hoxygen, hcreator, hstarts⟩ :=
    (oxygen_step hstep').stepsLeft (3 * mostO2 oxyNum + 20)
  obtain ⟨hnitrogen, hcreator', hstarts'⟩ := (nitrogen_step hstep').stepsLeft 7
  subst hx₀
  cases hstep with
  | oxygen | oxygenDone | oxygenSignal =>
    have hless := hcreator (by simp [oxygen, hl₀])
    simp [stepsLeft, no2Unclaimed, o3Unclaimed, Config.move_locals_of_ne]
    omega
  | oxygenCount =>
    have hless := hcreator (by simp [oxygen, hl₀]; split <;> exact Pc.noConfusion)
    simp [stepsLeft, no2Unclaimed, o3Unclaimed, Config.move_locals_of_ne]
    omega
  | nitrogen | nitrogenDone | nitrogenSignal =>
    have hless := hcreator' (by simp [nitrogen, hl₀])
    simp [stepsLeft, no2Unclaimed, o3Unclaimed, Config.move_locals_of_ne]
    omega
  | nitrogenCount =>
    have hless := hcreator' (by simp [nitrogen, hl₀]; split <;> exact Pc.noConfusion)
    simp [stepsLeft, no2Unclaimed, o3Unclaimed, Config.move_locals_of_ne]
    omega
  | n2Test =>
    by_cases hfew : s.shared.numNitrogen < 2
    · simp [stepsLeft, no2Unclaimed, o3Unclaimed, Config.move_locals_of_ne, hl₀, n2Steps, hfew] at hoxygen hnitrogen ⊢
      omega
    · have hless := hstarts' ⟨by simp [nitrogen, hl₀], by simp [nitrogen, hfew]⟩
      simp [stepsLeft, no2Unclaimed, o3Unclaimed, Config.move_locals_of_ne, hl₀, n2Steps, hfew] at hoxygen hless ⊢
      omega
  | n2Wait =>
    have hless := hstarts' ⟨by simp [nitrogen, hl₀], by simp [nitrogen]⟩
    simp [stepsLeft, no2Unclaimed, o3Unclaimed, Config.move_locals_of_ne, hl₀, n2Steps]
    omega
  | n2React =>
    have hmade := unclaimed_add_one_le
      ((s.locals .createNo2).pc = .testO2 ∨ (s.locals .createNo2).pc = .react) s.shared.numN2 1
    simp [stepsLeft, no2Unclaimed, o3Unclaimed, Config.move_locals_of_ne, hl₀, n2Steps]
    omega
  | o2Test =>
    by_cases hfew : s.shared.numOxygen < 2
    · simp [stepsLeft, no2Unclaimed, o3Unclaimed, Config.move_locals_of_ne, hl₀, o2Steps, hfew]
        at hoxygen hnitrogen ⊢
      omega
    · have hless := hstarts ⟨by simp [oxygen, hl₀], by simp [oxygen, hfew]⟩
      simp [stepsLeft, no2Unclaimed, o3Unclaimed, Config.move_locals_of_ne, hl₀, o2Steps, hfew]
        at hnitrogen hless ⊢
      omega
  | o2Wait =>
    have hless := hstarts ⟨by simp [oxygen, hl₀], by simp [oxygen]⟩
    simp [stepsLeft, no2Unclaimed, o3Unclaimed, Config.move_locals_of_ne, hl₀, o2Steps]
    omega
  | o2React =>
    have hmade := unclaimed_add_one_le
      ((s.locals .createO3).pc = .react) s.shared.numO2 3
    simp [stepsLeft, no2Unclaimed, o3Unclaimed, Config.move_locals_of_ne, hl₀, o2Steps]
    omega
  | no2Test | no2TestN2 | o3Test =>
    split at hoxygen <;>
      simp [stepsLeft, no2Unclaimed, o3Unclaimed, Config.move_locals_of_ne, o2Steps, *]
        at hoxygen hnitrogen ⊢ <;> omega
  | no2Signal | no2Read | o3Signal =>
    simp [stepsLeft, no2Unclaimed, o3Unclaimed, Config.move_locals_of_ne, hl₀, o2Steps]
    omega
  | @no2Write _ v _ =>
    -- what `create_o3` has used comes back
    have hread := h.read (by rw [hl₀])
    have hback := unclaimed_le ((s.locals .createO3).pc = .react) (show v - 2 ≤ v by omega)
      (k := 3) (by decide)
    simp [hl₀] at hread
    simp [stepsLeft, no2Unclaimed, o3Unclaimed, Config.move_locals_of_ne, hl₀, o2Steps]
    omega
  | takeN2 =>
    by_cases hfew : s.shared.numN2 < 1 <;>
      simp [stepsLeft, no2Unclaimed, o3Unclaimed, Config.move_locals_of_ne, hl₀, no2Steps,
        unclaimed, hfew] at hoxygen hnitrogen ⊢ <;> omega
  | takeO2 =>
    by_cases hfew : s.shared.numO2 < 2 <;>
      simp [stepsLeft, no2Unclaimed, o3Unclaimed, Config.move_locals_of_ne, hl₀, no2Steps,
        unclaimed, hfew] at hoxygen hnitrogen ⊢ <;> omega
  | no2Wait | no2React =>
    simp [stepsLeft, no2Unclaimed, o3Unclaimed, Config.move_locals_of_ne, hl₀, no2Steps, unclaimed]
    omega
  | takeO3 =>
    by_cases hfew : s.shared.numO2 < 3 <;>
      simp [stepsLeft, no2Unclaimed, o3Unclaimed, Config.move_locals_of_ne, hl₀, o3Steps,
        unclaimed, hfew] at hoxygen hnitrogen ⊢ <;> omega
  | o3Wait | o3React =>
    simp [stepsLeft, no2Unclaimed, o3Unclaimed, Config.move_locals_of_ne, hl₀, o3Steps, unclaimed]
    omega

/-! ### The halt -/

namespace Kind

variable {howMany : Int} {k k' : Kind}

/-- What always holds of a kind of atom. -/
structure Sound (howMany : Int) (k : Kind) : Prop where
  created : (k.created : Int) = k.creator.i
  range : (k.creator.pc = .create ∧ (k.creator.i = 0 ∨ k.creator.i ≤ howMany)) ∨
    ((k.creator.pc = .count ∨ k.creator.pc = .signal ∨ k.creator.pc = .exited) ∧
      k.creator.i = max 0 howMany)
  oneSignal : k.sig + toSignal k.creator ≤ 1
  /-- Only the signal lets the reaction use atoms that are not there. -/
  debt : 2 * (k.sig + toSignal k.creator) - 2 ≤ unclaimed k.num 2 (k.reaction.pc = .react)
  /-- The reaction does not sleep over two atoms. -/
  awake : k.reaction.pc = .wait → k.num < 2 ∨ 0 < k.sig ∨ toSignal k.creator = 1

theorem Sound.step (h : k.Sound howMany) (hstep : Step howMany k k') : k'.Sound howMany := by
  obtain ⟨hcreated, hrange, honce, hdebt, hawake⟩ := h
  cases hstep with
  | create hmore =>
    simp [toSignal, unclaimed] at hcreated hrange honce hdebt
    refine ⟨by simp [hcreated], ?_, by simp [toSignal, honce], ?_, by simp [toSignal]⟩
    · simp
      omega
    · simp [toSignal, unclaimed]
      split at hdebt <;> simp [*] <;> omega
  | done hdone =>
    simp [toSignal] at hcreated hrange honce hdebt
    refine ⟨hcreated, ?_, by simp [toSignal, honce], by simpa [toSignal] using hdebt,
      by simp [toSignal]⟩
    simp
    omega
  | @count _ _ _ n _ _ =>
    simp [toSignal] at hcreated hrange honce hdebt
    by_cases hn : 2 ≤ n
    · exact ⟨hcreated, by simp [hn, hrange], by simp [toSignal, hn, honce],
        by simpa [toSignal, hn] using hdebt, by simp [toSignal, hn]⟩
    · refine ⟨hcreated, by simp [hn, hrange], by simp [toSignal, hn, honce], ?_, ?_⟩
      · simp [toSignal, hn]
        omega
      · exact fun _ => Or.inl (Int.not_le.mp hn)
  | signal =>
    simp [toSignal] at hcreated hrange honce hdebt
    exact ⟨hcreated, by simp [hrange], by simp [toSignal, honce],
      by simpa [toSignal, honce] using hdebt, by simp⟩
  | @test _ _ _ n _ _ =>
    refine ⟨hcreated, hrange, honce, ?_, ?_⟩
    · by_cases hn : n < 2
      · simpa [unclaimed, hn] using hdebt
      · simp [unclaimed, hn]
        simp only at honce
        omega
    · by_cases hn : n < 2 <;> simp [hn]
  | wait hpos =>
    refine ⟨hcreated, hrange, ?_, ?_, by simp⟩
    · simp only at honce ⊢
      omega
    · simp [unclaimed] at hdebt ⊢
      simp only at honce
      omega
  | react hwait hreact =>
    refine ⟨hcreated, hrange, honce, ?_, fun h => absurd h hwait⟩
    simpa [unclaimed, hreact] using hdebt
  | other hpc =>
    refine ⟨hcreated, hrange, honce, ?_, ?_⟩
    · rcases hpc with hpc | ⟨hr, hr', -⟩
      · simpa [unclaimed, hpc] using hdebt
      · simpa [unclaimed, hr, hr'] using hdebt
    · rcases hpc with hpc | ⟨-, -, hr'⟩
      · simpa [hpc] using hawake
      · exact fun h => absurd h hr'

end Kind

/-- The places in the code of a thread. -/
def Reaction.places : Reaction → List Pc
  | .createOxygen | .createNitrogen => [.create, .count, .signal, .exited]
  | .createN2 | .createO3 => [.test, .wait, .react]
  | .createO2 => [.test, .wait, .react, .no2Test, .no2TestN2, .no2Signal, .no2Read, .no2Write,
      .o3Test, .o3Signal]
  | .createNo2 => [.test, .testO2, .wait, .react]

theorem Step.places {t : Reaction} {l l' : Local} {x x' : Shared}
    (hstep : Step oxyNum nitNum t l x l' x') : l'.pc ∈ t.places := by
  cases hstep with
  | oxygenCount | nitrogenCount | n2Test | o2Test | no2Test | no2TestN2 | o3Test | takeN2 | takeO2
      | takeO3 => simp only [Reaction.places]; split <;> simp
  | _ => simp [Reaction.places]

/-- `create_o2` is between its molecule and the test whether to signal `create_o3`. -/
def Pc.BeforeO3 (pc : Pc) : Prop :=
  pc = .no2Test ∨ pc = .no2TestN2 ∨ pc = .no2Signal ∨ pc = .no2Read ∨ pc = .no2Write ∨
    pc = .o3Test ∨ pc = .o3Signal

/-- What always holds of the threads. -/
structure Settled (oxyNum nitNum : Int) (s : State) : Prop where
  places : ∀ t, (s.locals t).pc ∈ t.places
  oxygen : (oxygen s).Sound oxyNum
  nitrogen : (nitrogen s).Sound nitNum
  /-- `create_o3` does not sleep over three molecules. -/
  awakeO3 : (s.locals .createO3).pc = .wait →
    s.shared.numO2 < 3 ∨ 0 < s.shared.sigO3 ∨ (s.locals .createO2).pc.BeforeO3

theorem Settled.step {s : State} {t : Reaction} {l₀ l : Local} {x₀ x : Shared}
    (h : Settled oxyNum nitNum s) (hl₀ : s.locals t = l₀) (hx₀ : s.shared = x₀)
    (hstep : Step oxyNum nitNum t l₀ x₀ l x) : Settled oxyNum nitNum (s.move t l x) := by
  have hstep' : Step oxyNum nitNum t (s.locals t) s.shared l x := by
    rw [hl₀, hx₀]
    exact hstep
  refine ⟨Config.forall_move (P := fun (t : Reaction) (l : Local) => l.pc ∈ t.places) h.places hstep.places,
    h.oxygen.step (oxygen_step hstep'), h.nitrogen.step (nitrogen_step hstep'), ?_⟩
  have hawake := h.awakeO3
  subst hx₀
  cases hstep with
  | o2Test | o2Wait =>
    intro hwait
    have hlit := hawake hwait
    simp only [hl₀, Pc.BeforeO3, reduceCtorEq, or_self, or_false] at hlit
    exact hlit.imp_right Or.inl
  | o2React | no2Signal | no2Read | no2Write =>
    exact fun _ => Or.inr (Or.inr (by simp [Pc.BeforeO3]))
  | no2Test | no2TestN2 =>
    refine fun _ => Or.inr (Or.inr ?_)
    simp only [Config.move_locals_self, Pc.BeforeO3]
    split <;> simp
  | o3Test =>
    intro _
    by_cases h3 : 3 ≤ s.shared.numO2
    · exact Or.inr (Or.inr (by simp [Pc.BeforeO3, h3]))
    · exact Or.inl (Int.not_le.mp h3)
  | o3Signal => exact fun _ => Or.inr (Or.inl (Nat.succ_pos _))
  | takeO3 =>
    intro hwait
    simp only [Config.move_locals_self] at hwait
    split at hwait
    · exact Or.inl ‹_›
    · cases hwait
  | o3Wait | o3React => exact nofun
  | _ => exact hawake

theorem settled_invariant :
    (reactions oxyNum nitNum).system.Invariant (Settled oxyNum nitNum) := by
  refine invariant_of_next ⟨?_, ?_, ?_, nofun⟩ fun _ _ _ _ hs hnext =>
    hs.step rfl rfl (step_of_next hnext)
  · exact fun t => by cases t <;> simp [reactions, Reaction.start, Reaction.places]
  · constructor <;> simp [oxygen, reactions, start, Reaction.start, toSignal, unclaimed]
  · constructor <;> simp [nitrogen, reactions, start, Reaction.start, toSignal, unclaimed]

/-- The signal a reaction waits for. -/
def Reaction.signal : Reaction → Shared → Nat
  | .createN2 => Shared.sigN2
  | .createO2 => Shared.sigO2
  | .createNo2 => Shared.sigNo2
  | .createO3 => Shared.sigO3
  | .createOxygen | .createNitrogen => fun _ => 0

theorem semWait_eq_none {sem : Nat} : semWait sem = none ↔ sem = 0 := by
  simp [semWait]

/-- A thread that cannot step has exited, or its signal is not there. -/
theorem blocked_cases {s : State} {t : Reaction} (hplace : (s.locals t).pc ∈ t.places)
    (hblocked : ¬(reactions oxyNum nitNum).Enabled t s) :
    (s.locals t).pc = .exited ∨ ((s.locals t).pc = .wait ∧ t.signal s.shared = 0) := by
  generalize hl : s.locals t = l at hplace
  obtain ⟨pc, i, v⟩ := l
  simp only [Enabled, hl] at hblocked
  cases t with
  | createOxygen | createNitrogen =>
    simp only [Reaction.places, List.mem_cons, List.not_mem_nil, or_false] at hplace
    rcases hplace with rfl | rfl | rfl | rfl <;>
      simp [reactions, createOxygen, createNitrogen, createAtoms] at hblocked ⊢
  | createN2 | createO3 =>
    simp only [Reaction.places, List.mem_cons, List.not_mem_nil, or_false] at hplace
    rcases hplace with rfl | rfl | rfl <;>
      simp [reactions, createN2, createO3, semWait_eq_none] at hblocked
    exact Or.inr ⟨rfl, hblocked⟩
  | createO2 =>
    simp only [Reaction.places, List.mem_cons, List.not_mem_nil, or_false] at hplace
    rcases hplace with rfl | rfl | rfl | rfl | rfl | rfl | rfl | rfl | rfl | rfl <;>
      simp [reactions, createO2, semWait_eq_none] at hblocked
    exact Or.inr ⟨rfl, hblocked⟩
  | createNo2 =>
    simp only [Reaction.places, List.mem_cons, List.not_mem_nil, or_false] at hplace
    rcases hplace with rfl | rfl | rfl | rfl <;>
      simp [reactions, createNo2, semWait_eq_none] at hblocked
    exact Or.inr ⟨rfl, hblocked⟩

/-- How every run ends: the threads that create atoms have exited, and the
reactions wait for signals that are not sent. -/
structure Asleep (s : State) : Prop where
  createOxygen : (s.locals .createOxygen).pc = .exited
  createNitrogen : (s.locals .createNitrogen).pc = .exited
  createN2 : (s.locals .createN2).pc = .wait ∧ s.shared.sigN2 = 0
  createO2 : (s.locals .createO2).pc = .wait ∧ s.shared.sigO2 = 0
  createNo2 : (s.locals .createNo2).pc = .wait ∧ s.shared.sigNo2 = 0
  createO3 : (s.locals .createO3).pc = .wait ∧ s.shared.sigO3 = 0

theorem asleep_of_halted {s : State} (h : Settled oxyNum nitNum s)
    (hhalted : (reactions oxyNum nitNum).Halted s) : Asleep s := by
  have hexits (t : Reaction) (ht : Pc.wait ∉ t.places) : (s.locals t).pc = .exited :=
    (blocked_cases (h.places t) (hhalted t)).resolve_right fun hwait => ht (hwait.1 ▸ h.places t)
  have hwaits (t : Reaction) (ht : Pc.exited ∉ t.places) :
      (s.locals t).pc = .wait ∧ t.signal s.shared = 0 :=
    (blocked_cases (h.places t) (hhalted t)).resolve_left fun hexit => ht (hexit ▸ h.places t)
  exact ⟨hexits .createOxygen (by decide), hexits .createNitrogen (by decide),
    hwaits .createN2 (by decide), hwaits .createO2 (by decide), hwaits .createNo2 (by decide),
    hwaits .createO3 (by decide)⟩

theorem halted_of_asleep {s : State} (h : Asleep s) : (reactions oxyNum nitNum).Halted s := by
  obtain ⟨hoxygen, hnitrogen, hn2, ho2, hno2, ho3⟩ := h
  intro t
  cases t with
  | createOxygen => simp [Enabled, reactions, createOxygen, createAtoms, hoxygen]
  | createNitrogen => simp [Enabled, reactions, createNitrogen, createAtoms, hnitrogen]
  | createN2 => simp [Enabled, reactions, createN2, hn2, semWait_eq_none]
  | createO2 => simp [Enabled, reactions, createO2, ho2, semWait_eq_none]
  | createNo2 => simp [Enabled, reactions, createNo2, hno2, semWait_eq_none]
  | createO3 => simp [Enabled, reactions, createO3, ho3, semWait_eq_none]

/-- The steps of the longest run, or more. -/
def mostSteps (oxyNum nitNum : Int) : Nat :=
  (3 * oxyNum.toNat + 23) * (oxyNum.toNat + 1) + oxyNum.toNat + 8 * nitNum.toNat + 22

theorem stepsLeft_start (oxyNum nitNum : Int) :
    stepsLeft oxyNum nitNum ⟨Reaction.start, start⟩ = mostSteps oxyNum nitNum := by
  simp [stepsLeft, Kind.stepsLeft, Kind.budget, oxygen, nitrogen, toCome, toSignal, unclaimed,
    no2Unclaimed, o3Unclaimed, start, Reaction.start, creatorSteps, o2Steps, n2Steps, no2Steps,
    o3Steps, mostO2, mostSteps]
  rw [show 3 * (oxyNum.toNat + 1) + 20 = 3 * oxyNum.toNat + 23 by omega]
  omega

/-- **Every run of the reactions ends**, whatever the schedule, within a number of
steps that depends on the numbers of atoms only. At its end, four of the threads
that `main` joins wait for a signal that nobody sends. -/
theorem reactions_end {schedule : List Reaction} {s : State}
    (hrun : (reactions oxyNum nitNum).run schedule ⟨Reaction.start, start⟩ = some s) :
    schedule.length ≤ mostSteps oxyNum nitNum ∧
      ((reactions oxyNum nitNum).Halted s → Asleep s) ∧
      ∃ rest s', (reactions oxyNum nitNum).run rest s = some s' ∧
        (reactions oxyNum nitNum).Halted s' := by
  have hs := reachable_run (T := reactions oxyNum nitNum) (.start rfl) hrun
  have hinv : (reactions oxyNum nitNum).system.Invariant (BoundedO2 oxyNum) := boundedO2_invariant
  have hlower : ∀ (s : State) (t : Reaction) (l : Local) (x : Shared), BoundedO2 oxyNum s →
      (reactions oxyNum nitNum).next t (s.locals t) s.shared = some (l, x) →
      stepsLeft oxyNum nitNum (s.move t l x) < stepsLeft oxyNum nitNum s :=
    fun s t l x hs hnext => stepsLeft_lt hs rfl rfl (step_of_next hnext)
  refine ⟨?_, asleep_of_halted (settled_invariant.holds hs), ?_⟩
  · have hle := length_run_le hinv hlower (hinv.init ⟨Reaction.start, start⟩ rfl) hrun
    have hstart := stepsLeft_start oxyNum nitNum
    omega
  · exact exists_halted hinv hlower (hinv.holds hs)

/-- What is left when the reactions have come to a halt. -/
structure Leftover (oxyNum nitNum : Int) (s : State) : Prop where
  oxygen : -2 ≤ s.shared.numOxygen ∧ s.shared.numOxygen < 2
  nitrogen : -2 ≤ s.shared.numNitrogen ∧ s.shared.numNitrogen < 2
  numO2 : s.shared.numO2 < 3
  created : s.shared.oxygenCreated = oxyNum.toNat ∧ s.shared.nitrogenCreated = nitNum.toNat
  /-- The molecules of N2 are those of the atoms, or one more. -/
  madeN2 : s.shared.numN2 + s.shared.no2Announced = nitNum.toNat / 2 ∨
    s.shared.numN2 + s.shared.no2Announced = nitNum.toNat / 2 + 1

/-- What a kind of atom is left with, when its threads have come to a halt. -/
theorem Kind.Sound.left {howMany : Int} {k : Kind} (h : k.Sound howMany)
    (hcreator : k.creator.pc = .exited) (hreaction : k.reaction.pc = .wait) (hsig : k.sig = 0) :
    -2 ≤ k.num ∧ k.num < 2 ∧ k.created = howMany.toNat := by
  have hdebt := h.debt
  have hawake := h.awake hreaction
  have hrange := h.range
  have hcreated := h.created
  simp [toSignal, unclaimed, hcreator, hreaction, hsig] at hdebt hawake hrange
  omega

/-- **No atoms are left to react** when the reactions have come to a halt, and at
most one molecule of N2 was made of atoms that were not there. -/
theorem leftover {s : State} (hs : (reactions oxyNum nitNum).system.Reachable s)
    (hhalted : (reactions oxyNum nitNum).Halted s) : Leftover oxyNum nitNum s := by
  have hsettled := settled_invariant.holds hs
  have hasleep := asleep_of_halted hsettled hhalted
  have hoxygen := hsettled.oxygen.left hasleep.createOxygen hasleep.createO2.1 hasleep.createO2.2
  have hnitrogen :=
    hsettled.nitrogen.left hasleep.createNitrogen hasleep.createN2.1 hasleep.createN2.2
  have hbalance : NitrogenBalanced s.shared := nitrogen_invariant.holds hs
  simp only [Reactions.oxygen, Reactions.nitrogen] at hoxygen hnitrogen
  unfold NitrogenBalanced at hbalance
  refine ⟨⟨hoxygen.1, hoxygen.2.1⟩, ⟨hnitrogen.1, hnitrogen.2.1⟩, ?_, ⟨hoxygen.2.2, hnitrogen.2.2⟩,
    by omega⟩
  have hawake := hsettled.awakeO3 hasleep.createO3.1
  simpa [hasleep.createO3.2, hasleep.createO2.1, Pc.BeforeO3] using hawake

/-- A run of two atoms of nitrogen and none of oxygen, up to its halt. -/
theorem asleep_n2 :
    ∃ schedule s, (reactions 0 2).run schedule ⟨Reaction.start, start⟩ = some s ∧ Asleep s := by
  let schedule : List Reaction := .replicate 2 .createOxygen ++ .replicate 5 .createNitrogen ++
    .replicate 6 .createN2 ++ [.createO2, .createNo2, .createNo2, .createO3]
  have hlast : ((reactions 0 2).run schedule ⟨Reaction.start, start⟩).map (fun s =>
      ([Reaction.createOxygen, .createNitrogen, .createN2, .createO2, .createNo2, .createO3].map
          fun t => (s.locals t).pc,
        [s.shared.sigN2, s.shared.sigO2, s.shared.sigNo2, s.shared.sigO3])) =
      some ([.exited, .exited, .wait, .wait, .wait, .wait], [0, 0, 0, 0]) := by decide
  obtain ⟨s, hs, hvalues⟩ := Option.map_eq_some_iff.mp hlast
  simp only [List.map_cons, List.map_nil, Prod.mk.injEq, List.cons.injEq, and_true] at hvalues
  obtain ⟨⟨h₁, h₂, h₃, h₄, h₅, h₆⟩, hn2, ho2, hno2, ho3⟩ := hvalues
  exact ⟨schedule, s, hs, h₁, h₂, ⟨h₃, hn2⟩, ⟨h₄, ho2⟩, ⟨h₅, hno2⟩, ⟨h₆, ho3⟩⟩

/-- Two atoms of nitrogen and none of oxygen. -/
theorem reactions_end_n2 :
    ∃ schedule s, (reactions 0 2).run schedule ⟨Reaction.start, start⟩ = some s ∧
      schedule.length ≤ mostSteps 0 2 ∧ Asleep s := by
  obtain ⟨schedule, s, hrun, hasleep⟩ := asleep_n2
  have hend := reactions_end hrun
  exact ⟨schedule, s, hrun, hend.1, hend.2.1 (halted_of_asleep hasleep)⟩

/-- Two atoms of nitrogen and none of oxygen leave two molecules of N2. -/
theorem leftover_n2 :
    ∃ s, (reactions 0 2).system.Reachable s ∧ Leftover 0 2 s := by
  obtain ⟨_, s, hrun, hasleep⟩ := asleep_n2
  have hs := reachable_run (T := reactions 0 2) (.start rfl) hrun
  exact ⟨s, hs, leftover hs (halted_of_asleep hasleep)⟩

end Cs252.Reactions
