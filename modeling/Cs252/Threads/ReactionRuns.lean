import Cs252.Threads.Reactions

/-!
# Cs252.Threads.ReactionRuns

What the reactions do to the atoms, under every interleaving.

A reaction looks at its counters, or waits for a signal, and subtracts later.
Once two atoms of a kind are requested, the signal sent after the last atom is
still there when the reaction has used up the atoms it saw, and the reaction
goes on without atoms. Oxygen is also miscounted, as the two molecules of O2
that a reaction to NO2 uses are subtracted by `create_o2`, if at all.

With fewer than two atoms of a kind, the threads that depend on it never get
past their first test. `Scarce` is that invariant, for either kind.
-/

namespace Cs252.Reactions

open BoundedBuffer (semWait semWait_eq_some)
open Threads

variable {oxyNum nitNum : Int}

/-! ### The steps -/

/-- The steps of the threads. -/
inductive Step (oxyNum nitNum : Int) : Reaction → Local → Shared → Local → Shared → Prop
  | oxygen {i v s} : i < oxyNum → Step oxyNum nitNum .createOxygen ⟨.create, i, v⟩ s
      ⟨.create, i + 1, v⟩
      { s with numOxygen := s.numOxygen + 1, oxygenCreated := s.oxygenCreated + 1 }
  | oxygenDone {i v s} : oxyNum ≤ i →
      Step oxyNum nitNum .createOxygen ⟨.create, i, v⟩ s ⟨.count, i, v⟩ s
  | oxygenCount {i v s} : Step oxyNum nitNum .createOxygen ⟨.count, i, v⟩ s
      ⟨if 2 ≤ s.numOxygen then .signal else .exited, i, v⟩ s
  | oxygenSignal {i v s} : Step oxyNum nitNum .createOxygen ⟨.signal, i, v⟩ s ⟨.exited, i, v⟩
      { s with sigO2 := s.sigO2 + 1 }
  | nitrogen {i v s} : i < nitNum → Step oxyNum nitNum .createNitrogen ⟨.create, i, v⟩ s
      ⟨.create, i + 1, v⟩
      { s with numNitrogen := s.numNitrogen + 1, nitrogenCreated := s.nitrogenCreated + 1 }
  | nitrogenDone {i v s} : nitNum ≤ i →
      Step oxyNum nitNum .createNitrogen ⟨.create, i, v⟩ s ⟨.count, i, v⟩ s
  | nitrogenCount {i v s} : Step oxyNum nitNum .createNitrogen ⟨.count, i, v⟩ s
      ⟨if 2 ≤ s.numNitrogen then .signal else .exited, i, v⟩ s
  | nitrogenSignal {i v s} : Step oxyNum nitNum .createNitrogen ⟨.signal, i, v⟩ s ⟨.exited, i, v⟩
      { s with sigN2 := s.sigN2 + 1 }
  | n2Test {i v s} : Step oxyNum nitNum .createN2 ⟨.test, i, v⟩ s
      ⟨if s.numNitrogen < 2 then .wait else .react, i, v⟩ s
  | n2Wait {i v s} : 0 < s.sigN2 → Step oxyNum nitNum .createN2 ⟨.wait, i, v⟩ s ⟨.react, i, v⟩
      { s with sigN2 := s.sigN2 - 1 }
  | n2React {i v s} : Step oxyNum nitNum .createN2 ⟨.react, i, v⟩ s ⟨.test, i, v⟩
      { s with numNitrogen := s.numNitrogen - 2, numN2 := s.numN2 + 1 }
  | o2Test {i v s} : Step oxyNum nitNum .createO2 ⟨.test, i, v⟩ s
      ⟨if s.numOxygen < 2 then .wait else .react, i, v⟩ s
  | o2Wait {i v s} : 0 < s.sigO2 → Step oxyNum nitNum .createO2 ⟨.wait, i, v⟩ s ⟨.react, i, v⟩
      { s with sigO2 := s.sigO2 - 1 }
  | o2React {i v s} : Step oxyNum nitNum .createO2 ⟨.react, i, v⟩ s ⟨.no2Test, i, v⟩
      { s with numOxygen := s.numOxygen - 2, numO2 := s.numO2 + 1 }
  | no2Test {i v s} : Step oxyNum nitNum .createO2 ⟨.no2Test, i, v⟩ s
      ⟨if 2 ≤ s.numO2 then .no2TestN2 else .o3Test, i, v⟩ s
  | no2TestN2 {i v s} : Step oxyNum nitNum .createO2 ⟨.no2TestN2, i, v⟩ s
      ⟨if 1 ≤ s.numN2 then .no2Signal else .o3Test, i, v⟩ s
  | no2Signal {i v s} : Step oxyNum nitNum .createO2 ⟨.no2Signal, i, v⟩ s ⟨.no2Read, i, v⟩
      { s with sigNo2 := s.sigNo2 + 1 }
  | no2Read {i v s} : Step oxyNum nitNum .createO2 ⟨.no2Read, i, v⟩ s ⟨.no2Write, i, s.numO2⟩ s
  | no2Write {i v s} : Step oxyNum nitNum .createO2 ⟨.no2Write, i, v⟩ s ⟨.o3Test, i, v⟩
      { s with numO2 := v - 2 }
  | o3Test {i v s} : Step oxyNum nitNum .createO2 ⟨.o3Test, i, v⟩ s
      ⟨if 3 ≤ s.numO2 then .o3Signal else .test, i, v⟩ s
  | o3Signal {i v s} : Step oxyNum nitNum .createO2 ⟨.o3Signal, i, v⟩ s ⟨.test, i, v⟩
      { s with sigO3 := s.sigO3 + 1 }
  | takeN2 {i v s} : Step oxyNum nitNum .createNo2 ⟨.test, i, v⟩ s
      ⟨if s.numN2 < 1 then .wait else .testO2, i, v⟩ s
  | takeO2 {i v s} : Step oxyNum nitNum .createNo2 ⟨.testO2, i, v⟩ s
      ⟨if s.numO2 < 2 then .wait else .react, i, v⟩ s
  | no2Wait {i v s} : 0 < s.sigNo2 → Step oxyNum nitNum .createNo2 ⟨.wait, i, v⟩ s ⟨.react, i, v⟩
      { s with sigNo2 := s.sigNo2 - 1 }
  | no2React {i v s} : Step oxyNum nitNum .createNo2 ⟨.react, i, v⟩ s ⟨.test, i, v⟩
      { s with numN2 := s.numN2 - 1, no2Announced := s.no2Announced + 1 }
  | takeO3 {i v s} : Step oxyNum nitNum .createO3 ⟨.test, i, v⟩ s
      ⟨if s.numO2 < 3 then .wait else .react, i, v⟩ s
  | o3Wait {i v s} : 0 < s.sigO3 → Step oxyNum nitNum .createO3 ⟨.wait, i, v⟩ s ⟨.react, i, v⟩
      { s with sigO3 := s.sigO3 - 1 }
  | o3React {i v s} : Step oxyNum nitNum .createO3 ⟨.react, i, v⟩ s ⟨.test, i, v⟩
      { s with numO2 := s.numO2 - 3, o3Announced := s.o3Announced + 1 }

/-- A wait that succeeds takes a signal. -/
theorem wait_cases {sem : Nat} {f : Nat → Local × Shared} {l' : Local} {s' : Shared}
    (h : (semWait sem).map f = some (l', s')) : 0 < sem ∧ f (sem - 1) = (l', s') := by
  obtain ⟨n, hn, heq⟩ := Option.map_eq_some_iff.mp h
  obtain ⟨hpos, rfl⟩ := semWait_eq_some.mp hn
  exact ⟨hpos, heq⟩

/-- What the code of the threads does in one step. -/
theorem step_of_next {t : Reaction} {l l' : Local} {s s' : Shared}
    (h : (reactions oxyNum nitNum).next t l s = some (l', s')) :
    Step oxyNum nitNum t l s l' s' := by
  obtain ⟨pc, i, v⟩ := l
  cases t with
  | createOxygen =>
    cases pc with
    | create =>
      replace h := Option.some.inj h
      split at h <;> cases h
      · exact .oxygen ‹_›
      · exact .oxygenDone (Int.not_lt.mp ‹_›)
    | count => cases h; exact .oxygenCount
    | signal => cases h; exact .oxygenSignal
    | _ => cases h
  | createNitrogen =>
    cases pc with
    | create =>
      replace h := Option.some.inj h
      split at h <;> cases h
      · exact .nitrogen ‹_›
      · exact .nitrogenDone (Int.not_lt.mp ‹_›)
    | count => cases h; exact .nitrogenCount
    | signal => cases h; exact .nitrogenSignal
    | _ => cases h
  | createN2 =>
    cases pc with
    | test => cases h; exact .n2Test
    | wait =>
      obtain ⟨hpos, heq⟩ := wait_cases h
      cases heq
      exact .n2Wait hpos
    | react => cases h; exact .n2React
    | _ => cases h
  | createO2 =>
    cases pc with
    | test => cases h; exact .o2Test
    | wait =>
      obtain ⟨hpos, heq⟩ := wait_cases h
      cases heq
      exact .o2Wait hpos
    | react => cases h; exact .o2React
    | no2Test => cases h; exact .no2Test
    | no2TestN2 => cases h; exact .no2TestN2
    | no2Signal => cases h; exact .no2Signal
    | no2Read => cases h; exact .no2Read
    | no2Write => cases h; exact .no2Write
    | o3Test => cases h; exact .o3Test
    | o3Signal => cases h; exact .o3Signal
    | _ => cases h
  | createNo2 =>
    cases pc with
    | test => cases h; exact .takeN2
    | testO2 => cases h; exact .takeO2
    | wait =>
      obtain ⟨hpos, heq⟩ := wait_cases h
      cases heq
      exact .no2Wait hpos
    | react => cases h; exact .no2React
    | _ => cases h
  | createO3 =>
    cases pc with
    | test => cases h; exact .takeO3
    | wait =>
      obtain ⟨hpos, heq⟩ := wait_cases h
      cases heq
      exact .o3Wait hpos
    | react => cases h; exact .o3React
    | _ => cases h

/-! ### Nitrogen is conserved -/

/-- The nitrogen atoms created are there as atoms, or as N2, or went into NO2. -/
def NitrogenBalanced (s : Shared) : Prop :=
  (s.nitrogenCreated : Int) = s.numNitrogen + 2 * s.numN2 + 2 * s.no2Announced

theorem NitrogenBalanced.step {t : Reaction} {l l' : Local} {s s' : Shared}
    (h : NitrogenBalanced s) (hstep : Step oxyNum nitNum t l s l' s') : NitrogenBalanced s' := by
  unfold NitrogenBalanced at h ⊢
  cases hstep with
  | nitrogen | n2React | no2React => simp only; omega
  | _ => exact h

theorem nitrogen_invariant :
    (reactions oxyNum nitNum).system.Invariant fun s => NitrogenBalanced s.shared :=
  invariant_of_next rfl fun _ _ _ _ hs hnext => hs.step (step_of_next hnext)

/-! ### Too few atoms to react -/

/-- The thread is before the test of its first reaction, or waits for a signal. -/
def Pc.Waits (pc : Pc) : Prop := pc = .test ∨ pc = .wait

/-- With fewer than two oxygen atoms, no molecule is made of oxygen. -/
structure ScarceOxygen (s : State) : Prop where
  atoms : s.shared.numOxygen = (s.locals .createOxygen).i
  created : (s.shared.oxygenCreated : Int) = (s.locals .createOxygen).i
  nonneg : 0 ≤ (s.locals .createOxygen).i
  few : (s.locals .createOxygen).i < 2
  silent : (s.locals .createOxygen).pc ≠ .signal
  numO2 : s.shared.numO2 = 0
  sigO2 : s.shared.sigO2 = 0
  sigNo2 : s.shared.sigNo2 = 0
  sigO3 : s.shared.sigO3 = 0
  no2Announced : s.shared.no2Announced = 0
  o3Announced : s.shared.o3Announced = 0
  createO2 : (s.locals .createO2).pc.Waits
  createNo2 : (s.locals .createNo2).pc.Waits ∨ (s.locals .createNo2).pc = .testO2
  createO3 : (s.locals .createO3).pc.Waits

theorem ScarceOxygen.step {s : State} {t : Reaction} {l₀ l : Local} {x₀ x : Shared}
    (h : ScarceOxygen s) (hfew : oxyNum < 2) (hl₀ : s.locals t = l₀) (hx₀ : s.shared = x₀)
    (hstep : Step oxyNum nitNum t l₀ x₀ l x) : ScarceOxygen (s.move t l x) := by
  subst hx₀
  have hatoms := h.atoms
  have hcreated := h.created
  have hnonneg := h.nonneg
  have hlt := h.few
  have hnone := h.numO2
  cases hstep with
  | oxygen hmore =>
    rw [hl₀] at hatoms hcreated hnonneg
    exact { h with
      atoms := congrArg (· + 1) hatoms
      created := congrArg (· + 1) hcreated
      nonneg := Int.add_nonneg hnonneg Int.one_nonneg
      few := Int.lt_of_le_of_lt hmore hfew
      silent := Pc.noConfusion }
  | oxygenDone =>
    rw [hl₀] at hatoms hcreated hnonneg hlt
    exact { h with
      atoms := hatoms, created := hcreated, nonneg := hnonneg, few := hlt
      silent := Pc.noConfusion }
  | oxygenCount =>
    rw [hl₀] at hatoms hcreated hnonneg hlt
    have htest : ¬2 ≤ s.shared.numOxygen := by omega
    rw [if_neg htest]
    exact { h with
      atoms := hatoms, created := hcreated, nonneg := hnonneg, few := hlt
      silent := Pc.noConfusion }
  | oxygenSignal => exact absurd (by rw [hl₀]) h.silent
  | nitrogen | nitrogenDone | nitrogenCount | nitrogenSignal | n2Test | n2Wait | n2React =>
    exact { h with atoms := hatoms }
  | o2Test =>
    -- the test fails
    have htest : s.shared.numOxygen < 2 := by omega
    rw [if_pos htest]
    exact { h with createO2 := Or.inr rfl }
  | o2Wait hpos => exact absurd h.sigO2 (Nat.ne_of_gt hpos)
  | o2React | no2Test | no2TestN2 | no2Signal | no2Read | no2Write | o3Test | o3Signal =>
    exact absurd h.createO2 (by simp [hl₀, Pc.Waits])
  | takeN2 =>
    refine { h with createNo2 := ?_ }
    split
    · exact Or.inl (Or.inr rfl)
    · exact Or.inr rfl
  | takeO2 =>
    have htest : s.shared.numO2 < 2 := by omega
    rw [if_pos htest]
    exact { h with createNo2 := Or.inl (Or.inr rfl) }
  | no2Wait hpos => exact absurd h.sigNo2 (Nat.ne_of_gt hpos)
  | no2React => exact absurd h.createNo2 (by simp [hl₀, Pc.Waits])
  | takeO3 =>
    have htest : s.shared.numO2 < 3 := by omega
    rw [if_pos htest]
    exact { h with createO3 := Or.inr rfl }
  | o3Wait hpos => exact absurd h.sigO3 (Nat.ne_of_gt hpos)
  | o3React => exact absurd h.createO3 (by simp [hl₀, Pc.Waits])

theorem scarceOxygen_invariant (hfew : oxyNum < 2) :
    (reactions oxyNum nitNum).system.Invariant ScarceOxygen := by
  refine invariant_of_next ?_ fun _ _ _ _ hs hnext => hs.step hfew rfl rfl (step_of_next hnext)
  constructor <;> simp [reactions, start, Reaction.start, Pc.Waits]

/-- With fewer than two nitrogen atoms, no molecule is made of nitrogen, and
`create_o2` does not signal `create_no2`. -/
structure ScarceNitrogen (s : State) : Prop where
  atoms : s.shared.numNitrogen = (s.locals .createNitrogen).i
  nonneg : 0 ≤ (s.locals .createNitrogen).i
  few : (s.locals .createNitrogen).i < 2
  silent : (s.locals .createNitrogen).pc ≠ .signal
  numN2 : s.shared.numN2 = 0
  sigN2 : s.shared.sigN2 = 0
  sigNo2 : s.shared.sigNo2 = 0
  no2Announced : s.shared.no2Announced = 0
  createN2 : (s.locals .createN2).pc.Waits
  createNo2 : (s.locals .createNo2).pc.Waits
  noSignal : (s.locals .createO2).pc ≠ .no2Signal
  noRead : (s.locals .createO2).pc ≠ .no2Read
  noWrite : (s.locals .createO2).pc ≠ .no2Write
  oxygen : (s.shared.oxygenCreated : Int)
    = s.shared.numOxygen + 2 * s.shared.numO2 + 6 * s.shared.o3Announced

theorem ScarceNitrogen.step {s : State} {t : Reaction} {l₀ l : Local} {x₀ x : Shared}
    (h : ScarceNitrogen s) (hfew : nitNum < 2) (hl₀ : s.locals t = l₀) (hx₀ : s.shared = x₀)
    (hstep : Step oxyNum nitNum t l₀ x₀ l x) : ScarceNitrogen (s.move t l x) := by
  subst hx₀
  have hatoms := h.atoms
  have hnonneg := h.nonneg
  have hlt := h.few
  have hnone := h.numN2
  have hoxygen := h.oxygen
  cases hstep with
  | nitrogen hmore =>
    rw [hl₀] at hatoms hnonneg
    exact { h with
      atoms := congrArg (· + 1) hatoms
      nonneg := Int.add_nonneg hnonneg Int.one_nonneg
      few := Int.lt_of_le_of_lt hmore hfew
      silent := Pc.noConfusion }
  | nitrogenDone =>
    rw [hl₀] at hatoms hnonneg hlt
    exact { h with atoms := hatoms, nonneg := hnonneg, few := hlt, silent := Pc.noConfusion }
  | nitrogenCount =>
    rw [hl₀] at hatoms hnonneg hlt
    have htest : ¬2 ≤ s.shared.numNitrogen := by omega
    rw [if_neg htest]
    exact { h with atoms := hatoms, nonneg := hnonneg, few := hlt, silent := Pc.noConfusion }
  | nitrogenSignal => exact absurd (by rw [hl₀]) h.silent
  | n2Test =>
    -- the test fails
    have htest : s.shared.numNitrogen < 2 := by omega
    rw [if_pos htest]
    exact { h with createN2 := Or.inr rfl }
  | n2Wait hpos => exact absurd h.sigN2 (Nat.ne_of_gt hpos)
  | n2React => exact absurd h.createN2 (by simp [hl₀, Pc.Waits])
  | o2Test | no2Test | o3Test =>
    refine { h with noSignal := ?_, noRead := ?_, noWrite := ?_ } <;>
      split <;> exact Pc.noConfusion
  | o2Wait | o3Signal =>
    exact { h with
      noSignal := Pc.noConfusion, noRead := Pc.noConfusion, noWrite := Pc.noConfusion }
  | o2React =>
    exact { h with
      noSignal := Pc.noConfusion, noRead := Pc.noConfusion, noWrite := Pc.noConfusion
      oxygen := by simp only [Config.move_shared]; omega }
  | no2TestN2 =>
    have htest : ¬1 ≤ s.shared.numN2 := by omega
    rw [if_neg htest]
    exact { h with
      noSignal := Pc.noConfusion, noRead := Pc.noConfusion, noWrite := Pc.noConfusion }
  | no2Signal => exact absurd (by rw [hl₀]) h.noSignal
  | no2Read => exact absurd (by rw [hl₀]) h.noRead
  | no2Write => exact absurd (by rw [hl₀]) h.noWrite
  | takeN2 =>
    have htest : s.shared.numN2 < 1 := by omega
    rw [if_pos htest]
    exact { h with createNo2 := Or.inr rfl }
  | no2Wait hpos => exact absurd h.sigNo2 (Nat.ne_of_gt hpos)
  | takeO2 | no2React => exact absurd h.createNo2 (by simp [hl₀, Pc.Waits])
  | oxygenDone | oxygenCount | oxygenSignal | takeO3 | o3Wait => exact { h with atoms := hatoms }
  | oxygen | o3React => exact { h with oxygen := by simp only [Config.move_shared]; omega }

theorem scarceNitrogen_invariant (hfew : nitNum < 2) :
    (reactions oxyNum nitNum).system.Invariant ScarceNitrogen := by
  refine invariant_of_next ?_ fun _ _ _ _ hs hnext => hs.step hfew rfl rfl (step_of_next hnext)
  constructor <;> simp [reactions, start, Reaction.start, Pc.Waits]

/-! ### Threads that run alone -/

variable (oxyNum nitNum)

section Alone

variable {i v : Int} {x : Shared}

/-- All of `create_oxygen` or `create_nitrogen`, when it ends with a signal:
`f n` is the shared state after `n` atoms. -/
theorem alone_createAtoms {T : Threads Reaction Local Shared} {t : Reaction} {howMany : Int}
    {add post : Shared → Shared} {num : Shared → Int} {f : Nat → Shared}
    (hT : T.next t = createAtoms howMany add num post) (hadd : ∀ n, add (f n) = f (n + 1))
    (hnum : 0 ≤ howMany) (hx : 2 ≤ num (f howMany.toNat)) :
    T.Alone t ⟨.create, 0, v⟩ (f 0) ⟨.exited, howMany, v⟩ (post (f howMany.toNat)) := by
  have hatoms : ∀ k : Nat, (k : Int) ≤ howMany →
      T.Alone t ⟨.create, 0, v⟩ (f 0) ⟨.create, k, v⟩ (f k) := by
    intro k hk
    induction k with
    | zero => exact .refl
    | succ k ih =>
      have hlt : (k : Int) < howMany := by omega
      refine (ih (by omega)).trans (.step (m := ⟨.create, k + 1, v⟩) ?_ .refl)
      rw [hT, ← hadd]
      exact congrArg some (if_pos hlt)
  have hall := hatoms howMany.toNat (by omega)
  rw [Int.toNat_of_nonneg hnum] at hall
  refine hall.trans (.step (m := ⟨.count, howMany, v⟩) (y := f howMany.toNat) ?_
    (.step (m := ⟨.signal, howMany, v⟩) (y := f howMany.toNat) ?_ (.step ?_ .refl)))
  · rw [hT]
    exact congrArg some (if_neg (Int.lt_irrefl howMany))
  · rw [hT, createAtoms, if_pos hx]
  · rw [hT]
    rfl

theorem alone_createOxygen (hnum : 0 ≤ oxyNum) (hx : 2 ≤ x.numOxygen + oxyNum) :
    (reactions oxyNum nitNum).Alone .createOxygen ⟨.create, 0, v⟩ x ⟨.exited, oxyNum, v⟩
      { x with
        numOxygen := x.numOxygen + oxyNum
        oxygenCreated := x.oxygenCreated + oxyNum.toNat
        sigO2 := x.sigO2 + 1 } := by
  have hall := alone_createAtoms (T := reactions oxyNum nitNum) (t := .createOxygen) (v := v)
    (f := fun n : Nat => { x with
      numOxygen := x.numOxygen + n, oxygenCreated := x.oxygenCreated + n })
    rfl (fun n => by simp [Int.add_assoc, Nat.add_assoc]) hnum
  simp only [Int.toNat_of_nonneg hnum, Int.natCast_zero, Int.add_zero, Nat.add_zero] at hall
  exact hall hx

theorem alone_createNitrogen (hnum : 0 ≤ nitNum) (hx : 2 ≤ x.numNitrogen + nitNum) :
    (reactions oxyNum nitNum).Alone .createNitrogen ⟨.create, 0, v⟩ x ⟨.exited, nitNum, v⟩
      { x with
        numNitrogen := x.numNitrogen + nitNum
        nitrogenCreated := x.nitrogenCreated + nitNum.toNat
        sigN2 := x.sigN2 + 1 } := by
  have hall := alone_createAtoms (T := reactions oxyNum nitNum) (t := .createNitrogen) (v := v)
    (f := fun n : Nat => { x with
      numNitrogen := x.numNitrogen + n, nitrogenCreated := x.nitrogenCreated + n })
    rfl (fun n => by simp [Int.add_assoc, Nat.add_assoc]) hnum
  simp only [Int.toNat_of_nonneg hnum, Int.natCast_zero, Int.add_zero, Nat.add_zero] at hall
  exact hall hx

/-- One round of `create_n2`, when it sees its atoms. -/
theorem alone_n2 (h : 2 ≤ x.numNitrogen) :
    (reactions oxyNum nitNum).Alone .createN2 ⟨.test, i, v⟩ x ⟨.test, i, v⟩
      { x with numNitrogen := x.numNitrogen - 2, numN2 := x.numN2 + 1 } := by
  refine .step rfl ?_
  rw [if_neg (Int.not_lt.mpr h)]
  exact .step rfl .refl

/-- One round of `create_n2`, when it is signalled. -/
theorem alone_n2_signalled (h : x.numNitrogen < 2) (hsig : 0 < x.sigN2) :
    (reactions oxyNum nitNum).Alone .createN2 ⟨.test, i, v⟩ x ⟨.test, i, v⟩
      { x with
        numNitrogen := x.numNitrogen - 2
        numN2 := x.numN2 + 1
        sigN2 := x.sigN2 - 1 } := by
  refine .step rfl ?_
  rw [if_pos h]
  refine .step (m := ⟨.react, i, v⟩) (y := { x with sigN2 := x.sigN2 - 1 }) ?_ (.step rfl .refl)
  simp [reactions, createN2, semWait, hsig]

/-- The rest of a round of `create_o2` while there is no N2. -/
theorem alone_o2_react (hn2 : x.numN2 < 1) :
    ∃ sig, (reactions oxyNum nitNum).Alone .createO2 ⟨.react, i, v⟩ x ⟨.test, i, v⟩
      { x with numOxygen := x.numOxygen - 2, numO2 := x.numO2 + 1, sigO3 := sig } := by
  have hsignal : ∃ sig, (reactions oxyNum nitNum).Alone .createO2 ⟨.o3Test, i, v⟩
      { x with numOxygen := x.numOxygen - 2, numO2 := x.numO2 + 1 } ⟨.test, i, v⟩
      { x with numOxygen := x.numOxygen - 2, numO2 := x.numO2 + 1, sigO3 := sig } := by
    by_cases h3 : 3 ≤ x.numO2 + 1
    · refine ⟨x.sigO3 + 1, .step rfl ?_⟩
      rw [if_pos h3]
      exact .step rfl .refl
    · refine ⟨x.sigO3, .step rfl ?_⟩
      rw [if_neg h3]
      exact .refl
  obtain ⟨sig, hsignal⟩ := hsignal
  refine ⟨sig, .step rfl (.step rfl ?_)⟩
  by_cases h2 : 2 ≤ x.numO2 + 1
  · rw [if_pos h2]
    refine .step rfl ?_
    rw [if_neg (Int.not_le.mpr hn2)]
    exact hsignal
  · rw [if_neg h2]
    exact hsignal

/-- One round of `create_o2`, when it sees its atoms and there is no N2. -/
theorem alone_o2 (h : 2 ≤ x.numOxygen) (hn2 : x.numN2 < 1) :
    ∃ sig, (reactions oxyNum nitNum).Alone .createO2 ⟨.test, i, v⟩ x ⟨.test, i, v⟩
      { x with numOxygen := x.numOxygen - 2, numO2 := x.numO2 + 1, sigO3 := sig } := by
  obtain ⟨sig, hreact⟩ := alone_o2_react oxyNum nitNum hn2
  refine ⟨sig, .step rfl ?_⟩
  rw [if_neg (Int.not_lt.mpr h)]
  exact hreact

/-- One round of `create_o2`, when it is signalled and there is no N2. -/
theorem alone_o2_signalled (h : x.numOxygen < 2) (hsig : 0 < x.sigO2) (hn2 : x.numN2 < 1) :
    ∃ sig, (reactions oxyNum nitNum).Alone .createO2 ⟨.test, i, v⟩ x ⟨.test, i, v⟩
      { x with
        numOxygen := x.numOxygen - 2
        numO2 := x.numO2 + 1
        sigO2 := x.sigO2 - 1
        sigO3 := sig } := by
  obtain ⟨sig, hreact⟩ := alone_o2_react oxyNum nitNum (x := { x with sigO2 := x.sigO2 - 1 }) hn2
  refine ⟨sig, .step rfl ?_⟩
  rw [if_pos h]
  refine .step (m := ⟨.react, i, v⟩) (y := { x with sigO2 := x.sigO2 - 1 }) ?_ hreact
  simp [reactions, createO2, semWait, hsig]

end Alone

/-! ### The counters -/

/-- None of the counters is negative. -/
structure Shared.AtomsExist (s : Shared) : Prop where
  numOxygen : 0 ≤ s.numOxygen
  numNitrogen : 0 ≤ s.numNitrogen
  numO2 : 0 ≤ s.numO2
  numN2 : 0 ≤ s.numN2

/-- `create_o2` uses up the oxygen it sees. -/
theorem alone_o2_all {i v : Int} {x : Shared} (hn2 : x.numN2 < 1) :
    ∃ x', (reactions oxyNum nitNum).Alone .createO2 ⟨.test, i, v⟩ x ⟨.test, i, v⟩ x' ∧
      x'.numOxygen < 2 ∧ x'.sigO2 = x.sigO2 ∧ x'.numN2 = x.numN2 := by
  obtain ⟨n, hn⟩ : ∃ n : Nat, x.numOxygen ≤ n := ⟨x.numOxygen.toNat, Int.self_le_toNat _⟩
  induction n using Nat.strongRecOn generalizing x with
  | ind n ih =>
    by_cases h : 2 ≤ x.numOxygen
    · obtain ⟨sig, hround⟩ := alone_o2 oxyNum nitNum (i := i) (v := v) h hn2
      obtain ⟨x', hrest, hfew, hsig, hnum⟩ := ih (n - 2) (by omega)
        (x := { x with numOxygen := x.numOxygen - 2, numO2 := x.numO2 + 1, sigO3 := sig }) hn2
        (by simp only; omega)
      exact ⟨x', hround.trans hrest, hfew, hsig, hnum⟩
    · exact ⟨x, .refl, Int.not_le.mp h, rfl, rfl⟩

/-- `create_n2` uses up the nitrogen it sees. -/
theorem alone_n2_all {i v : Int} {x : Shared} :
    ∃ x', (reactions oxyNum nitNum).Alone .createN2 ⟨.test, i, v⟩ x ⟨.test, i, v⟩ x' ∧
      x'.numNitrogen < 2 ∧ x'.sigN2 = x.sigN2 := by
  obtain ⟨n, hn⟩ : ∃ n : Nat, x.numNitrogen ≤ n := ⟨x.numNitrogen.toNat, Int.self_le_toNat _⟩
  induction n using Nat.strongRecOn generalizing x with
  | ind n ih =>
    by_cases h : 2 ≤ x.numNitrogen
    · have hround := alone_n2 oxyNum nitNum (i := i) (v := v) h
      obtain ⟨x', hrest, hfew, hsig⟩ := ih (n - 2) (by omega)
        (x := { x with numNitrogen := x.numNitrogen - 2, numN2 := x.numN2 + 1 })
        (by simp only; omega)
      exact ⟨x', hround.trans hrest, hfew, hsig⟩
    · exact ⟨x, .refl, Int.not_le.mp h, rfl⟩

/-- With two oxygen atoms or more, some run uses one that is not there: the
signal of `create_oxygen` is left when the atoms are used up. -/
theorem oxygen_negative (h : 2 ≤ oxyNum) :
    ∃ s, (reactions oxyNum nitNum).system.Reachable s ∧ s.shared.numOxygen < 0 := by
  have hatoms : 2 ≤ start.numOxygen + oxyNum := by simpa [start] using h
  have hcreate := alone_createOxygen oxyNum nitNum (v := 0) (x := start) (by omega) hatoms
  generalize hx : ({ start with
    numOxygen := start.numOxygen + oxyNum
    oxygenCreated := start.oxygenCreated + oxyNum.toNat
    sigO2 := start.sigO2 + 1 } : Shared) = x at hcreate
  have hx_sig : x.sigO2 = 1 := by rw [← hx]; rfl
  have hx_n2 : x.numN2 = 0 := by rw [← hx]; rfl
  obtain ⟨x', hall, hfew, hsig, hn2⟩ := alone_o2_all oxyNum nitNum
    (i := 0) (v := 0) (x := x) (by omega)
  obtain ⟨sig, hlast⟩ := alone_o2_signalled oxyNum nitNum (i := 0) (v := 0)
    (x := x') hfew (by omega) (by omega)
  have hs := Config.reachable_alone (T := reactions oxyNum nitNum) (.start rfl) hcreate
  exact ⟨_, Config.reachable_alone (t := .createO2) hs (hall.trans hlast), by
    simp only [Config.move_shared]; omega⟩

/-- With two nitrogen atoms or more, some run uses one that is not there. -/
theorem nitrogen_negative (h : 2 ≤ nitNum) :
    ∃ s, (reactions oxyNum nitNum).system.Reachable s ∧ s.shared.numNitrogen < 0 := by
  have hatoms : 2 ≤ start.numNitrogen + nitNum := by simpa [start] using h
  have hcreate := alone_createNitrogen oxyNum nitNum (v := 0) (x := start) (by omega) hatoms
  generalize hx : ({ start with
    numNitrogen := start.numNitrogen + nitNum
    nitrogenCreated := start.nitrogenCreated + nitNum.toNat
    sigN2 := start.sigN2 + 1 } : Shared) = x at hcreate
  have hx_sig : x.sigN2 = 1 := by rw [← hx]; rfl
  obtain ⟨x', hall, hfew, hsig⟩ := alone_n2_all oxyNum nitNum
    (i := 0) (v := 0) (x := x)
  have hlast := alone_n2_signalled oxyNum nitNum (i := 0) (v := 0)
    (x := x') hfew (by omega)
  have hs := Config.reachable_alone (T := reactions oxyNum nitNum) (.start rfl) hcreate
  exact ⟨_, Config.reachable_alone (t := .createN2) hs (hall.trans hlast), by
    simp only [Config.move_shared]; omega⟩

/-- **The reactions use atoms that exist**, under every interleaving, exactly
when there are too few of either kind for a reaction. -/
theorem atoms_exist_iff :
    (∀ s, (reactions oxyNum nitNum).system.Reachable s → s.shared.AtomsExist) ↔
      oxyNum < 2 ∧ nitNum < 2 := by
  constructor
  · intro hexist
    constructor
    · refine Int.not_le.mp fun h => ?_
      obtain ⟨s, hs, hneg⟩ := oxygen_negative oxyNum nitNum h
      exact absurd (hexist s hs).numOxygen (Int.not_le.mpr hneg)
    · refine Int.not_le.mp fun h => ?_
      obtain ⟨s, hs, hneg⟩ := nitrogen_negative oxyNum nitNum h
      exact absurd (hexist s hs).numNitrogen (Int.not_le.mpr hneg)
  · rintro ⟨hoxy, hnit⟩ s hs
    have hoxygen := (scarceOxygen_invariant hoxy).holds hs
    have hnitrogen := (scarceNitrogen_invariant hnit).holds hs
    exact ⟨hoxygen.atoms ▸ hoxygen.nonneg, hnitrogen.atoms ▸ hnitrogen.nonneg,
      Int.le_of_eq hoxygen.numO2.symm, Int.le_of_eq hnitrogen.numN2.symm⟩

/-- Two oxygen atoms: `create_o2` starts late, makes a molecule of them, and
then finds the signal of `create_oxygen`. -/
theorem oxygen_below_zero :
    ∃ s, (reactions 2 0).system.Reachable s ∧ ¬s.shared.AtomsExist ∧ s.shared.numOxygen = -2 := by
  let schedule : List Reaction := .replicate 5 .createOxygen ++ .replicate 7 .createO2
  have hrun : ((reactions 2 0).run schedule ⟨Reaction.start, start⟩).isSome = true := by decide
  obtain ⟨s, hs⟩ := Option.isSome_iff_exists.mp hrun
  have hlast : ((reactions 2 0).run schedule ⟨Reaction.start, start⟩).map
      (fun s => s.shared.numOxygen) = some (-2) := by decide
  rw [hs] at hlast
  have hneg : s.shared.numOxygen = -2 := Option.some.inj hlast
  refine ⟨s, reachable_run (.start rfl) hs, fun h => ?_, hneg⟩
  have := h.numOxygen
  omega


/-! ### The balance -/

end Cs252.Reactions
