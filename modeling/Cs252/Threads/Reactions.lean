import Cs252.Threads.BoundedBuffer

/-!
# Cs252.Threads.Reactions

The six threads of `lab4-src/part2.c`: two create atoms, four let them react.

A read of a shared variable outside the lock, an operation on a semaphore and a
section under `reaction_mutex` are one atomic step each. `num_o2 -= 2` in
`create_o2` stands outside the lock, so it is two steps, a read and a write.

The counters are integers: the code subtracts from them without looking, and
they do become negative. The shared state also records how many atoms were
created and how many reactions with more than one outcome were announced.
-/

namespace Cs252.Reactions

open BoundedBuffer (semWait)

/-- The threads, under the names of the functions they run. -/
inductive Reaction
  | createOxygen
  | createNitrogen
  | createN2
  | createO2
  | createNo2
  | createO3
  deriving Repr, DecidableEq

/-- The next atomic step of a thread. -/
inductive Pc
  /-- The top of the loop that creates atoms. -/
  | create
  /-- Read the number of atoms after that loop. -/
  | count
  /-- Signal the consumer of the atoms. -/
  | signal
  | exited
  /-- The top of the loop of a reaction: read the counter of a reactant. -/
  | test
  /-- Read the counter of the second reactant, in `create_no2`. -/
  | testO2
  | wait
  | react
  /-- Read `num_o2`, and then `num_n2`, for the condition of signalling `create_no2`. -/
  | no2Test
  | no2TestN2
  | no2Signal
  /-- The read and the write of `num_o2 -= 2`. -/
  | no2Read
  | no2Write
  /-- Read `num_o2` for the condition of signalling `create_o3`. -/
  | o3Test
  | o3Signal
  deriving Repr, DecidableEq

/-- The program counter of a thread, its loop variable and the value it has read
for `num_o2 -= 2`. -/
structure Local where
  pc : Pc
  i : Int
  o2 : Int
  deriving Repr, DecidableEq

/-- The shared variables, and the history. -/
structure Shared where
  numOxygen : Int
  numNitrogen : Int
  numO2 : Int
  numN2 : Int
  sigO2 : Nat
  sigN2 : Nat
  sigNo2 : Nat
  sigO3 : Nat
  /-- The atoms announced as created. -/
  oxygenCreated : Nat
  nitrogenCreated : Nat
  /-- The reactions announced by `create_no2` and `create_o3`. -/
  no2Announced : Nat
  o3Announced : Nat
  deriving Repr, DecidableEq

/-! ### Atoms -/

/-- `create_oxygen` and `create_nitrogen`, by the number of atoms, the section
that creates one, the counter and the signal. -/
def createAtoms (howMany : Int) (add : Shared → Shared) (num : Shared → Int)
    (post : Shared → Shared) (l : Local) (s : Shared) : Option (Local × Shared) :=
  match l.pc with
  | .create => some (if l.i < howMany then ({ l with i := l.i + 1 }, add s)
      else ({ l with pc := .count }, s))
  | .count => some ({ l with pc := if 2 ≤ num s then .signal else .exited }, s)
  | .signal => some ({ l with pc := .exited }, post s)
  | _ => none

/-- `create_oxygen`. -/
def createOxygen (howMany : Int) : Local → Shared → Option (Local × Shared) :=
  createAtoms howMany
    (fun s => { s with numOxygen := s.numOxygen + 1, oxygenCreated := s.oxygenCreated + 1 })
    Shared.numOxygen
    (fun s => { s with sigO2 := s.sigO2 + 1 })

/-- `create_nitrogen`. -/
def createNitrogen (howMany : Int) : Local → Shared → Option (Local × Shared) :=
  createAtoms howMany
    (fun s => { s with numNitrogen := s.numNitrogen + 1, nitrogenCreated := s.nitrogenCreated + 1 })
    Shared.numNitrogen
    (fun s => { s with sigN2 := s.sigN2 + 1 })

/-! ### Molecules -/

/-- `create_n2`. -/
def createN2 (l : Local) (s : Shared) : Option (Local × Shared) :=
  match l.pc with
  | .test => some ({ l with pc := if s.numNitrogen < 2 then .wait else .react }, s)
  | .wait => (semWait s.sigN2).map fun sem => ({ l with pc := .react }, { s with sigN2 := sem })
  | .react => some ({ l with pc := .test },
      { s with numNitrogen := s.numNitrogen - 2, numN2 := s.numN2 + 1 })
  | _ => none

/-- `create_o2`. -/
def createO2 (l : Local) (s : Shared) : Option (Local × Shared) :=
  match l.pc with
  | .test => some ({ l with pc := if s.numOxygen < 2 then .wait else .react }, s)
  | .wait => (semWait s.sigO2).map fun sem => ({ l with pc := .react }, { s with sigO2 := sem })
  | .react => some ({ l with pc := .no2Test },
      { s with numOxygen := s.numOxygen - 2, numO2 := s.numO2 + 1 })
  | .no2Test => some ({ l with pc := if 2 ≤ s.numO2 then .no2TestN2 else .o3Test }, s)
  | .no2TestN2 => some ({ l with pc := if 1 ≤ s.numN2 then .no2Signal else .o3Test }, s)
  | .no2Signal => some ({ l with pc := .no2Read }, { s with sigNo2 := s.sigNo2 + 1 })
  | .no2Read => some ({ l with pc := .no2Write, o2 := s.numO2 }, s)
  | .no2Write => some ({ l with pc := .o3Test }, { s with numO2 := l.o2 - 2 })
  | .o3Test => some ({ l with pc := if 3 ≤ s.numO2 then .o3Signal else .test }, s)
  | .o3Signal => some ({ l with pc := .test }, { s with sigO3 := s.sigO3 + 1 })
  | _ => none

/-- `create_no2`: it leaves `num_o2` to `create_o2`. -/
def createNo2 (l : Local) (s : Shared) : Option (Local × Shared) :=
  match l.pc with
  | .test => some ({ l with pc := if s.numN2 < 1 then .wait else .testO2 }, s)
  | .testO2 => some ({ l with pc := if s.numO2 < 2 then .wait else .react }, s)
  | .wait => (semWait s.sigNo2).map fun sem => ({ l with pc := .react }, { s with sigNo2 := sem })
  | .react => some ({ l with pc := .test },
      { s with numN2 := s.numN2 - 1, no2Announced := s.no2Announced + 1 })
  | _ => none

/-- `create_o3`. -/
def createO3 (l : Local) (s : Shared) : Option (Local × Shared) :=
  match l.pc with
  | .test => some ({ l with pc := if s.numO2 < 3 then .wait else .react }, s)
  | .wait => (semWait s.sigO3).map fun sem => ({ l with pc := .react }, { s with sigO3 := sem })
  | .react => some ({ l with pc := .test },
      { s with numO2 := s.numO2 - 3, o3Announced := s.o3Announced + 1 })
  | _ => none

/-! ### The program -/

/-- The shared state after the initialization in `main`. -/
def start : Shared where
  numOxygen := 0
  numNitrogen := 0
  numO2 := 0
  numN2 := 0
  sigO2 := 0
  sigN2 := 0
  sigNo2 := 0
  sigO3 := 0
  oxygenCreated := 0
  nitrogenCreated := 0
  no2Announced := 0
  o3Announced := 0

/-- Where a thread starts. -/
def Reaction.start : Reaction → Local
  | .createOxygen | .createNitrogen => ⟨.create, 0, 0⟩
  | _ => ⟨.test, 0, 0⟩

/-- The threads `main` starts, for its two arguments. -/
def reactions (oxyNum nitNum : Int) : Threads Reaction Local Shared where
  start := Reaction.start
  shared := start
  next
    | .createOxygen => createOxygen oxyNum
    | .createNitrogen => createNitrogen nitNum
    | .createN2 => createN2
    | .createO2 => createO2
    | .createNo2 => createNo2
    | .createO3 => createO3

/-- The state of the threads and the counters. -/
abbrev State : Type := Threads.Config Reaction Local Shared

end Cs252.Reactions
