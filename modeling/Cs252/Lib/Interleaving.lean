import Cs252.Lib.Transition
import Mathlib.Algebra.Order.BigOperators.Group.Finset
import Mathlib.Data.Fintype.BigOperators

/-!
# Cs252.Lib.Interleaving

Threads over a shared state, under every interleaving of their atomic steps.

Each thread has a local state. Its next step is a function of that and of the
shared state, and gives `none` while the thread is blocked and once it has
finished. Two facts carry the invariants of such systems: how a sum over all
threads changes when one of them moves (`total_move`), and how a mutex stays
with the thread that holds it (`MutexOk`).
-/

universe u v w

/-- Threads `ι` with local states `L` over a shared state `σ`. -/
structure Threads (ι : Type u) (L : Type v) (σ : Type w) where
  /-- Where each thread starts. -/
  start : ι → L
  /-- The shared state before the first step. -/
  shared : σ
  /-- The next atomic step of a thread. -/
  next : ι → L → σ → Option (L × σ)

namespace Threads

/-- The local states of all threads, and the shared state. -/
structure Config (ι : Type u) (L : Type v) (σ : Type w) where
  locals : ι → L
  shared : σ

variable {ι : Type u} {L : Type v} {σ : Type w}

/-- The sum of a weight over all threads. -/
def Config.total [Fintype ι] (w : ι → L → Nat) (s : Config ι L σ) : Nat := ∑ t, w t (s.locals t)

theorem Config.total_congr [Fintype ι] {s : Config ι L σ} {w w' : ι → L → Nat}
    (h : ∀ t, w t (s.locals t) = w' t (s.locals t)) : s.total w = s.total w' :=
  Finset.sum_congr rfl fun t _ => h t

theorem Config.total_eq_zero [Fintype ι] {s : Config ι L σ} {w : ι → L → Nat}
    (h : ∀ t, w t (s.locals t) = 0) : s.total w = 0 :=
  Finset.sum_eq_zero fun t _ => h t

theorem Config.total_add [Fintype ι] {s : Config ι L σ} {w w' : ι → L → Nat} :
    s.total w + s.total w' = s.total fun t l => w t l + w' t l :=
  Finset.sum_add_distrib.symm

/-- The number of threads in a local state with property `p`. -/
theorem Config.total_card [Fintype ι] {s : Config ι L σ} {p : L → Prop} [DecidablePred p] :
    (s.total fun _ l => if p l then 1 else 0)
      = (Finset.univ.filter fun t => p (s.locals t)).card :=
  (Finset.card_filter ..).symm

theorem Config.total_le [Fintype ι] {s : Config ι L σ} {w w' : ι → L → Nat}
    (h : ∀ t, w t (s.locals t) ≤ w' t (s.locals t)) : s.total w ≤ s.total w' :=
  Finset.sum_le_sum fun t _ => h t

theorem Config.total_lt [Fintype ι] {s : Config ι L σ} {w w' : ι → L → Nat}
    (h : ∀ t, w t (s.locals t) ≤ w' t (s.locals t)) {t : ι}
    (ht : w t (s.locals t) < w' t (s.locals t)) : s.total w < s.total w' :=
  Finset.sum_lt_sum (fun t _ => h t) ⟨t, Finset.mem_univ t, ht⟩

theorem Config.le_total [Fintype ι] {s : Config ι L σ} {w : ι → L → Nat} (t : ι) :
    w t (s.locals t) ≤ s.total w :=
  Finset.single_le_sum (f := fun t => w t (s.locals t)) (fun _ _ => Nat.zero_le _)
    (Finset.mem_univ t)

variable [DecidableEq ι]

/-- One thread has moved. -/
def Config.move (s : Config ι L σ) (t : ι) (l : L) (x : σ) : Config ι L σ :=
  ⟨Function.update s.locals t l, x⟩

variable (T : Threads ι L σ)

/-- A step of thread `t`. -/
def fire (t : ι) (s : Config ι L σ) : Option (Config ι L σ) :=
  (T.next t (s.locals t) s.shared).map fun r => s.move t r.1 r.2

/-- A run of the threads in the given order. -/
def run : List ι → Config ι L σ → Option (Config ι L σ)
  | [], s => some s
  | t :: schedule, s => (T.fire t s).bind (run schedule)

/-- Thread `t` can take a step. -/
def Enabled (t : ι) (s : Config ι L σ) : Prop := (T.next t (s.locals t) s.shared).isSome

/-- The threads under every interleaving. -/
def system : System (Config ι L σ) where
  init s := s = ⟨T.start, T.shared⟩
  step s s' := ∃ t, T.fire t s = some s'

variable {T}

theorem fire_eq_some {t : ι} {s s' : Config ι L σ} :
    T.fire t s = some s' ↔
      ∃ l x, T.next t (s.locals t) s.shared = some (l, x) ∧ s.move t l x = s' := by
  simp [fire]

/-- An invariant is checked at each step of each thread. -/
theorem invariant_of_next {I : Config ι L σ → Prop} (hstart : I ⟨T.start, T.shared⟩)
    (hnext : ∀ s t l x, I s → T.next t (s.locals t) s.shared = some (l, x) → I (s.move t l x)) :
    T.system.Invariant I where
  init s hs := hs ▸ hstart
  step s s' hs := by
    rintro ⟨t, ht⟩
    obtain ⟨l, x, hstep, rfl⟩ := fire_eq_some.mp ht
    exact hnext s t l x hs hstep

/-- A run reaches reachable states. -/
theorem reachable_run {schedule : List ι} {s s' : Config ι L σ} (hs : T.system.Reachable s)
    (hrun : T.run schedule s = some s') : T.system.Reachable s' := by
  induction schedule generalizing s with
  | nil => exact Option.some.inj hrun ▸ hs
  | cons t schedule ih =>
    obtain ⟨s₁, hfire, hrest⟩ := Option.bind_eq_some_iff.mp hrun
    exact ih (.step hs ⟨t, hfire⟩) hrest

/-- No thread can take a step. -/
def Halted (T : Threads ι L σ) (s : Config ι L σ) : Prop := ∀ t, ¬T.Enabled t s

/-- What every step keeps, with the number of steps taken, holds at the end of a run. -/
theorem run_rule {R : Nat → Config ι L σ → Prop}
    (hstep : ∀ n s t l x, R n s → T.next t (s.locals t) s.shared = some (l, x) →
      R (n + 1) (s.move t l x))
    {schedule : List ι} {n : Nat} {s s' : Config ι L σ} (hs : R n s)
    (hrun : T.run schedule s = some s') : R (n + schedule.length) s' := by
  induction schedule generalizing n s with
  | nil =>
    cases hrun
    exact hs
  | cons t schedule ih =>
    obtain ⟨s₁, hfire, hrest⟩ := Option.bind_eq_some_iff.mp hrun
    obtain ⟨l, x, hnext, rfl⟩ := fire_eq_some.mp hfire
    have hend := ih (hstep n s t l x hs hnext) hrest
    rwa [List.length_cons, Nat.add_comm schedule.length, ← Nat.add_assoc]

/-- Where every step lowers a measure, a run is as long as the measure allows. -/
theorem length_run_le {I : Config ι L σ → Prop} {measure : Config ι L σ → Nat}
    (hinv : T.system.Invariant I)
    (hlower : ∀ s t l x, I s → T.next t (s.locals t) s.shared = some (l, x) →
      measure (s.move t l x) < measure s)
    {schedule : List ι} {s s' : Config ι L σ} (hs : I s) (hrun : T.run schedule s = some s') :
    schedule.length + measure s' ≤ measure s := by
  have hend := run_rule (R := fun n s' => I s' ∧ n + measure s' ≤ measure s)
    (fun n s₁ t l x hs₁ hnext => by
      have hfire : T.fire t s₁ = some (s₁.move t l x) := fire_eq_some.mpr ⟨l, x, hnext, rfl⟩
      have hlt := hlower s₁ t l x hs₁.1 hnext
      have hle := hs₁.2
      exact ⟨hinv.step _ _ hs₁.1 ⟨t, hfire⟩, by omega⟩)
    (n := 0) ⟨hs, by simp⟩ hrun
  simpa using hend.2

/-- Where every step lowers a measure, the threads come to a halt from any state. -/
theorem exists_halted {I : Config ι L σ → Prop} {measure : Config ι L σ → Nat}
    (hinv : T.system.Invariant I)
    (hlower : ∀ s t l x, I s → T.next t (s.locals t) s.shared = some (l, x) →
      measure (s.move t l x) < measure s)
    {s : Config ι L σ} (hs : I s) : ∃ schedule s', T.run schedule s = some s' ∧ T.Halted s' := by
  generalize hn : measure s = n
  induction n using Nat.strongRecOn generalizing s with
  | ind n ih =>
    by_cases hhalted : T.Halted s
    · exact ⟨[], s, rfl, hhalted⟩
    · obtain ⟨t, ht⟩ := not_forall_not.mp hhalted
      obtain ⟨⟨l, x⟩, hnext⟩ := Option.isSome_iff_exists.mp ht
      have hfire : T.fire t s = some (s.move t l x) := fire_eq_some.mpr ⟨l, x, hnext, rfl⟩
      obtain ⟨schedule, s', hrun, hs'⟩ := ih (measure (s.move t l x))
        (hn ▸ hlower s t l x hs hnext) (hinv.step _ _ hs ⟨t, hfire⟩) rfl
      exact ⟨t :: schedule, s', Option.bind_eq_some_iff.mpr ⟨_, hfire, hrun⟩, hs'⟩

/-- One thread runs on its own: its local state and the shared state before and after. -/
inductive Alone (T : Threads ι L σ) (t : ι) : L → σ → L → σ → Prop
  | refl {l : L} {x : σ} : Alone T t l x l x
  | step {l m l' : L} {x y x' : σ} :
      T.next t l x = some (m, y) → Alone T t m y l' x' → Alone T t l x l' x'

omit [DecidableEq ι] in
theorem Alone.trans {t : ι} {l l₁ l' : L} {x x₁ x' : σ} (h : T.Alone t l x l₁ x₁)
    (h' : T.Alone t l₁ x₁ l' x') : T.Alone t l x l' x' := by
  induction h with
  | refl => exact h'
  | step hnext _ ih => exact .step hnext (ih h')

namespace Config

variable {s : Config ι L σ} {t u : ι} {l : L} {x : σ}

@[simp] theorem move_shared : (s.move t l x).shared = x := rfl

@[simp] theorem move_locals_self : (s.move t l x).locals t = l := by
  simp [move]

theorem move_locals_of_ne (h : u ≠ t) : (s.move t l x).locals u = s.locals u := by
  simp [move, h]

/-- What holds of every thread holds after a move to a local state where it holds. -/
theorem forall_move {P : ι → L → Prop} (h : ∀ u, P u (s.locals u)) (hl : P t l) :
    ∀ u, P u ((s.move t l x).locals u) := by
  intro u
  by_cases hu : u = t
  · rw [hu, move_locals_self]
    exact hl
  · rw [move_locals_of_ne hu]
    exact h u

@[simp] theorem move_self : s.move t (s.locals t) s.shared = s := by
  simp [move]

@[simp] theorem move_move {l' : L} {x' : σ} : (s.move t l x).move t l' x' = s.move t l' x' := by
  simp [move]

/-- A thread may run on its own from any reachable state. -/
theorem reachable_alone {l' : L} {x' : σ} (hs : T.system.Reachable s)
    (hrun : T.Alone t (s.locals t) s.shared l' x') : T.system.Reachable (s.move t l' x') := by
  generalize hl : s.locals t = l₀ at hrun
  generalize hx : s.shared = x₀ at hrun
  induction hrun generalizing s with
  | refl => rwa [← hl, ← hx, move_self]
  | @step l l₁ l' x x₁ x' hnext _ ih =>
    have hstep : T.system.Reachable (s.move t l₁ x₁) :=
      .step hs ⟨t, fire_eq_some.mpr ⟨l₁, x₁, by rw [hl, hx]; exact hnext, rfl⟩⟩
    rw [← move_move (s := s) (l := l₁) (x := x₁)]
    exact ih hstep move_locals_self rfl

/-! ### Sums over all threads -/

variable [Fintype ι] {w : ι → L → Nat}

/-- A move changes the sum by the change of weight of the thread that moves. -/
theorem total_move : (s.move t l x).total w + w t (s.locals t) = s.total w + w t l := by
  have hrest : ∑ u ∈ Finset.univ.erase t, w u ((s.move t l x).locals u) =
      ∑ u ∈ Finset.univ.erase t, w u (s.locals u) := by
    refine Finset.sum_congr rfl fun u hu => ?_
    rw [move_locals_of_ne (Finset.ne_of_mem_erase hu)]
  have hbefore := Finset.add_sum_erase Finset.univ (fun u => w u (s.locals u)) (Finset.mem_univ t)
  have hafter := Finset.add_sum_erase Finset.univ (fun u => w u ((s.move t l x).locals u))
    (Finset.mem_univ t)
  simp only [move_locals_self, hrest] at hafter hbefore
  unfold total
  omega

end Config

/-! ### A mutex -/

/-- The threads that hold the mutex are those it names. -/
def MutexOk (holds : L → Prop) (s : Config ι L σ) (mutex : Option ι) : Prop :=
  ∀ t, holds (s.locals t) ↔ mutex = some t

namespace MutexOk

variable {holds : L → Prop} {s : Config ι L σ} {t : ι} {l : L} {x : σ} {mutex : Option ι}

theorem lock (h : MutexOk holds s none) (hl : holds l) :
    MutexOk holds (s.move t l x) (some t) := by
  intro u
  by_cases hu : u = t
  · rw [hu, Config.move_locals_self]
    simp [hl]
  · rw [Config.move_locals_of_ne hu, h u]
    simp [Ne.symm hu]

theorem unlock (h : MutexOk holds s mutex) (ht : holds (s.locals t)) (hl : ¬holds l) :
    MutexOk holds (s.move t l x) none := by
  intro u
  by_cases hu : u = t
  · rw [hu, Config.move_locals_self]
    simp [hl]
  · rw [Config.move_locals_of_ne hu, h u, (h t).mp ht]
    simp [Ne.symm hu]

theorem keep (h : MutexOk holds s mutex) (hl : holds l ↔ holds (s.locals t)) :
    MutexOk holds (s.move t l x) mutex := by
  intro u
  by_cases hu : u = t
  · rw [hu, Config.move_locals_self, hl, h t]
  · rw [Config.move_locals_of_ne hu, h u]

end MutexOk

end Threads
