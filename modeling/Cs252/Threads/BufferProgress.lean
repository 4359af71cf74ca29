import Cs252.Threads.BufferSafety

/-!
# Cs252.Threads.BufferProgress

Equally many producers and consumers never deadlock.

A thread inside or before its critical section waits for the mutex only, whose
holder can step. If all threads that have not exited wait on a semaphore, the
tokens are all posted and the buffer holds what is written and not removed. A
producer waits on a full buffer, so no consumer waits, and all of them have
exited after as many characters as all producers will ever write. A consumer
waits on an empty buffer, when all producers have exited, so it is owed a
character that was written. Both count the work of a thread by its loop
variable (`Worked`).
-/

namespace Cs252.BoundedBuffer

open Threads

variable {producers consumers n : Nat} {prodStr : List UInt8} {buf : Vector UInt8 bufSize}

/-! ### The work done -/

/-- The loop variable is in range for the place in the loop. -/
def Local.InRange (len : Nat) (l : Local) : Prop :=
  match l.pc with
  | .test => l.i ≤ len
  | .exited => l.i = len
  | _ => l.i < len

theorem Local.InRange.le {len : Nat} {l : Local} (h : l.InRange len) : l.i + l.pc.after ≤ len := by
  obtain ⟨pc, i⟩ := l
  cases pc with
  | test => exact h
  | exited => exact Nat.le_of_eq h
  | unlock => exact h
  | post => exact h
  | _ => exact Nat.le_of_lt h

/-- The characters a producer has written. -/
def produced : ThreadId producers consumers → Local → Nat
  | .inl _, l => l.i + l.pc.after
  | .inr _, _ => 0

/-- The characters a consumer has removed. -/
def taken : ThreadId producers consumers → Local → Nat
  | .inl _, _ => 0
  | .inr _, l => l.i + l.pc.after

/-- The characters written and removed are those the threads have gone through. -/
structure Worked (len : Nat) (s : State producers consumers) : Prop where
  inRange : ∀ t, (s.locals t).InRange len
  written : s.shared.written.length = s.total produced
  removed : s.shared.removed.length = s.total taken

theorem inRange_test {len i : Nat} (h : i ≤ len) :
    Local.InRange len ⟨if i < len then .wait else .exited, i⟩ := by
  by_cases hlt : i < len
  · rw [if_pos hlt]
    exact hlt
  · rw [if_neg hlt]
    exact Nat.le_antisymm h (Nat.le_of_not_lt hlt)

/-- The test of the loop condition is no work. -/
theorem work_test {t : ThreadId producers consumers} {c : Prop} [Decidable c] {i : Nat} :
    produced t ⟨if c then .wait else .exited, i⟩ = produced t ⟨.test, i⟩ ∧
      taken t ⟨if c then .wait else .exited, i⟩ = taken t ⟨.test, i⟩ := by
  split <;> cases t <;> exact ⟨rfl, rfl⟩

theorem Worked.step {s : State producers consumers} {t : ThreadId producers consumers}
    {l₀ l : Local} {x₀ x : Shared (ThreadId producers consumers)} (h : Worked prodStr.length s)
    (hl₀ : s.locals t = l₀) (hx₀ : s.shared = x₀) (hstep : Step prodStr t l₀ x₀ l x) :
    Worked prodStr.length (s.move t l x) := by
  have hwritten := h.written
  have hremoved := h.removed
  have hmove : (s.move t l x).total produced + _ = _ := Config.total_move
  have hmove' : (s.move t l x).total taken + _ = _ := Config.total_move
  have hrange := h.inRange t
  rw [hx₀] at hwritten hremoved
  rw [hl₀] at hmove hmove' hrange
  suffices hkeep : l.InRange prodStr.length ∧
      x.written.length + produced t l₀ = x₀.written.length + produced t l ∧
      x.removed.length + taken t l₀ = x₀.removed.length + taken t l by
    obtain ⟨hin, hwrite, hremove⟩ := hkeep
    refine ⟨Config.forall_move (P := fun _ l => Local.InRange prodStr.length l) h.inRange hin,
      ?_, ?_⟩
    · show x.written.length = _
      omega
    · show x.removed.length = _
      omega
  cases hstep with
  | test => exact ⟨inRange_test hrange, by rw [work_test.1], by rw [work_test.2]⟩
  | waitFull => exact ⟨hrange, rfl, rfl⟩
  | waitEmpty => exact ⟨hrange, rfl, rfl⟩
  | lock => exact ⟨hrange, by cases t <;> rfl, by cases t <;> rfl⟩
  | produce => exact ⟨hrange, by simp [produce, produced]; omega, rfl⟩
  | consume => exact ⟨hrange, rfl, by simp [consume, taken]; omega⟩
  | unlock => exact ⟨hrange, by cases t <;> rfl, by cases t <;> rfl⟩
  | postEmpty => exact ⟨hrange, rfl, rfl⟩
  | postFull => exact ⟨hrange, rfl, rfl⟩

theorem worked_start :
    Worked prodStr.length (⟨fun _ => ⟨.test, 0⟩, start _ buf⟩ : State producers consumers) := by
  refine ⟨fun _ => Nat.zero_le _, ?_, ?_⟩
  · exact (Config.total_eq_zero fun t => by cases t <;> rfl).symm
  · exact (Config.total_eq_zero fun t => by cases t <;> rfl).symm

theorem worked_invariant :
    (threads producers consumers prodStr buf).system.Invariant (Worked prodStr.length) :=
  invariant_of_next worked_start fun _ _ _ _ hs hnext => hs.step rfl rfl (step_of_next hnext)

/-! ### Who can step -/

section Enabled

variable {s : State producers consumers} {t : ThreadId producers consumers}

/-- A thread that is not at a wait, at the lock or at its end can step. -/
theorem enabled_of_running (h : (s.locals t).pc ≠ .wait) (h' : (s.locals t).pc ≠ .lock)
    (h'' : (s.locals t).pc ≠ .exited) : (threads producers consumers prodStr buf).Enabled t s := by
  cases t <;> simp only [Enabled, threads, producer, consumer, loop] <;> split <;> simp_all

theorem enabled_of_lock (h : (s.locals t).pc = .lock) (hfree : s.shared.bufferMutex = none) :
    (threads producers consumers prodStr buf).Enabled t s := by
  cases t <;> simp [Enabled, threads, producer, consumer, loop, h, hfree, mutexLock]

theorem enabled_of_full {p : Fin producers} (h : (s.locals (.inl p)).pc = .wait)
    (hsem : 0 < s.shared.fullSem) :
    (threads producers consumers prodStr buf).Enabled (.inl p) s := by
  simp [Enabled, threads, producer, loop, h, semWait, hsem]

theorem enabled_of_empty {c : Fin consumers} (h : (s.locals (.inr c)).pc = .wait)
    (hsem : 0 < s.shared.emptySem) :
    (threads producers consumers prodStr buf).Enabled (.inr c) s := by
  simp [Enabled, threads, consumer, loop, h, semWait, hsem]

/-- The thread that holds the mutex can step. -/
theorem enabled_of_holdsMutex (h : (s.locals t).holdsMutex) :
    (s.locals t).pc ≠ .exited ∧ (threads producers consumers prodStr buf).Enabled t s := by
  refine ⟨?_, enabled_of_running ?_ ?_ ?_⟩ <;> rcases h with h | h <;> simp [h]

end Enabled

/-! ### Bounds on the work -/

/-- The characters each producer is to write. -/
def toProduce (len : Nat) : ThreadId producers consumers → Local → Nat
  | .inl _, _ => len
  | .inr _, _ => 0

/-- The characters each consumer is to remove. -/
def toTake (len : Nat) : ThreadId producers consumers → Local → Nat
  | .inl _, _ => 0
  | .inr _, _ => len

theorem total_toProduce (s : State producers consumers) (len : Nat) :
    s.total (toProduce len) = producers * len := by
  simp [Config.total, toProduce]

theorem total_toTake (s : State producers consumers) (len : Nat) :
    s.total (toTake len) = consumers * len := by
  simp [Config.total, toTake]

namespace Worked

variable {s : State producers consumers} {len : Nat}

theorem produced_le (h : Worked len s) (t : ThreadId producers consumers) :
    produced t (s.locals t) ≤ toProduce len t (s.locals t) := by
  cases t with
  | inl p => exact (h.inRange _).le
  | inr c => exact Nat.zero_le _

theorem taken_le (h : Worked len s) (t : ThreadId producers consumers) :
    taken t (s.locals t) ≤ toTake len t (s.locals t) := by
  cases t with
  | inl p => exact Nat.zero_le _
  | inr c => exact (h.inRange _).le

/-- No more is written than the producers are to write. -/
theorem written_le (h : Worked len s) : s.shared.written.length ≤ producers * len := by
  rw [h.written, ← total_toProduce s]
  exact Config.total_le h.produced_le

/-- Once all producers have exited, they have written all they are to write. -/
theorem written_eq (h : Worked len s) (hexit : ∀ p, (s.locals (.inl p)).pc = .exited) :
    s.shared.written.length = producers * len := by
  rw [h.written, ← total_toProduce s]
  refine Config.total_congr fun t => ?_
  cases t with
  | inl p =>
    have hrange := h.inRange (.inl p)
    simp only [Local.InRange, hexit p] at hrange
    simp [produced, toProduce, hrange, hexit p]
  | inr c => rfl

/-- Once all consumers have exited, they have removed all they are to remove. -/
theorem removed_eq (h : Worked len s) (hexit : ∀ c, (s.locals (.inr c)).pc = .exited) :
    s.shared.removed.length = consumers * len := by
  rw [h.removed, ← total_toTake s]
  refine Config.total_congr fun t => ?_
  cases t with
  | inl p => rfl
  | inr c =>
    have hrange := h.inRange (.inr c)
    simp only [Local.InRange, hexit c] at hrange
    simp [taken, toTake, hrange, hexit c]

/-- A consumer that waits is owed a character. -/
theorem removed_lt (h : Worked len s) {c : Fin consumers}
    (hwait : (s.locals (.inr c)).pc = .wait) :
    s.shared.removed.length < consumers * len := by
  rw [h.removed, ← total_toTake s]
  refine Config.total_lt h.taken_le (t := .inr c) ?_
  have hrange := h.inRange (.inr c)
  simp only [Local.InRange, hwait] at hrange
  simpa [taken, toTake, hwait] using hrange

end Worked

/-! ### No deadlock -/

/-- When every thread waits on a semaphore or has exited, some thread that waits can step. -/
theorem progress_of_waiting {s : State n n} (hcounted : Counted s)
    (hworked : Worked prodStr.length s)
    (hwait : ∀ t, (s.locals t).pc = .wait ∨ (s.locals t).pc = .exited)
    (hrun : ∃ t, (s.locals t).pc ≠ .exited) :
    ∃ t, (s.locals t).pc ≠ .exited ∧ (threads n n prodStr buf).Enabled t s := by
  have hslots : s.total slots = 0 := Config.total_eq_zero fun t => by
    rcases hwait t with h | h <;> cases t <;> simp [slots, h]
  have hchars : s.total chars = 0 := Config.total_eq_zero fun t => by
    rcases hwait t with h | h <;> cases t <;> simp [chars, h]
  have hfull := hcounted.slot_sum
  have hempty := hcounted.char_sum
  rw [hslots] at hfull
  rw [hchars] at hempty
  have hposted (c : Fin n) (hc : (s.locals (.inr c)).pc = .wait) (hsem : 0 < s.shared.emptySem) :
      ∃ t, (s.locals t).pc ≠ .exited ∧ (threads n n prodStr buf).Enabled t s :=
    ⟨.inr c, by simp [hc], enabled_of_empty hc hsem⟩
  by_cases hproducer : ∃ p, (s.locals (.inl p)).pc = .wait
  · obtain ⟨p, hp⟩ := hproducer
    by_cases hsem : 0 < s.shared.fullSem
    · exact ⟨.inl p, by simp [hp], enabled_of_full hp hsem⟩
    · -- the buffer is full, so a consumer is left to empty it
      by_cases hconsumer : ∃ c, (s.locals (.inr c)).pc = .wait
      · obtain ⟨c, hc⟩ := hconsumer
        unfold bufSize at hfull
        exact hposted c hc (by omega)
      · have hexit : ∀ c, (s.locals (.inr c)).pc = .exited := fun c =>
          (hwait (.inr c)).resolve_left fun hc => hconsumer ⟨c, hc⟩
        have hall := hworked.removed_eq hexit
        have hle := hworked.written_le
        unfold bufSize at hfull
        omega
  · have hexit : ∀ p, (s.locals (.inl p)).pc = .exited := fun p =>
      (hwait (.inl p)).resolve_left fun hp => hproducer ⟨p, hp⟩
    obtain ⟨t, ht⟩ := hrun
    cases t with
    | inl p => exact absurd (hexit p) ht
    | inr c =>
      have hc := (hwait (.inr c)).resolve_right ht
      have hall := hworked.written_eq hexit
      have hlt := hworked.removed_lt hc
      exact hposted c hc (by omega)

/-- **No deadlock** with equally many producers and consumers: while a thread has
not exited, some thread that has not exited can step. -/
theorem no_deadlock {s : State n n} (hs : (threads n n prodStr buf).system.Reachable s)
    (hrun : ∃ t, (s.locals t).pc ≠ .exited) :
    ∃ t, (s.locals t).pc ≠ .exited ∧ (threads n n prodStr buf).Enabled t s := by
  obtain ⟨hmutex, hcounted, -⟩ := safe_invariant.holds hs
  have hworked := worked_invariant.holds hs
  by_cases hwait : ∀ t, (s.locals t).pc = .wait ∨ (s.locals t).pc = .exited
  · exact progress_of_waiting hcounted hworked hwait hrun
  · simp only [not_forall, not_or] at hwait
    obtain ⟨t, hnotwait, hrunning⟩ := hwait
    by_cases hlock : (s.locals t).pc = .lock
    · cases hmutexEq : s.shared.bufferMutex with
      | none => exact ⟨t, hrunning, enabled_of_lock hlock hmutexEq⟩
      | some u => exact ⟨u, enabled_of_holdsMutex ((hmutex u).mpr hmutexEq)⟩
    · exact ⟨t, hrunning, enabled_of_running hnotwait hlock hrunning⟩

/-- Both consumers wait, and a producer has locked the mutex. -/
theorem no_deadlock_two :
    ∃ s, (threads 2 2 [72, 105] (.replicate _ 0)).run [.inr 0, .inr 1, .inl 0, .inl 0, .inl 0]
        ⟨fun _ => ⟨.test, 0⟩, start _ (.replicate _ 0)⟩ = some s ∧
      (∀ c, (s.locals (.inr c)).pc = .wait ∧
        ¬(threads 2 2 [72, 105] (.replicate _ 0)).Enabled (.inr c) s) ∧
      ∃ t, (s.locals t).pc ≠ .exited ∧ (threads 2 2 [72, 105] (.replicate _ 0)).Enabled t s := by
  have hstate : ((threads 2 2 [72, 105] (.replicate _ 0)).run
      [.inr 0, .inr 1, .inl 0, .inl 0, .inl 0]
      ⟨fun _ => ⟨.test, 0⟩, start _ (.replicate _ 0)⟩).map (fun s =>
        ((s.locals (.inr 0)).pc, (s.locals (.inr 1)).pc, s.shared.emptySem)) =
      some (.wait, .wait, 0) := rfl
  obtain ⟨s, hs, hwaiting⟩ := Option.map_eq_some_iff.mp hstate
  simp only [Prod.mk.injEq] at hwaiting
  obtain ⟨hfirst, hsecond, hempty⟩ := hwaiting
  have hwait : ∀ c, (s.locals (.inr c)).pc = .wait := Fin.forall_fin_two.mpr ⟨hfirst, hsecond⟩
  refine ⟨s, hs, fun c => ⟨hwait c, ?_⟩, no_deadlock (reachable_run (.start rfl) hs)
    ⟨.inr 0, by rw [hfirst]; decide⟩⟩
  simp [Enabled, threads, consumer, loop, hwait c, semWait, hempty]

end Cs252.BoundedBuffer
