import Cs252.Threads.BufferProgress

/-!
# Cs252.Threads.BufferEnds

How the runs of the bounded buffer end, for any numbers of producers and
consumers.

A round of the loop is six steps, and the test that ends the loop is one more,
so each step of a thread leaves it one step less (`Local.stepsLeft`). No run is
longer than all these steps, whatever the schedule.

At a halt, every thread has exited or waits on its semaphore for good. Which of
the two it is depends on the numbers alone: the producers fill the buffer once
more than the consumers empty it, at most, and the consumers take what is there.
-/

namespace Cs252.BoundedBuffer

open Threads

variable {producers consumers : Nat} {prodStr : List UInt8} {buf : Vector UInt8 bufSize}

/-! ### The length of a run -/

/-- The steps a thread still takes, unless it stays blocked. -/
def Local.stepsLeft (len : Nat) (l : Local) : Nat :=
  match l.pc with
  | .test => 6 * (len - l.i) + 1
  | .wait => 6 * (len - l.i)
  | .lock => 6 * (len - l.i) - 1
  | .access => 6 * (len - l.i) - 2
  | .unlock => 6 * (len - l.i) - 3
  | .post => 6 * (len - l.i) - 4
  | .exited => 0

/-- A step of a thread leaves it one step less. -/
theorem Step.stepsLeft {t : ThreadId producers consumers} {l₀ l : Local}
    {x₀ x : Shared (ThreadId producers consumers)} (hstep : Step prodStr t l₀ x₀ l x)
    (hrange : l₀.InRange prodStr.length) :
    l.stepsLeft prodStr.length + 1 = l₀.stepsLeft prodStr.length := by
  cases hstep with
  | test =>
    simp only [Local.InRange] at hrange
    split
    · simp [Local.stepsLeft]
    · simp only [Local.stepsLeft]
      omega
  | _ => simp only [Local.InRange, Local.stepsLeft] at hrange ⊢; omega

/-- The steps all threads still take. -/
def stepsLeft (len : Nat) : ThreadId producers consumers → Local → Nat :=
  fun _ l => l.stepsLeft len

/-- The steps taken and the steps left are those of all rounds. -/
theorem steps_taken {schedule : List (ThreadId producers consumers)} {s : State producers consumers}
    (hrun : (threads producers consumers prodStr buf).run schedule
      ⟨fun _ => ⟨.test, 0⟩, start _ buf⟩ = some s) :
    schedule.length + s.total (stepsLeft prodStr.length)
      = (producers + consumers) * (6 * prodStr.length + 1) := by
  have hend := run_rule (R := fun n s => Worked prodStr.length s ∧
      n + s.total (stepsLeft prodStr.length) = (producers + consumers) * (6 * prodStr.length + 1))
    (fun n s t l x hs hnext => by
      have hstep := step_of_next hnext
      have hless := hstep.stepsLeft (hs.1.inRange t)
      have hmove : (s.move t l x).total (stepsLeft prodStr.length) + _ = _ := Config.total_move
      have hsum := hs.2
      simp only [stepsLeft] at hmove hsum hless ⊢
      exact ⟨hs.1.step rfl rfl hstep, by omega⟩)
    (n := 0) ⟨worked_start, by simp [Config.total, stepsLeft, Local.stepsLeft]⟩ hrun
  simpa using hend.2

/-! ### The halt -/

section Halted

variable {s : State producers consumers}

/-- At a halt every thread waits on its semaphore, or has exited. -/
theorem waits_or_exited (hsafe : Safe s) (hhalted : (threads producers consumers prodStr buf).Halted s)
    (t : ThreadId producers consumers) : (s.locals t).pc = .wait ∨ (s.locals t).pc = .exited := by
  by_cases hlock : (s.locals t).pc = .lock
  · -- the mutex is free, as its holder could step
    cases hmutex : s.shared.bufferMutex with
    | none => exact absurd (enabled_of_lock hlock hmutex) (hhalted t)
    | some u =>
      exact absurd (enabled_of_holdsMutex ((hsafe.mutex u).mpr hmutex)).2 (hhalted u)
  · by_contra hnot
    rw [not_or] at hnot
    exact hhalted t (enabled_of_running hnot.1 hlock hnot.2)

/-- At a halt the semaphores count the free slots and the characters. -/
theorem counted_of_waiting (hcounted : Counted s)
    (hwait : ∀ t, (s.locals t).pc = .wait ∨ (s.locals t).pc = .exited) :
    s.shared.fullSem + s.shared.written.length = bufSize + s.shared.removed.length ∧
      s.shared.emptySem + s.shared.removed.length = s.shared.written.length := by
  have hslots : s.total slots = 0 := Config.total_eq_zero fun t => by
    rcases hwait t with h | h <;> cases t <;> simp [slots, h]
  have hchars : s.total chars = 0 := Config.total_eq_zero fun t => by
    rcases hwait t with h | h <;> cases t <;> simp [chars, h]
  have hfull := hcounted.slot_sum
  have hempty := hcounted.char_sum
  rw [hslots] at hfull
  rw [hchars] at hempty
  exact ⟨by simpa using hfull, by simpa using hempty⟩

/-- A producer that waits is to write another character. -/
theorem Worked.written_lt {len : Nat} (h : Worked len s) {p : Fin producers}
    (hwait : (s.locals (.inl p)).pc = .wait) : s.shared.written.length < producers * len := by
  rw [h.written, ← total_toProduce s]
  refine Config.total_lt h.produced_le (t := .inl p) ?_
  have hrange := h.inRange (.inl p)
  simp only [Local.InRange, hwait] at hrange
  simpa [produced, toProduce, hwait] using hrange

/-- No more is removed than the consumers are to remove. -/
theorem Worked.removed_le {len : Nat} (h : Worked len s) :
    s.shared.removed.length ≤ consumers * len := by
  rw [h.removed, ← total_toTake s]
  exact Config.total_le h.taken_le

/-- How a run ends. -/
structure Ended (len : Nat) (s : State producers consumers) : Prop where
  written : s.shared.written.length = min (producers * len) (consumers * len + bufSize)
  removed : s.shared.removed.length = min (producers * len) (consumers * len)
  /-- Some producer is left with a full buffer. -/
  producerLeft : (∃ p, (s.locals (.inl p)).pc ≠ .exited) ↔ consumers * len + bufSize < producers * len
  /-- Some consumer is left with an empty buffer. -/
  consumerLeft : (∃ c, (s.locals (.inr c)).pc ≠ .exited) ↔ producers * len < consumers * len

/-- A halt has the counts that the numbers of threads say. -/
theorem ended_of_halted (hsafe : Safe s) (hworked : Worked prodStr.length s)
    (hhalted : (threads producers consumers prodStr buf).Halted s) : Ended prodStr.length s := by
  have hwait := waits_or_exited hsafe hhalted
  obtain ⟨hfull, hempty⟩ := counted_of_waiting hsafe.counted hwait
  have hwritten := hworked.written_le
  have hremoved := hworked.removed_le
  -- a thread that waits finds its semaphore at 0, and has work left
  have hproducer : (∃ p, (s.locals (.inl p)).pc ≠ .exited) →
      s.shared.fullSem = 0 ∧ s.shared.written.length < producers * prodStr.length := by
    rintro ⟨p, hp⟩
    have hp := (hwait (.inl p)).resolve_right hp
    refine ⟨Nat.eq_zero_of_not_pos fun hsem => ?_, hworked.written_lt hp⟩
    exact hhalted (.inl p) (enabled_of_full hp hsem)
  have hconsumer : (∃ c, (s.locals (.inr c)).pc ≠ .exited) →
      s.shared.emptySem = 0 ∧ s.shared.removed.length < consumers * prodStr.length := by
    rintro ⟨c, hc⟩
    have hc := (hwait (.inr c)).resolve_right hc
    refine ⟨Nat.eq_zero_of_not_pos fun hsem => ?_, hworked.removed_lt hc⟩
    exact hhalted (.inr c) (enabled_of_empty hc hsem)
  have hall : (¬∃ p, (s.locals (.inl p)).pc ≠ .exited) →
      s.shared.written.length = producers * prodStr.length := fun hnone =>
    hworked.written_eq fun p => Classical.not_not.mp fun hp => hnone ⟨p, hp⟩
  have hall' : (¬∃ c, (s.locals (.inr c)).pc ≠ .exited) →
      s.shared.removed.length = consumers * prodStr.length := fun hnone =>
    hworked.removed_eq fun c => Classical.not_not.mp fun hc => hnone ⟨c, hc⟩
  have hsize : bufSize = 32 := rfl
  by_cases hp : ∃ p, (s.locals (.inl p)).pc ≠ .exited
  · have hleft := hproducer hp
    by_cases hc : ∃ c, (s.locals (.inr c)).pc ≠ .exited
    · -- the buffer is not full and empty at once
      have hleft' := hconsumer hc
      omega
    · have hdone := hall' hc
      exact ⟨by omega, by omega, iff_of_true hp (by omega), iff_of_false hc (by omega)⟩
  · have hdone := hall hp
    by_cases hc : ∃ c, (s.locals (.inr c)).pc ≠ .exited
    · have hleft := hconsumer hc
      exact ⟨by omega, by omega, iff_of_false hp (by omega), iff_of_true hc (by omega)⟩
    · have hdone' := hall' hc
      exact ⟨by omega, by omega, iff_of_false hp (by omega), iff_of_false hc (by omega)⟩

end Halted

/-- **Every run ends**, after one and the same number of steps at most, and a run
that has come to a halt has written and removed what the numbers of producers and
consumers say, whatever the schedule. A run that has not is continued to one. -/
theorem every_run_ends {schedule : List (ThreadId producers consumers)}
    {s : State producers consumers}
    (hrun : (threads producers consumers prodStr buf).run schedule
      ⟨fun _ => ⟨.test, 0⟩, start _ buf⟩ = some s) :
    schedule.length ≤ (producers + consumers) * (6 * prodStr.length + 1) ∧
      ((threads producers consumers prodStr buf).Halted s → Ended prodStr.length s) ∧
      ∃ rest s', (threads producers consumers prodStr buf).run rest s = some s' ∧
        (threads producers consumers prodStr buf).Halted s' := by
  have hs := reachable_run (.start rfl) hrun
  have hsafe := safe_invariant.holds hs
  have hworked := worked_invariant.holds hs
  refine ⟨by have := steps_taken hrun; omega, ended_of_halted hsafe hworked, ?_⟩
  have hlower : ∀ (s : State producers consumers) t l x, Worked prodStr.length s →
      (threads producers consumers prodStr buf).next t (s.locals t) s.shared = some (l, x) →
      (s.move t l x).total (stepsLeft prodStr.length) <
        s.total (stepsLeft prodStr.length) := fun s t l x hs hnext => by
    have hless := (step_of_next hnext).stepsLeft (hs.inRange t)
    have hmove : (s.move t l x).total (stepsLeft prodStr.length) + _ = _ := Config.total_move
    simp only [stepsLeft] at hmove hless ⊢
    omega
  exact exists_halted worked_invariant hlower hworked

/-- A producer works between the two characters of another one, and a consumer follows. -/
def turns : List (ThreadId 2 1) :=
  .replicate 6 (.inl 0) ++ .replicate 13 (.inl 1) ++ .replicate 7 (.inl 0) ++
    .replicate 13 (.inr 0)

theorem every_run_ends_two :
    ∃ s, (threads 2 1 [72, 105] (.replicate _ 0)).run turns
        ⟨fun _ => ⟨.test, 0⟩, start _ (.replicate _ 0)⟩ = some s ∧ Ended 2 s := by
  have hpc : ((threads 2 1 [72, 105] (.replicate _ 0)).run turns
      ⟨fun _ => ⟨.test, 0⟩, start _ (.replicate _ 0)⟩).map
      (fun s => ((s.locals (.inl 0)).pc, (s.locals (.inl 1)).pc, (s.locals (.inr 0)).pc)) =
        some (.exited, .exited, .exited) := rfl
  obtain ⟨s, hs, hexited⟩ := Option.map_eq_some_iff.mp hpc
  simp only [Prod.mk.injEq] at hexited
  obtain ⟨hfirst, hsecond, hconsumer⟩ := hexited
  have hproducer : ∀ p, (s.locals (.inl p)).pc = .exited :=
    Fin.forall_fin_two.mpr ⟨hfirst, hsecond⟩
  refine ⟨s, hs, (every_run_ends hs).2.1 fun t => ?_⟩
  cases t with
  | inl p => simp [Enabled, threads, producer, loop, hproducer p]
  | inr c =>
    obtain rfl : c = 0 := Subsingleton.elim c 0
    simp [Enabled, threads, consumer, loop, hconsumer]

end Cs252.BoundedBuffer
