import Cs252.Threads.BufferEnds
import Cs252.Threads.BufferReports
import Cs252.Lib.Shuffle

/-!
# Cs252.Threads.BufferContents

No character is lost on its way through the bounded buffer, under any
interleaving.

The slots from `head` on hold the queue of the characters that are written and
not removed (`Buffer.contents`). What is written is a shuffle of what the
producers have gone through. So a character is written once for each time a
producer comes to it, the characters of one producer stay in order, and each of
them is removed or still in the buffer.
-/

namespace Cs252.BoundedBuffer

open Threads

variable {producers consumers : Nat} {prodStr : List UInt8} {buf : Vector UInt8 bufSize}

/-- The slot `k` places after slot `i`. -/
def slotAfter (i : Fin bufSize) (k : Nat) : Fin bufSize :=
  ⟨(i + k) % bufSize, Nat.mod_lt _ (by decide)⟩

/-- The `n` characters from `head` on. -/
def Buffer.contents (b : Buffer) (n : Nat) : List UInt8 :=
  (List.range n).map fun k => b.buf.get (slotAfter b.head k)

@[simp] theorem Buffer.contents_length (b : Buffer) (n : Nat) : (b.contents n).length = n := by
  simp [contents]

/-- What is written was removed, or is in the buffer. -/
theorem Held.contents {ι : Type} {x : Shared ι} (h : Held x)
    (hle : x.removed.length ≤ x.written.length) :
    x.written = x.removed ++ x.buffer.contents (x.written.length - x.removed.length) := by
  refine List.ext_getElem (by simp; omega) fun k hk _ => ?_
  by_cases hold : k < x.removed.length
  · rw [List.getElem_append_left hold]
    exact ((List.getElem_of_eq h.removed hold).trans List.getElem_take).symm
  · rw [List.getElem_append_right (Nat.not_lt.mp hold)]
    have hslot : (slotAfter x.buffer.head (k - x.removed.length) : Nat) = k % bufSize := by
      show ((x.buffer.head : Nat) + (k - x.removed.length)) % bufSize = _
      rw [h.head, Nat.mod_add_mod, Nat.add_sub_cancel' (Nat.not_lt.mp hold)]
    have hchar := h.occupied k (Nat.not_lt.mp hold) hk
    rw [← hslot, List.getElem?_eq_getElem hk] at hchar
    simp only [Buffer.contents, List.getElem_map, List.getElem_range]
    exact Option.some.inj (hchar.symm.trans (Vector.getElem?_eq_getElem (Fin.isLt _)))

/-- What each producer has gone through. -/
def shares (prodStr : List UInt8) (s : State producers consumers) (p : Fin producers) :
    List UInt8 :=
  prodStr.take (s.locals (.inl p)).announced

/-- A step that announces nothing leaves the shares. -/
theorem shares_move {s : State producers consumers} {t : ThreadId producers consumers}
    {l : Local} {x : Shared (ThreadId producers consumers)}
    (h : l.announced = (s.locals t).announced) : shares prodStr (s.move t l x) = shares prodStr s := by
  funext p
  simp only [shares, announced_move h]

/-- A step keeps the shuffle. -/
theorem shuffle_step {s : State producers consumers} {t : ThreadId producers consumers} {l : Local}
    {x : Shared (ThreadId producers consumers)} (h : Shuffle (shares prodStr s) s.shared.written)
    (hbounds : (s.locals t).InBounds prodStr) (hstep : Step prodStr t (s.locals t) s.shared l x) :
    Shuffle (shares prodStr (s.move t l x)) (s.move t l x).shared.written := by
  rcases hstep.announces with ⟨hsame, hwritten, -, -⟩ | ⟨p, i, rfl, hl₀, rfl, rfl⟩ |
    ⟨c, i, rfl, hl₀, rfl, rfl⟩
  · rw [Config.move_shared, hwritten, shares_move hsame]
    exact h
  · have hi : i < prodStr.length := by simpa [hl₀, Local.InBounds] using hbounds
    refine h.grow (t := p) ?_ fun q hq => ?_
    · simp only [shares, Config.move_locals_self, hl₀, Local.announced, Pc.after, Nat.add_zero]
      exact (take_announced hi).symm
    · have hother : (.inl q : ThreadId producers consumers) ≠ .inl p := Sum.inl_injective.ne hq
      simp only [shares, Config.move_locals_of_ne hother]
  · have hshares : shares prodStr (s.move (.inr c) ⟨.unlock, i⟩ (consume prodStr i s.shared))
        = shares prodStr s := by
      funext p
      simp only [shares, Config.move_locals_of_ne Sum.inl_ne_inr]
    rw [hshares]
    exact h

theorem shuffle_invariant :
    (threads producers consumers prodStr buf).system.Invariant
      fun s => (∀ t, (s.locals t).InBounds prodStr) ∧ Shuffle (shares prodStr s) s.shared.written := by
  refine invariant_of_next ⟨fun _ => Or.inl rfl, Shuffle.nil⟩ fun s t l x hs hnext => ?_
  have hstep := step_of_next hnext
  exact ⟨Config.forall_move (P := fun _ => Local.InBounds prodStr) hs.1 (hstep.inBounds (hs.1 t)),
    shuffle_step hs.2 (hs.1 t) hstep⟩

/-- Where the characters of the producers are. -/
structure Delivered (prodStr : List UInt8) (s : State producers consumers) : Prop where
  /-- The buffer holds the queue of what is written and not removed. -/
  queue : s.shared.written = s.shared.removed ++
    s.shared.buffer.contents (s.shared.written.length - s.shared.removed.length)
  /-- What is written is an interleaving of what the producers have gone through. -/
  shuffle : Shuffle (shares prodStr s) s.shared.written
  /-- So nothing else is written, and each character as often as they have come to it. -/
  perm : s.shared.written.Perm ((List.finRange producers).flatMap (shares prodStr s))
  /-- And the characters of each producer stay in order. -/
  sublist : ∀ p, List.Sublist (shares prodStr s p) s.shared.written

/-- Once all producers have exited, their shares are the whole string. -/
theorem shares_of_exited {s : State producers consumers} (hworked : Worked prodStr.length s)
    (hexit : ∀ p, (s.locals (.inl p)).pc = .exited) : shares prodStr s = fun _ => prodStr := by
  funext p
  have hrange := hworked.inRange (.inl p)
  simp only [Local.InRange, hexit p] at hrange
  simp [shares, Local.announced, hexit p, hrange]

/-- **No character is lost**, made twice or overtaken by one of the same producer,
in any state that is reached. Where the run has come to a halt with no fewer
consumers than producers, what has been removed is an interleaving of the string
with itself, once for each producer. -/
theorem nothing_lost {s : State producers consumers}
    (hs : (threads producers consumers prodStr buf).system.Reachable s) :
    Delivered prodStr s ∧
      ((threads producers consumers prodStr buf).Halted s → producers ≤ consumers →
        Shuffle (fun _ : Fin producers => prodStr) s.shared.removed ∧
        s.shared.removed.Perm (List.replicate producers prodStr).flatten) := by
  have hsafe := safe_invariant.holds hs
  have hchars := hsafe.counted.char_sum
  have hshuffle := (shuffle_invariant.holds hs).2
  have hperm := hshuffle.perm (List.nodup_finRange producers) (fun p => List.mem_finRange p)
  refine ⟨⟨hsafe.held.contents (by omega), hshuffle, hperm, hshuffle.sublist⟩, fun hhalted hle => ?_⟩
  have hworked := worked_invariant.holds hs
  have hended := ended_of_halted hsafe hworked hhalted
  have hmul := Nat.mul_le_mul_right prodStr.length hle
  have hexit : ∀ p, (s.locals (.inl p)).pc = .exited := fun p =>
    Classical.not_not.mp fun hp => absurd (hended.producerLeft.mp ⟨p, hp⟩) (by omega)
  -- everything is removed
  have hall : s.shared.removed = s.shared.written := by
    have hwritten := hended.written
    have hremoved := hended.removed
    rw [hsafe.held.removed, List.take_of_length_le (by omega)]
  have hcopies : (List.finRange producers).flatMap (shares prodStr s)
      = (List.replicate producers prodStr).flatten := by
    rw [shares_of_exited hworked hexit, List.flatMap_def, List.map_const', List.length_finRange]
  rw [hall]
  exact ⟨shares_of_exited hworked hexit ▸ hshuffle, hcopies ▸ hperm⟩

/-- Two producers and two consumers of two characters, from their first step to their
last. A producer works between the two characters of the other one. -/
theorem nothing_lost_two :
    ∃ s, (threads 2 2 [72, 105] (.replicate _ 0)).run
        (.replicate 6 (.inl 0) ++ .replicate 13 (.inl 1) ++ .replicate 7 (.inl 0) ++
          .replicate 13 (.inr 0) ++ .replicate 13 (.inr 1))
        ⟨fun _ => ⟨.test, 0⟩, start _ (.replicate _ 0)⟩ = some s ∧
      s.shared.removed = [72, 72, 105, 105] ∧ Delivered [72, 105] s ∧
      Shuffle (fun _ : Fin 2 => [72, 105]) s.shared.removed ∧
      s.shared.removed.Perm (List.replicate 2 [72, 105]).flatten := by
  let schedule : List (ThreadId 2 2) :=
    .replicate 6 (.inl 0) ++ .replicate 13 (.inl 1) ++ .replicate 7 (.inl 0) ++
      .replicate 13 (.inr 0) ++ .replicate 13 (.inr 1)
  have hstate : ((threads 2 2 [72, 105] (.replicate _ 0)).run schedule
      ⟨fun _ => ⟨.test, 0⟩, start _ (.replicate _ 0)⟩).map (fun s =>
        (s.shared.removed, (s.locals (.inl 0)).pc, (s.locals (.inl 1)).pc,
          (s.locals (.inr 0)).pc, (s.locals (.inr 1)).pc)) =
      some ([72, 72, 105, 105], .exited, .exited, .exited, .exited) := rfl
  obtain ⟨s, hs, hended⟩ := Option.map_eq_some_iff.mp hstate
  simp only [Prod.mk.injEq] at hended
  obtain ⟨hremoved, hp₀, hp₁, hc₀, hc₁⟩ := hended
  have hproducer : ∀ p, (s.locals (.inl p)).pc = .exited := Fin.forall_fin_two.mpr ⟨hp₀, hp₁⟩
  have hconsumer : ∀ c, (s.locals (.inr c)).pc = .exited := Fin.forall_fin_two.mpr ⟨hc₀, hc₁⟩
  have hlost := nothing_lost (reachable_run (.start rfl) hs)
  refine ⟨s, hs, hremoved, hlost.1, hlost.2 (fun t => ?_) (Nat.le_refl 2)⟩
  cases t with
  | inl p => simp [Enabled, threads, producer, loop, hproducer p]
  | inr c => simp [Enabled, threads, consumer, loop, hconsumer c]

end Cs252.BoundedBuffer
