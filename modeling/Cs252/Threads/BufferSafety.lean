import Cs252.Threads.BoundedBuffer

/-!
# Cs252.Threads.BufferSafety

The bounded buffer is safe under every interleaving.

A slot of the buffer is counted by `full_sem`, or belongs to a thread between
its wait and its post, or holds a character not yet removed. The threads pass
slots on as tokens: a producer takes one from `full_sem`, fills it and posts it
as a character to `empty_sem`, and a consumer takes the character and posts the
empty slot. `Safe` is the resulting invariant. The two sums in it say where the
slots and the characters are, and bound the numbers written and removed by each
other.
-/

namespace Cs252.BoundedBuffer

open Threads

variable {producers consumers : Nat} {prodStr : List UInt8} {buf : Vector UInt8 bufSize}

/-! ### The steps -/

/-- The steps of a thread. -/
inductive Step (prodStr : List UInt8) : ThreadId producers consumers → Local →
    Shared (ThreadId producers consumers) → Local → Shared (ThreadId producers consumers) → Prop
  | test {t i s} : Step prodStr t ⟨.test, i⟩ s ⟨if i < prodStr.length then .wait else .exited, i⟩ s
  | waitFull {p i s} : 0 < s.fullSem →
      Step prodStr (.inl p) ⟨.wait, i⟩ s ⟨.lock, i⟩ { s with fullSem := s.fullSem - 1 }
  | waitEmpty {c i s} : 0 < s.emptySem →
      Step prodStr (.inr c) ⟨.wait, i⟩ s ⟨.lock, i⟩ { s with emptySem := s.emptySem - 1 }
  | lock {t i s} : s.bufferMutex = none →
      Step prodStr t ⟨.lock, i⟩ s ⟨.access, i⟩ { s with bufferMutex := some t }
  | produce {p i s} : Step prodStr (.inl p) ⟨.access, i⟩ s ⟨.unlock, i⟩ (produce prodStr i s)
  | consume {c i s} : Step prodStr (.inr c) ⟨.access, i⟩ s ⟨.unlock, i⟩ (consume prodStr i s)
  | unlock {t i s} : Step prodStr t ⟨.unlock, i⟩ s ⟨.post, i⟩ { s with bufferMutex := none }
  | postEmpty {p i s} :
      Step prodStr (.inl p) ⟨.post, i⟩ s ⟨.test, i + 1⟩ { s with emptySem := s.emptySem + 1 }
  | postFull {c i s} :
      Step prodStr (.inr c) ⟨.post, i⟩ s ⟨.test, i + 1⟩ { s with fullSem := s.fullSem + 1 }

theorem mutexLock_eq_some {ι : Type} {tid : ι} {mutex mutex' : Option ι} :
    mutexLock tid mutex = some mutex' ↔ mutex = none ∧ some tid = mutex' := by
  cases mutex <;> simp [mutexLock]

/-- The steps of the loop of `producer` and `consumer`. -/
theorem loop_cases {ι : Type} {tid : ι} {wait : Shared ι → Option (Shared ι)}
    {access : Nat → Shared ι → Shared ι} {post : Shared ι → Shared ι} {l l' : Local}
    {s s' : Shared ι} {R : Local → Local → Shared ι → Prop}
    (h : loop prodStr tid wait access post l s = some (l', s'))
    (htest : ∀ i, R ⟨.test, i⟩ ⟨if i < prodStr.length then .wait else .exited, i⟩ s)
    (hwait : ∀ i x, wait s = some x → R ⟨.wait, i⟩ ⟨.lock, i⟩ x)
    (hlock : ∀ i, s.bufferMutex = none →
      R ⟨.lock, i⟩ ⟨.access, i⟩ { s with bufferMutex := some tid })
    (haccess : ∀ i, R ⟨.access, i⟩ ⟨.unlock, i⟩ (access i s))
    (hunlock : ∀ i, R ⟨.unlock, i⟩ ⟨.post, i⟩ { s with bufferMutex := none })
    (hpost : ∀ i, R ⟨.post, i⟩ ⟨.test, i + 1⟩ (post s)) : R l l' s' := by
  obtain ⟨pc, i⟩ := l
  cases pc with
  | test =>
    obtain ⟨rfl, rfl⟩ := Prod.mk.inj (Option.some.inj h)
    exact htest i
  | wait =>
    obtain ⟨x, hx, heq⟩ := Option.map_eq_some_iff.mp h
    obtain ⟨rfl, rfl⟩ := Prod.mk.inj heq
    exact hwait i x hx
  | lock =>
    obtain ⟨mutex, hmutex, heq⟩ := Option.map_eq_some_iff.mp h
    obtain ⟨hfree, rfl⟩ := mutexLock_eq_some.mp hmutex
    obtain ⟨rfl, rfl⟩ := Prod.mk.inj heq
    exact hlock i hfree
  | access =>
    obtain ⟨rfl, rfl⟩ := Prod.mk.inj (Option.some.inj h)
    exact haccess i
  | unlock =>
    obtain ⟨rfl, rfl⟩ := Prod.mk.inj (Option.some.inj h)
    exact hunlock i
  | post =>
    obtain ⟨rfl, rfl⟩ := Prod.mk.inj (Option.some.inj h)
    exact hpost i
  | exited => cases h

/-- What the code of the threads does in one step. -/
theorem step_of_next {t : ThreadId producers consumers} {l l' : Local}
    {s s' : Shared (ThreadId producers consumers)}
    (h : (threads producers consumers prodStr buf).next t l s = some (l', s')) :
    Step prodStr t l s l' s' := by
  cases t with
  | inl p =>
    replace h : producer prodStr (.inl p) l s = some (l', s') := h
    unfold producer at h
    refine loop_cases (R := fun l l' s' => Step prodStr (.inl p) l s l' s') h (fun _ => .test)
      (fun i x hx => ?_) (fun _ => .lock) (fun _ => .produce) (fun _ => .unlock)
      (fun _ => .postEmpty)
    obtain ⟨sem, hsem, rfl⟩ := Option.map_eq_some_iff.mp hx
    obtain ⟨hpos, rfl⟩ := semWait_eq_some.mp hsem
    exact .waitFull hpos
  | inr c =>
    replace h : consumer prodStr (.inr c) l s = some (l', s') := h
    unfold consumer at h
    refine loop_cases (R := fun l l' s' => Step prodStr (.inr c) l s l' s') h (fun _ => .test)
      (fun i x hx => ?_) (fun _ => .lock) (fun _ => .consume) (fun _ => .unlock)
      (fun _ => .postFull)
    obtain ⟨sem, hsem, rfl⟩ := Option.map_eq_some_iff.mp hx
    obtain ⟨hpos, rfl⟩ := semWait_eq_some.mp hsem
    exact .waitEmpty hpos

/-! ### Slots and characters -/

/-- The thread is past its wait and has not used the buffer yet. -/
@[simp] def Pc.before : Pc → Nat
  | .lock | .access => 1
  | .test | .wait | .unlock | .post | .exited => 0

/-- The thread has used the buffer and has not posted yet. -/
@[simp] def Pc.after : Pc → Nat
  | .unlock | .post => 1
  | .test | .wait | .lock | .access | .exited => 0

/-- The empty slot a thread has taken from `full_sem` or has not posted yet. -/
def slots : ThreadId producers consumers → Local → Nat
  | .inl _, l => l.pc.before
  | .inr _, l => l.pc.after

/-- The character a thread has taken from `empty_sem` or has not posted yet. -/
def chars : ThreadId producers consumers → Local → Nat
  | .inl _, l => l.pc.after
  | .inr _, l => l.pc.before

/-- The state of the threads and the buffer. -/
abbrev State (producers consumers : Nat) : Type :=
  Config (ThreadId producers consumers) Local (Shared (ThreadId producers consumers))

/-- The thread is inside its critical section. -/
def Local.holdsMutex (l : Local) : Prop := l.pc = .access ∨ l.pc = .unlock

/-- Where the slots and the characters are. -/
structure Counted (s : State producers consumers) : Prop where
  slot_sum : s.shared.fullSem + s.total slots + s.shared.written.length
    = bufSize + s.shared.removed.length
  char_sum : s.shared.emptySem + s.total chars + s.shared.removed.length = s.shared.written.length

/-- A step keeps the two sums. -/
theorem Counted.step {s : State producers consumers} {t : ThreadId producers consumers}
    {l₀ l : Local} {x₀ x : Shared (ThreadId producers consumers)} (h : Counted s)
    (hl₀ : s.locals t = l₀) (hx₀ : s.shared = x₀) (hstep : Step prodStr t l₀ x₀ l x) :
    Counted (s.move t l x) := by
  have hslots := h.slot_sum
  have hchars := h.char_sum
  have hmove : (s.move t l x).total slots + _ = _ := Config.total_move
  have hmove' : (s.move t l x).total chars + _ = _ := Config.total_move
  rw [hx₀] at hslots hchars
  rw [hl₀] at hmove hmove'
  suffices hkeep : x.fullSem + slots t l + x.written.length + x₀.removed.length
        = x₀.fullSem + slots t l₀ + x₀.written.length + x.removed.length ∧
      x.emptySem + chars t l + x.removed.length + x₀.written.length
        = x₀.emptySem + chars t l₀ + x₀.removed.length + x.written.length by
    refine ⟨?_, ?_⟩
    · show x.fullSem + _ + x.written.length = bufSize + x.removed.length
      omega
    · show x.emptySem + _ + x.removed.length = x.written.length
      omega
  cases hstep with
  | test =>
    cases t <;> simp only [slots, chars] <;> split <;> simp [Pc.before, Pc.after]
  | waitFull hpos => simp [slots, chars]; omega
  | waitEmpty hpos => simp [slots, chars]; omega
  | lock hfree => cases t <;> simp [slots, chars]
  | produce => simp [slots, chars, produce]; omega
  | consume => simp [slots, chars, consume]; omega
  | unlock => cases t <;> simp [slots, chars]
  | postEmpty => simp [slots, chars]
  | postFull => simp [slots, chars]

/-! ### The buffer -/

/-- What the buffer holds: the characters written and not removed, in order,
from `head` on. -/
structure Held {ι : Type} (x : Shared ι) : Prop where
  tail : (x.buffer.tail : Nat) = x.written.length % bufSize
  head : (x.buffer.head : Nat) = x.removed.length % bufSize
  occupied : ∀ k, x.removed.length ≤ k → k < x.written.length →
    x.buffer.buf[k % bufSize]? = x.written[k]?
  removed : x.removed = x.written.take x.removed.length

namespace Held

variable {ι : Type} {x : Shared ι} {i : Nat}

theorem nextSlot_eq {j : Fin bufSize} {n : Nat} (h : (j : Nat) = n % bufSize) :
    (nextSlot j : Nat) = (n + 1) % bufSize := by
  show ((j : Nat) + 1) % bufSize = _
  rw [h, Nat.mod_add_mod]

/-- A free slot is filled. -/
theorem produce (h : Held x) (hroom : x.written.length < x.removed.length + bufSize) :
    Held (produce prodStr i x) := by
  have hlen : (BoundedBuffer.produce prodStr i x).written.length = x.written.length + 1 := by
    simp [BoundedBuffer.produce]
  refine ⟨?_, h.head, fun k hk hk' => ?_, ?_⟩
  · rw [hlen]
    exact nextSlot_eq h.tail
  · rw [hlen] at hk'
    show (x.buffer.buf.set x.buffer.tail _)[k % bufSize]? = (x.written ++ [_])[k]?
    rw [Vector.getElem?_set, h.tail]
    by_cases hlast : k = x.written.length
    · simp [hlast]
    · have hlt : k < x.written.length := by omega
      have hslot : x.written.length % bufSize ≠ k % bufSize := by
        have hk : x.removed.length ≤ k := hk
        unfold bufSize at hroom ⊢
        omega
      rw [if_neg hslot, List.getElem?_append_left hlt]
      exact h.occupied k hk hlt
  · show x.removed = (x.written ++ [_]).take x.removed.length
    have hle : x.removed.length ≤ x.written.length := by
      rw [h.removed, List.length_take]
      omega
    rw [List.take_append_of_le_length hle]
    exact h.removed

/-- The character in the slot at `head`. -/
theorem getElem_head (h : Held x) (hsome : x.removed.length < x.written.length) :
    x.written[x.removed.length]? = some (x.buffer.buf.get x.buffer.head) := by
  rw [← h.occupied _ le_rfl hsome, ← h.head]
  exact Vector.getElem?_eq_getElem x.buffer.head.isLt

/-- The slot at `head` is given up. -/
theorem consume (h : Held x) (hsome : x.removed.length < x.written.length) :
    Held (consume prodStr i x) := by
  have hlen : (BoundedBuffer.consume prodStr i x).removed.length = x.removed.length + 1 := by
    simp [BoundedBuffer.consume]
  refine ⟨h.tail, ?_, fun k hk hk' => ?_, ?_⟩
  · rw [hlen]
    exact nextSlot_eq h.head
  · rw [hlen] at hk
    exact h.occupied k (by omega) hk'
  · rw [hlen]
    show x.removed ++ [x.buffer.buf[x.buffer.head]] = x.written.take (x.removed.length + 1)
    rw [List.take_add_one, h.getElem_head hsome, ← h.removed]
    rfl

end Held

/-! ### Every reachable state -/

/-- A producer that uses the buffer finds room. -/
theorem Counted.room {s : State producers consumers} {p : Fin producers} (h : Counted s)
    (hp : (s.locals (.inl p)).pc = .access) :
    s.shared.written.length < s.shared.removed.length + bufSize := by
  have htoken : slots (.inl p) (s.locals (.inl p)) ≤ s.total slots := Config.le_total _
  have hslots := h.slot_sum
  rw [slots, hp, Pc.before] at htoken
  omega

/-- A consumer that uses the buffer finds a character. -/
theorem Counted.available {s : State producers consumers} {c : Fin consumers} (h : Counted s)
    (hc : (s.locals (.inr c)).pc = .access) :
    s.shared.removed.length < s.shared.written.length := by
  have htoken : chars (.inr c) (s.locals (.inr c)) ≤ s.total chars := Config.le_total _
  have hchars := h.char_sum
  rw [chars, hc, Pc.before] at htoken
  omega

/-- The invariant of the program. -/
structure Safe (s : State producers consumers) : Prop where
  mutex : MutexOk Local.holdsMutex s s.shared.bufferMutex
  counted : Counted s
  held : Held s.shared

/-- A step keeps the mutex with the thread in its critical section. -/
theorem mutex_step {s : State producers consumers} {t : ThreadId producers consumers}
    {l₀ l : Local} {x₀ x : Shared (ThreadId producers consumers)}
    (h : MutexOk Local.holdsMutex s x₀.bufferMutex) (hl₀ : s.locals t = l₀)
    (hstep : Step prodStr t l₀ x₀ l x) :
    MutexOk Local.holdsMutex (s.move t l x) x.bufferMutex := by
  cases hstep with
  | test =>
    refine h.keep ?_
    rw [hl₀]
    split <;> simp [Local.holdsMutex]
  | lock hfree => exact (hfree ▸ h).lock (Or.inl rfl)
  | unlock => exact h.unlock (hl₀ ▸ Or.inr rfl) (by simp [Local.holdsMutex])
  | _ => exact h.keep (by simp [hl₀, Local.holdsMutex])

/-- A step keeps what the buffer holds. -/
theorem held_step {s : State producers consumers} {t : ThreadId producers consumers}
    {l₀ l : Local} {x₀ x : Shared (ThreadId producers consumers)} (h : Held x₀)
    (hcounted : Counted s) (hl₀ : s.locals t = l₀) (hx₀ : s.shared = x₀)
    (hstep : Step prodStr t l₀ x₀ l x) : Held x := by
  cases hstep with
  | produce => exact h.produce (hx₀ ▸ hcounted.room (by rw [hl₀]))
  | consume => exact h.consume (hx₀ ▸ hcounted.available (by rw [hl₀]))
  | _ => exact ⟨h.tail, h.head, h.occupied, h.removed⟩

theorem Safe.step {s : State producers consumers} {t : ThreadId producers consumers} {l : Local}
    {x : Shared (ThreadId producers consumers)} (h : Safe s)
    (hstep : Step prodStr t (s.locals t) s.shared l x) : Safe (s.move t l x) where
  mutex := mutex_step h.mutex rfl hstep
  counted := h.counted.step rfl rfl hstep
  held := held_step h.held h.counted rfl rfl hstep

theorem safe_start :
    Safe (⟨fun _ => ⟨.test, 0⟩, start _ buf⟩ : State producers consumers) := by
  have hslots : (⟨fun _ => ⟨.test, 0⟩, start _ buf⟩ : State producers consumers).total slots = 0 :=
    Config.total_eq_zero fun t => by cases t <;> rfl
  have hchars : (⟨fun _ => ⟨.test, 0⟩, start _ buf⟩ : State producers consumers).total chars = 0 :=
    Config.total_eq_zero fun t => by cases t <;> rfl
  refine ⟨fun t => ?_, ⟨?_, ?_⟩, ?_⟩
  · simp [Local.holdsMutex, start]
  · rw [hslots]
    rfl
  · rw [hchars]
    rfl
  · exact ⟨rfl, rfl, fun k _ hk => absurd hk (Nat.not_lt_zero k), rfl⟩

theorem safe_invariant : (threads producers consumers prodStr buf).system.Invariant Safe :=
  invariant_of_next safe_start fun _ _ _ _ hs hnext => hs.step (step_of_next hnext)

/-- The thread is between its wait and its post. -/
def Pc.between (pc : Pc) : Prop := pc = .lock ∨ pc = .access ∨ pc = .unlock ∨ pc = .post

instance : DecidablePred Pc.between := fun pc => by
  unfold Pc.between
  infer_instance

/-- What holds of the bounded buffer in every reachable state. -/
structure SafeBuffer (s : State producers consumers) : Prop where
  removed_le : s.shared.removed.length ≤ s.shared.written.length
  written_le : s.shared.written.length - s.shared.removed.length ≤ bufSize
  tail : (s.shared.buffer.tail : Nat) = s.shared.written.length % bufSize
  head : (s.shared.buffer.head : Nat) = s.shared.removed.length % bufSize
  tokens : s.shared.fullSem + s.shared.emptySem +
    (Finset.univ.filter fun t => (s.locals t).pc.between).card = bufSize
  /-- What was written before to the slot a producer writes has been removed. -/
  no_overwrite : ∀ p, (s.locals (.inl p)).pc = .access →
    ∀ k < s.shared.written.length, k % bufSize = s.shared.buffer.tail → k < s.shared.removed.length
  /-- The slot a consumer removes holds the character written as many removals ago. -/
  at_head : ∀ c, (s.locals (.inr c)).pc = .access →
    s.shared.written[s.shared.removed.length]? = some s.shared.buffer.buf[s.shared.buffer.head]
  /-- The characters found at the removals are the characters written, in order. -/
  in_order : s.shared.removed = s.shared.written.take s.shared.removed.length

/-- **The bounded buffer is safe** for any number of producers and consumers,
any string and any interleaving. -/
theorem bounded_buffer_safe {s : State producers consumers}
    (hs : (threads producers consumers prodStr buf).system.Reachable s) : SafeBuffer s := by
  obtain ⟨-, hcounted, hheld⟩ := safe_invariant.holds hs
  have hslots := hcounted.slot_sum
  have hchars := hcounted.char_sum
  refine ⟨by omega, by omega, hheld.tail, hheld.head, ?_, ?_, ?_, hheld.removed⟩
  · have hcard : s.total slots + s.total chars
        = (Finset.univ.filter fun t => (s.locals t).pc.between).card := by
      rw [Config.total_add, ← Config.total_card (p := fun l : Local => l.pc.between)]
      refine Config.total_congr fun t => ?_
      obtain ⟨pc, i⟩ := s.locals t
      cases t <;> cases pc <;> simp [slots, chars, Pc.between]
    omega
  · intro p hp k hk hslot
    have hroom := hcounted.room hp
    rw [hheld.tail] at hslot
    unfold bufSize at *
    omega
  · intro c hc
    exact hheld.getElem_head (hcounted.available hc)

/-- A producer writes a character, and a consumer comes to remove it. -/
theorem bounded_buffer_safe_one :
    ∃ s, (threads 2 1 [72, 105] (.replicate _ 0)).run
        [.inl 1, .inl 0, .inl 1, .inl 1, .inl 1, .inl 1, .inl 1, .inr 0, .inr 0, .inr 0]
        ⟨fun _ => ⟨.test, 0⟩, start _ (.replicate _ 0)⟩ = some s ∧ SafeBuffer s := by
  obtain ⟨s, hs⟩ := Option.isSome_iff_exists.mp (show ((threads 2 1 [72, 105] (.replicate _ 0)).run
    [.inl 1, .inl 0, .inl 1, .inl 1, .inl 1, .inl 1, .inl 1, .inr 0, .inr 0, .inr 0]
    ⟨fun _ => ⟨.test, 0⟩, start _ (.replicate _ 0)⟩).isSome = true from rfl)
  exact ⟨s, hs, bounded_buffer_safe (reachable_run (.start rfl) hs)⟩

end Cs252.BoundedBuffer
