import Cs252.Threads.BufferSafety

/-!
# Cs252.Threads.BufferReports

What the threads of the bounded buffer announce.

`producer` prints the character it writes. `consumer` prints the character of
`prod_str` at its own counter, and does not look at the slot it gives up. The
two agree where all characters are the same, and as long as each side has a
single counter. Any third thread puts one of the counters out of step.
-/

namespace Cs252.BoundedBuffer

open Threads

variable {producers consumers : Nat} {prodStr : List UInt8} {buf : Vector UInt8 bufSize}

/-- The `k`-th character the consumers announce is the `k`-th of the producers. -/
def Reported {ι : Type} (x : Shared ι) : Prop :=
  ∀ (k : Nat) (c : UInt8), x.consumed[k]? = some c → x.written[k]? = some c

/-! ### The characters announced -/

/-- The characters a thread has announced. -/
def Local.announced (l : Local) : Nat := l.i + l.pc.after

/-- What a step announces: nothing, or a character of a producer, or one of a consumer. -/
theorem Step.announces {t : ThreadId producers consumers} {l₀ l : Local}
    {x₀ x : Shared (ThreadId producers consumers)} (hstep : Step prodStr t l₀ x₀ l x) :
    (l.announced = l₀.announced ∧ x.written = x₀.written ∧ x.removed = x₀.removed ∧
      x.consumed = x₀.consumed) ∨
    (∃ p i, t = .inl p ∧ l₀ = ⟨.access, i⟩ ∧ l = ⟨.unlock, i⟩ ∧
      x = BoundedBuffer.produce prodStr i x₀) ∨
    ∃ c i, t = .inr c ∧ l₀ = ⟨.access, i⟩ ∧ l = ⟨.unlock, i⟩ ∧
      x = BoundedBuffer.consume prodStr i x₀ := by
  cases hstep with
  | test => exact Or.inl ⟨by split <;> rfl, rfl, rfl, rfl⟩
  | @produce p i => exact Or.inr (Or.inl ⟨p, i, rfl, rfl, rfl, rfl⟩)
  | @consume c i => exact Or.inr (Or.inr ⟨c, i, rfl, rfl, rfl, rfl⟩)
  | _ => exact Or.inl ⟨rfl, rfl, rfl, rfl⟩

/-- The counter of a thread is inside of the string while it runs its loop body. -/
def Local.InBounds (prodStr : List UInt8) (l : Local) : Prop :=
  l.pc = .test ∨ l.pc = .exited ∨ l.i < prodStr.length

theorem Step.inBounds {t : ThreadId producers consumers} {l₀ l : Local}
    {x₀ x : Shared (ThreadId producers consumers)} (hstep : Step prodStr t l₀ x₀ l x)
    (h : l₀.InBounds prodStr) : l.InBounds prodStr := by
  cases hstep with
  | test =>
    split
    · next hi => exact Or.inr (Or.inr hi)
    · exact Or.inr (Or.inl rfl)
  | postEmpty => exact Or.inl rfl
  | postFull => exact Or.inl rfl
  | _ => exact Or.inr (Or.inr (by simpa [Local.InBounds] using h))

/-- The characters announced are those of the string, and the consumers announce
one for each slot they give up. -/
structure Announced (prodStr : List UInt8) (s : State producers consumers) : Prop where
  inBounds : ∀ t, (s.locals t).InBounds prodStr
  written : ∀ c ∈ s.shared.written, c ∈ prodStr
  consumed : ∀ c ∈ s.shared.consumed, c ∈ prodStr
  length : s.shared.consumed.length = s.shared.removed.length

theorem mem_concat {xs : List UInt8} {i : Nat} (h : ∀ c ∈ xs, c ∈ prodStr)
    (hi : i < prodStr.length) : ∀ c ∈ xs ++ [prodStr.getD i 0], c ∈ prodStr := by
  intro c hc
  rcases List.mem_append.mp hc with hc | hc
  · exact h c hc
  · obtain rfl := List.mem_singleton.mp hc
    rw [List.getD, List.getElem?_eq_getElem hi]
    exact List.getElem_mem hi

theorem Announced.step {s : State producers consumers} {t : ThreadId producers consumers}
    {l : Local} {x : Shared (ThreadId producers consumers)} (h : Announced prodStr s)
    (hstep : Step prodStr t (s.locals t) s.shared l x) : Announced prodStr (s.move t l x) := by
  have hbounds := h.inBounds t
  have hall : ∀ u, ((s.move t l x).locals u).InBounds prodStr :=
    Config.forall_move (P := fun _ => Local.InBounds prodStr) h.inBounds (hstep.inBounds hbounds)
  rcases hstep.announces with ⟨-, hwritten, hremoved, hconsumed⟩ | ⟨p, i, -, hl₀, -, rfl⟩ |
    ⟨c, i, -, hl₀, -, rfl⟩
  · refine ⟨hall, ?_, ?_, ?_⟩
    · rw [Config.move_shared, hwritten]
      exact h.written
    · rw [Config.move_shared, hconsumed]
      exact h.consumed
    · rw [Config.move_shared, hconsumed, hremoved]
      exact h.length
  · have hi : i < prodStr.length := by simpa [hl₀, Local.InBounds] using hbounds
    exact ⟨hall, mem_concat h.written hi, h.consumed, h.length⟩
  · have hi : i < prodStr.length := by simpa [hl₀, Local.InBounds] using hbounds
    exact ⟨hall, h.written, mem_concat h.consumed hi, by simp [consume, h.length]⟩

/-! ### A single counter -/

/-- A single producer, or a single consumer, announces the string from its
beginning. Without one, there is nothing to announce. -/
structure InStep (prodStr : List UInt8) (s : State producers consumers) : Prop where
  producer : producers = 1 → ∀ p, s.shared.written = prodStr.take (s.locals (.inl p)).announced
  consumer : consumers = 1 → ∀ c, s.shared.consumed = prodStr.take (s.locals (.inr c)).announced
  noProducer : producers = 0 → s.shared.written = []
  noConsumer : consumers = 0 → s.shared.consumed = []

theorem take_announced {i : Nat} (hi : i < prodStr.length) :
    prodStr.take i ++ [prodStr.getD i 0] = prodStr.take (i + 1) := by
  rw [List.take_add_one, List.getD, List.getElem?_eq_getElem hi]
  rfl

/-- A step that announces nothing leaves all counters. -/
theorem announced_move {s : State producers consumers} {t u : ThreadId producers consumers}
    {l : Local} {x : Shared (ThreadId producers consumers)}
    (h : l.announced = (s.locals t).announced) :
    ((s.move t l x).locals u).announced = (s.locals u).announced := by
  by_cases hu : u = t
  · rw [hu, Config.move_locals_self, h]
  · rw [Config.move_locals_of_ne hu]

theorem InStep.step {s : State producers consumers} {t : ThreadId producers consumers}
    {l : Local} {x : Shared (ThreadId producers consumers)} (h : InStep prodStr s)
    (hbounds : (s.locals t).InBounds prodStr)
    (hstep : Step prodStr t (s.locals t) s.shared l x) : InStep prodStr (s.move t l x) := by
  rcases hstep.announces with ⟨hsame, hwritten, -, hconsumed⟩ | ⟨p, i, rfl, hl₀, rfl, rfl⟩ |
    ⟨c, i, rfl, hl₀, rfl, rfl⟩
  · refine ⟨fun hone p => ?_, fun hone c => ?_, fun hzero => ?_, fun hzero => ?_⟩
    · rw [Config.move_shared, hwritten, announced_move hsame]
      exact h.producer hone p
    · rw [Config.move_shared, hconsumed, announced_move hsame]
      exact h.consumer hone c
    · rw [Config.move_shared, hwritten]
      exact h.noProducer hzero
    · rw [Config.move_shared, hconsumed]
      exact h.noConsumer hzero
  · refine ⟨fun hone q => ?_, fun hone c => ?_, fun hzero => ?_, h.noConsumer⟩
    · obtain rfl : q = p := by
        subst hone
        exact Subsingleton.elim q p
      have hi : i < prodStr.length := by simpa [hl₀, Local.InBounds] using hbounds
      have hlog := h.producer hone q
      rw [hl₀] at hlog
      rw [Config.move_locals_self]
      show s.shared.written ++ [_] = _
      rw [hlog]
      exact take_announced hi
    · rw [Config.move_locals_of_ne Sum.inr_ne_inl]
      exact h.consumer hone c
    · exact (Fin.cast hzero p).elim0
  · refine ⟨fun hone p => ?_, fun hone d => ?_, h.noProducer, fun hzero => ?_⟩
    · rw [Config.move_locals_of_ne Sum.inl_ne_inr]
      exact h.producer hone p
    · obtain rfl : d = c := by
        subst hone
        exact Subsingleton.elim d c
      have hi : i < prodStr.length := by simpa [hl₀, Local.InBounds] using hbounds
      have hlog := h.consumer hone d
      rw [hl₀] at hlog
      rw [Config.move_locals_self]
      show s.shared.consumed ++ [_] = _
      rw [hlog]
      exact take_announced hi
    · exact (Fin.cast hzero c).elim0

theorem announced_invariant :
    (threads producers consumers prodStr buf).system.Invariant
      fun s => Announced prodStr s ∧ InStep prodStr s := by
  refine invariant_of_next ⟨?_, ?_⟩ fun s t l x hs hnext => ?_
  · exact ⟨fun _ => Or.inl rfl, by simp [threads, start], by simp [threads, start], rfl⟩
  · exact ⟨fun _ _ => rfl, fun _ _ => rfl, fun _ => rfl, fun _ => rfl⟩
  · have hstep := step_of_next hnext
    exact ⟨hs.1.step hstep, hs.2.step (hs.1.inBounds t) hstep⟩

/-- The reports are right with a single counter on each side, or with one
character only. -/
theorem reported_of {s : State producers consumers}
    (hs : (threads producers consumers prodStr buf).system.Reachable s)
    (h : producers = 0 ∨ consumers = 0 ∨ (producers = 1 ∧ consumers = 1) ∨
      ∀ c ∈ prodStr, ∀ d ∈ prodStr, c = d) : Reported s.shared := by
  obtain ⟨hannounced, hinStep⟩ := announced_invariant.holds hs
  have hle : s.shared.consumed.length ≤ s.shared.written.length := by
    have hchars := (safe_invariant.holds hs).counted.char_sum
    rw [hannounced.length]
    omega
  intro k c hk
  have hlt : k < s.shared.consumed.length := (List.getElem?_eq_some_iff.mp hk).1
  rcases h with hzero | hzero | ⟨hone, hone'⟩ | hsame
  · rw [hinStep.noProducer hzero, List.length_nil] at hle
    omega
  · rw [hinStep.noConsumer hzero, List.length_nil] at hlt
    omega
  · subst hone hone'
    have hwritten := hinStep.producer rfl 0
    have hconsumed := hinStep.consumer rfl 0
    have hprefix : s.shared.consumed <+: s.shared.written := by
      refine List.prefix_of_prefix_length_le (?_ : _ <+: prodStr) ?_ hle
      · rw [hconsumed]
        exact List.take_prefix _ _
      · rw [hwritten]
        exact List.take_prefix _ _
    obtain ⟨rest, hrest⟩ := hprefix
    rw [← hrest, List.getElem?_append_left hlt]
    exact hk
  · have hlt' : k < s.shared.written.length := Nat.lt_of_lt_of_le hlt hle
    rw [List.getElem?_eq_getElem hlt', Option.some.injEq]
    exact hsame _ (hannounced.written _ (List.getElem_mem hlt')) _
      (hannounced.consumed _ (List.mem_of_getElem? hk))

/-! ### A second counter -/

section Rounds

variable {x : Shared (ThreadId producers consumers)} {p : Fin producers} {c : Fin consumers}
  {i k : Nat}

/-- A producer runs its loop once, on its own. -/
theorem alone_producer (hi : i < prodStr.length) (hfull : 0 < x.fullSem)
    (hmutex : x.bufferMutex = none) :
    (threads producers consumers prodStr buf).Alone (.inl p) ⟨.test, i⟩ x ⟨.test, i + 1⟩
      { x with
        buffer := x.buffer.write (prodStr.getD i 0)
        bufferMutex := none
        emptySem := x.emptySem + 1
        fullSem := x.fullSem - 1
        written := x.written ++ [prodStr.getD i 0] } := by
  have htest : (if i < prodStr.length then Pc.wait else .exited) = .wait := if_pos hi
  have hwait : (threads producers consumers prodStr buf).next (.inl p) ⟨.wait, i⟩ x =
      some (⟨.lock, i⟩, { x with fullSem := x.fullSem - 1 }) := by
    simp [threads, producer, loop, semWait, hfull]
  have hlock : (threads producers consumers prodStr buf).next (.inl p) ⟨.lock, i⟩
      { x with fullSem := x.fullSem - 1 } = some (⟨.access, i⟩,
        { x with fullSem := x.fullSem - 1, bufferMutex := some (.inl p) }) := by
    simp [threads, producer, loop, mutexLock, hmutex]
  refine .step rfl ?_
  rw [htest]
  exact .step hwait (.step hlock (.step rfl (.step rfl (.step rfl .refl))))

/-- A consumer runs its loop once, on its own. -/
theorem alone_consumer (hk : k < prodStr.length) (hempty : 0 < x.emptySem)
    (hmutex : x.bufferMutex = none) :
    (threads producers consumers prodStr buf).Alone (.inr c) ⟨.test, k⟩ x ⟨.test, k + 1⟩
      { x with
        buffer := x.buffer.remove
        bufferMutex := none
        emptySem := x.emptySem - 1
        fullSem := x.fullSem + 1
        removed := x.removed ++ [x.buffer.buf[x.buffer.head]]
        consumed := x.consumed ++ [prodStr.getD k 0] } := by
  have htest : (if k < prodStr.length then Pc.wait else .exited) = .wait := if_pos hk
  have hwait : (threads producers consumers prodStr buf).next (.inr c) ⟨.wait, k⟩ x =
      some (⟨.lock, k⟩, { x with emptySem := x.emptySem - 1 }) := by
    simp [threads, consumer, loop, semWait, hempty]
  have hlock : (threads producers consumers prodStr buf).next (.inr c) ⟨.lock, k⟩
      { x with emptySem := x.emptySem - 1 } = some (⟨.access, k⟩,
        { x with emptySem := x.emptySem - 1, bufferMutex := some (.inr c) }) := by
    simp [threads, consumer, loop, mutexLock, hmutex]
  refine .step rfl ?_
  rw [htest]
  exact .step hwait (.step hlock (.step rfl (.step rfl (.step rfl .refl))))

/-- No thread is inside of its loop body. The counters of the threads, and what
they have announced. -/
structure AtRest (s : State producers consumers) (counters : ThreadId producers consumers → Nat)
    (written consumed : List UInt8) : Prop where
  locals : s.locals = fun t => ⟨.test, counters t⟩
  bufferMutex : s.shared.bufferMutex = none
  fullSem : s.shared.fullSem = bufSize
  written : s.shared.written = written
  consumed : s.shared.consumed = consumed

/-- A producer and a consumer run their loops once, one after the other. -/
theorem exchange {s : State producers consumers} {counters : ThreadId producers consumers → Nat}
    {written consumed : List UInt8}
    (hs : (threads producers consumers prodStr buf).system.Reachable s)
    (h : AtRest s counters written consumed) (hp : counters (.inl p) < prodStr.length)
    (hc : counters (.inr c) < prodStr.length) :
    ∃ s', (threads producers consumers prodStr buf).system.Reachable s' ∧
      AtRest s' (fun t => if t = .inl p ∨ t = .inr c then counters t + 1 else counters t)
        (written ++ [prodStr.getD (counters (.inl p)) 0])
        (consumed ++ [prodStr.getD (counters (.inr c)) 0]) := by
  have hroom : 0 < s.shared.fullSem := by
    rw [h.fullSem]
    decide
  have hs₁ := Config.reachable_alone hs (by
    rw [h.locals]
    exact alone_producer (p := p) hp hroom h.bufferMutex)
  have hs₂ := Config.reachable_alone (t := .inr c) hs₁ (by
    rw [Config.move_locals_of_ne Sum.inr_ne_inl, h.locals]
    exact alone_consumer hc (Nat.succ_pos _) rfl)
  refine ⟨_, hs₂, ?_, rfl, ?_, ?_, ?_⟩
  · funext t
    by_cases htc : t = .inr c
    · rw [htc, Config.move_locals_self, if_pos (Or.inr rfl)]
    · rw [Config.move_locals_of_ne htc]
      by_cases htp : t = .inl p
      · rw [htp, Config.move_locals_self, if_pos (Or.inl rfl)]
      · rw [Config.move_locals_of_ne htp, h.locals, if_neg (by simp [htp, htc])]
  · simp only [Config.move_shared]
    have := h.fullSem
    omega
  · simp [h.written]
  · simp [h.consumed]

/-- The same producer and consumer, time after time. -/
theorem exchanges (buf : Vector UInt8 bufSize) (p : Fin producers) (c : Fin consumers) {n : Nat}
    (hn : n ≤ prodStr.length) :
    ∃ s, (threads producers consumers prodStr buf).system.Reachable s ∧
      AtRest s (fun t => if t = .inl p ∨ t = .inr c then n else 0) (prodStr.take n)
        (prodStr.take n) := by
  induction n with
  | zero => exact ⟨_, .start rfl, by simp [threads], rfl, rfl, rfl, rfl⟩
  | succ n ih =>
    obtain ⟨s, hs, hrest⟩ := ih (Nat.le_of_succ_le hn)
    obtain ⟨s', hs', hrest'⟩ := exchange (p := p) (c := c) hs hrest
      (by simpa using Nat.lt_of_succ_le hn) (by simpa using Nat.lt_of_succ_le hn)
    have hcounters : (fun t => if t = .inl p ∨ t = .inr c then
        (if t = .inl p ∨ t = .inr c then n else 0) + 1 else
        if t = .inl p ∨ t = .inr c then n else 0) =
        fun t : ThreadId producers consumers => if t = .inl p ∨ t = .inr c then n + 1 else 0 := by
      funext t
      split <;> rfl
    simp only [true_or, or_true, if_true, take_announced hn] at hrest'
    exact ⟨s', hs', hcounters ▸ hrest'⟩

/-- The first character of the string is announced on one side, and the `j`-th
on the other. -/
theorem not_reported {s : State producers consumers}
    {counters : ThreadId producers consumers → Nat} {j i k : Nat}
    (h : AtRest s counters (prodStr.take j ++ [prodStr.getD i 0])
      (prodStr.take j ++ [prodStr.getD k 0])) (hj : j ≤ prodStr.length)
    (hreported : Reported s.shared) : prodStr.getD i 0 = prodStr.getD k 0 := by
  have hlast := hreported j (prodStr.getD k 0)
  have hlength : (prodStr.take j).length = j := List.length_take_of_le hj
  rw [h.consumed, h.written] at hlast
  rw [List.getElem?_append_right (Nat.le_of_eq hlength),
    List.getElem?_append_right (Nat.le_of_eq hlength), hlength, Nat.sub_self] at hlast
  exact Option.some.inj (hlast rfl)

end Rounds

/-- A character that is not the first one. -/
theorem exists_ne_first {d e : UInt8} (hd : d ∈ prodStr) (he : e ∈ prodStr) (hne : d ≠ e) :
    ∃ j < prodStr.length, prodStr.getD j 0 ≠ prodStr.getD 0 0 := by
  obtain ⟨j, hj, rfl⟩ := List.mem_iff_getElem.mp hd
  obtain ⟨k, hk, rfl⟩ := List.mem_iff_getElem.mp he
  by_cases hfirst : prodStr[j] = prodStr.getD 0 0
  · refine ⟨k, hk, ?_⟩
    rw [List.getD, List.getElem?_eq_getElem hk, Option.getD_some, ← hfirst]
    exact hne.symm
  · refine ⟨j, hj, ?_⟩
    rwa [List.getD, List.getElem?_eq_getElem hj, Option.getD_some]

/-- **The consumers announce what the producers announced**, in the same order
and under every interleaving, exactly if there is no consumer or no producer, or
one of each, or only one character to announce. -/
theorem reported_iff :
    (∀ buf s, (threads producers consumers prodStr buf).system.Reachable s → Reported s.shared) ↔
      producers = 0 ∨ consumers = 0 ∨ (producers = 1 ∧ consumers = 1) ∨
        ∀ c ∈ prodStr, ∀ d ∈ prodStr, c = d := by
  constructor
  · intro h
    by_contra hnot
    simp only [not_or, not_and, not_forall] at hnot
    obtain ⟨hp, hc, hmany, d, hd, e, he, hne⟩ := hnot
    obtain ⟨j, hj, hfirst⟩ := exists_ne_first hd he hne
    let p : Fin producers := ⟨0, Nat.pos_of_ne_zero hp⟩
    let c : Fin consumers := ⟨0, Nat.pos_of_ne_zero hc⟩
    obtain ⟨s, hs, hrest⟩ := exchanges (.replicate _ 0) p c (Nat.le_of_lt hj)
    have hstart : 0 < prodStr.length := Nat.zero_lt_of_lt hj
    by_cases hone : consumers = 1
    · -- a second producer
      have htwo : 1 < producers := by omega
      have hother : (⟨1, htwo⟩ : Fin producers) ≠ p := by simp [p, Fin.ext_iff]
      obtain ⟨s', hs', hrest'⟩ := exchange (p := ⟨1, htwo⟩) (c := c) hs hrest
        (by simpa [hother] using hstart) (by simpa using hj)
      simp only [Sum.inl.injEq, hother, reduceCtorEq, or_false, or_true, if_false, if_true] at hrest'
      exact hfirst (not_reported hrest' (Nat.le_of_lt hj) (h _ _ hs')).symm
    · have htwo : 1 < consumers := by omega
      have hother : (⟨1, htwo⟩ : Fin consumers) ≠ c := by simp [c, Fin.ext_iff]
      obtain ⟨s', hs', hrest'⟩ := exchange (p := p) (c := ⟨1, htwo⟩) hs hrest
        (by simpa using hj) (by simpa [hother] using hstart)
      simp only [Sum.inr.injEq, hother, reduceCtorEq, or_false, if_false, if_true] at hrest'
      exact hfirst (not_reported hrest' (Nat.le_of_lt hj) (h _ _ hs'))
  · intro h buf s hs
    exact reported_of hs h

/-- Two producers write "H" each, and the consumer announces "Hi". -/
theorem hi_announced :
    ∃ s, (threads 2 1 [72, 105] (.replicate _ 0)).system.Reachable s ∧
      s.shared.written = [72, 72] ∧ s.shared.consumed = [72, 105] ∧ ¬Reported s.shared := by
  let schedule : List (ThreadId 2 1) :=
    .replicate 6 (.inl 0) ++ .replicate 6 (.inl 1) ++ .replicate 10 (.inr 0)
  have hlast : ((threads 2 1 [72, 105] (.replicate _ 0)).run schedule
      ⟨fun _ => ⟨.test, 0⟩, start _ (.replicate _ 0)⟩).map
      (fun s => (s.shared.written, s.shared.consumed)) = some ([72, 72], [72, 105]) := rfl
  obtain ⟨s, hs, hlogs⟩ := Option.map_eq_some_iff.mp hlast
  obtain ⟨hwritten, hconsumed⟩ := Prod.mk.inj hlogs
  refine ⟨s, reachable_run (.start rfl) hs, hwritten, hconsumed, fun h => ?_⟩
  have hsecond := h 1 105
  rw [hwritten, hconsumed] at hsecond
  exact absurd (hsecond rfl) (by decide)

end Cs252.BoundedBuffer
