import Cs252.Lib.Interleaving

/-!
# Cs252.Threads.BoundedBuffer

The bounded buffer of `lab4-src/part1.c`, with any number of producer and
consumer threads.

The threads run the loops of `producer` and `consumer`. Both have the same
shape: test the loop condition, wait on one semaphore, lock the mutex, use the
buffer, unlock the mutex, post the other semaphore. Each of these is one atomic
step.

The shared state also records the characters written to the buffer, the
characters found in the slots that `consumer` gives up, and what it prints.
-/

namespace Cs252.BoundedBuffer

/-! ### The buffer -/

/-- `BUF_SIZE`. -/
def bufSize : Nat := 32

/-- The slot after `i`: `(i + 1) % BUF_SIZE`. -/
def nextSlot (i : Fin bufSize) : Fin bufSize := ⟨(i + 1) % bufSize, Nat.mod_lt _ (by decide)⟩

/-- `bounded_buffer`. -/
structure Buffer where
  buf : Vector UInt8 bufSize
  head : Fin bufSize
  tail : Fin bufSize

/-- `buffer.buf[buffer.tail] = c`, and `tail` moves on. -/
def Buffer.write (b : Buffer) (c : UInt8) : Buffer where
  buf := b.buf.set b.tail c
  head := b.head
  tail := nextSlot b.tail

/-- `head` moves on. -/
def Buffer.remove (b : Buffer) : Buffer where
  buf := b.buf
  head := nextSlot b.head
  tail := b.tail

/-! ### The threads -/

/-- The producers and the consumers. -/
abbrev ThreadId (producers consumers : Nat) : Type := Fin producers ⊕ Fin consumers

/-- The next atomic step of a thread. -/
inductive Pc
  | test
  | wait
  | lock
  | access
  | unlock
  | post
  | exited
  deriving Repr, DecidableEq

/-- The program counter of a thread, and its loop variable. -/
structure Local where
  pc : Pc
  i : Nat
  deriving Repr, DecidableEq

/-- The shared variables, and the history. -/
structure Shared (ι : Type) where
  buffer : Buffer
  bufferMutex : Option ι
  emptySem : Nat
  fullSem : Nat
  /-- The characters written to the buffer. -/
  written : List UInt8
  /-- The characters found at `head` when it moves on. -/
  removed : List UInt8
  /-- The characters `consumer` prints. -/
  consumed : List UInt8

/-- `sem_wait`: blocks at 0. -/
def semWait (sem : Nat) : Option Nat := if 0 < sem then some (sem - 1) else none

theorem semWait_eq_some {n m : Nat} : semWait n = some m ↔ 0 < n ∧ n - 1 = m := by
  unfold semWait
  split <;> simp [*]

/-- `pthread_mutex_lock`: blocks while the mutex is held. -/
def mutexLock {ι : Type} (tid : ι) (mutex : Option ι) : Option (Option ι) :=
  match mutex with
  | none => some (some tid)
  | some _ => none

section Step

variable {ι : Type} (prodStr : List UInt8) (tid : ι)

/-- The loop of `producer` and `consumer`, by what they wait for, what they do
with the buffer and what they post. -/
def loop (wait : Shared ι → Option (Shared ι)) (access : Nat → Shared ι → Shared ι)
    (post : Shared ι → Shared ι) (l : Local) (s : Shared ι) : Option (Local × Shared ι) :=
  match l.pc with
  | .test => some ({ l with pc := if l.i < prodStr.length then .wait else .exited }, s)
  | .wait => (wait s).map fun s => ({ l with pc := .lock }, s)
  | .lock => (mutexLock tid s.bufferMutex).map fun mutex =>
      ({ l with pc := .access }, { s with bufferMutex := mutex })
  | .access => some ({ l with pc := .unlock }, access l.i s)
  | .unlock => some ({ l with pc := .post }, { s with bufferMutex := none })
  | .post => some (⟨.test, l.i + 1⟩, post s)
  | .exited => none

/-- The use of the buffer in `producer`: add `prod_str[i]`. -/
def produce (i : Nat) (s : Shared ι) : Shared ι :=
  let c := prodStr.getD i 0
  { s with buffer := s.buffer.write c, written := s.written ++ [c] }

/-- The use of the buffer in `consumer`: print `prod_str[i]` and give up the
slot at `head`. -/
def consume (i : Nat) (s : Shared ι) : Shared ι :=
  { s with
    buffer := s.buffer.remove
    removed := s.removed ++ [s.buffer.buf[s.buffer.head]]
    consumed := s.consumed ++ [prodStr.getD i 0] }

/-- `producer`. -/
def producer : Local → Shared ι → Option (Local × Shared ι) :=
  loop prodStr tid
    (fun s => (semWait s.fullSem).map fun sem => { s with fullSem := sem })
    (produce prodStr)
    (fun s => { s with emptySem := s.emptySem + 1 })

/-- `consumer`. -/
def consumer : Local → Shared ι → Option (Local × Shared ι) :=
  loop prodStr tid
    (fun s => (semWait s.emptySem).map fun sem => { s with emptySem := sem })
    (consume prodStr)
    (fun s => { s with fullSem := s.fullSem + 1 })

end Step

/-- The shared state after the initialization in `main`; the slots hold `buf`. -/
def start (ι : Type) (buf : Vector UInt8 bufSize) : Shared ι where
  buffer := ⟨buf, ⟨0, by decide⟩, ⟨0, by decide⟩⟩
  bufferMutex := none
  emptySem := 0
  fullSem := bufSize
  written := []
  removed := []
  consumed := []

/-- The threads `main` starts. -/
def threads (producers consumers : Nat) (prodStr : List UInt8) (buf : Vector UInt8 bufSize) :
    Threads (ThreadId producers consumers) Local (Shared (ThreadId producers consumers)) where
  start _ := ⟨.test, 0⟩
  shared := start _ buf
  next
    | .inl p => producer prodStr (.inl p)
    | .inr c => consumer prodStr (.inr c)

end Cs252.BoundedBuffer
