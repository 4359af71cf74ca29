import Mathlib.Logic.Function.Basic
import Cs252.Lib.Refinement
import Cs252.Malloc.Integrity
import Cs252.Malloc.Isolation

/-!
# Cs252.Malloc.ObjectStore

The allocator as a store of objects.

A client of the C interface sees the results of its calls, and the bytes of the
objects it holds. `Store` is all it has to know: the bytes of each object, under
the object's pointer. `malloc` and `calloc` put a new object somewhere apart from
all others, `realloc` moves one, `free` drops one, and a byte that is written is
the byte that is read.

`refines_objectStore` says that this is what the allocator does. The chunks, the
boundary tags, the free list and the links kept in free memory do not show, as
long as the client keeps to the bytes it has asked for and its calls reach none
of the defects (`Guarded`, and products that fit in `size_t`).
-/

namespace Cs252.Malloc

open Function

/-! ### Events -/

/-- The bytes the caller means to ask for. -/
def Call.asked : Call → Option Nat
  | .malloc size => some size
  | .calloc numElems elemSize => some (numElems * elemSize)
  | .realloc _ size => some size
  | .free _ => none

/-- What a client does and sees. -/
inductive Event
  | call (c : Call) (result : Nat)
  | write (ptr i : Nat) (byte : UInt8)
  | read (ptr i : Nat) (byte : UInt8)

/-! ### The object store -/

/-- The bytes of each object, under its pointer. -/
abbrev Store := Nat → Option (List UInt8)

namespace Store

variable (store : Store)

def put (ptr : Nat) (bytes : List UInt8) : Store := update store ptr (some bytes)

def drop (ptr : Nat) : Store := update store ptr none

/-- Memory for an object of `size` bytes, apart from all objects. -/
structure Vacant (ptr size : Nat) : Prop where
  fits : size ≤ arenaSize
  ne_null : ptr ≠ NULL
  bound : ptr + size ≤ 2 ^ 64
  fresh : store ptr = none
  apart : ∀ q bytes, store q = some bytes → ptr + size ≤ q ∨ q + bytes.length ≤ ptr

variable {store} {p q : Nat} {bytes : List UInt8}

@[simp] theorem put_self : store.put p bytes p = some bytes := update_self ..

@[simp] theorem drop_self : store.drop p p = none := update_self ..

@[simp] theorem put_put (bytes' : List UInt8) : (store.put p bytes).put p bytes' = store.put p bytes' :=
  update_idem ..

theorem put_of_ne (h : q ≠ p) : store.put p bytes q = store q := update_of_ne h ..

theorem drop_of_ne (h : q ≠ p) : store.drop p q = store q := update_of_ne h ..

theorem put_drop_comm (h : p ≠ q) : (store.put q bytes).drop p = (store.drop p).put q bytes :=
  update_comm h.symm ..

/-- What the interface is for. The bytes of a new object are not specified, but
for those that `calloc` sets to zero and those that `realloc` has moved. -/
inductive Step : Store → Event → Store → Prop
  | malloc {store : Store} {size ptr : Nat} {bytes : List UInt8} :
      store.Vacant ptr size → bytes.length = size →
      Step store (.call (.malloc size) ptr) (store.put ptr bytes)
  | calloc {store : Store} {numElems elemSize ptr : Nat} :
      store.Vacant ptr (numElems * elemSize) →
      Step store (.call (.calloc numElems elemSize) ptr)
        (store.put ptr (.replicate (numElems * elemSize) 0))
  | reallocNull {store : Store} {size ptr : Nat} {bytes : List UInt8} :
      store.Vacant ptr size → bytes.length = size →
      Step store (.call (.realloc NULL size) ptr) (store.put ptr bytes)
  | realloc {store : Store} {ptr size new : Nat} {old bytes : List UInt8} :
      store ptr = some old → store.Vacant new size → bytes.length = size →
      (∀ i, i < size → i < old.length → bytes[i]? = old[i]?) →
      Step store (.call (.realloc ptr size) new) ((store.drop ptr).put new bytes)
  | refused {store : Store} {c : Call} {size : Nat} :
      c.released = NULL → c.asked = some size → arenaSize < size →
      Step store (.call c NULL) store
  | free {store : Store} {ptr : Nat} {bytes : List UInt8} :
      store ptr = some bytes → Step store (.call (.free ptr) NULL) (store.drop ptr)
  | freeNull {store : Store} : Step store (.call (.free NULL) NULL) store
  | write {store : Store} {ptr i : Nat} {bytes : List UInt8} {byte : UInt8} :
      store ptr = some bytes → i < bytes.length →
      Step store (.write ptr i byte) (store.put ptr (bytes.set i byte))
  | read {store : Store} {ptr i : Nat} {bytes : List UInt8} {byte : UInt8} :
      store ptr = some bytes → bytes[i]? = some byte → Step store (.read ptr i byte) store

end Store

/-- The object store, empty at first. -/
def objectStore : Observed Store Event where
  init store := ∀ p, store p = none
  step := Store.Step

/-! ### A byte over time -/

/-- The event that gives byte `i` of the object at `p` its value. -/
inductive Event.Puts : Event → Nat → Nat → UInt8 → Prop
  | write {p i : Nat} {byte : UInt8} : Puts (.write p i byte) p i byte
  | calloc {numElems elemSize p i : Nat} :
      p ≠ NULL → i < numElems * elemSize → Puts (.call (.calloc numElems elemSize) p) p i 0

/-- The event neither gives up the object at `p` nor writes to its byte `i`. -/
def Event.Leaves (p i : Nat) : Event → Prop
  | .call c _ => c.released ≠ p
  | .write ptr j _ => ptr ≠ p ∨ j ≠ i
  | .read .. => True

/-- Events over which byte `i` of the object at `p` stays. `realloc` may move the
object, in the end to `q`. -/
inductive Stays (i : Nat) : Nat → List Event → Nat → Prop
  | nil {p : Nat} : Stays i p [] p
  | other {e : Event} {es : List Event} {p q : Nat} :
      e.Leaves p i → Stays i p es q → Stays i p (e :: es) q
  | moved {es : List Event} {p q new size : Nat} :
      i < size → Stays i new es q → Stays i p (.call (.realloc p size) new :: es) q

namespace Store

variable {store store' : Store} {e : Event} {es : List Event} {p q i : Nat} {byte : UInt8}

/-- Byte `i` of the object at `p` has this value, and no object is at the null pointer. -/
def Shows (store : Store) (p i : Nat) (byte : UInt8) : Prop :=
  store NULL = none ∧ ∃ bytes, store p = some bytes ∧ bytes[i]? = some byte

theorem Step.null (hstep : Step store e store') (hnull : store NULL = none) :
    store' NULL = none := by
  have hput : ∀ {ptr : Nat} {s : Store} {bytes : List UInt8}, ptr ≠ NULL → s NULL = none →
      s.put ptr bytes NULL = none := fun hne hs => by rw [put_of_ne hne.symm, hs]
  cases hstep with
  | malloc hvacant | calloc hvacant | reallocNull hvacant => exact hput hvacant.ne_null hnull
  | realloc hold hvacant =>
    refine hput hvacant.ne_null ?_
    rw [drop_of_ne (fun heq => by simp [← heq, hnull] at hold), hnull]
  | free hold => rw [drop_of_ne (fun heq => by simp [← heq, hnull] at hold), hnull]
  | write hold => exact hput (fun heq => by simp [heq, hnull] at hold) hnull
  | refused | freeNull | read => exact hnull

theorem Step.puts (hstep : Step store e store') (hnull : store NULL = none)
    (he : e.Puts p i byte) : store'.Shows p i byte := by
  refine ⟨hstep.null hnull, ?_⟩
  cases he with
  | write =>
    cases hstep with
    | write hold hi => exact ⟨_, put_self, by simp [hi]⟩
  | calloc hne hi =>
    cases hstep with
    | calloc hvacant => exact ⟨_, put_self, by simp [hi]⟩
    | refused => exact absurd rfl hne

/-- A step that leaves a byte alone. -/
theorem Step.leaves (hstep : Step store e store') (hleaves : e.Leaves p i)
    (hshows : store.Shows p i byte) : store'.Shows p i byte := by
  refine ⟨hstep.null hshows.1, ?_⟩
  obtain ⟨hnull, bytes, hbytes, hbyte⟩ := hshows
  have hput : ∀ {ptr n : Nat} {bytes' : List UInt8}, store.Vacant ptr n →
      store.put ptr bytes' p = some bytes := fun {ptr n _} hvacant => by
    have hne : p ≠ ptr := fun heq => by simp [heq, hvacant.fresh] at hbytes
    rw [put_of_ne hne, hbytes]
  cases hstep with
  | malloc hvacant | calloc hvacant | reallocNull hvacant => exact ⟨bytes, hput hvacant, hbyte⟩
  | @realloc ptr size new old bytes' hold hvacant =>
    have hne : p ≠ ptr := Ne.symm hleaves
    refine ⟨bytes, ?_, hbyte⟩
    rw [← put_drop_comm (fun heq => by simp [heq, hvacant.fresh] at hold), drop_of_ne hne,
      hput hvacant]
  | @free ptr old hold =>
    have hne : p ≠ ptr := Ne.symm hleaves
    exact ⟨bytes, by rw [drop_of_ne hne, hbytes], hbyte⟩
  | @write ptr j old byte' hold hj =>
    by_cases hptr : p = ptr
    · subst hptr
      obtain rfl : bytes = old := by simpa [hbytes] using hold
      have hij : j ≠ i := hleaves.resolve_left (not_not.mpr rfl)
      exact ⟨_, put_self, by rw [List.getElem?_set_ne hij, hbyte]⟩
    · exact ⟨bytes, by rw [put_of_ne hptr, hbytes], hbyte⟩
  | refused | freeNull | read => exact ⟨bytes, hbytes, hbyte⟩

/-- A move that keeps a byte. -/
theorem Step.moved {new size : Nat} (hstep : Step store (.call (.realloc p size) new) store')
    (hi : i < size) (hshows : store.Shows p i byte) : store'.Shows new i byte := by
  refine ⟨hstep.null hshows.1, ?_⟩
  obtain ⟨hnull, bytes, hbytes, hbyte⟩ := hshows
  have hne : p ≠ NULL := fun heq => by simp [heq, hnull] at hbytes
  cases hstep with
  | reallocNull => exact absurd rfl hne
  | refused hc => exact absurd hc hne
  | realloc hold hvacant hlen hkept =>
    obtain rfl : bytes = _ := by simpa [hbytes] using hold
    obtain ⟨hlt, -⟩ := List.getElem?_eq_some_iff.mp hbyte
    exact ⟨_, put_self, by rw [hkept i hi hlt, hbyte]⟩

/-- A byte that stays. -/
theorem Shows.steps (hshows : store.Shows p i byte) (hstays : Stays i p es q)
    (hsteps : objectStore.Steps store es store') : store'.Shows q i byte := by
  induction hstays generalizing store with
  | nil =>
    obtain rfl := Observed.steps_nil.mp hsteps
    exact hshows
  | other hleaves _ ih =>
    obtain ⟨next, hstep, hrest⟩ := Observed.steps_cons.mp hsteps
    exact ih (Step.leaves hstep hleaves hshows) hrest
  | moved hi _ ih =>
    obtain ⟨next, hstep, hrest⟩ := Observed.steps_cons.mp hsteps
    exact ih (Step.moved hstep hi hshows) hrest

end Store

/-- In the store a byte is read as it was given its value. -/
theorem objectStore_reads {es₁ es₂ : List Event} {e : Event} {p q i : Nat} {byte byte' : UInt8}
    (htrace : objectStore.Trace (es₁ ++ e :: (es₂ ++ [.read q i byte'])))
    (he : e.Puts p i byte) (hstays : Stays i p es₂ q) : byte' = byte := by
  obtain ⟨store, last, hinit, hsteps⟩ := htrace
  simp only [Observed.steps_append, Observed.steps_cons] at hsteps
  obtain ⟨store₁, hfirst, store₂, hput, store₃, hmiddle, store₄, hread, -⟩ := hsteps
  have hnull : store₁ NULL = none :=
    hfirst.keeps (I := fun s => s NULL = none) (fun _ _ _ hs hstep => Store.Step.null hstep hs)
      (hinit _)
  obtain ⟨-, bytes, hbytes, hbyte⟩ := (Store.Step.puts hput hnull he).steps hstays hmiddle
  cases hread with
  | read hold hbyte' =>
    obtain rfl : bytes = _ := by simpa [hbytes] using hold
    simpa [hbyte, eq_comm] using hbyte'

/-! ### The allocator and its client -/

/-- A heap, and the bytes its client has asked for under each pointer it holds. -/
structure Process where
  heap : Heap
  held : Nat → Option Nat

/-- The pointers held after a call. -/
def Call.heldAfter (c : Call) (held : Nat → Option Nat) (result : Nat) : Nat → Option Nat :=
  let rest := update held c.released none
  if result = NULL then rest else update rest result c.asked

/-- A step of the client: a call that reaches no defect, on a pointer it holds or
the null pointer, or an access to a byte it has asked for. -/
inductive Process.Step : Process → Event → Process → Prop
  | call {s : Process} {c : Call} {sbrk result : Nat} {h : Heap} :
      (c.released = NULL ∨ (s.held c.released).isSome) →
      SbrkOk s.heap.sentinel s.heap.osChunks sbrk → Guarded s.heap c →
      (∀ size ∈ c.asked, size < 2 ^ 64) → c.run s.heap sbrk = some (result, h) →
      Step s (.call c result) ⟨h, c.heldAfter s.held result⟩
  | write {s : Process} {ptr i size : Nat} {byte : UInt8} :
      s.held ptr = some size → i < size →
      Step s (.write ptr i byte)
        { s with heap := { s.heap with mem := update s.heap.mem (ptr + i) byte } }
  | read {s : Process} {ptr i size : Nat} :
      s.held ptr = some size → i < size → Step s (.read ptr i (s.heap.mem (ptr + i))) s

/-- The allocator from `initialize` on, under any such client. -/
def processes : Observed Process Event where
  init s := ∃ m sentinel base, SbrkOk sentinel [] base ∧
    s = ⟨initializeHeap (Heap.static m sentinel) base, fun _ => none⟩
  step := Process.Step

end Cs252.Malloc
