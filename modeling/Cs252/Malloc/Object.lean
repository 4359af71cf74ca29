import Cs252.Lib.ByteMem

/-!
# Cs252.Malloc.Object

Headers and footers of allocator objects (`MyMalloc.h`), as bytes in memory.

On a 64-bit target `object_header` has `object_size` at offset 0, the 4-byte
`status` at 8 and the links `next` and `prev` at 16 and 24. `object_footer`
has the same first two fields at the same offsets, so headers and footers
share the accessors `sizeAt` and `statusAt`.

Pointers are numbers below `2 ^ 64`, and pointer arithmetic is ordinary
arithmetic: the source never forms an address outside its chunks on a
well-formed heap. Arithmetic on `size_t` wraps at `2 ^ 64`.
-/

namespace Cs252.Malloc

/-- `enum allocation_status`. -/
inductive AllocationStatus
  | unallocated
  | allocated
  | sentinel
  deriving Repr, DecidableEq

/-- The integer stored for a status. -/
def AllocationStatus.code : AllocationStatus → Nat
  | unallocated => 0
  | allocated => 1
  | sentinel => 2

@[simp] theorem code_unallocated : AllocationStatus.unallocated.code = 0 := rfl
@[simp] theorem code_allocated : AllocationStatus.allocated.code = 1 := rfl
@[simp] theorem code_sentinel : AllocationStatus.sentinel.code = 2 := rfl

/-- The null pointer. -/
def NULL : Nat := 0

/-- `sizeof(object_header)`. -/
def sizeofHeader : Nat := 32

/-- `sizeof(object_footer)`. -/
def sizeofFooter : Nat := 16

/-- `ARENA_SIZE`: the size of block to get from the OS (2MB). -/
def arenaSize : Nat := 2097152

/-- `SIZE_PRECISION`: sizes are rounded up to a multiple of it. -/
def sizePrecision : Nat := 8

/-- `MINIMUM_SIZE`: the minimum size that can be requested, not including
header and footer. -/
def minimumSize : Nat := 8

/-! ### Fields -/

/-- `object->object_size`, of a header or a footer. -/
abbrev sizeAt (m : ByteMem) (object : Nat) : Nat := m.load object 8

/-- `object->status`, of a header or a footer. -/
abbrev statusAt (m : ByteMem) (object : Nat) : Nat := m.load (object + 8) 4

/-- `header->next`. -/
abbrev nextAt (m : ByteMem) (header : Nat) : Nat := m.load (header + 16) 8

/-- `header->prev`. -/
abbrev prevAt (m : ByteMem) (header : Nat) : Nat := m.load (header + 24) 8

/-- `object->object_size = size`. -/
abbrev setSize (m : ByteMem) (object size : Nat) : ByteMem := m.store object 8 size

/-- `object->status = status`. -/
abbrev setStatus (m : ByteMem) (object : Nat) (status : AllocationStatus) : ByteMem :=
  m.store (object + 8) 4 status.code

/-- `header->next = node`. -/
abbrev setNext (m : ByteMem) (header node : Nat) : ByteMem := m.store (header + 16) 8 node

/-- `header->prev = node`. -/
abbrev setPrev (m : ByteMem) (header node : Nat) : ByteMem := m.store (header + 24) 8 node

theorem sizeAt_congr {m m' : ByteMem} {o : Nat}
    (h : ∀ x, o ≤ x → x < o + 16 → m' x = m x) : sizeAt m' o = sizeAt m o :=
  ByteMem.load_congr fun x hx hx' => h x hx (by omega)

theorem statusAt_congr {m m' : ByteMem} {o : Nat}
    (h : ∀ x, o ≤ x → x < o + 16 → m' x = m x) : statusAt m' o = statusAt m o :=
  ByteMem.load_congr fun x hx hx' => h x (by omega) (by omega)

theorem nextAt_congr {m m' : ByteMem} {o : Nat}
    (h : ∀ x, o + 16 ≤ x → x < o + 24 → m' x = m x) : nextAt m' o = nextAt m o :=
  ByteMem.load_congr fun x hx hx' => h x hx (by omega)

theorem prevAt_congr {m m' : ByteMem} {o : Nat}
    (h : ∀ x, o + 24 ≤ x → x < o + 32 → m' x = m x) : prevAt m' o = prevAt m o :=
  ByteMem.load_congr fun x hx hx' => h x hx (by omega)

/-- A status is read back as it was written. -/
theorem statusAt_setStatus (m : ByteMem) {o o' : Nat} (status : AllocationStatus) (h : o = o') :
    statusAt (setStatus m o' status) o = status.code := by
  have hcode : status.code < 256 ^ 4 := by cases status <;> simp
  exact ByteMem.load_store_eq m (by rw [h]) hcode

/-- A status written over the low half of a link or a size. -/
theorem load_setStatus_half (m : ByteMem) {a o : Nat} (status : AllocationStatus) (h : a = o + 8) :
    (setStatus m o status).load a 8 = status.code + m.load a 8 / 2 ^ 32 * 2 ^ 32 := by
  have hcode : status.code < 2 ^ 32 := by cases status <;> simp
  exact ByteMem.load_store_half m h hcode

theorem nextAt_lt (m : ByteMem) (o : Nat) : nextAt m o < 2 ^ 64 :=
  ByteMem.load_lt m (o + 16) 8

theorem prevAt_lt (m : ByteMem) (o : Nat) : prevAt m o < 2 ^ 64 :=
  ByteMem.load_lt m (o + 24) 8

/-- `object_size(ptr)`: the size of the object whose usable memory starts at `ptr`. -/
def objectSize (m : ByteMem) (ptr : Nat) : Nat := sizeAt m (ptr - sizeofHeader)

@[simp] theorem objectSize_payload (m : ByteMem) (object : Nat) :
    objectSize m (object + 32) = sizeAt m object := by
  simp [objectSize, sizeofHeader]

/-- The usable memory of an object is not at the null pointer. -/
theorem payload_ne_null (object : Nat) : object + 32 ≠ NULL := by
  unfold NULL
  omega

end Cs252.Malloc
