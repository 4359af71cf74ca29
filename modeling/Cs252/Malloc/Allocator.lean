import Cs252.Malloc.Object

/-!
# Cs252.Malloc.Allocator

`MyMalloc.c`, function by function.

The allocator's static variables are the fields of `Heap`; everything else
lives in memory. `sbrk` is the environment: the functions that may call it
take its answer as the argument `sbrk`, and `osChunks` records the chunks it
has handed out.

The loops follow pointers through memory, so they may run forever on a
corrupted list. A loop that reads memory without writing it visits at most
`2 ^ 64` different pointers: one that has not ended after `2 ^ 64` rounds
never ends. `none` is such a divergence, or a fault: in `realloc` a copy to the
null pointer, in `allocate_object` a chunk laid out at the answer of a failed
`sbrk`.

The functions of the source are cut at the comments and blank lines of their
bodies into the memory updates `markAllocated`, `unlink` and so on, in the
order of the statements.
-/

namespace Cs252.Malloc

/-- The state variables of the allocator, with the memory they live in. -/
structure Heap where
  mem : ByteMem
  /-- The address of `free_list_sentinel`. -/
  sentinel : Nat
  /-- `free_list`. -/
  freeList : Nat
  heapSize : Nat
  memStart : Nat
  numChunks : Nat
  mallocCalls : Nat
  freeCalls : Nat
  reallocCalls : Nat
  callocCalls : Nat
  /-- The chunks `sbrk` has handed out, oldest first. -/
  osChunks : List Nat

/-- The rounds after which a loop over memory has run into a cycle. -/
def loopBound : Nat := 2 ^ 64

/-! ### Memory from the OS -/

/-- The answer `(void *) -1` of a failing `sbrk`. -/
def sbrkFailed : Nat := 2 ^ 64 - 1

/-- `get_memory_from_os`: the answer of `sbrk`, and the updated statistics. -/
def getMemoryFromOs (h : Heap) (sbrk size : Nat) : Nat × Heap :=
  (sbrk, { h with
    heapSize := (h.heapSize + size) % 2 ^ 64
    numChunks := h.numChunks + 1
    osChunks := if sbrk = sbrkFailed then h.osChunks else h.osChunks ++ [sbrk] })

/-- The bytes requested from the OS at a time. -/
def chunkSize : Nat := arenaSize + 2 * sizeofHeader + 2 * sizeofFooter

/-- Establish the fenceposts of a chunk. -/
def setFenceposts (m : ByteMem) (startFencepost endFencepost : Nat) : ByteMem :=
  let m := setStatus m startFencepost .allocated
  let m := setSize m startFencepost 0
  let m := setStatus m endFencepost .allocated
  let m := setSize m endFencepost 0
  let m := setNext m endFencepost NULL
  setPrev m endFencepost NULL

/-! ### Initialization -/

/-- Establish the main free object. -/
def tagMainObject (m : ByteMem) (header footer : Nat) : ByteMem :=
  let m := setStatus m header .unallocated
  let m := setSize m header (arenaSize + sizeofHeader + sizeofFooter)
  let m := setStatus m footer .unallocated
  setSize m footer (sizeAt m header)

/-- Initialize the free list with its first object. -/
def linkMainObject (m : ByteMem) (freeList header : Nat) : ByteMem :=
  let m := setPrev m freeList header
  let m := setNext m freeList header
  let m := setNext m header freeList
  let m := setPrev m header freeList
  let m := setStatus m freeList .sentinel
  setSize m freeList 0

/-- The allocator before `initialize`: static variables are zero. -/
def Heap.static (m : ByteMem) (sentinel : Nat) : Heap where
  mem := m
  sentinel := sentinel
  freeList := NULL
  heapSize := 0
  memStart := NULL
  numChunks := 0
  mallocCalls := 0
  freeCalls := 0
  reallocCalls := 0
  callocCalls := 0
  osChunks := []

/-- `initialize`, for an answer of `sbrk` that is memory. -/
def initializeHeap (h : Heap) (sbrk : Nat) : Heap :=
  let (newBlock, h) := getMemoryFromOs h sbrk chunkSize
  let startFencepost := newBlock
  let currentHeader := startFencepost + sizeofFooter
  let currentFooter := currentHeader + arenaSize + sizeofHeader
  let endFencepost := currentFooter + sizeofFooter
  let m := setFenceposts h.mem startFencepost endFencepost
  let m := tagMainObject m currentHeader currentFooter
  let m := linkMainObject m h.sentinel currentHeader
  { h with mem := m, freeList := h.sentinel, memStart := currentHeader }

/-! ### Allocation -/

/-- `rounded_size`: the size of the object for a request of `size` bytes. The
sum wraps in `size_t`, and the mask is `~(SIZE_PRECISION - 1)`. -/
def roundedSize (size : Nat) : Nat :=
  let size := if size < minimumSize then minimumSize else size
  ((size + sizeofHeader + sizeofFooter + (sizePrecision - 1)) % 2 ^ 64)
    &&& (2 ^ 64 - sizePrecision)

/-- The search loop of `allocate_object`: the first block of the free list, from
`current` on, that is large enough; `some none` when the list is exhausted. -/
def findFit (m : ByteMem) (sentinel roundedSize : Nat) : Nat → Nat → Option (Option Nat)
  | 0, _ => none
  | rounds + 1, current =>
    if current = sentinel then some none
    else if roundedSize ≤ objectSize m (current + sizeofHeader) then some (some current)
    else findFit m sentinel roundedSize rounds (nextAt m current)

/-- Mark a whole free block as allocated. -/
def markAllocated (m : ByteMem) (current : Nat) : ByteMem :=
  let m := setStatus m current .allocated
  let curFooter := current + objectSize m (current + sizeofHeader) - sizeofFooter
  setStatus m curFooter .allocated

/-- Take a block out of the free list. -/
def unlink (m : ByteMem) (current : Nat) : ByteMem :=
  let m := setNext m (prevAt m current) (nextAt m current)
  let m := setPrev m (nextAt m current) (prevAt m current)
  let m := setPrev m current NULL
  setNext m current NULL

/-- Cut a free block: the first `roundedSize` bytes allocated, the rest free. -/
def tagSplit (m : ByteMem) (current roundedSize : Nat) : ByteMem :=
  let newHeader := current + roundedSize
  let curFooter := current + roundedSize - sizeofFooter
  let newFooter := current + sizeAt m current - sizeofFooter
  let m := setSize m newHeader (sizeAt m current - roundedSize)
  let m := setSize m newFooter (sizeAt m newHeader)
  let m := setStatus m newHeader .unallocated
  let m := setStatus m newFooter .unallocated
  let m := setSize m current roundedSize
  let m := setStatus m current .allocated
  let m := setSize m curFooter (sizeAt m current)
  setStatus m curFooter .allocated

/-- Put the remainder of a cut block in the place of the block in the free list. -/
def relinkSplit (m : ByteMem) (current newHeader : Nat) : ByteMem :=
  let m := setNext m (prevAt m current) newHeader
  let m := setPrev m newHeader (prevAt m current)
  let m := setNext m newHeader (nextAt m current)
  let m := setPrev m (nextAt m current) newHeader
  let m := setPrev m current NULL
  setNext m current NULL

/-- Tag the free rest of a new chunk. -/
def tagRemainder (m : ByteMem) (newNextHeader newNextFooter size : Nat) : ByteMem :=
  let m := setStatus m newNextHeader .unallocated
  let m := setSize m newNextHeader size
  let m := setSize m newNextFooter (sizeAt m newNextHeader)
  setStatus m newNextFooter .unallocated

/-- Append a block to the free list. -/
def appendFree (m : ByteMem) (freeList newNextHeader : Nat) : ByteMem :=
  let m := setPrev m newNextHeader (prevAt m freeList)
  let m := setPrev m freeList newNextHeader
  let m := setNext m (prevAt m newNextHeader) newNextHeader
  setNext m newNextHeader freeList

/-- Tag the allocated first part of a new chunk. -/
def tagNewObject (m : ByteMem) (newObject newFooter roundedSize : Nat) : ByteMem :=
  let m := setStatus m newObject .allocated
  let m := setSize m newObject roundedSize
  let m := setPrev m newObject NULL
  let m := setNext m newObject NULL
  let m := setSize m newFooter (sizeAt m newObject)
  setStatus m newFooter .allocated

/-- Tag a new chunk that is handed out whole. -/
def tagWholeChunk (m : ByteMem) (newObject newFooter roundedSize : Nat) : ByteMem :=
  let m := setStatus m newObject .allocated
  let m := setStatus m newFooter .allocated
  let m := setSize m newObject roundedSize
  let m := setSize m newFooter roundedSize
  let m := setPrev m newObject NULL
  setNext m newObject NULL

/-- The last part of `allocate_object`: lay out a new chunk whose first
`roundedSize` bytes are handed out. -/
def layOutChunk (m : ByteMem) (freeList newBlock roundedSize : Nat) : ByteMem :=
  let startFencepost := newBlock
  let newObject := startFencepost + sizeofFooter
  let newFooter := newObject + roundedSize - sizeofFooter
  let newNextHeader := newObject + roundedSize
  let newNextFooter := newObject + sizeofHeader + arenaSize
  let endFencepost := newNextFooter + sizeofFooter
  let m := setFenceposts m startFencepost endFencepost
  let realSize := arenaSize + sizeofHeader + sizeofFooter
  if roundedSize < realSize then
    let m := tagRemainder m newNextHeader newNextFooter (realSize - roundedSize)
    let m := appendFree m freeList newNextHeader
    tagNewObject m newObject newFooter roundedSize
  else if roundedSize = realSize then tagWholeChunk m newObject newFooter roundedSize
  else m

/-- `allocate_object`: the pointer returned (`NULL` for an oversized request)
and the heap afterwards. -/
def allocateObject (h : Heap) (sbrk size : Nat) : Option (Nat × Heap) :=
  let roundedSize := roundedSize size
  let maxSize := arenaSize + sizeofHeader + sizeofFooter
  if maxSize < roundedSize then some (NULL, h)
  else
    match findFit h.mem h.sentinel roundedSize loopBound (nextAt h.mem h.freeList) with
    | none => none
    | some (some current) =>
      let remainder := objectSize h.mem (current + sizeofHeader) - roundedSize
      let minSize := minimumSize + sizeofHeader + sizeofFooter
      if remainder < minSize then
        some (current + sizeofHeader,
          { h with mem := unlink (markAllocated h.mem current) current })
      else
        some (current + sizeofHeader, { h with
          mem := relinkSplit (tagSplit h.mem current roundedSize) current (current + roundedSize) })
    | some none =>
      let (newBlock, h) := getMemoryFromOs h sbrk chunkSize
      -- the answer is not looked at: the first store behind `(void *) -1` is to address 7
      if newBlock = sbrkFailed then none
      else some (newBlock + sizeofFooter + sizeofHeader,
        { h with mem := layOutChunk h.mem h.freeList newBlock roundedSize })

/-! ### Release -/

/-- The loop of `free_object` that finds the closest free block: the node after
which `current` is inserted. -/
def findSlot (m : ByteMem) (sentinel current : Nat) : Nat → Nat → Option Nat
  | 0, _ => none
  | rounds + 1, temp =>
    if nextAt m temp = sentinel then some temp
    else if temp < current ∧ current < nextAt m temp then some temp
    else findSlot m sentinel current rounds (nextAt m temp)

/-- Mark a block as free. -/
def markUnallocated (m : ByteMem) (current currentFooter : Nat) : ByteMem :=
  let m := setStatus m current .unallocated
  setStatus m currentFooter .unallocated

/-- Insert a block into the free list after `temp`. -/
def insertAfter (m : ByteMem) (temp current : Nat) : ByteMem :=
  let m := setPrev m (nextAt m temp) current
  let m := setNext m current (nextAt m temp)
  let m := setNext m temp current
  setPrev m current temp

/-- Case 2 of `free_object`: extend the free left neighbour. -/
def mergeLeft (m : ByteMem) (leftFooter current currentFooter : Nat) : ByteMem :=
  let m := markUnallocated m current currentFooter
  let leftHeader := leftFooter - sizeAt m leftFooter + sizeofFooter
  let m := setSize m leftHeader (sizeAt m leftHeader + sizeAt m current)
  setSize m currentFooter (sizeAt m leftHeader)

/-- Case 3 of `free_object`: take over the free right neighbour. -/
def tagMergeRight (m : ByteMem) (current currentFooter rightHeader : Nat) : ByteMem :=
  let m := markUnallocated m current currentFooter
  let m := setSize m current (sizeAt m current + sizeAt m rightHeader)
  let rightFooter := rightHeader + sizeAt m rightHeader - sizeofFooter
  setSize m rightFooter (sizeAt m current)

/-- Put `current` in the place of `rightHeader` in the free list. -/
def takePlace (m : ByteMem) (current rightHeader : Nat) : ByteMem :=
  let m := setPrev m current (prevAt m rightHeader)
  let m := setNext m current (nextAt m rightHeader)
  let m := setNext m (prevAt m rightHeader) current
  let m := setPrev m (nextAt m rightHeader) current
  let m := setPrev m rightHeader NULL
  setNext m rightHeader NULL

/-- Case 4 of `free_object`: join the block and both neighbours. -/
def mergeBoth (m : ByteMem) (leftFooter current rightHeader : Nat) : ByteMem :=
  let leftHeader := leftFooter - sizeAt m leftFooter + sizeofFooter
  let rightFooter := rightHeader + sizeAt m rightHeader - sizeofFooter
  let newSize := (sizeAt m leftFooter + sizeAt m current + sizeAt m rightHeader) % 2 ^ 64
  let m := setSize m leftHeader newSize
  let m := setSize m rightFooter newSize
  let m := setNext m leftHeader (nextAt m rightHeader)
  let m := setPrev m (nextAt m rightHeader) leftHeader
  let m := setPrev m rightHeader NULL
  setNext m rightHeader NULL

/-- `free_object`. -/
def freeObject (h : Heap) (ptr : Nat) : Option Heap :=
  let current := ptr - sizeofHeader
  let currentFooter := current + sizeAt h.mem current - sizeofFooter
  let leftFooter := current - sizeofFooter
  let rightHeader := current + sizeAt h.mem current
  let leftStatus := statusAt h.mem leftFooter
  let rightStatus := statusAt h.mem rightHeader
  -- 1. neither the left nor right neighbors are free
  if leftStatus ≠ AllocationStatus.unallocated.code
      ∧ rightStatus ≠ AllocationStatus.unallocated.code then
    let m := markUnallocated h.mem current currentFooter
    match findSlot m h.sentinel current loopBound h.sentinel with
    | none => none
    | some temp => some { h with mem := insertAfter m temp current }
  -- 2. if the left neighbor is free
  else if leftStatus = AllocationStatus.unallocated.code
      ∧ rightStatus = AllocationStatus.allocated.code then
    some { h with mem := mergeLeft h.mem leftFooter current currentFooter }
  -- 3. if the right neighbor is free
  else if rightStatus = AllocationStatus.unallocated.code
      ∧ leftStatus = AllocationStatus.allocated.code then
    some { h with
      mem := takePlace (tagMergeRight h.mem current currentFooter rightHeader) current rightHeader }
  -- 4. both the left and right neighbors are free
  else some { h with mem := mergeBoth h.mem leftFooter current rightHeader }

/-! ### The free list, printed -/

/-- The loop of `print_list`: the offset from `mem_start` and the size of each
object, from `ptr` on. -/
def listEntries (m : ByteMem) (freeList memStart : Nat) : Nat → Nat → Option (List (Int × Nat))
  | 0, _ => none
  | rounds + 1, ptr =>
    if ptr = freeList then some []
    else (listEntries m freeList memStart rounds (nextAt m ptr)).map
      fun entries => ((ptr : Int) - memStart, sizeAt m ptr) :: entries

/-- `print_list`: the entries printed. -/
def printList (h : Heap) : Option (List (Int × Nat)) :=
  listEntries h.mem h.freeList h.memStart loopBound (nextAt h.mem h.freeList)

/-! ### C interface -/

/-- `malloc`. -/
def malloc (h : Heap) (sbrk size : Nat) : Option (Nat × Heap) :=
  allocateObject { h with mallocCalls := h.mallocCalls + 1 } sbrk size

/-- `free`. -/
def free (h : Heap) (ptr : Nat) : Option Heap :=
  let h := { h with freeCalls := h.freeCalls + 1 }
  if ptr ≠ NULL then freeObject h ptr else some h

/-- `memcpy` of non-overlapping regions; a copy to the null pointer faults. -/
def memcpy (m : ByteMem) (dest src n : Nat) : Option ByteMem :=
  if dest = NULL ∧ 0 < n then none else some (m.copy dest src n)

/-- The copy of `realloc`, made without the mutex: everything from the old
pointer, but not past the end of the new block. -/
def reallocCopy (m : ByteMem) (newPtr ptr size : Nat) : Option ByteMem :=
  let sizeToCopy := objectSize m ptr
  let sizeToCopy := if size < sizeToCopy then size else sizeToCopy
  memcpy m newPtr ptr sizeToCopy

/-- `realloc`. -/
def realloc (h : Heap) (sbrk ptr size : Nat) : Option (Nat × Heap) :=
  match allocateObject { h with reallocCalls := h.reallocCalls + 1 } sbrk size with
  | none => none
  | some (newPtr, h) =>
    if ptr ≠ NULL then
      match reallocCopy h.mem newPtr ptr size with
      | none => none
      | some m => (freeObject { h with mem := m } ptr).map fun h => (newPtr, h)
    else some (newPtr, h)

/-- `calloc`: the product of the arguments wraps in `size_t`. -/
def calloc (h : Heap) (sbrk numElems elemSize : Nat) : Option (Nat × Heap) :=
  let size := numElems * elemSize % 2 ^ 64
  match allocateObject { h with callocCalls := h.callocCalls + 1 } sbrk size with
  | none => none
  | some (ptr, h) =>
    if ptr ≠ NULL then some (ptr, { h with mem := h.mem.fill ptr 0 size }) else some (ptr, h)

end Cs252.Malloc
