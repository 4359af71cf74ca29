import Cs252.Malloc.Start

/-!
# Cs252.Malloc.Requests

What `malloc` and `calloc` hand out, over the whole range of `size_t`.

`rounded_size` wraps for requests within 55 bytes of `2 ^ 64`, and `calloc`
multiplies its arguments in `size_t`. In both cases the request that is served
is smaller than the one that was made, and no check notices. `mallocOk_iff` and
`callocOk_iff` say exactly for which arguments the answer is right.
-/

namespace Cs252.Malloc

open Tiling LinkedRing

/-- The answer of `malloc(size)` is right: `NULL` when the request exceeds
`ARENA_SIZE`, otherwise a block with at least `size` bytes between its header
and its footer, in the address space. -/
def MallocOk (h : Heap) (sbrk size : Nat) : Prop :=
  ∃ ptr h', malloc h sbrk size = some (ptr, h') ∧ (ptr = NULL ↔ 2097152 < size) ∧
    (ptr ≠ NULL → size + 48 ≤ objectSize h'.mem ptr ∧ ptr + size < 2 ^ 64)

/-- The answer of `calloc(num_elems, elem_size)` is right: as for `malloc`, for
the product of the arguments, and the bytes asked for are zero. -/
def CallocOk (h : Heap) (sbrk numElems elemSize : Nat) : Prop :=
  ∃ ptr h', calloc h sbrk numElems elemSize = some (ptr, h') ∧
    (ptr = NULL ↔ 2097152 < numElems * elemSize) ∧
    (ptr ≠ NULL → numElems * elemSize + 48 ≤ objectSize h'.mem ptr ∧
      ptr + numElems * elemSize < 2 ^ 64 ∧ ∀ i, i < numElems * elemSize → h'.mem (ptr + i) = 0)

namespace WellFormed

variable {h : Heap} {L : Layout} {sbrk size : Nat}

/-- A request that is not too large after rounding is served, if `sbrk` does not
fail or is not needed. -/
theorem allocateObject_served (wf : WellFormed h L) (hmax : roundedSize size ≤ 2097200)
    (hserve : sbrk ≠ sbrkFailed ∨ L.firstFree (roundedSize size) ≠ none) :
    ∃ a h', allocateObject h sbrk size = some (a + 32, h') := by
  rcases Layout.firstFit_cases (roundedSize size) L with ⟨H, n, rfl, hn, hfirst, -⟩ | ⟨hnone, -⟩
  · exact ⟨_, _, wf.allocateObject_fit hmax hn hfirst⟩
  · have hsbrk := hserve.resolve_right (not_not.mpr (Layout.firstFree_eq_none.mpr hnone))
    exact ⟨sbrk + 16, _, wf.allocateObject_grow hmax hnone hsbrk⟩

/-- A request that does not wrap gets a block that is large enough. -/
theorem allocateObject_room (wf : WellFormed h L) (hsbrk : sbrk + 2097248 ≤ 2 ^ 64)
    (hr : 48 ≤ roundedSize size) (hmax : roundedSize size ≤ 2097200) :
    ∃ a h', allocateObject h sbrk size = some (a + 32, h') ∧
      roundedSize size ≤ sizeAt h'.mem a ∧ a + roundedSize size < 2 ^ 64 := by
  rcases Layout.firstFit_cases (roundedSize size) L with ⟨H, n, rfl, hn, hfirst, -⟩ | ⟨hnone, -⟩
  · have hbound : H.addr + n < 2 ^ 64 := wf.ok.block_bound H.mem_blocks_plug_self
    refine ⟨_, _, wf.allocateObject_fit hmax hn hfirst, ?_, by omega⟩
    obtain ⟨-, wf', -⟩ := wf.serve hn (Or.inr hr) rfl
    have hsize := wf'.header_size (mem_blocks_serve rfl)
    simp only at hsize ⊢
    rw [hsize]
    split <;> omega
  · refine ⟨sbrk + 16, _, wf.allocateObject_grow hmax hnone (ne_sbrkFailed hsbrk), ?_, by omega⟩
    rw [grownHeap_mem, layOutChunk_size hr hmax]

/-- **`malloc` answers right exactly when the rounding does not wrap.** -/
theorem mallocOk_iff (wf : WellFormed h L) (hsbrk : sbrk + 2097248 ≤ 2 ^ 64)
    (hsize : size < 2 ^ 64) : MallocOk h sbrk size ↔ size + 55 < 2 ^ 64 := by
  have wf' : WellFormed { h with mallocCalls := h.mallocCalls + 1 } L :=
    ⟨wf.ok, wf.rep, wf.freeList, wf.chunks⟩
  by_cases hwrap : size + 55 < 2 ^ 64
  · refine iff_of_true ?_ hwrap
    obtain ⟨hmin, hround, -⟩ := roundedSize_bounds hwrap
    have hle := roundedSize_le_iff hwrap
    by_cases hmax : roundedSize size ≤ 2097200
    · obtain ⟨a, h', heq, hroom, hbound⟩ := wf'.allocateObject_room hsbrk (by omega) hmax
      refine ⟨a + 32, h', heq, ?_, fun _ => ⟨?_, by omega⟩⟩
      · have := hle.mp hmax
        unfold NULL
        omega
      · rw [objectSize_payload]
        omega
    · refine ⟨NULL, _, allocateObject_oversized (by omega), ?_, fun hne => absurd rfl hne⟩
      have := mt hle.mpr hmax
      simp only [true_iff]
      omega
  · refine iff_of_false ?_ hwrap
    intro ⟨ptr, h', heq, hnull, _⟩
    have hsmall := roundedSize_wrapped (by omega) hsize
    have hmax : roundedSize size ≤ 2097200 := by omega
    obtain ⟨a, h'', heq'⟩ := wf'.allocateObject_served hmax (Or.inl (ne_sbrkFailed hsbrk))
    have hptr : ptr = a + 32 := congrArg Prod.fst (Option.some.inj (heq.symm.trans heq'))
    have hzero := hnull.mpr (by omega)
    unfold NULL at hzero
    omega

/-- A product that is too large has to be answered with `NULL`. -/
theorem not_callocOk_of_served {n m a : Nat} {h' : Heap} (hlarge : 2097152 < n * m)
    (hcalloc : calloc h sbrk n m = some (a + 32, h')) : ¬CallocOk h sbrk n m := by
  intro ⟨ptr, h'', heq, hnull, _⟩
  have hptr : ptr = a + 32 := congrArg Prod.fst (Option.some.inj (heq.symm.trans hcalloc))
  have hzero := hnull.mpr hlarge
  rw [hptr] at hzero
  exact payload_ne_null a hzero

/-- A product that is served has to fit the block, which `calloc` has cleared. -/
theorem callocOk_of_served {n m a : Nat} {h' : Heap} (hsmall : n * m ≤ 2097152)
    (hcalloc : calloc h sbrk n m = some (a + 32, { h' with mem := h'.mem.fill (a + 32) 0 (n * m) }))
    (hroom : n * m + 48 ≤ sizeAt h'.mem a) (hbound : a + 32 + n * m < 2 ^ 64) :
    CallocOk h sbrk n m := by
  refine ⟨a + 32, _, hcalloc, ?_, fun _ => ⟨?_, hbound, fun i hi => ?_⟩⟩
  · exact iff_of_false (payload_ne_null a) (Nat.not_lt.mpr hsmall)
  · -- the header is below the bytes that are cleared
    have hkeep : sizeAt (h'.mem.fill (a + 32) 0 (n * m)) a = sizeAt h'.mem a :=
      ByteMem.load_congr fun x _ hx => ByteMem.fill_outside _ _ (by omega)
    rw [objectSize_payload, hkeep]
    exact hroom
  · exact ByteMem.fill_inside _ _ (by omega) (by omega)

/-- **`calloc` answers right exactly when the product is small, or wraps to a
number that is refused.** -/
theorem callocOk_iff {n m : Nat} (wf : WellFormed h L) (hsbrk : sbrk + 2097248 ≤ 2 ^ 64) :
    CallocOk h sbrk n m ↔
      n * m ≤ 2097152 ∨ (2097152 < n * m % 2 ^ 64 ∧ n * m % 2 ^ 64 + 55 < 2 ^ 64) := by
  have wf' : WellFormed { h with callocCalls := h.callocCalls + 1 } L :=
    ⟨wf.ok, wf.rep, wf.freeList, wf.chunks⟩
  obtain ⟨k, hk⟩ : ∃ k, n * m % 2 ^ 64 = k := ⟨_, rfl⟩
  have hlt : k < 2 ^ 64 := hk ▸ Nat.mod_lt _ (by decide)
  have hmod : k ≤ n * m := hk ▸ Nat.mod_le _ _
  rw [hk]
  by_cases hwrap : k + 55 < 2 ^ 64
  · have hle := roundedSize_le_iff hwrap
    obtain ⟨hmin, hround, -⟩ := roundedSize_bounds hwrap
    by_cases hmax : roundedSize k ≤ 2097200
    · obtain ⟨a, h', heq, hroom, hbound⟩ := wf'.allocateObject_room hsbrk (by omega) hmax
      have hcalloc := calloc_of_allocate hk heq (payload_ne_null a)
      have hsmall := hle.mp hmax
      by_cases hprod : n * m ≤ 2097152
      · have hexact : n * m = k := by
          rw [← hk]
          exact (Nat.mod_eq_of_lt (by omega)).symm
        rw [← hexact] at hcalloc
        exact iff_of_true (callocOk_of_served hprod hcalloc (by omega) (by omega)) (Or.inl hprod)
      · exact iff_of_false (not_callocOk_of_served (Nat.lt_of_not_le hprod) hcalloc) (by omega)
    · have hbig := mt hle.mpr hmax
      refine iff_of_true ⟨NULL, { h with callocCalls := h.callocCalls + 1 }, ?_, ?_,
        fun hne => absurd rfl hne⟩ (Or.inr ⟨by omega, hwrap⟩)
      · exact calloc_of_refused hk (allocateObject_oversized (Nat.lt_of_not_le hmax))
      · simp only [true_iff]
        omega
  · have hsmall := roundedSize_wrapped (by omega) hlt
    have hmax : roundedSize k ≤ 2097200 := by omega
    obtain ⟨a, h', heq⟩ := wf'.allocateObject_served hmax (Or.inl (ne_sbrkFailed hsbrk))
    have hcalloc := calloc_of_allocate hk heq (payload_ne_null a)
    exact iff_of_false (not_callocOk_of_served (by omega) hcalloc) (by omega)

end WellFormed

/-- **What `malloc` and `calloc` hand out**, for every argument, as long as
`sbrk` succeeds. -/
theorem requests_ok_iff {h : Heap} {L : Layout} {sbrk size n m : Nat} (wf : WellFormed h L)
    (hsbrk : sbrk + 2097248 ≤ 2 ^ 64) (hsize : size < 2 ^ 64) :
    (MallocOk h sbrk size ↔ size + 55 < 2 ^ 64) ∧
      (CallocOk h sbrk n m ↔
        n * m ≤ 2097152 ∨ (2097152 < n * m % 2 ^ 64 ∧ n * m % 2 ^ 64 + 55 < 2 ^ 64)) :=
  ⟨wf.mallocOk_iff hsbrk hsize, wf.callocOk_iff hsbrk⟩

/-- The same for 100 bytes on the heap after `initialize`. -/
theorem requests_ok_iff_fresh :
    (MallocOk freshHeap 2101344 100 ↔ 100 + 55 < 2 ^ 64) ∧
      (CallocOk freshHeap 2101344 10 10 ↔ 10 * 10 ≤ 2097152 ∨
        (2097152 < 10 * 10 % 2 ^ 64 ∧ 10 * 10 % 2 ^ 64 + 55 < 2 ^ 64)) :=
  requests_ok_iff freshHeap_wellFormed (by decide) (by decide)

/-- `malloc(SIZE_MAX)` returns a block, and so does `calloc` of `2 ^ 32` objects
of `2 ^ 32` bytes. -/
theorem requests_wrap :
    ¬MallocOk freshHeap 2101344 (2 ^ 64 - 1) ∧ ¬CallocOk freshHeap 2101344 (2 ^ 32) (2 ^ 32) := by
  have hm : MallocOk freshHeap 2101344 (2 ^ 64 - 1) ↔ _ :=
    freshHeap_wellFormed.mallocOk_iff (by decide) (by decide)
  have hc : CallocOk freshHeap 2101344 (2 ^ 32) (2 ^ 32) ↔ _ :=
    freshHeap_wellFormed.callocOk_iff (by decide)
  rw [hm, hc]
  decide

end Cs252.Malloc
