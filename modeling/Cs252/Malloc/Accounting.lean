import Mathlib.Algebra.Ring.Int.Defs
import Mathlib.Algebra.Ring.Nat
import Mathlib.Algebra.BigOperators.Group.List.Basic
import Cs252.Malloc.Integrity
import Cs252.Malloc.OutOfMemory

/-!
# Cs252.Malloc.Accounting

Where the memory of the heap is.

Every chunk is 2097248 bytes, of which 2097200 are blocks. `Tallied` is what the
statistics of the allocator say about the chunks, and needs no more than that a
call changes them in `get_memory_from_os` only. The blocks are either in the
hands of the client or on the free list, so the sizes in the headers behind the
live pointers and those that `print_list` shows add up (`memory_accounted`). When
the client holds nothing, all memory is on the free list, and all of it can be
used again.
-/

namespace Cs252.Malloc

open Tiling

/-! ### The statistics -/

/-- The statistics agree with the chunks, and the memory pool starts in the first. -/
structure Tallied (h : Heap) : Prop where
  numChunks : h.numChunks = h.osChunks.length
  heapSize : h.heapSize = 2097248 * h.numChunks % 2 ^ 64
  memStart : ∃ base bases, h.osChunks = base :: bases ∧ h.memStart = base + 16

/-- A request leaves the statistics alone, or counts a new chunk. -/
theorem allocateObject_counts {h h' : Heap} {sbrk size p : Nat}
    (heq : allocateObject h sbrk size = some (p, h')) :
    h'.memStart = h.memStart ∧
      ((h'.numChunks = h.numChunks ∧ h'.heapSize = h.heapSize ∧ h'.osChunks = h.osChunks) ∨
        (h'.numChunks = h.numChunks + 1 ∧ h'.heapSize = (h.heapSize + chunkSize) % 2 ^ 64 ∧
          h'.osChunks = h.osChunks ++ [sbrk])) := by
  simp only [allocateObject, getMemoryFromOs] at heq
  split at heq
  · obtain ⟨-, rfl⟩ := Prod.mk.inj (Option.some.inj heq)
    exact ⟨rfl, Or.inl ⟨rfl, rfl, rfl⟩⟩
  · split at heq
    · cases heq
    · split at heq
      all_goals
        obtain ⟨-, rfl⟩ := Prod.mk.inj (Option.some.inj heq)
        exact ⟨rfl, Or.inl ⟨rfl, rfl, rfl⟩⟩
    · split at heq
      · cases heq
      · obtain ⟨-, rfl⟩ := Prod.mk.inj (Option.some.inj heq)
        exact ⟨rfl, Or.inr ⟨rfl, rfl, rfl⟩⟩

theorem freeObject_counts {h h' : Heap} {p : Nat} (heq : freeObject h p = some h') :
    h'.numChunks = h.numChunks ∧ h'.heapSize = h.heapSize ∧ h'.osChunks = h.osChunks ∧
      h'.memStart = h.memStart := by
  simp only [freeObject] at heq
  split at heq
  · split at heq
    · cases heq
    · obtain rfl := Option.some.inj heq
      exact ⟨rfl, rfl, rfl, rfl⟩
  · split at heq
    · obtain rfl := Option.some.inj heq
      exact ⟨rfl, rfl, rfl, rfl⟩
    · split at heq
      all_goals
        obtain rfl := Option.some.inj heq
        exact ⟨rfl, rfl, rfl, rfl⟩

namespace Tallied

variable {h h' : Heap} {sbrk size p q : Nat}

theorem of_fields (tallied : Tallied h) (hnum : h'.numChunks = h.numChunks)
    (hsize : h'.heapSize = h.heapSize) (hchunks : h'.osChunks = h.osChunks)
    (hstart : h'.memStart = h.memStart) : Tallied h' := by
  refine ⟨?_, ?_, ?_⟩
  · rw [hnum, hchunks, tallied.numChunks]
  · rw [hsize, hnum, tallied.heapSize]
  · rw [hchunks, hstart]
    exact tallied.memStart

theorem allocate (tallied : Tallied h) (heq : allocateObject h sbrk size = some (p, h')) :
    Tallied h' := by
  obtain ⟨hstart, ⟨hnum, hsize, hchunks⟩ | ⟨hnum, hsize, hchunks⟩⟩ := allocateObject_counts heq
  · exact tallied.of_fields hnum hsize hchunks hstart
  · obtain ⟨base, bases, hold, hstart'⟩ := tallied.memStart
    have hchunk : chunkSize = 2097248 := rfl
    refine ⟨?_, ?_, base, bases ++ [sbrk], ?_, hstart.trans hstart'⟩
    · rw [hnum, hchunks, List.length_append, tallied.numChunks]
      rfl
    · rw [hsize, hnum, hchunk, tallied.heapSize]
      omega
    · rw [hchunks, hold]
      rfl

theorem release (tallied : Tallied h) (heq : freeObject h p = some h') : Tallied h' := by
  obtain ⟨hnum, hsize, hchunks, hstart⟩ := freeObject_counts heq
  exact tallied.of_fields hnum hsize hchunks hstart

/-- A call keeps the statistics right. -/
theorem run {c : Call} (tallied : Tallied h) (hrun : c.run h sbrk = some (q, h')) :
    Tallied h' := by
  cases c with
  | malloc size =>
    have counted : Tallied { h with mallocCalls := h.mallocCalls + 1 } :=
      tallied.of_fields rfl rfl rfl rfl
    simp only [Call.run, malloc] at hrun
    exact counted.allocate hrun
  | calloc numElems elemSize =>
    have counted : Tallied { h with callocCalls := h.callocCalls + 1 } :=
      tallied.of_fields rfl rfl rfl rfl
    simp only [Call.run, calloc] at hrun
    split at hrun
    · cases hrun
    · next ptr h₁ heq =>
      have allocated := counted.allocate heq
      split at hrun
      all_goals
        obtain ⟨-, rfl⟩ := Prod.mk.inj (Option.some.inj hrun)
        exact allocated.of_fields rfl rfl rfl rfl
  | realloc ptr size =>
    have counted : Tallied { h with reallocCalls := h.reallocCalls + 1 } :=
      tallied.of_fields rfl rfl rfl rfl
    simp only [Call.run, realloc] at hrun
    split at hrun
    · cases hrun
    · next newPtr h₁ heq =>
      have allocated := counted.allocate heq
      split at hrun
      · split at hrun
        · cases hrun
        · next m hcopy =>
          obtain ⟨h₂, hfree, hlast⟩ := Option.map_eq_some_iff.mp hrun
          obtain ⟨-, rfl⟩ := Prod.mk.inj hlast
          have copied : Tallied { h₁ with mem := m } := allocated.of_fields rfl rfl rfl rfl
          exact copied.release hfree
      · obtain ⟨-, rfl⟩ := Prod.mk.inj (Option.some.inj hrun)
        exact allocated
  | free ptr =>
    have counted : Tallied { h with freeCalls := h.freeCalls + 1 } :=
      tallied.of_fields rfl rfl rfl rfl
    obtain ⟨h₁, hfree, hlast⟩ := Option.map_eq_some_iff.mp hrun
    obtain ⟨-, rfl⟩ := Prod.mk.inj hlast
    simp only [Malloc.free] at hfree
    split at hfree
    · exact counted.release hfree
    · obtain rfl := Option.some.inj hfree
      exact counted

end Tallied

/-- The statistics are right after every call, whatever the client asks for. -/
theorem tallied_invariant (guard : Heap → Call → Prop) :
    (clientSystem guard).Invariant fun s => Tallied s.heap where
  init := by
    intro s hinit
    obtain ⟨m, sentinel, base, ok, rfl⟩ := hinit
    have hchunks := initializeHeap_osChunks m sentinel base
    rw [if_neg (ne_sbrkFailed ok.bound)] at hchunks
    refine ⟨?_, ?_, base, [], hchunks, ?_⟩
    · rw [hchunks]
      simp [initializeHeap, getMemoryFromOs, Heap.static]
    · simp [initializeHeap, getMemoryFromOs, Heap.static, chunkSize, arenaSize, sizeofHeader,
        sizeofFooter]
    · simp [initializeHeap, getMemoryFromOs, Heap.static, sizeofFooter]
  step := by
    intro s t hs hstep
    obtain ⟨c, sbrk, result, -, -, -, hrun, -⟩ := hstep
    exact hs.run hrun

/-! ### Blocks and bytes -/

/-- The bytes of the blocks that are free, or of those that are not. -/
def Layout.bytes (free : Bool) (L : Layout) : Nat :=
  ((L.blocks.filter fun b => b.2.free == free).map fun b => b.2.size).sum

theorem sum_placed (a : Nat) (cs : List Cell) :
    ((placed a cs).map fun b => b.2.size).sum = total cs := by
  induction cs generalizing a with
  | nil => rfl
  | cons c cs ih => simp [ih]

theorem sum_blocks {s : Nat} {L : Layout} (ok : LayoutOk s L) :
    (L.blocks.map fun b => b.2.size).sum = 2097200 * L.length := by
  have htotal := ok.total_eq
  clear ok
  induction L with
  | nil => rfl
  | cons c L ih =>
    rw [List.forall_mem_cons] at htotal
    rw [Layout.blocks_cons, List.map_append, List.sum_append, sum_placed, ih htotal.2, htotal.1,
      List.length_cons]
    omega

/-- Every block is free or in use. -/
theorem Layout.bytes_add (L : Layout) :
    L.bytes false + L.bytes true = (L.blocks.map fun b => b.2.size).sum := by
  unfold bytes
  induction L.blocks with
  | nil => rfl
  | cons b bs ih =>
    cases h : b.2.free <;> simp_all <;> omega

theorem Layout.freeAddrs_eq_filter (L : Layout) :
    L.freeAddrs = (L.blocks.filter fun b => b.2.free).map Prod.fst := by
  induction L with
  | nil => rfl
  | cons c L ih => simp [ih, Tiling.freeAddrs_eq_filter]

theorem placed_sorted (a : Nat) {cs : List Cell} (hpos : ∀ c ∈ cs, 0 < c.size) :
    (placed a cs).Pairwise fun b b' => b.1 < b'.1 := by
  induction cs generalizing a with
  | nil => exact .nil
  | cons c cs ih =>
    rw [List.forall_mem_cons] at hpos
    refine List.pairwise_cons.mpr ⟨fun b hb => ?_, ih _ hpos.2⟩
    have hbound := (placed_bounds hb).1
    have hc := hpos.1
    show a < b.1
    omega

/-- No two blocks have one address. -/
theorem LayoutOk.blocks_nodup {s : Nat} {L : Layout} (ok : LayoutOk s L) :
    (L.blocks.map Prod.fst).Nodup := by
  have hpos : ∀ c ∈ L, ∀ b ∈ c.cells, 0 < b.size := fun c hc b hb =>
    Nat.lt_of_lt_of_le (by omega) (ok.min_size c hc b hb)
  have hsorted : L.blocks.Pairwise fun b b' => b.1 < b'.1 := by
    rw [Layout.blocks, List.pairwise_flatMap]
    refine ⟨fun c hc => placed_sorted _ (hpos c hc),
      ok.ascending.imp_of_mem fun {c d} hc _ hcd b hb b' hb' => ?_⟩
    have hlow := (placed_bounds hb).2
    have hhigh := (placed_bounds hb').1
    have htotal := ok.total_eq c hc
    have hsize := hpos c hc b.2 (mem_of_mem_placed hb)
    omega
  exact List.pairwise_map.mpr (hsorted.imp Nat.ne_of_lt)

namespace Good

variable {h : Heap} {live : List Nat} {L : Layout}

/-- The client holds the blocks that are in use. -/
theorem live_perm (good : Good h live L) :
    live.Perm ((L.blocks.filter fun b => b.2.free == false).map fun b => b.1 + 32) := by
  refine (List.perm_ext_iff_of_nodup good.nodup ?_).mpr fun p => ?_
  · have hnodup := good.wf.ok.blocks_nodup
    have hsub := (List.filter_sublist (l := L.blocks) (p := fun b => b.2.free == false)).map Prod.fst
    have hmap := (hsub.nodup hnodup).map (f := (· + 32)) fun _ _ => Nat.add_right_cancel
    rw [List.map_map] at hmap
    exact hmap
  · rw [good.live_iff]
    constructor
    · intro hp
      obtain ⟨a, rfl, n, hblock⟩ := hp
      exact List.mem_map.mpr ⟨_, List.mem_filter.mpr ⟨hblock, rfl⟩, rfl⟩
    · intro hp
      obtain ⟨⟨a, n, free⟩, hblock, rfl⟩ := List.mem_map.mp hp
      obtain ⟨hblock, hfree⟩ := List.mem_filter.mp hblock
      obtain rfl : free = false := by simpa using hfree
      exact ⟨a, rfl, n, hblock⟩

theorem sum_live (good : Good h live L) : (live.map (objectSize h.mem)).sum = L.bytes false := by
  rw [(good.live_perm.map _).sum_eq, List.map_map, Layout.bytes]
  refine congrArg List.sum (List.map_congr_left fun b hb => ?_)
  obtain ⟨a, c⟩ := b
  simp [good.wf.header_size (List.mem_of_mem_filter hb)]

theorem sum_entries (good : Good h live L) {entries : List (Int × Nat)}
    (hentries : printList h = some entries) : (entries.map Prod.snd).sum = L.bytes true := by
  obtain rfl := Option.some.inj (good.wf.printList_eq.symm.trans hentries)
  rw [Layout.freeAddrs_eq_filter, List.map_map, List.map_map, Layout.bytes]
  simp only [beq_true]
  refine congrArg List.sum (List.map_congr_left fun b hb => ?_)
  obtain ⟨a, c⟩ := b
  simp [good.wf.header_size (List.mem_of_mem_filter hb)]

/-- When nothing is live, every chunk is one free block. -/
theorem layout_of_empty (good : Good h [] L) : L = emptyLayout 2097200 h.osChunks := by
  have hnone : ∀ a n, (a, ⟨n, false⟩) ∉ L.blocks := fun a n hblock =>
    List.not_mem_nil ((good.live_iff (a + 32)).mpr ⟨a, rfl, n, hblock⟩)
  have hsame : L.release (fun _ => true) = L :=
    Layout.release_of_none good.wf.ok fun a n hblock => absurd hblock (hnone a n)
  rw [← hsame, Layout.release_all good.wf.ok fun _ _ => rfl, emptyLayout, good.wf.chunks,
    List.map_map]
  rfl

/-- Then every request up to 2 MB is served at the start of the memory pool. -/
theorem malloc_of_empty (good : Good h [] L) (tallied : Tallied h) (sbrk : Nat) {size : Nat}
    (hsize : size ≤ 2097152) :
    ∃ h', malloc h sbrk size = some (h.memStart + 32, h') ∧ h'.osChunks = h.osChunks := by
  obtain ⟨base, bases, hchunks, hstart⟩ := tallied.memStart
  have hround : roundedSize size ≤ 2097200 := (roundedSize_le_iff (by omega)).mpr hsize
  let H : Hole := ⟨[], base, [], [], emptyLayout 2097200 bases⟩
  have hlayout : L = H.plug [⟨2097200, true⟩] := by
    rw [good.layout_of_empty, hchunks]
    rfl
  have wf : WellFormed { h with mallocCalls := h.mallocCalls + 1 } (H.plug [⟨2097200, true⟩]) :=
    hlayout ▸ good.wf.of_fields rfl rfl rfl rfl
  have haddr : H.addr + 32 = h.memStart + 32 := by rw [hstart]; rfl
  rw [← haddr]
  exact ⟨_, wf.allocateObject_fit hround hround (noFit_nil _), rfl⟩

end Good

/-- **No memory is lost.** In every run, the blocks behind the live pointers and
the blocks `print_list` shows make up all chunks, and the statistics count the
chunks. When nothing is live, `print_list` shows one block for each chunk, and a
request is served from the first, without a new chunk. -/
theorem memory_accounted {s : Client} (hs : (clientSystem Guarded).Reachable s) :
    ∃ entries, printList s.heap = some entries ∧
      (s.live.map (objectSize s.heap.mem)).sum + (entries.map Prod.snd).sum =
        2097200 * s.heap.numChunks ∧
      s.heap.numChunks = s.heap.osChunks.length ∧
      s.heap.heapSize = 2097248 * s.heap.numChunks % 2 ^ 64 ∧
      (s.live = [] →
        entries.map Prod.snd = List.replicate s.heap.numChunks 2097200 ∧
        ∀ sbrk size, size ≤ 2097152 → ∃ h', malloc s.heap sbrk size = some (s.heap.memStart + 32, h') ∧
          h'.osChunks = s.heap.osChunks) := by
  obtain ⟨L, good⟩ := clientSystem_invariant.holds hs
  have tallied := (tallied_invariant Guarded).holds hs
  refine ⟨_, good.wf.printList_eq, ?_, tallied.numChunks, tallied.heapSize, fun hempty => ?_⟩
  · rw [good.sum_live, good.sum_entries good.wf.printList_eq, L.bytes_add, sum_blocks good.wf.ok,
      tallied.numChunks, good.wf.chunks, List.length_map]
  · rw [hempty] at good
    refine ⟨?_, fun sbrk size => good.malloc_of_empty tallied sbrk⟩
    have wf : WellFormed s.heap (emptyLayout 2097200 s.heap.osChunks) :=
      good.layout_of_empty ▸ good.wf
    rw [← Option.some.inj (wf.printList_empty.symm.trans good.wf.printList_eq), List.map_map,
      tallied.numChunks]
    exact List.map_const' ..

/-- A heap fresh from `initialize` is one free block. -/
theorem memory_accounted_fresh :
    ∃ entries, printList Client.fresh.heap = some entries ∧ (entries.map Prod.snd).sum = 2097200 := by
  obtain ⟨entries, hentries, hsum, hnum, -⟩ := memory_accounted Client.reachable_fresh
  have hchunks : Client.fresh.heap.osChunks = [4096] := initializeHeap_osChunks ..
  refine ⟨entries, hentries, ?_⟩
  rw [hnum, hchunks] at hsum
  simpa [Client.fresh] using hsum

end Cs252.Malloc
