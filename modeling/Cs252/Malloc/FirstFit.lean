import Cs252.Malloc.FreeOrder

/-!
# Cs252.Malloc.FirstFit

A request that a free block can serve.

`ServesFirst` collects what `allocate_object` does then: which block the search
loop ends at, what becomes of it, and where the rest of it stands in the free
list. The lowest block that is large enough is the first one the search meets,
because the free list is in address order.

A block handed out this way has no free neighbour but its own rest. Freeing it
merges the two again, or puts the whole block back in its place: `free` undoes
`malloc`.
-/

namespace Cs252.Malloc

open Tiling LinkedRing

/-- A request of at most `ARENA_SIZE` bytes is raised to the minimum, extended by a
header and a footer and rounded up. -/
theorem roundedSize_of_le {size : Nat} (hsize : size ≤ 2097152) :
    roundedSize size = (max size 8 + 48 + 7) / 8 * 8 := by
  have hsmall : max size 8 + 55 < 2 ^ 64 := by omega
  rw [roundedSize_eq, Nat.mod_eq_of_lt hsmall]

theorem roundedSize_le_of_le {size : Nat} (hsize : size ≤ 2097152) :
    roundedSize size ≤ 2097200 :=
  (roundedSize_le_iff (by omega)).mpr hsize

/-- Some free block has at least `r` bytes. -/
def HasFit (r : Nat) (L : Layout) : Prop :=
  ∃ a c, (a, c) ∈ L.blocks ∧ c.free = true ∧ r ≤ c.size

/-- A free block that is large enough is found. -/
theorem HasFit.exists_hole {r : Nat} {L : Layout} (hfit : HasFit r L) :
    ∃ (H : Hole) (n : Nat), L = H.plug [⟨n, true⟩] ∧ r ≤ n ∧ NoFit r H.earlier ∧
      L.firstFit r = some (H.addr, H.plug (carve r n)) := by
  rcases Layout.firstFit_cases r L with hole | ⟨hnone, -⟩
  · exact hole
  · obtain ⟨a, c, hc, hfree, hr⟩ := hfit
    exact absurd hr (Nat.not_le.mpr (hnone a c hc hfree))

/-! ### The block that is chosen -/

namespace Hole

variable {H : Hole} {s r n b : Nat} {c : Cell}

/-- The free list around a free block. -/
theorem freeAddrs_free (H : Hole) (n : Nat) :
    (H.plug [⟨n, true⟩]).freeAddrs = H.freeBefore ++ H.addr :: H.freeAfter n := by
  simp [freeAddrs_plug]

/-- First in the free list is lowest in memory. -/
theorem addr_le_of_fit (ok : LayoutOk s (H.plug [⟨n, true⟩])) (hfirst : NoFit r H.earlier)
    (hb : (b, c) ∈ (H.plug [⟨n, true⟩]).blocks) (hfree : c.free = true) (hr : r ≤ c.size) :
    H.addr ≤ b := by
  have hmem : b ∈ (H.plug [⟨n, true⟩]).freeAddrs := Layout.mem_freeAddrs.mpr ⟨c, hb, hfree⟩
  have hsorted := ok.freeAddrs_sorted
  rw [freeAddrs_free] at hmem hsorted
  rcases List.mem_append.mp hmem with hbefore | hrest
  · -- a block before the hole is too small
    obtain ⟨d, hd, hdfree⟩ := mem_freeBefore.mp hbefore
    have hsame : c = d := by
      have hdis := ok.block_disjoint hb (mem_blocks_of_earlier hd)
      have hc := ok.block_min hb
      have hd := ok.block_min (mem_blocks_of_earlier hd)
      rcases hdis with ⟨-, he⟩ | hsep | hsep
      · exact he
      · omega
      · omega
    have hlt := hfirst b d hd hdfree
    rw [← hsame] at hlt
    exact absurd hr (Nat.not_le.mpr hlt)
  · obtain ⟨-, htail, -⟩ := List.pairwise_append.mp hsorted
    rcases List.mem_cons.mp hrest with rfl | hafter
    · exact Nat.le_refl _
    · exact Nat.le_of_lt ((List.pairwise_cons.mp htail).1 b hafter)

end Hole

/-! ### What the request does -/

/-- `allocate_object` serves a request of `size` bytes from the free block of `n`
bytes in the hole `H`, which leaves the memory `m'`. -/
structure ServesFirst (h : Heap) (L : Layout) (size : Nat) (H : Hole) (n : Nat)
    (m' : ByteMem) : Prop where
  layout : L = H.plug [⟨n, true⟩]
  fits : roundedSize size ≤ n
  /-- The block is the lowest of those that are large enough. -/
  lowest : ∀ b c, (b, c) ∈ L.blocks → c.free = true → roundedSize size ≤ c.size → H.addr ≤ b
  /-- The search loop ends at it. -/
  search : findFit h.mem h.sentinel (roundedSize size) loopBound (nextAt h.mem h.freeList)
    = some (some H.addr)
  /-- The call writes to memory and changes nothing else: `sbrk` is not asked. -/
  returns : ∀ sbrk, allocateObject h sbrk size = some (H.addr + 32, { h with mem := m' })
  policy : ∀ base, L.allocate (roundedSize size) base
    = (H.addr, H.plug (carve (roundedSize size) n))
  wellFormed : WellFormed { h with mem := m' } (H.plug (carve (roundedSize size) n))
  listed : L.freeAddrs = H.freeBefore ++ H.addr :: H.freeAfter n
  /-- A rest too small for a block is handed out too, and the block leaves the list. -/
  whole : n - roundedSize size < 56 → carve (roundedSize size) n = [⟨n, false⟩] ∧
    (H.plug (carve (roundedSize size) n)).freeAddrs = H.freeBefore ++ H.freeAfter n
  /-- Otherwise the rest is a free block, in the place of the block in the list. -/
  split : 56 ≤ n - roundedSize size →
    carve (roundedSize size) n
      = [⟨roundedSize size, false⟩, ⟨n - roundedSize size, true⟩] ∧
    (H.plug (carve (roundedSize size) n)).freeAddrs
      = H.freeBefore ++ (H.addr + roundedSize size) :: H.freeAfter n
  /-- Every other block stays, with all its bytes but the two links to this one. -/
  others : ∀ b c, (b, c) ∈ L.blocks → b ≠ H.addr →
    (b, c) ∈ (H.plug (carve (roundedSize size) n)).blocks
  frame : LinkFrame H.addr (H.addr + n) (lastOr h.sentinel H.freeBefore)
    (headOr h.sentinel (H.freeAfter n)) h.mem m'

/-- A request is served from the free list whenever some block fits. -/
theorem WellFormed.serves {h : Heap} {L : Layout} {size : Nat} (wf : WellFormed h L)
    (hsize : size ≤ 2097152) (hfit : HasFit (roundedSize size) L) :
    ∃ H n m', ServesFirst h L size H n m' := by
  have hsmall : size + 55 < 2 ^ 64 := by omega
  obtain ⟨hmin, -, -⟩ := roundedSize_bounds hsmall
  obtain ⟨H, n, rfl, hn, hfirst, hpolicy⟩ := hfit.exists_hole
  generalize hr : roundedSize size = r at hmin hn hfirst hpolicy
  obtain ⟨hframe, hwf, -⟩ := wf.serve hn (Or.inr (by omega)) rfl
  refine ⟨H, n, _, ⟨rfl, hr ▸ hn, ?_, ?_, fun sbrk => ?_, fun base => ?_, hr ▸ hwf,
    H.freeAddrs_free n, fun hwhole => ?_, fun hsplit => ?_, ?_, hframe⟩⟩
  · intro b c hb hfree hle
    exact Hole.addr_le_of_fit wf.ok hfirst hb hfree (hr ▸ hle)
  · rw [hr]
    exact wf.findFit_fit hn hfirst
  · rw [← hr]
    exact wf.allocateObject_fit (roundedSize_le_of_le hsize) (hr ▸ hn) (hr ▸ hfirst)
  · rw [hr]
    exact Layout.allocate_of_fit hpolicy
  · rw [hr] at hwhole ⊢
    rw [carve_whole hwhole]
    exact ⟨rfl, by simp [Hole.freeAddrs_plug]⟩
  · rw [hr] at hsplit ⊢
    rw [carve_split (Nat.not_lt.mpr hsplit)]
    exact ⟨rfl, by simp [Hole.freeAddrs_plug, Nat.add_sub_cancel' hn]⟩
  · intro b c hb hne
    have hout : (b, c) ∈ H.others n := by
      simpa [Hole.mem_blocks_plug, hne] using hb
    rw [hr]
    exact Hole.mem_blocks_plug.mpr (Or.inl (by rwa [total_carve hn]))

/-- **First fit.** On every well-formed heap whose blocks are aligned, a request that
some free block can serve takes the lowest such block: the whole of it when the
rest would be too small for a block, and its first bytes otherwise. -/
theorem allocateObject_firstFit {h : Heap} {L : Layout} {size : Nat} (wf : WellFormed h L)
    (haligned : ∀ a c, (a, c) ∈ L.blocks → 8 ∣ a ∧ 8 ∣ c.size) (hsize : size ≤ 2097152)
    (hfit : HasFit (roundedSize size) L) :
    roundedSize size = (max size 8 + 48 + 7) / 8 * 8 ∧
      ∃ H n m', ServesFirst h L size H n m' ∧ 8 ∣ H.addr + 32 ∧
        ∀ a c, (a, c) ∈ (H.plug (carve (roundedSize size) n)).blocks → 8 ∣ a ∧ 8 ∣ c.size := by
  refine ⟨roundedSize_of_le hsize, ?_⟩
  obtain ⟨H, n, m', serves⟩ := wf.serves hsize hfit
  have hr := dvd_roundedSize size
  obtain ⟨haddr, hn⟩ : 8 ∣ H.addr ∧ 8 ∣ n :=
    haligned H.addr ⟨n, true⟩ (serves.layout ▸ H.mem_blocks_plug_self)
  refine ⟨H, n, m', serves, Nat.dvd_add haddr (by decide), fun a c hc => ?_⟩
  rcases Hole.mem_blocks_plug.mp hc with hout | hin
  · rw [total_carve serves.fits] at hout
    exact haligned a c (serves.layout ▸ Hole.mem_blocks_plug.mpr (Or.inl (by simpa using hout)))
  · refine ⟨?_, dvd_size_of_mem_carve hr hn c (mem_of_mem_placed hin)⟩
    by_cases hwhole : n - roundedSize size < 56
    · rw [carve_whole hwhole] at hin
      obtain ⟨rfl, -⟩ : a = H.addr ∧ c = ⟨n, false⟩ := by simpa using hin
      exact haddr
    · rw [carve_split hwhole] at hin
      simp only [placed_cons, placed_nil, List.mem_cons, Prod.mk.injEq, List.not_mem_nil,
        or_false] at hin
      rcases hin with ⟨rfl, -⟩ | ⟨rfl, -⟩
      · exact haddr
      · exact Nat.dvd_add haddr hr

theorem sampleLayout_hasFit : HasFit (roundedSize 100) sampleLayout :=
  ⟨4416, ⟨2096896, true⟩, by decide, rfl, by decide⟩

/-- A third request of 100 bytes from the small heap. -/
theorem allocateObject_firstFit_third :
    ∃ H n m', ServesFirst sampleHeap sampleLayout 100 H n m' ∧ 8 ∣ H.addr + 32 := by
  have haligned : ∀ a c, (a, c) ∈ sampleLayout.blocks → 8 ∣ a ∧ 8 ∣ c.size := by
    intro a c hc
    simp only [sampleLayout, Layout.blocks_cons, Layout.blocks_nil, placed_cons, placed_nil,
      List.append_nil, List.mem_cons, Prod.mk.injEq, List.not_mem_nil, or_false] at hc
    rcases hc with ⟨rfl, rfl⟩ | ⟨rfl, rfl⟩ | ⟨rfl, rfl⟩ <;> decide
  obtain ⟨-, H, n, m', serves, hdvd, -⟩ :=
    allocateObject_firstFit sampleHeap_spec.1 haligned (by decide) sampleLayout_hasFit
  exact ⟨H, n, m', serves, hdvd⟩

/-! ### Handing out a block and freeing it -/

/-- Releasing what was handed out of a free block makes it one free block again. -/
theorem release_carve {s r n : Nat} {H : Hole} (ok : LayoutOk s (H.plug [⟨n, true⟩]))
    (ok' : LayoutOk s (H.plug (carve r n))) (hr : r ≤ n) :
    (H.plug (carve r n)).release (· == H.addr) = H.plug [⟨n, true⟩] := by
  have hmin : 48 ≤ n := ok.block_min H.mem_blocks_plug_self
  have htotal : total (carve r n) = n := total_carve hr
  -- the neighbours of the free block were in use, so its rest is all there is to merge
  obtain ⟨⟨-, hleft⟩, -, hright⟩ := normal_free_between.mp (ok.normal _ (H.chunk_mem [⟨n, true⟩]))
  rw [ok'.release_eq hleft hright (htotal.symm ▸ hmin) (mem_placed_carve.mpr ⟨rfl, rfl⟩)
    fun b k hb => (mem_placed_carve.mp hb).1, htotal]

/-- What `allocate_object` takes from a free block is a live block, and its release
gives back the layout. -/
theorem WellFormed.serves_released {h : Heap} {L : Layout} {size : Nat} (wf : WellFormed h L)
    (below : SentinelBelow h.sentinel L) (hsize : size ≤ 2097152)
    (hfit : HasFit (roundedSize size) L) : ∃ a k m' L',
      (∀ sbrk, allocateObject h sbrk size = some (a + 32, { h with mem := m' })) ∧
      WellFormed { h with mem := m' } L' ∧ (a, ⟨k, false⟩) ∈ L'.blocks ∧
      SentinelBelow h.sentinel L' ∧ L'.release (· == a) = L := by
  obtain ⟨H, n, m', serves⟩ := wf.serves hsize hfit
  obtain rfl := serves.layout
  refine ⟨H.addr, _, m', _, serves.returns, serves.wellFormed, WellFormed.mem_blocks_serve rfl,
    fun c hc => ?_, release_carve wf.ok serves.wellFormed.ok serves.fits⟩
  obtain ⟨d, hd, hbase, -⟩ := Hole.exists_chunk_of_mem_plug [⟨n, true⟩] hc
  exact hbase ▸ below d hd

/-- **`free` undoes `malloc`.** When a request is served from an existing free block,
freeing the pointer right away leaves the layout of the heap as it was, and with it
what the walk over the boundary tags of every chunk reports and what `print_list`
prints. -/
theorem malloc_free {h : Heap} {L : Layout} {size : Nat} (wf : WellFormed h L)
    (below : SentinelBelow h.sentinel L) (hsize : size ≤ 2097152)
    (hfit : HasFit (roundedSize size) L) (sbrk : Nat) :
    ∃ ptr m₁ m₂,
      malloc h sbrk size = some (ptr, { h with mem := m₁, mallocCalls := h.mallocCalls + 1 }) ∧
      free { h with mem := m₁, mallocCalls := h.mallocCalls + 1 } ptr
        = some { h with
            mem := m₂, mallocCalls := h.mallocCalls + 1, freeCalls := h.freeCalls + 1 } ∧
      WellFormed { h with mem := m₂ } L ∧
      (∀ base ∈ h.osChunks, chunkBlocks m₂ base = chunkBlocks h.mem base) ∧
      printList { h with mem := m₂ } = printList h := by
  have wf₀ : WellFormed { h with mallocCalls := h.mallocCalls + 1 } L := wf.of_fields rfl rfl rfl rfl
  obtain ⟨a, k, m₁, L', halloc, wf₁, hlive, below₁, hrelease⟩ :=
    wf₀.serves_released below hsize hfit
  have wf₁' : WellFormed { h with
      mem := m₁, mallocCalls := h.mallocCalls + 1, freeCalls := h.freeCalls + 1 } L' :=
    wf₁.of_fields rfl rfl rfl rfl
  obtain ⟨m₂, hfree, -, hwf⟩ := freeObject_sound wf₁' hlive
  have wf₂ : WellFormed { h with mem := m₂ } L :=
    hrelease ▸ (hwf below₁).of_fields rfl rfl rfl rfl
  refine ⟨a + 32, m₁, m₂, halloc sbrk, ?_, wf₂, fun base hbase => ?_, wf.printList_congr wf₂ rfl⟩
  · rw [free, if_pos (payload_ne_null a)]
    exact hfree
  · rw [wf.chunks] at hbase
    obtain ⟨c, hc, rfl⟩ := List.mem_map.mp hbase
    exact (wf₂.chunkBlocks_eq hc).trans (wf.chunkBlocks_eq hc).symm

/-- A third block of the small heap, handed out and freed. -/
theorem malloc_free_third :
    ∃ ptr m₁ m₂,
      malloc sampleHeap NULL 100
        = some (ptr, { sampleHeap with mem := m₁, mallocCalls := sampleHeap.mallocCalls + 1 }) ∧
      WellFormed { sampleHeap with mem := m₂ } sampleLayout ∧
      printList { sampleHeap with mem := m₂ } = printList sampleHeap := by
  obtain ⟨ptr, m₁, m₂, hmalloc, -, hwf, -, hlist⟩ :=
    malloc_free sampleHeap_spec.1 sampleHeap_below (by decide) sampleLayout_hasFit NULL
  exact ⟨ptr, m₁, m₂, hmalloc, hwf, hlist⟩

end Cs252.Malloc
