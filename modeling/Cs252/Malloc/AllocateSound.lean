import Cs252.Malloc.Extended
import Cs252.Malloc.Policy
import Cs252.Malloc.Updates

/-!
# Cs252.Malloc.AllocateSound

`allocate_object` implements first fit.

The search follows the links of the free list, so on a well-formed heap it
visits the free blocks in the order of the layout (`findFit_eq`). What the call
returns is then one of three things (`allocateObject_fit`,
`allocateObject_grow`, `allocateObject_oversized`), and `allocateObject_sound`
says that the heap afterwards represents `Layout.allocate`.

The size of the block is a rounded `size_t`. For requests within 55 bytes of
`2 ^ 64` the rounding wraps, and the block is smaller than its own header and
footer: `roundedSize_eq` covers both.
-/

namespace Cs252.Malloc

open Tiling LinkedRing

/-! ### Rounded sizes -/

/-- Masking with `~(SIZE_PRECISION - 1)` rounds down to a multiple of 8. -/
theorem and_sizeMask {x : Nat} (h : x < 2 ^ 64) : x &&& (2 ^ 64 - 8) = x / 8 * 8 := by
  have hmask : 2 ^ 64 - 8 = (2 ^ 61 - 1) <<< 3 := by decide
  have hshift : x / 8 * 8 = (x >>> 3) <<< 3 := by
    rw [Nat.shiftRight_eq_div_pow, Nat.shiftLeft_eq]
  apply Nat.eq_of_testBit_eq
  intro i
  rw [hmask, hshift, Nat.testBit_and, Nat.testBit_shiftLeft, Nat.testBit_shiftLeft,
    Nat.testBit_shiftRight, Nat.testBit_two_pow_sub_one]
  by_cases h3 : 3 ≤ i
  · rw [Nat.add_sub_cancel' h3]
    by_cases h64 : i < 64
    · simp [h3, show i - 3 < 61 by omega]
    · have hhigh : x.testBit i = false :=
        Nat.testBit_lt_two_pow (Nat.lt_of_lt_of_le h (Nat.pow_le_pow_right (by decide) (by omega)))
      simp [hhigh]
  · simp [h3]

theorem roundedSize_eq (size : Nat) :
    roundedSize size = (max size 8 + 55) % 2 ^ 64 / 8 * 8 := by
  have hmax : (if size < minimumSize then minimumSize else size) = max size 8 := by
    unfold minimumSize
    split <;> omega
  rw [roundedSize, hmax]
  exact and_sizeMask (Nat.mod_lt _ (by decide))

theorem dvd_roundedSize (size : Nat) : 8 ∣ roundedSize size := by
  rw [roundedSize_eq]
  exact Nat.dvd_mul_left 8 _

/-- A request that does not wrap is rounded up. -/
theorem roundedSize_bounds {size : Nat} (h : size + 55 < 2 ^ 64) :
    56 ≤ roundedSize size ∧ size + 48 ≤ roundedSize size ∧
      roundedSize size ≤ max size 8 + 55 := by
  rw [roundedSize_eq]
  omega

/-- A request that wraps gets less than a header and footer of its own, and one byte. -/
theorem roundedSize_wrapped {size : Nat} (h : 2 ^ 64 ≤ size + 55) (h' : size < 2 ^ 64) :
    roundedSize size = (size + 55 - 2 ^ 64) / 8 * 8 := by
  rw [roundedSize_eq]
  omega

theorem roundedSize_le_iff {size : Nat} (h : size + 55 < 2 ^ 64) :
    roundedSize size ≤ 2097200 ↔ size ≤ 2097152 := by
  rw [roundedSize_eq]
  omega

/-! ### The search -/

/-- The search visits the nodes of a segment that ends at the sentinel. -/
theorem findFit_eq {m : ByteMem} {s r p rounds : Nat} {l : List Nat} (hs : s ∉ l)
    (hseg : Seg (nextAt m) (prevAt m) p l s) (hlen : l.length < rounds) :
    findFit m s r rounds (nextAt m p) = some (l.find? fun a => r ≤ sizeAt m a) := by
  induction l generalizing p rounds with
  | nil =>
    cases rounds with
    | zero => simp at hlen
    | succ rounds =>
      rw [findFit, if_pos hseg.1]
      rfl
  | cons a l ih =>
    obtain ⟨hnext, -, htail⟩ := hseg
    have hne : a ≠ s := fun he => hs (he ▸ List.mem_cons_self)
    cases rounds with
    | zero => simp at hlen
    | succ rounds =>
      rw [findFit, hnext, if_neg hne, List.find?_cons]
      by_cases hfit : r ≤ sizeAt m a
      · simp [sizeofHeader, hfit]
      · have hlen' : l.length < rounds := Nat.lt_of_succ_lt_succ hlen
        have hrest := ih (fun h => hs (List.mem_cons_of_mem _ h)) htail hlen'
        simpa [sizeofHeader, hfit] using hrest

/-- Memory for a chunk is not the answer of a failing `sbrk`. -/
theorem ne_sbrkFailed {base : Nat} (hbound : base + 2097248 ≤ 2 ^ 64) : base ≠ sbrkFailed := by
  unfold sbrkFailed
  omega

/-- The heap once `sbrk` has answered `base` and memory has been updated to `m`. -/
def grownHeap (h : Heap) (base size : Nat) (m : ByteMem) : Heap :=
  { (getMemoryFromOs h base size).2 with mem := m }

section GrownHeap

variable (h : Heap) (base size : Nat) (m : ByteMem)

-- Proved by `simp`, so that no later proof compares the two heaps field by field.
@[simp] theorem grownHeap_mem : (grownHeap h base size m).mem = m := by
  simp [grownHeap]
@[simp] theorem grownHeap_sentinel : (grownHeap h base size m).sentinel = h.sentinel := by
  simp [grownHeap, getMemoryFromOs]
@[simp] theorem grownHeap_freeList : (grownHeap h base size m).freeList = h.freeList := by
  simp [grownHeap, getMemoryFromOs]
@[simp] theorem grownHeap_osChunks : (grownHeap h base size m).osChunks =
    if base = sbrkFailed then h.osChunks else h.osChunks ++ [base] := by
  simp [grownHeap, getMemoryFromOs]

end GrownHeap

/-- A request does not move the sentinel or the start of the memory pool. -/
theorem allocateObject_static {h h' : Heap} {sbrk size ptr : Nat}
    (heq : allocateObject h sbrk size = some (ptr, h')) :
    h'.sentinel = h.sentinel ∧ h'.memStart = h.memStart := by
  simp only [allocateObject, getMemoryFromOs] at heq
  split at heq
  · obtain ⟨-, rfl⟩ := Prod.mk.inj (Option.some.inj heq)
    exact ⟨rfl, rfl⟩
  · split at heq
    · cases heq
    · split at heq
      all_goals
        obtain ⟨-, rfl⟩ := Prod.mk.inj (Option.some.inj heq)
        exact ⟨rfl, rfl⟩
    · split at heq
      · cases heq
      · obtain ⟨-, rfl⟩ := Prod.mk.inj (Option.some.inj heq)
        exact ⟨rfl, rfl⟩

/-! ### The C interface -/

section Interface

variable {h h₁ h' : Heap} {m : ByteMem} {sbrk size n k l ptr q : Nat}

/-- `calloc` fills the block handed out with zeros. -/
theorem calloc_of_allocate (hk : n * l % 2 ^ 64 = k)
    (heq : allocateObject { h with callocCalls := h.callocCalls + 1 } sbrk k = some (q, h₁))
    (hq : q ≠ NULL) : calloc h sbrk n l = some (q, { h₁ with mem := h₁.mem.fill q 0 k }) := by
  simp only [calloc, hk, heq]
  exact if_pos hq

theorem calloc_of_refused (hk : n * l % 2 ^ 64 = k)
    (heq : allocateObject { h with callocCalls := h.callocCalls + 1 } sbrk k = some (NULL, h₁)) :
    calloc h sbrk n l = some (NULL, h₁) := by
  simp only [calloc, hk, heq]
  exact if_neg (not_not.mpr rfl)

/-- `realloc` of the null pointer allocates. -/
theorem realloc_null
    (heq : allocateObject { h with reallocCalls := h.reallocCalls + 1 } sbrk size = some (q, h₁)) :
    realloc h sbrk NULL size = some (q, h₁) := by
  simp only [realloc, heq]
  exact if_neg (not_not.mpr rfl)

/-- The steps of `realloc`, when none of them fails. -/
theorem realloc_of_steps (hptr : ptr ≠ NULL)
    (halloc : allocateObject { h with reallocCalls := h.reallocCalls + 1 } sbrk size = some (q, h₁))
    (hcopy : reallocCopy h₁.mem q ptr size = some m)
    (hfree : freeObject { h₁ with mem := m } ptr = some h') :
    realloc h sbrk ptr size = some (q, h') := by
  simp only [realloc, halloc, if_pos hptr, hcopy, hfree, Option.map_some]

end Interface

namespace WellFormed

variable {h : Heap} {L : Layout} {H : Hole} {n r : Nat}

/-- The search for a block of `r` bytes looks for the first such free block. -/
theorem findFit_eq (wf : WellFormed h L) (r : Nat) :
    findFit h.mem h.sentinel r loopBound (nextAt h.mem h.freeList)
      = some (L.freeAddrs.find? fun a => r ≤ sizeAt h.mem a) := by
  rw [wf.freeList]
  exact Malloc.findFit_eq (List.nodup_cons.mp wf.ok.nodes_nodup).1 wf.rep.ring.seg
    wf.ok.length_freeAddrs_lt

theorem header_size (wf : WellFormed h L) {a : Nat} {c : Cell} (hc : (a, c) ∈ L.blocks) :
    sizeAt h.mem a = c.size :=
  (wf.rep.tags a c hc).header_size

theorem findFit_fit (wf : WellFormed h (H.plug [⟨n, true⟩])) (hr : r ≤ n)
    (hfirst : NoFit r H.earlier) :
    findFit h.mem h.sentinel r loopBound (nextAt h.mem h.freeList) = some (some H.addr) := by
  have hsize : sizeAt h.mem H.addr = n := wf.header_size H.mem_blocks_plug_self
  have hbefore : H.freeBefore.find? (fun a => r ≤ sizeAt h.mem a) = none := by
    rw [List.find?_eq_none]
    intro a ha
    obtain ⟨c, hc, hfree⟩ := Hole.mem_freeBefore.mp ha
    have hlt := hfirst a c hc hfree
    rw [wf.header_size (Hole.mem_blocks_of_earlier hc)]
    simpa using hlt
  rw [wf.findFit_eq, Hole.freeAddrs_plug, List.find?_append, hbefore]
  simp [hsize, hr]

theorem findFit_none (wf : WellFormed h L) (hnone : NoFit r L.blocks) :
    findFit h.mem h.sentinel r loopBound (nextAt h.mem h.freeList) = some none := by
  rw [wf.findFit_eq, List.find?_eq_none.mpr]
  intro a ha
  obtain ⟨c, hc, hfree⟩ := Layout.mem_freeAddrs.mp ha
  have hlt := hnone a c hc hfree
  rw [wf.header_size hc]
  simpa using hlt

/-! ### What the call does -/

theorem allocateObject_oversized {sbrk size : Nat} (hbig : 2097200 < roundedSize size) :
    allocateObject h sbrk size = some (NULL, h) := by
  rw [allocateObject]
  exact if_pos hbig

/-- A free block that is large enough is handed out whole or cut. -/
theorem allocateObject_fit {sbrk size : Nat} (wf : WellFormed h (H.plug [⟨n, true⟩]))
    (hmax : roundedSize size ≤ 2097200) (hr : roundedSize size ≤ n)
    (hfirst : NoFit (roundedSize size) H.earlier) :
    allocateObject h sbrk size = some (H.addr + 32, { h with
      mem := if n - roundedSize size < 56 then unlink (markAllocated h.mem H.addr) H.addr
        else relinkSplit (tagSplit h.mem H.addr (roundedSize size)) H.addr
          (H.addr + roundedSize size) }) := by
  have hsize : sizeAt h.mem H.addr = n := wf.header_size H.mem_blocks_plug_self
  have hnot : ¬arenaSize + sizeofHeader + sizeofFooter < roundedSize size := Nat.not_lt.mpr hmax
  rw [allocateObject]
  simp only [if_neg hnot, wf.findFit_fit hr hfirst]
  simp only [sizeofHeader, sizeofFooter, minimumSize, objectSize_payload, hsize, Nat.reduceAdd]
  by_cases hwhole : n - roundedSize size < 56
  · rw [if_pos hwhole, if_pos hwhole]
  · rw [if_neg hwhole, if_neg hwhole]

/-- When no block fits, a new chunk is laid out. -/
theorem allocateObject_grow {sbrk size : Nat} (wf : WellFormed h L)
    (hmax : roundedSize size ≤ 2097200) (hnone : NoFit (roundedSize size) L.blocks)
    (hsbrk : sbrk ≠ sbrkFailed) :
    allocateObject h sbrk size = some (sbrk + 48,
      grownHeap h sbrk chunkSize (layOutChunk h.mem h.sentinel sbrk (roundedSize size))) := by
  have hnot : ¬arenaSize + sizeofHeader + sizeofFooter < roundedSize size := Nat.not_lt.mpr hmax
  rw [allocateObject]
  simp only [if_neg hnot, wf.findFit_none hnone]
  simp only [grownHeap, getMemoryFromOs, wf.freeList, sizeofHeader, sizeofFooter]
  exact if_neg hsbrk

/-- When no block fits and `sbrk` fails, the call does not return. -/
theorem allocateObject_faults {size : Nat} (wf : WellFormed h L)
    (hmax : roundedSize size ≤ 2097200) (hnone : NoFit (roundedSize size) L.blocks) :
    allocateObject h sbrkFailed size = none := by
  have hnot : ¬arenaSize + sizeofHeader + sizeofFooter < roundedSize size := Nat.not_lt.mpr hmax
  rw [allocateObject]
  simp only [if_neg hnot, wf.findFit_none hnone]
  exact if_pos rfl

/-! ### Handing out a block of the free list -/

/-- The links of a free block lead to its neighbours in the list. -/
theorem links (wf : WellFormed h (H.plug [⟨n, true⟩])) :
    prevAt h.mem H.addr = lastOr h.sentinel H.freeBefore ∧
      nextAt h.mem H.addr = headOr h.sentinel (H.freeAfter n) := by
  have hring := wf.rep.ring
  rw [Hole.freeAddrs_plug] at hring
  have hring' : IsRing (nextAt h.mem) (prevAt h.mem) h.sentinel
      (H.freeBefore ++ H.addr :: H.freeAfter n) := by simpa using hring
  exact ⟨hring'.prev_node, hring'.next_node⟩

theorem takeWhole (wf : WellFormed h (H.plug [⟨n, true⟩])) {m' : ByteMem}
    (hm : m' = unlink (markAllocated h.mem H.addr) H.addr) :
    LinkFrame H.addr (H.addr + n) (lastOr h.sentinel H.freeBefore)
        (headOr h.sentinel (H.freeAfter n)) h.mem m' ∧
      WellFormed { h with mem := m' } (H.plug [⟨n, false⟩]) := by
  have hblock := H.mem_blocks_plug_self (c := ⟨n, true⟩)
  have hmin := wf.ok.block_min hblock
  obtain ⟨hprev, hnext⟩ := wf.links
  obtain ⟨hframe, htags, hseg⟩ :=
    takeWhole_spec (wf.rep.tags _ _ hblock) hmin hprev hnext (Hole.gap wf.ok) hm
  have hnormal := wf.ok.normal _ (H.chunk_mem [⟨n, true⟩])
  obtain ⟨⟨hpre, -⟩, hpost, -⟩ := normal_free_between.mp hnormal
  refine ⟨hframe, wf.refill rfl ?_ (normal_used_between.mpr ⟨hpre, hpost⟩) hframe ?_ hseg⟩
  · intro c hc
    obtain rfl := List.mem_singleton.mp hc
    exact hmin
  · intro a c hc
    obtain ⟨rfl, rfl⟩ : a = H.addr ∧ c = ⟨n, false⟩ := by simpa using hc
    exact htags

theorem split (wf : WellFormed h (H.plug [⟨n, true⟩])) (hr : 48 ≤ r) (hrn : r + 48 ≤ n)
    (hcarve : carve r n = [⟨r, false⟩, ⟨n - r, true⟩]) {m' : ByteMem}
    (hm : m' = relinkSplit (tagSplit h.mem H.addr r) H.addr (H.addr + r)) :
    LinkFrame H.addr (H.addr + n) (lastOr h.sentinel H.freeBefore)
        (headOr h.sentinel (H.freeAfter n)) h.mem m' ∧
      WellFormed { h with mem := m' } (H.plug (carve r n)) := by
  have hblock := H.mem_blocks_plug_self (c := ⟨n, true⟩)
  obtain ⟨hprev, hnext⟩ := wf.links
  obtain ⟨hframe, htags, hrest, hseg⟩ := split_spec (wf.header_size hblock) hr hrn
    (wf.ok.block_bound hblock) hprev hnext (Hole.gap wf.ok) hm
  refine ⟨hframe, wf.refill ?_ (carve_min hr (by omega))
    (normal_carve (wf.ok.normal _ (H.chunk_mem _))) hframe ?_ ?_⟩
  · rw [total_carve (by omega)]
    rfl
  · intro a c hc
    rw [hcarve] at hc
    simp only [placed_cons, placed_nil, List.mem_cons, Prod.mk.injEq, List.not_mem_nil,
      or_false] at hc
    rcases hc with ⟨rfl, rfl⟩ | ⟨rfl, rfl⟩
    · exact htags
    · exact hrest
  · rw [hcarve]
    exact hseg

/-- What a request takes from a free block: the whole of it, or its first `r` bytes. -/
theorem serve (wf : WellFormed h (H.plug [⟨n, true⟩])) (hrn : r ≤ n) (hr : n - r < 56 ∨ 48 ≤ r)
    {m' : ByteMem} (hm : m' = if n - r < 56 then unlink (markAllocated h.mem H.addr) H.addr
      else relinkSplit (tagSplit h.mem H.addr r) H.addr (H.addr + r)) :
    LinkFrame H.addr (H.addr + n) (lastOr h.sentinel H.freeBefore)
        (headOr h.sentinel (H.freeAfter n)) h.mem m' ∧
      WellFormed { h with mem := m' } (H.plug (carve r n)) ∧
      ∀ x, H.addr + 32 ≤ x → x < H.addr + (if n - r < 56 then n else r) - 16 →
        m' x = h.mem x := by
  have hblock := H.mem_blocks_plug_self (c := ⟨n, true⟩)
  have hgap : Gap H.addr (H.addr + n) (lastOr h.sentinel H.freeBefore)
      (headOr h.sentinel (H.freeAfter n)) := Hole.gap wf.ok
  have hsize : sizeAt h.mem H.addr = n := wf.header_size hblock
  obtain ⟨hprev, hnext⟩ := wf.links
  by_cases hwhole : n - r < 56
  · rw [if_pos hwhole] at hm ⊢
    obtain ⟨hframe, hwf⟩ := wf.takeWhole hm
    rw [carve_whole hwhole]
    refine ⟨hframe, hwf, fun x hx hx' => ?_⟩
    rw [hm]
    exact takeWhole_payload (wf.rep.tags _ _ hblock) (wf.ok.block_min hblock) hprev hnext hgap hx hx'
  · rw [if_neg hwhole] at hm ⊢
    have hr := hr.resolve_left hwhole
    obtain ⟨hframe, hwf⟩ := wf.split hr (by omega) (carve_split hwhole) hm
    refine ⟨hframe, hwf, fun x hx hx' => ?_⟩
    rw [hm]
    exact split_payload hsize hr (by omega) (wf.ok.block_bound hblock) hprev hnext hgap hx hx'

/-- A block in use is none of a hole with one free block. -/
theorem mem_others_of_used {b k : Nat} (hb : (b, ⟨k, false⟩) ∈ (H.plug [⟨n, true⟩]).blocks) :
    (b, ⟨k, false⟩) ∈ H.others n := by
  simpa [Hole.mem_blocks_plug] using hb

theorem used_sep (wf : WellFormed h (H.plug [⟨n, true⟩])) {b k : Nat}
    (hb : (b, ⟨k, false⟩) ∈ (H.plug [⟨n, true⟩]).blocks) : b + k ≤ H.addr ∨ H.addr + n ≤ b := by
  have htotal : total [(⟨n, true⟩ : Cell)] = n := by simp
  have hsep := Hole.others_sep wf.ok (htotal.symm ▸ mem_others_of_used hb)
  rwa [htotal] at hsep

/-- The block that a request takes from a free block. -/
theorem mem_blocks_serve (hk : (if n - r < 56 then n else r) = s) :
    (H.addr, ⟨s, false⟩) ∈ (H.plug (carve r n)).blocks :=
  Hole.mem_blocks_plug.mpr (Or.inr (mem_placed_carve.mpr ⟨rfl, hk.symm⟩))

/-! ### Growing the heap -/

end WellFormed

/-- The rest of a new chunk is a block of its own, or there is none. The code
checks this for a block of the free list, not for a new chunk. -/
def RestFits (r : Nat) : Prop := r + 48 ≤ 2097200 ∨ r = 2097200

instance (r : Nat) : Decidable (RestFits r) := inferInstanceAs (Decidable (_ ∨ _))

/-- The answer of `sbrk`: memory for a chunk, apart from the other chunks and
from the sentinel. -/
structure ApartChunk (sentinel : Nat) (L : Layout) (base : Nat) : Prop where
  apart : ∀ c ∈ L, c.base + 2097248 ≤ base ∨ base + 2097248 ≤ c.base
  bound : base + 2097248 ≤ 2 ^ 64
  sentinel_sep : sentinel + 32 ≤ base ∨ base + 2097248 ≤ sentinel

namespace ApartChunk

variable {s base : Nat} {L : Layout}

theorem ne_failed (fresh : ApartChunk s L base) : base ≠ sbrkFailed :=
  ne_sbrkFailed fresh.bound

/-- The new chunk does not overlap a block. -/
theorem block_sep (fresh : ApartChunk s L base) (ok : LayoutOk s L) {a : Nat} {c : Cell}
    (hc : (a, c) ∈ L.blocks) : a + c.size ≤ base ∨ base + 2097248 ≤ a := by
  obtain ⟨ch, hch, hlo, hhi⟩ := ok.block_in_chunk hc
  have := fresh.apart ch hch
  omega

/-- The new chunk does not overlap a node of the free list. -/
theorem node_sep (fresh : ApartChunk s L base) (ok : LayoutOk s L) {q : Nat}
    (hq : q ∈ s :: L.freeAddrs) : q + 32 ≤ base ∨ base + 2097248 ≤ q := by
  rcases List.mem_cons.mp hq with rfl | hq
  · exact fresh.sentinel_sep
  · obtain ⟨c, hc, -⟩ := Layout.mem_freeAddrs.mp hq
    have := fresh.block_sep ok hc
    have := ok.block_min hc
    omega

/-- The end of the free list and the sentinel, around the new chunk. -/
theorem gap (fresh : ApartChunk s L base) (ok : LayoutOk s L) :
    Gap base (base + 2097248) (lastOr s L.freeAddrs) s where
  left := fresh.node_sep ok (lastOr_mem s _)
  right := fresh.sentinel_sep
  apart := ok.nodes_sep (lastOr_mem s _) List.mem_cons_self

end ApartChunk

/-- The answer of `sbrk`, when it moves the end of the heap up. -/
structure FreshChunk (sentinel : Nat) (L : Layout) (base : Nat) : Prop where
  above : ∀ c ∈ L, c.base + 2097248 ≤ base
  bound : base + 2097248 ≤ 2 ^ 64
  sentinel_sep : sentinel + 32 ≤ base ∨ base + 2097248 ≤ sentinel

namespace FreshChunk

variable {s base : Nat} {L : Layout} {cells : List Cell}

theorem toApart (fresh : FreshChunk s L base) : ApartChunk s L base :=
  ⟨fun c hc => Or.inl (fresh.above c hc), fresh.bound, fresh.sentinel_sep⟩

/-- The layout with the new chunk is legal. -/
theorem layoutOk (fresh : FreshChunk s L base) (ok : LayoutOk s L) (htotal : total cells = 2097200)
    (hmin : ∀ c ∈ cells, 48 ≤ c.size) (hnormal : Normal cells) :
    LayoutOk s (L ++ [⟨base, cells⟩]) := by
  have hmem : ∀ {P : Chunk → Prop}, (∀ c ∈ L, P c) → P ⟨base, cells⟩ →
      ∀ c ∈ L ++ [⟨base, cells⟩], P c := by
    intro P hold hnew c hc
    rcases List.mem_append.mp hc with hc | hc
    · exact hold c hc
    · exact List.mem_singleton.mp hc ▸ hnew
  constructor
  · exact hmem ok.total_eq htotal
  · exact hmem ok.min_size hmin
  · exact hmem ok.normal hnormal
  · rw [List.pairwise_append]
    refine ⟨ok.ascending, List.pairwise_singleton _ _, fun c hc d hd => ?_⟩
    obtain rfl := List.mem_singleton.mp hd
    exact fresh.above c hc
  · exact hmem ok.bound fresh.bound
  · exact hmem ok.sentinel_sep fresh.sentinel_sep
  · exact ok.sentinel_bound

end FreshChunk

namespace WellFormed

variable {h : Heap} {L : Layout} {base : Nat} {cells : List Cell} {m' : ByteMem}

/-- The nodes of a new chunk follow those of the free list. -/
theorem ring_grown (wf : WellFormed h L) (apart : ApartChunk h.sentinel L base) {extra : List Nat}
    (hframe : LinkFrame base (base + 2097248) (lastOr h.sentinel L.freeAddrs) h.sentinel h.mem m')
    (hextra : ∀ q ∈ extra, base ≤ q ∧ q + 32 ≤ base + 2097248) (hnodup : extra.Nodup)
    (hseg : Seg (nextAt m') (prevAt m') (lastOr h.sentinel L.freeAddrs) extra h.sentinel) :
    IsRing (nextAt m') (prevAt m') h.sentinel (L.freeAddrs ++ extra) := by
  have hp := lastOr_mem h.sentinel L.freeAddrs
  have hn : h.sentinel ∈ h.sentinel :: L.freeAddrs := List.mem_cons_self
  -- the new nodes are apart from the old ones
  have hout : ∀ q ∈ extra, q ∉ h.sentinel :: L.freeAddrs := by
    intro q hq hmem
    have := apart.node_sep wf.ok hmem
    have := hextra q hq
    omega
  have hold : IsRing (nextAt h.mem) (prevAt h.mem) h.sentinel (L.freeAddrs ++ ([] ++ [])) := by
    simpa using wf.rep.ring
  have hlinks : ∀ a ∈ h.sentinel :: (L.freeAddrs ++ []),
      (a ≠ lastOr h.sentinel L.freeAddrs → nextAt m' a = nextAt h.mem a) ∧
        (a ≠ h.sentinel → prevAt m' a = prevAt h.mem a) := by
    intro a ha
    rw [List.append_nil] at ha
    have hchunk := apart.node_sep wf.ok ha
    exact hframe.links (by omega) (wf.ok.nodes_sep ha hp) (wf.ok.nodes_sep ha hn)
  rw [← List.append_nil extra]
  refine hold.splice ?_ (fun a ha => (hlinks a ha).1) (fun a ha => (hlinks a ha).2) hseg
  rw [List.append_nil, ← List.cons_append]
  exact List.nodup_append'.mpr ⟨wf.ok.nodes_nodup, hnodup, fun q hq hq' => hout q hq' hq⟩

/-- An update that stays inside a new chunk except for the links at the end of
the free list, and appends nodes of the chunk to the list, extends the heap. -/
theorem grow_extended (wf : WellFormed h L) (apart : ApartChunk h.sentinel L base)
    {extra : List Nat}
    (hframe : LinkFrame base (base + 2097248) (lastOr h.sentinel L.freeAddrs) h.sentinel h.mem m')
    (hextra : ∀ q ∈ extra, base ≤ q ∧ q + 32 ≤ base + 2097248) (hnodup : extra.Nodup)
    (hsep : ∀ q ∈ extra, ∀ q' ∈ extra, q = q' ∨ q + 32 ≤ q' ∨ q' + 32 ≤ q)
    (hseg : Seg (nextAt m') (prevAt m') (lastOr h.sentinel L.freeAddrs) extra h.sentinel) :
    Extended (grownHeap h base chunkSize m') L extra := by
  have hp := lastOr_mem h.sentinel L.freeAddrs
  have hn : h.sentinel ∈ h.sentinel :: L.freeAddrs := List.mem_cons_self
  have hbound := apart.bound
  constructor
  · rw [grownHeap_sentinel]
    exact wf.ok
  · intro a c hc
    rw [grownHeap_mem]
    exact hframe.tags wf.ok hp hn hc (apart.block_sep wf.ok hc) (wf.rep.tags a c hc)
  · intro c hc
    rw [grownHeap_mem]
    exact hframe.fenceposts wf.ok hp hn hc (Or.inr (apart.apart c hc)) (wf.rep.fenceposts c hc)
  · rw [grownHeap_mem, grownHeap_sentinel]
    exact wf.ring_grown apart hframe hextra hnodup hseg
  · intro q hq
    have := hextra q hq
    omega
  · intro q hq c hc
    have := hextra q hq
    have := apart.apart c hc
    omega
  · intro q hq q' hq'
    rw [grownHeap_sentinel] at hq'
    rcases List.mem_cons.mp hq' with rfl | hq'
    · have := hextra q hq
      have := apart.sentinel_sep
      omega
    · exact hsep q hq q' hq'

/-- **Growing the heap.** An update that stays inside a fresh chunk except for
the links at the end of the free list, lays the chunk out and appends its free
cells to the list gives a heap representing the layout with the new chunk. -/
theorem grow (wf : WellFormed h L) (fresh : FreshChunk h.sentinel L base)
    (htotal : total cells = 2097200) (hmin : ∀ c ∈ cells, 48 ≤ c.size) (hnormal : Normal cells)
    (hframe : LinkFrame base (base + 2097248) (lastOr h.sentinel L.freeAddrs) h.sentinel h.mem m')
    (hfence : Fenceposts m' base)
    (htags : ∀ a c, (a, c) ∈ placed (base + 16) cells → CellTags m' a c)
    (hseg : Seg (nextAt m') (prevAt m') (lastOr h.sentinel L.freeAddrs)
      (Tiling.freeAddrs (base + 16) cells) h.sentinel) :
    WellFormed (grownHeap h base chunkSize m')
      (L ++ [⟨base, cells⟩]) := by
  have ok' := fresh.layoutOk wf.ok htotal hmin hnormal
  have hlist : Layout.freeAddrs (L ++ [⟨base, cells⟩])
      = L.freeAddrs ++ Tiling.freeAddrs (base + 16) cells := by simp
  have hnodes : ∀ q ∈ Tiling.freeAddrs (base + 16) cells,
      q ∈ h.sentinel :: Layout.freeAddrs (L ++ [⟨base, cells⟩]) := by
    intro q hq
    rw [hlist]
    exact List.mem_cons_of_mem _ (List.mem_append_right _ hq)
  have e : Extended (grownHeap h base chunkSize m') L (Tiling.freeAddrs (base + 16) cells) := by
    refine wf.grow_extended fresh.toApart hframe (fun q hq => ?_) ?_
      (fun q hq q' hq' => ok'.nodes_sep (hnodes q hq) (hnodes q' hq')) hseg
    · obtain ⟨d, hd, -⟩ := Tiling.mem_freeAddrs.mp hq
      have := placed_bounds hd
      have := hmin d (mem_of_mem_placed hd)
      omega
    · have hnodup := ok'.nodes_nodup
      rw [hlist] at hnodup
      exact hnodup.sublist (by simp)
  refine ⟨?_, ⟨?_, ?_, ?_⟩, ?_, ?_⟩
  · rw [grownHeap_sentinel]
    exact ok'
  · intro a c hc
    rw [Layout.blocks_append, List.mem_append] at hc
    rcases hc with hc | hc
    · exact e.tags a c hc
    · rw [grownHeap_mem]
      exact htags a c (by simpa using hc)
  · intro c hc
    rcases List.mem_append.mp hc with hc | hc
    · exact e.fenceposts c hc
    · obtain rfl := List.mem_singleton.mp hc
      rw [grownHeap_mem]
      exact hfence
  · rw [hlist]
    exact e.ring
  · rw [grownHeap_freeList, grownHeap_sentinel]
    exact wf.freeList
  · simp [fresh.toApart.ne_failed, wf.chunks]

/-- The end of the free list is the sentinel's predecessor. -/
theorem prev_sentinel (wf : WellFormed h L) :
    prevAt h.mem h.sentinel = lastOr h.sentinel L.freeAddrs :=
  wf.rep.ring.seg.prev_last

theorem growSplit (wf : WellFormed h L) (fresh : FreshChunk h.sentinel L base) {r : Nat}
    (hr : 48 ≤ r) (hr' : r + 48 ≤ 2097200) (hm : m' = layOutChunk h.mem h.sentinel base r) :
    WellFormed (grownHeap h base chunkSize m')
      (L ++ [⟨base, carveNew r⟩]) := by
  have hcells : carveNew r = [⟨r, false⟩, ⟨2097200 - r, true⟩] := if_pos (by omega)
  have hgap := fresh.toApart.gap wf.ok
  obtain ⟨hfence, hnew, hrest, hseg⟩ := layOutChunk_split_spec (t := 2097200 - r) hr (by omega)
    (by omega) fresh.bound wf.ok.sentinel_bound wf.prev_sentinel hgap hm
  have hframe : LinkFrame base (base + 2097248) (lastOr h.sentinel L.freeAddrs) h.sentinel
      h.mem m' := hm ▸ layOutChunk_frame (by omega) fresh.bound wf.prev_sentinel hgap
  refine wf.grow fresh (total_carveNew (by omega)) ?_ (normal_carveNew r) hframe hfence ?_ ?_
  · rw [hcells]
    intro c hc
    rcases List.mem_cons.mp hc with rfl | hc
    · exact hr
    · obtain rfl := List.mem_singleton.mp hc
      simp only
      omega
  · rw [hcells]
    intro a c hc
    simp only [placed_cons, placed_nil, List.mem_cons, Prod.mk.injEq, List.not_mem_nil,
      or_false] at hc
    rcases hc with ⟨rfl, rfl⟩ | ⟨rfl, rfl⟩
    · exact hnew
    · exact hrest
  · rw [hcells]
    exact hseg

/-- An update inside a new chunk leaves the free list as it is. -/
theorem seg_of_outside (wf : WellFormed h L) (apart : ApartChunk h.sentinel L base)
    (hout : ∀ x, (x < base ∨ base + 2097248 ≤ x) → m' x = h.mem x) :
    Seg (nextAt m') (prevAt m') (lastOr h.sentinel L.freeAddrs) [] h.sentinel := by
  have hnode : ∀ q ∈ h.sentinel :: L.freeAddrs,
      nextAt m' q = nextAt h.mem q ∧ prevAt m' q = prevAt h.mem q := by
    intro q hq
    have := apart.node_sep wf.ok hq
    exact ⟨nextAt_congr fun x _ _ => hout x (by omega),
      prevAt_congr fun x _ _ => hout x (by omega)⟩
  have hlast := hnode _ (lastOr_mem h.sentinel L.freeAddrs)
  have hend := hnode _ (List.mem_cons_self (a := h.sentinel))
  have hring : IsRing (nextAt h.mem) (prevAt h.mem) h.sentinel (L.freeAddrs ++ []) := by
    simpa using wf.rep.ring
  exact ⟨hlast.1.trans hring.next_gap, hend.2.trans wf.prev_sentinel⟩

theorem growWhole (wf : WellFormed h L) (fresh : FreshChunk h.sentinel L base) {r : Nat}
    (hr : r = 2097200) (hm : m' = layOutChunk h.mem h.sentinel base r) :
    WellFormed (grownHeap h base chunkSize m')
      (L ++ [⟨base, carveNew r⟩]) := by
  have hcells : carveNew r = [⟨r, false⟩] := if_neg (by omega)
  obtain ⟨hout, hfence, hnew⟩ := layOutChunk_whole_spec fresh.bound (hr ▸ hm)
  rw [← hr] at hnew
  refine wf.grow fresh (total_carveNew (by omega)) ?_ (normal_carveNew r) ?_ hfence ?_ ?_
  · rw [hcells]
    intro c hc
    obtain rfl := List.mem_singleton.mp hc
    simp only
    omega
  · intro x hx _ _
    exact hout x hx
  · rw [hcells]
    intro a c hc
    obtain ⟨rfl, rfl⟩ : a = base + 16 ∧ c = ⟨r, false⟩ := by simpa using hc
    exact hnew
  · rw [hcells]
    exact wf.seg_of_outside fresh.toApart hout

/-! ### First fit -/

/-- The block handed out was not in use. -/
theorem not_live_allocate (wf : WellFormed h L) {r sbrk : Nat}
    (hgrow : L.firstFit r = none → FreshChunk h.sentinel L sbrk) :
    ¬L.Live (L.allocate r sbrk).1 := by
  intro ⟨m, hm⟩
  rcases Layout.firstFit_cases r L with ⟨H, n, rfl, -, -, hfit⟩ | ⟨-, hfit⟩
  · rw [Layout.allocate_of_fit hfit] at hm
    have hfree := H.mem_blocks_plug_self (c := ⟨n, true⟩)
    have hmin := wf.ok.block_min hm
    have hmin' := wf.ok.block_min hfree
    rcases wf.ok.block_disjoint hm hfree with ⟨-, heq⟩ | hsep | hsep
    · simp at heq
    · omega
    · omega
  · rw [Layout.allocate_of_none hfit] at hm
    have hmin := wf.ok.block_min hm
    have hsep := (hgrow hfit).toApart.block_sep wf.ok hm
    simp only at hmin hsep
    omega

/-- **`allocate_object` implements first fit**, for a request whose rounded
size is the size of a block. -/
theorem allocateObject_sound {sbrk size : Nat} (wf : WellFormed h L)
    (hr : 48 ≤ roundedSize size) (hmax : roundedSize size ≤ 2097200)
    (hgrow : L.firstFit (roundedSize size) = none →
      FreshChunk h.sentinel L sbrk ∧ RestFits (roundedSize size)) :
    ∃ h', allocateObject h sbrk size
        = some ((L.allocate (roundedSize size) sbrk).1 + 32, h') ∧
      h'.sentinel = h.sentinel ∧ WellFormed h' (L.allocate (roundedSize size) sbrk).2 := by
  rcases Layout.firstFit_cases (roundedSize size) L with
    ⟨H, n, rfl, hn, hfirst, hfit⟩ | ⟨hnone, hfit⟩
  · rw [Layout.allocate_of_fit hfit, wf.allocateObject_fit hmax hn hfirst]
    exact ⟨_, rfl, rfl, (wf.serve hn (Or.inr hr) rfl).2.1⟩
  · obtain ⟨fresh, hrest⟩ := hgrow hfit
    rw [Layout.allocate_of_none hfit, wf.allocateObject_grow hmax hnone fresh.toApart.ne_failed]
    refine ⟨_, rfl, grownHeap_sentinel .., ?_⟩
    rcases hrest with hrest | hrest
    · exact wf.growSplit fresh hr hrest rfl
    · exact wf.growWhole fresh hrest rfl

end WellFormed

end Cs252.Malloc
