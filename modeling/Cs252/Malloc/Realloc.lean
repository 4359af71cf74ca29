import Cs252.Malloc.FreeSound
import Cs252.Malloc.Start

/-!
# Cs252.Malloc.Realloc

What `realloc` does to a live block.

`realloc` asks `allocate_object` for a new block, copies to it and frees the
old one. The heap in between need not represent a layout: for requests of
2097105 to 2097144 bytes the rest of a new chunk is too small for a block. So
`Handed` says of the new block only what the two later steps need, and
`allocateObject_handed` proves it for a block of the free list and for a new
chunk, wherever `sbrk` puts it.

A request that is refused is a different matter. `allocate_object` answers
`NULL`, and `realloc` copies to it. `reallocClean_iff` says when that happens.
-/

namespace Cs252.Malloc

open Tiling LinkedRing

/-- `allocate_object` has handed out the `k` bytes from `c`: a block apart from
the blocks in use of `L`, with a correct size. Nothing was written to its usable
bytes or to the blocks in use. Whatever its owner writes to the usable bytes, a
block in use can be freed. -/
structure Handed (m₀ : ByteMem) (h₁ : Heap) (L : Layout) (c k : Nat) : Prop where
  size : sizeAt h₁.mem c = k
  bound : c + k ≤ 2 ^ 64
  payload : ∀ x, c + 32 ≤ x → x < c + k - 16 → h₁.mem x = m₀ x
  apart : ∀ b j, (b, ⟨j, false⟩) ∈ L.blocks → b + j ≤ c ∨ c + k ≤ b
  others : ∀ b j, (b, ⟨j, false⟩) ∈ L.blocks → Untouched m₀ h₁.mem b j
  frees : ∀ m a n, (∀ x, x < c + 32 ∨ c + k - 16 ≤ x → m x = h₁.mem x) →
    (a, ⟨n, false⟩) ∈ L.blocks → ∃ m', freeObject { h₁ with mem := m } (a + 32)
        = some { h₁ with mem := m' } ∧ FreeFrame L a n m m' ∧ Untouched m m' c k ∧
      Freed { h₁ with mem := m' } a n

namespace Handed

variable {m₀ : ByteMem} {h₁ : Heap} {L L₁ : Layout} {extra : List Nat} {c k : Nat}

/-- The block is one of a well-formed heap. -/
theorem of_wellFormed (wf₁ : WellFormed h₁ L₁) (hblock : (c, ⟨k, false⟩) ∈ L₁.blocks)
    (hsub : ∀ b j, (b, ⟨j, false⟩) ∈ L.blocks → (b, ⟨j, false⟩) ∈ L₁.blocks ∧ b ≠ c)
    (hpayload : ∀ x, c + 32 ≤ x → x < c + k - 16 → h₁.mem x = m₀ x)
    (hothers : ∀ b j, (b, ⟨j, false⟩) ∈ L.blocks → Untouched m₀ h₁.mem b j) :
    Handed m₀ h₁ L c k := by
  have hbound := wf₁.ok.block_bound hblock
  refine ⟨(wf₁.rep.tags _ _ hblock).header_size, Nat.le_of_lt hbound, hpayload, ?_, hothers, ?_⟩
  · intro b j hb
    obtain ⟨hb', hne⟩ := hsub b j hb
    rcases wf₁.ok.block_disjoint hb' hblock with ⟨heq, -⟩ | hsep
    · exact absurd heq hne
    · exact hsep
  · intro m a n hm ha
    obtain ⟨ha', hne⟩ := hsub a n ha
    have e := (wf₁.write_payload hblock hm).extended
    obtain ⟨H, mid, front, back, m', rfl, mg, -⟩ := e.freeObject_merges ha'
    have hframe := mg.freeFrame e
    refine ⟨m', mg.returns, ⟨fun b j hb hba => ?_, hframe.payload⟩, ?_, mg.freed e⟩
    · exact hframe.others b j (hsub b j hb).1 hba
    · exact hframe.others c k hblock (Ne.symm hne)

/-- The block is the first one of a new chunk, and the rest of the chunk is
linked at the end of the free list. -/
theorem of_extended (e : Extended h₁ L extra) (hsize : sizeAt h₁.mem c = k)
    (hbound : c + k ≤ 2 ^ 64)
    (hchunks : ∀ d ∈ L, d.base + 2097248 ≤ c ∨ c + k ≤ d.base)
    (hnodes : ∀ q ∈ h₁.sentinel :: extra, q + 32 ≤ c ∨ c + k ≤ q)
    (hpayload : ∀ x, c + 32 ≤ x → x < c + k - 16 → h₁.mem x = m₀ x)
    (hothers : ∀ b j, (b, ⟨j, false⟩) ∈ L.blocks → Untouched m₀ h₁.mem b j) :
    Handed m₀ h₁ L c k := by
  refine ⟨hsize, hbound, hpayload, fun b j hb => ?_, hothers, fun m a n hm ha => ?_⟩
  · obtain ⟨d, hd, hlo, hhi⟩ := e.ok.block_in_chunk hb
    have := hchunks d hd
    simp only at hhi
    omega
  · have e' : Extended { h₁ with mem := m } L extra := by
      refine e.of_agree (fun d hd x hx hx' => hm x ?_) fun q hq x hx hx' => hm x ?_
      · have := hchunks d hd
        omega
      · have := hnodes q hq
        omega
    obtain ⟨H, mid, front, back, m', rfl, mg, -⟩ := e'.freeObject_merges ha
    refine ⟨m', mg.returns, mg.freeFrame e', ?_, mg.freed e'⟩
    have hbounds := Hole.bounds e.ok
    refine mg.untouched ?_ fun q hq => ?_
    · have hsep := hchunks _ (H.chunk_mem mid)
      simp only at hsep
      omega
    · rcases Extended.mem_nodes_iff.mp hq with hq | hq
      · rcases List.mem_cons.mp hq with rfl | hq
        · have := hnodes _ List.mem_cons_self
          simp only at this ⊢
          omega
        · obtain ⟨d, hd, -⟩ := Layout.mem_freeAddrs.mp hq
          obtain ⟨ch, hch, hlo, hhi⟩ := e.ok.block_in_chunk hd
          have := e.ok.block_min hd
          have := hchunks ch hch
          omega
      · have := hnodes q (List.mem_cons_of_mem _ hq)
        omega

end Handed

namespace WellFormed

variable {h : Heap} {L : Layout} {sbrk size : Nat}

/-- A block of the free list, handed out whole or cut. -/
theorem handed_fit {H : Hole} {n r : Nat} (wf : WellFormed h (H.plug [⟨n, true⟩])) (hn : r ≤ n)
    (hr : n - r < 56 ∨ 48 ≤ r) {m' : ByteMem}
    (hm : m' = if n - r < 56 then unlink (markAllocated h.mem H.addr) H.addr
      else relinkSplit (tagSplit h.mem H.addr r) H.addr (H.addr + r)) :
    Handed h.mem { h with mem := m' } (H.plug [⟨n, true⟩]) H.addr (if n - r < 56 then n else r) := by
  have hblock := H.mem_blocks_plug_self (c := ⟨n, true⟩)
  obtain ⟨hframe, wf', hpayload⟩ := wf.serve hn hr hm
  refine Handed.of_wellFormed wf' (WellFormed.mem_blocks_serve rfl) (fun b j hb => ?_) hpayload
    fun b j hb => ?_
  · have hsep := wf.used_sep hb
    have hmin := wf.ok.block_min hb
    have hmin' := wf.ok.block_min hblock
    simp only at hmin hmin'
    refine ⟨Hole.mem_blocks_plug.mpr (Or.inl ?_), by omega⟩
    rw [total_carve hn]
    exact WellFormed.mem_others_of_used hb
  · exact hframe.untouched wf.ok (Hole.nodes_subset (H.lastOr_mem_nodes _ _))
      (Hole.nodes_subset (H.headOr_mem_nodes _ _)) hb (wf.used_sep hb)

/-- The first block of a new chunk, whatever is left of it. -/
theorem handed_grow {r : Nat} (wf : WellFormed h L) (apart : ApartChunk h.sentinel L sbrk)
    (hr : 48 ≤ r) (hmax : r ≤ 2097200) :
    Handed h.mem (grownHeap h sbrk chunkSize (layOutChunk h.mem h.sentinel sbrk r)) L
      (sbrk + 16) r := by
  have hgap := apart.gap wf.ok
  have hbound := apart.bound
  have hframe := layOutChunk_frame hmax hbound wf.prev_sentinel hgap
  obtain ⟨extra, hnodes, e⟩ : ∃ extra : List Nat, (∀ q ∈ extra, q = sbrk + 16 + r) ∧
      Extended (grownHeap h sbrk chunkSize (layOutChunk h.mem h.sentinel sbrk r)) L extra := by
    rcases Nat.lt_or_eq_of_le hmax with hlt | heq
    · have hseg := layOutChunk_links hr hlt hbound wf.ok.sentinel_bound wf.prev_sentinel hgap rfl
      refine ⟨[sbrk + 16 + r], by simp, wf.grow_extended apart hframe ?_ (List.nodup_singleton _) ?_
        hseg⟩
      · intro q hq
        obtain rfl := List.mem_singleton.mp hq
        omega
      · intro q hq q' hq'
        obtain rfl := List.mem_singleton.mp hq
        exact Or.inl (List.mem_singleton.mp hq').symm
    · obtain ⟨hout, -⟩ := layOutChunk_whole_spec (s := h.sentinel) hbound (congrArg _ heq)
      exact ⟨[], by simp, wf.grow_extended apart hframe (by simp) List.nodup_nil (by simp)
        (wf.seg_of_outside apart hout)⟩
  refine Handed.of_extended e ?_ (by omega) (fun d hd => ?_) (fun q hq => ?_) (fun x hx hx' => ?_)
    fun b j hb => ?_
  · rw [grownHeap_mem, layOutChunk_size hr hmax]
  · have := apart.apart d hd
    omega
  · rw [grownHeap_sentinel] at hq
    rcases List.mem_cons.mp hq with rfl | hq
    · have := apart.sentinel_sep
      omega
    · have := hnodes q hq
      omega
  · rw [grownHeap_mem]
    exact layOutChunk_payload hr hmax wf.prev_sentinel hgap (by omega) (by omega)
  · rw [grownHeap_mem]
    refine hframe.untouched wf.ok (lastOr_mem _ _) List.mem_cons_self hb ?_
    have := apart.block_sep wf.ok hb
    simp only at this
    omega

/-- **What a request hands out.** A request that is not refused gets a block of
its own, as long as its rounding has not wrapped to less than the smallest block. -/
theorem allocateObject_handed (wf : WellFormed h L) {c k : Nat}
    (hck : L.handed (roundedSize size) sbrk = (c, k)) (hk : 48 ≤ k)
    (hmax : roundedSize size ≤ 2097200)
    (hgrow : L.firstFree (roundedSize size) = none → ApartChunk h.sentinel L sbrk) :
    ∃ h₁, allocateObject h sbrk size = some (c + 32, h₁) ∧ Handed h.mem h₁ L c k := by
  rcases Layout.firstFit_cases (roundedSize size) L with ⟨H, n, rfl, hn, hfirst, -⟩ | ⟨hnone, -⟩
  · rw [Layout.handed_fit sbrk hn hfirst] at hck
    obtain ⟨rfl, rfl⟩ := Prod.mk.inj hck
    have hr : n - roundedSize size < 56 ∨ 48 ≤ roundedSize size := by
      by_cases hwhole : n - roundedSize size < 56
      · exact Or.inl hwhole
      · rw [if_neg hwhole] at hk
        exact Or.inr hk
    exact ⟨_, wf.allocateObject_fit hmax hn hfirst, wf.handed_fit hn hr rfl⟩
  · rw [Layout.handed_new sbrk hnone] at hck
    obtain ⟨rfl, rfl⟩ := Prod.mk.inj hck
    have apart := hgrow (Layout.firstFree_eq_none.mpr hnone)
    exact ⟨_, wf.allocateObject_grow hmax hnone apart.ne_failed, wf.handed_grow apart hk hmax⟩

end WellFormed

/-! ### Moving a block -/

/-- `realloc` has moved the block of `n` bytes at `a` to the `k` bytes at `c`,
for a request of `size` bytes: the usable bytes of the new block are those from
the old pointer on, as far as both sizes go, and then what was there before. -/
structure Moved (m : ByteMem) (h' : Heap) (a n c k size : Nat) : Prop where
  header : sizeAt h'.mem c = k
  room : size + 48 ≤ k
  bound : c + k ≤ 2 ^ 64
  freed : Freed h' a n
  copied : ∀ i, i < size → i + 32 < n → h'.mem (c + 32 + i) = m (a + 32 + i)
  kept : ∀ i, size ≤ i ∨ n ≤ i → i + 48 < k → h'.mem (c + 32 + i) = m (c + 32 + i)

/-- The copy of `realloc`, from a block of `n` bytes. -/
theorem reallocCopy_eq {m : ByteMem} {a n : Nat} (hsize : sizeAt m a = n) (c size : Nat) :
    reallocCopy m (c + 32) (a + 32) size = some (m.copy (c + 32) (a + 32) (min size n)) := by
  have hmin : (if size < n then size else n) = min size n := by
    split <;> omega
  simp only [reallocCopy, memcpy, objectSize_payload, hsize, hmin]
  exact if_neg fun hnull => payload_ne_null c hnull.1

/-- The copy to a new block and the release of the old one. -/
theorem Handed.move {m₀ : ByteMem} {h₁ : Heap} {L : Layout} {a n c k size : Nat}
    (hd : Handed m₀ h₁ L c k) (hlive : (a, ⟨n, false⟩) ∈ L.blocks) (hn : 48 ≤ n)
    (hk : size + 48 ≤ k) (hsize : sizeAt m₀ a = n) :
    ∃ m h', reallocCopy h₁.mem (c + 32) (a + 32) size = some m ∧
      freeObject { h₁ with mem := m } (a + 32) = some h' ∧ Moved m₀ h' a n c k size := by
  have hkeep := hd.others a n hlive
  have hsep := hd.apart a n hlive
  have hsize₁ : sizeAt h₁.mem a = n := by
    rw [← hsize]
    exact sizeAt_congr fun x hx hx' => hkeep x hx (by omega)
  obtain ⟨m', hfree, -, huntouched, hfreed⟩ := hd.frees
    (h₁.mem.copy (c + 32) (a + 32) (min size n)) a n
    (fun x hx => ByteMem.copy_outside _ _ (by omega)) hlive
  refine ⟨_, _, reallocCopy_eq hsize₁ c size, hfree, ?_, hk, hd.bound, hfreed,
    fun i hi hin => ?_, fun i hi hik => ?_⟩
  · have hcut : sizeAt (h₁.mem.copy (c + 32) (a + 32) (min size n)) c = sizeAt h₁.mem c :=
      sizeAt_congr fun x hx hx' => ByteMem.copy_outside _ _ (by omega)
    rw [← hd.size, ← hcut]
    exact sizeAt_congr fun x hx hx' => huntouched x hx (by omega)
  · show m' (c + 32 + i) = m₀ (a + 32 + i)
    rw [huntouched _ (by omega) (by omega), ByteMem.copy_inside _ _ (by omega),
      hkeep _ (by omega) (by omega)]
  · show m' (c + 32 + i) = m₀ (c + 32 + i)
    rw [huntouched _ (by omega) (by omega), ByteMem.copy_outside _ _ (by omega),
      hd.payload _ (by omega) (by omega)]

namespace WellFormed

variable {h : Heap} {L : Layout} {sbrk size a n : Nat}

/-- A request that is not refused moves the block. -/
theorem realloc_moves (wf : WellFormed h L) (hlive : (a, ⟨n, false⟩) ∈ L.blocks)
    (hmax : size ≤ 2097152) {c k : Nat} (hck : L.handed (roundedSize size) sbrk = (c, k))
    (hgrow : L.firstFree (roundedSize size) = none → ApartChunk h.sentinel L sbrk) :
    ∃ h', realloc h sbrk (a + 32) size = some (c + 32, h') ∧ Moved h.mem h' a n c k size := by
  have hwrap : size + 55 < 2 ^ 64 := by omega
  obtain ⟨hmin, hround, -⟩ := roundedSize_bounds hwrap
  have hk : roundedSize size ≤ k := by
    have := Layout.le_snd_handed (roundedSize size) sbrk L
    rwa [hck] at this
  have wf' : WellFormed { h with reallocCalls := h.reallocCalls + 1 } L :=
    wf.of_fields rfl rfl rfl rfl
  obtain ⟨h₁, heq, hd⟩ := wf'.allocateObject_handed hck (by omega)
    ((roundedSize_le_iff hwrap).mpr hmax) hgrow
  have hroom : size + 48 ≤ k := by omega
  obtain ⟨m, h', hcopy, hfree, hmoved⟩ := hd.move hlive (wf.ok.block_min hlive) hroom
    (wf.header_size hlive)
  exact ⟨h', realloc_of_steps (payload_ne_null a) heq hcopy hfree, hmoved⟩

/-- A request that is refused faults. -/
theorem realloc_faults (wf : WellFormed h L) (hlive : (a, ⟨n, false⟩) ∈ L.blocks)
    (hbig : 2097200 < roundedSize size) (hsize : 0 < size) : realloc h sbrk (a + 32) size = none := by
  have hn : sizeAt h.mem a = n := wf.header_size hlive
  have hmin : 48 ≤ n := wf.ok.block_min hlive
  have hpos : 0 < if size < n then size else n := by
    split <;> omega
  have hcopy : reallocCopy h.mem NULL (a + 32) size = none := by
    simp only [reallocCopy, memcpy, objectSize_payload, hn]
    exact if_pos ⟨trivial, hpos⟩
  simp only [realloc, allocateObject_oversized hbig, if_pos (payload_ne_null a), hcopy]

end WellFormed

/-! ### Failing cleanly -/

/-- `realloc` of the block of `n` bytes at `a` succeeds or fails cleanly. It
returns a block with `size` bytes between header and footer, in the address
space, and the old block is free; or it returns `NULL` and has changed nothing
but its counter. -/
def ReallocClean (h : Heap) (sbrk a n size : Nat) : Prop :=
  ∃ ptr h', realloc h sbrk (a + 32) size = some (ptr, h') ∧
    ((ptr ≠ NULL ∧ size + 48 ≤ objectSize h'.mem ptr ∧ ptr + size + 16 ≤ 2 ^ 64 ∧ Freed h' a n) ∨
      (ptr = NULL ∧ h' = { h with reallocCalls := h.reallocCalls + 1 }))

/-- The pointer `realloc` returns is the one `allocate_object` does. -/
theorem allocateObject_of_realloc {h h' : Heap} {sbrk ptr size q : Nat}
    (heq : realloc h sbrk ptr size = some (q, h')) :
    ∃ h₁, allocateObject { h with reallocCalls := h.reallocCalls + 1 } sbrk size = some (q, h₁) := by
  simp only [realloc] at heq
  cases halloc : allocateObject { h with reallocCalls := h.reallocCalls + 1 } sbrk size with
  | none => simp [halloc] at heq
  | some r =>
    obtain ⟨p, h₁⟩ := r
    refine ⟨h₁, ?_⟩
    simp only [halloc] at heq
    split at heq
    · cases hcopy : reallocCopy h₁.mem p ptr size with
      | none => simp [hcopy] at heq
      | some m =>
        simp only [hcopy, Option.map_eq_some_iff, Prod.mk.injEq] at heq
        obtain ⟨-, -, rfl, -⟩ := heq
        rfl
    · obtain ⟨rfl, -⟩ := Prod.mk.inj (Option.some.inj heq)
      rfl

/-- What is known of a pointer handed out for a rounded size that is not refused. -/
theorem WellFormed.allocateObject_ptr {h h₁ : Heap} {L : Layout} {sbrk size q : Nat}
    (wf : WellFormed h L) (hmax : roundedSize size ≤ 2097200)
    (heq : allocateObject h sbrk size = some (q, h₁)) :
    48 ≤ q ∧ (sbrk ≠ sbrkFailed ∨ L.firstFree (roundedSize size) ≠ none) := by
  rcases Layout.firstFit_cases (roundedSize size) L with
    ⟨H, n, rfl, hn, hfirst, -⟩ | ⟨hnone, -⟩
  · rw [wf.allocateObject_fit hmax hn hfirst] at heq
    obtain ⟨rfl, -⟩ := Prod.mk.inj (Option.some.inj heq)
    have hbase := (Hole.bounds wf.ok).1
    refine ⟨by omega, Or.inr ?_⟩
    rw [Layout.firstFree_fit hn hfirst]
    exact Option.some_ne_none _
  · have hsbrk : sbrk ≠ sbrkFailed := by
      rintro rfl
      rw [wf.allocateObject_faults hmax hnone] at heq
      cases heq
    rw [wf.allocateObject_grow hmax hnone hsbrk] at heq
    obtain ⟨rfl, -⟩ := Prod.mk.inj (Option.some.inj heq)
    exact ⟨by omega, Or.inl hsbrk⟩

/-- What is known of a pointer `realloc` returns for a live block: the request
was not refused, the pointer is not null, and `sbrk` has not failed. -/
theorem WellFormed.realloc_returned {h h' : Heap} {L : Layout} {sbrk a n size q : Nat}
    (wf : WellFormed h L) (hlive : (a, ⟨n, false⟩) ∈ L.blocks)
    (heq : realloc h sbrk (a + 32) size = some (q, h')) :
    roundedSize size ≤ 2097200 ∧ 48 ≤ q ∧
      (sbrk ≠ sbrkFailed ∨ L.firstFree (roundedSize size) ≠ none) := by
  obtain ⟨h₁, halloc⟩ := allocateObject_of_realloc heq
  have wf' : WellFormed { h with reallocCalls := h.reallocCalls + 1 } L :=
    wf.of_fields rfl rfl rfl rfl
  by_cases hmax : roundedSize size ≤ 2097200
  · exact ⟨hmax, wf'.allocateObject_ptr hmax halloc⟩
  · have hpos : 0 < size := by
      rcases Nat.eq_zero_or_pos size with rfl | hpos
      · exact absurd (by decide) hmax
      · exact hpos
    rw [wf.realloc_faults hlive (Nat.lt_of_not_le hmax) hpos] at heq
    cases heq

/-- The request is served: it is not larger than `ARENA_SIZE`, and `sbrk` does not
fail or is not needed. -/
def Served (L : Layout) (sbrk size : Nat) : Prop :=
  size ≤ 2097152 ∧ (sbrk ≠ sbrkFailed ∨ L.firstFree (roundedSize size) ≠ none)

/-- When `realloc` returns a pointer to `size` bytes in the address space, it is served. -/
theorem WellFormed.served {h h' : Heap} {L : Layout} {sbrk a n size q : Nat} (wf : WellFormed h L)
    (hlive : (a, ⟨n, false⟩) ∈ L.blocks) (heq : realloc h sbrk (a + 32) size = some (q, h'))
    (hbound : q + size + 16 ≤ 2 ^ 64) : Served L sbrk size := by
  obtain ⟨hmax, hmin, hserve⟩ := wf.realloc_returned hlive heq
  have hwrap : size + 55 < 2 ^ 64 := by omega
  exact ⟨(roundedSize_le_iff hwrap).mp hmax, hserve⟩

/-- Where `sbrk` is needed for a request that is served, it has handed out memory. -/
theorem Served.grows {s : Nat} {L : Layout} {sbrk size : Nat} (hs : Served L sbrk size)
    (hsbrk : ApartChunk s L sbrk ∨ sbrk = sbrkFailed) :
    L.firstFree (roundedSize size) = none → ApartChunk s L sbrk := fun hnone =>
  hsbrk.resolve_right (hs.2.resolve_right (not_not.mpr hnone))

/-- **When `realloc` fails cleanly.** For a live block, exactly when the request
is served: when it is refused, `realloc` does not return. -/
theorem reallocClean_iff {h : Heap} {L : Layout} {sbrk a n size : Nat} (wf : WellFormed h L)
    (hlive : (a, ⟨n, false⟩) ∈ L.blocks)
    (hsbrk : ApartChunk h.sentinel L sbrk ∨ sbrk = sbrkFailed) :
    ReallocClean h sbrk a n size ↔
      size ≤ 2097152 ∧ (sbrk ≠ sbrkFailed ∨ L.firstFree (roundedSize size) ≠ none) := by
  constructor
  · intro hclean
    obtain ⟨ptr, h', heq, hresult⟩ := hclean
    rcases hresult with ⟨-, -, hbound, -⟩ | ⟨hnull, -⟩
    · exact wf.served hlive heq hbound
    · -- the null pointer is never returned
      have := (wf.realloc_returned hlive heq).2.1
      unfold NULL at hnull
      omega
  · intro hs
    obtain ⟨c, k, hck⟩ : ∃ c k, L.handed (roundedSize size) sbrk = (c, k) := ⟨_, _, rfl⟩
    obtain ⟨h', heq, hmoved⟩ := wf.realloc_moves hlive hs.1 hck (Served.grows hs hsbrk)
    have hroom := hmoved.room
    have hbound := hmoved.bound
    refine ⟨_, h', heq, Or.inl ⟨payload_ne_null c, ?_, by omega, hmoved.freed⟩⟩
    rw [objectSize_payload, hmoved.header]
    exact hroom

/-- `realloc` of a block of 104 usable bytes to 200, when `sbrk` would fail but is
not needed. -/
theorem reallocClean_sample : ReallocClean sampleHeap sbrkFailed 4112 152 200 :=
  (reallocClean_iff sampleHeap_spec.1 (by decide) (Or.inr rfl)).mpr
    ⟨by decide, Or.inr (by decide)⟩

/-- `realloc` of a live block to 2 MB and one byte copies to the null pointer. -/
theorem realloc_null_copy :
    WellFormed sampleHeap sampleLayout ∧ (4112, ⟨152, false⟩) ∈ sampleLayout.blocks ∧
      realloc sampleHeap 2101344 4144 2097153 = none ∧
      ¬ReallocClean sampleHeap 2101344 4112 152 2097153 := by
  have hlive : (4112, ⟨152, false⟩) ∈ sampleLayout.blocks := by decide
  have hfault : realloc sampleHeap 2101344 (4112 + 32) 2097153 = none :=
    sampleHeap_spec.1.realloc_faults hlive (by decide) (by decide)
  refine ⟨sampleHeap_spec.1, hlive, hfault, ?_⟩
  intro hclean
  obtain ⟨ptr, h', heq, -⟩ := hclean
  rw [hfault] at heq
  cases heq

end Cs252.Malloc
