import Cs252.Lib.LinkedRing
import Cs252.Lib.Tiling
import Cs252.Malloc.Allocator

/-!
# Cs252.Malloc.Layout

What the allocator's memory means.

The abstract heap is a `Layout`: the chunks obtained from the OS in ascending
order, each tiled by cells. `WellFormed h L` says that the heap `h` represents
`L`. It ties together the four redundant representations the code maintains:
headers, footers, the links of the free list and the physical layout.

`LayoutOk` is the part that does not look at memory: sizes, chunk addresses and
the place of the sentinel. `Represents` is the part that does: boundary tags,
fenceposts and the ring of free blocks.

Every operation rewrites a few neighbouring cells of one chunk and two links of
the free list. `Hole` is a layout with those cells left out, and
`WellFormed.refill` is the one frame argument of the development: an update
that stays inside the hole (`LinkFrame`), leaves correct tags there and links
the new free cells between the neighbours in the list gives a well-formed heap.
-/

namespace Cs252.Malloc

open Tiling LinkedRing

/-- The status a boundary tag holds for a cell. -/
def statusOf (free : Bool) : AllocationStatus :=
  if free then .unallocated else .allocated

@[simp] theorem statusOf_true : statusOf true = .unallocated := rfl
@[simp] theorem statusOf_false : statusOf false = .allocated := rfl

/-- A chunk obtained from the OS: its address and the cells that tile it. -/
structure Chunk where
  base : Nat
  cells : List Cell
  deriving Repr, DecidableEq

/-- The chunks of a heap, in ascending order. -/
abbrev Layout := List Chunk

namespace Layout

/-- The blocks of all chunks, with their addresses. -/
def blocks (L : Layout) : List (Nat × Cell) :=
  L.flatMap fun c => placed (c.base + 16) c.cells

/-- The addresses of the free blocks, in the order of the layout. -/
def freeAddrs (L : Layout) : List Nat :=
  L.flatMap fun c => Tiling.freeAddrs (c.base + 16) c.cells

@[simp] theorem blocks_nil : blocks [] = [] := rfl
@[simp] theorem blocks_cons (c : Chunk) (L : Layout) :
    blocks (c :: L) = placed (c.base + 16) c.cells ++ blocks L := rfl
@[simp] theorem blocks_append (L L' : Layout) : blocks (L ++ L') = blocks L ++ blocks L' := by
  simp [blocks]

@[simp] theorem freeAddrs_nil : freeAddrs [] = [] := rfl
@[simp] theorem freeAddrs_cons (c : Chunk) (L : Layout) :
    freeAddrs (c :: L) = Tiling.freeAddrs (c.base + 16) c.cells ++ freeAddrs L := rfl
@[simp] theorem freeAddrs_append (L L' : Layout) :
    freeAddrs (L ++ L') = freeAddrs L ++ freeAddrs L' := by
  simp [freeAddrs]

theorem mem_blocks {L : Layout} {b : Nat × Cell} :
    b ∈ blocks L ↔ ∃ c ∈ L, b ∈ placed (c.base + 16) c.cells := by
  simp [blocks]

theorem mem_freeAddrs {L : Layout} {a : Nat} :
    a ∈ freeAddrs L ↔ ∃ c, (a, c) ∈ blocks L ∧ c.free = true := by
  simp only [freeAddrs, List.mem_flatMap, Tiling.mem_freeAddrs, mem_blocks]
  constructor
  · rintro ⟨ch, hch, c, hc, hf⟩
    exact ⟨c, ⟨ch, hch, hc⟩, hf⟩
  · rintro ⟨c, ⟨ch, hch, hc⟩, hf⟩
    exact ⟨ch, hch, c, hc, hf⟩

end Layout

/-! ### The layout alone -/

/-- The conditions on a layout that do not look at memory. -/
structure LayoutOk (sentinel : Nat) (L : Layout) : Prop where
  /-- The cells of a chunk fill `ARENA_SIZE` and one header and footer. -/
  total_eq : ∀ c ∈ L, total c.cells = 2097200
  /-- Every block has room for its own header and footer. -/
  min_size : ∀ c ∈ L, ∀ b ∈ c.cells, 48 ≤ b.size
  /-- No two neighbouring blocks are free. -/
  normal : ∀ c ∈ L, Normal c.cells
  /-- The chunks are disjoint and in ascending order. -/
  ascending : L.Pairwise fun c d => c.base + 2097248 ≤ d.base
  /-- Chunks are in the address space. -/
  bound : ∀ c ∈ L, c.base + 2097248 ≤ 2 ^ 64
  /-- The sentinel is outside the chunks. -/
  sentinel_sep : ∀ c ∈ L, sentinel + 32 ≤ c.base ∨ c.base + 2097248 ≤ sentinel
  sentinel_bound : sentinel + 32 ≤ 2 ^ 64

/-- A list that visits no address twice is shorter than the bound of the loops. -/
theorem length_lt_loopBound {s : Nat} {nodes : List Nat} (hnodup : (s :: nodes).Nodup)
    (hbound : ∀ q ∈ s :: nodes, q < 2 ^ 64) : nodes.length < loopBound := by
  have hsub : (s :: nodes) ⊆ List.range (2 ^ 64) := fun a ha => List.mem_range.mpr (hbound a ha)
  have hlen := hnodup.length_le_of_subset hsub
  rw [List.length_range, List.length_cons] at hlen
  exact hlen

namespace LayoutOk

variable {s : Nat} {L : Layout}

/-- A block lies between the fenceposts of its chunk. -/
theorem block_in_chunk (ok : LayoutOk s L) {a : Nat} {c : Cell} (h : (a, c) ∈ L.blocks) :
    ∃ ch ∈ L, ch.base + 16 ≤ a ∧ a + c.size ≤ ch.base + 2097216 := by
  obtain ⟨ch, hch, hmem⟩ := Layout.mem_blocks.mp h
  have hb := placed_bounds hmem
  have ht := ok.total_eq ch hch
  exact ⟨ch, hch, hb.1, by omega⟩

theorem block_min (ok : LayoutOk s L) {a : Nat} {c : Cell} (h : (a, c) ∈ L.blocks) :
    48 ≤ c.size := by
  obtain ⟨ch, hch, hmem⟩ := Layout.mem_blocks.mp h
  exact ok.min_size ch hch c (mem_of_mem_placed hmem)

theorem block_bound (ok : LayoutOk s L) {a : Nat} {c : Cell} (h : (a, c) ∈ L.blocks) :
    a + c.size < 2 ^ 64 := by
  obtain ⟨ch, hch, -, hhi⟩ := ok.block_in_chunk h
  have := ok.bound ch hch
  omega

theorem block_sentinel (ok : LayoutOk s L) {a : Nat} {c : Cell} (h : (a, c) ∈ L.blocks) :
    s + 32 ≤ a ∨ a + c.size ≤ s := by
  obtain ⟨ch, hch, hlo, hhi⟩ := ok.block_in_chunk h
  have := ok.sentinel_sep ch hch
  omega

/-- Two chunks are the same or do not overlap. -/
theorem chunk_disjoint (ok : LayoutOk s L) {c d : Chunk} (hc : c ∈ L) (hd : d ∈ L) :
    c = d ∨ c.base + 2097248 ≤ d.base ∨ d.base + 2097248 ≤ c.base := by
  let R (c d : Chunk) : Prop :=
    c = d ∨ c.base + 2097248 ≤ d.base ∨ d.base + 2097248 ≤ c.base
  have hR : L.Pairwise R := ok.ascending.imp fun h => Or.inr (Or.inl h)
  have hR' : L.Pairwise (flip R) := ok.ascending.imp fun h => Or.inr (Or.inr h)
  have hrefl : ∀ e ∈ L, R e e := fun _ _ => Or.inl rfl
  exact hR.forall_of_forall_of_flip hrefl hR' hc hd

/-- Two blocks are the same or do not overlap. -/
theorem block_disjoint (ok : LayoutOk s L) {a b : Nat} {c d : Cell}
    (hc : (a, c) ∈ L.blocks) (hd : (b, d) ∈ L.blocks) :
    (a = b ∧ c = d) ∨ a + c.size ≤ b ∨ b + d.size ≤ a := by
  obtain ⟨ch, hch, hmem⟩ := Layout.mem_blocks.mp hc
  obtain ⟨dh, hdh, hmem'⟩ := Layout.mem_blocks.mp hd
  rcases ok.chunk_disjoint hch hdh with rfl | hsep
  · exact placed_disjoint hmem hmem'
  · have := placed_bounds hmem
    have := placed_bounds hmem'
    have := ok.total_eq ch hch
    have := ok.total_eq dh hdh
    omega

/-- The free blocks ascend. -/
theorem freeAddrs_sorted (ok : LayoutOk s L) : L.freeAddrs.Pairwise (· < ·) := by
  have hpos : ∀ c ∈ L, ∀ b ∈ c.cells, 0 < b.size := fun c hc b hb =>
    Nat.lt_of_lt_of_le (by omega) (ok.min_size c hc b hb)
  rw [Layout.freeAddrs, List.pairwise_flatMap]
  constructor
  · intro c hc
    exact Tiling.freeAddrs_sorted _ _ (hpos c hc)
  · refine ok.ascending.imp_of_mem fun {c d} hc hd hcd x hx y hy => ?_
    obtain ⟨b, hb, -⟩ := Tiling.mem_freeAddrs.mp hx
    obtain ⟨e, he, -⟩ := Tiling.mem_freeAddrs.mp hy
    have := placed_bounds hb
    have := placed_bounds he
    have := ok.total_eq c hc
    have := hpos c hc b (mem_of_mem_placed hb)
    omega

/-- The nodes of the free list, sentinel included, are all different. -/
theorem nodes_nodup (ok : LayoutOk s L) : (s :: L.freeAddrs).Nodup := by
  refine List.nodup_cons.mpr ⟨fun h => ?_, ?_⟩
  · obtain ⟨c, hc, -⟩ := Layout.mem_freeAddrs.mp h
    have := ok.block_sentinel hc
    have := ok.block_min hc
    omega
  · exact ok.freeAddrs_sorted.imp fun h => Nat.ne_of_lt h

/-- The headers of two different nodes of the free list do not overlap. -/
theorem nodes_sep (ok : LayoutOk s L) {a b : Nat} (ha : a ∈ s :: L.freeAddrs)
    (hb : b ∈ s :: L.freeAddrs) : a = b ∨ a + 32 ≤ b ∨ b + 32 ≤ a := by
  rcases List.mem_cons.mp ha with ha | ha <;> rcases List.mem_cons.mp hb with hb | hb
  · exact Or.inl (ha.trans hb.symm)
  · obtain ⟨d, hd, -⟩ := Layout.mem_freeAddrs.mp hb
    have := ok.block_sentinel hd
    have := ok.block_min hd
    omega
  · obtain ⟨c, hc, -⟩ := Layout.mem_freeAddrs.mp ha
    have := ok.block_sentinel hc
    have := ok.block_min hc
    omega
  · obtain ⟨c, hc, -⟩ := Layout.mem_freeAddrs.mp ha
    obtain ⟨d, hd, -⟩ := Layout.mem_freeAddrs.mp hb
    have := ok.block_disjoint hc hd
    have := ok.block_min hc
    have := ok.block_min hd
    omega

/-- A node of the free list is in the address space. -/
theorem node_bound (ok : LayoutOk s L) {a : Nat} (ha : a ∈ s :: L.freeAddrs) : a < 2 ^ 64 := by
  rcases List.mem_cons.mp ha with rfl | ha
  · have := ok.sentinel_bound
    omega
  · obtain ⟨c, hc, -⟩ := Layout.mem_freeAddrs.mp ha
    have := ok.block_bound hc
    omega

/-- The free list is shorter than the bound of the loops over it. -/
theorem length_freeAddrs_lt (ok : LayoutOk s L) : L.freeAddrs.length < loopBound :=
  length_lt_loopBound ok.nodes_nodup fun _ => ok.node_bound

/-- The header of a node of the free list does not overlap a block in use. -/
theorem live_node_sep (ok : LayoutOk s L) {b k q : Nat} (hb : (b, ⟨k, false⟩) ∈ L.blocks)
    (hq : q ∈ s :: L.freeAddrs) : q + 32 ≤ b ∨ b + k ≤ q := by
  rcases List.mem_cons.mp hq with rfl | hq
  · exact ok.block_sentinel hb
  · obtain ⟨d, hd, hfree⟩ := Layout.mem_freeAddrs.mp hq
    have hmin := ok.block_min hd
    rcases ok.block_disjoint hd hb with ⟨-, rfl⟩ | hlt | hlt
    · simp at hfree
    · exact Or.inl (by omega)
    · exact Or.inr hlt

/-- The links of a node of the free list are no part of a boundary tag. -/
theorem links_outside_tags (ok : LayoutOk s L) {q a x : Nat} {c : Cell}
    (hq : q ∈ s :: L.freeAddrs) (hc : (a, c) ∈ L.blocks)
    (hx : a ≤ x ∧ x < a + 16 ∨ a + c.size - 16 ≤ x ∧ x < a + c.size) :
    x < q + 16 ∨ q + 32 ≤ x := by
  have := ok.block_min hc
  rcases List.mem_cons.mp hq with rfl | hq
  · have := ok.block_sentinel hc
    omega
  · obtain ⟨d, hd, -⟩ := Layout.mem_freeAddrs.mp hq
    have := ok.block_disjoint hc hd
    have := ok.block_min hd
    omega

/-- The links of a node of the free list are no part of a fencepost. -/
theorem links_outside_fenceposts (ok : LayoutOk s L) {q x : Nat} {c : Chunk}
    (hq : q ∈ s :: L.freeAddrs) (hc : c ∈ L)
    (hx : c.base ≤ x ∧ x < c.base + 16 ∨ c.base + 2097216 ≤ x ∧ x < c.base + 2097248) :
    x < q + 16 ∨ q + 32 ≤ x := by
  rcases List.mem_cons.mp hq with rfl | hq
  · have := ok.sentinel_sep c hc
    omega
  · obtain ⟨d, hd, -⟩ := Layout.mem_freeAddrs.mp hq
    obtain ⟨ch, hch, hlo, hhi⟩ := ok.block_in_chunk hd
    have := ok.block_min hd
    rcases ok.chunk_disjoint hc hch with rfl | hsep <;> omega

end LayoutOk

/-! ### The layout in memory -/

/-- Header and footer of the cell at `a` carry its size and its status. -/
structure CellTags (m : ByteMem) (a : Nat) (c : Cell) : Prop where
  header_size : sizeAt m a = c.size
  header_status : statusAt m a = (statusOf c.free).code
  footer_size : sizeAt m (a + c.size - 16) = c.size
  footer_status : statusAt m (a + c.size - 16) = (statusOf c.free).code

/-- Boundary tags depend on the bytes of the header's first two fields and of the footer. -/
theorem CellTags.congr {m m' : ByteMem} {a : Nat} {c : Cell} (hc : 16 ≤ c.size)
    (h : ∀ x, a ≤ x ∧ x < a + 16 ∨ a + c.size - 16 ≤ x ∧ x < a + c.size → m' x = m x)
    (ht : CellTags m a c) : CellTags m' a c where
  header_size := (sizeAt_congr fun x _ _ => h x (by omega)).trans ht.header_size
  header_status := (statusAt_congr fun x _ _ => h x (by omega)).trans ht.header_status
  footer_size := (sizeAt_congr fun x _ _ => h x (by omega)).trans ht.footer_size
  footer_status := (statusAt_congr fun x _ _ => h x (by omega)).trans ht.footer_status

/-- Both fenceposts of a chunk are allocated and have size 0. -/
structure Fenceposts (m : ByteMem) (base : Nat) : Prop where
  start_size : sizeAt m base = 0
  start_status : statusAt m base = AllocationStatus.allocated.code
  end_size : sizeAt m (base + 2097216) = 0
  end_status : statusAt m (base + 2097216) = AllocationStatus.allocated.code

theorem Fenceposts.congr {m m' : ByteMem} {base : Nat}
    (h : ∀ x, base ≤ x ∧ x < base + 16 ∨ base + 2097216 ≤ x ∧ x < base + 2097248 → m' x = m x)
    (hf : Fenceposts m base) : Fenceposts m' base where
  start_size := (sizeAt_congr fun x _ _ => h x (by omega)).trans hf.start_size
  start_status := (statusAt_congr fun x _ _ => h x (by omega)).trans hf.start_status
  end_size := (sizeAt_congr fun x _ _ => h x (by omega)).trans hf.end_size
  end_status := (statusAt_congr fun x _ _ => h x (by omega)).trans hf.end_status

/-- Memory holds the layout: boundary tags, fenceposts and the free list. -/
structure Represents (m : ByteMem) (sentinel : Nat) (L : Layout) : Prop where
  tags : ∀ a c, (a, c) ∈ L.blocks → CellTags m a c
  fenceposts : ∀ c ∈ L, Fenceposts m c.base
  ring : IsRing (nextAt m) (prevAt m) sentinel L.freeAddrs

/-- The heap represents the layout. -/
structure WellFormed (h : Heap) (L : Layout) : Prop where
  ok : LayoutOk h.sentinel L
  rep : Represents h.mem h.sentinel L
  freeList : h.freeList = h.sentinel
  chunks : h.osChunks = L.map Chunk.base

/-- The counters of calls are no part of the layout. -/
theorem WellFormed.of_fields {h h' : Heap} {L : Layout} (wf : WellFormed h L)
    (hmem : h'.mem = h.mem) (hsent : h'.sentinel = h.sentinel) (hfree : h'.freeList = h.freeList)
    (hchunks : h'.osChunks = h.osChunks) : WellFormed h' L := by
  refine ⟨?_, ?_, ?_, ?_⟩
  · rw [hsent]
    exact wf.ok
  · rw [hsent, hmem]
    exact wf.rep
  · rw [hsent, hfree]
    exact wf.freeList
  · rw [hchunks]
    exact wf.chunks

/-- Outside the bytes from `lo` to `hi`, the update changes no more than the
forward link of `p` and the backward link of `n`. -/
def LinkFrame (lo hi p n : Nat) (m m' : ByteMem) : Prop :=
  ∀ x, (x < lo ∨ hi ≤ x) → (x < p + 16 ∨ p + 24 ≤ x) → (x < n + 24 ∨ n + 32 ≤ x) → m' x = m x

/-- The `n` bytes from `a` are the same after the update. -/
def Untouched (m m' : ByteMem) (a n : Nat) : Prop := ∀ x, a ≤ x → x < a + n → m' x = m x

/-- Links are no part of a block in use, so an update elsewhere that changes
links does not touch it. -/
theorem LinkFrame.untouched {s lo hi p n b k : Nat} {L : Layout} {m m' : ByteMem}
    (hframe : LinkFrame lo hi p n m m') (ok : LayoutOk s L) (hp : p ∈ s :: L.freeAddrs)
    (hn : n ∈ s :: L.freeAddrs) (hb : (b, ⟨k, false⟩) ∈ L.blocks)
    (hsep : b + k ≤ lo ∨ hi ≤ b) : Untouched m m' b k := by
  have := ok.live_node_sep hb hp
  have := ok.live_node_sep hb hn
  intro x hx hx'
  exact hframe x (by omega) (by omega) (by omega)

namespace LinkFrame

variable {s lo hi p n a : Nat} {L : Layout} {m m' : ByteMem}

/-- The update keeps the boundary tags of a block elsewhere. -/
theorem tags (hframe : LinkFrame lo hi p n m m') (ok : LayoutOk s L) (hp : p ∈ s :: L.freeAddrs)
    (hn : n ∈ s :: L.freeAddrs) {c : Cell} (hc : (a, c) ∈ L.blocks)
    (hsep : a + c.size ≤ lo ∨ hi ≤ a) (ht : CellTags m a c) : CellTags m' a c := by
  have hmin := ok.block_min hc
  refine ht.congr (by omega) fun x hx => hframe x (by omega) ?_ ?_
  · have := ok.links_outside_tags hp hc hx
    omega
  · have := ok.links_outside_tags hn hc hx
    omega

/-- It keeps the fenceposts of a chunk, when it is between them or elsewhere. -/
theorem fenceposts (hframe : LinkFrame lo hi p n m m') (ok : LayoutOk s L)
    (hp : p ∈ s :: L.freeAddrs) (hn : n ∈ s :: L.freeAddrs) {c : Chunk} (hc : c ∈ L)
    (hsep : c.base + 16 ≤ lo ∧ hi ≤ c.base + 2097216 ∨ c.base + 2097248 ≤ lo ∨ hi ≤ c.base)
    (hf : Fenceposts m c.base) : Fenceposts m' c.base := by
  refine hf.congr fun x hx => hframe x (by omega) ?_ ?_
  · have := ok.links_outside_fenceposts hp hc hx
    omega
  · have := ok.links_outside_fenceposts hn hc hx
    omega

/-- It keeps the other links of a node elsewhere. -/
theorem links (hframe : LinkFrame lo hi p n m m') (hout : a + 32 ≤ lo ∨ hi ≤ a)
    (hap : a = p ∨ a + 32 ≤ p ∨ p + 32 ≤ a) (han : a = n ∨ a + 32 ≤ n ∨ n + 32 ≤ a) :
    (a ≠ p → nextAt m' a = nextAt m a) ∧ (a ≠ n → prevAt m' a = prevAt m a) := by
  constructor
  · intro hne
    exact nextAt_congr fun x _ _ => hframe x (by omega) (by omega) (by omega)
  · intro hne
    exact prevAt_congr fun x _ _ => hframe x (by omega) (by omega) (by omega)

end LinkFrame

/-- The headers of `p` and `n` lie outside the bytes from `lo` to `hi`, and do
not overlap partially. -/
structure Gap (lo hi p n : Nat) : Prop where
  left : p + 32 ≤ lo ∨ hi ≤ p
  right : n + 32 ≤ lo ∨ hi ≤ n
  apart : p = n ∨ p + 32 ≤ n ∨ n + 32 ≤ p

/-! ### Layouts with a hole -/

/-- A layout with some neighbouring cells of one chunk left out. -/
structure Hole where
  before : Layout
  base : Nat
  pre : List Cell
  post : List Cell
  after : Layout

namespace Hole

variable {H : Hole} {mid mid' : List Cell}

/-- Fill the hole with the cells `mid`. -/
def plug (H : Hole) (mid : List Cell) : Layout :=
  H.before ++ ⟨H.base, H.pre ++ (mid ++ H.post)⟩ :: H.after

/-- The address of the first cell of the hole. -/
def addr (H : Hole) : Nat := H.base + 16 + total H.pre

/-- The free blocks before the hole. -/
def freeBefore (H : Hole) : List Nat :=
  H.before.freeAddrs ++ Tiling.freeAddrs (H.base + 16) H.pre

/-- The free blocks after a hole of `n` bytes. -/
def freeAfter (H : Hole) (n : Nat) : List Nat :=
  Tiling.freeAddrs (H.addr + n) H.post ++ H.after.freeAddrs

/-- The blocks outside a hole of `n` bytes. -/
def others (H : Hole) (n : Nat) : List (Nat × Cell) :=
  H.before.blocks ++ (placed (H.base + 16) H.pre ++ (placed (H.addr + n) H.post ++ H.after.blocks))

theorem freeAddrs_plug (H : Hole) (mid : List Cell) :
    (H.plug mid).freeAddrs
      = H.freeBefore ++ (Tiling.freeAddrs H.addr mid ++ H.freeAfter (total mid)) := by
  simp [plug, freeBefore, freeAfter, addr, Nat.add_assoc]

theorem mem_blocks_plug {b : Nat × Cell} :
    b ∈ (H.plug mid).blocks ↔ b ∈ H.others (total mid) ∨ b ∈ placed H.addr mid := by
  simp only [plug, others, addr, Layout.blocks_append, Layout.blocks_cons, placed_append,
    List.mem_append]
  tauto

theorem mem_blocks_plug_self (H : Hole) {c : Cell} : (H.addr, c) ∈ (H.plug [c]).blocks :=
  mem_blocks_plug.mpr (Or.inr (by simp))

theorem chunk_mem (H : Hole) (mid : List Cell) :
    ⟨H.base, H.pre ++ (mid ++ H.post)⟩ ∈ H.plug mid := by
  simp [plug]

/-- The chunks with one filling have the addresses of the chunks with another. -/
theorem exists_chunk_of_mem_plug (mid : List Cell) {c : Chunk} (h : c ∈ H.plug mid') :
    ∃ d ∈ H.plug mid, d.base = c.base ∧ (d = c ∨ c.cells = H.pre ++ (mid' ++ H.post)) := by
  simp only [plug, List.mem_append, List.mem_cons] at h ⊢
  rcases h with h | rfl | h
  · exact ⟨c, Or.inl h, rfl, Or.inl rfl⟩
  · exact ⟨_, Or.inr (Or.inl rfl), rfl, Or.inr rfl⟩
  · exact ⟨c, Or.inr (Or.inr h), rfl, Or.inl rfl⟩

theorem map_base_plug (H : Hole) (mid mid' : List Cell) :
    (H.plug mid').map Chunk.base = (H.plug mid).map Chunk.base := by
  simp [plug]

theorem total_eq {s : Nat} (ok : LayoutOk s (H.plug mid)) :
    total H.pre + (total mid + total H.post) = 2097200 := by
  simpa using ok.total_eq _ (H.chunk_mem mid)

theorem sentinel_sep {s : Nat} (ok : LayoutOk s (H.plug mid)) :
    s + 32 ≤ H.base ∨ H.base + 2097248 ≤ s :=
  ok.sentinel_sep _ (H.chunk_mem mid)

/-- The hole lies between the fenceposts of its chunk. -/
theorem bounds {s : Nat} (ok : LayoutOk s (H.plug mid)) :
    H.base + 16 ≤ H.addr ∧ H.addr + total mid ≤ H.base + 2097216 := by
  have := total_eq ok
  simp only [addr]
  omega

/-- The blocks outside the hole do not overlap it. -/
theorem others_sep {s a : Nat} {c : Cell} (ok : LayoutOk s (H.plug mid))
    (h : (a, c) ∈ H.others (total mid)) : a + c.size ≤ H.addr ∨ H.addr + total mid ≤ a := by
  obtain ⟨hlo, hhi⟩ := bounds ok
  have hmem := H.chunk_mem mid
  -- a block of another chunk is apart from the chunk of the hole
  have hother : ∀ ch ∈ H.plug mid, (a, c) ∈ placed (ch.base + 16) ch.cells →
      ch.base + 2097248 ≤ H.base ∨ H.base + 2097248 ≤ ch.base →
      a + c.size ≤ H.addr ∨ H.addr + total mid ≤ a := by
    intro ch hch hb hsep
    have := placed_bounds hb
    have := ok.total_eq ch hch
    omega
  have hasc := ok.ascending
  rw [plug, List.pairwise_append, List.pairwise_cons] at hasc
  simp only [others, List.mem_append] at h
  rcases h with h | h | h | h
  · obtain ⟨ch, hch, hb⟩ := Layout.mem_blocks.mp h
    have hlt := hasc.2.2 ch hch _ List.mem_cons_self
    exact hother ch (by simp [plug, hch]) hb (Or.inl hlt)
  · have := placed_bounds h
    simp only [addr]
    omega
  · have := placed_bounds h
    omega
  · obtain ⟨ch, hch, hb⟩ := Layout.mem_blocks.mp h
    exact hother ch (by simp [plug, hch]) hb (Or.inr (hasc.2.1.1 ch hch))

theorem mem_nodes_iff {s q : Nat} :
    q ∈ s :: (H.freeBefore ++ H.freeAfter (total mid)) ↔
      q = s ∨ ∃ d, (q, d) ∈ H.others (total mid) ∧ d.free = true := by
  simp only [freeBefore, freeAfter, others, List.mem_cons, List.mem_append,
    Layout.mem_freeAddrs, Tiling.mem_freeAddrs]
  constructor
  · rintro (h | (⟨d, h, hf⟩ | ⟨d, h, hf⟩) | (⟨d, h, hf⟩ | ⟨d, h, hf⟩))
    · exact Or.inl h
    all_goals exact Or.inr ⟨d, by tauto, hf⟩
  · rintro (h | ⟨d, h | h | h | h, hf⟩)
    · exact Or.inl h
    · exact Or.inr (Or.inl (Or.inl ⟨d, h, hf⟩))
    · exact Or.inr (Or.inl (Or.inr ⟨d, h, hf⟩))
    · exact Or.inr (Or.inr (Or.inl ⟨d, h, hf⟩))
    · exact Or.inr (Or.inr (Or.inr ⟨d, h, hf⟩))

/-- The nodes of the free list outside the hole are nodes of the whole list. -/
theorem nodes_subset {s q : Nat} (h : q ∈ s :: (H.freeBefore ++ H.freeAfter (total mid))) :
    q ∈ s :: (H.plug mid).freeAddrs := by
  rw [freeAddrs_plug]
  simp only [List.mem_cons, List.mem_append] at h ⊢
  tauto

/-- The nodes of the free list outside the hole do not overlap it. -/
theorem nodes_sep {s q : Nat} (ok : LayoutOk s (H.plug mid))
    (h : q ∈ s :: (H.freeBefore ++ H.freeAfter (total mid))) :
    q + 32 ≤ H.addr ∨ H.addr + total mid ≤ q := by
  rcases mem_nodes_iff.mp h with rfl | ⟨d, hd, -⟩
  · have := bounds ok
    have := sentinel_sep ok
    omega
  · have := others_sep ok hd
    have := ok.block_min (mem_blocks_plug.mpr (Or.inl hd))
    omega

/-- The nodes of the free list around the hole are nodes outside the hole. -/
theorem lastOr_mem_nodes (H : Hole) (s n : Nat) :
    lastOr s H.freeBefore ∈ s :: (H.freeBefore ++ H.freeAfter n) := by
  have := lastOr_mem s H.freeBefore
  simp only [List.mem_cons, List.mem_append] at this ⊢
  tauto

theorem headOr_mem_nodes (H : Hole) (s n : Nat) :
    headOr s (H.freeAfter n) ∈ s :: (H.freeBefore ++ H.freeAfter n) := by
  have := headOr_mem s (H.freeAfter n)
  simp only [List.mem_cons, List.mem_append] at this ⊢
  tauto

/-- The nodes of the free list around the hole. -/
theorem gap {s : Nat} (ok : LayoutOk s (H.plug mid)) :
    Gap H.addr (H.addr + total mid) (lastOr s H.freeBefore)
      (headOr s (H.freeAfter (total mid))) where
  left := nodes_sep ok (H.lastOr_mem_nodes s _)
  right := nodes_sep ok (H.headOr_mem_nodes s _)
  apart := ok.nodes_sep (nodes_subset (H.lastOr_mem_nodes s _))
    (nodes_subset (H.headOr_mem_nodes s _))

end Hole

/-! ### Refilling a hole -/

/-- Other cells of the same total size in a hole keep the layout legal. -/
theorem LayoutOk.refill {s : Nat} {H : Hole} {mid mid' : List Cell}
    (ok : LayoutOk s (H.plug mid)) (htotal : total mid' = total mid)
    (hmin : ∀ c ∈ mid', 48 ≤ c.size) (hnormal : Normal (H.pre ++ (mid' ++ H.post))) :
    LayoutOk s (H.plug mid') := by
  have hold := H.chunk_mem mid
  constructor
  · intro c hc
    obtain ⟨d, hd, -, rfl | hcells⟩ := Hole.exists_chunk_of_mem_plug mid hc
    · exact ok.total_eq d hd
    · have := Hole.total_eq ok
      simp only [hcells, total_append]
      omega
  · intro c hc b hb
    obtain ⟨d, hd, -, rfl | hcells⟩ := Hole.exists_chunk_of_mem_plug mid hc
    · exact ok.min_size d hd b hb
    · rw [hcells, List.mem_append, List.mem_append] at hb
      rcases hb with hb | hb | hb
      · exact ok.min_size _ hold b (by simp [hb])
      · exact hmin b hb
      · exact ok.min_size _ hold b (by simp [hb])
  · intro c hc
    obtain ⟨d, hd, -, rfl | hcells⟩ := Hole.exists_chunk_of_mem_plug mid hc
    · exact ok.normal d hd
    · exact hcells ▸ hnormal
  · have h := ok.ascending
    rw [← List.pairwise_map (f := Chunk.base) (R := fun a b => a + 2097248 ≤ b)] at h ⊢
    rwa [H.map_base_plug mid mid']
  · intro c hc
    obtain ⟨d, hd, hbase, -⟩ := Hole.exists_chunk_of_mem_plug mid hc
    exact hbase ▸ ok.bound d hd
  · intro c hc
    obtain ⟨d, hd, hbase, -⟩ := Hole.exists_chunk_of_mem_plug mid hc
    exact hbase ▸ ok.sentinel_sep d hd
  · exact ok.sentinel_bound

/-- **Refilling a hole.** An update that stays inside the hole except for the
two links around it, leaves the tags of `mid'` there, and links the free cells
of `mid'` between the neighbours in the free list, turns a heap representing
`H.plug mid` into one representing `H.plug mid'`. -/
theorem WellFormed.refill {h : Heap} {H : Hole} {mid mid' : List Cell} {m' : ByteMem}
    (wf : WellFormed h (H.plug mid)) (htotal : total mid' = total mid)
    (hmin : ∀ c ∈ mid', 48 ≤ c.size) (hnormal : Normal (H.pre ++ (mid' ++ H.post)))
    (hframe : LinkFrame H.addr (H.addr + total mid) (lastOr h.sentinel H.freeBefore)
      (headOr h.sentinel (H.freeAfter (total mid))) h.mem m')
    (htags : ∀ a c, (a, c) ∈ placed H.addr mid' → CellTags m' a c)
    (hseg : Seg (nextAt m') (prevAt m') (lastOr h.sentinel H.freeBefore)
      (Tiling.freeAddrs H.addr mid') (headOr h.sentinel (H.freeAfter (total mid)))) :
    WellFormed { h with mem := m' } (H.plug mid') := by
  have ok' := wf.ok.refill htotal hmin hnormal
  have hp := Hole.nodes_subset (H.lastOr_mem_nodes h.sentinel (total mid))
  have hn := Hole.nodes_subset (H.headOr_mem_nodes h.sentinel (total mid))
  have hlinks := fun a ha => hframe.links (Hole.nodes_sep wf.ok ha)
    (wf.ok.nodes_sep (Hole.nodes_subset ha) hp) (wf.ok.nodes_sep (Hole.nodes_subset ha) hn)
    (a := a)
  refine ⟨ok', ⟨?_, ?_, ?_⟩, wf.freeList, ?_⟩
  · intro a c hc
    rcases Hole.mem_blocks_plug.mp hc with hc | hc
    · rw [htotal] at hc
      have hblock := Hole.mem_blocks_plug.mpr (Or.inl hc)
      exact hframe.tags wf.ok hp hn hblock (Hole.others_sep wf.ok hc) (wf.rep.tags a c hblock)
    · exact htags a c hc
  · intro c hc
    obtain ⟨d, hd, hbase, -⟩ := Hole.exists_chunk_of_mem_plug mid hc
    rw [← hbase]
    refine hframe.fenceposts wf.ok hp hn hd ?_ (wf.rep.fenceposts d hd)
    -- the hole is inside its own chunk
    have hbounds := Hole.bounds wf.ok
    rcases wf.ok.chunk_disjoint hd (H.chunk_mem mid) with rfl | hsep
    · simp only
      omega
    · simp only at hsep
      omega
  · have hring := wf.rep.ring
    have hnodup := ok'.nodes_nodup
    rw [Hole.freeAddrs_plug] at hring hnodup ⊢
    rw [htotal] at hnodup ⊢
    exact hring.splice hnodup (fun a ha => (hlinks a ha).1) (fun a ha => (hlinks a ha).2) hseg
  · rw [H.map_base_plug mid mid']
    exact wf.chunks

/-- Nothing of the heap is stored in the usable bytes of a block in use, nor in the
last four bytes of its footer. -/
theorem WellFormed.write_unused {h : Heap} {L : Layout} {a n : Nat} {m' : ByteMem}
    (wf : WellFormed h L) (hlive : (a, ⟨n, false⟩) ∈ L.blocks)
    (hframe : ∀ x, x < a + 32 ∨ a + n - 16 ≤ x ∧ x < a + n - 4 ∨ a + n ≤ x → m' x = h.mem x) :
    WellFormed { h with mem := m' } L := by
  have hmin := wf.ok.block_min hlive
  simp only at hmin
  refine ⟨wf.ok, ⟨?_, ?_, ?_⟩, wf.freeList, wf.chunks⟩
  · intro b c hc
    have hcmin := wf.ok.block_min hc
    have htags := wf.rep.tags b c hc
    rcases wf.ok.block_disjoint hlive hc with ⟨rfl, rfl⟩ | hsep | hsep
    · -- the footer of the block itself, field by field
      refine ⟨(sizeAt_congr fun x _ _ => hframe x (by omega)).trans htags.header_size,
        (statusAt_congr fun x _ _ => hframe x (by omega)).trans htags.header_status,
        (ByteMem.load_congr fun x _ _ => hframe x ?_).trans htags.footer_size,
        (ByteMem.load_congr fun x _ _ => hframe x ?_).trans htags.footer_status⟩
      all_goals
        simp only at *
        omega
    · simp only at hsep
      exact htags.congr (by omega) fun x hx => hframe x (by omega)
    · exact htags.congr (by omega) fun x hx => hframe x (by omega)
  · intro c hc
    obtain ⟨ch, hch, hlo, hhi⟩ := wf.ok.block_in_chunk hlive
    simp only at hhi
    refine (wf.rep.fenceposts c hc).congr fun x hx => hframe x ?_
    rcases wf.ok.chunk_disjoint hc hch with rfl | hsep
    · omega
    · omega
  · refine wf.rep.ring.congr (fun q hq => ?_) fun q hq => ?_
    · have hsep := wf.ok.live_node_sep hlive hq
      exact nextAt_congr fun x _ _ => hframe x (by omega)
    · have hsep := wf.ok.live_node_sep hlive hq
      exact prevAt_congr fun x _ _ => hframe x (by omega)

/-- The client may write to the usable bytes of a block in use. -/
theorem WellFormed.write_payload {h : Heap} {L : Layout} {a n : Nat} {m' : ByteMem}
    (wf : WellFormed h L) (hlive : (a, ⟨n, false⟩) ∈ L.blocks)
    (hframe : ∀ x, x < a + 32 ∨ a + n - 16 ≤ x → m' x = h.mem x) :
    WellFormed { h with mem := m' } L :=
  wf.write_unused hlive fun x hx => hframe x (by omega)

end Cs252.Malloc
