import Cs252.Malloc.Layout

/-!
# Cs252.Malloc.Extended

Heaps whose free list goes on beyond their chunks.

A new chunk is laid out without a look at what is left of it, and `sbrk` may
put it anywhere. So the heap after a request need not represent a layout. The
chunks it had before are intact all the same, and their free blocks are still
in the free list, in order: only after them the list goes on through the rest
of the new chunk.

`Extended h L extra` is this situation, with `extra` the nodes that lie outside
the chunks of `L`. A well-formed heap is one without such nodes. What
`free_object` does to a block of `L` can be said for both at once.
-/

namespace Cs252.Malloc

open Tiling LinkedRing

/-- The heap holds the chunks of `L`, and after their free blocks its free list
goes on through the nodes `extra`, outside of these chunks. -/
structure Extended (h : Heap) (L : Layout) (extra : List Nat) : Prop where
  ok : LayoutOk h.sentinel L
  tags : ∀ a c, (a, c) ∈ L.blocks → CellTags h.mem a c
  fenceposts : ∀ c ∈ L, Fenceposts h.mem c.base
  ring : IsRing (nextAt h.mem) (prevAt h.mem) h.sentinel (L.freeAddrs ++ extra)
  /-- The nodes are in the address space. -/
  bound : ∀ q ∈ extra, q < 2 ^ 64
  outside : ∀ q ∈ extra, ∀ c ∈ L, q + 32 ≤ c.base ∨ c.base + 2097248 ≤ q
  /-- The headers of two different nodes do not overlap. -/
  sep : ∀ q ∈ extra, ∀ q' ∈ h.sentinel :: extra, q = q' ∨ q + 32 ≤ q' ∨ q' + 32 ≤ q

/-- A well-formed heap has no further nodes. -/
theorem WellFormed.extended {h : Heap} {L : Layout} (wf : WellFormed h L) : Extended h L [] where
  ok := wf.ok
  tags := wf.rep.tags
  fenceposts := wf.rep.fenceposts
  ring := by simpa using wf.rep.ring
  bound := by simp
  outside := by simp
  sep := by simp

namespace Extended

variable {h : Heap} {L : Layout} {extra : List Nat} {H : Hole} {mid : List Cell} {q : Nat}

theorem mem_nodes_iff : q ∈ h.sentinel :: (L.freeAddrs ++ extra) ↔
    q ∈ h.sentinel :: L.freeAddrs ∨ q ∈ extra := by
  simp only [List.mem_cons, List.mem_append, or_assoc]

/-- A further node does not overlap a block. -/
theorem block_sep (e : Extended h L extra) {a : Nat} {c : Cell} (hc : (a, c) ∈ L.blocks)
    (hq : q ∈ extra) : q + 32 ≤ a ∨ a + c.size ≤ q := by
  obtain ⟨ch, hch, hlo, hhi⟩ := e.ok.block_in_chunk hc
  have := e.outside q hq ch hch
  omega

/-- The header of a node does not overlap a block in use. -/
theorem live_node_sep (e : Extended h L extra) {b k : Nat} (hb : (b, ⟨k, false⟩) ∈ L.blocks)
    (hq : q ∈ h.sentinel :: (L.freeAddrs ++ extra)) : q + 32 ≤ b ∨ b + k ≤ q := by
  rcases mem_nodes_iff.mp hq with hq | hq
  · exact e.ok.live_node_sep hb hq
  · exact e.block_sep hb hq

/-- The headers of two different nodes do not overlap. -/
theorem nodes_sep (e : Extended h L extra) {a b : Nat}
    (ha : a ∈ h.sentinel :: (L.freeAddrs ++ extra)) (hb : b ∈ h.sentinel :: (L.freeAddrs ++ extra)) :
    a = b ∨ a + 32 ≤ b ∨ b + 32 ≤ a := by
  -- a further node is apart from the sentinel, the other ones and the free blocks
  have hextra : ∀ x ∈ extra, ∀ y ∈ h.sentinel :: (L.freeAddrs ++ extra),
      x = y ∨ x + 32 ≤ y ∨ y + 32 ≤ x := by
    intro x hx y hy
    simp only [List.mem_cons, List.mem_append] at hy
    rcases hy with rfl | hy | hy
    · exact e.sep x hx _ List.mem_cons_self
    · obtain ⟨d, hd, -⟩ := Layout.mem_freeAddrs.mp hy
      have := e.block_sep hd hx
      have := e.ok.block_min hd
      omega
    · exact e.sep x hx y (List.mem_cons_of_mem _ hy)
  rcases mem_nodes_iff.mp ha with ha' | ha'
  · rcases mem_nodes_iff.mp hb with hb' | hb'
    · exact e.ok.nodes_sep ha' hb'
    · have := hextra b hb' a ha
      omega
  · exact hextra a ha' b hb

theorem node_bound (e : Extended h L extra) (hq : q ∈ h.sentinel :: (L.freeAddrs ++ extra)) :
    q < 2 ^ 64 := by
  rcases mem_nodes_iff.mp hq with hq | hq
  · exact e.ok.node_bound hq
  · exact e.bound q hq

/-- The free list is shorter than the bound of the loops over it. -/
theorem length_lt (e : Extended h L extra) : (L.freeAddrs ++ extra).length < loopBound :=
  length_lt_loopBound e.ring.nodup fun _ => e.node_bound

/-- Writes outside the chunks and the links of the further nodes change nothing. -/
theorem of_agree (e : Extended h L extra) {m : ByteMem}
    (hchunks : ∀ c ∈ L, ∀ x, c.base ≤ x → x < c.base + 2097248 → m x = h.mem x)
    (hnodes : ∀ q ∈ h.sentinel :: extra, ∀ x, q + 16 ≤ x → x < q + 32 → m x = h.mem x) :
    Extended { h with mem := m } L extra := by
  have hblock : ∀ a c, (a, c) ∈ L.blocks → ∀ x, a ≤ x → x < a + c.size → m x = h.mem x := by
    intro a c hc x hx hx'
    obtain ⟨ch, hch, hlo, hhi⟩ := e.ok.block_in_chunk hc
    exact hchunks ch hch x (by omega) (by omega)
  -- the links of every node of the free list
  have hlinks : ∀ q ∈ h.sentinel :: (L.freeAddrs ++ extra), ∀ x, q + 16 ≤ x → x < q + 32 →
      m x = h.mem x := by
    intro q hq x hx hx'
    simp only [List.mem_cons, List.mem_append] at hq
    rcases hq with rfl | hq | hq
    · exact hnodes _ List.mem_cons_self x hx hx'
    · obtain ⟨d, hd, -⟩ := Layout.mem_freeAddrs.mp hq
      have := e.ok.block_min hd
      exact hblock q d hd x (by omega) (by omega)
    · exact hnodes q (List.mem_cons_of_mem _ hq) x hx hx'
  refine ⟨e.ok, fun a c hc => ?_, fun c hc => ?_, ?_, e.bound, e.outside, e.sep⟩
  · have := e.ok.block_min hc
    exact (e.tags a c hc).congr (by omega) fun x hx => hblock a c hc x (by omega) (by omega)
  · exact (e.fenceposts c hc).congr fun x hx => hchunks c hc x (by omega) (by omega)
  · refine e.ring.congr (fun q hq => ?_) fun q hq => ?_
    · exact nextAt_congr fun x _ _ => hlinks q hq x (by omega) (by omega)
    · exact prevAt_congr fun x _ _ => hlinks q hq x (by omega) (by omega)

/-! ### Nodes around a hole -/

/-- The nodes that are no free blocks of a hole do not overlap it. -/
theorem hole_sep (e : Extended h (H.plug mid) extra)
    (hq : q ∈ h.sentinel :: ((H.plug mid).freeAddrs ++ extra))
    (hout : q ∉ Tiling.freeAddrs H.addr mid) : q + 32 ≤ H.addr ∨ H.addr + total mid ≤ q := by
  rcases mem_nodes_iff.mp hq with hq | hq
  · have hother : q ∈ h.sentinel :: (H.freeBefore ++ H.freeAfter (total mid)) := by
      rw [Hole.freeAddrs_plug] at hq
      simp only [List.mem_cons, List.mem_append] at hq ⊢
      tauto
    exact Hole.nodes_sep e.ok hother
  · have := Hole.bounds e.ok
    have := e.outside q hq _ (H.chunk_mem mid)
    simp only at this
    omega

/-- The free list, split at a hole. -/
theorem nodes_plug (H : Hole) (mid : List Cell) (extra : List Nat) :
    (H.plug mid).freeAddrs ++ extra
      = H.freeBefore ++ (Tiling.freeAddrs H.addr mid ++ (H.freeAfter (total mid) ++ extra)) := by
  simp [Hole.freeAddrs_plug]

/-- The nodes around the free blocks of a hole. -/
theorem gap (e : Extended h (H.plug mid) extra) {front back : List Nat}
    (hnodes : (H.plug mid).freeAddrs ++ extra = front ++ (Tiling.freeAddrs H.addr mid ++ back)) :
    Gap H.addr (H.addr + total mid) (lastOr h.sentinel front) (headOr h.sentinel back) := by
  have hnodup := e.ring.nodup
  obtain ⟨hlast, hhead⟩ := around_mem h.sentinel front (Tiling.freeAddrs H.addr mid) back
  obtain ⟨hlast', hhead'⟩ := around_mem h.sentinel front [] back
  rw [hnodes] at hnodup
  rw [← hnodes] at hlast hhead
  exact ⟨e.hole_sep hlast (not_mem_between hnodup hlast'),
    e.hole_sep hhead (not_mem_between hnodup hhead'), e.nodes_sep hlast hhead⟩

end Extended

end Cs252.Malloc
