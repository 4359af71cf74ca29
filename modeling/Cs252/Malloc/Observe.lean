import Cs252.Malloc.Layout

/-!
# Cs252.Malloc.Observe

What can be read off a heap without knowing its layout.

`print_list` follows the free list. `chunkBlocks` follows the boundary tags of
a chunk from its first block to the end fencepost, whose size 0 "would be
impossible as a value for a valid memory block". On a well-formed heap both
give back the layout, so two heaps that represent the same layout cannot be
told apart by either.
-/

namespace Cs252.Malloc

open Tiling LinkedRing

/-- The blocks of a chunk from the header `a` on, up to the end fencepost:
address, size and status. -/
def blocksFrom (m : ByteMem) : Nat → Nat → Option (List (Nat × Nat × Nat))
  | 0, _ => none
  | rounds + 1, a =>
    if sizeAt m a = 0 then some []
    else (blocksFrom m rounds (a + sizeAt m a)).map
      fun blocks => (a, sizeAt m a, statusAt m a) :: blocks

/-- The blocks of the chunk at `base`. -/
def chunkBlocks (m : ByteMem) (base : Nat) : Option (List (Nat × Nat × Nat)) :=
  blocksFrom m loopBound (base + 16)

/-- A block as the walk over the boundary tags reports it. -/
def report (b : Nat × Cell) : Nat × Nat × Nat := (b.1, b.2.size, (statusOf b.2.free).code)

/-- The walk over boundary tags that stand for `cs` reports `cs`. -/
theorem blocksFrom_eq {m : ByteMem} {a rounds : Nat} {cs : List Cell}
    (htags : ∀ b c, (b, c) ∈ placed a cs → CellTags m b c) (hpos : ∀ c ∈ cs, 0 < c.size)
    (hend : sizeAt m (a + total cs) = 0) (hlen : cs.length < rounds) :
    blocksFrom m rounds a = some ((placed a cs).map report) := by
  induction cs generalizing a rounds with
  | nil =>
    cases rounds with
    | zero => simp at hlen
    | succ rounds =>
      have hzero : sizeAt m a = 0 := by simpa using hend
      rw [blocksFrom, if_pos hzero]
      rfl
  | cons c cs ih =>
    cases rounds with
    | zero => simp at hlen
    | succ rounds =>
      have hc := htags a c (by simp)
      have hne : c.size ≠ 0 := Nat.ne_of_gt (hpos c (by simp))
      have hend' : sizeAt m (a + c.size + total cs) = 0 := by
        rw [total_cons, ← Nat.add_assoc] at hend
        exact hend
      have hrest := ih (fun b d hd => htags b d (List.mem_cons_of_mem _ hd))
        (fun d hd => hpos d (List.mem_cons_of_mem _ hd)) hend' (Nat.lt_of_succ_lt_succ hlen)
      rw [blocksFrom, hc.header_size, hc.header_status, if_neg hne, hrest]
      rfl

/-- Cells of 48 bytes and more are no more than the bytes they fill. -/
theorem length_le_total {cs : List Cell} (h : ∀ c ∈ cs, 48 ≤ c.size) : cs.length ≤ total cs := by
  induction cs with
  | nil => simp
  | cons c cs ih =>
    have htail := ih fun d hd => h d (List.mem_cons_of_mem _ hd)
    have hc := h c (by simp)
    rw [List.length_cons, total_cons]
    omega

/-- The walk over the free list visits the nodes of a segment. -/
theorem listEntries_eq {m : ByteMem} {s start p rounds : Nat} {l : List Nat} (hs : s ∉ l)
    (hseg : Seg (nextAt m) (prevAt m) p l s) (hlen : l.length < rounds) :
    listEntries m s start rounds (nextAt m p)
      = some (l.map fun a : Nat => ((a : Int) - start, sizeAt m a)) := by
  induction l generalizing p rounds with
  | nil =>
    cases rounds with
    | zero => simp at hlen
    | succ rounds =>
      rw [listEntries, if_pos hseg.1]
      rfl
  | cons a l ih =>
    obtain ⟨hnext, -, htail⟩ := hseg
    have hne : a ≠ s := fun he => hs (he ▸ List.mem_cons_self)
    cases rounds with
    | zero => simp at hlen
    | succ rounds =>
      have hrest := ih (fun h => hs (List.mem_cons_of_mem _ h)) htail (Nat.lt_of_succ_lt_succ hlen)
      rw [listEntries, hnext, if_neg hne, hrest]
      rfl

/-- The free list printed is the ring of its nodes. -/
theorem printList_of_ring {h : Heap} {nodes : List Nat} (hlist : h.freeList = h.sentinel)
    (hring : IsRing (nextAt h.mem) (prevAt h.mem) h.sentinel nodes)
    (hlen : nodes.length < loopBound) :
    printList h = some (nodes.map fun a : Nat => ((a : Int) - h.memStart, sizeAt h.mem a)) := by
  rw [printList, hlist]
  exact listEntries_eq (List.nodup_cons.mp hring.nodup).1 hring.seg hlen

namespace WellFormed

variable {h h' : Heap} {L : Layout}

/-- The boundary tags of a chunk give back its cells. -/
theorem chunkBlocks_eq (wf : WellFormed h L) {c : Chunk} (hc : c ∈ L) :
    chunkBlocks h.mem c.base = some ((placed (c.base + 16) c.cells).map report) := by
  have htotal := wf.ok.total_eq c hc
  have hmin := wf.ok.min_size c hc
  have hlen := length_le_total hmin
  have hend : sizeAt h.mem (c.base + 16 + total c.cells) = 0 := by
    have haddr : c.base + 16 + total c.cells = c.base + 2097216 := by omega
    rw [haddr]
    exact (wf.rep.fenceposts c hc).end_size
  refine blocksFrom_eq (fun b d hd => wf.rep.tags b d (Layout.mem_blocks.mpr ⟨c, hc, hd⟩))
    (fun d hd => Nat.lt_of_lt_of_le (by decide) (hmin d hd)) hend ?_
  unfold loopBound
  omega

/-- The free list printed is the list of free blocks of the layout. -/
theorem printList_eq (wf : WellFormed h L) :
    printList h
      = some (L.freeAddrs.map fun a : Nat => ((a : Int) - h.memStart, sizeAt h.mem a)) :=
  printList_of_ring wf.freeList wf.rep.ring wf.ok.length_freeAddrs_lt

/-- Two heaps that represent one layout print the same free list. -/
theorem printList_congr (wf : WellFormed h L) (wf' : WellFormed h' L)
    (hstart : h'.memStart = h.memStart) : printList h' = printList h := by
  rw [wf.printList_eq, wf'.printList_eq, hstart]
  refine congrArg some (List.map_congr_left fun a ha => ?_)
  obtain ⟨c, hc, -⟩ := Layout.mem_freeAddrs.mp ha
  rw [(wf.rep.tags a c hc).header_size, (wf'.rep.tags a c hc).header_size]

end WellFormed

end Cs252.Malloc
