import Cs252.Malloc.FreeOrder

/-!
# Cs252.Malloc.Coalescing

What becomes of a freed block and its neighbours.

`FreeNeighbours` cuts a block out of the layout, together with the free blocks
to its left and to its right. `free_object` fills the hole with one free block.
In the free list, it takes the place of those neighbours.
-/

namespace Cs252.Malloc

open Tiling

/-- The block of `n` bytes at `a` lies in the hole `H` of the layout, between the
free blocks next to it. -/
structure FreeNeighbours (L : Layout) (a n : Nat) (H : Hole) (left right : List Cell) : Prop where
  layout : L = H.plug (left ++ ⟨n, false⟩ :: right)
  block : a = H.addr + total left
  left_free : left = [] ∨ ∃ l, left = [⟨l, true⟩]
  right_free : right = [] ∨ ∃ r, right = [⟨r, true⟩]
  /-- The next cells are not free. -/
  left_used : ClosedRight H.pre
  right_used : ClosedLeft H.post

namespace FreeNeighbours

variable {h : Heap} {L : Layout} {a n : Nat} {H : Hole} {left right : List Cell}

/-- Every live block has at most one free neighbour on each side. -/
theorem exists_of_live {s : Nat} (ok : LayoutOk s L) (hlive : (a, ⟨n, false⟩) ∈ L.blocks) :
    ∃ H left right, FreeNeighbours L a n H left right := by
  obtain ⟨H, rfl, rfl⟩ := Hole.of_mem_blocks hlive
  have hnormal := ok.normal _ (H.chunk_mem [⟨n, false⟩])
  obtain ⟨hpre, hpost⟩ := normal_used_between.mp hnormal
  obtain ⟨init, left, hinit, hused, hleft⟩ : ∃ init left, H.pre = init ++ left ∧
      ClosedRight init ∧ (left = [] ∨ ∃ l, left = [⟨l, true⟩]) := by
    rcases closedRight_or H.pre with hclosed | ⟨init, l, hpre'⟩
    · exact ⟨H.pre, [], (List.append_nil _).symm, hclosed, Or.inl rfl⟩
    · rw [hpre'] at hpre
      exact ⟨init, [⟨l, true⟩], hpre', ((@normal_free_between l init []).mp hpre).1.2,
        Or.inr ⟨l, rfl⟩⟩
  obtain ⟨right, tail, htail, hclosed, hright⟩ : ∃ right tail, H.post = right ++ tail ∧
      ClosedLeft tail ∧ (right = [] ∨ ∃ r, right = [⟨r, true⟩]) := by
    rcases closedLeft_or H.post with hclosed | ⟨r, tail, hpost'⟩
    · exact ⟨[], H.post, rfl, hclosed, Or.inl rfl⟩
    · rw [hpost'] at hpost
      exact ⟨[⟨r, true⟩], tail, hpost', (normal_free_cons.mp hpost).2, Or.inr ⟨r, rfl⟩⟩
  refine ⟨{ H with pre := init, post := tail }, left, right, ?_, ?_, hleft, hright, hused, hclosed⟩
  · simp [Hole.plug, hinit, htail]
  · simp [Hole.addr, hinit, Nat.add_assoc]

/-- The free list, with the free neighbours in it. -/
theorem freeAddrs_eq (nb : FreeNeighbours L a n H left right) :
    L.freeAddrs = H.freeBefore ++ (left.map fun _ => H.addr) ++ (right.map fun _ => a + n) ++
      H.freeAfter (total left + n + total right) := by
  have htotal : total (left ++ ⟨n, false⟩ :: right) = total left + n + total right := by
    simp [Nat.add_assoc]
  have hmid : Tiling.freeAddrs H.addr (left ++ ⟨n, false⟩ :: right) =
      (left.map fun _ => H.addr) ++ right.map fun _ => a + n := by
    rw [nb.block]
    obtain rfl | ⟨l, rfl⟩ := nb.left_free <;> obtain rfl | ⟨r, rfl⟩ := nb.right_free <;> simp
  rw [nb.layout, Hole.freeAddrs_plug, hmid, htotal, List.append_assoc, List.append_assoc,
    List.append_assoc]

/-- Releasing the block merges it with its free neighbours. -/
theorem release_eq {s : Nat} (nb : FreeNeighbours L a n H left right) (ok : LayoutOk s L) :
    L.release (· == a) = H.plug [⟨total left + n + total right, true⟩] := by
  have htotal : total left + n + total right = total (left ++ ⟨n, false⟩ :: right) := by
    simp [Nat.add_assoc]
  have hblock : (a, ⟨n, false⟩) ∈ placed H.addr (left ++ ⟨n, false⟩ :: right) := by
    rw [placed_append, nb.block]
    simp
  have honly : ∀ b k, (b, ⟨k, false⟩) ∈ placed H.addr (left ++ ⟨n, false⟩ :: right) → b = a := by
    intro b k hb
    rw [nb.block]
    obtain rfl | ⟨l, rfl⟩ := nb.left_free <;> obtain rfl | ⟨r, rfl⟩ := nb.right_free <;>
      simpa using And.left (by simpa using hb)
  rw [nb.layout] at ok ⊢
  have hmin := ok.block_min (Hole.mem_blocks_plug.mpr (Or.inr hblock))
  rw [htotal]
  refine ok.release_eq nb.left_used nb.right_used ?_ hblock honly
  rw [← htotal]
  exact Nat.le_trans hmin (by simp only; omega)

end FreeNeighbours

/-- **Freeing a live block coalesces it** with its free neighbours, with the
sentinel below the heap: the heap stays well formed, and in the free list the
new block takes their place. -/
theorem freeObject_coalesces {h : Heap} {L : Layout} {a n : Nat} (wf : WellFormed h L)
    (below : SentinelBelow h.sentinel L) (hlive : (a, ⟨n, false⟩) ∈ L.blocks) :
    ∃ H left right m', FreeNeighbours L a n H left right ∧
      freeObject h (a + 32) = some { h with mem := m' } ∧
      WellFormed { h with mem := m' } (H.plug [⟨total left + n + total right, true⟩]) ∧
      L.freeAddrs = H.freeBefore ++ (left.map fun _ => H.addr) ++ (right.map fun _ => a + n) ++
        H.freeAfter (total left + n + total right) ∧
      (H.plug [⟨total left + n + total right, true⟩]).freeAddrs =
        H.freeBefore ++ H.addr :: H.freeAfter (total left + n + total right) := by
  obtain ⟨H, left, right, nb⟩ := FreeNeighbours.exists_of_live wf.ok hlive
  obtain ⟨m', hfree, -, hwf⟩ := freeObject_sound wf hlive
  refine ⟨H, left, right, m', nb, hfree, ?_, nb.freeAddrs_eq, ?_⟩
  · rw [← nb.release_eq wf.ok]
    exact hwf below
  · simp [Hole.freeAddrs_plug]

/-- The second block of the small heap, with a free block to its right. -/
theorem freeObject_coalesces_second :
    ∃ H left right m', FreeNeighbours sampleLayout 4264 152 H left right ∧
      freeObject sampleHeap 4296 = some { sampleHeap with mem := m' } ∧
      WellFormed { sampleHeap with mem := m' }
        (H.plug [⟨total left + 152 + total right, true⟩]) := by
  obtain ⟨H, left, right, m', nb, hfree, hwf, -⟩ :=
    freeObject_coalesces sampleHeap_spec.1 sampleHeap_below (a := 4264) (n := 152) (by decide)
  exact ⟨H, left, right, m', nb, hfree, hwf⟩

end Cs252.Malloc
