import Cs252.Malloc.Extended
import Cs252.Malloc.Policy
import Cs252.Malloc.Updates

/-!
# Cs252.Malloc.FreeSound

`free_object` implements `Layout.release`.

The four cases of the code differ in which neighbours are free. Each is stated
over the hole that holds the block and its free neighbours, and each fills it
with one free block. `Merges` collects what all four have in common, and
`Extended.freeObject_merges` chooses the case from the cells next to the block.

A block without free neighbours is inserted by a search over the free list that
compares addresses. The search ends at some node of the list wherever the
sentinel is (`findSlot_mem`). It ends at the right one when the sentinel is
below the block, or some free block is (`findSlot_eq`, `findSlot_from`). The
frame of `Frees` needs only the first.
-/

namespace Cs252.Malloc

open Tiling LinkedRing

/-! ### The search for the place of a block -/

/-- With the sentinel below the heap, the search ends at the last free block
before `current`. -/
theorem findSlot_eq {m : ByteMem} {s current temp rounds : Nat} {l : List Nat} (hs : s ∉ l)
    (hcur : current ∉ l) (hseg : Seg (nextAt m) (prevAt m) temp l s) (htemp : temp < current)
    (hlen : l.length < rounds) :
    findSlot m s current rounds temp = some (lastOr temp (l.takeWhile (· < current))) := by
  induction l generalizing temp rounds with
  | nil =>
    cases rounds with
    | zero => simp at hlen
    | succ rounds =>
      rw [findSlot, if_pos hseg.1]
      rfl
  | cons a l ih =>
    obtain ⟨hnext, -, htail⟩ := hseg
    obtain ⟨hsa, hsl⟩ := not_or.mp (mt List.mem_cons.mpr hs)
    obtain ⟨hca, hcl⟩ := not_or.mp (mt List.mem_cons.mpr hcur)
    cases rounds with
    | zero => simp at hlen
    | succ rounds =>
      rw [findSlot, hnext, if_neg (Ne.symm hsa)]
      by_cases hlt : a < current
      · have hstop : ¬(temp < current ∧ current < a) := fun h => by omega
        have hlen' : l.length < rounds := by simpa using hlen
        rw [if_neg hstop, ih hsl hcl htail hlt hlen']
        simp [hlt]
      · have hstop : temp < current ∧ current < a := ⟨htemp, by omega⟩
        rw [if_pos hstop]
        simp [hlt]

/-- Wherever the sentinel is, the search ends at a node of the free list. -/
theorem findSlot_mem {m : ByteMem} {s temp rounds : Nat} {l : List Nat} (current : Nat)
    (hseg : Seg (nextAt m) (prevAt m) temp l s) (hlen : l.length < rounds) :
    ∃ slot ∈ temp :: l, findSlot m s current rounds temp = some slot := by
  induction l generalizing temp rounds with
  | nil =>
    cases rounds with
    | zero => simp at hlen
    | succ rounds => exact ⟨temp, List.mem_cons_self, by rw [findSlot, if_pos hseg.1]⟩
  | cons a l ih =>
    obtain ⟨hnext, -, htail⟩ := hseg
    cases rounds with
    | zero => simp at hlen
    | succ rounds =>
      have hlen' : l.length < rounds := by simpa using hlen
      obtain ⟨slot, hslot, heq⟩ := ih htail hlen'
      rw [findSlot, hnext]
      by_cases hend : a = s
      · exact ⟨temp, List.mem_cons_self, if_pos hend⟩
      · by_cases hstop : temp < current ∧ current < a
        · exact ⟨temp, List.mem_cons_self, by rw [if_neg hend, if_pos hstop]⟩
        · refine ⟨slot, List.mem_cons_of_mem _ hslot, ?_⟩
          rw [if_neg hend, if_neg hstop, heq]

/-- With the sentinel above `current`, the search still ends at the last free
block before `current`, if there is one. -/
theorem findSlot_from {m : ByteMem} {s current rounds : Nat} {a : Nat} {l : List Nat}
    (hs : s ∉ a :: l) (hcur : current ∉ l) (hseg : Seg (nextAt m) (prevAt m) s (a :: l) s)
    (ha : a < current) (hlen : (a :: l).length < rounds) :
    findSlot m s current rounds s = some (lastOr s ((a :: l).takeWhile (· < current))) := by
  obtain ⟨hnext, -, htail⟩ := hseg
  obtain ⟨hsa, hsl⟩ := not_or.mp (mt List.mem_cons.mpr hs)
  cases rounds with
  | zero => simp at hlen
  | succ rounds =>
    have hstop : ¬(s < current ∧ current < a) := fun h => by omega
    rw [findSlot, hnext, if_neg (Ne.symm hsa), if_neg hstop,
      findSlot_eq hsl hcur htail ha (by simpa using hlen)]
    simp [ha]

/-- When neither the sentinel nor a free block is below `current`, the search
ends at the end of the list. -/
theorem findSlot_last {m : ByteMem} {s current temp rounds : Nat} {l : List Nat} (hs : s ∉ l)
    (habove : ∀ x ∈ temp :: l, current < x) (hseg : Seg (nextAt m) (prevAt m) temp l s)
    (hlen : l.length < rounds) : findSlot m s current rounds temp = some (lastOr temp l) := by
  induction l generalizing temp rounds with
  | nil =>
    cases rounds with
    | zero => simp at hlen
    | succ rounds =>
      rw [findSlot, if_pos hseg.1]
      rfl
  | cons a l ih =>
    obtain ⟨hnext, -, htail⟩ := hseg
    obtain ⟨hsa, hsl⟩ := not_or.mp (mt List.mem_cons.mpr hs)
    have htemp := habove temp List.mem_cons_self
    have hrest : ∀ x ∈ a :: l, current < x := fun x hx => habove x (List.mem_cons_of_mem _ hx)
    cases rounds with
    | zero => simp at hlen
    | succ rounds =>
      have hstop : ¬(temp < current ∧ current < a) := fun h => by omega
      rw [findSlot, hnext, if_neg (Ne.symm hsa), if_neg hstop,
        ih hsl hrest htail (by simpa using hlen)]
      rfl

/-! ### The neighbours of a hole -/

namespace Hole

variable {H : Hole} {mid init tail : List Cell} {c : Cell}

/-- Take the cell before the hole into the hole. -/
theorem plug_left (hpre : H.pre = init ++ [c]) :
    H.plug mid = { H with pre := init }.plug (c :: mid) := by
  simp [plug, hpre]

theorem addr_left (hpre : H.pre = init ++ [c]) :
    { H with pre := init }.addr + c.size = H.addr := by
  simp [addr, hpre, Nat.add_assoc]

/-- Take the cell after the hole into the hole. -/
theorem plug_right (hpost : H.post = c :: tail) :
    H.plug mid = { H with post := tail }.plug (mid ++ [c]) := by
  simp [plug, hpost]

end Hole

namespace Extended

variable {h : Heap} {extra : List Nat} {H : Hole} {mid : List Cell}

/-- The footer before the hole is in use, unless the cell there is free. -/
theorem left_used (e : Extended h (H.plug mid) extra) (hleft : ClosedRight H.pre) :
    statusAt h.mem (H.addr - 16) = AllocationStatus.allocated.code := by
  rcases List.eq_nil_or_concat' H.pre with hnil | ⟨init, c, hpre⟩
  · have hstart := (e.fenceposts _ (H.chunk_mem mid)).start_status
    simpa [Hole.addr, hnil] using hstart
  · have hused : c.free = false := hleft c (by simp [hpre])
    have hfoot := (e.tags ({ H with pre := init } : Hole).addr c (by
      rw [Hole.plug_left hpre, Hole.mem_blocks_plug]
      simp)).footer_status
    rwa [Hole.addr_left hpre, hused, statusOf_false] at hfoot

/-- The header after the hole is in use, unless the cell there is free. -/
theorem right_used (e : Extended h (H.plug mid) extra) (hright : ClosedLeft H.post) :
    statusAt h.mem (H.addr + total mid) = AllocationStatus.allocated.code := by
  have htotal := Hole.total_eq e.ok
  cases hpost : H.post with
  | nil =>
    have hend := (e.fenceposts _ (H.chunk_mem mid)).end_status
    have haddr : H.addr + total mid = H.base + 2097216 := by
      rw [hpost, total_nil] at htotal
      unfold Hole.addr
      omega
    rw [haddr]
    exact hend
  | cons c tail =>
    have hused : c.free = false := hright c (by simp [hpost])
    have hhead := (e.tags (H.addr + total mid) c (by
      rw [Hole.plug_right hpost, Hole.mem_blocks_plug]
      simp [Hole.addr])).header_status
    rwa [hused, statusOf_false] at hhead

/-- The free list around a hole. -/
theorem ring_around (e : Extended h (H.plug mid) extra) :
    Seg (nextAt h.mem) (prevAt h.mem) (lastOr h.sentinel H.freeBefore)
      (Tiling.freeAddrs H.addr mid) (headOr h.sentinel (H.freeAfter (total mid) ++ extra)) := by
  have hring := e.ring
  rw [nodes_plug] at hring
  exact hring.between

end Extended

/-- A hole between cells in use can be filled with one free block. -/
theorem LayoutOk.normal_merged {s : Nat} {H : Hole} {mid : List Cell} (ok : LayoutOk s (H.plug mid))
    (hleft : ClosedRight H.pre) (hright : ClosedLeft H.post) (k : Nat) :
    Normal (H.pre ++ ([⟨k, true⟩] ++ H.post)) := by
  have hnormal := ok.normal _ (H.chunk_mem mid)
  obtain ⟨hpre, hrest, -⟩ := List.isChain_append.mp hnormal
  obtain ⟨-, hpost, -⟩ := List.isChain_append.mp hrest
  exact normal_free_between.mpr ⟨⟨hpre, hleft⟩, hpost, hright⟩

theorem LayoutOk.merged {s : Nat} {H : Hole} {mid : List Cell} (ok : LayoutOk s (H.plug mid))
    (hleft : ClosedRight H.pre) (hright : ClosedLeft H.post) (hmin : 48 ≤ total mid) :
    LayoutOk s (H.plug [⟨total mid, true⟩]) := by
  refine ok.refill (by simp) ?_ (ok.normal_merged hleft hright _)
  intro c hc
  obtain rfl := List.mem_singleton.mp hc
  exact hmin

/-- The released layout, when the only block in use of a hole is released. -/
theorem LayoutOk.release_eq {s : Nat} {H : Hole} {mid : List Cell} {a n : Nat}
    (ok : LayoutOk s (H.plug mid)) (hleft : ClosedRight H.pre) (hright : ClosedLeft H.post)
    (hmin : 48 ≤ total mid) (hmem : (a, ⟨n, false⟩) ∈ placed H.addr mid)
    (honly : ∀ b k, (b, ⟨k, false⟩) ∈ placed H.addr mid → b = a) :
    (H.plug mid).release (· == a) = H.plug [⟨total mid, true⟩] := by
  refine Layout.release_plug ok (ok.merged hleft hright hmin) ?_ ?_ ?_
  · intro hnil
    have htotal : total (mark (· == a) H.addr mid) = 0 := by rw [hnil]; rfl
    rw [total_mark] at htotal
    omega
  · intro c hc
    obtain ⟨x, hx⟩ := exists_placed_of_mem H.addr hc
    obtain ⟨k, free⟩ := c
    cases free with
    | true => rfl
    | false =>
      obtain ⟨hblock, hne⟩ := mem_placed_mark.mp hx
      simp [honly x k hblock] at hne
  · intro b k hb
    have hin := placed_bounds hmem
    have hpos := ok.block_min (Hole.mem_blocks_plug.mpr (Or.inr hmem))
    have hpos' := ok.block_min (Hole.mem_blocks_plug.mpr (Or.inl hb))
    have hsep := Hole.others_sep ok hb
    simp only at hin hpos hpos' hsep
    simp only [beq_eq_false_iff_ne]
    omega

/-! ### What a release does -/

/-- What freeing the block of `n` bytes at `a` leaves alone: the other blocks
in use, and its own usable bytes. -/
structure FreeFrame (L : Layout) (a n : Nat) (m m' : ByteMem) : Prop where
  others : ∀ b k, (b, ⟨k, false⟩) ∈ L.blocks → b ≠ a → Untouched m m' b k
  payload : ∀ x, a + 32 ≤ x → x < a + n - 16 → m' x = m x

/-- Freeing the block of `n` bytes at `a` returns. It keeps the frame, and
with the sentinel below the heap it is the release of the block. -/
def Frees (h : Heap) (L : Layout) (a n : Nat) : Prop :=
  ∃ m', freeObject h (a + 32) = some { h with mem := m' } ∧ FreeFrame L a n h.mem m' ∧
    ((∀ c ∈ L, h.sentinel < c.base) → WellFormed { h with mem := m' } (L.release (· == a)))

/-- The free list has a block that covers the `n` bytes from `a`. -/
def Freed (h : Heap) (a n : Nat) : Prop :=
  ∃ nodes, IsRing (nextAt h.mem) (prevAt h.mem) h.sentinel nodes ∧
    ∃ b ∈ nodes, ∃ k, CellTags h.mem b ⟨k, true⟩ ∧ b ≤ a ∧ a + n ≤ b + k

/-- Freeing the block of `n` bytes at `a` returns, with the memory `m'`. The
cells `mid` of a hole, the block and its free neighbours, have become one free
block, which stands in the free list between the nodes `front` and `back`. -/
structure Merges (h : Heap) (extra : List Nat) (a n : Nat) (H : Hole) (mid : List Cell)
    (front back : List Nat) (m' : ByteMem) : Prop where
  returns : freeObject h (a + 32) = some { h with mem := m' }
  left : ClosedRight H.pre
  right : ClosedLeft H.post
  block : (a, ⟨n, false⟩) ∈ placed H.addr mid
  only : ∀ b k, (b, ⟨k, false⟩) ∈ placed H.addr mid → b = a
  nodes : (H.plug mid).freeAddrs ++ extra = front ++ (Tiling.freeAddrs H.addr mid ++ back)
  frame : LinkFrame H.addr (H.addr + total mid) (lastOr h.sentinel front)
    (headOr h.sentinel back) h.mem m'
  tags : CellTags m' H.addr ⟨total mid, true⟩
  seg : Seg (nextAt m') (prevAt m') (lastOr h.sentinel front) [H.addr] (headOr h.sentinel back)
  payload : ∀ x, a + 32 ≤ x → x < a + n - 16 → m' x = h.mem x

namespace Merges

variable {h : Heap} {extra front back : List Nat} {a n : Nat} {H : Hole} {mid : List Cell}
  {m' : ByteMem}

/-- The block is inside the hole. -/
theorem bounds (mg : Merges h extra a n H mid front back m') :
    H.addr ≤ a ∧ a + n ≤ H.addr + total mid :=
  placed_bounds mg.block

theorem min_total (mg : Merges h extra a n H mid front back m')
    (e : Extended h (H.plug mid) extra) : 48 ≤ total mid := by
  have hin := mg.bounds
  have hmin := e.ok.block_min (Hole.mem_blocks_plug.mpr (Or.inr mg.block))
  simp only at hmin
  omega

/-- Bytes that are no part of the hole or of a node are untouched. -/
theorem untouched (mg : Merges h extra a n H mid front back m') {b k : Nat}
    (hhole : b + k ≤ H.addr ∨ H.addr + total mid ≤ b)
    (hnodes : ∀ q ∈ h.sentinel :: ((H.plug mid).freeAddrs ++ extra), q + 32 ≤ b ∨ b + k ≤ q + 16) :
    Untouched h.mem m' b k := by
  obtain ⟨hlast, hhead⟩ := around_mem h.sentinel front (Tiling.freeAddrs H.addr mid) back
  rw [← mg.nodes] at hlast hhead
  have := hnodes _ hlast
  have := hnodes _ hhead
  intro x hx hx'
  exact mg.frame x (by omega) (by omega) (by omega)

theorem freeFrame (mg : Merges h extra a n H mid front back m')
    (e : Extended h (H.plug mid) extra) : FreeFrame (H.plug mid) a n h.mem m' := by
  refine ⟨fun b k hb hne => ?_, mg.payload⟩
  rcases Hole.mem_blocks_plug.mp hb with hout | hin
  · refine mg.untouched (Hole.others_sep e.ok hout) fun q hq => ?_
    have := e.live_node_sep hb hq
    omega
  · exact absurd (mg.only b k hin) hne

/-- The free list after the release. -/
theorem ring (mg : Merges h extra a n H mid front back m') (e : Extended h (H.plug mid) extra) :
    IsRing (nextAt m') (prevAt m') h.sentinel (front ++ ([H.addr] ++ back)) := by
  have hring := e.ring
  have hnodup := e.ring.nodup
  have hmin := mg.min_total e
  rw [mg.nodes] at hring hnodup
  -- the nodes that stay are nodes of the list before, and outside the hole
  have hnode : ∀ q ∈ h.sentinel :: (front ++ back),
      q ∈ h.sentinel :: ((H.plug mid).freeAddrs ++ extra) := by
    intro q hq
    rw [mg.nodes]
    simp only [List.mem_cons, List.mem_append] at hq ⊢
    tauto
  have hsep : ∀ q ∈ h.sentinel :: (front ++ back), q + 32 ≤ H.addr ∨ H.addr + total mid ≤ q :=
    fun q hq => e.hole_sep (hnode q hq) (not_mem_between hnodup hq)
  obtain ⟨hlast, hhead⟩ := around_mem h.sentinel front [] back
  have hlinks : ∀ q ∈ h.sentinel :: (front ++ back),
      (q ≠ lastOr h.sentinel front → nextAt m' q = nextAt h.mem q) ∧
        (q ≠ headOr h.sentinel back → prevAt m' q = prevAt h.mem q) := fun q hq =>
    mg.frame.links (hsep q hq) (e.nodes_sep (hnode q hq) (hnode _ hlast))
      (e.nodes_sep (hnode q hq) (hnode _ hhead))
  refine hring.splice ?_ (fun q hq => (hlinks q hq).1) (fun q hq => (hlinks q hq).2) mg.seg
  have hperm : (h.sentinel :: (front ++ ([H.addr] ++ back))).Perm
      (H.addr :: h.sentinel :: (front ++ back)) :=
    (List.perm_middle.cons h.sentinel).trans (List.Perm.swap _ _ _)
  refine hperm.nodup_iff.mpr (List.nodup_cons.mpr ⟨fun hmem => ?_, ?_⟩)
  · have := hsep _ hmem
    omega
  · exact hnodup.sublist (by simp)

theorem freed (mg : Merges h extra a n H mid front back m') (e : Extended h (H.plug mid) extra) :
    Freed { h with mem := m' } a n :=
  ⟨_, mg.ring e, H.addr, by simp, total mid, mg.tags, mg.bounds⟩

/-- A block that takes the place of its address order in the free list is released. -/
theorem wellFormed (mg : Merges h [] a n H mid H.freeBefore back m')
    (wf : WellFormed h (H.plug mid)) :
    WellFormed { h with mem := m' } ((H.plug mid).release (· == a)) := by
  have hmin := mg.min_total wf.extended
  obtain rfl : back = H.freeAfter (total mid) := by
    have hnodes := mg.nodes
    rw [Extended.nodes_plug, List.append_nil, List.append_cancel_left_eq,
      List.append_cancel_left_eq] at hnodes
    exact hnodes.symm
  rw [wf.ok.release_eq mg.left mg.right hmin mg.block mg.only]
  refine wf.refill (by simp) ?_ (wf.ok.normal_merged mg.left mg.right _) mg.frame ?_ ?_
  · intro c hc
    obtain rfl := List.mem_singleton.mp hc
    exact hmin
  · intro b c hc
    obtain ⟨rfl, rfl⟩ : b = H.addr ∧ c = ⟨total mid, true⟩ := by simpa using hc
    exact mg.tags
  · exact mg.seg

end Merges

/-! ### The four cases -/

/-- With a free neighbour, the block takes the place of that in the free list. -/
theorem Merges.inPlace {h : Heap} {extra : List Nat} {a n s : Nat} {H : Hole} {mid : List Cell}
    {m' : ByteMem} (htotal : total mid = s)
    (hreturns : freeObject h (a + 32) = some { h with mem := m' })
    (hleft : ClosedRight H.pre) (hright : ClosedLeft H.post)
    (hblock : (a, ⟨n, false⟩) ∈ placed H.addr mid)
    (honly : ∀ b k, (b, ⟨k, false⟩) ∈ placed H.addr mid → b = a)
    (hframe : LinkFrame H.addr (H.addr + s) (lastOr h.sentinel H.freeBefore)
      (headOr h.sentinel (H.freeAfter s ++ extra)) h.mem m')
    (htags : CellTags m' H.addr ⟨s, true⟩)
    (hseg : Seg (nextAt m') (prevAt m') (lastOr h.sentinel H.freeBefore) [H.addr]
      (headOr h.sentinel (H.freeAfter s ++ extra)))
    (hpayload : ∀ x, a + 32 ≤ x → x < a + n - 16 → m' x = h.mem x) :
    Merges h extra a n H mid H.freeBefore (H.freeAfter (total mid) ++ extra) m' := by
  subst htotal
  exact ⟨hreturns, hleft, hright, hblock, honly, Extended.nodes_plug _ _ _, hframe, htags, hseg,
    hpayload⟩

namespace Extended

variable {h : Heap} {extra : List Nat} {H : Hole} {l n r : Nat}

/-- Case 2: the left neighbour is free, the right one is not. -/
theorem free_left (e : Extended h (H.plug [⟨l, true⟩, ⟨n, false⟩]) extra)
    (hright : ClosedLeft H.post) : ∃ m', Merges h extra (H.addr + l) n H [⟨l, true⟩, ⟨n, false⟩]
      H.freeBefore (H.freeAfter (total [⟨l, true⟩, ⟨n, false⟩]) ++ extra) m' := by
  have hl : (H.addr, ⟨l, true⟩) ∈ (H.plug [⟨l, true⟩, ⟨n, false⟩]).blocks := by
    simp [Hole.mem_blocks_plug]
  have hn : (H.addr + l, ⟨n, false⟩) ∈ (H.plug [⟨l, true⟩, ⟨n, false⟩]).blocks := by
    simp [Hole.mem_blocks_plug]
  have htotal : total [(⟨l, true⟩ : Cell), ⟨n, false⟩] = l + n := by simp
  have hend : H.addr + (l + n) = H.addr + l + n := by omega
  have hleft : ClosedRight H.pre := (normal_free_between.mp (e.ok.normal _ (H.chunk_mem _))).1.2
  have htl := e.tags _ _ hl
  have htn := e.tags _ _ hn
  have hsize : sizeAt h.mem (H.addr + l) = n := htn.header_size
  have hlstatus : statusAt h.mem (H.addr + l - 16) = AllocationStatus.unallocated.code :=
    htl.footer_status
  have hrstatus := e.right_used hright
  have hring := e.ring_around
  have hgap := e.gap (nodes_plug _ _ _)
  have hbase := (Hole.bounds e.ok).1
  rw [htotal, hend] at hrstatus hgap
  rw [htotal] at hring
  obtain ⟨hframe, htags, hseg, hpayload⟩ := mergeLeft_spec htl htn (by omega) (e.ok.block_min hl)
    (e.ok.block_min hn) (e.ok.block_bound hn) (by simpa using hring) hgap rfl
  refine ⟨_, .inPlace htotal ?_ hleft hright (by simp) (by simp) (hend ▸ hframe) htags hseg
    hpayload⟩
  simp [freeObject, sizeofHeader, sizeofFooter, hsize, hlstatus, hrstatus]

/-- Case 3: the right neighbour is free, the left one is not. -/
theorem free_right (e : Extended h (H.plug [⟨n, false⟩, ⟨r, true⟩]) extra)
    (hleft : ClosedRight H.pre) : ∃ m', Merges h extra H.addr n H [⟨n, false⟩, ⟨r, true⟩]
      H.freeBefore (H.freeAfter (total [⟨n, false⟩, ⟨r, true⟩]) ++ extra) m' := by
  have hn : (H.addr, ⟨n, false⟩) ∈ (H.plug [⟨n, false⟩, ⟨r, true⟩]).blocks := by
    simp [Hole.mem_blocks_plug]
  have hr : (H.addr + n, ⟨r, true⟩) ∈ (H.plug [⟨n, false⟩, ⟨r, true⟩]).blocks := by
    simp [Hole.mem_blocks_plug]
  have htotal : total [(⟨n, false⟩ : Cell), ⟨r, true⟩] = n + r := by simp
  have hend : H.addr + (n + r) = H.addr + n + r := by omega
  have hright : ClosedLeft H.post := by
    have hrest := (normal_used_between.mp (e.ok.normal _ (H.chunk_mem _))).2
    exact (normal_free_cons.mp hrest).2
  have htn := e.tags _ _ hn
  have htr := e.tags _ _ hr
  have hsize : sizeAt h.mem H.addr = n := htn.header_size
  have hlstatus := e.left_used hleft
  have hrstatus : statusAt h.mem (H.addr + n) = AllocationStatus.unallocated.code :=
    htr.header_status
  have hring := e.ring_around
  have hgap := e.gap (nodes_plug _ _ _)
  rw [htotal, hend] at hgap
  rw [htotal] at hring
  obtain ⟨-, hprev, hnext, -⟩ : Seg (nextAt h.mem) (prevAt h.mem) (lastOr h.sentinel H.freeBefore)
      [H.addr + n] (headOr h.sentinel (H.freeAfter (n + r) ++ extra)) := by simpa using hring
  obtain ⟨hframe, htags, hseg, hpayload⟩ := mergeRight_spec htn htr (e.ok.block_min hn)
    (e.ok.block_min hr) (e.ok.block_bound hr) hprev hnext hgap rfl
  refine ⟨_, .inPlace htotal ?_ hleft hright (by simp) (by simp) (hend ▸ hframe) htags hseg
    hpayload⟩
  simp [freeObject, sizeofHeader, sizeofFooter, hsize, hlstatus, hrstatus]

/-- Case 4: both neighbours are free. -/
theorem free_both (e : Extended h (H.plug [⟨l, true⟩, ⟨n, false⟩, ⟨r, true⟩]) extra) :
    ∃ m', Merges h extra (H.addr + l) n H [⟨l, true⟩, ⟨n, false⟩, ⟨r, true⟩] H.freeBefore
      (H.freeAfter (total [⟨l, true⟩, ⟨n, false⟩, ⟨r, true⟩]) ++ extra) m' := by
  have hl : (H.addr, ⟨l, true⟩) ∈ (H.plug [⟨l, true⟩, ⟨n, false⟩, ⟨r, true⟩]).blocks := by
    simp [Hole.mem_blocks_plug]
  have hn : (H.addr + l, ⟨n, false⟩) ∈ (H.plug [⟨l, true⟩, ⟨n, false⟩, ⟨r, true⟩]).blocks := by
    simp [Hole.mem_blocks_plug]
  have hr : (H.addr + l + n, ⟨r, true⟩) ∈
      (H.plug [⟨l, true⟩, ⟨n, false⟩, ⟨r, true⟩]).blocks := by
    simp [Hole.mem_blocks_plug]
  have htotal : total [(⟨l, true⟩ : Cell), ⟨n, false⟩, ⟨r, true⟩] = l + n + r := by
    simp [Nat.add_assoc]
  have hend : H.addr + (l + n + r) = H.addr + l + n + r := by omega
  have hnormal := normal_free_between.mp (e.ok.normal _ (H.chunk_mem _))
  have hleft : ClosedRight H.pre := hnormal.1.2
  have hright : ClosedLeft H.post :=
    (normal_free_cons.mp (normal_used_cons.mp hnormal.2.1)).2
  have htl := e.tags _ _ hl
  have htn := e.tags _ _ hn
  have htr := e.tags _ _ hr
  have hsize : sizeAt h.mem (H.addr + l) = n := htn.header_size
  have hlstatus : statusAt h.mem (H.addr + l - 16) = AllocationStatus.unallocated.code :=
    htl.footer_status
  have hrstatus : statusAt h.mem (H.addr + l + n) = AllocationStatus.unallocated.code :=
    htr.header_status
  have hring := e.ring_around
  have hgap := e.gap (nodes_plug _ _ _)
  have hbase := (Hole.bounds e.ok).1
  rw [htotal, hend] at hgap
  rw [htotal] at hring
  obtain ⟨hframe, htags, hseg, hpayload⟩ := mergeBoth_spec htl htn htr (by omega)
    (e.ok.block_min hl) (e.ok.block_min hn) (e.ok.block_min hr) (e.ok.block_bound hr)
    (by simpa using hring) hgap rfl
  refine ⟨_, .inPlace htotal ?_ hleft hright (by simp) (by simp) (hend ▸ hframe) htags hseg
    hpayload⟩
  simp [freeObject, sizeofHeader, sizeofFooter, hsize, hlstatus, hrstatus]

/-- Marking a block as free leaves the free list as it is. -/
theorem ring_markUnallocated (e : Extended h (H.plug [⟨n, false⟩]) extra) :
    IsRing (nextAt (markUnallocated h.mem H.addr (H.addr + n - 16)))
      (prevAt (markUnallocated h.mem H.addr (H.addr + n - 16))) h.sentinel
      ((H.plug [⟨n, false⟩]).freeAddrs ++ extra) := by
  have hn := H.mem_blocks_plug_self (c := ⟨n, false⟩)
  have hmin : 48 ≤ n := e.ok.block_min hn
  refine e.ring.congr (fun q hq => ?_) fun q hq => ?_
  all_goals
    have hsep := e.live_node_sep hn hq
    simp (disch := omega) only [markUnallocated, ByteMem.load_store_of_disjoint]

/-- Case 1: neither neighbour is free, and the search ends at the last node of `front`. -/
theorem free_insert (e : Extended h (H.plug [⟨n, false⟩]) extra) (hleft : ClosedRight H.pre)
    (hright : ClosedLeft H.post) {front back : List Nat}
    (hnodes : (H.plug [⟨n, false⟩]).freeAddrs ++ extra = front ++ back)
    (hfind : findSlot (markUnallocated h.mem H.addr (H.addr + n - 16)) h.sentinel H.addr loopBound
      h.sentinel = some (lastOr h.sentinel front)) :
    ∃ m', Merges h extra H.addr n H [⟨n, false⟩] front back m' := by
  have hn := H.mem_blocks_plug_self (c := ⟨n, false⟩)
  have htotal : total [(⟨n, false⟩ : Cell)] = n := by simp
  have htn := e.tags _ _ hn
  have hsize : sizeAt h.mem H.addr = n := htn.header_size
  have hlstatus := e.left_used hleft
  have hrstatus := e.right_used hright
  have hnodes' : (H.plug [⟨n, false⟩]).freeAddrs ++ extra
      = front ++ (Tiling.freeAddrs H.addr [⟨n, false⟩] ++ back) := by simpa using hnodes
  have hgap := e.gap hnodes'
  rw [htotal] at hrstatus hgap
  have hlast : lastOr h.sentinel front < 2 ^ 64 := by
    refine e.node_bound ?_
    rw [hnodes']
    exact (around_mem _ _ _ _).1
  have hring := e.ring
  rw [hnodes] at hring
  obtain ⟨hframe, htags, hseg, hpayload⟩ := insert_spec htn (e.ok.block_min hn) (e.ok.block_bound hn)
    hlast hring.next_gap hgap rfl
  refine ⟨_, ?_, hleft, hright, by simp, by simp, hnodes', ?_, htotal ▸ htags, hseg, hpayload⟩
  · simp [freeObject, sizeofHeader, sizeofFooter, hsize, hlstatus, hrstatus, hfind]
  · rw [htotal]
    exact hframe

end Extended

/-! ### The place in the free list -/

/-- The search finds the place of the block of `n` bytes at `a`, or none is
made: the sentinel or a free block is below it, or its right neighbour is free,
or the free list is empty. -/
def FindsPlace (s : Nat) (L : Layout) (a n : Nat) : Prop :=
  s < a ∨ (∃ f ∈ L.freeAddrs, f < a) ∨ a + n ∈ L.freeAddrs ∨ L.freeAddrs = []

/-- With a block in use in the hole, the free blocks ascend through its address. -/
theorem LayoutOk.hole_sorted {s n : Nat} {H : Hole} (ok : LayoutOk s (H.plug [⟨n, false⟩]))
    (hleft : ClosedRight H.pre) (hright : ClosedLeft H.post) :
    (∀ x ∈ H.freeBefore, x < H.addr) ∧ (∀ x ∈ H.freeAfter n, H.addr < x) ∧
      (H.plug [⟨n, false⟩]).freeAddrs = H.freeBefore ++ H.freeAfter n := by
  have hmin : 48 ≤ n := ok.block_min H.mem_blocks_plug_self
  have htotal : total [(⟨n, false⟩ : Cell)] = n := by simp
  have hsorted := (ok.merged hleft hright (by omega)).freeAddrs_sorted
  have hlist : (H.plug [⟨total [(⟨n, false⟩ : Cell)], true⟩]).freeAddrs
      = H.freeBefore ++ H.addr :: H.freeAfter n := by simp [Hole.freeAddrs_plug]
  rw [hlist, List.pairwise_append, List.pairwise_cons] at hsorted
  obtain ⟨-, ⟨hafter, -⟩, hbefore⟩ := hsorted
  exact ⟨fun x hx => hbefore x hx _ List.mem_cons_self, hafter, by simp [Hole.freeAddrs_plug]⟩

/-- The search for the place of a block in address order. -/
theorem WellFormed.findSlot_hole {h : Heap} {H : Hole} {n : Nat}
    (wf : WellFormed h (H.plug [⟨n, false⟩])) (hleft : ClosedRight H.pre)
    (hright : ClosedLeft H.post) (hplace : FindsPlace h.sentinel (H.plug [⟨n, false⟩]) H.addr n) :
    findSlot (markUnallocated h.mem H.addr (H.addr + n - 16)) h.sentinel H.addr loopBound h.sentinel
      = some (lastOr h.sentinel H.freeBefore) := by
  have hring := wf.extended.ring_markUnallocated
  have hlen := wf.ok.length_freeAddrs_lt
  obtain ⟨hbefore, hafter, hlist⟩ := wf.ok.hole_sorted hleft hright
  rw [List.append_nil] at hring
  have hsent := (List.nodup_cons.mp hring.nodup).1
  have hnot : H.addr ∉ (H.plug [⟨n, false⟩]).freeAddrs := by
    rw [hlist, List.mem_append]
    intro hmem
    rcases hmem with hmem | hmem
    · exact Nat.lt_irrefl _ (hbefore _ hmem)
    · exact Nat.lt_irrefl _ (hafter _ hmem)
  -- what the search passes is what lies before the hole
  have htake : (H.plug [⟨n, false⟩]).freeAddrs.takeWhile (· < H.addr) = H.freeBefore := by
    rw [hlist, List.takeWhile_append_of_pos fun x hx => decide_eq_true (hbefore x hx)]
    cases hcases : H.freeAfter n with
    | nil => simp
    | cons x xs =>
      have hx : H.addr < x := hafter x (by simp [hcases])
      simp [Nat.not_lt.mpr (Nat.le_of_lt hx)]
  rw [← htake]
  rcases hplace with hs | ⟨f, hf, hlt⟩ | hnext | hnil
  · exact findSlot_eq hsent hnot hring.seg hs hlen
  · cases hcases : (H.plug [⟨n, false⟩]).freeAddrs with
    | nil => simp [hcases] at hf
    | cons x xs =>
      have hsorted := wf.ok.freeAddrs_sorted
      rw [hcases] at hring hsent hnot hlen hf hsorted
      have hx : x < H.addr := by
        rcases List.mem_cons.mp hf with rfl | hf
        · exact hlt
        · exact Nat.lt_trans ((List.pairwise_cons.mp hsorted).1 f hf) hlt
      exact findSlot_from hsent (fun hmem => hnot (List.mem_cons_of_mem _ hmem)) hring.seg hx hlen
  · -- the right neighbour is in use
    exfalso
    obtain ⟨d, hd, hfree⟩ := Layout.mem_freeAddrs.mp hnext
    have htags := (wf.rep.tags _ _ hd).header_status
    have hused := wf.extended.right_used hright
    rw [hfree] at htags
    simp only [total_cons, total_nil, Nat.add_zero, htags] at hused
    simp at hused
  · rw [hnil] at hring hlen ⊢
    obtain ⟨slot, hslot, hfind⟩ := findSlot_mem H.addr hring.seg hlen
    obtain rfl := List.mem_singleton.mp hslot
    exact hfind

/-- **What freeing a live block does.** It takes its place in address order,
when the search finds it. -/
theorem Extended.freeObject_merges {h : Heap} {L : Layout} {extra : List Nat} {a n : Nat}
    (e : Extended h L extra) (hlive : (a, ⟨n, false⟩) ∈ L.blocks) :
    ∃ H mid front back m', L = H.plug mid ∧ Merges h extra a n H mid front back m' ∧
      (WellFormed h L → FindsPlace h.sentinel L a n → front = H.freeBefore) := by
  obtain ⟨H, rfl, rfl⟩ := Hole.of_mem_blocks hlive
  rcases closedRight_or H.pre with hleft | ⟨init, l, hpre⟩
  · rcases closedLeft_or H.post with hright | ⟨r, tail, hpost⟩
    · by_cases hplace : WellFormed h (H.plug [⟨n, false⟩]) ∧
          FindsPlace h.sentinel (H.plug [⟨n, false⟩]) H.addr n
      · have hfind := hplace.1.findSlot_hole hleft hright hplace.2
        have hnodes : (H.plug [⟨n, false⟩]).freeAddrs ++ extra
            = H.freeBefore ++ (H.freeAfter n ++ extra) := by simp [Hole.freeAddrs_plug]
        obtain ⟨m', mg⟩ := e.free_insert hleft hright hnodes hfind
        exact ⟨_, _, _, _, m', rfl, mg, fun _ _ => rfl⟩
      · obtain ⟨slot, hslot, hfind⟩ := findSlot_mem H.addr e.ring_markUnallocated.seg e.length_lt
        obtain ⟨front, back, hnodes, rfl⟩ := exists_lastOr_of_mem hslot
        obtain ⟨m', mg⟩ := e.free_insert hleft hright hnodes hfind
        exact ⟨_, _, _, _, m', rfl, mg, fun wf hp => absurd ⟨wf, hp⟩ hplace⟩
    · rw [Hole.plug_right hpost] at e ⊢
      obtain ⟨m', mg⟩ := e.free_right (H := { H with post := tail }) hleft
      exact ⟨_, _, _, _, m', rfl, mg, fun _ _ => rfl⟩
  · rw [← Hole.addr_left hpre]
    rw [Hole.plug_left hpre] at e ⊢
    rcases closedLeft_or H.post with hright | ⟨r, tail, hpost⟩
    · obtain ⟨m', mg⟩ := e.free_left (H := { H with pre := init }) hright
      exact ⟨_, _, _, _, m', rfl, mg, fun _ _ => rfl⟩
    · rw [Hole.plug_right (H := { H with pre := init }) hpost] at e ⊢
      obtain ⟨m', mg⟩ := e.free_both
      exact ⟨_, _, _, _, m', rfl, mg, fun _ _ => rfl⟩

/-- **`free_object` implements release**, where the search finds the place of the block. -/
theorem freeObject_release {h : Heap} {L : Layout} {a n : Nat} (wf : WellFormed h L)
    (hlive : (a, ⟨n, false⟩) ∈ L.blocks) (hplace : FindsPlace h.sentinel L a n) :
    ∃ m', freeObject h (a + 32) = some { h with mem := m' } ∧
      WellFormed { h with mem := m' } (L.release (· == a)) := by
  obtain ⟨H, mid, front, back, m', rfl, mg, hfront⟩ := wf.extended.freeObject_merges hlive
  obtain rfl := hfront wf hplace
  exact ⟨m', mg.returns, mg.wellFormed wf⟩

/-- **`free_object` implements release**, with the sentinel below the heap. -/
theorem freeObject_sound {h : Heap} {L : Layout} {a n : Nat} (wf : WellFormed h L)
    (hlive : (a, ⟨n, false⟩) ∈ L.blocks) : Frees h L a n := by
  obtain ⟨H, mid, front, back, m', rfl, mg, hfront⟩ := wf.extended.freeObject_merges hlive
  refine ⟨m', mg.returns, mg.freeFrame wf.extended, fun hbelow => ?_⟩
  have hplace : FindsPlace h.sentinel (H.plug mid) a n := by
    obtain ⟨ch, hch, hlo, -⟩ := wf.ok.block_in_chunk hlive
    have := hbelow ch hch
    exact Or.inl (by omega)
  obtain rfl := hfront wf hplace
  exact mg.wellFormed wf

end Cs252.Malloc
