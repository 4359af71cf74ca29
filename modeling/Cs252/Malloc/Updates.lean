import Cs252.Malloc.Layout

/-!
# Cs252.Malloc.Updates

What each block of statements of the allocator does to memory.

The lemmas here know nothing of the heap as a whole: a block of statements
works on a few cells between `lo` and `hi` and on the free-list nodes `p` and
`n` around them, and the hypotheses say no more than that these do not overlap
(`Gap`) and what their tags and links hold. Each conclusion has the same three
parts, the ones `WellFormed.refill` asks for: a `LinkFrame`, the tags of the
new cells, and their links.

Every proof has two steps. The reads of the block are resolved, which leaves a
chain of stores of known values at known addresses; then each byte or field is
read off the chain. `simp (disch := omega)` does both.
-/

namespace Cs252.Malloc

open ByteMem LinkedRing

variable {m : ByteMem} {a b c l r s p n : Nat}

/-! ### Handing out a free block -/

theorem takeWhole_eq (ht : CellTags m c ⟨s, true⟩) (hs : 48 ≤ s)
    (hp : prevAt m c = p) (hn : nextAt m c = n) (hgap : Gap c (c + s) p n) :
    unlink (markAllocated m c) c =
      let m := setStatus m c .allocated
      let m := setStatus m (c + s - 16) .allocated
      let m := setNext m p n
      let m := setPrev m n p
      let m := setPrev m c NULL
      setNext m c NULL := by
  have hps := hgap.left
  have hns := hgap.right
  have hpn := hgap.apart
  have hsize := ht.header_size
  have := prevAt_lt m c
  have := nextAt_lt m c
  simp only at hsize
  simp (disch := omega) only [unlink, markAllocated, sizeofHeader, sizeofFooter, objectSize_payload,
    load_store_of_disjoint, hsize, hp, hn]

/-- A free block handed out whole is allocated, and its neighbours in the free
list are linked to each other. -/
theorem takeWhole_spec (ht : CellTags m c ⟨s, true⟩) (hs : 48 ≤ s)
    (hp : prevAt m c = p) (hn : nextAt m c = n) (hgap : Gap c (c + s) p n) {m' : ByteMem}
    (hm : m' = unlink (markAllocated m c) c) :
    LinkFrame c (c + s) p n m m' ∧ CellTags m' c ⟨s, false⟩ ∧
      Seg (nextAt m') (prevAt m') p [] n := by
  have hps := hgap.left
  have hns := hgap.right
  have hpn := hgap.apart
  have hsize := ht.header_size
  have hfoot := ht.footer_size
  have := prevAt_lt m c
  have := nextAt_lt m c
  simp only at hsize hfoot
  rw [hm, takeWhole_eq ht hs hp hn hgap]
  refine ⟨?_, ⟨?_, ?_, ?_, ?_⟩, ?_, ?_⟩
  · intro x hx hxp hxn
    simp (disch := omega) only [store_outside]
  all_goals
    simp (disch := omega) only [NULL, statusOf_false, statusAt_setStatus, load_store_eq,
      load_store_of_disjoint, hsize, hfoot]

theorem split_eq (ht : sizeAt m c = s) (hr : 48 ≤ r) (hrs : r + 48 ≤ s) (hb : c + s < 2 ^ 64)
    (hp : prevAt m c = p) (hn : nextAt m c = n) (hgap : Gap c (c + s) p n) :
    relinkSplit (tagSplit m c r) c (c + r) =
      let m := setSize m (c + r) (s - r)
      let m := setSize m (c + s - 16) (s - r)
      let m := setStatus m (c + r) .unallocated
      let m := setStatus m (c + s - 16) .unallocated
      let m := setSize m c r
      let m := setStatus m c .allocated
      let m := setSize m (c + r - 16) r
      let m := setStatus m (c + r - 16) .allocated
      let m := setNext m p (c + r)
      let m := setPrev m (c + r) p
      let m := setNext m (c + r) n
      let m := setPrev m n (c + r)
      let m := setPrev m c NULL
      setNext m c NULL := by
  have hps := hgap.left
  have hns := hgap.right
  have hpn := hgap.apart
  have := prevAt_lt m c
  have := nextAt_lt m c
  simp (disch := omega) only [relinkSplit, tagSplit, sizeofFooter, load_store_eq,
    load_store_of_disjoint, ht, hp, hn]

/-- A split free block has its first `r` bytes allocated, and the rest takes
its place in the free list. -/
theorem split_spec (ht : sizeAt m c = s) (hr : 48 ≤ r) (hrs : r + 48 ≤ s) (hb : c + s < 2 ^ 64)
    (hp : prevAt m c = p) (hn : nextAt m c = n) (hgap : Gap c (c + s) p n) {m' : ByteMem}
    (hm : m' = relinkSplit (tagSplit m c r) c (c + r)) :
    LinkFrame c (c + s) p n m m' ∧ CellTags m' c ⟨r, false⟩ ∧
      CellTags m' (c + r) ⟨s - r, true⟩ ∧ Seg (nextAt m') (prevAt m') p [c + r] n := by
  have hps := hgap.left
  have hns := hgap.right
  have hpn := hgap.apart
  have := prevAt_lt m c
  have := nextAt_lt m c
  have hend : c + r + (s - r) - 16 = c + s - 16 := by omega
  rw [hm, split_eq ht hr hrs hb hp hn hgap]
  refine ⟨?_, ⟨?_, ?_, ?_, ?_⟩, ⟨?_, ?_, ?_, ?_⟩, ?_, ?_, ?_, ?_⟩
  · intro x hx hxp hxn
    simp (disch := omega) only [store_outside]
  all_goals
    simp (disch := omega) only [NULL, statusOf_true, statusOf_false, statusAt_setStatus,
      load_store_eq, load_store_of_disjoint, hend]

/-- The usable bytes of a block handed out whole are not written. -/
theorem takeWhole_payload (ht : CellTags m c ⟨s, true⟩) (hs : 48 ≤ s)
    (hp : prevAt m c = p) (hn : nextAt m c = n) (hgap : Gap c (c + s) p n) {x : Nat}
    (hx : c + 32 ≤ x) (hx' : x < c + s - 16) : unlink (markAllocated m c) c x = m x := by
  have hps := hgap.left
  have hns := hgap.right
  rw [takeWhole_eq ht hs hp hn hgap]
  simp (disch := omega) only [store_outside]

/-- Neither are those of a block that is cut off. -/
theorem split_payload (ht : sizeAt m c = s) (hr : 48 ≤ r) (hrs : r + 48 ≤ s) (hb : c + s < 2 ^ 64)
    (hp : prevAt m c = p) (hn : nextAt m c = n) (hgap : Gap c (c + s) p n) {x : Nat}
    (hx : c + 32 ≤ x) (hx' : x < c + r - 16) : relinkSplit (tagSplit m c r) c (c + r) x = m x := by
  have hps := hgap.left
  have hns := hgap.right
  rw [split_eq ht hr hrs hb hp hn hgap]
  simp (disch := omega) only [store_outside]

/-! ### Laying out a new chunk -/

/-- A new chunk whose first object leaves a rest. -/
theorem layOutChunk_eq (hr : r < 2097200) (hp : prevAt m s = p)
    (hgap : Gap b (b + 2097248) p s) :
    layOutChunk m s b r =
      let m := setFenceposts m b (b + 2097216)
      let m := setStatus m (b + 16 + r) .unallocated
      let m := setSize m (b + 16 + r) (2097200 - r)
      let m := setSize m (b + 2097200) (2097200 - r)
      let m := setStatus m (b + 2097200) .unallocated
      let m := setPrev m (b + 16 + r) p
      let m := setPrev m s (b + 16 + r)
      let m := setNext m p (b + 16 + r)
      let m := setNext m (b + 16 + r) s
      let m := setStatus m (b + 16) .allocated
      let m := setSize m (b + 16) r
      let m := setPrev m (b + 16) NULL
      let m := setNext m (b + 16) NULL
      let m := setSize m (b + 16 + r - 16) r
      setStatus m (b + 16 + r - 16) .allocated := by
  have hps := hgap.left
  have hss := hgap.right
  have := prevAt_lt m s
  have hfooter : b + 16 + 32 + 2097152 = b + 2097200 := by omega
  have hend : b + 2097200 + 16 = b + 2097216 := by omega
  simp (disch := omega) only [layOutChunk, setFenceposts, tagRemainder, appendFree, tagNewObject,
    sizeofHeader, sizeofFooter, arenaSize, Nat.reduceAdd, if_pos hr, load_store_eq,
    load_store_of_disjoint, hp, hfooter, hend]

/-- A new chunk is laid out inside its own bytes, whatever the size of its
first object: outside, only the links at the end of the free list change. -/
theorem layOutChunk_frame (hr : r ≤ 2097200) (hb : b + 2097248 ≤ 2 ^ 64)
    (hp : prevAt m s = p) (hgap : Gap b (b + 2097248) p s) :
    LinkFrame b (b + 2097248) p s m (layOutChunk m s b r) := by
  have hps := hgap.left
  have hss := hgap.right
  intro x hx hxp hxn
  rcases Nat.lt_or_eq_of_le hr with hlt | rfl
  · rw [layOutChunk_eq hlt hp hgap]
    simp (disch := omega) only [setFenceposts, store_outside]
  · simp (disch := omega) only [layOutChunk, setFenceposts, tagWholeChunk, sizeofHeader,
      sizeofFooter, arenaSize, Nat.reduceAdd, Nat.lt_irrefl, if_true, if_false, store_outside]

/-- The header of the first object of a new chunk has its size, even when the
rest of the chunk is too small for a block. -/
theorem layOutChunk_size (hr : 48 ≤ r) (hr' : r ≤ 2097200) :
    sizeAt (layOutChunk m s b r) (b + 16) = r := by
  rcases Nat.lt_or_eq_of_le hr' with hlt | rfl
  · simp (disch := omega) only [layOutChunk, tagNewObject, sizeofHeader, sizeofFooter, arenaSize,
      Nat.reduceAdd, if_pos hlt, load_store_eq, load_store_of_disjoint]
  · simp (disch := omega) only [layOutChunk, tagWholeChunk, sizeofHeader, sizeofFooter, arenaSize,
      Nat.reduceAdd, Nat.lt_irrefl, if_true, if_false, load_store_eq, load_store_of_disjoint]

/-- The usable bytes of the first object of a new chunk are not written. -/
theorem layOutChunk_payload (hr : 48 ≤ r) (hr' : r ≤ 2097200) (hp : prevAt m s = p)
    (hgap : Gap b (b + 2097248) p s) {x : Nat} (hx : b + 48 ≤ x) (hx' : x < b + r) :
    layOutChunk m s b r x = m x := by
  have hps := hgap.left
  have hss := hgap.right
  rcases Nat.lt_or_eq_of_le hr' with hlt | rfl
  · rw [layOutChunk_eq hlt hp hgap]
    simp (disch := omega) only [setFenceposts, store_outside]
  · simp (disch := omega) only [layOutChunk, setFenceposts, tagWholeChunk, sizeofHeader,
      sizeofFooter, arenaSize, Nat.reduceAdd, Nat.lt_irrefl, if_true, if_false, store_outside]

/-- The rest of a new chunk is linked at the end of the free list, even when it
is too small for a block. -/
theorem layOutChunk_links (hr : 48 ≤ r) (hr' : r < 2097200) (hb : b + 2097248 ≤ 2 ^ 64)
    (hs : s + 32 ≤ 2 ^ 64) (hp : prevAt m s = p) (hgap : Gap b (b + 2097248) p s) {m' : ByteMem}
    (hm : m' = layOutChunk m s b r) : Seg (nextAt m') (prevAt m') p [b + 16 + r] s := by
  have hps := hgap.left
  have hss := hgap.right
  have hpn := hgap.apart
  have := prevAt_lt m s
  rw [hm, layOutChunk_eq hr' hp hgap]
  refine ⟨?_, ?_, ?_, ?_⟩
  all_goals
    simp (disch := omega) only [load_store_eq, load_store_of_disjoint]

/-- A new chunk with room for a free rest of `t` bytes. -/
theorem layOutChunk_split_spec {t : Nat} (hr : 48 ≤ r) (ht : 48 ≤ t) (hrt : r + t = 2097200)
    (hb : b + 2097248 ≤ 2 ^ 64) (hs : s + 32 ≤ 2 ^ 64) (hp : prevAt m s = p)
    (hgap : Gap b (b + 2097248) p s) {m' : ByteMem} (hm : m' = layOutChunk m s b r) :
    Fenceposts m' b ∧ CellTags m' (b + 16) ⟨r, false⟩ ∧ CellTags m' (b + 16 + r) ⟨t, true⟩ ∧
      Seg (nextAt m') (prevAt m') p [b + 16 + r] s := by
  have hps := hgap.left
  have hss := hgap.right
  have hlt : r < 2097200 := by omega
  have hrest : 2097200 - r = t := by omega
  -- the last footer is at one address, computed in two ways
  have hend : b + 16 + r + t - 16 = b + 2097200 := by omega
  have hseg := layOutChunk_links hr hlt hb hs hp hgap hm
  rw [hm, layOutChunk_eq hlt hp hgap] at hseg ⊢
  refine ⟨⟨?_, ?_, ?_, ?_⟩, ⟨?_, ?_, ?_, ?_⟩, ⟨?_, ?_, ?_, ?_⟩, hseg⟩
  all_goals
    simp (disch := omega) only [setFenceposts, statusOf_true, statusOf_false, statusAt_setStatus,
      load_store_eq, load_store_of_disjoint, hrest, hend]

/-- A new chunk handed out whole. -/
theorem layOutChunk_whole_spec (hb : b + 2097248 ≤ 2 ^ 64) {m' : ByteMem}
    (hm : m' = layOutChunk m s b 2097200) :
    (∀ x, (x < b ∨ b + 2097248 ≤ x) → m' x = m x) ∧ Fenceposts m' b ∧
      CellTags m' (b + 16) ⟨2097200, false⟩ := by
  rw [hm]
  refine ⟨fun x hx => ?_, ⟨?_, ?_, ?_, ?_⟩, ⟨?_, ?_, ?_, ?_⟩⟩
  all_goals
    simp (disch := omega) only [layOutChunk, setFenceposts, tagWholeChunk, NULL, sizeofHeader,
      sizeofFooter, arenaSize, Nat.reduceAdd, Nat.lt_irrefl, if_true, if_false, statusOf_false,
      statusAt_setStatus, load_store_eq, load_store_of_disjoint, store_outside]

/-- The first chunk of the heap, all of it free. -/
theorem initialize_spec (hb : b + 2097248 ≤ 2 ^ 64) (hs : s + 32 ≤ 2 ^ 64)
    (hsep : s + 32 ≤ b ∨ b + 2097248 ≤ s) {m' : ByteMem}
    (hm : m' = (initializeHeap (Heap.static m s) b).mem) :
    Fenceposts m' b ∧ CellTags m' (b + 16) ⟨2097200, true⟩ ∧
      Seg (nextAt m') (prevAt m') s [b + 16] s := by
  rw [hm]
  refine ⟨⟨?_, ?_, ?_, ?_⟩, ⟨?_, ?_, ?_, ?_⟩, ?_, ?_, ?_, ?_⟩
  all_goals
    simp (disch := omega) only [initializeHeap, Heap.static, getMemoryFromOs, setFenceposts,
      tagMainObject, linkMainObject, NULL, sizeofHeader, sizeofFooter, arenaSize, Nat.reduceAdd,
      statusOf_true, statusAt_setStatus, load_store_eq, load_store_of_disjoint]

/-! ### Freeing a block -/

/-- Case 1: the block enters the free list after `p`. -/
theorem insert_spec (ht : CellTags m c ⟨s, false⟩) (hs : 48 ≤ s) (hb : c + s < 2 ^ 64)
    (hp : p < 2 ^ 64) (hn : nextAt m p = n) (hgap : Gap c (c + s) p n) {m' : ByteMem}
    (hm : m' = insertAfter (markUnallocated m c (c + s - 16)) p c) :
    LinkFrame c (c + s) p n m m' ∧ CellTags m' c ⟨s, true⟩ ∧
      Seg (nextAt m') (prevAt m') p [c] n ∧
      ∀ x, c + 32 ≤ x → x < c + s - 16 → m' x = m x := by
  have hps := hgap.left
  have hns := hgap.right
  have hpn := hgap.apart
  have hsize := ht.header_size
  have hfoot := ht.footer_size
  have := nextAt_lt m p
  simp only at hsize hfoot
  have heq : m' =
      let m := setStatus m c .unallocated
      let m := setStatus m (c + s - 16) .unallocated
      let m := setPrev m n c
      let m := setNext m c n
      let m := setNext m p c
      setPrev m c p := by
    simp (disch := omega) only [hm, insertAfter, markUnallocated, load_store_of_disjoint, hn]
  rw [heq]
  refine ⟨?_, ⟨?_, ?_, ?_, ?_⟩, ⟨?_, ?_, ?_, ?_⟩, ?_⟩
  · intro x hx hxp hxn
    simp (disch := omega) only [store_outside]
  rotate_right
  · intro x hx hx'
    simp (disch := omega) only [store_outside]
  all_goals
    simp (disch := omega) only [statusOf_true, statusAt_setStatus, load_store_eq,
      load_store_of_disjoint, hsize, hfoot]

/-- Case 2: the free left neighbour grows over the block; no link changes. -/
theorem mergeLeft_spec (hl : CellTags m a ⟨l, true⟩) (ht : CellTags m (a + l) ⟨s, false⟩)
    (ha : 16 ≤ a) (hlmin : 48 ≤ l) (hs : 48 ≤ s) (hb : a + l + s < 2 ^ 64)
    (hseg : Seg (nextAt m) (prevAt m) p [a] n) (hgap : Gap a (a + l + s) p n) {m' : ByteMem}
    (hm : m' = mergeLeft m (a + l - 16) (a + l) (a + l + s - 16)) :
    LinkFrame a (a + l + s) p n m m' ∧ CellTags m' a ⟨l + s, true⟩ ∧
      Seg (nextAt m') (prevAt m') p [a] n ∧
      ∀ x, a + l + 32 ≤ x → x < a + l + s - 16 → m' x = m x := by
  have hps := hgap.left
  have hns := hgap.right
  obtain ⟨hpa, hap, han, hna⟩ := hseg
  have hsize := ht.header_size
  have hlsize := hl.header_size
  have hlstatus := hl.header_status
  have hlfoot := hl.footer_size
  simp only at hsize hlsize hlstatus hlfoot
  have hback : a + l - 16 - l + 16 = a := by omega
  have hend : a + (l + s) - 16 = a + l + s - 16 := by omega
  have heq : m' =
      let m := setStatus m (a + l) .unallocated
      let m := setStatus m (a + l + s - 16) .unallocated
      let m := setSize m a (l + s)
      setSize m (a + l + s - 16) (l + s) := by
    simp (disch := omega) only [hm, mergeLeft, markUnallocated, sizeofFooter, load_store_eq,
      load_store_of_disjoint, hsize, hlsize, hlfoot, hback]
  rw [heq]
  refine ⟨?_, ⟨?_, ?_, ?_, ?_⟩, ⟨?_, ?_, ?_, ?_⟩, ?_⟩
  · intro x hx hxp hxn
    simp (disch := omega) only [store_outside]
  rotate_right
  · intro x hx hx'
    simp (disch := omega) only [store_outside]
  all_goals
    simp (disch := omega) only [statusAt_setStatus, load_store_eq, load_store_of_disjoint,
      statusOf_true, hlstatus, hend, hpa, hap, han, hna]

/-- Case 3: the block grows over its free right neighbour and takes its place
in the free list. -/
theorem mergeRight_spec (ht : CellTags m c ⟨s, false⟩) (hr : CellTags m (c + s) ⟨r, true⟩)
    (hs : 48 ≤ s) (hrmin : 48 ≤ r) (hb : c + s + r < 2 ^ 64)
    (hp : prevAt m (c + s) = p) (hn : nextAt m (c + s) = n) (hgap : Gap c (c + s + r) p n)
    {m' : ByteMem}
    (hm : m' = takePlace (tagMergeRight m c (c + s - 16) (c + s)) c (c + s)) :
    LinkFrame c (c + s + r) p n m m' ∧ CellTags m' c ⟨s + r, true⟩ ∧
      Seg (nextAt m') (prevAt m') p [c] n ∧
      ∀ x, c + 32 ≤ x → x < c + s - 16 → m' x = m x := by
  have hps := hgap.left
  have hns := hgap.right
  have hpn := hgap.apart
  have := prevAt_lt m (c + s)
  have := nextAt_lt m (c + s)
  have hsize := ht.header_size
  have hrsize := hr.header_size
  have hrstatus := hr.footer_status
  simp only at hsize hrsize hrstatus
  have hend : c + (s + r) - 16 = c + s + r - 16 := by omega
  have heq : m' =
      let m := setStatus m c .unallocated
      let m := setStatus m (c + s - 16) .unallocated
      let m := setSize m c (s + r)
      let m := setSize m (c + s + r - 16) (s + r)
      let m := setPrev m c p
      let m := setNext m c n
      let m := setNext m p c
      let m := setPrev m n c
      let m := setPrev m (c + s) NULL
      setNext m (c + s) NULL := by
    simp (disch := omega) only [hm, takePlace, tagMergeRight, markUnallocated, sizeofFooter,
      load_store_eq, load_store_of_disjoint, hsize, hrsize, hp, hn]
  rw [heq]
  refine ⟨?_, ⟨?_, ?_, ?_, ?_⟩, ⟨?_, ?_, ?_, ?_⟩, ?_⟩
  · intro x hx hxp hxn
    simp (disch := omega) only [store_outside]
  rotate_right
  · intro x hx hx'
    simp (disch := omega) only [store_outside]
  all_goals
    simp (disch := omega) only [statusAt_setStatus, load_store_eq, load_store_of_disjoint,
      statusOf_true, hrstatus, hend]

/-- Case 4: the left neighbour grows over the block and the right neighbour,
which leaves the free list. -/
theorem mergeBoth_spec (hl : CellTags m a ⟨l, true⟩) (ht : CellTags m (a + l) ⟨s, false⟩)
    (hr : CellTags m (a + l + s) ⟨r, true⟩) (ha : 16 ≤ a) (hlmin : 48 ≤ l) (hs : 48 ≤ s)
    (hrmin : 48 ≤ r) (hb : a + l + s + r < 2 ^ 64)
    (hseg : Seg (nextAt m) (prevAt m) p [a, a + l + s] n) (hgap : Gap a (a + l + s + r) p n)
    {m' : ByteMem} (hm : m' = mergeBoth m (a + l - 16) (a + l) (a + l + s)) :
    LinkFrame a (a + l + s + r) p n m m' ∧ CellTags m' a ⟨l + s + r, true⟩ ∧
      Seg (nextAt m') (prevAt m') p [a] n ∧
      ∀ x, a + l + 32 ≤ x → x < a + l + s - 16 → m' x = m x := by
  have hps := hgap.left
  have hns := hgap.right
  have hpn := hgap.apart
  obtain ⟨hpa, hap, -, -, hn, -⟩ := hseg
  have := nextAt_lt m (a + l + s)
  have hsize := ht.header_size
  have hlfoot := hl.footer_size
  have hlstatus := hl.header_status
  have hrsize := hr.header_size
  have hrstatus := hr.footer_status
  simp only at hsize hlfoot hlstatus hrsize hrstatus
  have hback : a + l - 16 - l + 16 = a := by omega
  have hend : a + (l + s + r) - 16 = a + l + s + r - 16 := by omega
  have hwrap : (l + s + r) % 2 ^ 64 = l + s + r := Nat.mod_eq_of_lt (by omega)
  have heq : m' =
      let m := setSize m a (l + s + r)
      let m := setSize m (a + l + s + r - 16) (l + s + r)
      let m := setNext m a n
      let m := setPrev m n a
      let m := setPrev m (a + l + s) NULL
      setNext m (a + l + s) NULL := by
    simp (disch := omega) only [hm, mergeBoth, sizeofFooter, load_store_of_disjoint, hsize, hlfoot,
      hrsize, hback, hwrap, hn]
  rw [heq]
  refine ⟨?_, ⟨?_, ?_, ?_, ?_⟩, ⟨?_, ?_, ?_, ?_⟩, ?_⟩
  · intro x hx hxp hxn
    simp (disch := omega) only [store_outside]
  rotate_right
  · intro x hx hx'
    simp (disch := omega) only [store_outside]
  all_goals
    simp (disch := omega) only [load_store_eq, load_store_of_disjoint, statusOf_true, hlstatus,
      hrstatus, hend, hpa, hap]

end Cs252.Malloc
