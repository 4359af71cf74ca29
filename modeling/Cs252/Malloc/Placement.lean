import Cs252.Malloc.FreeOrder

/-!
# Cs252.Malloc.Placement

The free list, wherever the sentinel lives.

`free_list_sentinel` is a static variable. It is below the heap in a program that
is linked with the allocator, and above it when the allocator is loaded as
`MyMalloc.so`. The search of `free_object` for the place of a block starts at the
sentinel and compares its address with those of the blocks.

`Op.after` says what a call makes of a layout, without mention of the sentinel.
`FindsPlace` is the condition under which `free_object` does the same. Where it
fails, the block is appended to a list of higher blocks (`freeObject_appends`).
So a run keeps the free list in address order exactly when the condition holds
at each of its frees.
-/

namespace Cs252.Malloc

open Tiling LinkedRing

/-! ### The free list of a layout -/

namespace Layout

/-- The free blocks: addresses and sizes. -/
def freeBlocks (L : Layout) : List (Nat × Nat) :=
  (L.blocks.filter fun b => b.2.free).map fun b => (b.1, b.2.size)

theorem fst_freeBlocks (L : Layout) : L.freeBlocks.map Prod.fst = L.freeAddrs := by
  rw [freeBlocks, List.map_map, freeAddrs, blocks, List.filter_flatMap, List.map_flatMap]
  exact congrArg (L.flatMap ·) (funext fun c => (Tiling.freeAddrs_eq_filter _ _).symm)

end Layout

/-- The heap shows the layout. `print_list` shows exactly its free blocks, in
ascending order, as offsets from `start`, and the boundary tags of each chunk are
those of its blocks. -/
structure InOrder (start : Nat) (h : Heap) (L : Layout) : Prop where
  list : printList h = some (L.freeBlocks.map fun b => ((b.1 : Int) - start, b.2))
  ascending : (L.freeBlocks.map Prod.fst).Pairwise (· < ·)
  tags : ∀ c ∈ L, chunkBlocks h.mem c.base = some ((placed (c.base + 16) c.cells).map report)

theorem WellFormed.inOrder {h : Heap} {L : Layout} (wf : WellFormed h L) :
    InOrder h.memStart h L := by
  refine ⟨?_, ?_, fun c hc => wf.chunkBlocks_eq hc⟩
  · rw [wf.printList_eq, ← L.fst_freeBlocks, Layout.freeBlocks, List.map_map, List.map_map,
      List.map_map]
    refine congrArg some (List.map_congr_left fun b hb => ?_)
    have hsize := wf.header_size (List.mem_filter.mp hb).1
    simp only [Function.comp_apply, hsize]
  · rw [L.fst_freeBlocks]
    exact wf.ok.freeAddrs_sorted

/-! ### Freeing a block below the free list -/

/-- **Where the search does not find the place of a block.** The block is
appended to the free list, all of whose blocks are above it. -/
theorem WellFormed.freeObject_appends {h : Heap} {L : Layout} {a n : Nat} (wf : WellFormed h L)
    (hlive : (a, ⟨n, false⟩) ∈ L.blocks) (hplace : ¬FindsPlace h.sentinel L a n) :
    L.freeAddrs ≠ [] ∧ (∀ f ∈ L.freeAddrs, a < f) ∧
      ∃ m', freeObject h (a + 32) = some { h with mem := m' } ∧
        IsRing (nextAt m') (prevAt m') h.sentinel (L.freeAddrs ++ [a]) := by
  simp only [FindsPlace, not_or, not_exists, not_and, Nat.not_lt] at hplace
  obtain ⟨hsent, habove, hnext, hne⟩ := hplace
  have e := wf.extended
  have hmin : 48 ≤ n := wf.ok.block_min hlive
  -- the sentinel and all free blocks are above the block
  have hlt : ∀ q ∈ h.sentinel :: L.freeAddrs, a < q := by
    intro q hq
    have hsep := wf.ok.live_node_sep hlive hq
    have hle : a ≤ q := by
      rcases List.mem_cons.mp hq with rfl | hq
      · exact hsent
      · exact habove q hq
    omega
  refine ⟨hne, fun f hf => hlt f (List.mem_cons_of_mem _ hf), ?_⟩
  obtain ⟨H, rfl, rfl⟩ := Hole.of_mem_blocks hlive
  have hleft : ClosedRight H.pre := by
    rcases closedRight_or H.pre with hleft | ⟨init, l, hpre⟩
    · exact hleft
    · -- a free left neighbour is below the block
      have hfree : ({ H with pre := init } : Hole).addr ∈ (H.plug [⟨n, false⟩]).freeAddrs := by
        rw [Hole.plug_left hpre, Hole.freeAddrs_plug]
        simp
      have hend := Hole.addr_left hpre
      have := hlt _ (List.mem_cons_of_mem _ hfree)
      omega
  have hright : ClosedLeft H.post := by
    rcases closedLeft_or H.post with hright | ⟨r, tail, hpost⟩
    · exact hright
    · refine absurd ?_ hnext
      rw [Hole.plug_right hpost, Hole.freeAddrs_plug]
      simp [Hole.addr]
  have hnodes : (H.plug [⟨n, false⟩]).freeAddrs ++ [] = (H.plug [⟨n, false⟩]).freeAddrs ++ [] := rfl
  have hring := e.ring_markUnallocated
  have habove' : ∀ q ∈ h.sentinel :: ((H.plug [⟨n, false⟩]).freeAddrs ++ []), H.addr < q := by
    simpa using hlt
  have hfind := findSlot_last (List.nodup_cons.mp hring.nodup).1 habove' hring.seg e.length_lt
  rw [List.append_nil] at hfind
  obtain ⟨m', mg⟩ := e.free_insert hleft hright hnodes hfind
  refine ⟨m', mg.returns, ?_⟩
  have hring' := mg.ring e
  rwa [List.append_nil] at hring'

/-- **When freeing a block keeps the free list in order.** -/
theorem WellFormed.free_inOrder_iff {h h' : Heap} {L : Layout} {a n : Nat} (wf : WellFormed h L)
    (hlive : (a, ⟨n, false⟩) ∈ L.blocks) (heq : freeObject h (a + 32) = some h') :
    InOrder h.memStart h' (L.release (· == a)) ↔ FindsPlace h.sentinel L a n := by
  constructor
  · intro hin
    by_contra hplace
    obtain ⟨hne, habove, m', heq', hring⟩ := wf.freeObject_appends hlive hplace
    obtain rfl := Option.some.inj (heq.symm.trans heq')
    have hbound : ∀ q ∈ h.sentinel :: (L.freeAddrs ++ [a]), q < 2 ^ 64 := by
      intro q hq
      rw [← List.cons_append, List.mem_append] at hq
      rcases hq with hq | hq
      · exact wf.ok.node_bound hq
      · obtain rfl := List.mem_singleton.mp hq
        have := wf.ok.block_bound hlive
        omega
    have hlen := length_lt_loopBound hring.nodup hbound
    have hprint : printList { h with mem := m' } = some _ :=
      printList_of_ring wf.freeList hring hlen
    -- the list printed ends in the block, which is below all others
    have haddrs : (L.release (· == a)).freeBlocks.map Prod.fst = L.freeAddrs ++ [a] := by
      have hlists := Option.some.inj (hin.list.symm.trans hprint)
      have hfst := congrArg (List.map Prod.fst) hlists
      rw [List.map_map, List.map_map] at hfst
      have hinj : Function.Injective fun x : Nat => (x : Int) - h.memStart := by
        intro x y hxy
        simp only at hxy
        omega
      refine List.map_injective_iff.mpr hinj ?_
      rw [List.map_map]
      exact hfst
    have hsorted := hin.ascending
    rw [haddrs, List.pairwise_append] at hsorted
    obtain ⟨f, hf⟩ := List.exists_mem_of_ne_nil _ hne
    have hfa := hsorted.2.2 f hf a (List.mem_singleton_self a)
    have haf := habove f hf
    omega
  · intro hplace
    obtain ⟨m', heq', wf'⟩ := freeObject_release wf hlive hplace
    obtain rfl := Option.some.inj (heq.symm.trans heq')
    exact wf'.inOrder

/-! ### Calls -/

/-- A call of a run: `malloc`, with the answer of `sbrk` if it is asked, or `free`. -/
inductive Op
  | malloc (size sbrk : Nat)
  | free (ptr : Nat)

namespace Op

/-- Make the call. -/
def run (h : Heap) : Op → Option Heap
  | malloc size sbrk => (Malloc.malloc h sbrk size).map Prod.snd
  | free ptr => Malloc.free h ptr

/-- The layout after the call. -/
def after (L : Layout) : Op → Layout
  | malloc size sbrk => (L.allocate (roundedSize size) sbrk).2
  | free ptr => L.release fun a => a + 32 == ptr

/-- Requests are at most 1 MiB, `sbrk` moves the end of the heap up and leaves the
sentinel at `s` outside it, and only live pointers are freed. -/
def Legal (s : Nat) (L : Layout) : Op → Prop
  | malloc size sbrk =>
    size ≤ 1048576 ∧ (L.firstFit (roundedSize size) = none → FreshChunk s L sbrk)
  | free ptr => L.LivePtr ptr

/-- The place of the block freed, if one is, is found. -/
def FindsPlace (s : Nat) (L : Layout) : Op → Prop
  | malloc _ _ => True
  | free ptr => ∀ a n, ptr = a + 32 → (a, ⟨n, false⟩) ∈ L.blocks → Malloc.FindsPlace s L a n

theorem after_free (L : Layout) (a : Nat) : after L (.free (a + 32)) = L.release (· == a) := by
  refine congrArg (L.release ·) (funext fun b => ?_)
  rw [Bool.eq_iff_iff, beq_iff_eq, beq_iff_eq]
  omega

theorem run_free (h : Heap) (a : Nat) :
    run h (.free (a + 32)) = freeObject { h with freeCalls := h.freeCalls + 1 } (a + 32) := by
  simp only [run, Malloc.free, if_pos (payload_ne_null a)]

variable {h h' : Heap} {L : Layout} {op : Op}

/-- A call whose block finds its place does to the heap what it does to the layout. -/
theorem sound (wf : WellFormed h L) (hlegal : op.Legal h.sentinel L)
    (hplace : op.FindsPlace h.sentinel L) :
    ∃ h', op.run h = some h' ∧ h'.sentinel = h.sentinel ∧ h'.memStart = h.memStart ∧
      WellFormed h' (op.after L) := by
  cases op with
  | malloc size sbrk =>
    obtain ⟨hsize, hsbrk⟩ := hlegal
    obtain ⟨hmin, -, hmax⟩ : 56 ≤ roundedSize size ∧ _ ∧ roundedSize size ≤ max size 8 + 55 :=
      roundedSize_bounds (by omega)
    have wf' : WellFormed { h with mallocCalls := h.mallocCalls + 1 } L :=
      wf.of_fields rfl rfl rfl rfl
    have hgrow : L.firstFit (roundedSize size) = none →
        FreshChunk h.sentinel L sbrk ∧ RestFits (roundedSize size) := fun hfit =>
      ⟨hsbrk hfit, Or.inl (by omega)⟩
    obtain ⟨h', heq, hsent, wf''⟩ := wf'.allocateObject_sound (by omega) (by omega) hgrow
    refine ⟨h', ?_, hsent, (allocateObject_static heq).2, wf''⟩
    simp only [run, Malloc.malloc, heq, Option.map_some]
  | free ptr =>
    obtain ⟨a, rfl, n, hblock⟩ := hlegal
    have wf' : WellFormed { h with freeCalls := h.freeCalls + 1 } L :=
      wf.of_fields rfl rfl rfl rfl
    obtain ⟨m', heq, wf''⟩ := freeObject_release wf' hblock (hplace a n rfl hblock)
    rw [after_free, run_free]
    exact ⟨_, heq, rfl, rfl, wf''⟩

/-- A call that leaves the free list in order has found the place of its block. -/
theorem findsPlace_of_inOrder (wf : WellFormed h L) (heq : op.run h = some h')
    (hin : InOrder h.memStart h' (op.after L)) : op.FindsPlace h.sentinel L := by
  cases op with
  | malloc size sbrk => trivial
  | free ptr =>
    intro a n hptr hblock
    subst hptr
    have wf' : WellFormed { h with freeCalls := h.freeCalls + 1 } L :=
      wf.of_fields rfl rfl rfl rfl
    rw [run_free] at heq
    rw [after_free] at hin
    exact (wf'.free_inOrder_iff hblock heq).mp hin

end Op

/-! ### Runs -/

/-- Every call of a run is legal, for a sentinel at `s`. -/
def LegalRun (s : Nat) : Layout → List Op → Prop
  | _, [] => True
  | L, op :: ops => op.Legal s L ∧ LegalRun s (op.after L) ops

/-- Every block freed in a run finds its place. -/
def AllFindPlace (s : Nat) : Layout → List Op → Prop
  | _, [] => True
  | L, op :: ops => op.FindsPlace s L ∧ AllFindPlace s (op.after L) ops

/-- The free list is in order before the run and after each of its calls. The
layouts are those the calls make of `L`, so the lists and the tags they are
compared with are the same for every placement of the sentinel. -/
def AlwaysInOrder (start : Nat) : Heap → Layout → List Op → Prop
  | h, L, [] => InOrder start h L
  | h, L, op :: ops =>
    InOrder start h L ∧ ∃ h', op.run h = some h' ∧ AlwaysInOrder start h' (op.after L) ops

theorem AlwaysInOrder.inOrder {start : Nat} {h : Heap} {L : Layout} {ops : List Op}
    (hruns : AlwaysInOrder start h L ops) : InOrder start h L := by
  cases ops with
  | nil => exact hruns
  | cons op ops => exact hruns.1

/-- A run from a well-formed heap keeps the free list in order exactly when every
block freed finds its place. -/
theorem WellFormed.alwaysInOrder_iff {s start : Nat} {h : Heap} {L : Layout} {ops : List Op}
    (wf : WellFormed h L) (hsent : h.sentinel = s) (hstart : h.memStart = start)
    (hlegal : LegalRun s L ops) : AlwaysInOrder start h L ops ↔ AllFindPlace s L ops := by
  induction ops generalizing h L with
  | nil => exact iff_of_true (hstart ▸ wf.inOrder) trivial
  | cons op ops ih =>
    obtain ⟨hop, hops⟩ := hlegal
    subst hsent hstart
    constructor
    · intro halways
      obtain ⟨-, h', hrun, hruns⟩ := halways
      have hplace := op.findsPlace_of_inOrder wf hrun hruns.inOrder
      obtain ⟨h'', hrun', hsent, hstart, wf'⟩ := op.sound wf hop hplace
      obtain rfl := Option.some.inj (hrun.symm.trans hrun')
      exact ⟨hplace, (ih wf' hsent hstart hops).mp hruns⟩
    · intro hall
      obtain ⟨hplace, hrest⟩ := hall
      obtain ⟨h', hrun, hsent, hstart, wf'⟩ := op.sound wf hop hplace
      exact ⟨wf.inOrder, h', hrun, (ih wf' hsent hstart hops).mpr hrest⟩

/-! ### The sentinel below the heap -/

/-- The sentinel stays below the heap. -/
theorem Op.below_after {s : Nat} {L : Layout} {op : Op} (hne : L ≠ []) (below : SentinelBelow s L)
    (hlegal : op.Legal s L) : op.after L ≠ [] ∧ SentinelBelow s (op.after L) := by
  cases op with
  | malloc size sbrk =>
    rcases Layout.firstFit_cases (roundedSize size) L with
      ⟨H, n, rfl, hn, hfirst, hfit⟩ | ⟨hnone, hfit⟩
    · rw [Op.after, Layout.allocate_of_fit hfit]
      refine ⟨List.ne_nil_of_mem (H.chunk_mem _), fun c hc => ?_⟩
      obtain ⟨d, hd, hbase, -⟩ := Hole.exists_chunk_of_mem_plug [⟨n, true⟩] hc
      exact hbase ▸ below d hd
    · rw [Op.after, Layout.allocate_of_none hfit]
      refine ⟨by simp, fun c hc => ?_⟩
      rcases List.mem_append.mp hc with hc | hc
      · exact below c hc
      · -- the new chunk is above the first one
        obtain rfl := List.mem_singleton.mp hc
        obtain ⟨d, hd⟩ := List.exists_mem_of_ne_nil L hne
        have := below d hd
        have := (hlegal.2 hfit).above d hd
        simp only
        omega
  | free ptr => exact ⟨fun hnil => hne (List.map_eq_nil_iff.mp hnil), below.release _⟩

/-- With the sentinel below the heap, every block freed finds its place. -/
theorem allFindPlace_of_below {s : Nat} {L : Layout} {ops : List Op} (hne : L ≠ [])
    (below : SentinelBelow s L) (hlegal : LegalRun s L ops) : AllFindPlace s L ops := by
  induction ops generalizing L with
  | nil => trivial
  | cons op ops ih =>
    obtain ⟨hne', below'⟩ := Op.below_after hne below hlegal.1
    refine ⟨?_, ih hne' below' hlegal.2⟩
    cases op with
    | malloc size sbrk => trivial
    | free ptr =>
      intro a n _ hblock
      obtain ⟨c, hc, hin⟩ := Layout.mem_blocks.mp hblock
      have := below c hc
      have := (placed_bounds hin).1
      exact Or.inl (by omega)

/-! ### Runs from `initialize` on -/

/-- The layout `initialize` leaves, for a first chunk at `base`. -/
def startLayout (base : Nat) : Layout := [⟨base, [⟨2097200, true⟩]⟩]

/-- **Where the sentinel lives.** A run of `malloc` and `free` from `initialize`
on keeps the free list in order exactly when every block freed finds its place:
when it is freed, the sentinel or some free block is below it, or its right
neighbour is free, or the free list is empty. -/
theorem placement_iff {m : ByteMem} {s base : Nat} {ops : List Op} (fresh : FreshChunk s [] base)
    (hs : s + 32 ≤ 2 ^ 64) (hlegal : LegalRun s (startLayout base) ops) :
    AlwaysInOrder (base + 16) (initializeHeap (Heap.static m s) base) (startLayout base) ops ↔
      AllFindPlace s (startLayout base) ops := by
  have wf : WellFormed (initializeHeap (Heap.static m s) base) (startLayout base) :=
    initialize_wellFormed fresh hs rfl
  exact wf.alwaysInOrder_iff (initializeHeap_sentinel ..) rfl hlegal

/-- Two blocks allocated, and the first one freed. -/
def sampleRun : List Op := [.malloc 100 NULL, .malloc 100 NULL, .free 4144]

/-- No call of the sample run asks `sbrk`, so it is legal for every placement. -/
theorem sampleRun_legal (s : Nat) : LegalRun s (startLayout 4096) sampleRun := by
  have hfit : (startLayout 4096).firstFit (roundedSize 100) ≠ none := by decide
  have hfit' : (Op.after (startLayout 4096) (.malloc 100 NULL)).firstFit (roundedSize 100) ≠ none := by
    decide
  refine ⟨⟨by decide, fun h => absurd h hfit⟩, ⟨by decide, fun h => absurd h hfit'⟩, ?_, trivial⟩
  exact ⟨4112, rfl, 152, by decide⟩

/-- The sample run, with the sentinel below the heap. -/
theorem placement_below :
    AlwaysInOrder 4112 (initializeHeap (Heap.static (fun _ => 0) 64) 4096) (startLayout 4096)
      sampleRun := by
  have below : SentinelBelow 64 (startLayout 4096) := by
    intro c hc
    obtain rfl := List.mem_singleton.mp hc
    decide
  exact (placement_iff ⟨by simp, by decide, by decide⟩ (by decide) (sampleRun_legal 64)).mpr
    (allFindPlace_of_below (by simp [startLayout]) below (sampleRun_legal 64))

/-- The sample run, with the sentinel above the heap: the block freed is appended
to the free list, whose only block is above it. -/
theorem placement_above :
    FreshChunk 4194304 [] 4096 ∧ LegalRun 4194304 (startLayout 4096) sampleRun ∧
      ¬AlwaysInOrder 4112 (initializeHeap (Heap.static (fun _ => 0) 4194304) 4096)
        (startLayout 4096) sampleRun := by
  have fresh : FreshChunk 4194304 [] 4096 := ⟨by simp, by decide, by decide⟩
  have wf : WellFormed (initializeHeap (Heap.static (fun _ => 0) 4194304) 4096)
      (startLayout 4096) := initialize_wellFormed fresh (by decide) rfl
  refine ⟨fresh, sampleRun_legal _, fun hruns => ?_⟩
  obtain ⟨-, -, hplace, -⟩ := (wf.alwaysInOrder_iff (initializeHeap_sentinel ..) rfl
    (sampleRun_legal _)).mp hruns
  have hlist : (Op.after (Op.after (startLayout 4096) (.malloc 100 NULL))
      (.malloc 100 NULL)).freeAddrs = [4416] := by decide
  rcases hplace 4112 152 rfl (by decide) with hlt | ⟨f, hf, hlt⟩ | hnext | hnil
  · omega
  · rw [hlist] at hf
    obtain rfl := List.mem_singleton.mp hf
    omega
  · rw [hlist] at hnext
    simp at hnext
  · rw [hlist] at hnil
    cases hnil

end Cs252.Malloc
