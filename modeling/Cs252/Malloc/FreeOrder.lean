import Cs252.Malloc.FreeSound
import Cs252.Malloc.Observe
import Cs252.Malloc.Start

/-!
# Cs252.Malloc.FreeOrder

The order of frees does not matter.

`free_object` chooses among four cases by the neighbours of the block at that
moment, so two orders run through different cases. On layouts, a sequence of
frees is one `release` of all the blocks (`freeAll_sound`): coalescing early
does no harm (`Layout.release_release`), and a release only asks which blocks
it releases.
-/

namespace Cs252.Malloc

open Tiling

/-- Free the blocks of a list, one after the other. -/
def freeAll (h : Heap) (ptrs : List Nat) : Option Heap :=
  ptrs.foldlM freeObject h

@[simp] theorem freeAll_nil (h : Heap) : freeAll h [] = some h := rfl

theorem freeAll_cons (h : Heap) (p : Nat) (ptrs : List Nat) :
    freeAll h (p :: ptrs) = (freeObject h p).bind fun h' => freeAll h' ptrs := rfl

/-- The block at `a` is one of those freed. -/
def isFreed (ptrs : List Nat) (a : Nat) : Bool := decide (a + 32 ∈ ptrs)

theorem isFreed_cons (p : Nat) (ptrs : List Nat) :
    isFreed ((p + 32) :: ptrs) = fun a => (a == p) || isFreed ptrs a := by
  funext a
  simp [isFreed, Bool.decide_or]
  rfl

theorem isFreed_congr {ptrs ptrs' : List Nat} (h : ptrs.Perm ptrs') :
    isFreed ptrs = isFreed ptrs' := by
  funext a
  simp [isFreed, h.mem_iff]

/-- The sentinel lies below the heap. -/
def SentinelBelow (s : Nat) (L : Layout) : Prop := ∀ c ∈ L, s < c.base

theorem SentinelBelow.release {s : Nat} {L : Layout} (h : SentinelBelow s L) (p : Nat → Bool) :
    SentinelBelow s (L.release p) := by
  intro c hc
  obtain ⟨d, hd, rfl⟩ := List.mem_map.mp hc
  exact h d hd

/-- Freeing live blocks one after the other is releasing all of them. -/
theorem freeAll_sound {h : Heap} {L : Layout} (wf : WellFormed h L)
    (below : SentinelBelow h.sentinel L) {ptrs : List Nat} (hnodup : ptrs.Nodup)
    (hlive : ∀ p ∈ ptrs, L.LivePtr p) :
    ∃ m', freeAll h ptrs = some { h with mem := m' } ∧
      WellFormed { h with mem := m' } (L.release (isFreed ptrs)) := by
  induction ptrs generalizing h L with
  | nil =>
    refine ⟨h.mem, rfl, ?_⟩
    have hsame : L.release (isFreed []) = L := Layout.release_of_none wf.ok fun a n _ => rfl
    rw [hsame]
    exact wf
  | cons p ptrs ih =>
    obtain ⟨hp, hnodup'⟩ := List.nodup_cons.mp hnodup
    obtain ⟨a, rfl, n, hblock⟩ := hlive p List.mem_cons_self
    obtain ⟨m, hfree, -, hwf⟩ := freeObject_sound wf hblock
    have hlive' : ∀ q ∈ ptrs, (L.release (· == a)).LivePtr q := by
      intro q hq
      obtain ⟨b, rfl, hb⟩ := hlive q (List.mem_cons_of_mem _ hq)
      have hne : b ≠ a := fun he => hp (he ▸ hq)
      exact Layout.livePtr_release.mpr ⟨⟨b, rfl, hb⟩, by simpa using hne⟩
    obtain ⟨m', hrest, hwf'⟩ := ih (hwf below) (below.release _) hnodup' hlive'
    refine ⟨m', ?_, ?_⟩
    · rw [freeAll_cons, hfree]
      exact hrest
    · rw [isFreed_cons, ← Layout.release_release]
      exact hwf'

/-! ### What is left when everything is freed -/

/-- Chunks at the addresses `bases`, each one free block of `n` bytes. -/
def emptyLayout (n : Nat) (bases : List Nat) : Layout :=
  bases.map fun base => ⟨base, [⟨n, true⟩]⟩

theorem freeAddrs_emptyLayout (n : Nat) (bases : List Nat) :
    (emptyLayout n bases).freeAddrs = bases.map (· + 16) := by
  induction bases with
  | nil => rfl
  | cons base bases ih =>
    rw [emptyLayout, List.map_cons, Layout.freeAddrs_cons, ← emptyLayout, ih]
    simp

theorem mem_emptyLayout {n base : Nat} {bases : List Nat} (h : base ∈ bases) :
    (⟨base, [⟨n, true⟩]⟩ : Chunk) ∈ emptyLayout n bases :=
  List.mem_map.mpr ⟨base, h, rfl⟩

namespace WellFormed

variable {h : Heap} {bases : List Nat} {n : Nat}

/-- A chunk with one free block, as the walk over its boundary tags reports it. -/
theorem chunkBlocks_empty (wf : WellFormed h (emptyLayout n bases)) {base : Nat}
    (hbase : base ∈ bases) :
    chunkBlocks h.mem base = some [(base + 16, n, AllocationStatus.unallocated.code)] := by
  have hwalk := wf.chunkBlocks_eq (mem_emptyLayout hbase)
  simpa [report] using hwalk

/-- The free list of chunks with one free block each. -/
theorem printList_empty (wf : WellFormed h (emptyLayout n bases)) :
    printList h = some (bases.map fun base : Nat => ((base : Int) + 16 - h.memStart, n)) := by
  rw [wf.printList_eq, freeAddrs_emptyLayout, List.map_map]
  refine congrArg some (List.map_congr_left fun base hbase => ?_)
  have hblock : (base + 16, ⟨n, true⟩) ∈ (emptyLayout n bases).blocks :=
    Layout.mem_blocks.mpr ⟨_, mem_emptyLayout hbase, by simp⟩
  have hsize : sizeAt h.mem (base + 16) = n := (wf.rep.tags _ _ hblock).header_size
  simp only [Function.comp_apply, hsize, Nat.cast_add, Nat.cast_ofNat]

end WellFormed

/-- **The order of frees does not matter.** Two orders of freeing the same live
blocks leave heaps that represent the same layout, so that the boundary tags of
every chunk and the free list read the same. When all live blocks are freed,
every chunk is one free block, and the free list is these blocks in ascending
order. -/
theorem freeAll_perm {h : Heap} {L : Layout} (wf : WellFormed h L)
    (below : SentinelBelow h.sentinel L) {ptrs ptrs' : List Nat} (hnodup : ptrs.Nodup)
    (hlive : ∀ p ∈ ptrs, L.LivePtr p) (hperm : ptrs.Perm ptrs') :
    ∃ h₁ h₂ L', freeAll h ptrs = some h₁ ∧ freeAll h ptrs' = some h₂ ∧
      WellFormed h₁ L' ∧ WellFormed h₂ L' ∧
      (∀ base ∈ h.osChunks, ∃ blocks,
        chunkBlocks h₁.mem base = some blocks ∧ chunkBlocks h₂.mem base = some blocks) ∧
      (∃ entries, printList h₁ = some entries ∧ printList h₂ = some entries) ∧
      ((∀ p, L.LivePtr p → p ∈ ptrs) →
        (∀ base ∈ h.osChunks, chunkBlocks h₁.mem base
          = some [(base + 16, 2097200, AllocationStatus.unallocated.code)]) ∧
        printList h₁
          = some (h.osChunks.map fun base : Nat => ((base : Int) + 16 - h.memStart, 2097200)) ∧
        h.osChunks.Pairwise (· < ·)) := by
  have hlive' : ∀ p ∈ ptrs', L.LivePtr p := fun p hp => hlive p (hperm.mem_iff.mpr hp)
  obtain ⟨m₁, hfree₁, wf₁⟩ := freeAll_sound wf below hnodup hlive
  obtain ⟨m₂, hfree₂, wf₂⟩ := freeAll_sound wf below (hperm.nodup_iff.mp hnodup) hlive'
  rw [← isFreed_congr hperm] at wf₂
  refine ⟨_, _, _, hfree₁, hfree₂, wf₁, wf₂, ?_, ?_, fun hall => ?_⟩
  · intro base hbase
    have hchunk : base ∈ (L.release (isFreed ptrs)).map Chunk.base := by
      rw [Layout.map_base_release, ← wf.chunks]
      exact hbase
    obtain ⟨c, hc, rfl⟩ := List.mem_map.mp hchunk
    exact ⟨_, wf₁.chunkBlocks_eq hc, wf₂.chunkBlocks_eq hc⟩
  · exact ⟨_, wf₁.printList_eq, (wf₁.printList_congr wf₂ rfl).trans wf₁.printList_eq⟩
  · have hempty : L.release (isFreed ptrs) = emptyLayout 2097200 h.osChunks := by
      rw [Layout.release_all wf.ok, emptyLayout, wf.chunks, List.map_map]
      · rfl
      · intro a ha
        exact decide_eq_true (hall (a + 32) ⟨a, rfl, ha⟩)
    rw [hempty] at wf₁
    refine ⟨fun base hbase => wf₁.chunkBlocks_empty hbase, wf₁.printList_empty, ?_⟩
    rw [wf.chunks, List.pairwise_map]
    exact wf.ok.ascending.imp fun h => by omega

theorem sampleHeap_below : SentinelBelow sampleHeap.sentinel sampleLayout := by
  intro c hc
  obtain rfl := List.mem_singleton.mp hc
  rw [sampleHeap_spec.2]
  decide

/-- Both blocks of the small heap, freed in both orders. -/
theorem freeAll_perm_sample :
    ∃ h₁ h₂ L', freeAll sampleHeap [4144, 4296] = some h₁ ∧
      freeAll sampleHeap [4296, 4144] = some h₂ ∧ WellFormed h₁ L' ∧ WellFormed h₂ L' := by
  have wf := sampleHeap_spec.1
  have hlive : ∀ p ∈ [4144, 4296], sampleLayout.LivePtr p := by
    intro p hp
    rcases List.mem_pair.mp hp with rfl | rfl
    · exact ⟨4112, rfl, 152, by decide⟩
    · exact ⟨4264, rfl, 152, by decide⟩
  obtain ⟨h₁, h₂, L', hone, htwo, wf₁, wf₂, -⟩ :=
    freeAll_perm wf sampleHeap_below (by decide) hlive (List.Perm.swap 4296 4144 [])
  exact ⟨h₁, h₂, L', hone, htwo, wf₁, wf₂⟩

end Cs252.Malloc
