import Cs252.Malloc.AllocateSound

/-!
# Cs252.Malloc.Start

The heap `initialize` leaves: one chunk, all of it free.

The end of the module follows `initialize` by two requests, which gives small
heaps with blocks in use.
-/

namespace Cs252.Malloc

open Tiling LinkedRing

section Initialize

variable (m : ByteMem) (s base : Nat)

@[simp] theorem initializeHeap_sentinel :
    (initializeHeap (Heap.static m s) base).sentinel = s := by
  simp [initializeHeap, Heap.static, getMemoryFromOs]

@[simp] theorem initializeHeap_freeList :
    (initializeHeap (Heap.static m s) base).freeList = s := by
  simp [initializeHeap, Heap.static, getMemoryFromOs]

@[simp] theorem initializeHeap_osChunks :
    (initializeHeap (Heap.static m s) base).osChunks =
      if base = sbrkFailed then [] else [base] := by
  simp [initializeHeap, Heap.static, getMemoryFromOs]

end Initialize

/-- **`initialize` leaves a well-formed heap** with one free block. -/
theorem initialize_wellFormed {m : ByteMem} {s base n : Nat} (fresh : FreshChunk s [] base)
    (hs : s + 32 ≤ 2 ^ 64) (hn : n = 2097200) :
    WellFormed (initializeHeap (Heap.static m s) base) [⟨base, [⟨n, true⟩]⟩] := by
  obtain ⟨hfence, htags, hseg⟩ :=
    initialize_spec fresh.bound hs fresh.sentinel_sep (m := m) rfl
  rw [← hn] at htags
  have ok : LayoutOk s [⟨base, [⟨n, true⟩]⟩] := by
    have hempty : LayoutOk s [] :=
      ⟨by simp, by simp, by simp, List.Pairwise.nil, by simp, by simp, hs⟩
    refine fresh.layoutOk hempty (by simp [hn]) ?_ (List.isChain_singleton _)
    intro c hc
    obtain rfl := List.mem_singleton.mp hc
    simp only
    omega
  have hlist : Layout.freeAddrs [⟨base, [⟨n, true⟩]⟩] = [base + 16] := by simp
  have hrep : Represents (initializeHeap (Heap.static m s) base).mem s [⟨base, [⟨n, true⟩]⟩] := by
    constructor
    · intro a c hc
      obtain ⟨rfl, rfl⟩ : a = base + 16 ∧ c = ⟨n, true⟩ := by simpa using hc
      exact htags
    · intro c hc
      obtain rfl := List.mem_singleton.mp hc
      exact hfence
    · refine ⟨hlist ▸ hseg, ?_⟩
      exact ok.nodes_nodup
  constructor
  · rw [initializeHeap_sentinel]
    exact ok
  · rw [initializeHeap_sentinel]
    exact hrep
  · rw [initializeHeap_freeList, initializeHeap_sentinel]
  · rw [initializeHeap_osChunks, if_neg fresh.toApart.ne_failed]
    rfl

/-! ### A small heap -/

/-- The heap after one request, with `sbrk` answering `sbrk`. -/
def afterRequest (h : Heap) (sbrk size : Nat) : Heap :=
  ((allocateObject h sbrk size).map Prod.snd).getD h

theorem afterRequest_wellFormed {h : Heap} {L L' : Layout} {sbrk size a : Nat}
    (wf : WellFormed h L) (hr : 48 ≤ roundedSize size) (hmax : roundedSize size ≤ 2097200)
    (hgrow : L.firstFit (roundedSize size) = none →
      FreshChunk h.sentinel L sbrk ∧ RestFits (roundedSize size))
    (hfit : L.allocate (roundedSize size) sbrk = (a, L')) :
    WellFormed (afterRequest h sbrk size) L' ∧
      (afterRequest h sbrk size).sentinel = h.sentinel := by
  obtain ⟨h', heq, hsent, wf'⟩ := wf.allocateObject_sound hr hmax hgrow
  rw [hfit] at wf'
  have hafter : afterRequest h sbrk size = h' := by
    rw [afterRequest, heq]
    rfl
  rw [hafter]
  exact ⟨wf', hsent⟩

/-- The first chunk at 4096, the sentinel below it. -/
def freshHeap : Heap := initializeHeap (Heap.static (fun _ => 0) 64) 4096

/-- The same after two requests of 100 bytes. -/
def sampleHeap : Heap := afterRequest (afterRequest freshHeap NULL 100) NULL 100

/-- The layout of `sampleHeap`. -/
def sampleLayout : Layout := [⟨4096, [⟨152, false⟩, ⟨152, false⟩, ⟨2096896, true⟩]⟩]

theorem freshHeap_wellFormed : WellFormed freshHeap [⟨4096, [⟨2097200, true⟩]⟩] :=
  initialize_wellFormed ⟨by simp, by decide, by decide⟩ (by decide) rfl

theorem sampleHeap_spec : WellFormed sampleHeap sampleLayout ∧ sampleHeap.sentinel = 64 := by
  have hsize : roundedSize 100 = 152 := by decide
  have hstart : freshHeap.sentinel = 64 := initializeHeap_sentinel ..
  obtain ⟨hone, hsent⟩ : WellFormed (afterRequest freshHeap NULL 100)
      [⟨4096, [⟨152, false⟩, ⟨2097048, true⟩]⟩] ∧ _ :=
    afterRequest_wellFormed (a := 4112) freshHeap_wellFormed (by rw [hsize]; decide)
      (by rw [hsize]; decide) (fun h => by rw [hsize] at h; cases h) (by rw [hsize]; rfl)
  obtain ⟨htwo, hsent'⟩ : WellFormed sampleHeap sampleLayout ∧ _ :=
    afterRequest_wellFormed (a := 4264) hone (by rw [hsize]; decide)
      (by rw [hsize]; decide) (fun h => by rw [hsize] at h; cases h) (by rw [hsize]; rfl)
  exact ⟨htwo, hsent'.trans (hsent.trans hstart)⟩

/-- Room for a chunk right above the one of `sampleHeap`. -/
theorem sampleHeap_apart : ApartChunk sampleHeap.sentinel sampleLayout 2101344 := by
  rw [sampleHeap_spec.2]
  refine ⟨fun c hc => ?_, by decide, by decide⟩
  obtain rfl := List.mem_singleton.mp hc
  decide

end Cs252.Malloc
