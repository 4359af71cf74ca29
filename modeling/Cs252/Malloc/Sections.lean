import Mathlib.Logic.Relation
import Cs252.Malloc.Realloc

/-!
# Cs252.Malloc.Sections

`realloc` among the critical sections of other threads.

`realloc` takes the mutex twice, to allocate the new block and to free the old
one, and copies without it. In between other threads run sections of their own
and use their blocks. `OtherSection` is one such step, with the layout it makes
of the heap. It may do anything but release the two blocks `realloc` owns or
write to them.

One step leaves the owned blocks in use and their bytes untouched
(`OtherSection.keeps`), hence so do any number of them (`keeps_of_sections`).
`realloc_concurrent` puts the three steps of `realloc` between such sequences.
-/

namespace Cs252.Malloc

open Relation

/-- A call counter has been increased, or nothing has changed. -/
inductive Counted : Heap → Heap → Prop
  | none (h : Heap) : Counted h h
  | malloc (h : Heap) : Counted h { h with mallocCalls := h.mallocCalls + 1 }
  | calloc (h : Heap) : Counted h { h with callocCalls := h.callocCalls + 1 }
  | realloc (h : Heap) : Counted h { h with reallocCalls := h.reallocCalls + 1 }
  | free (h : Heap) : Counted h { h with freeCalls := h.freeCalls + 1 }

theorem Counted.mem_eq {h h₀ : Heap} (hc : Counted h h₀) : h₀.mem = h.mem := by
  cases hc <;> rfl

theorem Counted.wellFormed {h h₀ : Heap} {L : Layout} (hc : Counted h h₀) (wf : WellFormed h L) :
    WellFormed h₀ L := by
  cases hc <;> exact wf.of_fields rfl rfl rfl rfl

/-- The layout after a request of `size` bytes: unchanged when it is refused. -/
def Layout.request (size sbrk : Nat) (L : Layout) : Layout :=
  if roundedSize size ≤ 2097200 then (L.allocate (roundedSize size) sbrk).2 else L

/-- A step of another thread on a well-formed heap that leaves it well formed:
the section of `malloc`, `calloc` or `realloc` that allocates, the section of
`free` or `realloc` that frees a block in use, a `free` of the null pointer, or
writes to the usable bytes of a block in use. The blocks at `own` are not
released and not written to. -/
inductive OtherSection (own : List Nat) : Heap × Layout → Heap × Layout → Prop
  | allocate {h h₀ h' : Heap} {L : Layout} {sbrk size ptr : Nat} :
      WellFormed h L → Counted h h₀ → allocateObject h₀ sbrk size = some (ptr, h') →
      WellFormed h' (L.request size sbrk) → OtherSection own (h, L) (h', L.request size sbrk)
  | free {h h₀ h' : Heap} {L : Layout} {b : Nat} :
      WellFormed h L → Counted h h₀ → L.Live b → b ∉ own → freeObject h₀ (b + 32) = some h' →
      WellFormed h' (L.release (· == b)) → OtherSection own (h, L) (h', L.release (· == b))
  | freeNull {h h₀ : Heap} {L : Layout} :
      WellFormed h L → Counted h h₀ → OtherSection own (h, L) (h₀, L)
  | write {h : Heap} {L : Layout} {b k : Nat} {m : ByteMem} :
      WellFormed h L → (b, ⟨k, false⟩) ∈ L.blocks → b ∉ own →
      (∀ x, x < b + 32 ∨ b + k - 16 ≤ x → m x = h.mem x) →
      OtherSection own (h, L) ({ h with mem := m }, L)

theorem Untouched.trans {m₁ m₂ m₃ : ByteMem} {a n : Nat} (h : Untouched m₁ m₂ a n)
    (h' : Untouched m₂ m₃ a n) : Untouched m₁ m₃ a n := fun x hx hx' =>
  (h' x hx hx').trans (h x hx hx')

/-- A chunk at the end of a layout is apart from the chunks before it. -/
theorem LayoutOk.apartChunk {s base : Nat} {L : Layout} {cells : List Cell}
    (ok : LayoutOk s (L ++ [⟨base, cells⟩])) : ApartChunk s L base := by
  have hmem : (⟨base, cells⟩ : Chunk) ∈ L ++ [⟨base, cells⟩] := by simp
  have hasc := ok.ascending
  rw [List.pairwise_append] at hasc
  exact ⟨fun c hc => Or.inl (hasc.2.2 c hc ⟨base, cells⟩ (by simp)), ok.bound _ hmem,
    ok.sentinel_sep _ hmem⟩

namespace OtherSection

variable {own : List Nat} {s t : Heap × Layout}

theorem before (hs : OtherSection own s t) : WellFormed s.1 s.2 := by
  cases hs <;> assumption

theorem after (hs : OtherSection own s t) : WellFormed t.1 t.2 := by
  cases hs with
  | allocate _ _ _ wf' => exact wf'
  | free _ _ _ _ _ wf' => exact wf'
  | freeNull wf hc => exact hc.wellFormed wf
  | write wf hb _ hm => exact wf.write_payload hb hm

/-- A section that allocates leaves the blocks in use alone. -/
theorem keeps_allocate {h h₀ h' : Heap} {L : Layout} {sbrk size ptr a n : Nat}
    (wf : WellFormed h L) (hc : Counted h h₀) (heq : allocateObject h₀ sbrk size = some (ptr, h'))
    (wf' : WellFormed h' (L.request size sbrk)) (hlive : (a, ⟨n, false⟩) ∈ L.blocks) :
    (a, ⟨n, false⟩) ∈ (L.request size sbrk).blocks ∧ Untouched h.mem h'.mem a n := by
  have wf₀ := hc.wellFormed wf
  unfold Layout.request at wf' ⊢
  split at wf'
  next hmax =>
    rw [if_pos hmax]
    obtain ⟨c, k, hck⟩ : ∃ c k, L.handed (roundedSize size) sbrk = (c, k) := ⟨_, _, rfl⟩
    -- the layout afterwards has no block smaller than a header and a footer
    have hk : 48 ≤ k :=
      wf'.ok.block_min (c := ⟨k, false⟩) (Layout.mem_blocks_handed.mpr (Or.inr hck.symm))
    have hgrow : L.firstFree (roundedSize size) = none → ApartChunk h₀.sentinel L sbrk := by
      intro hnone
      rw [Layout.allocate_of_none (Layout.firstFit_of_firstFree hnone)] at wf'
      rw [← (allocateObject_static heq).1]
      exact wf'.ok.apartChunk
    obtain ⟨h₁, heq', hd⟩ := wf₀.allocateObject_handed hck hk hmax hgrow
    obtain ⟨-, rfl⟩ := Prod.mk.inj (Option.some.inj (heq.symm.trans heq'))
    refine ⟨Layout.mem_blocks_handed.mpr (Or.inl hlive), ?_⟩
    rw [← hc.mem_eq]
    exact hd.others a n hlive
  next hmax =>
    rw [if_neg hmax]
    rw [WellFormed.allocateObject_oversized (Nat.lt_of_not_le hmax)] at heq
    obtain ⟨-, rfl⟩ := Prod.mk.inj (Option.some.inj heq)
    refine ⟨hlive, fun x _ _ => ?_⟩
    rw [hc.mem_eq]

/-- **One section of another thread** leaves an owned block in use, with its bytes. -/
theorem keeps (hs : OtherSection own s t) {a n : Nat} (hown : a ∈ own)
    (hlive : (a, ⟨n, false⟩) ∈ s.2.blocks) :
    (a, ⟨n, false⟩) ∈ t.2.blocks ∧ Untouched s.1.mem t.1.mem a n := by
  cases hs with
  | allocate wf hc heq wf' => exact keeps_allocate wf hc heq wf' hlive
  | @free h h₀ h' L b wf hc hb hnot heq wf' =>
    have hne : a ≠ b := fun he => hnot (he ▸ hown)
    obtain ⟨k, hblock⟩ := hb
    obtain ⟨m', heq', hframe, -⟩ := freeObject_sound (hc.wellFormed wf) hblock
    obtain rfl := Option.some.inj (heq.symm.trans heq')
    refine ⟨Layout.mem_blocks_release.mpr ⟨hlive, by simpa using hne⟩, ?_⟩
    rw [← hc.mem_eq]
    exact hframe.others a n hlive hne
  | freeNull wf hc =>
    refine ⟨hlive, fun x _ _ => ?_⟩
    rw [hc.mem_eq]
  | @write h L b k m wf hb hnot hm =>
    refine ⟨hlive, fun x hx hx' => hm x ?_⟩
    rcases wf.ok.block_disjoint hlive hb with ⟨he, -⟩ | hsep | hsep
    · exact absurd (he ▸ hown) hnot
    · simp only at hsep
      omega
    · simp only at hsep
      omega

end OtherSection

section Sections

variable {own : List Nat} {s t : Heap × Layout}

theorem wellFormed_of_sections (hs : ReflTransGen (OtherSection own) s t)
    (wf : WellFormed s.1 s.2) : WellFormed t.1 t.2 := by
  cases hs with
  | refl => exact wf
  | tail _ hstep => exact hstep.after

/-- **Any number of sections of other threads** leave an owned block in use, with its bytes. -/
theorem keeps_of_sections (hs : ReflTransGen (OtherSection own) s t) {a n : Nat} (hown : a ∈ own)
    (hlive : (a, ⟨n, false⟩) ∈ s.2.blocks) :
    (a, ⟨n, false⟩) ∈ t.2.blocks ∧ Untouched s.1.mem t.1.mem a n := by
  induction hs with
  | refl => exact ⟨hlive, fun _ _ _ => rfl⟩
  | tail _ hstep ih =>
    obtain ⟨hlive', hsame⟩ := hstep.keeps hown ih.1
    exact ⟨hlive', ih.2.trans hsame⟩

/-- Other threads have no section on a heap that is not well formed. -/
theorem sections_of_not_wellFormed (hs : ReflTransGen (OtherSection own) s t)
    (hwf : ¬WellFormed s.1 s.2) : t = s := by
  rcases hs.cases_head with rfl | ⟨u, hstep, -⟩
  · rfl
  · exact absurd hstep.before hwf

end Sections

/-! ### The three steps of `realloc` -/

/-- What a call of `realloc` leaves that has moved the block of `n` bytes at `a`
to the `k` bytes at `c`. `L` is the layout when it freed the old block, `h₃` and
`h₄` are the heaps before and after that. -/
structure Reallocated (m₀ : ByteMem) (h₃ h₄ : Heap) (L : Layout) (a n c k size : Nat) : Prop where
  /-- The new block is in use and has room. -/
  live : (c, ⟨k, false⟩) ∈ L.blocks
  room : size + 48 ≤ k
  /-- It does not overlap another block in use. -/
  disjoint : ∀ b j, (b, ⟨j, false⟩) ∈ L.blocks → b ≠ c → b + j ≤ c ∨ c + k ≤ b
  /-- It holds what the old block held when `realloc` was called. -/
  contents : ∀ i, i < size → i < n - 48 → h₄.mem (c + 32 + i) = m₀ (a + 32 + i)
  /-- The old block is free, and all others are untouched. -/
  freed : Freed h₄ a n
  others : ∀ b j, (b, ⟨j, false⟩) ∈ L.blocks → b ≠ a → Untouched h₃.mem h₄.mem b j

/-- `realloc` of the block of `n` bytes at `a` gets a new block. Whatever sections
other threads run before and after the copy, the copy and the release go
through, and the new block holds the contents of the old one. -/
def ReallocPreserves (h : Heap) (L : Layout) (sbrk a n size : Nat) : Prop :=
  ∃ c k h₁ L₁, allocateObject { h with reallocCalls := h.reallocCalls + 1 } sbrk size
      = some (c + 32, h₁) ∧ L₁ = (L.allocate (roundedSize size) sbrk).2 ∧
    ∀ h₂ L₂, ReflTransGen (OtherSection [a, c]) (h₁, L₁) (h₂, L₂) →
      ∃ m, reallocCopy h₂.mem (c + 32) (a + 32) size = some m ∧
        ∀ h₃ L₃, ReflTransGen (OtherSection [a, c]) ({ h₂ with mem := m }, L₂) (h₃, L₃) →
          ∃ h₄, freeObject h₃ (a + 32) = some h₄ ∧ Reallocated h.mem h₃ h₄ L₃ a n c k size

/-- The release of the old block, on a well-formed heap or right after the copy:
a heap that is not well formed admits no section of another thread. -/
theorem Handed.release {m₀ m : ByteMem} {h₁ h₂ h₃ : Heap} {L L₁ L₂ L₃ : Layout} {a n c k : Nat}
    (hd : Handed m₀ h₁ L c k) (hlive : (a, ⟨n, false⟩) ∈ L.blocks)
    (hblocks : ∀ b j, (b, ⟨j, false⟩) ∈ L₁.blocks ↔
      (b, ⟨j, false⟩) ∈ L.blocks ∨ (b = c ∧ j = k))
    (hs : ReflTransGen (OtherSection [a, c]) (h₁, L₁) (h₂, L₂))
    (hout : ∀ x, x < c + 32 ∨ c + k - 16 ≤ x → m x = h₂.mem x)
    (hs' : ReflTransGen (OtherSection [a, c]) ({ h₂ with mem := m }, L₂) (h₃, L₃)) :
    ∃ m', freeObject h₃ (a + 32) = some { h₃ with mem := m' } ∧
      (∀ b j, (b, ⟨j, false⟩) ∈ L₃.blocks → b ≠ a → Untouched h₃.mem m' b j) ∧
      Freed { h₃ with mem := m' } a n ∧
      ∀ b j, (b, ⟨j, false⟩) ∈ L₃.blocks → b ≠ c → b + j ≤ c ∨ c + k ≤ b := by
  have hc₁ : (c, ⟨k, false⟩) ∈ L₁.blocks := (hblocks c k).mpr (Or.inr ⟨rfl, rfl⟩)
  obtain ⟨ha₂, -⟩ := keeps_of_sections hs (by simp) ((hblocks a n).mpr (Or.inl hlive))
  obtain ⟨hc₂, -⟩ := keeps_of_sections hs (by simp) hc₁
  by_cases wf₁ : WellFormed h₁ L₁
  · have wf₂ := wellFormed_of_sections hs wf₁
    have wf₃ := wellFormed_of_sections hs' (wf₂.write_payload hc₂ hout)
    obtain ⟨ha₃, -⟩ := keeps_of_sections hs' (by simp) ha₂
    obtain ⟨hc₃, -⟩ := keeps_of_sections hs' (by simp) hc₂
    obtain ⟨H, mid, front, back, m', rfl, mg, -⟩ := wf₃.extended.freeObject_merges ha₃
    refine ⟨m', mg.returns, (mg.freeFrame wf₃.extended).others, mg.freed wf₃.extended, ?_⟩
    intro b j hb hne
    rcases wf₃.ok.block_disjoint hb hc₃ with ⟨he, -⟩ | hsep
    · exact absurd he hne
    · exact hsep
  · obtain ⟨rfl, rfl⟩ := Prod.mk.inj (sections_of_not_wellFormed hs wf₁)
    have hwrite : ¬WellFormed { h₂ with mem := m } L₂ := by
      intro wfm
      exact wf₁ (wfm.write_payload hc₁ fun x hx => (hout x hx).symm)
    obtain ⟨rfl, rfl⟩ := Prod.mk.inj (sections_of_not_wellFormed hs' hwrite)
    obtain ⟨m', hfree, hframe, huntouched, hfreed⟩ := hd.frees m a n hout hlive
    refine ⟨m', hfree, ?_, hfreed, ?_⟩
    · intro b j hb hne
      rcases (hblocks b j).mp hb with hold | ⟨rfl, rfl⟩
      · exact hframe.others b j hold hne
      · exact huntouched
    · intro b j hb hne
      rcases (hblocks b j).mp hb with hold | ⟨rfl, -⟩
      · exact hd.apart b j hold
      · exact absurd rfl hne

/-- **`realloc` among other threads** preserves the contents of a live block, for
every request that is not refused. -/
theorem realloc_concurrent {h : Heap} {L : Layout} {sbrk a n size : Nat} (wf : WellFormed h L)
    (hlive : (a, ⟨n, false⟩) ∈ L.blocks) (hsize : size ≤ 2097152)
    (hsbrk : ApartChunk h.sentinel L sbrk) : ReallocPreserves h L sbrk a n size := by
  have hwrap : size + 55 < 2 ^ 64 := by omega
  obtain ⟨hmin, hround, -⟩ := roundedSize_bounds hwrap
  have wf' := Counted.wellFormed (.realloc h) wf
  obtain ⟨c, k, hck⟩ : ∃ c k, L.handed (roundedSize size) sbrk = (c, k) := ⟨_, _, rfl⟩
  have hk : roundedSize size ≤ k := by
    have := Layout.le_snd_handed (roundedSize size) sbrk L
    rwa [hck] at this
  obtain ⟨h₁, heq, hd⟩ := wf'.allocateObject_handed hck (by omega)
    ((roundedSize_le_iff hwrap).mpr hsize) fun _ => hsbrk
  obtain ⟨L₁, hL₁⟩ : ∃ L₁, L₁ = (L.allocate (roundedSize size) sbrk).2 := ⟨_, rfl⟩
  -- the blocks in use are the old ones and the new one
  have hblocks : ∀ b j, (b, ⟨j, false⟩) ∈ L₁.blocks ↔
      (b, ⟨j, false⟩) ∈ L.blocks ∨ (b = c ∧ j = k) := by
    intro b j
    rw [hL₁, Layout.mem_blocks_handed, hck, Prod.mk.injEq]
  refine ⟨c, k, h₁, L₁, heq, hL₁, fun h₂ L₂ hs => ?_⟩
  have ha₁ : (a, ⟨n, false⟩) ∈ L₁.blocks := (hblocks a n).mpr (Or.inl hlive)
  have hc₁ : (c, ⟨k, false⟩) ∈ L₁.blocks := (hblocks c k).mpr (Or.inr ⟨rfl, rfl⟩)
  have hkeep : Untouched h.mem h₁.mem a n := hd.others a n hlive
  have hroom : size + 48 ≤ k := by omega
  obtain ⟨-, hsame₂⟩ := keeps_of_sections hs (by simp) ha₁
  obtain ⟨hc₂, -⟩ := keeps_of_sections hs (by simp) hc₁
  have hn : 48 ≤ n := wf.ok.block_min hlive
  have hsize₂ : sizeAt h₂.mem a = n :=
    (sizeAt_congr fun x hx hx' => (hkeep.trans hsame₂) x hx (by omega)).trans
      (wf.header_size hlive)
  obtain ⟨m, hm⟩ : ∃ m, m = h₂.mem.copy (c + 32) (a + 32) (min size n) := ⟨_, rfl⟩
  have hout : ∀ x, x < c + 32 ∨ c + k - 16 ≤ x → m x = h₂.mem x := by
    intro x hx
    rw [hm]
    exact ByteMem.copy_outside _ _ (by omega)
  refine ⟨m, hm ▸ reallocCopy_eq hsize₂ c size, fun h₃ L₃ hs' => ?_⟩
  obtain ⟨hc₃, hsame₃⟩ := keeps_of_sections hs' (by simp) hc₂
  obtain ⟨m', hfree, hothers, hfreed, hdisjoint⟩ := hd.release hlive hblocks hs hout hs'
  have hsep := hd.apart a n hlive
  have hca : c ≠ a := by omega
  refine ⟨_, hfree, hc₃, hroom, hdisjoint, fun i hi hin => ?_, hfreed, hothers⟩
  show m' (c + 32 + i) = h.mem (a + 32 + i)
  calc m' (c + 32 + i) = h₃.mem (c + 32 + i) := hothers c k hc₃ hca _ (by omega) (by omega)
    _ = m (c + 32 + i) := hsame₃ _ (by omega) (by omega)
    _ = h₂.mem (a + 32 + i) := by rw [hm, ByteMem.copy_inside _ _ (by omega)]
    _ = h.mem (a + 32 + i) := (hkeep.trans hsame₂) _ (by omega) (by omega)

/-- The first block of the small heap, moved to 200 bytes. -/
theorem realloc_concurrent_sample :
    ReallocPreserves sampleHeap sampleLayout 2101344 4112 152 200 :=
  realloc_concurrent sampleHeap_spec.1 (by decide) (by decide) sampleHeap_apart

end Cs252.Malloc
