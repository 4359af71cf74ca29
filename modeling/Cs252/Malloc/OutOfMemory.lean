import Cs252.Malloc.Integrity
import Cs252.Malloc.Requests
import Cs252.Malloc.Sections

/-!
# Cs252.Malloc.OutOfMemory

What a call does when `sbrk` fails.

`get_memory_from_os` counts a chunk before it has the answer of `sbrk`, and
`allocate_object` lays a chunk out wherever the answer points, also at
`(void *) -1`. Its first store is then to address 7, a fault, and the call does
not return (`run_of_refusal`).

What remains are the requests that `allocate_object` refuses by their size,
without asking `sbrk`. `outOfMemory_iff` says that these are all.
-/

namespace Cs252.Malloc

/-! ### The heap afterwards -/

/-- The heap serves its client: any call for a request that fits a free block
succeeds, whatever `sbrk` answers. -/
def StillServes (h : Heap) (L : Layout) : Prop :=
  ∀ (c : Call) (sbrk size : Nat), c.request = some size → size ≤ 2097152 →
    L.firstFree (roundedSize size) ≠ none → (c.released = NULL ∨ L.LivePtr c.released) →
    ∃ ptr h', c.run h sbrk = some (ptr, h') ∧ ptr ≠ NULL

/-- `h'` is left by a call on `h` that has done no harm. -/
structure Harmless (h h' : Heap) (L : Layout) : Prop where
  outside : ∀ x, (∀ d ∈ L, x < d.base ∨ d.base + 2097248 ≤ x) → h'.mem x = h.mem x
  heap : WellFormed h' L
  total : h'.heapSize = h.heapSize
  serves : StillServes h' L

/-- Out of memory is reported: when `sbrk` fails, the call returns `NULL` and has
done no harm. -/
def Reported (h : Heap) (L : Layout) (c : Call) : Prop :=
  ∃ h', c.run h sbrkFailed = some (NULL, h') ∧ Harmless h h' L

/-! ### Calls and `allocate_object` -/

theorem Counted.heapSize_eq {h h₀ : Heap} (hc : Counted h h₀) : h₀.heapSize = h.heapSize := by
  cases hc <;> rfl

namespace Call

variable {h h' : Heap} {c : Call} {sbrk size q : Nat}

/-- A call that gives nothing up returns what `allocate_object` does. -/
theorem run_of_allocate (hreq : c.request = some size) (hc : c.released = NULL) (sbrk : Nat) :
    ∃ h₀, Counted h h₀ ∧ ∀ q h₁, allocateObject h₀ sbrk size = some (q, h₁) →
      ∃ h', c.run h sbrk = some (q, h') ∧ (q = NULL → h' = h₁) := by
  cases c with
  | malloc n =>
    obtain rfl := Option.some.inj hreq
    exact ⟨_, .malloc h, fun q h₁ heq => ⟨h₁, heq, fun _ => rfl⟩⟩
  | calloc n m =>
    obtain rfl := Option.some.inj hreq
    refine ⟨_, .calloc h, fun q h₁ heq => ?_⟩
    by_cases hq : q = NULL
    · subst hq
      exact ⟨h₁, calloc_of_refused rfl heq, fun _ => rfl⟩
    · exact ⟨_, calloc_of_allocate rfl heq hq, fun hnull => absurd hnull hq⟩
  | realloc p n =>
    obtain rfl := Option.some.inj hreq
    obtain rfl : p = NULL := hc
    exact ⟨_, .realloc h, fun q h₁ heq => ⟨h₁, realloc_null heq, fun _ => rfl⟩⟩
  | free p => cases hreq

/-- A call that returns has been served by `allocate_object`. -/
theorem allocate_of_run (hreq : c.request = some size) (heq : c.run h sbrk = some (q, h')) :
    ∃ h₀ h₁, Counted h h₀ ∧ allocateObject h₀ sbrk size = some (q, h₁) := by
  cases c with
  | malloc n =>
    obtain rfl := Option.some.inj hreq
    exact ⟨_, h', .malloc h, heq⟩
  | calloc n m =>
    obtain rfl := Option.some.inj hreq
    simp only [run, Malloc.calloc] at heq
    split at heq
    · cases heq
    next p h₁ halloc =>
      refine ⟨_, h₁, .calloc h, ?_⟩
      split at heq
      all_goals
        obtain ⟨rfl, rfl⟩ := Prod.mk.inj (Option.some.inj heq)
        exact halloc
  | realloc p n =>
    obtain rfl := Option.some.inj hreq
    obtain ⟨h₁, halloc⟩ := allocateObject_of_realloc heq
    exact ⟨_, h₁, .realloc h, halloc⟩
  | free p => cases hreq

end Call

namespace WellFormed

variable {h h' : Heap} {L : Layout} {c : Call} {sbrk size q : Nat}

/-- Every well-formed heap serves its client. -/
theorem stillServes (wf : WellFormed h L) : StillServes h L := by
  intro c sbrk size hreq hsize hfit hptr
  have hmax : roundedSize size ≤ 2097200 := (roundedSize_le_iff (by omega)).mpr hsize
  by_cases hnull : c.released = NULL
  · obtain ⟨h₀, hcount, hrun⟩ := c.run_of_allocate (h := h) hreq hnull sbrk
    obtain ⟨a, h₁, heq⟩ := (hcount.wellFormed wf).allocateObject_served hmax (Or.inr hfit)
    obtain ⟨h', heq', -⟩ := hrun _ _ heq
    exact ⟨_, h', heq', payload_ne_null a⟩
  · obtain ⟨a, hlive, n, hblock⟩ := hptr.resolve_left hnull
    cases c with
    | realloc p k =>
      obtain rfl : p = a + 32 := hlive
      obtain rfl := Option.some.inj hreq
      obtain ⟨b, j, hbj⟩ : ∃ b j, L.handed (roundedSize k) sbrk = (b, j) := ⟨_, _, rfl⟩
      obtain ⟨h', heq, -⟩ := wf.realloc_moves hblock hsize hbj fun hnone => absurd hnone hfit
      exact ⟨_, h', heq, payload_ne_null b⟩
    | free p => cases hreq
    | malloc k => exact absurd rfl hnull
    | calloc k l => exact absurd rfl hnull

/-- **What the code does when `sbrk` fails.** A call that asks `sbrk` does not return. -/
theorem run_of_refusal (wf : WellFormed h L) (hreq : c.request = some size)
    (hfit : L.firstFree (roundedSize size) = none) (hmax : roundedSize size ≤ 2097200) :
    c.run h sbrkFailed = none := by
  cases heq : c.run h sbrkFailed with
  | none => rfl
  | some r =>
    obtain ⟨h₀, h₁, hcount, halloc⟩ := Call.allocate_of_run hreq heq
    rw [(hcount.wellFormed wf).allocateObject_faults hmax (Layout.firstFree_eq_none.mp hfit)]
      at halloc
    cases halloc

/-- A request that is refused by its size, in a call that gives nothing up. -/
theorem reported_of_oversized (wf : WellFormed h L) (hreq : c.request = some size)
    (hnull : c.released = NULL) (hbig : 2097200 < roundedSize size) : Reported h L c := by
  obtain ⟨h₀, hcount, hrun⟩ := c.run_of_allocate (h := h) hreq hnull sbrkFailed
  obtain ⟨h', heq, hsame⟩ := hrun _ _ (allocateObject_oversized hbig)
  obtain rfl := hsame rfl
  have wf' := hcount.wellFormed wf
  exact ⟨_, heq, fun x _ => by rw [hcount.mem_eq], wf', hcount.heapSize_eq, wf'.stillServes⟩

end WellFormed

/-- **When out of memory is reported.** If no free block can serve a request and
`sbrk` fails, exactly when the request is refused by its size and no block is to
be given up for it. -/
theorem outOfMemory_iff {h : Heap} {L : Layout} {c : Call} {size : Nat} (wf : WellFormed h L)
    (hreq : c.request = some size) (hfit : L.firstFree (roundedSize size) = none)
    (hptr : c.released = NULL ∨ L.LivePtr c.released) :
    Reported h L c ↔ 2097200 < roundedSize size ∧ c.released = NULL := by
  constructor
  · intro hreported
    obtain ⟨h', heq, -⟩ := hreported
    have hbig : 2097200 < roundedSize size := by
      by_contra hle
      rw [wf.run_of_refusal hreq hfit (Nat.le_of_not_lt hle)] at heq
      cases heq
    refine ⟨hbig, ?_⟩
    rcases hptr with hnull | ⟨a, hlive, n, hblock⟩
    · exact hnull
    · -- a block in use is given up by `realloc` alone, which copies to the null pointer
      cases c with
      | realloc p k =>
        obtain rfl : p = a + 32 := hlive
        obtain rfl := Option.some.inj hreq
        have hret := (wf.realloc_returned hblock heq).1
        omega
      | free p => cases hreq
      | malloc k => rfl
      | calloc k l => rfl
  · intro hrefused
    obtain ⟨hbig, hnull⟩ := hrefused
    exact wf.reported_of_oversized hreq hnull hbig

/-- `calloc` of 3 MB and 1 byte is refused. -/
theorem outOfMemory_calloc : Reported sampleHeap sampleLayout (.calloc 3 1048577) :=
  (outOfMemory_iff sampleHeap_spec.1 rfl (by decide) (Or.inl rfl)).mpr ⟨by decide, rfl⟩

/-- `malloc` of 2 MB faults when `sbrk` fails. -/
theorem outOfMemory_malloc :
    ¬Reported sampleHeap sampleLayout (.malloc 2097152) ∧
      malloc sampleHeap sbrkFailed 2097152 = none := by
  have hsize : roundedSize 2097152 = 2097200 := by decide
  have hfit : sampleLayout.firstFree (roundedSize 2097152) = none := by
    rw [hsize]
    decide
  have hfault : malloc sampleHeap sbrkFailed 2097152 = none :=
    sampleHeap_spec.1.run_of_refusal (c := .malloc 2097152) rfl hfit (by rw [hsize])
  refine ⟨?_, hfault⟩
  intro hreported
  obtain ⟨h', heq, -⟩ := hreported
  rw [Call.run, hfault] at heq
  cases heq

end Cs252.Malloc
