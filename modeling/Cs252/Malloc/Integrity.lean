import Cs252.Lib.Transition
import Cs252.Malloc.FreeOrder
import Cs252.Malloc.Realloc

/-!
# Cs252.Malloc.Integrity

Heap integrity over whole runs.

A run starts with `initialize` and makes calls to the C interface, with any
sizes; pointers passed to `free` and `realloc` are live or null. `sbrk` answers
every time with memory above the heap. `Good` ties the heap to a layout and to
the pointers the client holds.

Two defects break it, and `Guarded` is the condition under which a call reaches
neither. `rounded_size` and the product in `calloc` wrap. And a new chunk is cut
at `rounded_size` without the check made for a block of the free list, so that
for requests of 2097105 to 2097144 bytes the rest of the chunk is smaller than a
header and footer, and its links are stored over the end fencepost.
-/

namespace Cs252.Malloc

open Tiling LinkedRing

/-! ### Runs -/

/-- A call to the C interface. -/
inductive Call
  | malloc (size : Nat)
  | calloc (numElems elemSize : Nat)
  | realloc (ptr size : Nat)
  | free (ptr : Nat)

namespace Call

/-- Make the call. A call of `free` has no result, written as `NULL`. -/
def run (h : Heap) (sbrk : Nat) : Call → Option (Nat × Heap)
  | malloc size => Malloc.malloc h sbrk size
  | calloc numElems elemSize => Malloc.calloc h sbrk numElems elemSize
  | realloc ptr size => Malloc.realloc h sbrk ptr size
  | free ptr => (Malloc.free h ptr).map fun h => (NULL, h)

/-- The pointer the call gives up. -/
def released : Call → Nat
  | realloc ptr _ => ptr
  | free ptr => ptr
  | _ => NULL

/-- The live pointers after the call, from those before and the result. -/
def liveAfter (c : Call) (live : List Nat) (result : Nat) : List Nat :=
  let rest := live.erase c.released
  if result = NULL then rest else result :: rest

/-- The bytes asked of `allocate_object`, if any. -/
def request : Call → Option Nat
  | malloc size => some size
  | calloc numElems elemSize => some (numElems * elemSize % 2 ^ 64)
  | realloc _ size => some size
  | free _ => none

end Call

/-- A heap and the pointers its client holds. -/
structure Client where
  heap : Heap
  live : List Nat

/-- The answer of `sbrk`: memory for a chunk at a multiple of 8, above the
sentinel and all chunks handed out so far. -/
structure SbrkOk (sentinel : Nat) (osChunks : List Nat) (base : Nat) : Prop where
  aligned : 8 ∣ base
  above : ∀ b ∈ osChunks, b + 2097248 ≤ base
  bound : base + 2097248 ≤ 2 ^ 64
  sentinel_below : sentinel + 32 ≤ base

/-- One call: a released pointer is live or null, and `sbrk` answers properly. -/
def ClientStep (guard : Heap → Call → Prop) (s t : Client) : Prop :=
  ∃ (c : Call) (sbrk result : Nat),
    (c.released ∈ s.live ∨ c.released = NULL) ∧ SbrkOk s.heap.sentinel s.heap.osChunks sbrk ∧
      guard s.heap c ∧ c.run s.heap sbrk = some (result, t.heap) ∧
      t.live = c.liveAfter s.live result

/-- The allocator under any client whose calls satisfy `guard`. -/
def clientSystem (guard : Heap → Call → Prop) : System Client where
  init s := ∃ m sentinel base, SbrkOk sentinel [] base ∧
    s = ⟨initializeHeap (Heap.static m sentinel) base, []⟩
  step := ClientStep guard

/-- The free list, as `print_list` shows it, has an entry of at least `r` bytes. -/
def Offers (h : Heap) (r : Nat) : Prop :=
  ∃ entries, printList h = some entries ∧ ∃ e ∈ entries, r ≤ e.2

/-- The call reaches neither defect: the rounded request does not wrap, and for
a request that would leave 8 to 40 bytes of a new chunk there is a free block. -/
def Guarded (h : Heap) (c : Call) : Prop :=
  ∀ size ∈ c.request, size + 55 < 2 ^ 64 ∧
    (2097104 < size → size < 2097145 → Offers h (roundedSize size))

/-! ### What holds after every call -/

/-- The heap represents the layout `L`: chunks tiled exactly between their
fenceposts by blocks with agreeing boundary tags, no two neighbours free, the
free list a ring through exactly the free blocks in ascending order
(`WellFormed`). Block sizes and addresses are multiples of 8, the sentinel is
below the heap, and the live pointers are those of the blocks in use. -/
structure Good (h : Heap) (live : List Nat) (L : Layout) : Prop where
  wf : WellFormed h L
  aligned : Aligned L
  below : SentinelBelow h.sentinel L
  live_iff : ∀ p, p ∈ live ↔ L.LivePtr p
  nodup : live.Nodup

theorem SbrkOk.fresh {h : Heap} {L : Layout} {base : Nat} (wf : WellFormed h L)
    (ok : SbrkOk h.sentinel h.osChunks base) : FreshChunk h.sentinel L base := by
  refine ⟨fun c hc => ok.above _ ?_, ok.bound, Or.inl ok.sentinel_below⟩
  rw [wf.chunks]
  exact List.mem_map_of_mem hc

/-- Where a request that does not wrap finds no free block, a new chunk can be
cut for it, unless 8 to 40 bytes are left. -/
theorem restFits_of_size {size : Nat} (hwrap : size + 55 < 2 ^ 64) (hmax : roundedSize size ≤ 2097200)
    (hsize : size ≤ 2097104 ∨ 2097145 ≤ size) : RestFits (roundedSize size) := by
  unfold RestFits
  rw [roundedSize_eq] at hmax ⊢
  omega

theorem WellFormed.not_offers {h : Heap} {L : Layout} {r : Nat} (wf : WellFormed h L)
    (hnone : NoFit r L.blocks) : ¬Offers h r := by
  intro hoffers
  obtain ⟨entries, hprint, e, he, hle⟩ := hoffers
  obtain rfl := Option.some.inj (wf.printList_eq.symm.trans hprint)
  obtain ⟨a, ha, rfl⟩ := List.mem_map.mp he
  obtain ⟨c, hc, hfree⟩ := Layout.mem_freeAddrs.mp ha
  have hlt := hnone a c hc hfree
  simp only [wf.header_size hc] at hle
  omega

namespace Good

variable {h : Heap} {live : List Nat} {L : Layout} {sbrk size p : Nat}

/-- The null pointer is not live. -/
theorem null_not_live (good : Good h live L) : NULL ∉ live := by
  intro hmem
  obtain ⟨a, ha, -⟩ := (good.live_iff _).mp hmem
  unfold NULL at ha
  omega

theorem of_fields {h' : Heap} (good : Good h live L) (hmem : h'.mem = h.mem)
    (hsent : h'.sentinel = h.sentinel) (hfree : h'.freeList = h.freeList)
    (hchunks : h'.osChunks = h.osChunks) : Good h' live L := by
  refine ⟨good.wf.of_fields hmem hsent hfree hchunks, good.aligned, ?_, good.live_iff, good.nodup⟩
  rw [hsent]
  exact good.below

/-- The client may write to the usable bytes of a live block. -/
theorem write {m' : ByteMem} {a n : Nat} (good : Good h live L)
    (hblock : (a, ⟨n, false⟩) ∈ L.blocks)
    (hframe : ∀ x, x < a + 32 ∨ a + n - 16 ≤ x → m' x = h.mem x) :
    Good { h with mem := m' } live L :=
  ⟨good.wf.write_payload hblock hframe, good.aligned, good.below, good.live_iff, good.nodup⟩

/-- Releasing a live block. -/
theorem free (good : Good h live L) (hp : p ∈ live) :
    ∃ h' L', freeObject h p = some h' ∧ Good h' (live.erase p) L' := by
  obtain ⟨a, rfl, n, hblock⟩ := (good.live_iff p).mp hp
  obtain ⟨m', hfree, -, hwf⟩ := freeObject_sound good.wf hblock
  refine ⟨_, _, hfree, hwf good.below, good.aligned.release _, good.below.release _, ?_,
    good.nodup.erase _⟩
  intro q
  rw [good.nodup.mem_erase_iff, good.live_iff]
  constructor
  · intro hq
    obtain ⟨hne, b, rfl, hb⟩ := hq
    have hba : b ≠ a := fun he => hne (by rw [he])
    exact Layout.livePtr_release.mpr ⟨⟨b, rfl, hb⟩, by simpa using hba⟩
  · intro hq
    obtain ⟨b, rfl, hb⟩ := hq
    obtain ⟨hlive, hba⟩ := Layout.live_release.mp hb
    have hba' : b ≠ a := by simpa using hba
    exact ⟨fun he => hba' (by omega), b, rfl, hlive⟩

/-- A request that reaches neither defect is refused or gets a live block of its own. -/
theorem allocate (good : Good h live L) (hsbrk : SbrkOk h.sentinel h.osChunks sbrk)
    (hwrap : size + 55 < 2 ^ 64)
    (hrest : 2097104 < size → size < 2097145 → Offers h (roundedSize size)) :
    (2097152 < size ∧ allocateObject h sbrk size = some (NULL, h)) ∨
    (size ≤ 2097152 ∧ ∃ a n h' L', allocateObject h sbrk size = some (a + 32, h') ∧
      Good h' ((a + 32) :: live) L' ∧ (a, ⟨n, false⟩) ∈ L'.blocks ∧ size + 48 ≤ n ∧
      a + 32 ∉ live) := by
  obtain ⟨hmin, hround, -⟩ := roundedSize_bounds hwrap
  have hle := roundedSize_le_iff hwrap
  by_cases hmax : roundedSize size ≤ 2097200
  · right
    have hgrow : L.firstFit (roundedSize size) = none →
        FreshChunk h.sentinel L sbrk ∧ RestFits (roundedSize size) := by
      intro hfit
      refine ⟨hsbrk.fresh good.wf, ?_⟩
      rcases Layout.firstFit_cases (roundedSize size) L with ⟨H, n, -, -, -, heq⟩ | ⟨hnone, -⟩
      · rw [hfit] at heq
        exact absurd heq (by simp)
      · by_cases hsmall : size ≤ 2097104 ∨ 2097145 ≤ size
        · exact restFits_of_size hwrap hmax hsmall
        · exact absurd (hrest (by omega) (by omega)) (good.wf.not_offers hnone)
    obtain ⟨h', heq, hsent, wf'⟩ := good.wf.allocateObject_sound (by omega) hmax hgrow
    obtain ⟨k, hk, hblocks⟩ := Layout.mem_blocks_allocate (roundedSize size) sbrk L
    have hnew := good.wf.not_live_allocate fun hfit => (hgrow hfit).1
    have hnot : (L.allocate (roundedSize size) sbrk).1 + 32 ∉ live := by
      intro hmem
      obtain ⟨a, ha, hlive⟩ := (good.live_iff _).mp hmem
      exact hnew ((Nat.add_right_cancel ha) ▸ hlive)
    refine ⟨hle.mp hmax, _, k, h', _, heq, ⟨wf', ?_, ?_, ?_, ?_⟩, ?_, by omega, hnot⟩
    · exact good.aligned.allocate (dvd_roundedSize size) hsbrk.aligned
    · intro c hc
      rw [hsent]
      rcases Layout.base_of_mem_allocate hc with ⟨d, hd, hbase⟩ | hbase
      · exact hbase ▸ good.below d hd
      · have := hsbrk.sentinel_below
        omega
    · intro q
      rw [List.mem_cons, good.live_iff]
      constructor
      · intro hq
        rcases hq with rfl | ⟨a, rfl, n, hn⟩
        · exact ⟨_, rfl, k, (hblocks _ _).mpr (Or.inr ⟨rfl, rfl⟩)⟩
        · exact ⟨a, rfl, n, (hblocks _ _).mpr (Or.inl hn)⟩
      · intro hq
        obtain ⟨a, rfl, n, hn⟩ := hq
        rcases (hblocks _ _).mp hn with hold | ⟨rfl, -⟩
        · exact Or.inr ⟨a, rfl, n, hold⟩
        · exact Or.inl rfl
    · exact List.nodup_cons.mpr ⟨hnot, good.nodup⟩
    · exact (hblocks _ _).mpr (Or.inr ⟨rfl, rfl⟩)
  · left
    have hbig := mt hle.mpr hmax
    exact ⟨by omega, WellFormed.allocateObject_oversized (by omega)⟩

/-- What a call leaves: a result, and a heap that is good for the pointers the
client holds then. -/
def Returns (c : Call) (h : Heap) (live : List Nat) (sbrk : Nat) : Prop :=
  ∃ result h' L', c.run h sbrk = some (result, h') ∧ Good h' (c.liveAfter live result) L'

/-- The list of live pointers after a call that gives up nothing. -/
theorem liveAfter_of_null {c : Call} (good : Good h live L) (hc : c.released = NULL) (result : Nat) :
    c.liveAfter live result = if result = NULL then live else result :: live := by
  rw [Call.liveAfter, hc, List.erase_of_not_mem good.null_not_live]

/-- A call that gives nothing up and only allocates, once it has been counted. -/
theorem returns_of_allocate {c : Call} {h₁ : Heap} (good : Good h₁ live L)
    (hsbrk : SbrkOk h₁.sentinel h₁.osChunks sbrk) (hguard : Guarded h₁ c) (hc : c.released = NULL)
    (hsize : c.request = some size) (hrun : c.run h sbrk = allocateObject h₁ sbrk size) :
    Returns c h live sbrk := by
  obtain ⟨hwrap, hrest⟩ := hguard size hsize
  rcases good.allocate hsbrk hwrap hrest with ⟨-, heq⟩ | ⟨-, a, n, h', L', heq, hgood, -⟩
  · refine ⟨NULL, h₁, L, hrun.trans heq, ?_⟩
    rw [good.liveAfter_of_null hc, if_pos rfl]
    exact good
  · refine ⟨a + 32, h', L', hrun.trans heq, ?_⟩
    rw [good.liveAfter_of_null hc, if_neg (payload_ne_null a)]
    exact hgood

theorem malloc_returns (good : Good h live L) (hsbrk : SbrkOk h.sentinel h.osChunks sbrk)
    (hguard : Guarded h (.malloc size)) : Returns (.malloc size) h live sbrk := by
  have good' : Good { h with mallocCalls := h.mallocCalls + 1 } live L :=
    good.of_fields rfl rfl rfl rfl
  exact good'.returns_of_allocate hsbrk hguard rfl rfl rfl

theorem calloc_returns {numElems elemSize : Nat} (good : Good h live L)
    (hsbrk : SbrkOk h.sentinel h.osChunks sbrk) (hguard : Guarded h (.calloc numElems elemSize)) :
    Returns (.calloc numElems elemSize) h live sbrk := by
  obtain ⟨k, hk⟩ : ∃ k, numElems * elemSize % 2 ^ 64 = k := ⟨_, rfl⟩
  obtain ⟨hwrap, hrest⟩ := hguard k (by rw [Call.request, hk]; rfl)
  have good' : Good { h with callocCalls := h.callocCalls + 1 } live L :=
    good.of_fields rfl rfl rfl rfl
  rcases good'.allocate hsbrk hwrap hrest with ⟨-, heq⟩ | ⟨-, a, n, h', L', heq, hgood, hblock, hn, -⟩
  · refine ⟨NULL, { h with callocCalls := h.callocCalls + 1 }, L, ?_, ?_⟩
    · exact calloc_of_refused hk heq
    · rw [good.liveAfter_of_null rfl, if_pos rfl]
      exact good'
  · refine ⟨a + 32, { h' with mem := h'.mem.fill (a + 32) 0 k }, L', ?_, ?_⟩
    · exact calloc_of_allocate hk heq (payload_ne_null a)
    · rw [good.liveAfter_of_null rfl, if_neg (payload_ne_null a)]
      refine hgood.write hblock fun x hx => ?_
      exact ByteMem.fill_outside _ _ (by omega)

/-- `free` of a live pointer or the null pointer. -/
theorem free_returns (good : Good h live L) (hp : p ∈ live ∨ p = NULL) :
    Returns (.free p) h live sbrk := by
  have good' : Good { h with freeCalls := h.freeCalls + 1 } live L :=
    good.of_fields rfl rfl rfl rfl
  by_cases hnull : p = NULL
  · refine ⟨NULL, { h with freeCalls := h.freeCalls + 1 }, L, ?_, ?_⟩
    · simp only [Call.run, Malloc.free, ne_eq, hnull, not_true_eq_false, if_false, Option.map_some]
    · rw [good.liveAfter_of_null (show Call.released (.free p) = NULL from hnull), if_pos rfl]
      exact good'
  · obtain ⟨h', L', heq, hgood⟩ := good'.free (hp.resolve_right hnull)
    refine ⟨NULL, h', L', ?_, hgood⟩
    simp only [Call.run, Malloc.free, ne_eq, hnull, not_false_eq_true, if_true, heq,
      Option.map_some]

/-- The copy of `realloc` to a new block and the release of the old one. -/
theorem copy_free {a n : Nat} (good : Good h ((a + 32) :: live) L)
    (hblock : (a, ⟨n, false⟩) ∈ L.blocks) (hn : size + 48 ≤ n) (hp : p ∈ live)
    (hnot : a + 32 ∉ live) :
    ∃ m h' L', reallocCopy h.mem (a + 32) p size = some m ∧
      freeObject { h with mem := m } p = some h' ∧ Good h' ((a + 32) :: live.erase p) L' := by
  obtain ⟨b, rfl, k, hlive⟩ := (good.live_iff p).mp (List.mem_cons_of_mem _ hp)
  have hcopy := reallocCopy_eq (good.wf.header_size hlive) a size
  have hwritten : Good { h with mem := h.mem.copy (a + 32) (b + 32) (min size k) }
      ((a + 32) :: live) L := good.write hblock fun x hx => ByteMem.copy_outside _ _ (by omega)
  obtain ⟨h', L', hfree, hgood⟩ := hwritten.free (List.mem_cons_of_mem _ hp)
  have hne : a + 32 ≠ b + 32 := fun heq => hnot (heq ▸ hp)
  rw [List.erase_cons_tail (by simpa using hne)] at hgood
  exact ⟨_, h', L', hcopy, hfree, hgood⟩

/-- `realloc` returns, but for a request that is refused: there it copies to the
null pointer. -/
theorem realloc_returns (good : Good h live L) (hp : p ∈ live ∨ p = NULL)
    (hsbrk : SbrkOk h.sentinel h.osChunks sbrk) (hguard : Guarded h (.realloc p size)) :
    Returns (.realloc p size) h live sbrk ∨
      (Malloc.realloc h sbrk p size = none ∧ p ≠ NULL ∧ 2097152 < size) := by
  obtain ⟨hwrap, hrest⟩ := hguard size rfl
  have good' : Good { h with reallocCalls := h.reallocCalls + 1 } live L :=
    good.of_fields rfl rfl rfl rfl
  by_cases hnull : p = NULL
  · left
    refine good'.returns_of_allocate hsbrk hguard hnull rfl ?_
    rw [Call.run, Malloc.realloc]
    cases allocateObject { h with reallocCalls := h.reallocCalls + 1 } sbrk size with
    | none => rfl
    | some r => exact if_neg (not_not.mpr hnull)
  · have hlive := hp.resolve_right hnull
    rcases good'.allocate hsbrk hwrap hrest with
      ⟨hbig, heq⟩ | ⟨-, a, n, h', L', heq, hgood, hblock, hn, hnot⟩
    · right
      obtain ⟨b, rfl, k, hblock⟩ := (good.live_iff p).mp hlive
      have hmax := mt (roundedSize_le_iff hwrap).mp (Nat.not_le.mpr hbig)
      exact ⟨good.wf.realloc_faults hblock (Nat.lt_of_not_le hmax) (by omega), hnull, hbig⟩
    · left
      obtain ⟨m, h'', L'', hcopy, hfree, hgood''⟩ := hgood.copy_free hblock hn hlive hnot
      refine ⟨a + 32, h'', L'', realloc_of_steps hnull heq hcopy hfree, ?_⟩
      rw [Call.liveAfter, if_neg (payload_ne_null a)]
      exact hgood''

/-- An admissible call that reaches neither defect returns and leaves a good
heap, unless it asks `realloc` to move a block for a request that is refused. -/
theorem call {c : Call} (good : Good h live L) (hc : c.released ∈ live ∨ c.released = NULL)
    (hsbrk : SbrkOk h.sentinel h.osChunks sbrk) (hguard : Guarded h c) :
    Returns c h live sbrk ∨
      (c.run h sbrk = none ∧ c.released ≠ NULL ∧ ∃ size, c.request = some size ∧ 2097152 < size) := by
  cases c with
  | malloc size => exact Or.inl (good.malloc_returns hsbrk hguard)
  | calloc numElems elemSize => exact Or.inl (good.calloc_returns hsbrk hguard)
  | realloc ptr size =>
    rcases good.realloc_returns hc hsbrk hguard with hret | ⟨hnone, hne, hbig⟩
    · exact Or.inl hret
    · exact Or.inr ⟨hnone, hne, size, rfl, hbig⟩
  | free ptr => exact Or.inl (good.free_returns hc)

end Good

/-- `initialize` leaves a good heap. -/
theorem good_initialize {m : ByteMem} {sentinel base : Nat} (ok : SbrkOk sentinel [] base) :
    ∃ L, Good (initializeHeap (Heap.static m sentinel) base) [] L := by
  have fresh : FreshChunk sentinel [] base := ⟨by simp, ok.bound, Or.inl ok.sentinel_below⟩
  have hlow := ok.sentinel_below
  have hhigh := ok.bound
  obtain ⟨n, hn⟩ : ∃ n, n = 2097200 := ⟨_, rfl⟩
  refine ⟨_, initialize_wellFormed fresh (by omega) hn, ⟨?_, ?_⟩, ?_, ?_, List.nodup_nil⟩
  · intro c hc
    obtain rfl := List.mem_singleton.mp hc
    exact ok.aligned
  · intro c hc b hb
    obtain rfl := List.mem_singleton.mp hc
    obtain rfl := List.mem_singleton.mp hb
    show 8 ∣ n
    omega
  · intro c hc
    obtain rfl := List.mem_singleton.mp hc
    rw [initializeHeap_sentinel]
    show sentinel < base
    omega
  · intro p
    refine ⟨fun hp => absurd hp List.not_mem_nil, ?_⟩
    rintro ⟨a, -, k, hk⟩
    simp at hk

/-- Calls that reach neither defect keep the heap good. -/
theorem clientSystem_invariant :
    (clientSystem Guarded).Invariant fun s => ∃ L, Good s.heap s.live L where
  init := by
    intro s hinit
    obtain ⟨m, sentinel, base, ok, rfl⟩ := hinit
    exact good_initialize ok
  step := by
    intro s t hs hstep
    obtain ⟨L, good⟩ := hs
    obtain ⟨c, sbrk, result, hc, hsbrk, hguard, hrun, hlive⟩ := hstep
    rcases good.call hc hsbrk hguard with ⟨result', h', L', hrun', hgood⟩ | ⟨hnone, -⟩
    · obtain ⟨rfl, rfl⟩ : result' = result ∧ h' = t.heap := by
        rw [hrun] at hrun'
        simpa [eq_comm] using hrun'
      exact ⟨L', hlive ▸ hgood⟩
    · rw [hrun] at hnone
      cases hnone

/-- **Heap integrity over whole runs.** After every call of a run whose calls
reach neither defect, the heap is good. The next call returns, unless it asks
`realloc` to move a block for a request that is refused. -/
theorem heap_integrity {s : Client} (hs : (clientSystem Guarded).Reachable s) :
    (∃ L, Good s.heap s.live L) ∧
    ∀ c sbrk, (c.released ∈ s.live ∨ c.released = NULL) →
      SbrkOk s.heap.sentinel s.heap.osChunks sbrk → Guarded s.heap c →
      (∃ result h', c.run s.heap sbrk = some (result, h')) ∨
        (c.released ≠ NULL ∧ ∃ size, c.request = some size ∧ 2097152 < size) := by
  obtain ⟨L, good⟩ := clientSystem_invariant.holds hs
  refine ⟨⟨L, good⟩, fun c sbrk hc hsbrk hguard => ?_⟩
  rcases good.call hc hsbrk hguard with ⟨result, h', L', hrun, -⟩ | ⟨-, hbig⟩
  · exact Or.inl ⟨result, h', hrun⟩
  · exact Or.inr hbig

/-! ### Two runs -/

namespace Client

/-- The client after a call that returns. -/
def call (s : Client) (c : Call) (sbrk : Nat) : Client :=
  match c.run s.heap sbrk with
  | some (result, h) => ⟨h, c.liveAfter s.live result⟩
  | none => s

/-- The client of a heap fresh from `initialize`. -/
def fresh : Client := ⟨freshHeap, []⟩

/-- Two calls that leave 8 bytes of a new chunk. -/
def overrun : Client := (fresh.call (.malloc 1) 2101344).call (.malloc 2097144) 2101344

theorem reachable_fresh {guard : Heap → Call → Prop} : (clientSystem guard).Reachable fresh :=
  .start ⟨_, 64, 4096, ⟨by decide, by simp, by decide, by decide⟩, rfl⟩

theorem reachable_call {guard : Heap → Call → Prop} {s : Client} {c : Call} {sbrk result : Nat}
    {h : Heap} (hs : (clientSystem guard).Reachable s) (hc : c.released ∈ s.live ∨ c.released = NULL)
    (hsbrk : SbrkOk s.heap.sentinel s.heap.osChunks sbrk) (hguard : guard s.heap c)
    (hrun : c.run s.heap sbrk = some (result, h)) : (clientSystem guard).Reachable (s.call c sbrk) := by
  refine .step hs ⟨c, sbrk, result, hc, hsbrk, hguard, ?_, ?_⟩ <;> rw [call, hrun]

end Client

/-- `sbrk` right above the chunk of `freshHeap`. -/
theorem sbrkOk_above {h : Heap} (hsent : h.sentinel = 64) (hchunks : h.osChunks = [4096]) :
    SbrkOk h.sentinel h.osChunks 2101344 := by
  rw [hsent, hchunks]
  refine ⟨by decide, fun b hb => ?_, by decide, by decide⟩
  obtain rfl := List.mem_singleton.mp hb
  decide

theorem heap_integrity_hundred :
    ∃ L, Good (Client.fresh.call (.malloc 100) 2101344).heap
      (Client.fresh.call (.malloc 100) 2101344).live L := by
  have hsbrk : SbrkOk freshHeap.sentinel freshHeap.osChunks 2101344 :=
    sbrkOk_above (initializeHeap_sentinel ..) (initializeHeap_osChunks ..)
  have hguard : Guarded freshHeap (.malloc 100) := by
    intro size hsize
    obtain rfl : 100 = size := by simpa [Call.request] using hsize
    exact ⟨by decide, fun h => absurd h (by decide)⟩
  obtain ⟨L, good⟩ := clientSystem_invariant.holds Client.reachable_fresh
  obtain ⟨result, h', L', hrun, -⟩ := good.malloc_returns hsbrk hguard
  exact (heap_integrity
    (Client.reachable_call Client.reachable_fresh (Or.inr rfl) hsbrk hguard hrun)).1

/-- A rest of 8 bytes puts the links of its header on the end fencepost, whose
status becomes the low half of a link. -/
theorem layOutChunk_overrun {m m' : ByteMem} {s base : Nat}
    (hm : m' = layOutChunk m s base 2097192) : statusAt m' (base + 2097216) = s % 2 ^ 32 := by
  simp (disch := omega) only [hm, layOutChunk, setFenceposts, tagRemainder, appendFree, tagNewObject,
    sizeofHeader, sizeofFooter, arenaSize, Nat.reduceAdd, Nat.reduceSub, Nat.reduceLT, if_true,
    ByteMem.load_store_low, ByteMem.load_store_of_disjoint]
  norm_num

/-- The first call of the run, served from the first chunk. -/
theorem malloc_one : ∃ h, Malloc.malloc freshHeap 2101344 1 = some (4144, h) ∧
    WellFormed h [⟨4096, [⟨56, false⟩, ⟨2097144, true⟩]⟩] ∧ h.sentinel = 64 := by
  have hsize : roundedSize 1 = 56 := by decide
  have hstart : freshHeap.sentinel = 64 := initializeHeap_sentinel ..
  have wf : WellFormed { freshHeap with mallocCalls := freshHeap.mallocCalls + 1 }
      [⟨4096, [⟨2097200, true⟩]⟩] := freshHeap_wellFormed.of_fields rfl rfl rfl rfl
  obtain ⟨h, heq, hsent, hwf⟩ := wf.allocateObject_sound 
    (by rw [hsize]; decide) (by rw [hsize]; decide) (fun h => by rw [hsize] at h; cases h)
  rw [hsize] at heq hwf
  exact ⟨h, heq, hwf, hsent.trans hstart⟩

/-- The second call needs a new chunk, and loses its end fencepost. -/
theorem malloc_overrun {h : Heap} (wf : WellFormed h [⟨4096, [⟨56, false⟩, ⟨2097144, true⟩]⟩])
    (hsent : h.sentinel = 64) :
    ∃ h', Malloc.malloc h 2101344 2097144 = some (2101392, h') ∧
      h'.osChunks = [4096, 2101344] ∧ statusAt h'.mem (2101344 + 2097216) = 64 := by
  have hsize : roundedSize 2097144 = 2097192 := by decide
  have wf' : WellFormed { h with mallocCalls := h.mallocCalls + 1 }
      [⟨4096, [⟨56, false⟩, ⟨2097144, true⟩]⟩] := wf.of_fields rfl rfl rfl rfl
  have hnone : NoFit (roundedSize 2097144)
      (Layout.blocks [⟨4096, [⟨56, false⟩, ⟨2097144, true⟩]⟩]) := by
    intro a c hc hfree
    obtain ⟨rfl, rfl⟩ : a = 4168 ∧ c = ⟨2097144, true⟩ := by
      simp at hc
      rcases hc with ⟨-, rfl⟩ | hc
      · cases hfree
      · exact hc
    rw [hsize]
    decide
  have heq : allocateObject _ 2101344 2097144 = _ := wf'.allocateObject_grow (by rw [hsize]; decide) hnone
    (by decide)
  refine ⟨_, heq, ?_, ?_⟩
  · rw [grownHeap_osChunks, if_neg (by decide)]
    show h.osChunks ++ [2101344] = _
    rw [wf.chunks]
    rfl
  · rw [grownHeap_mem, layOutChunk_overrun (by rw [hsize])]
    show h.sentinel % 2 ^ 32 = 64
    omega

theorem overrun_spec :
    (clientSystem fun _ _ => True).Reachable Client.overrun ∧
      Client.overrun.heap.osChunks = [4096, 2101344] ∧
      statusAt Client.overrun.heap.mem (2101344 + 2097216) = 64 := by
  obtain ⟨h₁, hone, wf, hsent⟩ := malloc_one
  obtain ⟨h₂, htwo, hchunks, hstatus⟩ := malloc_overrun wf hsent
  have hstate : Client.fresh.call (.malloc 1) 2101344 = ⟨h₁, [4144]⟩ := by
    rw [Client.call, show Call.run Client.fresh.heap 2101344 (.malloc 1) = _ from hone]
    rfl
  have hstate' : Client.overrun = ⟨h₂, [2101392, 4144]⟩ := by
    rw [Client.overrun, hstate, Client.call, show Call.run h₁ 2101344 (.malloc 2097144) = _ from htwo]
    rfl
  have hfirst : (clientSystem fun _ _ => True).Reachable (Client.fresh.call (.malloc 1) 2101344) :=
    Client.reachable_call Client.reachable_fresh (Or.inr rfl)
      (sbrkOk_above (initializeHeap_sentinel ..) (initializeHeap_osChunks ..)) trivial hone
  refine ⟨?_, ?_, ?_⟩
  · rw [hstate] at hfirst
    rw [Client.overrun, hstate]
    exact Client.reachable_call hfirst (Or.inr rfl) (sbrkOk_above hsent wf.chunks) trivial htwo
  · rw [hstate']
    exact hchunks
  · rw [hstate']
    exact hstatus

/-- With `malloc(1)` and `malloc(2097144)` the second chunk loses its end fencepost. -/
theorem heap_integrity_overrun :
    ∃ s, (clientSystem fun _ _ => True).Reachable s ∧ ∀ L, ¬Good s.heap s.live L := by
  obtain ⟨hreach, hchunks, hstatus⟩ := overrun_spec
  refine ⟨Client.overrun, hreach, fun L good => ?_⟩
  have hmem : (2101344 : Nat) ∈ L.map Chunk.base := by
    rw [← good.wf.chunks, hchunks]
    simp
  obtain ⟨c, hc, hbase⟩ := List.mem_map.mp hmem
  have hend := (good.wf.rep.fenceposts c hc).end_status
  rw [hbase, hstatus] at hend
  cases hend

end Cs252.Malloc
