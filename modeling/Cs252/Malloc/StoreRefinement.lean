import Cs252.Malloc.ObjectStore

/-!
# Cs252.Malloc.StoreRefinement

The allocator refines the object store.

`StandsFor` ties a heap to a store: the heap is good for pointers that are
exactly the objects of the store, and each object's bytes are at the start of the
usable bytes of its block. There is one lemma for each operation of the store,
and `realloc` is their composition. Each rests on `Good` for what becomes of the
blocks, and on `KeepsBlock` for what becomes of the bytes.
-/

namespace Cs252.Malloc

open Function

/-! ### Objects in memory -/

/-- The object with these bytes is at `p`, in a block in use that has room for it. -/
def Holds (m : ByteMem) (L : Layout) (p : Nat) (bytes : List UInt8) : Prop :=
  ∃ a n, p = a + 32 ∧ (a, ⟨n, false⟩) ∈ L.blocks ∧ bytes.length + 48 ≤ n ∧
    ∀ i (hi : i < bytes.length), m (p + i) = bytes[i]

/-- The `n` bytes from `p`. -/
def bytesAt (m : ByteMem) (p n : Nat) : List UInt8 := (List.range n).map fun i => m (p + i)

@[simp] theorem bytesAt_length (m : ByteMem) (p n : Nat) : (bytesAt m p n).length = n := by
  simp [bytesAt]

@[simp] theorem bytesAt_get (m : ByteMem) (p n i : Nat) (hi : i < (bytesAt m p n).length) :
    (bytesAt m p n)[i] = m (p + i) := by
  simp [bytesAt]

/-- A block that is in use before and after, and keeps its size and its bytes,
keeps its object. -/
theorem Holds.kept {m : ByteMem} {h' : Heap} {live' : List Nat} {L L' : Layout} {p : Nat}
    {bytes : List UInt8} (hholds : Holds m L p bytes) (good : Good h' live' L') (hp : p ∈ live')
    (hkeep : ∀ a n, p = a + 32 → (a, ⟨n, false⟩) ∈ L.blocks → KeepsBlock m h'.mem a n)
    (hsize : ∀ a n, (a, ⟨n, false⟩) ∈ L.blocks → sizeAt m a = n) :
    Holds h'.mem L' p bytes := by
  obtain ⟨a, n, rfl, hblock, hroom, hbytes⟩ := hholds
  have hkept := hkeep a n rfl hblock
  obtain ⟨b, hb, k, hlive⟩ := (good.live_iff _).mp hp
  obtain rfl : a = b := by omega
  have hk : k = n := by
    rw [← hsize a n hblock, ← hkept.size]
    exact (good.wf.header_size hlive).symm
  refine ⟨a, k, rfl, hlive, by omega, fun i hi => ?_⟩
  rw [hkept.payload _ (by omega) (by omega), hbytes i hi]

/-- Two blocks in use are apart. -/
theorem Good.apart {h : Heap} {live : List Nat} {L : Layout} {a b n k : Nat}
    (good : Good h live L) (ha : (a, ⟨n, false⟩) ∈ L.blocks) (hb : (b, ⟨k, false⟩) ∈ L.blocks)
    (hne : a ≠ b) : a + n ≤ b ∨ b + k ≤ a :=
  (good.wf.ok.block_disjoint ha hb).resolve_left fun heq => hne heq.1

/-- The heap stands for the store. -/
structure StandsFor (h : Heap) (live : List Nat) (L : Layout) (store : Store) : Prop where
  good : Good h live L
  live_iff : ∀ p, p ∈ live ↔ (store p).isSome
  holds : ∀ p bytes, store p = some bytes → Holds h.mem L p bytes

namespace StandsFor

variable {h h' : Heap} {live : List Nat} {L : Layout} {store : Store} {sbrk size p q : Nat}
  {bytes : List UInt8}

theorem mem_live (rep : StandsFor h live L store) (hp : store p = some bytes) : p ∈ live :=
  (rep.live_iff p).mpr (by simp [hp])

/-- There is no object at the null pointer. -/
theorem null (rep : StandsFor h live L store) : store NULL = none := by
  have hnot := mt (rep.live_iff NULL).mpr rep.good.null_not_live
  simpa using hnot

theorem of_fields (rep : StandsFor h live L store) (hmem : h'.mem = h.mem)
    (hsent : h'.sentinel = h.sentinel) (hfree : h'.freeList = h.freeList)
    (hchunks : h'.osChunks = h.osChunks) : StandsFor h' live L store :=
  ⟨rep.good.of_fields hmem hsent hfree hchunks, rep.live_iff, hmem ▸ rep.holds⟩

/-- A block in use is apart from the objects in other blocks. -/
theorem apart {a n : Nat} (rep : StandsFor h live L store) (ha : p = a + 32)
    (hblock : (a, ⟨n, false⟩) ∈ L.blocks) (hq : store q = some bytes) (hne : p ≠ q) :
    q + bytes.length ≤ p ∨ a + n ≤ q := by
  obtain ⟨b, k, rfl, hb, hroom, -⟩ := rep.holds q bytes hq
  have hsep := rep.good.apart hblock hb fun heq => hne (by rw [ha, heq])
  omega

/-! ### The operations of the store -/

/-- Bytes of an object may be written: of one that is there, or of a new one. -/
theorem write {m' : ByteMem} {old : List UInt8} (rep : StandsFor h live L store)
    (hp : store p = some old) (hlen : bytes.length = old.length)
    (hnew : ∀ i (hi : i < bytes.length), m' (p + i) = bytes[i])
    (hframe : ∀ x, x < p ∨ p + bytes.length ≤ x → m' x = h.mem x) :
    StandsFor { h with mem := m' } live L (store.put p bytes) := by
  obtain ⟨a, n, ha, hblock, hroom, -⟩ := rep.holds p old hp
  refine ⟨rep.good.write hblock fun x hx => hframe x (by omega), fun q => ?_, fun q bytes' hq => ?_⟩
  · by_cases hqp : q = p
    · simp [hqp, rep.mem_live hp]
    · rw [Store.put_of_ne hqp, rep.live_iff]
  · by_cases hqp : q = p
    · subst hqp
      obtain rfl : bytes = bytes' := by simpa using hq
      exact ⟨a, n, ha, hblock, by omega, hnew⟩
    · rw [Store.put_of_ne hqp] at hq
      have hsep := rep.apart ha hblock hq (Ne.symm hqp)
      obtain ⟨b, k, hb, hlive, hroom', hbytes⟩ := rep.holds q bytes' hq
      refine ⟨b, k, hb, hlive, hroom', fun i hi => ?_⟩
      show m' (q + i) = _
      rw [hframe _ (by omega), hbytes i hi]

/-- An object may be released. -/
theorem free (rep : StandsFor h live L store) (hp : store p = some bytes) :
    ∃ h' L', freeObject h p = some h' ∧ StandsFor h' (live.erase p) L' (store.drop p) := by
  obtain ⟨h', L', hfree, good⟩ := rep.good.free (rep.mem_live hp)
  obtain ⟨a, n, ha, hblock, -⟩ := rep.holds p bytes hp
  obtain ⟨h'', hfree', hkeep, -⟩ := freeIsolated h L a n rep.good.wf hblock
  obtain rfl : h' = h'' := by simpa [← ha, hfree] using hfree'
  have hlive : ∀ q, q ∈ live.erase p ↔ (store.drop p q).isSome := by
    intro q
    rw [rep.good.nodup.mem_erase_iff, rep.live_iff]
    by_cases hqp : q = p
    · simp [hqp]
    · simp [hqp, Store.drop_of_ne]
  refine ⟨h', L', hfree, good, hlive, fun q bytes' hq => ?_⟩
  have hqp : q ≠ p := fun heq => by simp [heq] at hq
  have hmem : q ∈ live.erase p := (hlive q).mpr (by simp [hq])
  rw [Store.drop_of_ne hqp] at hq
  refine (rep.holds q bytes' hq).kept good hmem (fun b k hb hlive' => ?_)
    fun b k hb => rep.good.wf.header_size hb
  exact hkeep b k hlive' fun heq => hqp (by rw [ha, hb, heq])

/-- A request is refused or gets memory for a new object. Its bytes are whatever
is there. -/
theorem allocate (rep : StandsFor h live L store) (hsbrk : SbrkOk h.sentinel h.osChunks sbrk)
    (hwrap : size + 55 < 2 ^ 64)
    (hrest : 2097104 < size → size < 2097145 → Offers h (roundedSize size)) :
    (arenaSize < size ∧ allocateObject h sbrk size = some (NULL, h)) ∨
    ∃ ptr h' L', allocateObject h sbrk size = some (ptr, h') ∧ store.Vacant ptr size ∧
      StandsFor h' (ptr :: live) L' (store.put ptr (bytesAt h'.mem ptr size)) := by
  rcases rep.good.allocate hsbrk hwrap hrest with
    hbig | ⟨hsmall, a, n, h', L', heq, good, hblock, hn, hnot⟩
  · exact Or.inl hbig
  right
  have hsafe : SafeSize size := Or.inl (by omega)
  obtain ⟨ptr', h'', heq', hkeep⟩ := allocateIsolated_of_safe (by omega) hsafe h L sbrk
    rep.good.wf (hsbrk.fresh rep.good.wf).toApart
  obtain ⟨-, rfl⟩ : ptr' = a + 32 ∧ h'' = h' := by simpa [heq, eq_comm] using heq'
  have hold : ∀ q bytes', store q = some bytes' → Holds h''.mem L' q bytes' := by
    intro q bytes' hq
    exact (rep.holds q bytes' hq).kept good (List.mem_cons_of_mem _ (rep.mem_live hq))
      (fun b k _ hb => hkeep b k hb) fun b k hb => rep.good.wf.header_size hb
  have hfresh : store (a + 32) = none := by
    simpa using mt (rep.live_iff (a + 32)).mpr hnot
  have hbound : a + n < 2 ^ 64 := good.wf.ok.block_bound hblock
  refine ⟨a + 32, h'', L', heq, ⟨hsmall, payload_ne_null a, by omega, hfresh, ?_⟩, good, ?_, ?_⟩
  · intro q bytes' hq
    obtain ⟨b, k, rfl, hb, hroom, -⟩ := hold q bytes' hq
    have hsep := good.apart hblock hb fun heq => by simp [← heq, hfresh] at hq
    omega
  · intro q
    rw [List.mem_cons, rep.live_iff]
    by_cases hq : q = a + 32
    · simp [hq]
    · simp [hq, Store.put_of_ne]
  · intro q bytes' hq
    by_cases hqa : q = a + 32
    · subst hqa
      obtain rfl : bytesAt h''.mem (a + 32) size = bytes' := by simpa using hq
      exact ⟨a, n, rfl, hblock, by simpa using hn, fun i hi => by simp⟩
    · rw [Store.put_of_ne hqa] at hq
      exact hold q bytes' hq

end StandsFor

/-! ### The client's ledger -/

/-- The client knows the length of each object. -/
def Agrees (held : Nat → Option Nat) (store : Store) : Prop :=
  ∀ p, held p = (store p).map List.length

namespace Agrees

variable {held : Nat → Option Nat} {store : Store} {p n : Nat} {bytes old : List UInt8}

theorem put (h : Agrees held store) (hn : bytes.length = n) :
    Agrees (update held p (some n)) (store.put p bytes) := by
  intro q
  by_cases hq : q = p
  · simp [hq, hn]
  · simp [hq, Store.put_of_ne, h q]

theorem drop (h : Agrees held store) : Agrees (update held p none) (store.drop p) := by
  intro q
  by_cases hq : q = p
  · simp [hq]
  · simp [hq, Store.drop_of_ne, h q]

theorem rewrite (h : Agrees held store) (hp : store p = some old)
    (hlen : bytes.length = old.length) : Agrees held (store.put p bytes) := by
  intro q
  by_cases hq : q = p
  · simp [hq, h p, hp, hlen]
  · simp [hq, Store.put_of_ne, h q]

theorem exists_object (h : Agrees held store) (hp : (held p).isSome) :
    ∃ bytes, store p = some bytes := by
  rw [h p, Option.isSome_map] at hp
  exact Option.isSome_iff_exists.mp hp

/-- A call that gives up nothing leaves the ledger, but for its result. -/
theorem heldAfter {c : Call} {result : Nat} (h : Agrees held store) (hnull : store NULL = none)
    (hc : c.released = NULL) :
    c.heldAfter held result = if result = NULL then held else update held result c.asked := by
  have hheld : update held NULL none = held := by
    rw [update_eq_self_iff, h NULL, hnull]
    rfl
  rw [Call.heldAfter, hc, hheld]

end Agrees

/-! ### The simulation -/

/-- The heap stands for the store, and the client knows its objects. -/
def Simulates (s : Process) (store : Store) : Prop :=
  (∃ live L, StandsFor s.heap live L store) ∧ Agrees s.held store

section Calls

variable {h h' : Heap} {held : Nat → Option Nat} {live : List Nat} {L : Layout} {store : Store}
  {c : Call} {sbrk size result : Nat}

/-- A call that gives nothing up and only allocates, once it has been counted. -/
theorem simulates_allocate (rep : StandsFor h live L store) (agrees : Agrees held store)
    (hsbrk : SbrkOk h.sentinel h.osChunks sbrk) (hguard : Guarded h c) (hc : c.released = NULL)
    (hrequest : c.request = some size) (hasked : c.asked = some size)
    (hstep : ∀ ptr bytes, store.Vacant ptr size → bytes.length = size →
      Store.Step store (.call c ptr) (store.put ptr bytes))
    (hrun : allocateObject h sbrk size = some (result, h')) :
    ∃ store', Store.Step store (.call c result) store' ∧
      Simulates ⟨h', c.heldAfter held result⟩ store' := by
  obtain ⟨hwrap, hrest⟩ := hguard size hrequest
  rcases rep.allocate hsbrk hwrap hrest with ⟨hbig, heq⟩ | ⟨ptr, h₁, L', heq, hvacant, rep'⟩
  · obtain ⟨rfl, rfl⟩ : NULL = result ∧ h = h' := by simpa [heq] using hrun
    refine ⟨store, .refused hc hasked hbig, ⟨live, L, rep⟩, ?_⟩
    rw [agrees.heldAfter rep.null hc, if_pos rfl]
    exact agrees
  · obtain ⟨rfl, rfl⟩ : ptr = result ∧ h₁ = h' := by simpa [heq] using hrun
    refine ⟨_, hstep ptr _ hvacant (bytesAt_length ..), ⟨_, L', rep'⟩, ?_⟩
    rw [agrees.heldAfter rep.null hc, if_neg hvacant.ne_null, hasked]
    exact agrees.put (bytesAt_length ..)

theorem simulates_malloc (rep : StandsFor h live L store) (agrees : Agrees held store)
    (hsbrk : SbrkOk h.sentinel h.osChunks sbrk) (hguard : Guarded h (.malloc size))
    (hrun : malloc h sbrk size = some (result, h')) :
    ∃ store', Store.Step store (.call (.malloc size) result) store' ∧
      Simulates ⟨h', (Call.malloc size).heldAfter held result⟩ store' := by
  have rep₁ : StandsFor { h with mallocCalls := h.mallocCalls + 1 } live L store :=
    rep.of_fields rfl rfl rfl rfl
  exact simulates_allocate rep₁ agrees hsbrk hguard rfl rfl rfl (fun _ _ => .malloc) hrun

theorem simulates_calloc {numElems elemSize : Nat} (rep : StandsFor h live L store)
    (agrees : Agrees held store) (hsbrk : SbrkOk h.sentinel h.osChunks sbrk)
    (hguard : Guarded h (.calloc numElems elemSize)) (hfits : numElems * elemSize < 2 ^ 64)
    (hrun : calloc h sbrk numElems elemSize = some (result, h')) :
    ∃ store', Store.Step store (.call (.calloc numElems elemSize) result) store' ∧
      Simulates ⟨h', (Call.calloc numElems elemSize).heldAfter held result⟩ store' := by
  obtain ⟨size, hsize⟩ : ∃ size, numElems * elemSize = size := ⟨_, rfl⟩
  have hmod : numElems * elemSize % 2 ^ 64 = size := by rw [Nat.mod_eq_of_lt hfits, hsize]
  obtain ⟨hwrap, hrest⟩ := hguard size (by rw [Call.request, hmod]; rfl)
  have rep₁ : StandsFor { h with callocCalls := h.callocCalls + 1 } live L store :=
    rep.of_fields rfl rfl rfl rfl
  have hasked : (Call.calloc numElems elemSize).asked = some size := by rw [Call.asked, hsize]
  rcases rep₁.allocate hsbrk hwrap hrest with ⟨hbig, heq⟩ | ⟨ptr, h₁, L', heq, hvacant, rep'⟩
  · obtain ⟨rfl, rfl⟩ : NULL = result ∧ _ = h' := by
      simpa [calloc_of_refused hmod heq] using hrun
    refine ⟨store, .refused rfl hasked hbig, ⟨live, L, rep₁⟩, ?_⟩
    rw [agrees.heldAfter rep.null rfl, if_pos rfl]
    exact agrees
  · obtain ⟨rfl, rfl⟩ : ptr = result ∧ _ = h' := by
      simpa [calloc_of_allocate hmod heq hvacant.ne_null] using hrun
    have hzero : StandsFor { h₁ with mem := h₁.mem.fill ptr 0 size } (ptr :: live) L'
        ((store.put ptr (bytesAt h₁.mem ptr size)).put ptr (.replicate size 0)) := by
      refine rep'.write (Store.put_self ..) (by simp) (fun i hi => ?_) fun x hx => ?_
      · rw [List.length_replicate] at hi
        rw [ByteMem.fill_inside _ _ (by omega) (by omega), List.getElem_replicate]
      · exact ByteMem.fill_outside _ _ (by simpa using hx)
    have hstep : Store.Step store (.call (.calloc numElems elemSize) ptr)
        (store.put ptr (.replicate size 0)) := by
      subst hsize
      exact .calloc hvacant
    rw [Store.put_put] at hzero
    refine ⟨_, hstep, ⟨_, L', hzero⟩, ?_⟩
    rw [agrees.heldAfter rep.null rfl, if_neg hvacant.ne_null, hasked]
    exact agrees.put (List.length_replicate ..)

/-- `realloc` of an object moves its bytes, as far as they fit. -/
theorem simulates_realloc {ptr : Nat} {old : List UInt8} (rep : StandsFor h live L store)
    (agrees : Agrees held store) (hsbrk : SbrkOk h.sentinel h.osChunks sbrk)
    (hguard : Guarded h (.realloc ptr size)) (hptr : store ptr = some old)
    (hrun : realloc h sbrk ptr size = some (result, h')) :
    ∃ store', Store.Step store (.call (.realloc ptr size) result) store' ∧
      Simulates ⟨h', (Call.realloc ptr size).heldAfter held result⟩ store' := by
  obtain ⟨hwrap, hrest⟩ := hguard size rfl
  have rep₁ : StandsFor { h with reallocCalls := h.reallocCalls + 1 } live L store :=
    rep.of_fields rfl rfl rfl rfl
  have hne : ptr ≠ NULL := fun heq => by simp [heq, rep.null] at hptr
  rcases rep₁.allocate hsbrk hwrap hrest with ⟨hbig, heq⟩ | ⟨new, h₁, L₁, heq, hvacant, rep₂⟩
  · obtain ⟨a, n, rfl, hblock, -⟩ := rep.holds ptr old hptr
    have hmax := mt (roundedSize_le_iff hwrap).mp (Nat.not_le.mpr hbig)
    rw [rep.good.wf.realloc_faults hblock (Nat.lt_of_not_le hmax) (by unfold arenaSize at hbig; omega)]
      at hrun
    cases hrun
  · have hnew : ptr ≠ new := fun heq => by simp [heq, hvacant.fresh] at hptr
    have hptr₂ : store.put new (bytesAt h₁.mem new size) ptr = some old := by
      rw [Store.put_of_ne hnew, hptr]
    obtain ⟨b, k, hb, hblock, hroom, hold⟩ := rep₂.holds ptr old hptr₂
    obtain ⟨a, n, ha, -⟩ := rep₂.holds new _ (Store.put_self ..)
    have hcopy := reallocCopy_eq (rep₂.good.wf.header_size hblock) a size
    rw [← ha, ← hb] at hcopy
    -- the copy is a write to the new object
    obtain ⟨m, hm⟩ : ∃ m, h₁.mem.copy new ptr (min size k) = m := ⟨_, rfl⟩
    have hframe : ∀ x, x < new ∨ new + (bytesAt m new size).length ≤ x → m x = h₁.mem x := by
      intro x hx
      rw [bytesAt_length] at hx
      rw [← hm, ByteMem.copy_outside _ _ (by omega)]
    have rep₃ := rep₂.write (Store.put_self ..) (by simp) (fun i hi => (bytesAt_get ..).symm) hframe
    rw [hm] at hcopy
    rw [Store.put_put] at rep₃
    obtain ⟨h₂, L₂, hfree, rep₄⟩ := rep₃.free (by rw [Store.put_of_ne hnew, hptr])
    rw [Store.put_drop_comm hnew] at rep₄
    obtain ⟨rfl, rfl⟩ : new = result ∧ h₂ = h' := by
      simpa [realloc_of_steps hne heq hcopy hfree] using hrun
    refine ⟨_, .realloc hptr hvacant (bytesAt_length ..) fun i hi hi' => ?_, ⟨_, L₂, rep₄⟩, ?_⟩
    · rw [List.getElem?_eq_getElem (by simpa using hi), List.getElem?_eq_getElem hi', bytesAt_get,
        ← hm, ByteMem.copy_inside _ _ (by omega), hold i hi']
    · rw [Call.heldAfter, if_neg hvacant.ne_null]
      exact agrees.drop.put (bytesAt_length ..)

theorem simulates_realloc_null (rep : StandsFor h live L store) (agrees : Agrees held store)
    (hsbrk : SbrkOk h.sentinel h.osChunks sbrk) (hguard : Guarded h (.realloc NULL size))
    (hrun : realloc h sbrk NULL size = some (result, h')) :
    ∃ store', Store.Step store (.call (.realloc NULL size) result) store' ∧
      Simulates ⟨h', (Call.realloc NULL size).heldAfter held result⟩ store' := by
  have rep₁ : StandsFor { h with reallocCalls := h.reallocCalls + 1 } live L store :=
    rep.of_fields rfl rfl rfl rfl
  refine simulates_allocate rep₁ agrees hsbrk hguard rfl rfl rfl (fun _ _ => .reallocNull) ?_
  obtain ⟨h₁, heq⟩ := allocateObject_of_realloc hrun
  rw [realloc_null heq] at hrun
  rw [heq, hrun]

theorem simulates_free {ptr : Nat} (rep : StandsFor h live L store) (agrees : Agrees held store)
    (hptr : ptr = NULL ∨ (held ptr).isSome) (hrun : Malloc.free h ptr = some h') :
    ∃ store', Store.Step store (.call (.free ptr) NULL) store' ∧
      Simulates ⟨h', (Call.free ptr).heldAfter held NULL⟩ store' := by
  have rep₁ : StandsFor { h with freeCalls := h.freeCalls + 1 } live L store :=
    rep.of_fields rfl rfl rfl rfl
  by_cases hnull : ptr = NULL
  · subst hnull
    obtain rfl : _ = h' := by simpa [Malloc.free] using hrun
    refine ⟨store, .freeNull, ⟨live, L, rep₁⟩, ?_⟩
    rw [agrees.heldAfter rep.null rfl, if_pos rfl]
    exact agrees
  · obtain ⟨bytes, hbytes⟩ := agrees.exists_object (hptr.resolve_left hnull)
    obtain ⟨h₂, L', hfree, rep₂⟩ := rep₁.free hbytes
    obtain rfl : h₂ = h' := by simpa [Malloc.free, hnull, hfree] using hrun
    refine ⟨_, .free hbytes, ⟨_, L', rep₂⟩, ?_⟩
    rw [Call.heldAfter, if_pos rfl]
    exact agrees.drop

end Calls

/-- A call that returns does what the store does. -/
theorem simulates_call {s : Process} {store : Store} {c : Call} {sbrk result : Nat} {h' : Heap}
    (hs : Simulates s store) (hc : c.released = NULL ∨ (s.held c.released).isSome)
    (hsbrk : SbrkOk s.heap.sentinel s.heap.osChunks sbrk) (hguard : Guarded s.heap c)
    (hfits : ∀ size ∈ c.asked, size < 2 ^ 64) (hrun : c.run s.heap sbrk = some (result, h')) :
    ∃ store', Store.Step store (.call c result) store' ∧
      Simulates ⟨h', c.heldAfter s.held result⟩ store' := by
  obtain ⟨⟨live, L, rep⟩, agrees⟩ := hs
  cases c with
  | malloc size => exact simulates_malloc rep agrees hsbrk hguard hrun
  | calloc n size => exact simulates_calloc rep agrees hsbrk hguard (hfits _ rfl) hrun
  | realloc ptr size =>
    by_cases hnull : ptr = NULL
    · subst hnull
      exact simulates_realloc_null rep agrees hsbrk hguard hrun
    · obtain ⟨old, hold⟩ := agrees.exists_object (hc.resolve_left hnull)
      exact simulates_realloc rep agrees hsbrk hguard hold hrun
  | free ptr =>
    obtain ⟨h₁, hfree, heq⟩ := Option.map_eq_some_iff.mp hrun
    obtain ⟨rfl, rfl⟩ := Prod.mk.inj heq
    exact simulates_free rep agrees hc hfree

/-- Every step of the client is one of the store. -/
theorem simulation : processes.Simulation objectStore Simulates where
  init s hinit := by
    obtain ⟨m, sentinel, base, ok, rfl⟩ := hinit
    obtain ⟨L, good⟩ := good_initialize (m := m) ok
    refine ⟨fun _ => none, fun _ => rfl, ⟨[], L, good, ?_, ?_⟩, fun _ => rfl⟩
    · simp
    · simp
  step s e s' store hs hstep := by
    cases hstep with
    | call hc hsbrk hguard hfits hrun => exact simulates_call hs hc hsbrk hguard hfits hrun
    | @write ptr i size byte hheld hi =>
      obtain ⟨⟨live, L, rep⟩, agrees⟩ := hs
      obtain ⟨bytes, hbytes⟩ := agrees.exists_object (by rw [hheld]; rfl)
      obtain rfl : bytes.length = size := by simpa [agrees ptr, hbytes] using hheld
      obtain ⟨a, n, -, -, -, hold⟩ := rep.holds ptr bytes hbytes
      have hlen : (bytes.set i byte).length = bytes.length := List.length_set
      refine ⟨_, .write hbytes hi, ⟨live, L, rep.write hbytes hlen (fun j hj => ?_) fun x hx => ?_⟩,
        agrees.rewrite hbytes hlen⟩
      · rw [hlen] at hj
        by_cases hij : i = j
        · subst hij
          simp
        · rw [update_of_ne (by omega), hold j hj, List.getElem_set_ne hij]
      · rw [hlen] at hx
        exact update_of_ne (by omega) ..
    | @read ptr i size hheld hi =>
      obtain ⟨bytes, hbytes⟩ := hs.2.exists_object (by rw [hheld]; rfl)
      obtain rfl : bytes.length = size := by simpa [hs.2 ptr, hbytes] using hheld
      obtain ⟨⟨live, L, rep⟩, agrees⟩ := hs
      obtain ⟨a, n, -, -, -, hold⟩ := rep.holds ptr bytes hbytes
      refine ⟨store, .read hbytes ?_, ⟨live, L, rep⟩, agrees⟩
      rw [List.getElem?_eq_getElem hi, hold i hi]

/-- **A byte is read as it was written.** Between the write and the read there
may be any calls and writes to other bytes, and `realloc` may move the object as
often as it likes, to sizes that keep the byte. A byte of `calloc` counts as
written with zero. -/
theorem reads_as_written {es₁ es₂ : List Event} {e : Event} {p q i : Nat} {byte byte' : UInt8}
    (htrace : processes.Trace (es₁ ++ e :: (es₂ ++ [.read q i byte']))) (he : e.Puts p i byte)
    (hstays : Stays i p es₂ q) : byte' = byte :=
  objectStore_reads (simulation.refines _ htrace) he hstays

/-- A byte written to the object of `malloc(1)` and read. -/
theorem reads_as_written_seven :
    ∃ byte, processes.Trace [.call (.malloc 1) 4144, .write 4144 0 7, .read 4144 0 byte] ∧
      byte = 7 := by
  obtain ⟨h, hrun, -, -⟩ := malloc_one
  have hguard : Guarded freshHeap (.malloc 1) := by
    intro size hsize
    obtain rfl : 1 = size := by simpa [Call.request] using hsize
    exact ⟨by decide, fun h => absurd h (by decide)⟩
  have hsbrk : SbrkOk freshHeap.sentinel freshHeap.osChunks 2101344 :=
    sbrkOk_above (initializeHeap_sentinel ..) (initializeHeap_osChunks ..)
  have hheld : (Call.malloc 1).heldAfter (fun _ => none) 4144 4144 = some 1 := rfl
  have htrace : processes.Trace [.call (.malloc 1) 4144, .write 4144 0 7,
      .read 4144 0 (update h.mem 4144 7 4144)] := by
    refine ⟨⟨freshHeap, fun _ => none⟩, _,
      ⟨_, 64, 4096, ⟨by decide, by simp, by decide, by decide⟩, rfl⟩,
      .cons (.call (Or.inl rfl) hsbrk hguard (fun size hsize => ?_) hrun)
        (.cons (.write hheld Nat.one_pos) (.cons (.read hheld Nat.one_pos) .nil))⟩
    obtain rfl : 1 = size := by simpa [Call.asked] using hsize
    decide
  exact ⟨_, htrace, @reads_as_written [_] [] _ _ _ _ _ _ htrace .write .nil⟩

end Cs252.Malloc
