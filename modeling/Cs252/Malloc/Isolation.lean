import Mathlib.Logic.Relation
import Cs252.Malloc.FreeSound
import Cs252.Malloc.Start
import Cs252.Malloc.Wrapped

/-!
# Cs252.Malloc.Isolation

Allocator operations and other people's blocks.

`realloc` reads the size of a block without the lock. That is sound when the
operations of other threads leave the header and the usable bytes of the block
alone. `free_object` does (`freeIsolated`). `allocate_object` does for every
size but those whose rounding wraps to 8, …, 40 bytes: there a store goes
through an overwritten link (`Wrapped`), and on a heap that covers the address
it hits, it destroys a live block.
-/

namespace Cs252.Malloc

open Tiling LinkedRing

/-- The size and the status in the header of the block of `n` bytes at `b`, and
its usable bytes, are the same in `m` and `m'`. -/
structure KeepsBlock (m m' : ByteMem) (b n : Nat) : Prop where
  size : sizeAt m' b = sizeAt m b
  status : statusAt m' b = statusAt m b
  payload : ∀ x, b + 32 ≤ x → x < b + n - 16 → m' x = m x

theorem KeepsBlock.refl (m : ByteMem) (b n : Nat) : KeepsBlock m m b n :=
  ⟨rfl, rfl, fun _ _ _ => rfl⟩

theorem Untouched.keepsBlock {m m' : ByteMem} {b n : Nat} (h : Untouched m m' b n)
    (hn : 48 ≤ n) : KeepsBlock m m' b n :=
  ⟨sizeAt_congr fun x _ _ => h x (by omega) (by omega),
    statusAt_congr fun x _ _ => h x (by omega) (by omega),
    fun x _ _ => h x (by omega) (by omega)⟩

/-- An update may run over the footer before the bytes it is meant for. -/
theorem LinkFrame.keepsBlock {s lo hi p q b n : Nat} {L : Layout} {m m' : ByteMem}
    (hframe : LinkFrame lo hi p q m m') (ok : LayoutOk s L) (hp : p ∈ s :: L.freeAddrs)
    (hq : q ∈ s :: L.freeAddrs) (hb : (b, ⟨n, false⟩) ∈ L.blocks)
    (hsep : b + n ≤ lo + 16 ∨ hi ≤ b) : KeepsBlock m m' b n := by
  have hmin := ok.block_min hb
  have hpb := ok.live_node_sep hb hp
  have hqb := ok.live_node_sep hb hq
  simp only at hmin
  have hsame : ∀ x, b ≤ x → x < b + n - 16 → m' x = m x := fun x hx hx' =>
    hframe x (by omega) (by omega) (by omega)
  exact ⟨sizeAt_congr fun x _ _ => hsame x (by omega) (by omega),
    statusAt_congr fun x _ _ => hsame x (by omega) (by omega),
    fun x _ _ => hsame x (by omega) (by omega)⟩

/-- A request of `size` bytes leaves every block in use alone, on every heap. -/
def AllocateIsolated (size : Nat) : Prop :=
  ∀ h L sbrk, WellFormed h L → ApartChunk h.sentinel L sbrk →
    ∃ ptr h', allocateObject h sbrk size = some (ptr, h') ∧
      ∀ b n, (b, ⟨n, false⟩) ∈ L.blocks → KeepsBlock h.mem h'.mem b n

/-- Freeing a block leaves every other block in use alone, and the usable bytes
of the block itself. -/
def FreeIsolated : Prop :=
  ∀ h L a n, WellFormed h L → (a, ⟨n, false⟩) ∈ L.blocks →
    ∃ h', freeObject h (a + 32) = some h' ∧
      (∀ b k, (b, ⟨k, false⟩) ∈ L.blocks → b ≠ a → KeepsBlock h.mem h'.mem b k) ∧
      ∀ x, a + 32 ≤ x → x < a + n - 16 → h'.mem x = h.mem x

theorem freeIsolated : FreeIsolated := by
  intro h L a n wf hlive
  obtain ⟨m', hfree, hframe, -⟩ := freeObject_sound wf hlive
  refine ⟨_, hfree, fun b k hb hne => ?_, hframe.payload⟩
  exact (hframe.others b k hb hne).keepsBlock (wf.ok.block_min hb)

/-! ### Sizes that are safe -/

/-- The rounded size is 0, or at least a header and a footer. -/
def SafeSize (size : Nat) : Prop := size + 47 < 2 ^ 64 ∨ 2 ^ 64 < size + 8

theorem roundedSize_of_safe {size : Nat} (hsize : size < 2 ^ 64) (h : SafeSize size) :
    roundedSize size = 0 ∨ 48 ≤ roundedSize size := by
  rw [roundedSize_eq]
  unfold SafeSize at h
  omega

theorem roundedSize_of_not_safe {size : Nat} (hsize : size < 2 ^ 64) (h : ¬SafeSize size) :
    8 ∣ roundedSize size ∧ 0 < roundedSize size ∧ roundedSize size < 48 := by
  have hdvd := dvd_roundedSize size
  rw [roundedSize_eq] at hdvd ⊢
  unfold SafeSize at h
  omega

/-- A block of the free list is handed out without touching a block in use. -/
theorem WellFormed.fit_keepsBlock {h : Heap} {H : Hole} {n r : Nat}
    (wf : WellFormed h (H.plug [⟨n, true⟩])) (hrn : r ≤ n) (hr : r = 0 ∨ 48 ≤ r) {m' : ByteMem}
    (hm : m' = if n - r < 56 then unlink (markAllocated h.mem H.addr) H.addr
      else relinkSplit (tagSplit h.mem H.addr r) H.addr (H.addr + r))
    {b k : Nat} (hb : (b, ⟨k, false⟩) ∈ (H.plug [⟨n, true⟩]).blocks) :
    KeepsBlock h.mem m' b k := by
  have hsep := wf.used_sep hb
  have hp : lastOr h.sentinel H.freeBefore ∈ h.sentinel :: (H.plug [⟨n, true⟩]).freeAddrs :=
    Hole.nodes_subset (H.lastOr_mem_nodes _ _)
  have hq : headOr h.sentinel (H.freeAfter n) ∈ h.sentinel :: (H.plug [⟨n, true⟩]).freeAddrs :=
    Hole.nodes_subset (H.headOr_mem_nodes _ _)
  by_cases hcut : n - r < 56 ∨ 48 ≤ r
  · exact (wf.serve hrn hcut hm).1.keepsBlock wf.ok hp hq hb (by omega)
  · -- a block of no bytes is cut off, with a footer before the free block
    have hr : r = 0 := by omega
    subst hr
    rw [if_neg (by omega)] at hm
    obtain ⟨hprev, hnext⟩ := wf.links
    have hblock := H.mem_blocks_plug_self (c := ⟨n, true⟩)
    have hbase := (Hole.bounds wf.ok).1
    have hframe : LinkFrame (H.addr - 16) (H.addr + n) _ _ h.mem m' :=
      split_zero_frame (wf.header_size hblock) (by omega) (wf.ok.block_min hblock) hprev hnext
        (Hole.gap wf.ok) hm
    exact hframe.keepsBlock wf.ok hp hq hb (by omega)

theorem allocateIsolated_of_safe {size : Nat} (hsize : size < 2 ^ 64) (hsafe : SafeSize size) :
    AllocateIsolated size := by
  intro h L sbrk wf apart
  by_cases hmax : roundedSize size ≤ 2097200
  · rcases Layout.firstFit_cases (roundedSize size) L with
      ⟨H, n, rfl, hn, hfirst, -⟩ | ⟨hnone, -⟩
    · refine ⟨_, _, wf.allocateObject_fit hmax hn hfirst, fun b k hb => ?_⟩
      exact wf.fit_keepsBlock hn (roundedSize_of_safe hsize hsafe) rfl hb
    · refine ⟨_, _, wf.allocateObject_grow hmax hnone apart.ne_failed, fun b k hb => ?_⟩
      have hframe := layOutChunk_frame hmax apart.bound wf.prev_sentinel (apart.gap wf.ok)
      have hsep : b + k ≤ sbrk ∨ sbrk + 2097248 ≤ b := apart.block_sep wf.ok hb
      rw [grownHeap_mem]
      exact hframe.keepsBlock wf.ok (lastOr_mem _ _) List.mem_cons_self hb (by omega)
  · exact ⟨NULL, h, WellFormed.allocateObject_oversized (by omega),
      fun b k _ => KeepsBlock.refl _ _ _⟩

/-! ### Sizes that are not -/

/-- A number in memory is at least its most significant byte. -/
theorem le_load_of_top {m : ByteMem} {a : Nat} {v : UInt8} (h : m (a + 7) = v) :
    v.toNat * 256 ^ 7 ≤ m.load a 8 := by
  have htop : m.load (a + 7) 1 = v.toNat := by simp [ByteMem.load, h]
  rw [ByteMem.load_add m a 7 1, htop, Nat.mul_comm]
  exact Nat.le_add_left _ _

/-- A chunk at address 8 with a block in use of 1500048 bytes, all of whose
usable bytes are 255, before a free one. The sentinel is above the chunk. -/
def lowHeap : Heap :=
  let h := afterRequest (initializeHeap (Heap.static (fun _ => 0) 2097256) 8) NULL 1500000
  { h with mem := h.mem.fill 56 255 1500000 }

/-- The free block of `lowHeap`, cut out. -/
def lowHole : Hole := ⟨[], 8, [⟨1500048, false⟩], [], []⟩

theorem lowHeap_spec :
    WellFormed lowHeap (lowHole.plug [⟨597152, true⟩]) ∧ lowHeap.sentinel = 2097256 ∧
      ∀ x, 56 ≤ x → x < 1500056 → lowHeap.mem x = 255 := by
  have hsize : roundedSize 1500000 = 1500048 := by decide
  have hstart : WellFormed (initializeHeap (Heap.static (fun _ => 0) 2097256) 8)
      [⟨8, [⟨2097200, true⟩]⟩] :=
    initialize_wellFormed ⟨by simp, by decide, by decide⟩ (by decide) rfl
  obtain ⟨hone, hsent⟩ : WellFormed
      (afterRequest (initializeHeap (Heap.static (fun _ => 0) 2097256) 8) NULL 1500000)
      (lowHole.plug [⟨597152, true⟩]) ∧ _ :=
    afterRequest_wellFormed (a := 24) hstart (by rw [hsize]; decide) (by rw [hsize]; decide)
      (fun h => by rw [hsize] at h; cases h) (by rw [hsize]; rfl)
  refine ⟨?_, hsent.trans (initializeHeap_sentinel ..), fun x hx hx' => ?_⟩
  · refine hone.write_payload (a := 24) (n := 1500048) (by decide) fun x hx => ?_
    exact ByteMem.fill_outside _ _ (by omega)
  · exact ByteMem.fill_inside _ _ hx (by omega)

/-- On `lowHeap`, a request whose rounding wraps to 8, …, 40 bytes changes the
size or the usable bytes of the block in use. -/
theorem not_allocateIsolated {size : Nat} (hsize : size < 2 ^ 64) (hbad : ¬SafeSize size) :
    ¬AllocateIsolated size := by
  intro hiso
  obtain ⟨h8, hpos, hlt⟩ := roundedSize_of_not_safe hsize hbad
  obtain ⟨wf, hsent, hfill⟩ := lowHeap_spec
  have hlive : (24, ⟨1500048, false⟩) ∈ (lowHole.plug [⟨597152, true⟩]).blocks := by decide
  have haddr : lowHole.addr = 1500072 := by decide
  have apart : ApartChunk lowHeap.sentinel (lowHole.plug [⟨597152, true⟩]) 4194304 := by
    rw [hsent]
    refine ⟨fun c hc => ?_, by decide, by decide⟩
    obtain rfl := List.mem_singleton.mp hc
    decide
  obtain ⟨ptr, h', heq, hkeep⟩ := hiso _ _ _ wf apart
  have hkeep := hkeep 24 1500048 hlive
  have hfirst : NoFit (roundedSize size) lowHole.earlier := by
    intro a c hc hfree
    obtain ⟨rfl, rfl⟩ : a = 24 ∧ c = ⟨1500048, false⟩ := by simpa [lowHole, Hole.earlier] using hc
    simp at hfree
  have hfit : allocateObject lowHeap 4194304 size = _ :=
    wf.allocateObject_fit (by omega) (by omega) hfirst
  have hmem : h'.mem = relinkSplit (tagSplit lowHeap.mem 1500072 (roundedSize size)) 1500072
      (1500072 + roundedSize size) := by
    have hpair := Option.some.inj (heq.symm.trans hfit)
    rw [Prod.mk.injEq] at hpair
    rw [hpair.2, ← haddr]
    exact if_neg (by omega)
  obtain ⟨hprev, hnext⟩ := wf.links
  have hcut := wf.header_size lowHole.mem_blocks_plug_self
  rw [haddr] at hprev hnext hcut
  rw [hsent] at hprev hnext
  obtain ⟨x, hx, hcases⟩ := split_stray hcut (by decide) (by decide) hprev hnext (by decide)
    (by decide) (by decide) (by decide) h8 hpos hlt hmem
  rcases hcases with rfl | ⟨hlo, hhi⟩
  · have hold : sizeAt lowHeap.mem 24 = 1500048 := wf.header_size hlive
    have hnew : 1500072 + roundedSize size = 1500048 := hx.symm.trans (hkeep.size.trans hold)
    omega
  · have hsame : h'.mem.load x 8 = lowHeap.mem.load x 8 :=
      ByteMem.load_congr fun y hy hy' => hkeep.payload y (by omega) (by omega)
    have htop := le_load_of_top (hfill (x + 7) (by omega) (by omega))
    have hbyte : (255 : UInt8).toNat = 255 := by decide
    rw [hbyte] at htop
    omega

/-! ### Stability -/

/-- A call of another thread on a well-formed heap on which the block at `a` is
in use: a request of a safe size, or the release of another block. -/
inductive OtherCall (a : Nat) : Heap → Heap → Prop
  | allocate {h h' : Heap} {L : Layout} {sbrk size ptr : Nat} :
      WellFormed h L → L.Live a → ApartChunk h.sentinel L sbrk → size < 2 ^ 64 → SafeSize size →
      allocateObject h sbrk size = some (ptr, h') → OtherCall a h h'
  | free {h h' : Heap} {L : Layout} {b : Nat} :
      WellFormed h L → L.Live a → L.Live b → b ≠ a → freeObject h (b + 32) = some h' →
      OtherCall a h h'

/-- One call of another thread keeps the size of the block. -/
theorem OtherCall.objectSize_eq {a : Nat} {h h' : Heap} (hcall : OtherCall a h h') :
    objectSize h'.mem (a + 32) = objectSize h.mem (a + 32) := by
  rw [objectSize_payload, objectSize_payload]
  cases hcall with
  | allocate wf hlive apart hsize hsafe heq =>
    obtain ⟨n, hblock⟩ := hlive
    obtain ⟨ptr', h'', heq', hkeep⟩ := allocateIsolated_of_safe hsize hsafe _ _ _ wf apart
    obtain ⟨-, rfl⟩ := Prod.mk.inj (Option.some.inj (heq.symm.trans heq'))
    exact (hkeep a n hblock).size
  | free wf hlive hother hne heq =>
    obtain ⟨n, hblock⟩ := hlive
    obtain ⟨k, hblock'⟩ := hother
    obtain ⟨h'', heq', hkeep, -⟩ := freeIsolated _ _ _ _ wf hblock'
    obtain rfl := Option.some.inj (heq.symm.trans heq')
    exact (hkeep a n hblock (Ne.symm hne)).size

/-- Any number of calls of other threads keep the size of the block. -/
theorem objectSize_stable {a : Nat} {h h' : Heap}
    (hcalls : Relation.ReflTransGen (OtherCall a) h h') :
    objectSize h'.mem (a + 32) = objectSize h.mem (a + 32) := by
  induction hcalls with
  | refl => rfl
  | tail _ hcall ih => exact hcall.objectSize_eq.trans ih

/-- **Allocator operations and other people's blocks.** A request leaves them
alone, on every heap, exactly when its size is safe. Releases always do, and so
the size of a block is stable under the calls of other threads. -/
theorem isolation_iff {size : Nat} (hsize : size < 2 ^ 64) :
    (AllocateIsolated size ↔ size + 47 < 2 ^ 64 ∨ 2 ^ 64 < size + 8) ∧ FreeIsolated ∧
      ∀ a h h', Relation.ReflTransGen (OtherCall a) h h' →
        objectSize h'.mem (a + 32) = objectSize h.mem (a + 32) := by
  refine ⟨⟨fun hiso => ?_, allocateIsolated_of_safe hsize⟩, freeIsolated,
    fun a h h' => objectSize_stable⟩
  by_cases hsafe : SafeSize size
  · exact hsafe
  · exact absurd hiso (not_allocateIsolated hsize hsafe)

/-- The same for requests of 100 bytes. -/
theorem isolation_iff_hundred :
    (AllocateIsolated 100 ↔ 100 + 47 < 2 ^ 64 ∨ 2 ^ 64 < 100 + 8) ∧ FreeIsolated ∧
      ∀ a h h', Relation.ReflTransGen (OtherCall a) h h' →
        objectSize h'.mem (a + 32) = objectSize h.mem (a + 32) :=
  isolation_iff (by decide)

/-! ### A heap across 4 GB -/

/-- Two chunks, the first one across the address `2 ^ 32`, after requests of
1500000 and 2000000 bytes; the client has set the first block to 255. -/
def straddleHeap : Heap :=
  let h := initializeHeap (Heap.static (fun _ => 0) 64) 4294963200
  let h := afterRequest h NULL 1500000
  let h := afterRequest h 4297060448 2000000
  { h with mem := h.mem.fill 4294963248 255 1500000 }

/-- The first free block of `straddleHeap`, cut out. -/
def straddleHole : Hole :=
  ⟨[], 4294963200, [⟨1500048, false⟩], [], [⟨4297060448, [⟨2000048, false⟩, ⟨97152, true⟩]⟩]⟩

theorem straddleHeap_spec :
    WellFormed straddleHeap (straddleHole.plug [⟨597152, true⟩]) ∧ straddleHeap.sentinel = 64 ∧
      straddleHeap.mem 4294967327 = 255 := by
  have hsize : roundedSize 1500000 = 1500048 := by decide
  have hsize' : roundedSize 2000000 = 2000048 := by decide
  obtain ⟨h₀, hh₀⟩ : ∃ h₀, initializeHeap (Heap.static (fun _ => 0) 64) 4294963200 = h₀ := ⟨_, rfl⟩
  have hstart : WellFormed h₀ [⟨4294963200, [⟨2097200, true⟩]⟩] :=
    hh₀ ▸ initialize_wellFormed ⟨by simp, by decide, by decide⟩ (by decide) rfl
  have hsent₀ : h₀.sentinel = 64 := hh₀ ▸ initializeHeap_sentinel ..
  obtain ⟨hone, hsent₁⟩ : WellFormed (afterRequest h₀ NULL 1500000)
      [⟨4294963200, [⟨1500048, false⟩, ⟨597152, true⟩]⟩] ∧ _ :=
    afterRequest_wellFormed (a := 4294963216) hstart (by rw [hsize]; decide)
      (by rw [hsize]; decide) (fun h => by rw [hsize] at h; cases h) (by rw [hsize]; rfl)
  have hgrow : FreshChunk (afterRequest h₀ NULL 1500000).sentinel
      [⟨4294963200, [⟨1500048, false⟩, ⟨597152, true⟩]⟩] 4297060448 := by
    rw [hsent₁, hsent₀]
    refine ⟨fun c hc => ?_, by decide, by decide⟩
    obtain rfl := List.mem_singleton.mp hc
    decide
  obtain ⟨htwo, hsent₂⟩ : WellFormed (afterRequest (afterRequest h₀ NULL 1500000) 4297060448 2000000)
      (straddleHole.plug [⟨597152, true⟩]) ∧ _ :=
    afterRequest_wellFormed (a := 4297060464) hone (by rw [hsize']; decide)
      (by rw [hsize']; decide) (fun _ => ⟨hgrow, by rw [hsize']; decide⟩) (by rw [hsize']; rfl)
  obtain ⟨h₂, hh₂⟩ : ∃ h₂, afterRequest (afterRequest h₀ NULL 1500000) 4297060448 2000000 = h₂ :=
    ⟨_, rfl⟩
  rw [hh₂] at htwo hsent₂
  have hheap : straddleHeap = { h₂ with mem := h₂.mem.fill 4294963248 255 1500000 } := by
    rw [← hh₂, ← hh₀]
    rfl
  rw [hheap]
  refine ⟨?_, hsent₂.trans (hsent₁.trans hsent₀), ?_⟩
  · refine htwo.write_payload (a := 4294963216) (n := 1500048) (by decide) fun x hx => ?_
    exact ByteMem.fill_outside _ _ (by omega)
  · show h₂.mem.fill 4294963248 255 1500000 4294967327 = 255
    exact ByteMem.fill_inside _ _ (by decide) (by decide)

/-- `malloc(2 ^ 64 - 40)` is rounded to 8 bytes. On a heap across 4 GB it stores
a pointer into the middle of a block in use. -/
theorem straddleHeap_stray :
    WellFormed straddleHeap (straddleHole.plug [⟨597152, true⟩]) ∧
      (4294963216, ⟨1500048, false⟩) ∈ (straddleHole.plug [⟨597152, true⟩]).blocks ∧
      ∃ ptr h', allocateObject straddleHeap NULL (2 ^ 64 - 40) = some (ptr, h') ∧
        ¬KeepsBlock straddleHeap.mem h'.mem 4294963216 1500048 := by
  obtain ⟨wf, hsent, hbyte⟩ := straddleHeap_spec
  have hsize : roundedSize (2 ^ 64 - 40) = 8 := by decide
  have haddr : straddleHole.addr = 4296463264 := by decide
  have hfirst : NoFit (roundedSize (2 ^ 64 - 40)) straddleHole.earlier := by
    intro a c hc hfree
    obtain ⟨rfl, rfl⟩ : a = 4294963216 ∧ c = ⟨1500048, false⟩ := by
      simpa [straddleHole, Hole.earlier] using hc
    simp at hfree
  have hfit : allocateObject straddleHeap NULL (2 ^ 64 - 40) = _ :=
    wf.allocateObject_fit (by rw [hsize]; decide) (by rw [hsize]; decide) hfirst
  refine ⟨wf, by decide, _, _, hfit, fun hkeep => ?_⟩
  obtain ⟨m', hm⟩ : ∃ m', m' = relinkSplit (tagSplit straddleHeap.mem 4296463264 8) 4296463264
      (4296463264 + 8) := ⟨_, rfl⟩
  have hsame : m' 4294967327 = straddleHeap.mem 4294967327 := by
    have hpay := hkeep.payload 4294967327 (by decide) (by decide)
    rw [hsize, if_neg (by decide), haddr] at hpay
    rw [hm]
    exact hpay
  obtain ⟨hprev, hnext⟩ := wf.links
  have hcut := wf.header_size straddleHole.mem_blocks_plug_self
  rw [haddr] at hprev hnext hcut
  rw [hsent] at hprev hnext
  have hstray := split_stray_8 hcut (by decide) (by decide) (by decide) hprev hnext (by decide)
    (t := 4294967296) (by decide) (by decide) hm
  have htop := le_load_of_top (a := 4294967296 + 24) (hsame.trans hbyte)
  rw [hstray] at htop
  exact absurd htop (by decide)

end Cs252.Malloc
