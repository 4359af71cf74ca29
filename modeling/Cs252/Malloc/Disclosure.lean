import Cs252.Malloc.Realloc

/-!
# Cs252.Malloc.Disclosure

What `realloc` copies.

`object_size` includes header and footer, so a block of `n` bytes has `n - 48`
usable ones, and `realloc` copies `min n size` from its pointer on. For larger
requests that runs into the footer of the block and then into the header of the
next one, and what is there ends up in memory that the caller may read.

`CopiesPayload` is the direct reading of what should hold: all bytes copied are
usable bytes of the old block. `NoDisclosure` compares two heaps: what the call
leaves in the new block does not depend on anything else. They part for the
first 12 bytes of the footer, its size and its status. These are copied, but
they are the same in all heaps.
-/

namespace Cs252.Malloc

/-- `x` is in the memory from which a request of `r` bytes is served: the first
free block that is large enough, or the chunk that `sbrk` puts at `base`. -/
def InSource (r base : Nat) (L : Layout) (x : Nat) : Prop :=
  match L.firstFree r with
  | some (a, n) => a ≤ x ∧ x < a + n
  | none => base ≤ x ∧ x < base + 2097248

/-- `realloc` of the block at `a` has returned `q`: `size` bytes between a header
and a footer, in the address space. -/
structure Answers (h : Heap) (sbrk a size q : Nat) (h' : Heap) : Prop where
  returns : realloc h sbrk (a + 32) size = some (q, h')
  room : size + 48 ≤ objectSize h'.mem q
  bound : q + size + 16 ≤ 2 ^ 64

/-- Another heap with the same block of `n` bytes at `a`, in which a request of
`r` bytes is served from the same memory. The usable bytes of the block and the
bytes of this memory are the same. All other memory may differ. -/
structure AgreesFor (r sbrk a n : Nat) (h : Heap) (L : Layout) (h₂ : Heap) (L₂ : Layout) :
    Prop where
  wf : WellFormed h₂ L₂
  live : (a, ⟨n, false⟩) ∈ L₂.blocks
  sbrk_answers : ApartChunk h₂.sentinel L₂ sbrk ∨ sbrk = sbrkFailed
  payload : ∀ x, a + 32 ≤ x → x < a + n - 16 → h₂.mem x = h.mem x
  choice : L₂.firstFree r = L.firstFree r
  source : ∀ x, InSource r sbrk L x → h₂.mem x = h.mem x

/-- On another such heap the call returns the same block with the same usable bytes. -/
def NoDisclosure (h : Heap) (L : Layout) (sbrk a n size : Nat) : Prop :=
  ∀ h₂ L₂, AgreesFor (roundedSize size) sbrk a n h L h₂ L₂ →
    ∀ q h' q₂ h₂', Answers h sbrk a size q h' → Answers h₂ sbrk a size q₂ h₂' →
      q₂ = q ∧ objectSize h₂'.mem q = objectSize h'.mem q ∧
        ∀ i, i + 48 < objectSize h'.mem q → h₂'.mem (q + i) = h'.mem (q + i)

/-- When the call returns, all the bytes it has copied are usable bytes of the old block. -/
def CopiesPayload (h : Heap) (sbrk a n size : Nat) : Prop :=
  ∀ q h', Answers h sbrk a size q h' →
    ∀ i, i < objectSize h.mem (a + 32) → i < size → i + 48 < n

theorem Layout.handed_congr {r base : Nat} {L L₂ : Layout} (h : L₂.firstFree r = L.firstFree r) :
    L₂.handed r base = L.handed r base := by
  rw [handed, handed, h]

namespace WellFormed

variable {h : Heap} {L : Layout} {sbrk a n size : Nat}

/-- The block handed out is in the memory it is served from. -/
theorem inSource_handed (wf : WellFormed h L) {r c k x : Nat} (hr : r ≤ 2097200)
    (hck : L.handed r sbrk = (c, k)) (hx : c ≤ x) (hx' : x < c + k) : InSource r sbrk L x := by
  unfold InSource
  rcases Layout.firstFit_cases r L with ⟨H, m, rfl, hm, hfirst, -⟩ | ⟨hnone, -⟩
  · rw [Layout.handed_fit sbrk hm hfirst] at hck
    obtain ⟨rfl, rfl⟩ := Prod.mk.inj hck
    rw [Layout.firstFree_fit hm hfirst]
    simp only
    split at hx' <;> omega
  · rw [Layout.handed_new sbrk hnone] at hck
    obtain ⟨rfl, rfl⟩ := Prod.mk.inj hck
    rw [Layout.firstFree_eq_none.mpr hnone]
    simp only
    omega

/-- A block in use is not in the memory a request is served from. -/
theorem not_inSource (wf : WellFormed h L) {r x : Nat} (hlive : (a, ⟨n, false⟩) ∈ L.blocks)
    (hgrow : L.firstFree r = none → ApartChunk h.sentinel L sbrk) (hx : a ≤ x) (hx' : x < a + n) :
    ¬InSource r sbrk L x := by
  unfold InSource
  rcases Layout.firstFit_cases r L with ⟨H, m, rfl, hm, hfirst, -⟩ | ⟨hnone, -⟩
  · rw [Layout.firstFree_fit hm hfirst]
    simp only
    rcases wf.ok.block_disjoint hlive H.mem_blocks_plug_self with ⟨-, heq⟩ | hsep | hsep
    · cases heq
    · simp only at hsep
      omega
    · simp only at hsep
      omega
  · have hfree := Layout.firstFree_eq_none.mpr hnone
    have hsep := (hgrow hfree).block_sep wf.ok hlive
    rw [hfree]
    simp only at hsep ⊢
    omega

/-- The size and the status in the footer of a block in use are known. -/
theorem footer_byte {h₂ : Heap} {L₂ : Layout} (wf : WellFormed h L) (wf₂ : WellFormed h₂ L₂)
    (hlive : (a, ⟨n, false⟩) ∈ L.blocks) (hlive₂ : (a, ⟨n, false⟩) ∈ L₂.blocks) {x : Nat}
    (hx : a + n - 16 ≤ x) (hx' : x < a + n - 4) : h₂.mem x = h.mem x := by
  have hmin : 48 ≤ n := wf.ok.block_min hlive
  have htags := wf.rep.tags _ _ hlive
  have htags₂ := wf₂.rep.tags _ _ hlive₂
  have hsize : sizeAt h₂.mem (a + n - 16) = sizeAt h.mem (a + n - 16) :=
    htags₂.footer_size.trans htags.footer_size.symm
  have hstatus : statusAt h₂.mem (a + n - 16) = statusAt h.mem (a + n - 16) :=
    htags₂.footer_status.trans htags.footer_status.symm
  by_cases hlow : x < a + n - 16 + 8
  · exact ByteMem.byte_of_load_eq hsize hx hlow
  · exact ByteMem.byte_of_load_eq hstatus (by omega) (by omega)

/-- What the call leaves, when it returns. -/
theorem moved_of_answers {h' : Heap} {q : Nat} (wf : WellFormed h L)
    (hlive : (a, ⟨n, false⟩) ∈ L.blocks)
    (hsbrk : ApartChunk h.sentinel L sbrk ∨ sbrk = sbrkFailed)
    (hans : Answers h sbrk a size q h') {c k : Nat}
    (hck : L.handed (roundedSize size) sbrk = (c, k)) :
    q = c + 32 ∧ Moved h.mem h' a n c k size := by
  have hs := wf.served hlive hans.returns hans.bound
  obtain ⟨h'', heq, hmoved⟩ := wf.realloc_moves hlive hs.1 hck (hs.grows hsbrk)
  obtain ⟨rfl, rfl⟩ := Prod.mk.inj (Option.some.inj (hans.returns.symm.trans heq))
  exact ⟨rfl, hmoved⟩

/-- A request that is served is answered. -/
theorem answers_of_served (wf : WellFormed h L) (hlive : (a, ⟨n, false⟩) ∈ L.blocks)
    (hsbrk : ApartChunk h.sentinel L sbrk ∨ sbrk = sbrkFailed) (hs : Served L sbrk size)
    {c k : Nat} (hck : L.handed (roundedSize size) sbrk = (c, k)) :
    ∃ h', Answers h sbrk a size (c + 32) h' ∧ Moved h.mem h' a n c k size := by
  obtain ⟨h', heq, hmoved⟩ := wf.realloc_moves hlive hs.1 hck (hs.grows hsbrk)
  have hroom := hmoved.room
  have hbound := hmoved.bound
  refine ⟨h', ⟨heq, ?_, by omega⟩, hmoved⟩
  rw [objectSize_payload, hmoved.header]
  exact hroom

/-- Up to 12 bytes more than the block has, nothing is disclosed. -/
theorem noDisclosure_of_le (wf : WellFormed h L) (hlive : (a, ⟨n, false⟩) ∈ L.blocks)
    (hsbrk : ApartChunk h.sentinel L sbrk ∨ sbrk = sbrkFailed) (hsize : size + 36 ≤ n) :
    NoDisclosure h L sbrk a n size := by
  intro h₂ L₂ hagree q h' q₂ h₂' hans hans₂
  obtain ⟨c, k, hck⟩ : ∃ c k, L.handed (roundedSize size) sbrk = (c, k) := ⟨_, _, rfl⟩
  have hs := wf.served hlive hans.returns hans.bound
  have hwrap : size + 55 < 2 ^ 64 := by
    have := hs.1
    omega
  obtain ⟨rfl, hmoved⟩ := wf.moved_of_answers hlive hsbrk hans hck
  obtain ⟨rfl, hmoved₂⟩ := hagree.wf.moved_of_answers hagree.live hagree.sbrk_answers hans₂
    ((Layout.handed_congr hagree.choice).trans hck)
  refine ⟨rfl, ?_, fun i hi => ?_⟩
  · rw [objectSize_payload, objectSize_payload, hmoved.header, hmoved₂.header]
  · rw [objectSize_payload, hmoved.header] at hi
    by_cases his : i < size
    · rw [hmoved.copied i his (by omega), hmoved₂.copied i his (by omega)]
      by_cases hpay : a + 32 + i < a + n - 16
      · exact hagree.payload _ (by omega) hpay
      · exact footer_byte wf hagree.wf hlive hagree.live (by omega) (by omega)
    · rw [hmoved.kept i (Or.inl (by omega)) hi, hmoved₂.kept i (Or.inl (by omega)) hi]
      exact hagree.source _ (wf.inSource_handed ((roundedSize_le_iff hwrap).mpr hs.1) hck
        (by omega) (by omega))

/-- From 13 bytes more on, the last bytes of the footer are. -/
theorem not_noDisclosure (wf : WellFormed h L) (hlive : (a, ⟨n, false⟩) ∈ L.blocks)
    (hsbrk : ApartChunk h.sentinel L sbrk ∨ sbrk = sbrkFailed) (hs : Served L sbrk size)
    (hsize : n < size + 36) : ¬NoDisclosure h L sbrk a n size := by
  intro hno
  have hmin : 48 ≤ n := wf.ok.block_min hlive
  obtain ⟨c, k, hck⟩ : ∃ c k, L.handed (roundedSize size) sbrk = (c, k) := ⟨_, _, rfl⟩
  -- another value in the padding of the footer
  obtain ⟨v, hv⟩ : ∃ v : UInt8, v ≠ h.mem (a + n - 4) := by
    by_cases hzero : h.mem (a + n - 4) = 0
    · exact ⟨1, by rw [hzero]; decide⟩
    · exact ⟨0, Ne.symm hzero⟩
  obtain ⟨m, hm⟩ : ∃ m, m = h.mem.fill (a + n - 4) v 1 := ⟨_, rfl⟩
  have hout : ∀ x, x < a + n - 4 ∨ a + n ≤ x → m x = h.mem x := by
    intro x hx
    rw [hm]
    exact ByteMem.fill_outside _ _ (by omega)
  have wf₂ : WellFormed { h with mem := m } L :=
    wf.write_unused hlive fun x hx => hout x (by omega)
  have hagree : AgreesFor (roundedSize size) sbrk a n h L { h with mem := m } L := by
    refine ⟨wf₂, hlive, hsbrk, fun x hx hx' => hout x (by omega), rfl, fun x hx => hout x ?_⟩
    by_contra hin
    exact wf.not_inSource hlive (hs.grows hsbrk) (by omega) (by omega) hx
  obtain ⟨h', hans, hmoved⟩ := wf.answers_of_served hlive hsbrk hs hck
  obtain ⟨h₂', hans₂, hmoved₂⟩ := wf₂.answers_of_served hlive hsbrk hs hck
  obtain ⟨-, -, hsame⟩ := hno _ _ hagree _ _ _ _ hans hans₂
  have hbyte := hsame (n - 36) (by
    have := hmoved.room
    rw [objectSize_payload, hmoved.header]
    omega)
  have hcopied := hmoved.copied (n - 36) (by omega) (by omega)
  have hcopied₂ := hmoved₂.copied (n - 36) (by omega) (by omega)
  have haddr : a + 32 + (n - 36) = a + n - 4 := by omega
  rw [hcopied, hcopied₂, haddr, hm] at hbyte
  exact hv ((ByteMem.fill_inside _ _ (by omega) (by omega)).symm.trans hbyte)

theorem copiesPayload_iff (wf : WellFormed h L) (hlive : (a, ⟨n, false⟩) ∈ L.blocks)
    (hsbrk : ApartChunk h.sentinel L sbrk ∨ sbrk = sbrkFailed) :
    CopiesPayload h sbrk a n size ↔ size + 48 ≤ n ∨ ¬Served L sbrk size := by
  have hmin : 48 ≤ n := wf.ok.block_min hlive
  have hn : sizeAt h.mem a = n := wf.header_size hlive
  constructor
  · intro hcopies
    by_cases hs : Served L sbrk size
    · obtain ⟨c, k, hck⟩ : ∃ c k, L.handed (roundedSize size) sbrk = (c, k) := ⟨_, _, rfl⟩
      obtain ⟨h', hans, -⟩ := wf.answers_of_served hlive hsbrk hs hck
      have hlast := hcopies _ _ hans (n - 48)
      rw [objectSize_payload, hn] at hlast
      left
      by_contra hlarge
      have := hlast (by omega) (by omega)
      omega
    · exact Or.inr hs
  · intro hcond q h' hans i hi his
    rcases hcond with hsize | hnot
    · omega
    · exact absurd (wf.served hlive hans.returns hans.bound) hnot

theorem noDisclosure_iff (wf : WellFormed h L) (hlive : (a, ⟨n, false⟩) ∈ L.blocks)
    (hsbrk : ApartChunk h.sentinel L sbrk ∨ sbrk = sbrkFailed) :
    NoDisclosure h L sbrk a n size ↔ size + 36 ≤ n ∨ ¬Served L sbrk size := by
  constructor
  · intro hno
    by_contra hcond
    obtain ⟨hlarge, hs⟩ := not_or.mp hcond
    exact wf.not_noDisclosure hlive hsbrk (not_not.mp hs) (Nat.lt_of_not_le hlarge) hno
  · intro hcond
    rcases hcond with hsize | hnot
    · exact wf.noDisclosure_of_le hlive hsbrk hsize
    · intro h₂ L₂ hagree q h' q₂ h₂' hans
      exact absurd (wf.served hlive hans.returns hans.bound) hnot

end WellFormed

/-- **What `realloc` discloses.** A call for a block of `n` bytes copies usable
bytes only, and leaves a block that depends on nothing else, exactly when the
request is not larger than the block, or is not served. The second part alone
holds for 12 bytes more. -/
theorem disclosure_iff {h : Heap} {L : Layout} {sbrk a n size : Nat} (wf : WellFormed h L)
    (hlive : (a, ⟨n, false⟩) ∈ L.blocks)
    (hsbrk : ApartChunk h.sentinel L sbrk ∨ sbrk = sbrkFailed) :
    (NoDisclosure h L sbrk a n size ∧ CopiesPayload h sbrk a n size ↔
      size + 48 ≤ n ∨ ¬Served L sbrk size) ∧
    (NoDisclosure h L sbrk a n size ↔ size + 36 ≤ n ∨ ¬Served L sbrk size) := by
  have hno : NoDisclosure h L sbrk a n size ↔ _ := wf.noDisclosure_iff hlive hsbrk
  have hcopies : CopiesPayload h sbrk a n size ↔ _ := wf.copiesPayload_iff hlive hsbrk
  refine ⟨⟨fun hboth => hcopies.mp hboth.2, fun hcond => ⟨hno.mpr ?_, hcopies.mpr hcond⟩⟩, hno⟩
  rcases hcond with hsize | hnot
  · exact Or.inl (by omega)
  · exact Or.inr hnot

/-- A block of 104 usable bytes, cut down to 100. -/
theorem disclosure_shrink :
    NoDisclosure sampleHeap sampleLayout 2101344 4112 152 100 ∧
      CopiesPayload sampleHeap 2101344 4112 152 100 :=
  (disclosure_iff sampleHeap_spec.1 (by decide) (Or.inl sampleHeap_apart)).1.mpr
    (Or.inl (by decide))

/-- The same block, enlarged to 200 bytes: its footer and the next header are copied. -/
theorem disclosure_footer :
    WellFormed sampleHeap sampleLayout ∧ (4112, ⟨152, false⟩) ∈ sampleLayout.blocks ∧
      ¬NoDisclosure sampleHeap sampleLayout 2101344 4112 152 200 := by
  have hlive : (4112, ⟨152, false⟩) ∈ sampleLayout.blocks := by decide
  refine ⟨sampleHeap_spec.1, hlive, ?_⟩
  exact sampleHeap_spec.1.not_noDisclosure hlive (Or.inl sampleHeap_apart)
    ⟨by decide, Or.inr (by decide)⟩ (by decide)

end Cs252.Malloc
