import Cs252.Malloc.Layout

/-!
# Cs252.Malloc.Policy

What the allocator is for, on layouts alone.

`Layout.allocate` is address-ordered first fit. The first `r` bytes of the
first free block that is large enough are handed out, a rest too small for a
block of its own with them; when no block fits, a new chunk is appended.
`Layout.release` frees every block whose address satisfies a predicate and
merges neighbouring free blocks.

Nothing here looks at memory. The code is shown to implement `allocate` in
`AllocateSound` and `release` in `FreeSound`.
-/

namespace Cs252.Malloc

open Tiling

/-! ### Cutting blocks -/

/-- The cells of a free block of `n` bytes after its first `r` are handed out. -/
def carve (r n : Nat) : List Cell :=
  if n - r < 56 then [⟨n, false⟩] else [⟨r, false⟩, ⟨n - r, true⟩]

/-- The cells of a new chunk whose first `r` bytes are handed out. -/
def carveNew (r : Nat) : List Cell :=
  if r < 2097200 then [⟨r, false⟩, ⟨2097200 - r, true⟩] else [⟨r, false⟩]

section Carve

variable {r n : Nat}

theorem carve_whole (h : n - r < 56) : carve r n = [⟨n, false⟩] := if_pos h

theorem carve_split (h : ¬n - r < 56) : carve r n = [⟨r, false⟩, ⟨n - r, true⟩] := if_neg h

theorem total_carve (h : r ≤ n) : total (carve r n) = n := by
  unfold carve
  split <;> simp [h]

theorem total_carveNew (h : r ≤ 2097200) : total (carveNew r) = 2097200 := by
  unfold carveNew
  split
  · simp [h]
  · simp
    omega

/-- A block is handed out of at least `r` bytes, and nothing else is. -/
theorem mem_placed_carve {p a m : Nat} :
    (p, ⟨m, false⟩) ∈ placed a (carve r n) ↔ p = a ∧ m = if n - r < 56 then n else r := by
  unfold carve
  split <;> simp

theorem mem_placed_carveNew {p a m : Nat} :
    (p, ⟨m, false⟩) ∈ placed a (carveNew r) ↔ p = a ∧ m = r := by
  unfold carveNew
  split <;> simp

theorem carve_min (hr : 48 ≤ r) (h : r ≤ n) : ∀ c ∈ carve r n, 48 ≤ c.size := by
  intro c hc
  unfold carve at hc
  split at hc
  · obtain rfl := List.mem_singleton.mp hc
    exact Nat.le_trans hr h
  · rcases List.mem_cons.mp hc with rfl | hc
    · exact hr
    · obtain rfl := List.mem_singleton.mp hc
      simp only
      omega

/-- Cutting a free block leaves no two free neighbours. -/
theorem normal_carve {pre post : List Cell} (h : Normal (pre ++ ([⟨n, true⟩] ++ post))) :
    Normal (pre ++ (carve r n ++ post)) := by
  obtain ⟨⟨hpre, -⟩, hpost⟩ := normal_free_between.mp h
  unfold carve
  split
  · exact normal_used_between.mpr ⟨hpre, hpost.1⟩
  · exact normal_used_between.mpr ⟨hpre, normal_free_cons.mpr hpost⟩

theorem normal_carveNew (r : Nat) : Normal (carveNew r) := by
  unfold carveNew
  split <;> simp [Tiling.Normal]

end Carve

/-! ### First fit -/

/-- Every free block of `bs` is smaller than `r` bytes. -/
def NoFit (r : Nat) (bs : List (Nat × Cell)) : Prop :=
  ∀ a c, (a, c) ∈ bs → c.free = true → c.size < r

theorem noFit_nil (r : Nat) : NoFit r [] := by
  intro a c h
  simp at h

theorem noFit_append {r : Nat} {bs bs' : List (Nat × Cell)} :
    NoFit r (bs ++ bs') ↔ NoFit r bs ∧ NoFit r bs' := by
  simp only [NoFit, List.mem_append]
  constructor
  · intro h
    exact ⟨fun a c hc => h a c (Or.inl hc), fun a c hc => h a c (Or.inr hc)⟩
  · intro h a c hc
    exact hc.elim (h.1 a c) (h.2 a c)

/-- The blocks before a hole. -/
def Hole.earlier (H : Hole) : List (Nat × Cell) :=
  H.before.blocks ++ placed (H.base + 16) H.pre

theorem Hole.mem_freeBefore {H : Hole} {a : Nat} :
    a ∈ H.freeBefore ↔ ∃ c, (a, c) ∈ H.earlier ∧ c.free = true := by
  simp only [freeBefore, earlier, List.mem_append, Layout.mem_freeAddrs, Tiling.mem_freeAddrs]
  constructor
  · rintro (⟨c, hc, hf⟩ | ⟨c, hc, hf⟩)
    · exact ⟨c, Or.inl hc, hf⟩
    · exact ⟨c, Or.inr hc, hf⟩
  · rintro ⟨c, hc | hc, hf⟩
    · exact Or.inl ⟨c, hc, hf⟩
    · exact Or.inr ⟨c, hc, hf⟩

theorem Hole.mem_blocks_of_earlier {H : Hole} {mid : List Cell} {b : Nat × Cell}
    (h : b ∈ H.earlier) : b ∈ (H.plug mid).blocks := by
  refine mem_blocks_plug.mpr (Or.inl ?_)
  rw [earlier, List.mem_append] at h
  simp only [others, List.mem_append]
  exact h.elim Or.inl fun h => Or.inr (Or.inl h)

/-- Every block is the filling of a hole. -/
theorem Hole.of_mem_blocks {L : Layout} {a : Nat} {c : Cell} (h : (a, c) ∈ L.blocks) :
    ∃ H : Hole, L = H.plug [c] ∧ H.addr = a := by
  obtain ⟨ch, hch, hmem⟩ := Layout.mem_blocks.mp h
  obtain ⟨before, after, rfl⟩ := List.append_of_mem hch
  obtain ⟨pre, post, hcells, rfl⟩ := split_of_mem_placed hmem
  refine ⟨⟨before, ch.base, pre, post, after⟩, ?_, rfl⟩
  simp [plug, ← hcells]

/-- First fit among the cells of one chunk, the first one at `a`. -/
def fitCells (r : Nat) : Nat → List Cell → Option (Nat × List Cell)
  | _, [] => none
  | a, c :: cs =>
    if c.free ∧ r ≤ c.size then some (a, carve r c.size ++ cs)
    else (fitCells r (a + c.size) cs).map fun (b, ds) => (b, c :: ds)

/-- The search in a chunk stops at the first free cell that is large enough, or
there is none. -/
theorem fitCells_cases (r a : Nat) (cs : List Cell) :
    (∃ pre n post, cs = pre ++ ⟨n, true⟩ :: post ∧ r ≤ n ∧ NoFit r (placed a pre) ∧
      fitCells r a cs = some (a + total pre, pre ++ (carve r n ++ post))) ∨
    (NoFit r (placed a cs) ∧ fitCells r a cs = none) := by
  induction cs generalizing a with
  | nil => exact Or.inr ⟨noFit_nil r, rfl⟩
  | cons c cs ih =>
    by_cases hc : c.free = true ∧ r ≤ c.size
    · obtain ⟨n, free⟩ := c
      simp only at hc
      obtain ⟨rfl, hn⟩ := hc
      exact Or.inl ⟨[], n, cs, rfl, hn, noFit_nil r, by simp [fitCells, hn]⟩
    · have hsmall : c.free = true → c.size < r := by
        intro hf
        simpa [hf] using hc
      rcases ih (a + c.size) with ⟨pre, n, post, rfl, hn, hpre, heq⟩ | ⟨hnone, heq⟩
      · refine Or.inl ⟨c :: pre, n, post, rfl, hn, ?_, ?_⟩
        · intro b d hd hf
          rcases List.mem_cons.mp hd with hd | hd
          · obtain ⟨rfl, rfl⟩ := Prod.mk.injEq .. ▸ hd
            exact hsmall hf
          · exact hpre b d hd hf
        · rw [fitCells, if_neg hc, heq]
          simp [Nat.add_assoc]
      · refine Or.inr ⟨fun b d hd hf => ?_, ?_⟩
        · rcases List.mem_cons.mp hd with hd | hd
          · obtain ⟨rfl, rfl⟩ := Prod.mk.injEq .. ▸ hd
            exact hsmall hf
          · exact hnone b d hd hf
        · rw [fitCells, if_neg hc, heq]
          rfl

namespace Layout

/-- First fit among all blocks, in the order of the layout. -/
def firstFit (r : Nat) : Layout → Option (Nat × Layout)
  | [] => none
  | c :: L =>
    match fitCells r (c.base + 16) c.cells with
    | some (a, cells) => some (a, ⟨c.base, cells⟩ :: L)
    | none => (firstFit r L).map fun (a, L') => (a, c :: L')

/-- Hand out a block of at least `r` bytes. `base` is the address of the new
chunk, in case none fits. -/
def allocate (r base : Nat) (L : Layout) : Nat × Layout :=
  (L.firstFit r).getD (base + 16, L ++ [⟨base, carveNew r⟩])

/-- Free the blocks whose addresses satisfy `p`. -/
def release (p : Nat → Bool) (L : Layout) : Layout :=
  L.map fun c => ⟨c.base, coalesce (mark p (c.base + 16) c.cells)⟩

/-- First fit takes the first free block that is large enough, or there is none. -/
theorem firstFit_cases (r : Nat) (L : Layout) :
    (∃ (H : Hole) (n : Nat), L = H.plug [⟨n, true⟩] ∧ r ≤ n ∧ NoFit r H.earlier ∧
      L.firstFit r = some (H.addr, H.plug (carve r n))) ∨
    (NoFit r L.blocks ∧ L.firstFit r = none) := by
  induction L with
  | nil => exact Or.inr ⟨noFit_nil r, rfl⟩
  | cons c L ih =>
    rcases fitCells_cases r (c.base + 16) c.cells with
      ⟨pre, n, post, hcells, hn, hpre, heq⟩ | ⟨hnone, heq⟩
    · refine Or.inl ⟨⟨[], c.base, pre, post, L⟩, n, ?_, hn, hpre, ?_⟩
      · simp [Hole.plug, ← hcells]
      · rw [firstFit, heq]
        rfl
    · rcases ih with ⟨H, n, rfl, hn, hbefore, hfit⟩ | ⟨hnone', hfit⟩
      · refine Or.inl ⟨⟨c :: H.before, H.base, H.pre, H.post, H.after⟩, n, rfl, hn, ?_, ?_⟩
        · rw [Hole.earlier, blocks_cons, List.append_assoc]
          exact noFit_append.mpr ⟨hnone, hbefore⟩
        · rw [firstFit, heq, hfit]
          rfl
      · refine Or.inr ⟨noFit_append.mpr ⟨hnone, hnone'⟩, ?_⟩
        rw [firstFit, heq, hfit]
        rfl

theorem allocate_of_fit {r base n : Nat} {L : Layout} {H : Hole}
    (h : L.firstFit r = some (H.addr, H.plug (carve r n))) :
    L.allocate r base = (H.addr, H.plug (carve r n)) := by
  rw [allocate, h]
  rfl

theorem allocate_of_none {r base : Nat} {L : Layout} (h : L.firstFit r = none) :
    L.allocate r base = (base + 16, L ++ [⟨base, carveNew r⟩]) := by
  rw [allocate, h]
  rfl

/-- The first free block of at least `r` bytes: its address and its size. -/
def firstFree (r : Nat) (L : Layout) : Option (Nat × Nat) :=
  (L.blocks.find? fun b => b.2.free && decide (r ≤ b.2.size)).map fun b => (b.1, b.2.size)

/-- The block handed out for `r` bytes: its address and its size. -/
def handed (r base : Nat) (L : Layout) : Nat × Nat :=
  match L.firstFree r with
  | some (a, n) => (a, if n - r < 56 then n else r)
  | none => (base + 16, r)

theorem firstFree_eq_none {r : Nat} {L : Layout} : L.firstFree r = none ↔ NoFit r L.blocks := by
  rw [firstFree, Option.map_eq_none_iff, List.find?_eq_none]
  constructor
  · intro h a c hc hfree
    have := h (a, c) hc
    simpa [hfree] using this
  · rintro h ⟨a, c⟩ hc
    have := h a c hc
    simp only [Bool.and_eq_true, decide_eq_true_eq, not_and, Nat.not_le]
    exact this

theorem firstFree_fit {r n : Nat} {H : Hole} (hn : r ≤ n) (h : NoFit r H.earlier) :
    (H.plug [⟨n, true⟩]).firstFree r = some (H.addr, n) := by
  have hblocks : (H.plug [⟨n, true⟩]).blocks = H.earlier ++ ((H.addr, ⟨n, true⟩) ::
      (placed (H.addr + n) H.post ++ H.after.blocks)) := by
    simp [Hole.plug, Hole.earlier, Hole.addr, Nat.add_assoc]
  have hbefore : H.earlier.find? (fun b => b.2.free && decide (r ≤ b.2.size)) = none := by
    rw [List.find?_eq_none]
    rintro ⟨a, c⟩ hc
    have := h a c hc
    simp only [Bool.and_eq_true, decide_eq_true_eq, not_and, Nat.not_le]
    exact this
  rw [firstFree, hblocks, List.find?_append, hbefore]
  simp [hn]

/-- First fit finds nothing where there is no free block to find. -/
theorem firstFit_of_firstFree {r : Nat} {L : Layout} (h : L.firstFree r = none) :
    L.firstFit r = none := by
  rcases firstFit_cases r L with ⟨H, n, rfl, hn, hfirst, -⟩ | ⟨-, hfit⟩
  · rw [firstFree_fit hn hfirst] at h
    cases h
  · exact hfit

theorem handed_fit {r n : Nat} {H : Hole} (base : Nat) (hn : r ≤ n) (h : NoFit r H.earlier) :
    (H.plug [⟨n, true⟩]).handed r base = (H.addr, if n - r < 56 then n else r) := by
  rw [handed, firstFree_fit hn h]

theorem handed_new {r : Nat} {L : Layout} (base : Nat) (h : NoFit r L.blocks) :
    L.handed r base = (base + 16, r) := by
  rw [handed, firstFree_eq_none.mpr h]

/-! ### Live blocks -/

/-- There is a block in use at `a`. -/
def Live (L : Layout) (a : Nat) : Prop := ∃ n, (a, ⟨n, false⟩) ∈ L.blocks

/-- `ptr` points to the usable bytes of a block in use. -/
def LivePtr (L : Layout) (ptr : Nat) : Prop := ∃ a, ptr = a + 32 ∧ L.Live a

/-- Allocation adds the block handed out to the blocks in use and changes no other. -/
theorem mem_blocks_handed {r base a n : Nat} {L : Layout} :
    (a, ⟨n, false⟩) ∈ (L.allocate r base).2.blocks ↔
      (a, ⟨n, false⟩) ∈ L.blocks ∨ (a, n) = L.handed r base := by
  rcases firstFit_cases r L with ⟨H, k, rfl, hk, hfirst, hfit⟩ | ⟨hnone, hfit⟩
  · rw [allocate_of_fit hfit, Hole.mem_blocks_plug, Hole.mem_blocks_plug, mem_placed_carve,
      total_carve hk, handed_fit base hk hfirst]
    simp
  · rw [allocate_of_none hfit, blocks_append, List.mem_append, blocks_cons, blocks_nil,
      List.append_nil, mem_placed_carveNew, handed_new base hnone, Prod.mk.injEq]

theorem fst_handed (r base : Nat) (L : Layout) :
    (L.handed r base).1 = (L.allocate r base).1 := by
  rcases firstFit_cases r L with ⟨H, k, rfl, hk, hfirst, hfit⟩ | ⟨hnone, hfit⟩
  · rw [handed_fit base hk hfirst, allocate_of_fit hfit]
  · rw [handed_new base hnone, allocate_of_none hfit]

/-- The block handed out has at least `r` bytes. -/
theorem le_snd_handed (r base : Nat) (L : Layout) : r ≤ (L.handed r base).2 := by
  rcases firstFit_cases r L with ⟨H, k, rfl, hk, hfirst, -⟩ | ⟨hnone, -⟩
  · rw [handed_fit base hk hfirst]
    simp only
    split <;> omega
  · rw [handed_new base hnone]

/-- Allocation adds one block in use, of at least `r` bytes, and changes no other. -/
theorem mem_blocks_allocate (r base : Nat) (L : Layout) :
    ∃ k, r ≤ k ∧ ∀ a n, (a, ⟨n, false⟩) ∈ (L.allocate r base).2.blocks ↔
      (a, ⟨n, false⟩) ∈ L.blocks ∨ (a = (L.allocate r base).1 ∧ n = k) := by
  refine ⟨(L.handed r base).2, le_snd_handed r base L, fun a n => ?_⟩
  rw [mem_blocks_handed, ← fst_handed, Prod.ext_iff]

/-- The chunks after an allocation have the addresses they had, but for a new one. -/
theorem base_of_mem_allocate {r base : Nat} {L : Layout} {c : Chunk}
    (hc : c ∈ (L.allocate r base).2) : (∃ d ∈ L, d.base = c.base) ∨ c.base = base := by
  rcases firstFit_cases r L with ⟨H, n, rfl, -, -, hfit⟩ | ⟨-, hfit⟩
  · rw [allocate_of_fit hfit] at hc
    obtain ⟨d, hd, hbase, -⟩ := Hole.exists_chunk_of_mem_plug [⟨n, true⟩] hc
    exact Or.inl ⟨d, hd, hbase⟩
  · rw [allocate_of_none hfit] at hc
    rcases List.mem_append.mp hc with hc | hc
    · exact Or.inl ⟨c, hc, rfl⟩
    · obtain rfl := List.mem_singleton.mp hc
      exact Or.inr rfl

/-- Release takes the released blocks out of use and changes no other. -/
theorem mem_blocks_release {p : Nat → Bool} {L : Layout} {a n : Nat} :
    (a, ⟨n, false⟩) ∈ (L.release p).blocks ↔ (a, ⟨n, false⟩) ∈ L.blocks ∧ p a = false := by
  induction L with
  | nil => simp [release]
  | cons c L ih =>
    rw [release, List.map_cons, blocks_cons, List.mem_append, ← release, ih, mem_placed_coalesce,
      mem_placed_mark, blocks_cons, List.mem_append, or_and_right]

theorem live_release {p : Nat → Bool} {L : Layout} {a : Nat} :
    (L.release p).Live a ↔ L.Live a ∧ p a = false := by
  simp only [Live, mem_blocks_release, exists_and_right]

theorem livePtr_release {p : Nat → Bool} {L : Layout} {a : Nat} :
    (L.release p).LivePtr (a + 32) ↔ L.LivePtr (a + 32) ∧ p a = false := by
  simp only [LivePtr, live_release, Nat.add_right_cancel_iff]
  constructor
  · intro ⟨b, hb, hlive, hp⟩
    exact ⟨⟨b, hb, hlive⟩, hb ▸ hp⟩
  · intro ⟨⟨b, hb, hlive⟩, hp⟩
    exact ⟨b, hb, hlive, hb ▸ hp⟩

/-! ### Laws of release -/

theorem map_base_release (p : Nat → Bool) (L : Layout) :
    (L.release p).map Chunk.base = L.map Chunk.base := by
  simp [release, Function.comp_def]

/-- Releasing in two steps is releasing at once. -/
theorem release_release (p q : Nat → Bool) (L : Layout) :
    (L.release p).release q = L.release fun a => p a || q a := by
  simp only [release, List.map_map]
  refine List.map_congr_left fun c _ => ?_
  simp only [Function.comp_apply, coalesce_mark_coalesce, mark_mark]

/-- Releasing no block in use changes nothing. -/
theorem release_of_none {s : Nat} {L : Layout} {p : Nat → Bool} (ok : LayoutOk s L)
    (h : ∀ a n, (a, ⟨n, false⟩) ∈ L.blocks → p a = false) : L.release p = L := by
  have hid : ∀ c ∈ L, (⟨c.base, coalesce (mark p (c.base + 16) c.cells)⟩ : Chunk) = c := by
    intro c hc
    rw [mark_of_none, coalesce_of_normal (ok.normal c hc)]
    intro x d hd
    obtain ⟨n, free⟩ := d
    cases free with
    | true => exact Or.inl rfl
    | false => exact Or.inr (h x n (mem_blocks.mpr ⟨c, hc, hd⟩))
  rw [release, List.map_congr_left hid, List.map_id']

/-- Releasing the blocks in use of a hole fills it with one free block, when its
neighbours are in use. -/
theorem release_plug {s : Nat} {H : Hole} {mid : List Cell} {p : Nat → Bool}
    (ok : LayoutOk s (H.plug mid)) (ok' : LayoutOk s (H.plug [⟨total mid, true⟩]))
    (hne : mark p H.addr mid ≠ []) (hmid : ∀ c ∈ mark p H.addr mid, c.free = true)
    (hothers : ∀ a n, (a, ⟨n, false⟩) ∈ H.others (total mid) → p a = false) :
    (H.plug mid).release p = H.plug [⟨total mid, true⟩] := by
  have hnone : ∀ a c, (a, c) ∈ H.others (total mid) → c.free = true ∨ p a = false := by
    intro a c hc
    obtain ⟨n, free⟩ := c
    cases free with
    | true => exact Or.inl rfl
    | false => exact Or.inr (hothers a n hc)
  have hkeep : ∀ c ∈ H.plug mid, (∀ b ∈ placed (c.base + 16) c.cells, b ∈ H.others (total mid)) →
      (⟨c.base, coalesce (mark p (c.base + 16) c.cells)⟩ : Chunk) = c := by
    intro c hc hblocks
    rw [mark_of_none fun a d hd => hnone a d (hblocks _ hd), coalesce_of_normal (ok.normal c hc)]
  have haround : ∀ c, c ∈ H.before ∨ c ∈ H.after →
      (⟨c.base, coalesce (mark p (c.base + 16) c.cells)⟩ : Chunk) = c := by
    rintro c (hc | hc)
    all_goals
      refine hkeep c (by simp [Hole.plug, hc]) fun b hb => ?_
      have hb' := mem_blocks.mpr ⟨c, hc, hb⟩
      simp [Hole.others, hb']
  have hpre : mark p (H.base + 16) H.pre = H.pre :=
    mark_of_none fun a c hc => hnone a c (by simp [Hole.others, hc])
  have hpost : mark p (H.addr + total mid) H.post = H.post :=
    mark_of_none fun a c hc => hnone a c (by simp [Hole.others, hc])
  have hcells : coalesce (mark p (H.base + 16) (H.pre ++ (mid ++ H.post)))
      = H.pre ++ ([⟨total mid, true⟩] ++ H.post) := by
    rw [mark_append, mark_append, hpre, ← Hole.addr, hpost, coalesce_merge_all hne hmid, total_mark]
    exact coalesce_of_normal (ok'.normal _ (H.chunk_mem _))
  have hbefore := List.map_congr_left fun c hc => haround c (.inl hc)
  have hafter := List.map_congr_left fun c hc => haround c (.inr hc)
  simp only [release, Hole.plug, List.map_append, List.map_cons, hbefore, hafter, hcells,
    List.map_id']

/-- Releasing everything leaves one free block in every chunk. -/
theorem release_all {s : Nat} {L : Layout} {p : Nat → Bool} (ok : LayoutOk s L)
    (h : ∀ a, L.Live a → p a = true) :
    L.release p = L.map fun c => ⟨c.base, [⟨2097200, true⟩]⟩ := by
  refine List.map_congr_left fun c hc => ?_
  have htotal := ok.total_eq c hc
  have hne : mark p (c.base + 16) c.cells ≠ [] := by
    intro hnil
    have : total (mark p (c.base + 16) c.cells) = 0 := by rw [hnil]; rfl
    rw [total_mark] at this
    omega
  have hfree : ∀ d ∈ mark p (c.base + 16) c.cells, d.free = true := by
    intro d hd
    obtain ⟨x, hx⟩ := exists_placed_of_mem (c.base + 16) hd
    obtain ⟨n, free⟩ := d
    cases free with
    | true => rfl
    | false =>
      obtain ⟨hblock, hp⟩ := mem_placed_mark.mp hx
      have := h x ⟨n, mem_blocks.mpr ⟨c, hc, hblock⟩⟩
      simp_all
  rw [coalesce_of_all_free hne hfree, total_mark, htotal]

end Layout

/-! ### Alignment -/

/-- Chunk addresses and block sizes are multiples of 8. -/
structure Aligned (L : Layout) : Prop where
  base : ∀ c ∈ L, 8 ∣ c.base
  size : ∀ c ∈ L, ∀ b ∈ c.cells, 8 ∣ b.size

theorem dvd_size_of_mem_carve {r n : Nat} (hr : 8 ∣ r) (hn : 8 ∣ n) :
    ∀ c ∈ carve r n, 8 ∣ c.size := by
  intro c hc
  unfold carve at hc
  split at hc <;> simp at hc
  · exact hc ▸ hn
  · rcases hc with rfl | rfl
    · exact hr
    · exact Nat.dvd_sub hn hr

theorem dvd_size_of_mem_carveNew {r : Nat} (hr : 8 ∣ r) : ∀ c ∈ carveNew r, 8 ∣ c.size := by
  intro c hc
  unfold carveNew at hc
  split at hc <;> simp at hc
  · rcases hc with rfl | rfl
    · exact hr
    · exact Nat.dvd_sub (by decide) hr
  · exact hc ▸ hr

theorem Aligned.allocate {r base : Nat} {L : Layout} (h : Aligned L) (hr : 8 ∣ r)
    (hbase : 8 ∣ base) : Aligned (L.allocate r base).2 := by
  rcases Layout.firstFit_cases r L with ⟨H, n, rfl, hn, -, hfit⟩ | ⟨-, hfit⟩
  · rw [Layout.allocate_of_fit hfit]
    have hcells := h.size _ (H.chunk_mem [⟨n, true⟩])
    have hfree : 8 ∣ n := hcells ⟨n, true⟩ (by simp)
    constructor
    · intro c hc
      obtain ⟨d, hd, hbase, -⟩ := Hole.exists_chunk_of_mem_plug [⟨n, true⟩] hc
      exact hbase ▸ h.base d hd
    · intro c hc b hb
      obtain ⟨d, hd, -, rfl | hmid⟩ := Hole.exists_chunk_of_mem_plug [⟨n, true⟩] hc
      · exact h.size d hd b hb
      · rw [hmid, List.mem_append, List.mem_append] at hb
        rcases hb with hb | hb | hb
        · exact hcells b (by simp [hb])
        · exact dvd_size_of_mem_carve hr hfree b hb
        · exact hcells b (by simp [hb])
  · rw [Layout.allocate_of_none hfit]
    constructor
    · intro c hc
      rcases List.mem_append.mp hc with hc | hc
      · exact h.base c hc
      · obtain rfl := List.mem_singleton.mp hc
        exact hbase
    · intro c hc
      rcases List.mem_append.mp hc with hc | hc
      · exact h.size c hc
      · obtain rfl := List.mem_singleton.mp hc
        exact dvd_size_of_mem_carveNew hr

theorem Aligned.release {L : Layout} (h : Aligned L) (p : Nat → Bool) : Aligned (L.release p) := by
  constructor
  · intro c hc
    obtain ⟨d, hd, rfl⟩ := List.mem_map.mp hc
    exact h.base d hd
  · intro c hc
    obtain ⟨d, hd, rfl⟩ := List.mem_map.mp hc
    exact size_of_mem_coalesce (fun _ _ => Nat.dvd_add) (size_of_mem_mark (h.size d hd))

end Cs252.Malloc
