import Mathlib.Algebra.GroupWithZero.Nat
import Mathlib.Data.List.Chain
import Mathlib.Data.List.Nodup

/-!
# Cs252.Lib.Tiling

A contiguous region cut into cells that are free or in use.

`placed a cs` lists the cells with their addresses when the first one starts
at `a`. A tiling is *normal* when no two neighbouring cells are free, and
`coalesce` merges the free cells that are neighbours. `mark p` frees every cell
whose address satisfies `p`.

The law that makes release order irrelevant is `coalesce_mark_coalesce`:
coalescing before marking more cells free changes nothing, once the result is
coalesced. It holds because merging two free cells keeps the address of every
cell in use.
-/

/-- A cell of a tiling: its size and whether it is free. -/
structure Cell where
  size : Nat
  free : Bool
  deriving Repr, DecidableEq

namespace Tiling

/-- The size of the region the cells fill. -/
def total (cs : List Cell) : Nat := (cs.map Cell.size).sum

@[simp] theorem total_nil : total [] = 0 := rfl
@[simp] theorem total_cons (c : Cell) (cs : List Cell) :
    total (c :: cs) = c.size + total cs := by
  simp [total]
@[simp] theorem total_append (xs ys : List Cell) :
    total (xs ++ ys) = total xs + total ys := by
  simp [total]

/-- The cells with their addresses, the first one at `a`. -/
def placed : Nat → List Cell → List (Nat × Cell)
  | _, [] => []
  | a, c :: cs => (a, c) :: placed (a + c.size) cs

@[simp] theorem placed_nil (a : Nat) : placed a [] = [] := rfl
@[simp] theorem placed_cons (a : Nat) (c : Cell) (cs : List Cell) :
    placed a (c :: cs) = (a, c) :: placed (a + c.size) cs := rfl

@[simp] theorem placed_append (a : Nat) (xs ys : List Cell) :
    placed a (xs ++ ys) = placed a xs ++ placed (a + total xs) ys := by
  induction xs generalizing a with
  | nil => rfl
  | cons c xs ih => simp [ih, Nat.add_assoc]

/-- A placed cell splits the tiling at its address. -/
theorem split_of_mem_placed {a p : Nat} {c : Cell} {cs : List Cell}
    (h : (p, c) ∈ placed a cs) : ∃ pre post, cs = pre ++ c :: post ∧ p = a + total pre := by
  induction cs generalizing a with
  | nil => simp at h
  | cons d cs ih =>
    rcases List.mem_cons.mp h with he | h
    · obtain ⟨rfl, rfl⟩ := Prod.mk.injEq .. ▸ he
      exact ⟨[], cs, rfl, by simp⟩
    · obtain ⟨pre, post, rfl, rfl⟩ := ih h
      exact ⟨d :: pre, post, rfl, by simp [Nat.add_assoc]⟩

theorem mem_of_mem_placed {a p : Nat} {c : Cell} {cs : List Cell}
    (h : (p, c) ∈ placed a cs) : c ∈ cs := by
  obtain ⟨pre, post, rfl, -⟩ := split_of_mem_placed h
  simp

theorem exists_placed_of_mem (a : Nat) {c : Cell} {cs : List Cell} (h : c ∈ cs) :
    ∃ p, (p, c) ∈ placed a cs := by
  obtain ⟨pre, post, rfl⟩ := List.append_of_mem h
  exact ⟨a + total pre, by simp⟩

/-- A placed cell lies inside the region. -/
theorem placed_bounds {a p : Nat} {c : Cell} {cs : List Cell} (h : (p, c) ∈ placed a cs) :
    a ≤ p ∧ p + c.size ≤ a + total cs := by
  obtain ⟨pre, post, rfl, rfl⟩ := split_of_mem_placed h
  simp only [total_append, total_cons]
  omega

/-- Two placed cells are the same cell or do not overlap. -/
theorem placed_disjoint {a p q : Nat} {c d : Cell} {cs : List Cell}
    (hc : (p, c) ∈ placed a cs) (hd : (q, d) ∈ placed a cs) :
    (p = q ∧ c = d) ∨ p + c.size ≤ q ∨ q + d.size ≤ p := by
  obtain ⟨pre, post, rfl, rfl⟩ := split_of_mem_placed hc
  rw [placed_append, List.mem_append, placed_cons, List.mem_cons] at hd
  rcases hd with hd | hd | hd
  · have := placed_bounds hd
    omega
  · exact Or.inl ⟨(congrArg Prod.fst hd).symm, (congrArg Prod.snd hd).symm⟩
  · have := placed_bounds hd
    omega

/-! ### Free cells -/

/-- The addresses of the free cells, in ascending order. -/
def freeAddrs : Nat → List Cell → List Nat
  | _, [] => []
  | a, c :: cs => (if c.free then [a] else []) ++ freeAddrs (a + c.size) cs

@[simp] theorem freeAddrs_nil (a : Nat) : freeAddrs a [] = [] := rfl
@[simp] theorem freeAddrs_cons (a : Nat) (c : Cell) (cs : List Cell) :
    freeAddrs a (c :: cs) = (if c.free then [a] else []) ++ freeAddrs (a + c.size) cs := rfl

@[simp] theorem freeAddrs_append (a : Nat) (xs ys : List Cell) :
    freeAddrs a (xs ++ ys) = freeAddrs a xs ++ freeAddrs (a + total xs) ys := by
  induction xs generalizing a with
  | nil => rfl
  | cons c xs ih => simp [ih, Nat.add_assoc]

theorem freeAddrs_eq_filter (a : Nat) (cs : List Cell) :
    freeAddrs a cs = ((placed a cs).filter fun b => b.2.free).map Prod.fst := by
  induction cs generalizing a with
  | nil => rfl
  | cons c cs ih =>
    rw [freeAddrs_cons, placed_cons, ih]
    cases hfree : c.free <;> simp [hfree]

theorem mem_freeAddrs {a p : Nat} {cs : List Cell} :
    p ∈ freeAddrs a cs ↔ ∃ c, (p, c) ∈ placed a cs ∧ c.free = true := by
  rw [freeAddrs_eq_filter, List.mem_map]
  constructor
  · rintro ⟨⟨q, c⟩, hc, rfl⟩
    exact ⟨c, List.mem_filter.mp hc⟩
  · rintro ⟨c, hc, hf⟩
    exact ⟨(p, c), List.mem_filter.mpr ⟨hc, hf⟩, rfl⟩

/-- The addresses of the free cells ascend strictly. -/
theorem freeAddrs_sorted (a : Nat) (cs : List Cell) (hpos : ∀ c ∈ cs, 0 < c.size) :
    (freeAddrs a cs).Pairwise (· < ·) := by
  induction cs generalizing a with
  | nil => exact List.Pairwise.nil
  | cons c cs ih =>
    have htail := ih (a + c.size) fun d hd => hpos d (List.mem_cons_of_mem _ hd)
    rw [freeAddrs_cons, List.pairwise_append]
    refine ⟨by split <;> simp, htail, fun x hx y hy => ?_⟩
    obtain ⟨d, hd, -⟩ := mem_freeAddrs.mp hy
    have hxa : x = a := by
      cases hf : c.free <;> simp [hf] at hx
      exact hx
    have := placed_bounds hd
    have := hpos c (by simp)
    omega

/-! ### Normal tilings -/

/-- No two neighbouring cells are free. -/
def Normal (cs : List Cell) : Prop :=
  cs.IsChain fun c d => ¬(c.free = true ∧ d.free = true)

instance (cs : List Cell) : Decidable (Normal cs) :=
  inferInstanceAs (Decidable (List.IsChain _ _))

/-- Put `c` in front of a tiling, merging it with a free first cell. -/
def attach (c : Cell) : List Cell → List Cell
  | [] => [c]
  | d :: ds => if c.free ∧ d.free then ⟨c.size + d.size, true⟩ :: ds else c :: d :: ds

/-- Merge every run of free cells into one. -/
def coalesce : List Cell → List Cell
  | [] => []
  | c :: cs => attach c (coalesce cs)

@[simp] theorem coalesce_nil : coalesce [] = [] := rfl
theorem coalesce_cons (c : Cell) (cs : List Cell) :
    coalesce (c :: cs) = attach c (coalesce cs) := rfl

/-- Attaching two free cells one after the other is attaching their union. -/
theorem attach_attach {c d : Cell} (hc : c.free = true) (hd : d.free = true) (cs : List Cell) :
    attach c (attach d cs) = attach ⟨c.size + d.size, true⟩ cs := by
  cases cs with
  | nil => simp [attach, hc, hd]
  | cons e es =>
    cases he : e.free <;> simp [attach, hc, hd, he, Nat.add_assoc]

/-- A property of sizes that is kept by sums is kept by coalescing. -/
theorem size_of_mem_coalesce {P : Nat → Prop} (hadd : ∀ m n, P m → P n → P (m + n))
    {cs : List Cell} (h : ∀ c ∈ cs, P c.size) : ∀ c ∈ coalesce cs, P c.size := by
  induction cs with
  | nil => simp
  | cons d cs ih =>
    have htail := ih fun c hc => h c (List.mem_cons_of_mem _ hc)
    have hd := h d (by simp)
    intro c hc
    rw [coalesce_cons] at hc
    cases hcs : coalesce cs with
    | nil =>
      rw [hcs] at hc
      obtain rfl : c = d := by simpa [attach] using hc
      exact hd
    | cons e es =>
      rw [hcs, attach] at hc
      rw [hcs] at htail
      split at hc
      · rcases List.mem_cons.mp hc with rfl | hc
        · exact hadd _ _ hd (htail e (by simp))
        · exact htail c (List.mem_cons_of_mem _ hc)
      · rcases List.mem_cons.mp hc with rfl | hc
        · exact hd
        · exact htail c hc

theorem coalesce_of_normal {cs : List Cell} (h : Normal cs) : coalesce cs = cs := by
  induction cs with
  | nil => rfl
  | cons c cs ih =>
    rw [coalesce_cons, ih (List.IsChain.tail h)]
    cases cs with
    | nil => rfl
    | cons d ds =>
      have hcd : ¬(c.free = true ∧ d.free = true) := (List.isChain_cons_cons.mp h).1
      rw [attach, if_neg hcd]

/-- The last cell, if there is one, is in use. -/
def ClosedRight (cs : List Cell) : Prop := ∀ c ∈ cs.getLast?, c.free = false

/-- The first cell, if there is one, is in use. -/
def ClosedLeft (cs : List Cell) : Prop := ∀ c ∈ cs.head?, c.free = false

/-- A cell in use separates what is left and right of it. -/
theorem normal_used_between {n : Nat} {xs ys : List Cell} :
    Normal (xs ++ ⟨n, false⟩ :: ys) ↔ Normal xs ∧ Normal ys := by
  rw [Normal, List.isChain_append, List.isChain_cons]
  simp [Normal]

/-- A free cell needs a cell in use, or an end of the region, on both sides. -/
theorem normal_free_between {n : Nat} {xs ys : List Cell} :
    Normal (xs ++ ⟨n, true⟩ :: ys)
      ↔ (Normal xs ∧ ClosedRight xs) ∧ Normal ys ∧ ClosedLeft ys := by
  rw [Normal, List.isChain_append, List.isChain_cons]
  simp only [List.head?_cons, Option.mem_def, Option.some.injEq, forall_eq', and_true, true_and,
    Bool.not_eq_true, Normal, ClosedRight, ClosedLeft]
  tauto

theorem normal_used_cons {n : Nat} {ys : List Cell} :
    Normal (⟨n, false⟩ :: ys) ↔ Normal ys := by
  rw [Normal, List.isChain_cons]
  simp [Normal]

theorem normal_free_cons {n : Nat} {ys : List Cell} :
    Normal (⟨n, true⟩ :: ys) ↔ Normal ys ∧ ClosedLeft ys := by
  rw [Normal, List.isChain_cons]
  simp only [true_and, Option.mem_def, Bool.not_eq_true, Normal, ClosedLeft]
  tauto

theorem closedRight_used (xs : List Cell) (n : Nat) : ClosedRight (xs ++ [⟨n, false⟩]) := by
  simp [ClosedRight]

theorem closedLeft_used (n : Nat) (ys : List Cell) : ClosedLeft (⟨n, false⟩ :: ys) := by
  simp [ClosedLeft]

/-- The last cell is free, or the tiling is closed on the right. -/
theorem closedRight_or (cs : List Cell) :
    ClosedRight cs ∨ ∃ init n, cs = init ++ [⟨n, true⟩] := by
  rcases List.eq_nil_or_concat' cs with rfl | ⟨init, ⟨n, free⟩, rfl⟩
  · left
    simp [ClosedRight]
  · cases free with
    | false => exact Or.inl (closedRight_used init n)
    | true => exact Or.inr ⟨init, n, rfl⟩

/-- The first cell is free, or the tiling is closed on the left. -/
theorem closedLeft_or (cs : List Cell) : ClosedLeft cs ∨ ∃ n tail, cs = ⟨n, true⟩ :: tail := by
  match cs with
  | [] => left; simp [ClosedLeft]
  | ⟨n, false⟩ :: tail => exact Or.inl (closedLeft_used n tail)
  | ⟨n, true⟩ :: tail => exact Or.inr ⟨n, tail, rfl⟩

/-- Two neighbouring free cells may be merged before coalescing. -/
theorem coalesce_merge {c d : Cell} (hc : c.free = true) (hd : d.free = true)
    (xs ys : List Cell) :
    coalesce (xs ++ c :: d :: ys) = coalesce (xs ++ ⟨c.size + d.size, true⟩ :: ys) := by
  induction xs with
  | nil => simp only [List.nil_append, coalesce_cons, attach_attach hc hd]
  | cons x xs ih => simp only [List.cons_append, coalesce_cons, ih]

/-- A run of free cells may be merged before coalescing. -/
theorem coalesce_merge_all {ms : List Cell} (hne : ms ≠ []) (h : ∀ c ∈ ms, c.free = true)
    (xs ys : List Cell) :
    coalesce (xs ++ (ms ++ ys)) = coalesce (xs ++ ⟨total ms, true⟩ :: ys) := by
  induction ms generalizing xs with
  | nil => exact absurd rfl hne
  | cons c ms ih =>
    have hc := h c (by simp)
    obtain ⟨n, free⟩ := c
    simp only at hc
    subst hc
    cases ms with
    | nil => simp
    | cons d ms =>
      have hrest := ih (by simp) (fun e he => h e (List.mem_cons_of_mem _ he)) (xs ++ [⟨n, true⟩])
      rw [List.append_assoc, List.append_assoc] at hrest
      rw [List.cons_append, total_cons]
      exact hrest.trans (coalesce_merge rfl rfl xs ys)

/-- Coalescing moves no cell in use. -/
theorem mem_placed_coalesce {a p n : Nat} {cs : List Cell} :
    (p, ⟨n, false⟩) ∈ placed a (coalesce cs) ↔ (p, ⟨n, false⟩) ∈ placed a cs := by
  induction cs generalizing a with
  | nil => rfl
  | cons c cs ih =>
    have htail := ih (a := a + c.size)
    rw [coalesce_cons, placed_cons, List.mem_cons, ← htail]
    cases hcs : coalesce cs with
    | nil => simp [attach]
    | cons d ds =>
      by_cases hcd : c.free = true ∧ d.free = true
      · obtain ⟨hc, hd⟩ := hcd
        obtain ⟨csize, cfree⟩ := c
        obtain ⟨dsize, dfree⟩ := d
        simp only at hc hd
        simp [attach, hc, hd, Nat.add_assoc]
      · simp [attach, hcd]

/-- A tiling of free cells coalesces to one cell. -/
theorem coalesce_of_all_free {cs : List Cell} (hne : cs ≠ []) (h : ∀ c ∈ cs, c.free = true) :
    coalesce cs = [⟨total cs, true⟩] := by
  simpa [coalesce, attach] using coalesce_merge_all hne h [] []

/-! ### Marking cells free -/

/-- Free every cell whose address satisfies `p`. -/
def mark (p : Nat → Bool) : Nat → List Cell → List Cell
  | _, [] => []
  | a, c :: cs => ⟨c.size, c.free || p a⟩ :: mark p (a + c.size) cs

@[simp] theorem mark_nil (p : Nat → Bool) (a : Nat) : mark p a [] = [] := rfl
@[simp] theorem mark_cons (p : Nat → Bool) (a : Nat) (c : Cell) (cs : List Cell) :
    mark p a (c :: cs) = ⟨c.size, c.free || p a⟩ :: mark p (a + c.size) cs := rfl

@[simp] theorem total_mark (p : Nat → Bool) (a : Nat) (cs : List Cell) :
    total (mark p a cs) = total cs := by
  induction cs generalizing a with
  | nil => rfl
  | cons c cs ih => simp [ih]

theorem mark_append (p : Nat → Bool) (a : Nat) (xs ys : List Cell) :
    mark p a (xs ++ ys) = mark p a xs ++ mark p (a + total xs) ys := by
  induction xs generalizing a with
  | nil => rfl
  | cons c xs ih => simp [ih, Nat.add_assoc]

/-- Marking twice is marking by either predicate. -/
theorem mark_mark (p q : Nat → Bool) (a : Nat) (cs : List Cell) :
    mark q a (mark p a cs) = mark (fun x => p x || q x) a cs := by
  induction cs generalizing a with
  | nil => rfl
  | cons c cs ih => simp [ih, Bool.or_assoc]

/-- Marking no cell changes nothing. -/
theorem mark_of_none {p : Nat → Bool} {a : Nat} {cs : List Cell}
    (h : ∀ x c, (x, c) ∈ placed a cs → c.free = true ∨ p x = false) : mark p a cs = cs := by
  induction cs generalizing a with
  | nil => rfl
  | cons c cs ih =>
    rw [mark_cons, ih fun x d hd => h x d (List.mem_cons_of_mem _ hd)]
    obtain ⟨size, free⟩ := c
    rcases h a ⟨size, free⟩ (by simp) with hf | hp
    · simp_all
    · simp [hp]

/-- The cells in use after marking are those in use before that are not marked. -/
theorem mem_placed_mark {p : Nat → Bool} {a q n : Nat} {cs : List Cell} :
    (q, ⟨n, false⟩) ∈ placed a (mark p a cs) ↔ (q, ⟨n, false⟩) ∈ placed a cs ∧ p q = false := by
  induction cs generalizing a with
  | nil => simp
  | cons c cs ih =>
    obtain ⟨size, free⟩ := c
    simp only [mark_cons, placed_cons, List.mem_cons, Prod.mk.injEq, Cell.mk.injEq, ih]
    constructor
    · rintro (⟨rfl, rfl, hfree⟩ | ⟨h, hp⟩)
      · simp_all
      · exact ⟨Or.inr h, hp⟩
    · rintro ⟨⟨rfl, rfl, hfree⟩ | h, hp⟩
      · simp_all
      · exact Or.inr ⟨h, hp⟩

theorem size_of_mem_mark {p : Nat → Bool} {a : Nat} {P : Nat → Prop} {cs : List Cell}
    (h : ∀ c ∈ cs, P c.size) : ∀ c ∈ mark p a cs, P c.size := by
  induction cs generalizing a with
  | nil => simp
  | cons d cs ih =>
    intro c hc
    rw [mark_cons, List.mem_cons] at hc
    rcases hc with rfl | hc
    · exact h d (by simp)
    · exact ih (fun e he => h e (List.mem_cons_of_mem _ he)) c hc

/-- **Coalescing early does no harm.** Merging free cells keeps the addresses
of the cells in use, so marking sees the same cells before and after. -/
theorem coalesce_mark_coalesce (p : Nat → Bool) (a : Nat) (cs : List Cell) :
    coalesce (mark p a (coalesce cs)) = coalesce (mark p a cs) := by
  induction cs generalizing a with
  | nil => rfl
  | cons c cs ih =>
    rw [coalesce_cons, mark_cons, coalesce_cons, ← ih (a + c.size)]
    cases hcs : coalesce cs with
    | nil => rfl
    | cons d ds =>
      by_cases hcd : c.free = true ∧ d.free = true
      · obtain ⟨hc, hd⟩ := hcd
        rw [attach, if_pos ⟨hc, hd⟩]
        simp only [mark_cons, coalesce_cons, hc, hd, Bool.true_or]
        rw [attach_attach rfl rfl, Nat.add_assoc]
      · rw [attach, if_neg hcd, mark_cons, coalesce_cons]

end Tiling
