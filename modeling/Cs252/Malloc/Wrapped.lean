import Cs252.Malloc.Updates

/-!
# Cs252.Malloc.Wrapped

Splits at a rounded size that has wrapped.

For requests within 55 bytes of `2 ^ 64`, `rounded_size` is one of 0, 8, …, 48.
A split at less than 48 bytes puts the new header and the new footer on top of
the header of the block itself, before the links in it are used.

At size 0 the damage stays next to the block: only the footer before it is lost
(`split_zero_frame`). At 8 to 40 bytes one of the links is overwritten, and the
code stores the address of the new header through it. `split_stray` computes
where that store goes when the block lies in the first 4 GB.
-/

namespace Cs252.Malloc

open ByteMem

variable {m m' : ByteMem} {c n p q r t : Nat}

/-- A split at size 0 changes the block and the footer before it. -/
theorem split_zero_frame (hs : sizeAt m c = n) (hc : 16 ≤ c) (hn : 48 ≤ n)
    (hp : prevAt m c = p) (hq : nextAt m c = q) (hgap : Gap c (c + n) p q)
    (hm : m' = relinkSplit (tagSplit m c 0) c (c + 0)) : LinkFrame (c - 16) (c + n) p q m m' := by
  have hps := hgap.left
  have hqs := hgap.right
  have hpq := hgap.apart
  have := prevAt_lt m c
  have := nextAt_lt m c
  intro x hx hxp hxq
  simp (disch := omega) only [hm, relinkSplit, tagSplit, sizeofFooter, Nat.add_zero, Nat.sub_zero,
    load_store_eq, load_store_of_disjoint, store_outside, hs, hp, hq]

/-! ### The store through an overwritten link -/

/-- At 8 bytes, the status of the new header is the low half of `next`. -/
theorem split_stray_8 (hs : sizeAt m c = n) (hc : 16 ≤ c) (hn : 64 ≤ n) (hb : c + n < 2 ^ 64)
    (hp : prevAt m c = p) (hq : nextAt m c = q) (hpc : p + 32 ≤ c - 16 ∨ c + n ≤ p)
    (ht : q / 2 ^ 32 * 2 ^ 32 = t) (htc : t + 32 ≤ c - 16 ∨ c + n ≤ t)
    (hm : m' = relinkSplit (tagSplit m c 8) c (c + 8)) : m'.load (t + 24) 8 = c + 8 := by
  have := prevAt_lt m c
  have := nextAt_lt m c
  simp (disch := omega) only [hm, relinkSplit, tagSplit, sizeofFooter, NULL, load_store_eq,
    load_store_of_disjoint, load_setStatus_half, code_unallocated, Nat.zero_add, hs, hp, hq, ht]

/-- At 16 bytes, the size of the new header is `next`, and its status is the low
half of `prev`. -/
theorem split_stray_16 (hs : sizeAt m c = n) (hn : 64 ≤ n) (hb : c + n < 2 ^ 64)
    (hp : prevAt m c = p) (ht : p / 2 ^ 32 * 2 ^ 32 = t) (htc : t + 32 ≤ c - 16 ∨ c + n ≤ t)
    (hnc : n + 16 ≤ c) (hm : m' = relinkSplit (tagSplit m c 16) c (c + 16)) :
    m'.load (n + 8) 8 = c + 16 := by
  have hback : c + 16 - 16 = c := by omega
  simp (disch := omega) only [hm, relinkSplit, tagSplit, sizeofFooter, NULL, load_store_eq,
    load_store_of_disjoint, load_setStatus_half, code_unallocated, Nat.zero_add, hs, hp, ht, hback]

/-- At 24 bytes, the size of the new header is `prev`, and the status of the
new footer is the low half of `next`. -/
theorem split_stray_24 (hs : sizeAt m c = n) (hn : 64 ≤ n) (hb : c + n < 2 ^ 64)
    (hq : nextAt m c = q) (ht : 1 + q / 2 ^ 32 * 2 ^ 32 = t) (htc : t + 32 ≤ n - 8)
    (hnc : n + 16 ≤ c) (hm : m' = relinkSplit (tagSplit m c 24) c (c + 24)) :
    m'.load (n - 8) 8 = c + 24 := by
  have hback : c + 24 - 16 = c + 8 := by omega
  simp (disch := omega) only [hm, relinkSplit, tagSplit, sizeofFooter, NULL, load_store_eq,
    load_store_of_disjoint, load_setStatus_half, code_allocated, hs, hq, ht, hback]

/-- At 32 bytes, the size of the new footer is `next`, and its status is the low
half of `prev`. -/
theorem split_stray_32 (hs : sizeAt m c = n) (hn : 64 ≤ n) (hb : c + n < 2 ^ 64)
    (hp : prevAt m c = p) (ht : 1 + p / 2 ^ 32 * 2 ^ 32 = t) (htc : t + 32 ≤ c) (hc : 80 ≤ c)
    (hm : m' = relinkSplit (tagSplit m c 32) c (c + 32)) : m'.load 56 8 = c + 32 := by
  have hback : c + 32 - 16 = c + 16 := by omega
  simp (disch := omega) only [hm, relinkSplit, tagSplit, sizeofFooter, NULL, load_store_eq,
    load_store_of_disjoint, load_setStatus_half, code_allocated, hs, hp, ht, hback]

/-- At 40 bytes, the size of the new footer is `prev`. -/
theorem split_stray_40 (hs : sizeAt m c = n) (hn : 64 ≤ n) (hb : c + n < 2 ^ 64)
    (hq : nextAt m c = q) (hqc : c + n ≤ q) (hc : 80 ≤ c)
    (hm : m' = relinkSplit (tagSplit m c 40) c (c + 40)) : m'.load 56 8 = c + 40 := by
  have hback : c + 40 - 16 = c + 24 := by omega
  simp (disch := omega) only [hm, relinkSplit, tagSplit, sizeofFooter, NULL, load_store_eq,
    load_store_of_disjoint, hs, hq, hback]

/-- For a block and free-list neighbours in the first 4 GB, the address of the
new header is stored at address 24, or between 56 and the block. -/
theorem split_stray (hs : sizeAt m c = n) (hn : 128 ≤ n) (hnc : n + 96 ≤ c)
    (hp : prevAt m c = p) (hq : nextAt m c = q) (hpc : c + n ≤ p) (hqc : c + n ≤ q)
    (hp' : p < 2 ^ 32) (hq' : q < 2 ^ 32) (h8 : 8 ∣ r) (hr : 0 < r) (hr' : r < 48)
    (hm : m' = relinkSplit (tagSplit m c r) c (c + r)) :
    ∃ x, m'.load x 8 = c + r ∧ (x = 24 ∨ 56 ≤ x ∧ x + 24 ≤ c) := by
  have hpz : p / 2 ^ 32 * 2 ^ 32 = 0 := by rw [Nat.div_eq_of_lt hp', Nat.zero_mul]
  have hqz : q / 2 ^ 32 * 2 ^ 32 = 0 := by rw [Nat.div_eq_of_lt hq', Nat.zero_mul]
  have hb : c + n < 2 ^ 64 := by omega
  have hcases : r = 8 ∨ r = 16 ∨ r = 24 ∨ r = 32 ∨ r = 40 := by omega
  rcases hcases with rfl | rfl | rfl | rfl | rfl
  · have hstray := split_stray_8 hs (by omega) (by omega) hb hp hq (by omega) hqz (by omega) hm
    exact ⟨24, hstray, Or.inl rfl⟩
  · have hstray := split_stray_16 hs (by omega) hb hp hpz (by omega) (by omega) hm
    exact ⟨n + 8, hstray, by omega⟩
  · have hqz' : 1 + q / 2 ^ 32 * 2 ^ 32 = 1 := by rw [hqz]
    have hstray := split_stray_24 hs (by omega) hb hq hqz' (by omega) (by omega) hm
    exact ⟨n - 8, hstray, by omega⟩
  · have hpz' : 1 + p / 2 ^ 32 * 2 ^ 32 = 1 := by rw [hpz]
    have hstray := split_stray_32 hs (by omega) hb hp hpz' (by omega) (by omega) hm
    exact ⟨56, hstray, by omega⟩
  · have hstray := split_stray_40 hs (by omega) hb hq hqc (by omega) hm
    exact ⟨56, hstray, by omega⟩

end Cs252.Malloc
