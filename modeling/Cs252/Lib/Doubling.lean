import Mathlib.Algebra.Ring.Nat

/-!
# Cs252.Lib.Doubling

Capacities that are doubled when they run out.

A capacity is an `int`: it starts at some number and is doubled while that fits.
`reserve` makes room for one more element, and fails where the doubled capacity
would be `2 ^ 31` or more; `growTo` makes room for any number of elements, in as many
doublings as that takes. `Fits` says how many elements there can be
(`reserve_isSome_iff`, `growTo_isSome_iff`).
-/

/-- A capacity that started at `first`. -/
structure Capacity (first : Nat) where
  size : Nat
  doubled : ∃ k, size = first * 2 ^ k
  lt : size < 2 ^ 31

namespace Capacity

variable {first used : Nat} {c c' : Capacity first}

/-- The capacity at the start. -/
def start (hlt : first < 2 ^ 31) : Capacity first := ⟨first, ⟨0, (Nat.mul_one first).symm⟩, hlt⟩

/-- Twice the capacity. -/
def double (c : Capacity first) : Option (Capacity first) :=
  if hlt : c.size * 2 < 2 ^ 31 then
    some ⟨c.size * 2, c.doubled.elim fun k hk => ⟨k + 1, by rw [hk, Nat.pow_succ, Nat.mul_assoc]⟩,
      hlt⟩
  else none

/-- Room for one more than `used` elements. -/
def reserve (c : Capacity first) (used : Nat) : Option (Capacity first) :=
  if c.size = used then c.double else some c

/-- There is a capacity for so many elements. -/
def Fits (first n : Nat) : Prop := ∃ k, n ≤ first * 2 ^ k ∧ first * 2 ^ k < 2 ^ 31

theorem double_eq_some (h : c.double = some c') : c'.size = c.size * 2 := by
  unfold double at h
  split at h <;> cases h
  rfl

theorem pos (c : Capacity first) (hfirst : 0 < first) : 0 < c.size := by
  obtain ⟨k, hk⟩ := c.doubled
  rw [hk]
  exact Nat.mul_pos hfirst (Nat.two_pow_pos k)

theorem fits (hle : used ≤ c.size) : Fits first used := by
  obtain ⟨k, hk⟩ := c.doubled
  have hlt := c.lt
  rw [hk] at hle hlt
  exact ⟨k, hle, hlt⟩

theorem Fits.mono {m n : Nat} (h : Fits first n) (hle : m ≤ n) : Fits first m := by
  obtain ⟨k, hn, hk⟩ := h
  exact ⟨k, Nat.le_trans hle hn, hk⟩

/-- The largest capacity. -/
theorem fits_iff {n k : Nat} (hlt : first * 2 ^ k < 2 ^ 31) (hle : 2 ^ 31 ≤ first * 2 ^ (k + 1)) :
    Fits first n ↔ n ≤ first * 2 ^ k := by
  constructor
  · intro h
    obtain ⟨j, hn, hj⟩ := h
    have hjk : j < k + 1 := Nat.lt_of_not_le fun hkj => by
      have := Nat.mul_le_mul_left first (Nat.pow_le_pow_right (n := 2) (by decide) hkj)
      omega
    exact Nat.le_trans hn
      (Nat.mul_le_mul_left _ (Nat.pow_le_pow_right (by decide) (Nat.lt_succ_iff.mp hjk)))
  · intro h
    exact ⟨k, h, hlt⟩

theorem size_of_reserve (h : c.reserve used = some c') :
    c'.size = if c.size = used then c.size * 2 else c.size := by
  unfold reserve at h
  split
  · next heq =>
    rw [if_pos heq] at h
    exact double_eq_some h
  · next hne =>
    rw [if_neg hne] at h
    cases h
    rfl

theorem le_of_reserve (h : c.reserve used = some c') : c.size ≤ c'.size := by
  rw [size_of_reserve h]
  split <;> omega

/-- Room has been made. -/
theorem lt_of_reserve (hfirst : 0 < first) (hle : used ≤ c.size)
    (h : c.reserve used = some c') : used < c'.size := by
  have hpos := c.pos hfirst
  rw [size_of_reserve h]
  split <;> omega

/-- Between a capacity and its double there is none. -/
theorem two_mul_le {k : Nat} (hlt : c.size < first * 2 ^ k) : c.size * 2 ≤ first * 2 ^ k := by
  obtain ⟨j, hj⟩ := c.doubled
  rw [hj] at hlt ⊢
  have hjk : j < k := (Nat.pow_lt_pow_iff_right (by decide)).mp (Nat.lt_of_mul_lt_mul_left hlt)
  rw [Nat.mul_assoc, ← Nat.pow_succ]
  exact Nat.mul_le_mul_left _ (Nat.pow_le_pow_right (by decide) hjk)

theorem double_lt {n : Nat} (hlt : c.size < n) (h : Fits first n) : c.size * 2 < 2 ^ 31 := by
  obtain ⟨k, hn, hk⟩ := h
  exact Nat.lt_of_le_of_lt (two_mul_le (Nat.lt_of_lt_of_le hlt hn)) hk

/-- Room can be made exactly if the elements fit some capacity. -/
theorem reserve_isSome_iff (hfirst : 0 < first) (hle : used ≤ c.size) :
    (c.reserve used).isSome ↔ Fits first (used + 1) := by
  constructor
  · intro h
    obtain ⟨c', hc'⟩ := Option.isSome_iff_exists.mp h
    exact fits (c := c') (lt_of_reserve hfirst hle hc')
  · intro h
    unfold reserve
    split
    · next heq =>
      have hlt : c.size * 2 < 2 ^ 31 := double_lt (by omega) h
      rw [double, dif_pos hlt]
      rfl
    · rfl

/-- Room for `n` elements: the capacity is doubled until there is. -/
def growTo (hfirst : 0 < first) (c : Capacity first) (n : Nat) : Option (Capacity first) :=
  if n ≤ c.size then some c
  else
    match h : c.double with
    | none => none
    | some c' =>
      have := double_eq_some h
      growTo hfirst c' n
termination_by 2 ^ 31 - c.size
decreasing_by
  have hpos := c.pos hfirst
  have hlt := c.lt
  omega

theorem growTo_of_le {hfirst : 0 < first} {n : Nat} (h : n ≤ c.size) :
    c.growTo hfirst n = some c := by
  rw [growTo, if_pos h]

theorem le_of_growTo {hfirst : 0 < first} {n : Nat} (h : c.growTo hfirst n = some c') :
    c.size ≤ c'.size := by
  fun_induction growTo hfirst c n with
  | case1 c =>
    cases h
    exact Nat.le_refl _
  | case2 => cases h
  | case3 c hsmall c₁ hdouble hsize ih =>
    have hle := ih h
    omega

/-- The capacity is large enough, and no smaller one is. -/
theorem growTo_spec {hfirst : 0 < first} {n : Nat} (h : c.growTo hfirst n = some c') :
    n ≤ c'.size ∧ ∀ k, c.size ≤ first * 2 ^ k → n ≤ first * 2 ^ k → c'.size ≤ first * 2 ^ k := by
  fun_induction growTo hfirst c n with
  | case1 c hle =>
    cases h
    exact ⟨hle, fun k hk _ => hk⟩
  | case2 => cases h
  | case3 c hsmall c₁ hdouble hsize ih =>
    obtain ⟨hn, hleast⟩ := ih h
    refine ⟨hn, fun k _ hk => hleast k ?_ hk⟩
    rw [hsize]
    exact two_mul_le (Nat.lt_of_lt_of_le (Nat.lt_of_not_le hsmall) hk)

theorem growTo_isSome_iff (hfirst : 0 < first) {n : Nat} :
    (c.growTo hfirst n).isSome ↔ Fits first n := by
  fun_induction growTo hfirst c n with
  | case1 c hle => exact iff_of_true rfl (fits hle)
  | case2 c hsmall hnone =>
    refine iff_of_false nofun fun h => ?_
    have hlt := double_lt (Nat.lt_of_not_le hsmall) h
    rw [double, dif_pos hlt] at hnone
    cases hnone
  | case3 c hsmall c' hdouble hsize ih => exact ih

end Capacity
