import Mathlib.Data.Int.Order.Basic

/-!
# Cs252.Lib.Comparison

Sorting with a comparison function, as `qsort` does it.

A comparison function is negative, zero or positive. `Sorts` is all that is known of
a sorting function: it sorts where the comparison is `Consistent`, and nothing is said
about where it is not. Among these functions there is one for whatever happens then
(`sortOr`), so that what follows from `Sorts` alone has to hold of all of them.
-/

variable {α : Type}

/-- A comparison function that is an order: its sign changes when the arguments are
swapped, and it is transitive. -/
structure Consistent (cmp : α → α → Int) : Prop where
  opposite : ∀ a b, (cmp a b).sign = -(cmp b a).sign
  trans : ∀ a b c, cmp a b ≤ 0 → cmp b c ≤ 0 → cmp a c ≤ 0

/-- What `qsort` promises: a sorted permutation, where the comparison is consistent. -/
def Sorts (qsort : (α → α → Int) → List α → List α) : Prop :=
  ∀ cmp, Consistent cmp → ∀ xs, (qsort cmp xs).Perm xs ∧
    (qsort cmp xs).Pairwise fun a b => cmp a b ≤ 0

theorem Consistent.total {cmp : α → α → Int} (h : Consistent cmp) (a b : α) :
    cmp a b ≤ 0 ∨ cmp b a ≤ 0 := by
  rcases Int.le_total (cmp a b) 0 with hle | hge
  · exact Or.inl hle
  · refine Or.inr (Int.sign_nonpos_iff.mp ?_)
    rw [h.opposite b a]
    have := Int.sign_nonneg_iff.mpr hge
    omega

open Classical in
/-- Sort where the comparison is consistent, and do something else where it is not. -/
noncomputable def sortOr (otherwise : List α → List α) (cmp : α → α → Int) (xs : List α) : List α :=
  if Consistent cmp then xs.mergeSort fun a b => decide (cmp a b ≤ 0) else otherwise xs

theorem sortOr_of_not {otherwise : List α → List α} {cmp : α → α → Int} (h : ¬Consistent cmp)
    (xs : List α) : sortOr otherwise cmp xs = otherwise xs := if_neg h

theorem sorts_sortOr (otherwise : List α → List α) : Sorts (sortOr otherwise) := by
  intro cmp hcmp xs
  rw [sortOr, if_pos hcmp]
  refine ⟨List.mergeSort_perm _ _, ?_⟩
  have htrans : ∀ a b c, decide (cmp a b ≤ 0) → decide (cmp b c ≤ 0) → decide (cmp a c ≤ 0) := by
    intro a b c hab hbc
    exact decide_eq_true (hcmp.trans a b c (of_decide_eq_true hab) (of_decide_eq_true hbc))
  have htotal : ∀ a b, decide (cmp a b ≤ 0) || decide (cmp b a ≤ 0) := by
    intro a b
    simpa using hcmp.total a b
  exact (List.pairwise_mergeSort htrans htotal xs).imp of_decide_eq_true

/-- A permutation in any case, if it is one where nothing is promised. -/
theorem sortOr_perm {otherwise : List α → List α} (h : ∀ xs, (otherwise xs).Perm xs)
    (cmp : α → α → Int) (xs : List α) : (sortOr otherwise cmp xs).Perm xs := by
  by_cases hcmp : Consistent cmp
  · exact (sorts_sortOr otherwise cmp hcmp xs).1
  · rw [sortOr_of_not hcmp]
    exact h xs
