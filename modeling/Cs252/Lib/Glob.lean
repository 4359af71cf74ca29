import Mathlib.Algebra.BigOperators.Group.List.Basic
import Mathlib.Algebra.Ring.Int.Defs
import Mathlib.Algebra.Ring.Nat
import Mathlib.Data.List.Infix

/-!
# Cs252.Lib.Glob

Patterns over any alphabet, in which `any` stands for one letter and `star` for
any number of them. A text has at least the letters that a pattern needs
(`Matches.need_le`).
-/

namespace Glob

universe u

/-- A piece of a pattern. -/
inductive Piece (α : Type u)
  | one (a : α)
  | any
  | star
  deriving Repr, DecidableEq

variable {α : Type u}

/-- A text is what a pattern says. -/
def Matches : List (Piece α) → List α → Prop
  | [], s => s = []
  | .one a :: pattern, s => ∃ rest, s = a :: rest ∧ Matches pattern rest
  | .any :: pattern, s => ∃ a rest, s = a :: rest ∧ Matches pattern rest
  | .star :: pattern, s => ∃ rest, rest <:+ s ∧ Matches pattern rest

instance decidableMatches [DecidableEq α] :
    (pattern : List (Piece α)) → (s : List α) → Decidable (Matches pattern s)
  | [], s => inferInstanceAs (Decidable (s = []))
  | .one _ :: _, [] => isFalse fun ⟨_, h, _⟩ => nomatch h
  | .one a :: pattern, b :: s =>
    have := decidableMatches pattern s
    decidable_of_iff (b = a ∧ Matches pattern s) (by simp [Matches])
  | .any :: _, [] => isFalse fun ⟨_, _, h, _⟩ => nomatch h
  | .any :: pattern, b :: s =>
    have := decidableMatches pattern s
    decidable_of_iff (Matches pattern s) (by simp [Matches])
  | .star :: pattern, s =>
    have := decidableMatches pattern
    decidable_of_iff (∃ rest ∈ s.tails, Matches pattern rest) (by simp [Matches])

/-- A text of two patterns. -/
theorem matches_append {p q : List (Piece α)} {s : List α} :
    Matches (p ++ q) s ↔ ∃ u v, s = u ++ v ∧ Matches p u ∧ Matches q v := by
  induction p generalizing s with
  | nil =>
    constructor
    · intro h
      exact ⟨[], s, rfl, rfl, h⟩
    · rintro ⟨u, v, rfl, rfl, h⟩
      exact h
  | cons piece p ih =>
    cases piece with
    | one a =>
      constructor
      · rintro ⟨rest, rfl, hrest⟩
        obtain ⟨u, v, rfl, hu, hv⟩ := ih.mp hrest
        exact ⟨a :: u, v, rfl, ⟨u, rfl, hu⟩, hv⟩
      · rintro ⟨_, v, rfl, ⟨u, rfl, hu⟩, hv⟩
        exact ⟨u ++ v, rfl, ih.mpr ⟨u, v, rfl, hu, hv⟩⟩
    | any =>
      constructor
      · rintro ⟨a, rest, rfl, hrest⟩
        obtain ⟨u, v, rfl, hu, hv⟩ := ih.mp hrest
        exact ⟨a :: u, v, rfl, ⟨a, u, rfl, hu⟩, hv⟩
      · rintro ⟨_, v, rfl, ⟨a, u, rfl, hu⟩, hv⟩
        exact ⟨a, u ++ v, rfl, ih.mpr ⟨u, v, rfl, hu, hv⟩⟩
    | star =>
      constructor
      · rintro ⟨rest, ⟨skipped, rfl⟩, hrest⟩
        obtain ⟨u, v, rfl, hu, hv⟩ := ih.mp hrest
        exact ⟨skipped ++ u, v, (List.append_assoc _ _ _).symm,
          ⟨u, List.suffix_append _ _, hu⟩, hv⟩
      · rintro ⟨_, v, rfl, ⟨u, ⟨skipped, rfl⟩, hu⟩, hv⟩
        refine ⟨u ++ v, ?_, ih.mpr ⟨u, v, rfl, hu, hv⟩⟩
        rw [List.append_assoc]
        exact List.suffix_append _ _

/-- What a piece needs, where letters count for something. -/
def Piece.need (f : α → Nat) : Piece α → Nat
  | .one a => f a
  | .any => 0
  | .star => 0

/-- A text has what the pattern needs. -/
theorem Matches.need_le (f : α → Nat) {pattern : List (Piece α)} {s : List α}
    (h : Matches pattern s) : (pattern.map (Piece.need f)).sum ≤ (s.map f).sum := by
  induction pattern generalizing s with
  | nil => exact Nat.zero_le _
  | cons piece pattern ih =>
    cases piece with
    | one a =>
      obtain ⟨rest, rfl, hrest⟩ := h
      exact Nat.add_le_add_left (ih hrest) _
    | any =>
      obtain ⟨a, rest, rfl, hrest⟩ := h
      exact Nat.add_le_add (Nat.zero_le _) (ih hrest)
    | star =>
      obtain ⟨rest, ⟨skipped, rfl⟩, hrest⟩ := h
      rw [List.map_append, List.sum_append]
      exact Nat.add_le_add (Nat.zero_le _) (ih hrest)

end Glob
