import Mathlib.Data.List.FinRange
import Mathlib.Data.List.Nodup
import Mathlib.Logic.Function.Basic

/-!
# Cs252.Lib.Shuffle

Shuffles of a family of lists, over any index and any element type.

A shuffle grows at its end: an element is appended to one of the lists, and to
the shuffle. So each list keeps its order in the shuffle (`Shuffle.sublist`), and
nothing is lost or made twice (`Shuffle.perm`).
-/

universe u v

/-- `Shuffle xs zs`: the list `zs` takes its elements from the lists `xs t`, from
each of them all elements in order. -/
inductive Shuffle {ι : Type u} {α : Type v} [DecidableEq ι] : (ι → List α) → List α → Prop
  | nil : Shuffle (fun _ => []) []
  | concat {xs : ι → List α} {zs : List α} (t : ι) (a : α) :
      Shuffle xs zs → Shuffle (Function.update xs t (xs t ++ [a])) (zs ++ [a])

namespace Shuffle

variable {ι : Type u} {α : Type v} [DecidableEq ι] {xs xs' : ι → List α} {zs : List α}

/-- One of the lists and the shuffle have grown. -/
theorem grow {t : ι} {a : α} (h : Shuffle xs zs) (hself : xs' t = xs t ++ [a])
    (hother : ∀ u, u ≠ t → xs' u = xs u) : Shuffle xs' (zs ++ [a]) := by
  have hgrown : xs' = Function.update xs t (xs t ++ [a]) := by
    funext u
    by_cases hu : u = t
    · rw [hu, hself, Function.update_self]
    · rw [hother u hu, Function.update_of_ne hu]
  rw [hgrown]
  exact h.concat t a

/-- Each of the lists keeps its order. -/
theorem sublist (h : Shuffle xs zs) (t : ι) : List.Sublist (xs t) zs := by
  induction h with
  | nil => exact List.Sublist.refl []
  | concat u a _ ih =>
    by_cases ht : t = u
    · rw [← ht, Function.update_self]
      exact ih.append (List.Sublist.refl [a])
    · rw [Function.update_of_ne ht]
      exact ih.trans (List.sublist_append_left _ _)

/-- The lists one after the other, when one of them has grown. -/
theorem flatMap_update_perm {ts : List ι} (hnodup : ts.Nodup) {t : ι} (ht : t ∈ ts) (a : α) :
    (ts.flatMap (Function.update xs t (xs t ++ [a]))).Perm (ts.flatMap xs ++ [a]) := by
  induction ts with
  | nil => cases ht
  | cons u ts ih =>
    obtain ⟨hu, hnodup⟩ := List.nodup_cons.mp hnodup
    rcases List.mem_cons.mp ht with rfl | ht
    · have hrest : ts.flatMap (Function.update xs t (xs t ++ [a])) = ts.flatMap xs :=
        List.flatMap_congr fun w hw => Function.update_of_ne (ne_of_mem_of_not_mem hw hu) _ _
      rw [List.flatMap_cons, List.flatMap_cons, hrest, Function.update_self, List.append_assoc,
        List.append_assoc]
      exact List.perm_append_comm.append_left _
    · have hne : u ≠ t := fun hut => hu (hut ▸ ht)
      rw [List.flatMap_cons, List.flatMap_cons, Function.update_of_ne hne, List.append_assoc]
      exact (ih hnodup ht).append_left _

/-- The shuffle is a permutation of the lists one after the other. -/
theorem perm (h : Shuffle xs zs) {ts : List ι} (hnodup : ts.Nodup) (hall : ∀ t, t ∈ ts) :
    zs.Perm (ts.flatMap xs) := by
  induction h with
  | nil => simp
  | concat t a _ ih => exact (ih.append_right [a]).trans (flatMap_update_perm hnodup (hall t) a).symm

end Shuffle
