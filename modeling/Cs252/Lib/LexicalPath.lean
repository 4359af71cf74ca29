import Mathlib.Data.List.Induction

/-!
# Cs252.Lib.LexicalPath

Relative paths, resolved by their text alone.

A path is walked with a stack of names: a name is pushed, and `..` pops one, or
counts as a step out of the place where the walk began when there is none. The
result of a walk is a `LexicalPath`. Walks are put together by `append`, which
is all that is needed to say where a path ends that begins with a known one.
-/

universe u

/-- A component of a path. -/
inductive PathStep (α : Type u)
  | up
  | down (name : α)
  deriving DecidableEq

/-- A path that goes up some levels, and then down along names. -/
@[ext] structure LexicalPath (α : Type u) where
  ups : Nat
  names : List α
  deriving DecidableEq

namespace LexicalPath

variable {α : Type u}

/-- The path that stays where it is. -/
def here : LexicalPath α := ⟨0, []⟩

/-- One step further. -/
def follow (p : LexicalPath α) : PathStep α → LexicalPath α
  | .up => if p.names = [] then ⟨p.ups + 1, []⟩ else ⟨p.ups, p.names.dropLast⟩
  | .down name => ⟨p.ups, p.names ++ [name]⟩

/-- Where a path of components leads. -/
def resolve (steps : List (PathStep α)) : LexicalPath α := steps.foldl follow here

/-- One path and then another. -/
instance : Append (LexicalPath α) where
  append p q :=
    ⟨p.ups + (q.ups - p.names.length), p.names.take (p.names.length - q.ups) ++ q.names⟩

theorem append_def (p q : LexicalPath α) : p ++ q =
    ⟨p.ups + (q.ups - p.names.length), p.names.take (p.names.length - q.ups) ++ q.names⟩ := rfl

@[simp] theorem append_here (p : LexicalPath α) : p ++ here = p := by
  simp [append_def, here]

/-- A step after a second path is a step after both. -/
theorem append_follow (p q : LexicalPath α) (s : PathStep α) :
    p ++ q.follow s = (p ++ q).follow s := by
  cases s with
  | down name => simp [append_def, follow]
  | up =>
    by_cases hq : q.names = []
    · by_cases hp : p.names.length ≤ q.ups
      · have htake : p.names.length - q.ups = 0 := by omega
        have htake' : p.names.length - (q.ups + 1) = 0 := by omega
        simp only [follow, append_def, hq, htake, htake', if_true, List.take_zero,
          List.append_nil, mk.injEq, and_true]
        omega
      · have hne : p.names.take (p.names.length - q.ups) ≠ [] := by
          rw [← List.length_pos_iff, List.length_take]
          omega
        simp only [follow, append_def, hq, if_true, List.append_nil, if_neg hne, mk.injEq]
        refine ⟨by omega, ?_⟩
        rw [List.dropLast_eq_take, List.take_take, List.length_take]
        congr 1
        omega
    · have hne : p.names.take (p.names.length - q.ups) ++ q.names ≠ [] := by simp [hq]
      simp only [follow, append_def, if_neg hq, if_neg hne, mk.injEq, true_and]
      exact (List.dropLast_append_of_ne_nil hq).symm

theorem foldl_follow (p : LexicalPath α) (steps : List (PathStep α)) :
    steps.foldl follow p = p ++ resolve steps := by
  induction steps using List.reverseRecOn with
  | nil => exact (append_here p).symm
  | append_singleton steps s ih =>
    rw [resolve, List.foldl_append, List.foldl_append, ih]
    exact (append_follow p (resolve steps) s).symm

/-- Components after others lead on from where these lead. -/
theorem resolve_append (xs ys : List (PathStep α)) :
    resolve (xs ++ ys) = resolve xs ++ resolve ys := by
  rw [resolve, List.foldl_append]
  exact foldl_follow _ ys

/-! ### Below a directory -/

/-- The path leads to a directory, or to something below it. -/
def Within (root : α) (p : LexicalPath α) : Prop := p.ups = 0 ∧ p.names.head? = some root

instance [DecidableEq α] (root : α) (p : LexicalPath α) : Decidable (p.Within root) :=
  inferInstanceAs (Decidable (_ ∧ _))

/-- A path that begins below a directory stays there if it does not go up too
far, or comes back at once. -/
theorem within_append_iff {root : α} {names : List α} {q : LexicalPath α} :
    (⟨0, root :: names⟩ ++ q : LexicalPath α).Within root ↔
      q.ups ≤ names.length ∨ q.ups = names.length + 1 ∧ q.names.head? = some root := by
  simp only [Within, append_def, List.length_cons, Nat.zero_add]
  rcases Nat.lt_trichotomy q.ups (names.length + 1) with h | h | h
  · have htake : names.length + 1 - q.ups = (names.length - q.ups) + 1 := by omega
    rw [htake, List.take_succ_cons, List.cons_append, List.head?_cons]
    exact iff_of_true ⟨by omega, rfl⟩ (Or.inl (by omega))
  · have htake : names.length + 1 - q.ups = 0 := by omega
    rw [htake, List.take_zero, List.nil_append]
    simp only [h, Nat.sub_self, true_and]
    exact ⟨Or.inr, fun h => h.resolve_left (by omega)⟩
  · exact iff_of_false (fun h' => absurd h'.1 (by omega))
      (fun h' => h'.elim (by omega) (fun h' => absurd h'.1 (by omega)))

end LexicalPath
