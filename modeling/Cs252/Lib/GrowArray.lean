import Cs252.Lib.Doubling

/-!
# Cs252.Lib.GrowArray

Arrays in allocated memory, of a capacity that is doubled.

A cell holds nothing before the first store to it, and there is no store past
the capacity. `Holds` says what is at the beginning of an array: stores at its
end extend it (`Holds.store`), `realloc` keeps it (`Holds.reserve`), and it is
what a program reads that knows how much there is (`Holds.read_eq`).
-/

/-- An array of the given capacity. -/
structure GrowArray (α : Type) (first : Nat) where
  capacity : Capacity first
  cells : List (Option α)
  allocated : cells.length = capacity.size

namespace GrowArray

variable {α : Type} {first used i : Nat} {x : α} {xs ys : List α} {a a' : GrowArray α first}

/-! ### Operations -/

/-- `malloc`. -/
def allocate (capacity : Capacity first) : GrowArray α first :=
  ⟨capacity, List.replicate capacity.size none, List.length_replicate⟩

/-- `realloc`. -/
def resize (a : GrowArray α first) (capacity : Capacity first) : GrowArray α first where
  capacity := capacity
  cells := (a.cells ++ List.replicate capacity.size none).take capacity.size
  allocated := by simp

/-- Room for one more than `used` elements. -/
def reserve (a : GrowArray α first) (used : Nat) : Option (GrowArray α first) :=
  (a.capacity.reserve used).map a.resize

/-- A store to the array. -/
def store (a : GrowArray α first) (i : Nat) (x : α) : Option (GrowArray α first) :=
  if i < a.capacity.size then
    some ⟨a.capacity, a.cells.set i (some x), by rw [List.length_set, a.allocated]⟩
  else none

/-- What the first `n` cells hold. -/
def read (a : GrowArray α first) (n : Nat) : List α := (a.cells.take n).filterMap id

/-- The array begins with these elements. -/
def Holds (a : GrowArray α first) (xs : List α) : Prop := xs.map some <+: a.cells

/-! ### Contents -/

theorem holds_nil : a.Holds [] := List.nil_prefix

theorem Holds.of_append (h : a.Holds (xs ++ ys)) : a.Holds xs := by
  unfold Holds at h
  rw [List.map_append] at h
  exact (List.prefix_append _ _).trans h

theorem Holds.length_le (h : a.Holds xs) : xs.length ≤ a.capacity.size := by
  have := List.IsPrefix.length_le h
  rwa [List.length_map, a.allocated] at this

theorem Holds.read_eq (h : a.Holds xs) : a.read xs.length = xs := by
  obtain ⟨cells, hcells⟩ := h
  have htake : (xs.map some ++ cells).take xs.length = xs.map some :=
    List.take_left' (List.length_map some)
  rw [read, ← hcells, htake, List.filterMap_map]
  exact List.filterMap_some

/-! ### What the operations do -/

theorem store_eq_some (h : a.store i x = some a') :
    a'.capacity = a.capacity ∧ a'.cells = a.cells.set i (some x) := by
  unfold store at h
  split at h <;> cases h
  exact ⟨rfl, rfl⟩

theorem store_isSome_iff : (a.store i x).isSome ↔ i < a.capacity.size := by
  unfold store
  split <;> simp [*]

/-- A store after the elements of the array. -/
theorem Holds.store (hold : a.Holds xs) (h : a.store xs.length x = some a') :
    a'.Holds (xs ++ [x]) := by
  have hlt : xs.length < a.capacity.size := store_isSome_iff.mp (Option.isSome_of_eq_some h)
  obtain ⟨cells, hcells⟩ := hold
  unfold Holds
  rw [(store_eq_some h).2, ← hcells, List.map_append]
  have hlength := a.allocated
  rw [← hcells, List.length_append, List.length_map] at hlength
  match cells with
  | [] =>
    rw [List.length_nil] at hlength
    omega
  | _ :: cells =>
    refine ⟨cells, ?_⟩
    rw [List.set_append_right _ _ (Nat.le_of_eq (List.length_map some)), List.length_map,
      Nat.sub_self, List.append_assoc]
    rfl

theorem reserve_eq_some (h : a.reserve used = some a') :
    ∃ capacity, a.capacity.reserve used = some capacity ∧ a' = a.resize capacity := by
  obtain ⟨capacity, hcapacity, rfl⟩ := Option.map_eq_some_iff.mp h
  exact ⟨capacity, hcapacity, rfl⟩

theorem size_of_reserve (h : a.reserve used = some a') :
    a'.capacity.size = if a.capacity.size = used then a.capacity.size * 2 else a.capacity.size := by
  obtain ⟨capacity, hcapacity, rfl⟩ := reserve_eq_some h
  exact Capacity.size_of_reserve hcapacity

theorem lt_of_reserve (hfirst : 0 < first) (hle : used ≤ a.capacity.size)
    (h : a.reserve used = some a') : used < a'.capacity.size := by
  obtain ⟨capacity, hcapacity, rfl⟩ := reserve_eq_some h
  exact Capacity.lt_of_reserve hfirst hle hcapacity

theorem reserve_isSome_iff (hfirst : 0 < first) (hle : used ≤ a.capacity.size) :
    (a.reserve used).isSome ↔ Capacity.Fits first (used + 1) := by
  rw [reserve, Option.isSome_map]
  exact Capacity.reserve_isSome_iff hfirst hle

/-- The elements survive `realloc`. -/
theorem Holds.reserve (hold : a.Holds xs) (h : a.reserve used = some a') : a'.Holds xs := by
  obtain ⟨capacity, hcapacity, rfl⟩ := reserve_eq_some h
  have hle := Nat.le_trans hold.length_le (Capacity.le_of_reserve hcapacity)
  unfold Holds
  rw [resize, List.prefix_take_iff]
  exact ⟨hold.trans (List.prefix_append _ _), by rwa [List.length_map]⟩

end GrowArray
