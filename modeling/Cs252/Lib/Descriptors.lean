/-!
# Cs252.Lib.Descriptors

A descriptor table with the calls that change it, over any type of open files.

A new descriptor is the lowest number that is free (`free`). `none` stands for
the number -1 of a call that failed; `dup`, `dup2` and `close` of it fail in
turn and change nothing. Every operation is described by what it does to `get`,
so that proofs never look at the list behind the table.
-/

universe u

/-- A descriptor table: the open file of each number. -/
structure Descriptors (α : Type u) where
  slots : List (Option α)
  deriving DecidableEq

namespace Descriptors

variable {α : Type u}

/-! ### The list behind the table -/

/-- Change position `n`, past the end of the list as well. -/
def setSlot : List (Option α) → Nat → Option α → List (Option α)
  | [], 0, x => [x]
  | [], n + 1, x => none :: setSlot [] n x
  | _ :: slots, 0, x => x :: slots
  | y :: slots, n + 1, x => y :: setSlot slots n x

theorem getD_setSlot (slots : List (Option α)) (n k : Nat) (x : Option α) :
    (setSlot slots n x).getD k none = if k = n then x else slots.getD k none := by
  induction slots, n, x using setSlot.induct generalizing k with
  | case1 x => cases k <;> simp [setSlot]
  | case2 n x ih =>
    cases k with
    | zero => simp [setSlot]
    | succ k => simpa [setSlot] using ih k
  | case3 y slots x => cases k <;> simp [setSlot]
  | case4 y slots n x ih =>
    cases k with
    | zero => simp [setSlot]
    | succ k => simpa [setSlot] using ih k

/-- The first position not in use. -/
def lowest : List (Option α) → Nat
  | [] => 0
  | none :: _ => 0
  | some _ :: slots => lowest slots + 1

theorem getD_lowest (slots : List (Option α)) : slots.getD (lowest slots) none = none := by
  induction slots with
  | nil => rfl
  | cons y slots ih =>
    cases y with
    | none => rfl
    | some y => simpa [lowest] using ih

/-! ### The calls -/

/-- The open file of a descriptor. -/
def get (t : Descriptors α) (fd : Nat) : Option α := t.slots.getD fd none

/-- Two tables with the same open descriptors, for the same files. -/
def Same (t t' : Descriptors α) : Prop := ∀ fd, t.get fd = t'.get fd

/-- The lowest descriptor that is not open. -/
def free (t : Descriptors α) : Nat := lowest t.slots

/-- Let `fd` refer to `x`. -/
def put (t : Descriptors α) (fd : Nat) (x : α) : Descriptors α := ⟨setSlot t.slots fd (some x)⟩

/-- Open a new descriptor for `x`; `none` is a call that fails. -/
def openNew (t : Descriptors α) : Option α → Option Nat × Descriptors α
  | none => (none, t)
  | some x => (some t.free, t.put t.free x)

/-- `dup`. -/
def dup (t : Descriptors α) (fd : Option Nat) : Option Nat × Descriptors α :=
  t.openNew (fd.bind t.get)

/-- `dup2`. -/
def dup2 (t : Descriptors α) (old : Option Nat) (new : Nat) : Descriptors α :=
  match old.bind t.get with
  | none => t
  | some x => t.put new x

/-- `close`. -/
def close (t : Descriptors α) : Option Nat → Descriptors α
  | none => t
  | some fd => ⟨setSlot t.slots fd none⟩

/-! ### What the calls do to `get` -/

variable {t t' : Descriptors α} {fd fd' : Nat} {x : α}

theorem get_put : (t.put fd x).get fd' = if fd' = fd then some x else t.get fd' :=
  getD_setSlot ..

theorem get_close : (t.close (some fd)).get fd' = if fd' = fd then none else t.get fd' :=
  getD_setSlot ..

@[simp] theorem get_put_self : (t.put fd x).get fd = some x := by
  rw [get_put, if_pos rfl]

theorem get_put_of_ne (h : fd' ≠ fd) : (t.put fd x).get fd' = t.get fd' := by
  rw [get_put, if_neg h]

@[simp] theorem get_close_self : (t.close (some fd)).get fd = none := by
  rw [get_close, if_pos rfl]

theorem get_close_of_ne (h : fd' ≠ fd) : (t.close (some fd)).get fd' = t.get fd' := by
  rw [get_close, if_neg h]

theorem dup2_of_get (h : t.get fd = some x) : t.dup2 (some fd) fd' = t.put fd' x := by
  simp only [dup2, Option.bind_some, h]

@[simp] theorem get_free : t.get t.free = none := getD_lowest _

/-! ### Tables without a gap

A process may have only so many descriptors. Where those in use are just the
first ones, a table is as good as their number. -/

/-- Open a new descriptor, unless that needs a number from `limit` on. -/
def openBelow (t : Descriptors α) (limit : Nat) (x : Option α) : Option Nat × Descriptors α :=
  if t.free < limit then t.openNew x else (none, t)

/-- The descriptors in use are those below `n`. -/
def Below (t : Descriptors α) (n : Nat) : Prop := ∀ fd, (t.get fd).isSome ↔ fd < n

variable {n limit : Nat}

theorem isSome_of_lt_lowest {slots : List (Option α)} {k : Nat} (h : k < lowest slots) :
    (slots.getD k none).isSome := by
  induction slots generalizing k with
  | nil => exact absurd h (Nat.not_lt_zero k)
  | cons y slots ih =>
    cases y with
    | none => exact absurd h (Nat.not_lt_zero k)
    | some y =>
      cases k with
      | zero => rfl
      | succ k => simpa using ih (Nat.lt_of_succ_lt_succ h)

theorem Below.free_eq (h : t.Below n) : t.free = n := by
  rcases Nat.lt_trichotomy t.free n with hlt | heq | hgt
  · have hused := (h t.free).mpr hlt
    rw [get_free] at hused
    exact absurd hused (by simp)
  · exact heq
  · exact absurd ((h n).mp (isSome_of_lt_lowest hgt)) (Nat.lt_irrefl n)

theorem Below.get_eq_none (h : t.Below n) : t.get n = none := by
  rw [← h.free_eq, get_free]

theorem Below.put (h : t.Below n) (x : α) : (t.put n x).Below (n + 1) := by
  intro fd
  rw [get_put, Nat.lt_succ_iff_lt_or_eq]
  split
  · next heq => simp [heq]
  · next hne => simp [h fd, hne]

theorem Same.refl (t : Descriptors α) : t.Same t := fun _ => rfl

theorem Same.trans {t'' : Descriptors α} (h : t.Same t') (h' : t'.Same t'') : t.Same t'' :=
  fun fd => (h fd).trans (h' fd)

theorem Same.below (h : t.Same t') (hbelow : t'.Below n) : t.Below n := fun fd => by
  rw [h fd]
  exact hbelow fd

theorem Same.put (h : t.Same t') (fd : Nat) (x : α) :
    (t.put fd x).Same (t'.put fd x) := fun fd' => by
  rw [get_put, get_put, h fd']

theorem Same.close (h : t.Same t') (fd : Nat) :
    (t.close (some fd)).Same (t'.close (some fd)) := fun fd' => by
  rw [get_close, get_close, h fd']

/-- A descriptor that is closed again leaves nothing behind. -/
theorem close_put (h : t.get fd = none) (x : α) : ((t.put fd x).close (some fd)).Same t := by
  intro fd'
  rw [get_close, get_put]
  split
  · next heq => rw [heq, h]
  · rfl

theorem Below.openBelow_of_lt (h : t.Below n) (hlt : n < limit) (x : α) :
    t.openBelow limit (some x) = (some n, t.put n x) := by
  rw [openBelow, h.free_eq, if_pos hlt, openNew, h.free_eq]

theorem Below.openBelow_of_le (h : t.Below n) (hle : limit ≤ n) (x : Option α) :
    t.openBelow limit x = (none, t) := by
  rw [openBelow, h.free_eq, if_neg (Nat.not_lt.mpr hle)]

@[simp] theorem openBelow_none : t.openBelow limit none = (none, t) := by
  unfold openBelow
  split <;> rfl

end Descriptors
