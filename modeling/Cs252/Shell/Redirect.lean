import Cs252.Shell.Execute

/-!
# Cs252.Shell.Redirect

The descriptor table while `command_execute` redirects.

At any moment the table differs from the one on entry in two ways only: the
standard descriptors refer to other files, and some descriptors that were free
are open. `View` says so, with the files listed. The system calls act on the
list (`View.openNew`, `View.dup2`, `View.close`), which turns the function into
a computation on short lists, whatever numbers the system hands out.
-/

namespace Cs252.Shell

open Descriptors

/-- The standard descriptor `fd` refers to `x`, if there is an `x`. -/
def redirected (std : Nat → File) (fd : Nat) : Option File → Nat → File
  | none => std
  | some x => fun k => if k = fd then x else std k

@[simp] theorem redirected_some_self (std : Nat → File) (fd : Nat) (x : File) :
    redirected std fd (some x) fd = x := by
  simp [redirected]

theorem redirected_of_ne (std : Nat → File) {fd k : Nat} (x : Option File) (h : k ≠ fd) :
    redirected std fd x k = std k := by
  cases x with
  | none => rfl
  | some x => exact if_neg h

/-- The table `t` is `T` with the standard descriptors redirected to `std`, and
with the descriptors of `own` open in addition. -/
structure View (T t : Descriptors File) (std : Nat → File) (own : List (Nat × File)) : Prop where
  entry : ∀ fd < 3, T.get fd ≠ none
  std : ∀ fd < 3, t.get fd = some (std fd)
  own_open : ∀ r ∈ own, t.get r.1 = some r.2
  own_new : ∀ r ∈ own, T.get r.1 = none
  others : ∀ fd, 3 ≤ fd → fd ∉ own.map Prod.fst → t.get fd = T.get fd
  nodup : (own.map Prod.fst).Nodup

namespace View

variable {T t : Descriptors File} {std : Nat → File} {own own' : List (Nat × File)} {fd : Nat}
  {r : Nat × File}

theorem start (h : ∀ fd < 3, T.get fd = some (std fd)) : View T T std [] where
  entry fd hfd := by
    rw [h fd hfd]
    exact Option.some_ne_none _
  std := h
  own_open _ hr := absurd hr List.not_mem_nil
  own_new _ hr := absurd hr List.not_mem_nil
  others _ _ _ := rfl
  nodup := List.nodup_nil

theorem perm (h : View T t std own) (hp : own.Perm own') : View T t std own' where
  entry := h.entry
  std := h.std
  own_open r hr := h.own_open r (hp.mem_iff.mpr hr)
  own_new r hr := h.own_new r (hp.mem_iff.mpr hr)
  others fd hfd hnot := h.others fd hfd fun hmem => hnot ((hp.map _).mem_iff.mp hmem)
  nodup := (hp.map _).nodup_iff.mp h.nodup

/-- Descriptors of `own` are not standard ones. -/
theorem le_of_mem (h : View T t std own) (hr : r ∈ own) : 3 ≤ r.1 :=
  Nat.le_of_not_lt fun hlt => h.entry r.1 hlt (h.own_new r hr)

/-- A new descriptor is none of those open. -/
theorem free_spec (h : View T t std own) :
    3 ≤ t.free ∧ t.free ∉ own.map Prod.fst ∧ T.get t.free = none := by
  have hnot : t.free ∉ own.map Prod.fst := by
    intro hmem
    obtain ⟨r, hr, heq⟩ := List.mem_map.mp hmem
    have hopen := h.own_open r hr
    rw [heq, get_free] at hopen
    cases hopen
  have hle : 3 ≤ t.free := by
    refine Nat.le_of_not_lt fun hlt => ?_
    have hopen := h.std _ hlt
    rw [get_free] at hopen
    cases hopen
  refine ⟨hle, hnot, ?_⟩
  rw [← h.others _ hle hnot, get_free]

/-- A call that opens a descriptor, if it succeeds. -/
theorem openNew (h : View T t std own) (x : Option File) :
    ∃ (new : Option (Nat × File)) (t' : Descriptors File),
      t.openNew x = (new.map Prod.fst, t') ∧ new.map Prod.snd = x ∧
      View T t' std (new.toList ++ own) := by
  cases x with
  | none => exact ⟨none, t, rfl, rfl, h⟩
  | some x =>
    obtain ⟨hle, hnot, hnew⟩ := h.free_spec
    refine ⟨some (t.free, x), _, rfl, rfl, h.entry, ?_, ?_, ?_, ?_, ?_⟩
    · intro fd hfd
      exact (get_put_of_ne (Nat.ne_of_lt (Nat.lt_of_lt_of_le hfd hle))).trans (h.std fd hfd)
    · intro r hr
      rcases List.mem_cons.mp hr with rfl | hr
      · exact get_put_self
      · have hne : r.1 ≠ t.free := fun heq => hnot (heq ▸ List.mem_map_of_mem hr)
        exact (get_put_of_ne hne).trans (h.own_open r hr)
    · intro r hr
      rcases List.mem_cons.mp hr with rfl | hr
      · exact hnew
      · exact h.own_new r hr
    · intro fd hfd hmem
      obtain ⟨hne, hmem⟩ := List.ne_and_not_mem_of_not_mem_cons hmem
      exact (get_put_of_ne hne).trans (h.others fd hfd hmem)
    · exact List.nodup_cons.mpr ⟨hnot, h.nodup⟩

/-- A standard descriptor is made to refer to a file that is open. -/
theorem put (h : View T t std own) (hfd : fd < 3) (x : File) :
    View T (t.put fd x) (redirected std fd (some x)) own where
  entry := h.entry
  std k hk := by
    by_cases heq : k = fd
    · rw [heq, get_put_self, redirected_some_self]
    · rw [get_put_of_ne heq, redirected_of_ne _ _ heq]
      exact h.std k hk
  own_open r hr := by
    have hne : r.1 ≠ fd := Nat.ne_of_gt (Nat.lt_of_lt_of_le hfd (h.le_of_mem hr))
    rw [get_put_of_ne hne]
    exact h.own_open r hr
  own_new := h.own_new
  others k hk hnot := by
    rw [get_put_of_ne (Nat.ne_of_gt (Nat.lt_of_lt_of_le hfd hk))]
    exact h.others k hk hnot
  nodup := h.nodup

theorem dup2 (h : View T t std own) (hfd : fd < 3) (hr : r ∈ own) :
    View T (t.dup2 (some r.1) fd) (redirected std fd (some r.2)) own := by
  rw [dup2_of_get (h.own_open r hr)]
  exact h.put hfd r.2

theorem close (h : View T t std (r :: own)) : View T (t.close (some r.1)) std own := by
  obtain ⟨hnot, hnodup⟩ := List.nodup_cons.mp h.nodup
  have hle := h.le_of_mem List.mem_cons_self
  refine ⟨h.entry, ?_, ?_, fun q hq => h.own_new q (List.mem_cons_of_mem _ hq), ?_, hnodup⟩
  · intro fd hfd
    rw [get_close_of_ne (Nat.ne_of_lt (Nat.lt_of_lt_of_le hfd hle))]
    exact h.std fd hfd
  · intro q hq
    have hne : q.1 ≠ r.1 := fun heq => hnot (heq ▸ List.mem_map_of_mem hq)
    rw [get_close_of_ne hne]
    exact h.own_open q (List.mem_cons_of_mem _ hq)
  · intro fd hfd hmem
    by_cases heq : fd = r.1
    · rw [heq, get_close_self]
      exact (h.own_new r List.mem_cons_self).symm
    · rw [get_close_of_ne heq]
      refine h.others fd hfd fun hin => ?_
      exact (List.mem_cons.mp hin).elim heq hmem

/-- A new descriptor takes the place of a standard one. -/
theorem redirect {new : Option (Nat × File)} (h : View T t std (new.toList ++ own)) (hfd : fd < 3) :
    View T ((t.dup2 (new.map Prod.fst) fd).close (new.map Prod.fst))
      (redirected std fd (new.map Prod.snd)) own := by
  cases new with
  | none => exact h
  | some r => exact (h.dup2 hfd List.mem_cons_self).close

/-- A call that opens a descriptor and succeeds. -/
theorem openNew_some (h : View T t std own) (x : File) :
    ∃ new t', t.openNew (some x) = (some new, t') ∧ View T t' std ((new, x) :: own) := by
  obtain ⟨new, t', heq, hx, hview⟩ := h.openNew (some x)
  obtain ⟨⟨fd, y⟩, rfl, rfl⟩ := Option.map_eq_some_iff.mp hx
  exact ⟨fd, t', heq, hview⟩

/-- `dup` of a descriptor that is open succeeds. -/
theorem dup_own (h : View T t std own) (hr : r ∈ own) :
    ∃ new t', t.dup (some r.1) = (some new, t') ∧ View T t' std ((new, r.2) :: own) := by
  rw [Descriptors.dup, Option.bind_some, h.own_open r hr]
  exact h.openNew_some r.2

theorem dup_std (h : View T t std own) (hfd : fd < 3) :
    ∃ new t', t.dup (some fd) = (some new, t') ∧ View T t' std ((new, std fd) :: own) := by
  rw [Descriptors.dup, Option.bind_some, h.std fd hfd]
  exact h.openNew_some (std fd)

/-- With a descriptor open in addition, the table is not as on entry. -/
theorem not_same (h : View T t std own) (hr : r ∈ own) : ¬t.Same T := by
  intro hsame
  have hopen := hsame r.1
  rw [h.own_open r hr, h.own_new r hr] at hopen
  cases hopen

end View

end Cs252.Shell
