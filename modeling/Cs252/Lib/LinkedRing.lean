import Mathlib.Data.List.Nodup

/-!
# Cs252.Lib.LinkedRing

Circular doubly linked lists through a sentinel, over any node type.

A pair of link functions `next prev : α → α` forms the *ring* of a list `l`
through the sentinel `s` (`IsRing next prev s l`) when the forward links lead
from `s` through `l` back to `s`, the backward links run the other way, and no
node occurs twice. How the links are stored is left open: a user reads them
off memory, and proves of a sequence of writes only which links changed.

The single update rule is `IsRing.splice`: replacing the middle segment of a
ring needs the new links of that segment and nothing else but agreement on the
remaining nodes. Unlinking, inserting, replacing and merging nodes are all
splices with particular segments.
-/

namespace LinkedRing

variable {α : Type*} {next prev next' prev' : α → α}

/-- The node before a gap: the last node of `l`, or `d` when `l` is empty. -/
def lastOr (d : α) : List α → α
  | [] => d
  | x :: l => lastOr x l

/-- The node after a gap: the first node of `l`, or `d` when `l` is empty. -/
def headOr (d : α) : List α → α
  | [] => d
  | x :: _ => x

@[simp] theorem lastOr_nil (d : α) : lastOr d [] = d := rfl
@[simp] theorem lastOr_cons (d x : α) (l : List α) : lastOr d (x :: l) = lastOr x l := rfl
@[simp] theorem headOr_nil (d : α) : headOr d [] = d := rfl
@[simp] theorem headOr_cons (d x : α) (l : List α) : headOr d (x :: l) = x := rfl

theorem lastOr_mem (d : α) (l : List α) : lastOr d l ∈ d :: l := by
  induction l generalizing d with
  | nil => simp
  | cons x l ih => exact List.mem_cons_of_mem _ (ih x)

theorem headOr_mem (d : α) (l : List α) : headOr d l ∈ d :: l := by
  cases l <;> simp

/-- A node is the last one of a part of the list. -/
theorem exists_lastOr_of_mem {d a : α} {l : List α} (h : a ∈ d :: l) :
    ∃ l₁ l₂, l = l₁ ++ l₂ ∧ a = lastOr d l₁ := by
  induction l generalizing d with
  | nil => exact ⟨[], [], rfl, by simpa using h⟩
  | cons x l ih =>
    rcases List.mem_cons.mp h with rfl | h
    · exact ⟨[], x :: l, rfl, rfl⟩
    · obtain ⟨l₁, l₂, rfl, hlast⟩ := ih h
      exact ⟨x :: l₁, l₂, rfl, hlast⟩

/-- The nodes around a part of a list. -/
theorem around_mem (d : α) (l₁ mid l₂ : List α) :
    lastOr d l₁ ∈ d :: (l₁ ++ (mid ++ l₂)) ∧ headOr d l₂ ∈ d :: (l₁ ++ (mid ++ l₂)) := by
  have hlast := lastOr_mem d l₁
  have hhead := headOr_mem d l₂
  simp only [List.mem_cons, List.mem_append] at hlast hhead ⊢
  tauto

/-- The nodes before and after a part of a list without duplicates are not in it. -/
theorem not_mem_between {d a : α} {l₁ mid l₂ : List α} (h : (d :: (l₁ ++ (mid ++ l₂))).Nodup)
    (ha : a ∈ d :: (l₁ ++ l₂)) : a ∉ mid := by
  have hperm : (d :: (l₁ ++ (mid ++ l₂))).Perm ((d :: (l₁ ++ l₂)) ++ mid) := by
    rw [List.cons_append, List.append_assoc]
    exact List.Perm.cons d (List.Perm.append_left l₁ List.perm_append_comm)
  exact List.disjoint_of_nodup_append (hperm.nodup_iff.mp h) ha

/-- The links from node `p` through the nodes of `l` to node `n`, both ways. -/
def Seg (next prev : α → α) (p : α) : List α → α → Prop
  | [], n => next p = n ∧ prev n = p
  | x :: l, n => next p = x ∧ prev x = p ∧ Seg next prev x l n

/-! ### Segments -/

theorem seg_append {p n x : α} {l l' : List α} :
    Seg next prev p (l ++ x :: l') n ↔ Seg next prev p l x ∧ Seg next prev x l' n := by
  induction l generalizing p with
  | nil => simp [Seg, and_assoc]
  | cons y l ih => simp [Seg, ih, and_assoc]

/-- A segment depends on the forward links of all its nodes but the last and
on the backward links of all but the first. -/
theorem seg_congr {p n : α} {l : List α} (hnext : ∀ a ∈ p :: l, next' a = next a)
    (hprev : ∀ a ∈ l ++ [n], prev' a = prev a) (h : Seg next prev p l n) :
    Seg next' prev' p l n := by
  induction l generalizing p with
  | nil =>
    exact ⟨(hnext p (by simp)).trans h.1, (hprev n (by simp)).trans h.2⟩
  | cons x l ih =>
    obtain ⟨h1, h2, h3⟩ := h
    refine ⟨(hnext p (by simp)).trans h1, (hprev x (by simp)).trans h2, ih ?_ ?_ h3⟩
    · exact fun a ha => hnext a (List.mem_cons_of_mem _ ha)
    · exact fun a ha => hprev a (List.mem_cons_of_mem _ ha)

theorem Seg.next_first {p n : α} {l : List α} (h : Seg next prev p l n) :
    next p = headOr n l := by
  cases l with
  | nil => exact h.1
  | cons x l => exact h.1

theorem Seg.prev_last {p n : α} {l : List α} (h : Seg next prev p l n) :
    prev n = lastOr p l := by
  induction l generalizing p with
  | nil => exact h.2
  | cons x l ih => exact ih h.2.2

/-- Dropping a prefix of a segment leaves the segment from its last node. -/
theorem Seg.drop_left {p n : α} {l l' : List α} (h : Seg next prev p (l ++ l') n) :
    Seg next prev (lastOr p l) l' n := by
  induction l generalizing p with
  | nil => exact h
  | cons x l ih => exact ih h.2.2

/-- Keep the prefix `l` of a segment and continue it by another one. -/
theorem Seg.splice_right {p n n' : α} {l r r' : List α}
    (h : Seg next prev p (l ++ r) n) (hnodup : (p :: l).Nodup)
    (hnext : ∀ a ∈ p :: l, a ≠ lastOr p l → next' a = next a)
    (hprev : ∀ a ∈ l, prev' a = prev a)
    (hr : Seg next' prev' (lastOr p l) r' n') : Seg next' prev' p (l ++ r') n' := by
  induction l generalizing p with
  | nil => exact hr
  | cons x l ih =>
    obtain ⟨h1, h2, h3⟩ := h
    obtain ⟨hp, hnodup'⟩ := List.nodup_cons.mp hnodup
    have hne : p ≠ lastOr x l := fun he => hp (he ▸ lastOr_mem x l)
    refine ⟨(hnext p (by simp) hne).trans h1, (hprev x (by simp)).trans h2, ih h3 hnodup' ?_ ?_ hr⟩
    · exact fun a ha => hnext a (List.mem_cons_of_mem _ ha)
    · exact fun a ha => hprev a (List.mem_cons_of_mem _ ha)

/-- Keep the suffix `l` of a segment and reach it by another one. -/
theorem Seg.splice_left {p p' n : α} {l r r' : List α}
    (h : Seg next prev p (r ++ l) n) (hnodup : (l ++ [n]).Nodup)
    (hnext : ∀ a ∈ l, next' a = next a)
    (hprev : ∀ a ∈ l ++ [n], a ≠ headOr n l → prev' a = prev a)
    (hr : Seg next' prev' p' r' (headOr n l)) : Seg next' prev' p' (r' ++ l) n := by
  cases l with
  | nil => simpa using hr
  | cons z l =>
    obtain ⟨-, hz⟩ := seg_append.mp h
    obtain ⟨hzl, -⟩ := List.nodup_cons.mp hnodup
    refine seg_append.mpr ⟨hr, seg_congr hnext (fun a ha => ?_) hz⟩
    exact hprev a (List.mem_cons_of_mem _ ha) fun he => hzl (by simpa [he] using ha)

/-! ### Rings -/

/-- The links form a ring through the sentinel `s` and the nodes `l`, in this order. -/
structure IsRing (next prev : α → α) (s : α) (l : List α) : Prop where
  /-- The links lead from the sentinel through `l` back to it. -/
  seg : Seg next prev s l s
  /-- No node is visited twice. -/
  nodup : (s :: l).Nodup

namespace IsRing

variable {s c : α} {l l₁ l₂ mid mid' : List α}

theorem next_gap (h : IsRing next prev s (l₁ ++ l₂)) :
    next (lastOr s l₁) = headOr s l₂ :=
  h.seg.drop_left.next_first

theorem next_node (h : IsRing next prev s (l₁ ++ c :: l₂)) : next c = headOr s l₂ :=
  (seg_append.mp h.seg).2.next_first

theorem prev_node (h : IsRing next prev s (l₁ ++ c :: l₂)) : prev c = lastOr s l₁ :=
  (seg_append.mp h.seg).1.prev_last

/-- The links around and inside a part of a ring. -/
theorem between (h : IsRing next prev s (l₁ ++ (mid ++ l₂))) :
    Seg next prev (lastOr s l₁) mid (headOr s l₂) := by
  have hseg := h.seg.drop_left
  cases l₂ with
  | nil => simpa using hseg
  | cons x xs => exact (seg_append.mp hseg).1

/-- The nodes of a ring keep their links when the link functions agree on them. -/
theorem congr (h : IsRing next prev s l) (hnext : ∀ a ∈ s :: l, next' a = next a)
    (hprev : ∀ a ∈ s :: l, prev' a = prev a) : IsRing next' prev' s l := by
  refine ⟨seg_congr hnext (fun a ha => hprev a ?_) h.seg, h.nodup⟩
  simpa [or_comm] using ha

/-- **Splice.** The middle segment `mid` of a ring is replaced by `mid'`: the
links around and inside `mid'` are given, all other links are unchanged. -/
theorem splice (h : IsRing next prev s (l₁ ++ (mid ++ l₂)))
    (hnodup : (s :: (l₁ ++ (mid' ++ l₂))).Nodup)
    (hnext : ∀ a ∈ s :: (l₁ ++ l₂), a ≠ lastOr s l₁ → next' a = next a)
    (hprev : ∀ a ∈ s :: (l₁ ++ l₂), a ≠ headOr s l₂ → prev' a = prev a)
    (hmid : Seg next' prev' (lastOr s l₁) mid' (headOr s l₂)) :
    IsRing next' prev' s (l₁ ++ (mid' ++ l₂)) := by
  have hsub : (s :: (l₁ ++ l₂)).Nodup :=
    hnodup.sublist (by simp)
  have hleft : (s :: l₁).Nodup := hsub.sublist (by simp)
  have hright : (l₂ ++ [s]).Nodup :=
    (List.perm_append_singleton s l₂).nodup_iff.mpr (hsub.sublist (by simp))
  -- the nodes of `l₁` are none of the nodes after the gap
  have hsep : ∀ a ∈ l₁, a ≠ headOr s l₂ := by
    rintro a ha rfl
    have hdis : (l₁ ++ (l₂ ++ [s])).Nodup := by
      have := (List.perm_append_singleton s (l₁ ++ l₂)).nodup_iff.mpr hsub
      simpa using this
    refine List.disjoint_of_nodup_append hdis ha ?_
    have := headOr_mem s l₂
    simpa [or_comm] using this
  have hsep' : ∀ a ∈ l₂, a ≠ lastOr s l₁ := by
    rintro a ha rfl
    have hdis : ((s :: l₁) ++ l₂).Nodup := by simpa using hsub
    exact List.disjoint_of_nodup_append hdis (lastOr_mem s l₁) ha
  have htail : Seg next' prev' (lastOr s l₁) (mid' ++ l₂) s := by
    refine h.seg.drop_left.splice_left hright (fun a ha => ?_) (fun a ha hne => ?_) hmid
    · exact hnext a (by simp [ha]) (hsep' a ha)
    · refine hprev a ?_ hne
      have : a ∈ l₂ ∨ a = s := by simpa using ha
      rcases this with h' | h' <;> simp [h']
  refine ⟨h.seg.splice_right hleft (fun a ha hne => ?_) (fun a ha => ?_) htail, hnodup⟩
  · refine hnext a ?_ hne
    have : a = s ∨ a ∈ l₁ := by simpa using ha
    rcases this with h' | h' <;> simp [h']
  · exact hprev a (by simp [ha]) (hsep a ha)

end IsRing

end LinkedRing
