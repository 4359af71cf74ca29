import Mathlib.Computability.Language

/-!
# Cs252.Lib.Flex

Scanners like those that `flex` makes.

A scanner is a list of rules, each of which has a pattern. It takes the rule
that matches most of the input, and the first of these (`select`). `longest` is
the length of what a pattern matches, found with derivatives; `longest_mem` and
`le_longest` say what it is in terms of the language of the pattern.
-/

/-- Patterns over classes of characters. -/
inductive Pattern (α : Type)
  | empty
  | nil
  | cls (p : α → Bool)
  | seq (r s : Pattern α)
  | alt (r s : Pattern α)
  | star (r : Pattern α)

namespace Pattern

variable {α β : Type} {r : Pattern α} {c : α} {s t : List α} {n : Nat}

/-! ### Languages -/

/-- The texts that a pattern matches. -/
def lang : Pattern α → Language α
  | .empty => 0
  | .nil => 1
  | .cls p => {s | ∃ c, p c = true ∧ s = [c]}
  | .seq r s => r.lang * s.lang
  | .alt r s => r.lang + s.lang
  | .star r => KStar.kstar r.lang

/-- The pattern matches the empty text. -/
def nullable : Pattern α → Bool
  | .empty => false
  | .nil => true
  | .cls _ => false
  | .seq r s => r.nullable && s.nullable
  | .alt r s => r.nullable || s.nullable
  | .star _ => true

/-- What has to follow a character. -/
def deriv (c : α) : Pattern α → Pattern α
  | .empty => .empty
  | .nil => .empty
  | .cls p => if p c then .nil else .empty
  | .seq r s => if r.nullable then .alt (.seq (r.deriv c) s) (s.deriv c) else .seq (r.deriv c) s
  | .alt r s => .alt (r.deriv c) (s.deriv c)
  | .star r => .seq (r.deriv c) (.star r)

/-- One or more. -/
def plus (r : Pattern α) : Pattern α := .seq r (.star r)

/-- A text. -/
def word [DecidableEq α] (w : List α) : Pattern α :=
  w.foldr (fun c r => .seq (.cls fun d => d = c) r) .nil

theorem lang_seq (r q : Pattern α) : (seq r q).lang = r.lang * q.lang := rfl

theorem lang_alt (r q : Pattern α) : (alt r q).lang = r.lang + q.lang := rfl

theorem lang_star (r : Pattern α) : (star r).lang = KStar.kstar r.lang := rfl

theorem nullable_iff : r.nullable = true ↔ [] ∈ r.lang := by
  induction r with
  | empty => exact iff_of_false nofun (Language.notMem_zero _)
  | nil => exact iff_of_true rfl Language.nil_mem_one
  | cls p => exact iff_of_false nofun fun ⟨_, _, h⟩ => by cases h
  | seq r s ihr ihs =>
    rw [nullable, Bool.and_eq_true, ihr, ihs, lang_seq, Language.mem_mul]
    constructor
    · intro h
      exact ⟨[], h.1, [], h.2, rfl⟩
    · intro h
      obtain ⟨a, ha, b, hb, hab⟩ := h
      obtain ⟨rfl, rfl⟩ := List.append_eq_nil_iff.mp hab
      exact ⟨ha, hb⟩
  | alt r s ihr ihs => rw [nullable, Bool.or_eq_true, ihr, ihs, lang_alt, Language.mem_add]
  | star r => exact iff_of_true rfl (Language.nil_mem_kstar _)

theorem cons_mem_mul {l m : Language α} :
    c :: s ∈ l * m ↔
      (∃ a b, c :: a ∈ l ∧ b ∈ m ∧ s = a ++ b) ∨ [] ∈ l ∧ c :: s ∈ m := by
  rw [Language.mem_mul]
  constructor
  · intro h
    obtain ⟨a, ha, b, hb, hab⟩ := h
    cases a with
    | nil => exact Or.inr ⟨ha, hab ▸ hb⟩
    | cons d a =>
      obtain ⟨rfl, rfl⟩ := List.cons.inj hab
      exact Or.inl ⟨a, b, ha, hb, rfl⟩
  · intro h
    rcases h with ⟨a, b, ha, hb, rfl⟩ | ⟨hl, hm⟩
    · exact ⟨c :: a, ha, b, hb, rfl⟩
    · exact ⟨[], hl, c :: s, hm, rfl⟩

theorem cons_mem_kstar {l : Language α} :
    c :: s ∈ KStar.kstar l ↔ ∃ a b, c :: a ∈ l ∧ b ∈ KStar.kstar l ∧ s = a ++ b := by
  rw [Language.mem_kstar_iff_exists_nonempty]
  constructor
  · intro h
    obtain ⟨parts, hparts, hmem⟩ := h
    cases parts with
    | nil => cases hparts
    | cons part parts =>
      obtain ⟨hpart, hne⟩ := hmem part List.mem_cons_self
      obtain ⟨d, a, rfl⟩ := List.exists_cons_of_ne_nil hne
      obtain ⟨rfl, rfl⟩ := List.cons.inj hparts
      exact ⟨a, parts.flatten, hpart,
        Language.join_mem_kstar fun y hy => (hmem y (List.mem_cons_of_mem _ hy)).1, rfl⟩
  · intro h
    obtain ⟨a, b, ha, hb, rfl⟩ := h
    obtain ⟨parts, rfl, hparts⟩ := Language.mem_kstar_iff_exists_nonempty.mp hb
    exact ⟨(c :: a) :: parts, rfl,
      List.forall_mem_cons.mpr ⟨⟨ha, List.cons_ne_nil _ _⟩, hparts⟩⟩

/-- A text is matched if its rest is by the derivative. -/
theorem mem_deriv : s ∈ (r.deriv c).lang ↔ c :: s ∈ r.lang := by
  induction r generalizing s with
  | empty => exact Iff.rfl
  | nil => exact iff_of_false (Language.notMem_zero _) nofun
  | cls p =>
    cases hp : p c with
    | true =>
      rw [deriv, if_pos hp]
      constructor
      · intro h
        obtain rfl := (Language.mem_one _).mp h
        exact ⟨c, hp, rfl⟩
      · intro h
        obtain ⟨d, -, hd⟩ := h
        cases hd
        exact Language.nil_mem_one
    | false =>
      rw [deriv, if_neg (Bool.eq_false_iff.mp hp)]
      refine iff_of_false (Language.notMem_zero _) fun h => ?_
      obtain ⟨d, hd, heq⟩ := h
      cases heq
      exact Bool.eq_false_iff.mp hp hd
  | seq r q ihr ihq =>
    -- the part of the derivative that both cases share: the character is taken from `r`
    have hseq (t : List α) : t ∈ (Pattern.seq (r.deriv c) q).lang ↔
        ∃ a b, c :: a ∈ r.lang ∧ b ∈ q.lang ∧ t = a ++ b := by
      rw [lang_seq, Language.mem_mul]
      constructor
      · intro h
        obtain ⟨a, ha, b, hb, rfl⟩ := h
        exact ⟨a, b, ihr.mp ha, hb, rfl⟩
      · intro h
        obtain ⟨a, b, ha, hb, rfl⟩ := h
        exact ⟨a, ihr.mpr ha, b, hb, rfl⟩
    rw [lang_seq, cons_mem_mul, ← hseq, ← nullable_iff]
    cases hnull : r.nullable with
    | true =>
      rw [deriv, if_pos hnull, lang_alt, Language.mem_add, ihq]
      simp
    | false =>
      rw [deriv, if_neg (Bool.eq_false_iff.mp hnull)]
      simp
  | alt r s ihr ihs => rw [deriv, lang_alt, lang_alt, Language.mem_add, Language.mem_add, ihr, ihs]
  | star r ih =>
    rw [lang_star, cons_mem_kstar, deriv, lang_seq, Language.mem_mul]
    constructor
    · intro h
      obtain ⟨a, ha, b, hb, rfl⟩ := h
      exact ⟨a, b, ih.mp ha, hb, rfl⟩
    · intro h
      obtain ⟨a, b, ha, hb, rfl⟩ := h
      exact ⟨a, ih.mpr ha, b, hb, rfl⟩

/-! ### The longest match -/

/-- The length of the longest text that the pattern matches at the beginning of the
input, or 0 if there is none but the empty one. -/
def longest (r : Pattern α) : List α → Nat
  | [] => 0
  | c :: s =>
    match (r.deriv c).longest s with
    | 0 => if (r.deriv c).nullable then 1 else 0
    | n + 1 => n + 2

theorem longest_le_length : r.longest s ≤ s.length := by
  induction s generalizing r with
  | nil => exact Nat.le_refl 0
  | cons c s ih =>
    have hle := ih (r := r.deriv c)
    rw [longest, List.length_cons]
    split
    · split <;> omega
    · next n hn =>
      rw [hn] at hle
      omega

/-- What is found is matched. -/
theorem longest_mem (h : 0 < r.longest s) : s.take (r.longest s) ∈ r.lang := by
  induction s generalizing r with
  | nil => exact absurd h (Nat.lt_irrefl 0)
  | cons c s ih =>
    rw [longest] at h ⊢
    split at h
    · next hn =>
      split at h
      · next hnull =>
        rw [if_pos hnull]
        exact mem_deriv.mp (nullable_iff.mp hnull)
      · exact absurd h (Nat.lt_irrefl 0)
    · next n hn =>
      have hmem := ih (r := r.deriv c) (by omega)
      rw [hn] at hmem
      exact mem_deriv.mp hmem

/-- What is matched is no longer. -/
theorem le_longest (hn : n ≤ s.length) (h : s.take n ∈ r.lang) : n ≤ r.longest s := by
  induction s generalizing r n with
  | nil => exact hn
  | cons c s ih =>
    cases n with
    | zero => exact Nat.zero_le _
    | succ n =>
      have hle := ih (Nat.le_of_succ_le_succ hn) (mem_deriv.mpr h)
      rw [longest]
      split
      · next hzero =>
        have hn : n = 0 := by omega
        subst hn
        rw [if_pos (nullable_iff.mpr (mem_deriv.mpr h))]
      · next m hm => omega

/-- Only the language counts. -/
theorem longest_congr {q : Pattern α} (h : ∀ s, s ∈ r.lang ↔ s ∈ q.lang) (s : List α) :
    r.longest s = q.longest s := by
  have hle {r q : Pattern α} (h : ∀ s, s ∈ r.lang ↔ s ∈ q.lang) : r.longest s ≤ q.longest s := by
    rcases Nat.eq_zero_or_pos (r.longest s) with hzero | hpos
    · rw [hzero]
      exact Nat.zero_le _
    · exact le_longest longest_le_length ((h _).mp (longest_mem hpos))
  exact Nat.le_antisymm (hle h) (hle fun s => (h s).symm)

/-- Nothing is matched where no text at the beginning of the input is. -/
theorem longest_eq_zero (h : ∀ t, t <+: s → t ∉ r.lang) : r.longest s = 0 := by
  rcases Nat.eq_zero_or_pos (r.longest s) with hzero | hpos
  · exact hzero
  · exact absurd (longest_mem hpos) (h _ (List.take_prefix _ _))

theorem length_le_longest (h : t <+: s) (hmem : t ∈ r.lang) : t.length ≤ r.longest s := by
  refine le_longest h.length_le ?_
  rwa [← List.prefix_iff_eq_take.mp h]

/-- A text that is matched, and no longer one. -/
theorem longest_eq (ht : t <+: s) (hmem : t ∈ r.lang)
    (hmax : ∀ u, t <+: u → u <+: s → u ∈ r.lang → u = t) : r.longest s = t.length := by
  have hle := length_le_longest ht hmem
  refine Nat.le_antisymm ?_ hle
  rcases Nat.eq_zero_or_pos (r.longest s) with hzero | hpos
  · rw [hzero]
    exact Nat.zero_le _
  · have htake : t <+: s.take (r.longest s) := List.prefix_take_iff.mpr ⟨ht, hle⟩
    have := congrArg List.length (hmax _ htake (List.take_prefix _ _) (longest_mem hpos))
    rw [List.length_take, Nat.min_eq_left longest_le_length] at this
    exact Nat.le_of_eq this

theorem longest_eq_iff (ht : t <+: s) (hne : t ≠ []) :
    r.longest s = t.length ↔ t ∈ r.lang ∧ ∀ u, t <+: u → u <+: s → u ∈ r.lang → u = t := by
  constructor
  · intro h
    refine ⟨?_, fun u hpre hu hmem => (hpre.eq_of_length_le (h ▸ length_le_longest hu hmem)).symm⟩
    have hmem := longest_mem (h ▸ List.length_pos_of_ne_nil hne : 0 < r.longest s)
    rwa [h, ← List.prefix_iff_eq_take.mp ht] at hmem
  · intro h
    exact longest_eq ht h.1 h.2

/-- Characters that may stand before everything that is matched. -/
theorem longest_append {x : List α} (hnil : [] ∉ r.lang)
    (h : ∀ c ∈ x, ∀ t, c :: t ∈ r.lang ↔ t ∈ r.lang) :
    r.longest (x ++ s) = if r.longest s = 0 then 0 else x.length + r.longest s := by
  induction x with
  | nil => split <;> simp [*]
  | cons c x ih =>
    obtain ⟨hc, hx⟩ := List.forall_mem_cons.mp h
    -- the derivative by such a character is the pattern again
    have hlang (t : List α) : t ∈ (r.deriv c).lang ↔ t ∈ r.lang := mem_deriv.trans (hc t)
    have hnull : (r.deriv c).nullable = false :=
      Bool.eq_false_iff.mpr fun hnull => hnil ((hlang []).mp (nullable_iff.mp hnull))
    have hrest : (r.deriv c).longest (x ++ s) = if r.longest s = 0 then 0 else x.length + r.longest s :=
      (longest_congr hlang _).trans (ih hx)
    rw [List.cons_append, longest, hrest]
    by_cases hzero : r.longest s = 0
    · rw [if_pos hzero, if_pos hzero, hnull]
      rfl
    · obtain ⟨n, hn⟩ := Nat.exists_eq_succ_of_ne_zero hzero
      rw [if_neg hzero, if_neg hzero, hn, List.length_cons]
      show x.length + n + 2 = x.length + 1 + (n + 1)
      omega

/-! ### Some patterns -/

section Patterns

variable {p : α → Bool}

theorem mem_star_cls : s ∈ (star (cls p)).lang ↔ ∀ c ∈ s, p c = true := by
  rw [lang_star]
  induction s with
  | nil => exact iff_of_true (Language.nil_mem_kstar _) (List.forall_mem_nil _)
  | cons c s ih =>
    rw [cons_mem_kstar, List.forall_mem_cons, ← ih]
    constructor
    · intro h
      obtain ⟨a, b, ⟨d, hd, heq⟩, hb, rfl⟩ := h
      cases heq
      exact ⟨hd, hb⟩
    · intro h
      exact ⟨[], s, ⟨c, h.1, rfl⟩, h.2, rfl⟩

theorem mem_plus_cls : s ∈ (plus (cls p)).lang ↔ s ≠ [] ∧ ∀ c ∈ s, p c = true := by
  rw [plus, lang_seq]
  cases s with
  | nil =>
    refine iff_of_false (fun h => ?_) fun h => h.1 rfl
    obtain ⟨a, ⟨c, -, rfl⟩, b, -, hab⟩ := Language.mem_mul.mp h
    cases hab
  | cons c s =>
    rw [cons_mem_mul, List.forall_mem_cons]
    constructor
    · intro h
      rcases h with ⟨a, b, ⟨d, hd, heq⟩, hb, rfl⟩ | ⟨⟨d, -, heq⟩, -⟩
      · cases heq
        exact ⟨List.cons_ne_nil _ _, hd, mem_star_cls.mp hb⟩
      · cases heq
    · intro h
      exact Or.inl ⟨[], s, ⟨c, h.2.1, rfl⟩, mem_star_cls.mpr h.2.2, rfl⟩

theorem mem_word [DecidableEq α] {w : List α} : s ∈ (word w).lang ↔ s = w := by
  induction w generalizing s with
  | nil => exact Language.mem_one _
  | cons d w ih =>
    rw [word, List.foldr_cons, lang_seq, Language.mem_mul]
    constructor
    · intro h
      obtain ⟨a, ⟨c, hc, rfl⟩, b, hb, rfl⟩ := h
      rw [of_decide_eq_true hc, ih.mp hb]
      rfl
    · intro h
      exact ⟨[d], ⟨d, decide_eq_true rfl, rfl⟩, w, ih.mpr rfl, h.symm⟩

theorem longest_plus_cls : (plus (cls p)).longest s = (s.takeWhile p).length := by
  by_cases hne : s.takeWhile p = []
  · rw [hne]
    refine longest_eq_zero fun t ht hmem => ?_
    obtain ⟨htne, hall⟩ := mem_plus_cls.mp hmem
    obtain ⟨c, t, rfl⟩ := List.exists_cons_of_ne_nil htne
    obtain ⟨s, rfl⟩ := ht
    rw [List.cons_append, List.takeWhile_cons_of_pos (hall c List.mem_cons_self)] at hne
    cases hne
  · refine longest_eq (List.takeWhile_prefix p)
      (mem_plus_cls.mpr ⟨hne, List.all_eq_true.mp List.all_takeWhile⟩) fun u hpre hu hmem => ?_
    have hle : u <+: s.takeWhile p := by
      obtain ⟨v, rfl⟩ := hu
      rw [List.takeWhile_append_of_pos (mem_plus_cls.mp hmem).2]
      exact List.prefix_append _ _
    exact (hpre.eq_of_length_le hle.length_le).symm

theorem longest_word [DecidableEq α] {w : List α} :
    (word w).longest s = if w <+: s then w.length else 0 := by
  split
  · next hw => exact longest_eq hw (mem_word.mpr rfl) fun u _ _ hu => mem_word.mp hu
  · next hw => exact longest_eq_zero fun t ht hmem => hw (mem_word.mp hmem ▸ ht)

/-- A text that begins with another character. -/
theorem longest_word_of_ne [DecidableEq α] {d : α} (w : List α) (h : d ≠ c) (s : List α) :
    (word (d :: w)).longest (c :: s) = 0 := by
  rw [longest_word, if_neg]
  exact fun hw => h (List.cons_prefix_cons.mp hw).1

/-- A pattern that begins with another character. -/
theorem longest_seq_word [DecidableEq α] {d : α} {q : Pattern α} (h : c ≠ d) (s : List α) :
    (seq (word [d]) q).longest (c :: s) = 0 := by
  refine longest_eq_zero fun t ht hmem => ?_
  obtain ⟨a, ha, b, -, rfl⟩ := Language.mem_mul.mp hmem
  obtain rfl := mem_word.mp ha
  obtain ⟨u, hu⟩ := ht
  exact h (List.cons.inj hu).1.symm

end Patterns

end Pattern

/-! ### Rules -/

/-- The rule that a scanner takes, and how much it matches. -/
def select {α β : Type} : List (Pattern α × β) → List α → Option (β × Nat)
  | [], _ => none
  | (r, b) :: rules, s =>
    -- a later rule is taken only if it matches more
    match select rules s with
    | none => if r.longest s = 0 then none else some (b, r.longest s)
    | some (b', n) => if n ≤ r.longest s then some (b, r.longest s) else some (b', n)

section Rules

variable {α β : Type} {rules pre post : List (Pattern α × β)} {r : Pattern α} {b : β} {s : List α}
  {n : Nat}

theorem select_mem (h : select rules s = some (b, n)) :
    0 < n ∧ ∃ r, (r, b) ∈ rules ∧ n = r.longest s := by
  induction rules generalizing b n with
  | nil => cases h
  | cons x rules ih =>
    obtain ⟨r, b'⟩ := x
    rw [select] at h
    cases hrest : select rules s with
    | none =>
      rw [hrest] at h
      dsimp only at h
      split at h
      · cases h
      · next hne =>
        cases h
        exact ⟨Nat.pos_of_ne_zero hne, r, List.mem_cons_self, rfl⟩
    | some y =>
      obtain ⟨b₁, m⟩ := y
      rw [hrest] at h
      dsimp only at h
      split at h
      · next hle =>
        cases h
        exact ⟨Nat.lt_of_lt_of_le (ih hrest).1 hle, r, List.mem_cons_self, rfl⟩
      · next =>
        cases h
        obtain ⟨hpos, r', hr', hn⟩ := ih hrest
        exact ⟨hpos, r', List.mem_cons_of_mem _ hr', hn⟩

theorem select_le_length (h : select rules s = some (b, n)) : n ≤ s.length := by
  obtain ⟨-, r, -, rfl⟩ := select_mem h
  exact Pattern.longest_le_length

/-- The first rule that matches most is taken. -/
theorem select_eq_some (hpos : 0 < r.longest s) (hpre : ∀ x ∈ pre, x.1.longest s < r.longest s)
    (hpost : ∀ x ∈ post, x.1.longest s ≤ r.longest s) :
    select (pre ++ (r, b) :: post) s = some (b, r.longest s) := by
  induction pre with
  | nil =>
    rw [List.nil_append, select]
    cases hrest : select post s with
    | none => exact if_neg (Nat.ne_of_gt hpos)
    | some y =>
      obtain ⟨b', n⟩ := y
      obtain ⟨-, r', hr', rfl⟩ := select_mem hrest
      exact if_pos (hpost _ hr')
  | cons x pre ih =>
    obtain ⟨r', b'⟩ := x
    rw [List.forall_mem_cons] at hpre
    rw [List.cons_append, select, ih hpre.2]
    exact if_neg (Nat.not_le_of_lt hpre.1)

/-- The rule that matches more than all others is taken. -/
theorem select_of_lt (hmem : (r, b) ∈ rules) (hpos : 0 < r.longest s)
    (h : ∀ x ∈ rules, x = (r, b) ∨ x.1.longest s < r.longest s) :
    select rules s = some (b, r.longest s) := by
  induction rules with
  | nil => cases hmem
  | cons x rules ih =>
    obtain ⟨hx, hrules⟩ := List.forall_mem_cons.mp h
    rcases hx with rfl | hlt
    · refine select_eq_some hpos (List.forall_mem_nil _) fun y hy => ?_
      rcases hrules y hy with rfl | hlt
      · exact Nat.le_refl _
      · exact Nat.le_of_lt hlt
    · have hne : (r, b) ≠ x := fun heq => absurd hlt (by rw [← heq]; exact Nat.lt_irrefl _)
      have hrest := ih ((List.mem_cons.mp hmem).resolve_left hne) hrules
      obtain ⟨r', b'⟩ := x
      rw [select, hrest]
      exact if_neg (Nat.not_le_of_lt hlt)

theorem select_nil : select rules ([] : List α) = none := by
  cases h : select rules ([] : List α) with
  | none => rfl
  | some x => exact absurd (select_mem h).1 (Nat.not_lt_of_le (select_le_length h))

end Rules

/-- The results of a scanner. The rule that is taken has an action, which gets the
text of the rule, the rest of the input and the results for it. A character for
which there is no rule is passed over. -/
def scan {α β γ : Type} (rules : List (Pattern α × β))
    (perform : β → List α → List α → List γ → List γ) (s : List α) : List γ :=
  match h : select rules s with
  | some (b, n) =>
    have := select_mem h
    have := select_le_length h
    perform b (s.take n) (s.drop n) (scan rules perform (s.drop n))
  | none =>
    match s with
    | [] => []
    | _ :: rest => scan rules perform rest
termination_by s.length
decreasing_by
  · rw [List.length_drop]
    omega
  · exact Nat.lt_succ_self _

section Scan

variable {α β γ : Type} {rules : List (Pattern α × β)}
  {perform : β → List α → List α → List γ → List γ} {s : List α} {b : β} {n : Nat}

theorem scan_nil : scan rules perform [] = [] := by
  rw [scan]
  split
  · next h => cases select_nil.symm.trans h
  · rfl

theorem scan_of_select (h : select rules s = some (b, n)) :
    scan rules perform s = perform b (s.take n) (s.drop n) (scan rules perform (s.drop n)) := by
  rw [scan]
  split
  · next h' =>
    cases h.symm.trans h'
    rfl
  · next h' => cases h.symm.trans h'

end Scan
