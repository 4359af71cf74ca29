import Mathlib.Algebra.BigOperators.Group.List.Basic
import Mathlib.Algebra.Order.Group.Nat
import Mathlib.Algebra.Ring.Int.Defs
import Mathlib.Algebra.Ring.Nat
import Mathlib.Data.List.Flatten

/-!
# Cs252.Lib.Ere

Extended regular expressions over any alphabet.

An anchor looks at what is around a text, so a text is matched between what comes before
it and what comes after. `weight` is what an expression needs of its letters: with any
text that is matched, one is matched that has no more than that (`Matches.exists_light`),
and the rest of its letters are a filler.
-/

namespace Ere

universe u

/-- An expression. -/
inductive Expr (α : Type u)
  | empty
  | one (a : α)
  | any
  | bracket (p : α → Bool)
  | bol
  | eol
  | seq (x y : Expr α)
  | alt (x y : Expr α)
  /-- At least `lo` times, and at most `hi`. -/
  | rep (lo : Nat) (hi : Option Nat) (x : Expr α)

variable {α : Type u}

/-- Texts one after the other, each of which is as it has to be between the ones before
and the ones after. -/
def Chain (M : List α → List α → List α → Prop) (before : List α) :
    List (List α) → List α → Prop
  | [], _ => True
  | w :: ws, after => M before w (ws.flatten ++ after) ∧ Chain M (before ++ w) ws after

/-- A text is matched between two others. -/
def Matches : Expr α → List α → List α → List α → Prop
  | .empty, _, w, _ => w = []
  | .one a, _, w, _ => w = [a]
  | .any, _, w, _ => ∃ a, w = [a]
  | .bracket p, _, w, _ => ∃ a, p a = true ∧ w = [a]
  | .bol, before, w, _ => w = [] ∧ before = []
  | .eol, _, w, after => w = [] ∧ after = []
  | .seq x y, before, w, after =>
    ∃ u v, w = u ++ v ∧ Matches x before u (v ++ after) ∧ Matches y (before ++ u) v after
  | .alt x y, before, w, after => Matches x before w after ∨ Matches y before w after
  | .rep lo hi x, before, w, after => ∃ ws, lo ≤ ws.length ∧ (∀ n ∈ hi, ws.length ≤ n) ∧
    w = ws.flatten ∧ Chain (Matches x) before ws after

/-- An expression is found in a text. -/
def Found (e : Expr α) (text : List α) : Prop :=
  ∃ before w after, text = before ++ w ++ after ∧ Matches e before w after

/-! ### Weights -/

/-- What letters weigh: no more than a bound, and a filler nothing. -/
structure Scale (α : Type u) where
  letter : α → Nat
  heaviest : Nat
  filler : α
  letter_le : ∀ a, letter a ≤ heaviest
  letter_filler : letter filler = 0

namespace Scale

/-- The weight of a text. -/
def text (μ : Scale α) (w : List α) : Nat := (w.map μ.letter).sum

@[simp] theorem text_cons (μ : Scale α) (a : α) (w : List α) :
    μ.text (a :: w) = μ.letter a + μ.text w := List.sum_cons

@[simp] theorem text_append (μ : Scale α) (u v : List α) :
    μ.text (u ++ v) = μ.text u + μ.text v := by
  rw [text, List.map_append, List.sum_append]
  rfl

end Scale

/-- What an expression needs. -/
def Expr.weight (μ : Scale α) : Expr α → Nat
  | .empty => 0
  | .one a => μ.letter a
  | .any => 0
  | .bracket _ => μ.heaviest
  | .bol => 0
  | .eol => 0
  | .seq x y => x.weight μ + y.weight μ
  | .alt x y => max (x.weight μ) (y.weight μ)
  | .rep lo _ x => max lo 1 * x.weight μ

/-! ### Light texts -/

/-- A text can stand for another: no letter of it is new but the filler, and it is empty
if the other one is. -/
structure Stands (μ : Scale α) (v w : List α) : Prop where
  nil_iff : v = [] ↔ w = []
  letters : ∀ a ∈ v, a = μ.filler ∨ a ∈ w

namespace Stands

variable {μ : Scale α} {v w v' w' : List α}

protected theorem refl (μ : Scale α) (w : List α) : Stands μ w w :=
  ⟨Iff.rfl, fun _ => Or.inr⟩

protected theorem append (h : Stands μ v w) (h' : Stands μ v' w') :
    Stands μ (v ++ v') (w ++ w') := by
  refine ⟨?_, fun a ha => ?_⟩
  · rw [List.append_eq_nil_iff, List.append_eq_nil_iff, h.nil_iff, h'.nil_iff]
  · rw [List.mem_append]
    rcases List.mem_append.mp ha with ha | ha
    · exact (h.letters a ha).imp_right Or.inl
    · exact (h'.letters a ha).imp_right Or.inr

end Stands

/-- A text that stands for a matched one, and is light. It is matched wherever there is
nothing around it if there was nothing around the other one. -/
structure Light (μ : Scale α) (M : List α → List α → List α → Prop) (bound : Nat)
    (before w after v : List α) : Prop where
  stands : Stands μ v w
  light : μ.text v ≤ bound
  fits : ∀ before' after', (before = [] → before' = []) → (after = [] → after' = []) →
    M before' v after'

section Light

variable {μ : Scale α} {M : List α → List α → List α → Prop} {bound : Nat}

theorem append_nil_imp {u v u' v' : List α} (hu : u = [] → u' = []) (hv : v = [] → v' = []) :
    u ++ v = [] → u' ++ v' = [] := by
  simp only [List.append_eq_nil_iff]
  exact fun h => ⟨hu h.1, hv h.2⟩

/-- Some of the texts of a chain, each made light, are a chain. -/
theorem Chain.exists_light
    (hM : ∀ before w after, M before w after → ∃ v, Light μ M bound before w after v)
    {ws kept : List (List α)} (hkept : kept.Sublist ws) {before after : List α}
    (h : Chain M before ws after) :
    ∃ vs : List (List α), vs.length = kept.length ∧ Stands μ vs.flatten kept.flatten ∧
      μ.text vs.flatten ≤ kept.length * bound ∧
      ∀ before' after', (before = [] → before' = []) → (after = [] → after' = []) →
        Chain M before' vs after' := by
  induction hkept generalizing before with
  | slnil => exact ⟨[], rfl, .refl μ _, Nat.zero_le _, fun _ _ _ _ => trivial⟩
  | cons w _ ih =>
    obtain ⟨vs, hlength, hstands, hlight, hfits⟩ := ih h.2
    refine ⟨vs, hlength, hstands, hlight, fun before' after' hbefore hafter => ?_⟩
    exact hfits _ _ (fun hnil => hbefore (List.append_eq_nil_iff.mp hnil).1) hafter
  | @cons_cons kept ws w hsub ih =>
    obtain ⟨vs, hlength, hstands, hlight, hfits⟩ := ih h.2
    obtain ⟨v, hv⟩ := hM _ _ _ h.1
    refine ⟨v :: vs, congrArg (· + 1) hlength, hv.stands.append hstands, ?_,
      fun before' after' hbefore hafter => ⟨?_, ?_⟩⟩
    · rw [List.flatten_cons, Scale.text_append, List.length_cons, Nat.succ_mul, Nat.add_comm]
      exact Nat.add_le_add hlight hv.light
    · -- if there is nothing after, then nothing that is kept is after either
      refine hv.fits _ _ hbefore (append_nil_imp (fun hnil => hstands.nil_iff.mpr ?_) hafter)
      exact List.flatten_eq_nil_iff.mpr fun w hw =>
        List.flatten_eq_nil_iff.mp hnil w (hsub.subset hw)
    · exact hfits _ _ (append_nil_imp hbefore hv.stands.nil_iff.mpr) hafter

/-- Of some texts as many are kept as are needed, and one that is not empty among them. -/
theorem exists_kept {n : Nat} (hpos : 0 < n) {ws : List (List α)} (h : n ≤ ws.length) :
    ∃ kept : List (List α), kept.Sublist ws ∧ kept.length = n ∧
      (kept.flatten = [] ↔ ws.flatten = []) := by
  induction ws with
  | nil => exact absurd h (Nat.not_le_of_lt hpos)
  | cons w ws ih =>
    by_cases hws : n ≤ ws.length ∧ ws.flatten ≠ []
    · obtain ⟨kept, hsub, hlength, hnil⟩ := ih hws.1
      refine ⟨kept, hsub.cons w, hlength, iff_of_false (mt hnil.mp hws.2) ?_⟩
      exact fun hnil => hws.2 (List.append_eq_nil_iff.mp hnil).2
    · refine ⟨w :: ws.take (n - 1), (List.take_sublist _ _).cons_cons w, ?_, ?_⟩
      · rw [List.length_cons] at h
        rw [List.length_cons, List.length_take]
        omega
      · rw [List.flatten_cons, List.flatten_cons, List.append_eq_nil_iff, List.append_eq_nil_iff]
        refine and_congr_right fun _ => ?_
        by_cases hnil : ws.flatten = []
        · refine iff_of_true (List.flatten_eq_nil_iff.mpr fun v hv => ?_) hnil
          exact List.flatten_eq_nil_iff.mp hnil v (List.mem_of_mem_take hv)
        · have hlt : ws.length < n := Nat.lt_of_not_le fun hle => hws ⟨hle, hnil⟩
          rw [List.take_of_length_le (Nat.le_sub_one_of_lt hlt)]

end Light

/-- Of what a repetition matches no more is kept than is needed. -/
theorem Chain.exists_light_rep {μ : Scale α} {x : Expr α}
    (hM : ∀ before w after, Matches x before w after →
      ∃ v, Light μ (Matches x) (x.weight μ) before w after v)
    {lo : Nat} {hi : Option Nat} {ws : List (List α)} {before after : List α}
    (hlo : lo ≤ ws.length) (hhi : ∀ n ∈ hi, ws.length ≤ n)
    (h : Chain (Matches x) before ws after) :
    ∃ v, Light μ (Matches (.rep lo hi x)) (max lo 1 * x.weight μ) before ws.flatten after v := by
  obtain ⟨kept, hsub, hkept, hle, hnil⟩ : ∃ kept : List (List α), kept.Sublist ws ∧
      lo ≤ kept.length ∧ kept.length ≤ max lo 1 ∧ (kept.flatten = [] ↔ ws.flatten = []) := by
    cases ws with
    | nil => exact ⟨[], .slnil, hlo, Nat.zero_le _, Iff.rfl⟩
    | cons w ws =>
      have hmax : max lo 1 ≤ (w :: ws).length := max_le hlo (Nat.succ_pos _)
      obtain ⟨kept, hsub, hlength, hnil⟩ := exists_kept (by omega) hmax
      exact ⟨kept, hsub, by omega, by omega, hnil⟩
  obtain ⟨vs, hlength, hstands, hlight, hfits⟩ := Chain.exists_light hM hsub h
  refine ⟨vs.flatten, ⟨hstands.nil_iff.trans hnil, fun a ha => ?_⟩, ?_, fun before' after' hb ha => ?_⟩
  · exact (hstands.letters a ha).imp_right fun hmem => hsub.flatten.subset hmem
  · exact hlight.trans (Nat.mul_le_mul_right _ hle)
  · refine ⟨vs, by rwa [hlength], fun n hn => ?_, rfl, hfits _ _ hb ha⟩
    rw [hlength]
    exact hsub.length_le.trans (hhi n hn)

/-- **Light texts**: for each text that is matched there is one that needs no more than
the expression does. -/
theorem Matches.exists_light (μ : Scale α) {e : Expr α} {before w after : List α}
    (h : Matches e before w after) :
    ∃ v, Light μ (Matches e) (e.weight μ) before w after v := by
  induction e generalizing before w after with
  | empty => exact ⟨w, .refl μ w, by rw [show w = [] from h]; rfl, fun _ _ _ _ => h⟩
  | one a => exact ⟨w, .refl μ w, by rw [show w = [a] from h]; rfl, fun _ _ _ _ => h⟩
  | any =>
    obtain ⟨a, rfl⟩ := h
    refine ⟨[μ.filler], ⟨by simp, by simp⟩, ?_, fun _ _ _ _ => ⟨_, rfl⟩⟩
    rw [Scale.text_cons, μ.letter_filler]
    exact Nat.le_refl _
  | bracket p =>
    obtain ⟨a, hp, rfl⟩ := h
    exact ⟨[a], .refl μ _, μ.letter_le a, fun _ _ _ _ => ⟨a, hp, rfl⟩⟩
  | bol =>
    obtain ⟨rfl, hbefore⟩ := h
    exact ⟨[], .refl μ _, Nat.le_refl _, fun _ _ hb _ => ⟨rfl, hb hbefore⟩⟩
  | eol =>
    obtain ⟨rfl, hafter⟩ := h
    exact ⟨[], .refl μ _, Nat.le_refl _, fun _ _ _ ha => ⟨rfl, ha hafter⟩⟩
  | seq x y ihx ihy =>
    obtain ⟨u, v, rfl, hx, hy⟩ := h
    obtain ⟨u', hu⟩ := ihx hx
    obtain ⟨v', hv⟩ := ihy hy
    refine ⟨u' ++ v', hu.stands.append hv.stands, ?_, fun before' after' hb ha =>
      ⟨u', v', rfl, ?_, ?_⟩⟩
    · rw [Scale.text_append]
      exact Nat.add_le_add hu.light hv.light
    · exact hu.fits _ _ hb (append_nil_imp hv.stands.nil_iff.mpr ha)
    · exact hv.fits _ _ (append_nil_imp hb hu.stands.nil_iff.mpr) ha
  | alt x y ihx ihy =>
    rcases h with h | h
    · obtain ⟨v, hv⟩ := ihx h
      exact ⟨v, hv.stands, hv.light.trans (le_max_left _ _), fun _ _ hb ha => .inl (hv.fits _ _ hb ha)⟩
    · obtain ⟨v, hv⟩ := ihy h
      exact ⟨v, hv.stands, hv.light.trans (le_max_right _ _), fun _ _ hb ha => .inr (hv.fits _ _ hb ha)⟩
  | rep lo hi x ih =>
    obtain ⟨ws, hlo, hhi, rfl, hchain⟩ := h
    exact Chain.exists_light_rep (fun _ _ _ => ih) hlo hhi hchain

/-- With any text in which an expression is found, there is a light one. -/
theorem Found.exists_light (μ : Scale α) {e : Expr α} {text : List α} (h : Found e text) :
    ∃ light, Stands μ light text ∧ μ.text light ≤ e.weight μ ∧ Found e light := by
  obtain ⟨before, w, after, rfl, hmatches⟩ := h
  obtain ⟨v, hv⟩ := hmatches.exists_light μ
  -- what is around it is a filler, if there is anything
  have hpad : ∀ around : List α, ∃ pad : List α, Stands μ pad around ∧ μ.text pad = 0 := by
    intro around
    cases around with
    | nil => exact ⟨[], .refl μ _, rfl⟩
    | cons a around =>
      exact ⟨[μ.filler], ⟨by simp, by simp⟩, by rw [Scale.text_cons, μ.letter_filler]; rfl⟩
  obtain ⟨before', hbefore, hbefore0⟩ := hpad before
  obtain ⟨after', hafter, hafter0⟩ := hpad after
  refine ⟨before' ++ v ++ after', (hbefore.append hv.stands).append hafter, ?_, before', v, after',
    rfl, hv.fits _ _ hbefore.nil_iff.mpr hafter.nil_iff.mpr⟩
  rw [Scale.text_append, Scale.text_append, hbefore0, hafter0, Nat.zero_add, Nat.add_zero]
  exact hv.light

end Ere
