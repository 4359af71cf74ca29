import Cs252.Lib.EreSyntax
import Cs252.Shell.WildcardMatches
import Mathlib.Data.List.Chain

/-!
# Cs252.Shell.WildcardRegex

What the regular expression for a component means.

The translation of `expand_wildcards` escapes the dot and nothing else. Without one of the
other characters that are special (`PlainComponent`), the expression matches what the component
does as a glob. With one it does not: a component needs each of its characters but the
wildcards in a name, and the special ones cost that, but pay for nothing in the
expression, so a name is matched that has less than what is needed (`not_translates`).
-/

namespace Cs252.Shell

/-- A name in a directory. -/
structure IsName (name : Text) : Prop where
  ne_nil : name ≠ []
  noSlash : '/' ∉ name
  noNul : Char.ofNat 0 ∉ name

/-- The regular expression for a component is one, fits its array with the terminator,
and is found in the names that the component matches as a glob. -/
structure Translates (component : Text) : Prop where
  compiles : ∃ e, Ere.parse (regexOf component) = some e ∧
    ∀ name, IsName name → (Ere.Found e name ↔ Glob.Matches (pattern component) name)
  fits : (regexOf component).length < 2 * component.length + 10

/-- A character that is special in regular expressions, and that the translation takes
no care of. -/
def active (c : Char) : Bool := ['\\', '^', '$', '[', '(', '{', '|', '+'].contains c

/-- No character is active. -/
def PlainComponent (component : Text) : Prop := ∀ c ∈ component, active c = false

instance (component : Text) : Decidable (PlainComponent component) :=
  List.decidableBAll (fun c => active c = false) component

theorem special_iff {c : Char} :
    Ere.special c = true ↔ active c = true ∨ c = '*' ∨ c = '?' ∨ c = '.' := by
  simp only [Ere.special, active, List.contains_iff_mem, List.mem_cons, List.not_mem_nil, or_false]
  tauto

/-! ### Size -/

theorem length_flatMap_le (component : Text) :
    (component.flatMap regexChar).length ≤ 2 * component.length := by
  induction component with
  | nil => exact Nat.le_refl _
  | cons c component ih =>
    have hchar : (regexChar c).length ≤ 2 := by
      unfold regexChar
      repeat' split
      all_goals simp
    rw [List.flatMap_cons, List.length_append, List.length_cons]
    omega

/-- The expression fits its array. -/
theorem length_regexOf_lt (component : Text) :
    (regexOf component).length < 2 * component.length + 10 := by
  have hle := length_flatMap_le component
  simp only [regexOf, List.length_append, List.length_cons, List.length_nil]
  omega

/-! ### Plain components -/

section PlainComponent

variable {c : Char} {component name : Text}

/-- The tokens for a character. -/
def tokensOf (c : Char) : List Ere.Token :=
  if c = '*' then [.any, .dup 0 none]
  else if c = '?' then [.any]
  else if c = ')' then [.closing]
  else [.one c]

theorem lex_regexChar (hc : active c = false) (rest : Text) :
    Ere.lex (regexChar c ++ rest) = (Ere.lex rest).map (tokensOf c ++ ·) := by
  have hstep : ∀ {t : Ere.Token} {text rest : Text}, Ere.nextToken text = some (t, rest) →
      Ere.lex text = (Ere.lex rest).map ([t] ++ ·) := Ere.lex_of_next
  unfold regexChar tokensOf
  split
  · rw [List.cons_append, hstep (t := .any) rfl, List.singleton_append,
      hstep (t := .dup 0 none) rfl, Option.map_map]
    rfl
  · next hstar =>
    split
    · exact hstep rfl
    · next hquestion =>
      split
      · next hdot =>
        rw [hdot, if_neg (by decide)]
        exact hstep rfl
      · next hdot =>
        have hspecial : ¬Ere.special c = true := by
          rw [special_iff, hc]
          simp [hstar, hquestion, hdot]
        have hne : ∀ d, Ere.special d = true → c ≠ d := fun d hd hcd => hspecial (hcd ▸ hd)
        rw [List.singleton_append,
          hstep (Ere.nextToken_single (hne '\\' rfl) (hne '[' rfl) (hne '{' rfl)),
          Ere.single_of_not_special hspecial]
        split <;> rfl

theorem lex_regexOf (h : PlainComponent component) :
    Ere.lex (regexOf component) = some (.bol :: component.flatMap tokensOf ++ [.eol]) := by
  have hbody : Ere.lex (component.flatMap regexChar ++ ['$']) =
      some (component.flatMap tokensOf ++ [.eol]) := by
    induction component with
    | nil => rw [List.flatMap_nil, List.nil_append, Ere.lex_of_next (t := .eol) rfl, Ere.lex_nil]; rfl
    | cons c component ih =>
      obtain ⟨hc, hcomponent⟩ := List.forall_mem_cons.mp h
      rw [List.flatMap_cons, List.append_assoc, lex_regexChar hc, ih hcomponent, Option.map_some,
        List.flatMap_cons, List.append_assoc]
  rw [regexOf, List.cons_append, Ere.lex_of_next (t := .bol) rfl, hbody]
  rfl

/-- Any text is any number of single letters. -/
theorem matches_rep_any (before w after : Text) :
    Ere.Matches (.rep 0 none .any) before w after := by
  refine ⟨w.map ([·]), Nat.zero_le _, nofun, ?_, ?_⟩
  · exact (List.flatMap_singleton' w).symm
  · induction w generalizing before with
    | nil => trivial
    | cons c w ih => exact ⟨⟨c, rfl⟩, ih _⟩

/-- The tokens for a character are a piece of the branch, that matches what the character
does. -/
theorem run_tokensOf (c : Char) (f : Ere.Frame) :
    ∃ e repeatable, (tokensOf c).foldlM Ere.Parser.step ⟨f, []⟩ = some ⟨f.push e repeatable, []⟩ ∧
      ∀ before w after, Ere.Matches e before w after ↔ Glob.Matches [piece c] w := by
  unfold tokensOf piece
  split
  · refine ⟨.rep 0 none .any, false, rfl, fun before w after => ?_⟩
    exact iff_of_true (matches_rep_any _ _ _) ⟨[], List.nil_suffix, rfl⟩
  · split
    · refine ⟨.any, true, rfl, fun before w after => exists_congr fun a => ?_⟩
      simp [Glob.Matches]
    · split
      · next hc =>
        refine ⟨.one ')', true, rfl, fun before w after => ?_⟩
        simp [hc, Ere.Matches, Glob.Matches]
      · refine ⟨.one c, true, rfl, fun before w after => ?_⟩
        simp [Ere.Matches, Glob.Matches]

/-- After the tokens for a component the branch matches what the component does, behind
what it has matched before. -/
theorem run_component (component : Text) (f : Ere.Frame) :
    ∃ f' : Ere.Frame, (component.flatMap tokensOf).foldlM Ere.Parser.step ⟨f, []⟩ = some ⟨f', []⟩ ∧
      f'.branches = f.branches ∧
      ∀ before w after, Ere.Matches f'.branch before w after ↔
        ∃ u v, w = u ++ v ∧ Ere.Matches f.branch before u (v ++ after) ∧
          Glob.Matches (pattern component) v := by
  induction component generalizing f with
  | nil =>
    refine ⟨f, rfl, rfl, fun before w after => ⟨fun h => ⟨w, [], ?_, h, rfl⟩, ?_⟩⟩
    · exact (List.append_nil w).symm
    · rintro ⟨u, v, rfl, hu, rfl⟩
      rwa [List.append_nil]
  | cons c component ih =>
    obtain ⟨e, repeatable, hrun, he⟩ := run_tokensOf c f
    obtain ⟨f', hrun', hbranches, hf'⟩ := ih (f.push e repeatable)
    refine ⟨f', ?_, hbranches, fun before w after => ?_⟩
    · rw [List.flatMap_cons, List.foldlM_append, hrun]
      exact hrun'
    · have hpattern : pattern (c :: component) = [piece c] ++ pattern component := rfl
      rw [hf', hpattern]
      simp only [Glob.matches_append]
      constructor
      · rintro ⟨_, v, rfl, ⟨u, x, rfl, hu, hx⟩, hv⟩
        rw [← List.append_assoc] at hu
        exact ⟨u, x ++ v, List.append_assoc _ _ _, hu, x, v, rfl, (he _ _ _).mp hx, hv⟩
      · rintro ⟨u, _, rfl, hu, x, v, rfl, hx, hv⟩
        refine ⟨u ++ x, v, (List.append_assoc _ _ _).symm, ⟨u, x, rfl, ?_, (he _ _ _).mpr hx⟩, hv⟩
        rwa [← List.append_assoc]

/-- **A plain component** is translated: its expression is found where it matches. -/
theorem PlainComponent.parse_regexOf (h : PlainComponent component) :
    ∃ e, Ere.parse (regexOf component) = some e ∧
      ∀ name, Ere.Found e name ↔ Glob.Matches (pattern component) name := by
  obtain ⟨f, hrun, hbranches, hf⟩ := run_component component (Ere.Frame.start.push .bol false)
  have hwhole : (Ere.Token.bol :: component.flatMap tokensOf ++ [Ere.Token.eol]).foldlM
      Ere.Parser.step ⟨.start, []⟩ = some ⟨f.push .eol true, []⟩ := by
    rw [List.cons_append, List.foldlM_cons]
    change (component.flatMap tokensOf ++ [Ere.Token.eol]).foldlM Ere.Parser.step
      ⟨Ere.Frame.start.push .bol false, []⟩ = _
    rw [List.foldlM_append, hrun]
    rfl
  have hgroup : (f.push .eol true).group = some (f.push .eol true).branch := by
    have hnone : (f.push .eol true).branches = none := hbranches
    simp only [Ere.Frame.group, hnone]
    rfl
  refine ⟨(f.push .eol true).branch, ?_, fun name => ?_⟩
  · rw [Ere.parse, lex_regexOf h]
    change ((_ : Option Ere.Parser).bind _) = _
    rw [hwhole]
    exact hgroup
  · constructor
    · rintro ⟨before, w, after, rfl, u, v, rfl, hu, rfl, rfl⟩
      obtain ⟨x, y, rfl, ⟨_, _, rfl, rfl, rfl, hbefore⟩, hy⟩ := (hf _ _ _).mp hu
      rw [List.append_nil] at hbefore
      rw [hbefore]
      simpa using hy
    · intro hname
      refine ⟨[], name, [], (List.append_nil _).symm, name, [], (List.append_nil _).symm, ?_, rfl, rfl⟩
      exact (hf _ _ _).mpr ⟨[], name, rfl, ⟨[], [], rfl, rfl, rfl, rfl⟩, hname⟩

end PlainComponent

/-! ### Components that are not plain -/

section Active

variable {component : Text} {μ : Ere.Scale Char} {φ : Char → Nat}

/-- A name that a component matches, without a letter for a `*`. -/
def bareName (component : Text) : Text :=
  (component.filter (· ≠ '*')).map fun c => if c = '?' then 'a' else c

theorem matches_bareName (component : Text) :
    Glob.Matches (pattern component) (bareName component) := by
  induction component with
  | nil => rfl
  | cons c component ih =>
    rw [pattern, List.map_cons, piece, bareName]
    split
    · next hstar =>
      rw [List.filter_cons_of_neg (by simp [hstar])]
      exact ⟨_, List.suffix_refl _, ih⟩
    · next hstar =>
      rw [List.filter_cons_of_pos (by simp [hstar]), List.map_cons]
      split
      · exact ⟨_, _, rfl, ih⟩
      · exact ⟨_, rfl, ih⟩

theorem mem_bareName {component : Text} {c : Char} (h : c ∈ bareName component) :
    c = 'a' ∨ c ∈ component := by
  obtain ⟨d, hd, rfl⟩ := List.mem_map.mp h
  split
  · exact .inl rfl
  · exact .inr (List.mem_filter.mp hd).1

/-- A component is not translated if it needs more than its expression pays for: of the
bare name the expression keeps too little. -/
theorem not_translates (hslash : '/' ∉ component) (hnul : Char.ofNat 0 ∉ component)
    (hfiller : μ.filler = 'a') (hpays : Ere.Pays μ φ (regexOf component))
    (hbrace : '{' ∉ regexOf component ∨ ((regexOf component).map φ).sum = 0)
    (hlt : ((regexOf component).map φ).sum <
      ((pattern component).map (Glob.Piece.need μ.letter)).sum) :
    ¬Translates component := by
  rintro ⟨⟨e, hparse, he⟩, -⟩
  have hne : bareName component ≠ [] := by
    intro hnil
    have hneed := (matches_bareName component).need_le μ.letter
    rw [hnil, List.map_nil, List.sum_nil] at hneed
    omega
  have hname : ∀ {name : Text}, name ≠ [] → (∀ c ∈ name, c = 'a' ∨ c ∈ component) →
      IsName name := by
    intro name hne hmem
    refine ⟨hne, fun h => ?_, fun h => ?_⟩
    · exact (hmem _ h).elim (by decide) hslash
    · exact (hmem _ h).elim (by decide) hnul
  have hfound : Ere.Found e (bareName component) :=
    (he _ (hname hne fun _ => mem_bareName)).mpr (matches_bareName component)
  obtain ⟨light, hstands, hlight, hfound⟩ := hfound.exists_light μ
  have hlightName : IsName light := by
    refine hname (mt hstands.nil_iff.mp hne) fun c hc => ?_
    rcases hstands.letters c hc with hc | hc
    · exact .inl (hc.trans hfiller)
    · exact mem_bareName hc
  have hneed := ((he light hlightName).mp hfound).need_le μ.letter
  have hweight := Ere.parse_weight_le hparse hpays hbrace
  have hsum : (light.map μ.letter).sum = μ.text light := rfl
  omega

theorem mem_regexOf {c : Char} (h : c ∈ regexOf component) :
    c ∈ component ∨ c ∈ ['^', '$', '.', '*', '\\'] := by
  rw [regexOf, List.cons_append, List.mem_cons, List.mem_append, List.mem_flatMap] at h
  rcases h with rfl | ⟨d, hd, hc⟩ | h
  · exact .inr (by decide)
  · have hchar : c = d ∨ c ∈ ['.', '*', '\\'] := by
      unfold regexChar at hc
      repeat' split at hc
      all_goals
        simp only [List.mem_cons, List.not_mem_nil, or_false] at hc ⊢
        tauto
    rcases hchar with rfl | hchar
    · exact .inl hd
    · exact .inr (List.mem_cons_of_mem _ (List.mem_cons_of_mem _ hchar))
  · rw [List.mem_singleton] at h
    exact .inr (by rw [h]; decide)

/-- What the characters of a name cost: two for one that stands for itself, and for a
backslash, and one for the other special ones. -/
def cost : Ere.Scale Char where
  letter c := if c = 'a' then 0 else if Ere.special c && c != '\\' then 1 else 2
  heaviest := 2
  filler := 'a'
  letter_le c := by
    repeat' split
    all_goals decide
  letter_filler := rfl

/-- What the characters of an expression pay: for themselves, or for a special one after
a backslash. -/
def payment (c : Char) : Nat := if Ere.special c then cost.letter c - 1 else cost.letter c

theorem cost_pays (text : Text) : Ere.Pays cost payment text where
  quoted c _ _ hquotable := by
    have hback : payment '\\' = 1 := rfl
    rcases (Bool.or_eq_true _ _).mp hquotable with hspecial | hclosing
    · rw [hback, payment, if_pos hspecial]
      omega
    · rw [of_decide_eq_true hclosing]
      decide
  bracket _ := by decide
  single c hc := by
    rw [payment, hc]
    exact Nat.le_refl _

theorem payment_regexChar (c : Char) :
    ((regexChar c).map payment).sum + (if active c then 1 else 0) = (piece c).need cost.letter := by
  unfold regexChar piece
  split
  · next hstar =>
    rw [hstar]
    rfl
  · next hstar =>
    split
    · next hquestion =>
      rw [hquestion]
      rfl
    · next hquestion =>
      split
      · next hdot =>
        rw [hdot]
        rfl
      · next hdot =>
        have hiff : Ere.special c = true ↔ active c = true := by
          rw [special_iff]
          simp [hstar, hquestion, hdot]
        rw [List.map_singleton, List.sum_singleton, Glob.Piece.need, payment]
        by_cases hactive : active c = true
        · have hpos : 0 < cost.letter c := by
            have hne : c ≠ 'a' := by
              rintro rfl
              exact absurd hactive (by decide)
            simp only [cost, if_neg hne]
            split <;> decide
          rw [if_pos (hiff.mpr hactive), if_pos hactive]
          omega
        · rw [if_neg (mt hiff.mp hactive), if_neg hactive]
          rfl

/-- The active characters are not paid for. -/
theorem payment_regexOf (component : Text) :
    ((regexOf component).map payment).sum + component.countP active =
      ((pattern component).map (Glob.Piece.need cost.letter)).sum := by
  have hbody : ((component.flatMap regexChar).map payment).sum + component.countP active =
      ((pattern component).map (Glob.Piece.need cost.letter)).sum := by
    induction component with
    | nil => rfl
    | cons c component ih =>
      have hc := payment_regexChar c
      rw [pattern, List.map_cons, List.map_cons, List.sum_cons, ← pattern, ← ih, ← hc,
        List.flatMap_cons, List.map_append, List.sum_append, List.countP_cons]
      omega
  rw [← hbody, regexOf, List.cons_append, List.map_cons, List.sum_cons, List.map_append,
    List.sum_append]
  have hanchors : payment '^' = 0 ∧ (['$'].map payment).sum = 0 := ⟨rfl, rfl⟩
  omega

/-- The active characters alone. -/
def activeCost : Ere.Scale Char where
  letter c := if active c then 1 else 0
  heaviest := 1
  filler := 'a'
  letter_le c := by split <;> decide
  letter_filler := rfl

theorem need_activeCost (component : Text) :
    ((pattern component).map (Glob.Piece.need activeCost.letter)).sum =
      component.countP active := by
  induction component with
  | nil => rfl
  | cons c component ih =>
    have hc : (piece c).need activeCost.letter = if active c then 1 else 0 := by
      unfold piece
      split
      · next hstar => rw [hstar]; rfl
      · split
        · next hquestion => rw [hquestion]; rfl
        · rfl
    rw [pattern, List.map_cons, List.map_cons, List.sum_cons, ← pattern, ih, hc, List.countP_cons,
      Nat.add_comm]

/-- Without a backslash in the component only dots are escaped. -/
theorem isChain_regexOf (h : '\\' ∉ component) :
    (regexOf component).IsChain fun c d => c = '\\' → d = '.' := by
  have hcons : ∀ {c : Char} {text : Text}, c ≠ '\\' →
      text.IsChain (fun c d => c = '\\' → d = '.') →
      (c :: text).IsChain fun c d => c = '\\' → d = '.' :=
    fun hc htext => List.isChain_cons.mpr ⟨fun _ _ hback => absurd hback hc, htext⟩
  refine hcons (by decide) ?_
  change (component.flatMap regexChar ++ ['$']).IsChain _
  induction component with
  | nil => exact List.isChain_singleton _
  | cons c component ih =>
    obtain ⟨hc, hcomponent⟩ := not_or.mp (mt List.mem_cons.mpr h)
    have hrest := ih hcomponent
    rw [List.flatMap_cons, List.append_assoc, regexChar]
    split
    · exact hcons (by decide) (hcons (by decide) hrest)
    · split
      · exact hcons (by decide) hrest
      · split
        · exact List.isChain_cons_cons.mpr ⟨fun _ => rfl, hcons (by decide) hrest⟩
        · exact hcons (Ne.symm hc) hrest

/-- Without brackets and backslashes an expression has no active letter. -/
theorem activeCost_pays (hback : '\\' ∉ component) (hbracket : '[' ∉ component) :
    Ere.Pays activeCost (fun _ => 0) (regexOf component) where
  quoted c rest hsuffix _ := by
    have hchain := (isChain_regexOf hback).suffix hsuffix
    rw [(List.isChain_cons_cons.mp hchain).1 rfl]
    exact Nat.le_refl _
  bracket h := by
    rcases mem_regexOf h with h | h
    · exact absurd h hbracket
    · exact absurd h (by decide)
  single c hc := by
    have hactive : ¬active c = true := by
      intro h
      rw [special_iff.mpr (.inl h)] at hc
      cases hc
    simp only [activeCost, if_neg hactive]
    exact Nat.le_refl _

theorem countP_active_pos (h : ¬PlainComponent component) : 0 < component.countP active := by
  unfold PlainComponent at h
  rw [List.countP_pos_iff]
  simpa using h

end Active

/-! ### The translation -/

/-- **The expression for a component means what the component does** if the component is
plain, and only then, unless an interval comes together with a backslash or a bracket:
it could force the letters that these spell, more of them than there are. -/
theorem translates_iff_plain {component : Text} (hslash : '/' ∉ component)
    (hnul : Char.ofNat 0 ∉ component) :
    (PlainComponent component → Translates component) ∧
      ('{' ∉ component ∨ '\\' ∉ component ∧ '[' ∉ component →
        Translates component → PlainComponent component) := by
  constructor
  · intro h
    obtain ⟨e, hparse, he⟩ := h.parse_regexOf
    exact ⟨⟨e, hparse, fun name _ => he name⟩, length_regexOf_lt component⟩
  · intro hforced htranslates
    by_contra hplain
    have hactive := countP_active_pos hplain
    rcases hforced with hbrace | ⟨hback, hbracket⟩
    · have hbrace : '{' ∉ regexOf component := fun h =>
        (mem_regexOf h).elim hbrace (by decide)
      have hpayment := payment_regexOf component
      exact not_translates hslash hnul rfl (cost_pays _) (.inl hbrace) (by omega) htranslates
    · have hzero : ((regexOf component).map fun _ => 0).sum = 0 := by simp
      have hneed := need_activeCost component
      exact not_translates hslash hnul rfl (activeCost_pays hback hbracket) (.inr hzero)
        (by omega) htranslates

/-- A C file, and a plus. -/
theorem translates_sample : Translates "*.c".toList ∧ ¬Translates "a+*".toList :=
  ⟨(translates_iff_plain (by decide) (by decide)).1 (by decide), fun h =>
    absurd ((translates_iff_plain (by decide) (by decide)).2 (.inl (by decide)) h) (by decide)⟩

/-- A plus does not stand for itself: another letter is found in its place. -/
theorem plus_not_escaped : ∃ e, Ere.parse (regexOf "a+*".toList) = some e ∧
    Ere.Found e "aa".toList ∧ ¬Glob.Matches (pattern "a+*".toList) "aa".toList ∧
    ¬Translates "a+*".toList := by
  have hlex : Ere.lex (regexOf "a+*".toList) =
      some [.bol, .one 'a', .dup 1 none, .any, .dup 0 none, .eol] := by
    change Ere.lex ['^', 'a', '+', '.', '*', '$'] = _
    rw [Ere.lex_of_next rfl, Ere.lex_of_next rfl, Ere.lex_of_next rfl, Ere.lex_of_next rfl,
      Ere.lex_of_next rfl, Ere.lex_of_next rfl, Ere.lex_nil]
    rfl
  have hmatches : ¬Glob.Matches (pattern "a+*".toList) "aa".toList := by decide
  have hparse : Ere.parse (regexOf "a+*".toList) = some (.seq (.seq (.seq (.seq .empty .bol)
      (.rep 1 none (.one 'a'))) (.rep 0 none .any)) .eol) := by
    rw [Ere.parse, hlex]
    rfl
  have hfound : Ere.Found (.seq (.seq (.seq (.seq .empty .bol) (.rep 1 none (.one 'a')))
      (.rep 0 none .any)) .eol) "aa".toList := by
    refine ⟨[], ['a', 'a'], [], rfl, ['a', 'a'], [], rfl, ?_, rfl, rfl⟩
    refine ⟨['a'], ['a'], rfl, ⟨[], ['a'], rfl, ⟨[], [], rfl, rfl, rfl, rfl⟩, ?_⟩,
      matches_rep_any _ _ _⟩
    exact ⟨[['a']], Nat.le_refl _, nofun, rfl, rfl, trivial⟩
  refine ⟨_, hparse, hfound, hmatches, fun h => hmatches ?_⟩
  obtain ⟨e, he, hiff⟩ := h.compiles
  cases hparse.symm.trans he
  exact (hiff _ ⟨by decide, by decide, by decide⟩).mp hfound

/-! ### The regular expressions of POSIX -/

/-- `regcomp` and `regexec`, as POSIX has them. -/
noncomputable def posixRegcomp (regex : Text) : Option (Text → Bool) :=
  (Ere.parse regex).map fun e name => @decide (Ere.Found e name) (Classical.propDecidable _)

/-- They do what the expansion of ordinary characters relies on. -/
theorem posixRegcomp_compiles : CompilesOrdinary posixRegcomp := by
  intro component h
  have hplain : PlainComponent component := by
    intro c hc
    have hordinary := List.all_eq_true.mp h c hc
    rw [Bool.eq_false_iff]
    intro hactive
    simp only [active, List.contains_iff_mem, List.mem_cons, List.not_mem_nil, or_false] at hactive
    rcases hactive with rfl | rfl | rfl | rfl | rfl | rfl | rfl | rfl
    all_goals exact absurd hordinary (by decide)
  obtain ⟨e, hparse, he⟩ := hplain.parse_regexOf
  refine ⟨_, congrArg (Option.map _) hparse, fun name => ?_⟩
  exact (@decide_eq_true_iff _ (Classical.propDecidable _)).trans (he name)

end Cs252.Shell
