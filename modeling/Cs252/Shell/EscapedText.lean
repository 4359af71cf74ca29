import Mathlib.Data.List.Chain
import Cs252.Shell.EscapedWords

/-!
# Cs252.Shell.EscapedText

Texts of operators and of words with backslashes, and what the scanner makes of
them.

At a piece of the text the scanner takes one of two rules: that of the piece, or
the one with `delete_slashes`, which goes over operators too. The first token
tells which, so the text is read as it was meant exactly if every piece is
(`lexes_iff`).
-/

namespace Cs252.Shell

/-! ### Texts -/

/-- A word as it is written. -/
structure EscapedWord where
  letters : List Letter
  nonempty : letters ≠ []
  ne_two : letters.map Letter.char ≠ ['2']

/-- The operators. -/
inductive Operator
  | pipe
  | great
  | greatGreat
  | less
  | ampersand
  deriving Repr, DecidableEq

/-- A piece of a text. -/
inductive Piece
  | operator (op : Operator)
  | word (w : EscapedWord)

/-- A piece and the blanks before it. -/
structure Item where
  blanks : Nat
  piece : Piece

/-- The text of a word. -/
def EscapedWord.text (w : EscapedWord) : List Char := lettersText w.letters

/-- The word itself. -/
def EscapedWord.value (w : EscapedWord) : List Char := w.letters.map Letter.char

/-- The text of an operator. -/
def Operator.text : Operator → List Char
  | .pipe => ['|']
  | .great => ['>']
  | .greatGreat => ['>', '>']
  | .less => ['<']
  | .ampersand => ['&']

/-- The token for an operator. -/
def Operator.token : Operator → Token
  | .pipe => .pipe
  | .great => .io .great
  | .greatGreat => .io .greatGreat
  | .less => .io .less
  | .ampersand => .ampersand

/-- The text of a piece. -/
def Piece.text : Piece → List Char
  | .operator op => op.text
  | .word w => w.text

/-- The token for a piece. -/
def Piece.lexeme : Piece → Lexeme
  | .operator op => .token op.token
  | .word w => wordToken w.value

/-- The blanks between two pieces: one between words, and some between operators. -/
def Item.Follows : Item → Item → Prop
  | ⟨_, .word _⟩, ⟨n, .word _⟩ => n = 1
  | ⟨_, .operator _⟩, ⟨n, .operator _⟩ => 0 < n
  | _, _ => True

/-- The text of some items, with blanks at its end. -/
def itemsText : List Item → Nat → List Char
  | [], trailing => List.replicate trailing ' '
  | i :: items, trailing =>
    List.replicate i.blanks ' ' ++ (i.piece.text ++ itemsText items trailing)

/-- A text. Blanks at its beginning and its end are next to an operator. -/
structure SourceText where
  items : List Item
  trailing : Nat
  first : ∀ n w, items.head? = some ⟨n, .word w⟩ → n = 0
  spacing : items.IsChain Item.Follows
  last : ∀ n w, items.getLast? = some ⟨n, .word w⟩ → trailing = 0

namespace SourceText

/-- The characters. -/
def text (t : SourceText) : List Char := itemsText t.items t.trailing

/-- The tokens it is meant to have. -/
def lexemes (t : SourceText) : List Lexeme := t.items.map fun i => i.piece.lexeme

end SourceText

/-! ### The rules at a piece -/

/-- No rule for symbols matches, and none for commands. -/
structure WordStart (s : List Char) : Prop where
  symbols : ∀ x ∈ symbolRules, x.1.longest s = 0
  subshell : LexRule.subshell.longest s = 0

theorem wordStart_cons {c : Char} {s : List Char} (hplain : isPlain c = true) (hquote : c ≠ '"')
    (hbackquote : c ≠ '`') (htwo : c = '2' → s.head? ≠ some '>') : WordStart (c :: s) := by
  simp only [isPlain, isInk, Bool.and_eq_true, decide_eq_true_eq] at hplain
  obtain ⟨⟨⟨⟨⟨⟨hblank, htab⟩, hnewline⟩, hpipe⟩, hgreat⟩, hless⟩, hamp⟩ := hplain
  refine ⟨?_, Pattern.longest_seq_word hbackquote s⟩
  have hredir (w : List Char) : (Pattern.word ('2' :: '>' :: w)).longest (c :: s) = 0 := by
    rw [Pattern.longest_word, if_neg]
    intro h
    obtain ⟨rfl, t, rfl⟩ := List.cons_prefix_cons.mp h
    exact htwo rfl rfl
  simp only [symbolRules, List.forall_mem_cons, longest_blanks hblank htab, hredir,
    Pattern.longest_word_of_ne _ (Ne.symm hnewline), Pattern.longest_word_of_ne _ (Ne.symm hpipe),
    Pattern.longest_word_of_ne _ (Ne.symm hgreat), Pattern.longest_word_of_ne _ (Ne.symm hless),
    Pattern.longest_word_of_ne _ (Ne.symm hamp), LexRule.quoted, Pattern.longest_seq_word hquote,
    true_and]
  exact List.forall_mem_nil _

theorem Letter.text_head (l : Letter) (s : List Char) :
    ∃ c s', l.text ++ s = c :: s' ∧ isPlain c = true ∧ c ≠ '"' ∧ c ≠ '`' ∧
      (c = '2' → l.char = '2' ∧ s' = s) := by
  cases hslash : l.slash with
  | true =>
    rw [Letter.text_of_slash hslash]
    exact ⟨'\\', l.char :: s, rfl, rfl, by decide, by decide, fun h => absurd h (by decide)⟩
  | false =>
    obtain ⟨hplain, -, hquote⟩ := Letter.of_not_slash hslash
    rw [Letter.text_of_not_slash hslash]
    exact ⟨l.char, s, rfl, hplain, hquote, l.no_backquote, fun h => ⟨h, rfl⟩⟩

/-- Only the rules for words match at a word. -/
theorem EscapedWord.wordStart (w : EscapedWord) (s : List Char) : WordStart (w.text ++ s) := by
  obtain ⟨l, letters, hletters⟩ := List.exists_cons_of_ne_nil w.nonempty
  have htwo := w.ne_two
  rw [hletters] at htwo
  rw [EscapedWord.text, hletters, lettersText_cons, List.append_assoc]
  obtain ⟨c, s', heq, hplain, hquote, hbackquote, hc⟩ := l.text_head (lettersText letters ++ s)
  rw [heq]
  refine wordStart_cons hplain hquote hbackquote fun h => ?_
  obtain ⟨hl, rfl⟩ := hc h
  cases letters with
  | nil => exact absurd (by rw [List.map_cons, hl]; rfl) htwo
  | cons l' letters =>
    rw [lettersText_cons, List.append_assoc]
    obtain ⟨c', s', heq', hplain', -⟩ := l'.text_head (lettersText letters ++ s)
    rw [heq', List.head?_cons]
    exact fun h => absurd (Option.some.inj h ▸ hplain') (by decide)

theorem wordToken_inj {s t : List Char} : wordToken s = wordToken t ↔ s = t := by
  simp [wordToken, String.ofList_inj]

section Words

variable {t r : List Char} {rest : List Lexeme}

/-- The rule with `delete_slashes` is taken. -/
theorem WordStart.lex_escaped (h : WordStart t)
    (hlt : LexRule.word.longest t < LexRule.escaped.longest t) :
    lex t = wordToken (deleteSlashes (t.take (LexRule.escaped.longest t))) ::
      lex (t.drop (LexRule.escaped.longest t)) := by
  have hpos := Nat.zero_lt_of_lt hlt
  have hpre : ∀ x ∈ symbolRules ++ [(LexRule.word, LexAction.word)],
      x.1.longest t < LexRule.escaped.longest t := by
    refine List.forall_mem_append.mpr ⟨fun x hx => ?_, List.forall_mem_singleton.mpr hlt⟩
    rw [h.symbols x hx]
    exact hpos
  have hpost : ∀ x ∈ [(LexRule.subshell, LexAction.subshell)],
      x.1.longest t ≤ LexRule.escaped.longest t := by
    rw [List.forall_mem_singleton, h.subshell]
    exact Nat.zero_le _
  exact scan_of_select (select_eq_some hpos hpre hpost)

/-- The other rule is taken. -/
theorem WordStart.lex_word (h : WordStart t) (hpos : 0 < LexRule.word.longest t)
    (hle : LexRule.escaped.longest t ≤ LexRule.word.longest t) :
    lex t = wordToken (t.take (LexRule.word.longest t)) :: lex (t.drop (LexRule.word.longest t)) := by
  have hpre : ∀ x ∈ symbolRules, x.1.longest t < LexRule.word.longest t := by
    intro x hx
    rw [h.symbols x hx]
    exact hpos
  have hpost : ∀ x ∈ [(LexRule.escaped, LexAction.escaped), (LexRule.subshell, LexAction.subshell)],
      x.1.longest t ≤ LexRule.word.longest t := by
    rw [List.forall_mem_cons, List.forall_mem_singleton, h.subshell]
    exact ⟨hle, Nat.zero_le _⟩
  exact scan_of_select (select_eq_some hpos hpre hpost)

/-- What follows a word does not go on with it. -/
def Border (r : List Char) : Prop := ∀ c ∈ r.head?, isPlain c = false ∧ c ≠ '\n'

/-- No backslashes. -/
def EscapedWord.Bare (w : EscapedWord) : Prop := ∀ l ∈ w.letters, l.slash = false

/-- There is a character for which the rule with `delete_slashes` is needed. -/
def EscapedWord.Marked (w : EscapedWord) : Prop := ∃ l ∈ w.letters, isPlain l.char = false

/-- The text of the word is read as the word. -/
def EscapedWord.Read (w : EscapedWord) (r : List Char) : Prop :=
  w.Bare ∧ LexRule.escaped.longest r = 0 ∨
    w.Marked ∧ LexRule.escaped.longest (w.text ++ r) = w.text.length

namespace EscapedWord

variable {w : EscapedWord}

theorem length_text_pos (w : EscapedWord) : 0 < w.text.length := by
  rw [text, length_lettersText]
  exact Nat.add_pos_left (List.length_pos_of_ne_nil w.nonempty) _

/-- In front of a word without backslashes a match gets longer. -/
theorem longest_escaped_of_bare (h : w.Bare) (r : List Char) :
    LexRule.escaped.longest (w.text ++ r) =
      if LexRule.escaped.longest r = 0 then 0 else w.text.length + LexRule.escaped.longest r := by
  refine longest_escaped_append (fun c hc => ?_) r
  obtain ⟨l, hl, hc⟩ := List.mem_flatMap.mp hc
  rw [Letter.text_of_not_slash (h l hl), List.mem_singleton] at hc
  obtain ⟨hplain, hslash, -⟩ := Letter.of_not_slash (h l hl)
  exact hc ▸ ⟨isInk_of_isPlain hplain, hslash⟩

theorem longest_word_of_not_marked (h : ¬w.Marked) (hr : Border r) :
    LexRule.word.longest (w.text ++ r) = w.text.length := by
  have hplain : ∀ l ∈ w.letters, isPlain l.char = true := by
    intro l hl
    exact Bool.of_not_eq_false fun hl' => h ⟨l, hl, hl'⟩
  rw [LexRule.word, Pattern.longest_plus_cls, text, takeWhile_plain hplain fun c hc => (hr c hc).1]

/-- A match that ends in the word is read as a shorter one, and a match that goes on
after it as a longer one. -/
theorem deleteSlashes_take_iff (hr : Border r) {n : Nat} (hn : n ≤ (w.text ++ r).length) :
    deleteSlashes ((w.text ++ r).take n) = w.value ↔ n = w.text.length := by
  rcases Nat.lt_trichotomy n w.text.length with hlt | rfl | hlt
  · refine iff_of_false (fun heq => ?_) (Nat.ne_of_lt hlt)
    have hshort := length_deleteSlashes_take hlt
    rw [List.take_append_of_le_length (Nat.le_of_lt hlt)] at heq
    rw [← text, heq, value, List.length_map] at hshort
    exact Nat.lt_irrefl _ hshort
  · refine iff_of_true ?_ rfl
    have hall := deleteSlashes_append w.letters []
    rw [List.append_nil] at hall
    rw [List.take_left]
    exact hall.trans (List.append_nil _)
  · refine iff_of_false (fun heq => ?_) (Nat.ne_of_gt hlt)
    obtain ⟨k, rfl⟩ := Nat.exists_eq_add_of_lt hlt
    rw [Nat.add_assoc, List.take_length_add_append, text, deleteSlashes_append, value,
      List.append_right_eq_self] at heq
    cases r with
    | nil =>
      rw [List.append_nil] at hn
      exact absurd hlt (Nat.not_lt_of_le hn)
    | cons c r =>
      obtain ⟨hplain, hnewline⟩ := hr c rfl
      have hslash : c ≠ '\\' := fun hc => absurd (hc ▸ hplain) (by decide)
      rw [List.take_succ_cons, deleteSlashes_cons hslash hnewline] at heq
      cases heq

/-- The first token of a word. -/
theorem lex_append_iff (hr : Border r) :
    lex (w.text ++ r) = wordToken w.value :: rest ↔ w.Read r ∧ lex r = rest := by
  have hstart := w.wordStart r
  by_cases hlt : LexRule.word.longest (w.text ++ r) < LexRule.escaped.longest (w.text ++ r)
  · have hread : w.Read r ↔ LexRule.escaped.longest (w.text ++ r) = w.text.length := by
      constructor
      · intro h
        rcases h with ⟨hbare, hzero⟩ | ⟨-, heq⟩
        · rw [longest_escaped_of_bare hbare, if_pos hzero] at hlt
          exact absurd hlt (Nat.not_lt_zero _)
        · exact heq
      · intro heq
        refine Or.inr ⟨?_, heq⟩
        by_contra hmarked
        rw [longest_word_of_not_marked hmarked hr, heq] at hlt
        exact Nat.lt_irrefl _ hlt
    -- the token is the word if the match ends where the text of the word does
    rw [hstart.lex_escaped hlt, List.cons.injEq, wordToken_inj,
      deleteSlashes_take_iff hr Pattern.longest_le_length, hread]
    exact and_congr_right fun heq => by rw [heq, List.drop_left]
  · have hmarked : ¬w.Marked := fun h => hlt (word_lt_escaped h r)
    -- the rule without `delete_slashes` takes the text as it is
    have hword := longest_word_of_not_marked hmarked hr
    have hread : w.Bare ↔ w.Read r := by
      constructor
      · intro hbare
        refine Or.inl ⟨hbare, ?_⟩
        by_contra hne
        refine hlt ?_
        rw [hword, longest_escaped_of_bare hbare, if_neg hne]
        exact Nat.lt_add_of_pos_right (Nat.pos_of_ne_zero hne)
      · intro h
        exact h.elim And.left fun h => absurd h.1 hmarked
    have hpos : 0 < LexRule.word.longest (w.text ++ r) := hword ▸ w.length_text_pos
    rw [hstart.lex_word hpos (Nat.le_of_not_lt hlt), hword, List.take_left, List.drop_left,
      List.cons.injEq, wordToken_inj, text, value, lettersText_eq_map_iff, ← hread]
    exact Iff.rfl

end EscapedWord

end Words

/-- The rule for an operator. -/
def Operator.rule (op : Operator) : Pattern Char × LexAction := (.word op.text, .operator op.token)

/-- What follows an operator does not make it another one. -/
def NoOperator (r : List Char) : Prop := ∀ c ∈ r.head?, c ≠ '|' ∧ c ≠ '>' ∧ c ≠ '<' ∧ c ≠ '&'

namespace Operator

variable {r : List Char} {rest : List Lexeme}

theorem rule_mem (op : Operator) : op.rule ∈ rules := by
  cases op <;> simp [rule, rules, symbolRules, text, token]

theorem length_text_pos (op : Operator) : 0 < op.text.length := by
  cases op <;> decide

/-- Only the rule with `delete_slashes` can match more than an operator. -/
theorem longest_lt (op : Operator) (hr : NoOperator r) :
    ∀ x ∈ rules, x = op.rule ∨ x = (LexRule.escaped, .escaped) ∨
      x.1.longest (op.text ++ r) < op.text.length := by
  have hcont (c : Char) (w : List Char) (hc : c = '|' ∨ c = '>' ∨ c = '<' ∨ c = '&') :
      ¬(c :: w) <+: r := by
    intro h
    obtain ⟨t, rfl⟩ := h
    obtain ⟨hpipe, hgreat, hless, hamp⟩ := hr c rfl
    rcases hc with rfl | rfl | rfl | rfl <;> contradiction
  have hblanks : LexRule.blanks.longest (op.text ++ r) = 0 := by
    cases op <;> exact longest_blanks (by decide) (by decide) _
  have hquoted : LexRule.quoted.longest (op.text ++ r) = 0 := by
    cases op <;> exact Pattern.longest_seq_word (by decide) _
  have hword : LexRule.word.longest (op.text ++ r) = 0 := by
    rw [LexRule.word, Pattern.longest_plus_cls]
    cases op <;> rfl
  have hsubshell : LexRule.subshell.longest (op.text ++ r) = 0 := by
    cases op <;> exact Pattern.longest_seq_word (by decide) _
  simp only [rules, symbolRules, List.cons_append, List.nil_append, List.forall_mem_cons, hblanks,
    hquoted, hword, hsubshell, op.length_text_pos, or_true, true_and]
  cases op <;>
    simp [rule, text, token, Pattern.longest_word, List.cons_prefix_cons, hcont]

theorem longest_escaped (op : Operator) (r : List Char) :
    LexRule.escaped.longest (op.text ++ r) =
      if LexRule.escaped.longest r = 0 then 0 else op.text.length + LexRule.escaped.longest r := by
  refine longest_escaped_append ?_ r
  cases op <;> simp [text, isInk]

/-- The first token of an operator. -/
theorem lex_append_iff (op : Operator) (hr : NoOperator r) :
    lex (op.text ++ r) = .token op.token :: rest ↔
      LexRule.escaped.longest r = 0 ∧ lex r = rest := by
  have hescaped := op.longest_escaped r
  have hself : (Pattern.word op.text).longest (op.text ++ r) = op.text.length := by
    rw [Pattern.longest_word, if_pos (List.prefix_append _ _)]
  -- a match that begins after the operator can begin at the operator, and is then longer
  by_cases hzero : LexRule.escaped.longest r = 0
  · rw [if_pos hzero] at hescaped
    have hselect := select_of_lt op.rule_mem (hself ▸ op.length_text_pos) fun x hx => by
      rw [hself]
      rcases op.longest_lt hr x hx with h | rfl | h
      · exact Or.inl h
      · exact Or.inr (hescaped ▸ op.length_text_pos)
      · exact Or.inr h
    rw [hself] at hselect
    rw [lex, scan_of_select hselect, perform, List.drop_left, List.cons.injEq]
    simp [hzero, lex]
  · rw [if_neg hzero] at hescaped
    have hpos : op.text.length < LexRule.escaped.longest (op.text ++ r) := by
      rw [hescaped]
      exact Nat.lt_add_of_pos_right (Nat.pos_of_ne_zero hzero)
    have hmem : (LexRule.escaped, LexAction.escaped) ∈ rules := by simp [rules]
    have hselect := select_of_lt hmem (Nat.zero_lt_of_lt hpos) fun x hx => by
      rcases op.longest_lt hr x hx with rfl | h | h
      · exact Or.inr (hself ▸ hpos)
      · exact Or.inl h
      · exact Or.inr (Nat.lt_trans h hpos)
    rw [lex, scan_of_select hselect]
    refine iff_of_false (fun h => ?_) fun h => hzero h.1
    have htoken := Lexeme.token.inj (List.cons.inj h).1
    cases op <;> cases htoken

end Operator

section Blanks

variable {s : List Char}

theorem longest_replicate_blanks (hs : ∀ c ∈ s.head?, c ≠ ' ' ∧ c ≠ '\t') (n : Nat) :
    LexRule.blanks.longest (List.replicate n ' ' ++ s) = n := by
  have htake : s.takeWhile (fun c => c = ' ' || c = '\t') = [] := by
    cases s with
    | nil => rfl
    | cons c s => exact List.takeWhile_cons_of_neg (by simp [hs c rfl])
  rw [LexRule.blanks, Pattern.longest_plus_cls, List.takeWhile_append_of_pos, htake,
    List.append_nil, List.length_replicate]
  intro c hc
  rw [List.eq_of_mem_replicate hc]
  rfl

/-- No other rule matches at a blank. -/
theorem longest_of_blank : ∀ x ∈ rules, x = (LexRule.blanks, .discard) ∨ x.1.longest (' ' :: s) = 0 := by
  have hword : LexRule.word.longest (' ' :: s) = 0 := by
    rw [LexRule.word, Pattern.longest_plus_cls]
    rfl
  have hescaped : LexRule.escaped.longest (' ' :: s) = 0 := longest_escaped_of_not_ink rfl s
  have hsymbol {d : Char} (w : List Char) (hd : d ≠ ' ') := Pattern.longest_word_of_ne w hd s
  have hquote {d : Char} (q : Pattern Char) (hd : ' ' ≠ d) := Pattern.longest_seq_word (q := q) hd s
  simp [rules, symbolRules, hword, hescaped, hsymbol, hquote, LexRule.quoted, LexRule.subshell]

/-- Blanks are passed over. -/
theorem lex_blanks (hs : ∀ c ∈ s.head?, c ≠ ' ' ∧ c ≠ '\t') (n : Nat) :
    lex (List.replicate n ' ' ++ s) = lex s := by
  cases n with
  | zero => rfl
  | succ n =>
    have hblanks := longest_replicate_blanks hs (n + 1)
    have hpos : 0 < LexRule.blanks.longest (List.replicate (n + 1) ' ' ++ s) := by
      rw [hblanks]
      exact Nat.succ_pos n
    have hmem : (LexRule.blanks, LexAction.discard) ∈ rules := by simp [rules, symbolRules]
    have hselect := select_of_lt hmem hpos fun x hx =>
      (longest_of_blank x hx).imp_right fun hzero => by
        rw [List.replicate_succ, List.cons_append] at hpos ⊢
        rwa [hzero]
    rw [hblanks] at hselect
    rw [lex, scan_of_select hselect, perform, List.drop_left' List.length_replicate]
    rfl

end Blanks

/-! ### The first character of a piece -/

theorem EscapedWord.text_eq_cons (w : EscapedWord) : ∃ c s, w.text = c :: s ∧ isPlain c = true := by
  obtain ⟨l, letters, hletters⟩ := List.exists_cons_of_ne_nil w.nonempty
  obtain ⟨c, s, heq, hplain, -⟩ := l.text_head (lettersText letters)
  exact ⟨c, s, by rw [EscapedWord.text, hletters, lettersText_cons, heq], hplain⟩

theorem Operator.text_eq_cons (op : Operator) :
    ∃ c s, op.text = c :: s ∧ isPlain c = false ∧ isInk c = true := by
  cases op <;> exact ⟨_, _, rfl, rfl, rfl⟩

theorem ne_of_isInk {c : Char} (h : isInk c = true) : c ≠ ' ' ∧ c ≠ '\t' ∧ c ≠ '\n' := by
  simpa [isInk, and_assoc] using h

/-- The text of a piece is not passed over with the blanks. -/
theorem Piece.lex_blanks_append (p : Piece) (n : Nat) (s : List Char) :
    lex (List.replicate n ' ' ++ (p.text ++ s)) = lex (p.text ++ s) := by
  obtain ⟨c, u, hc, hink⟩ : ∃ c u, p.text = c :: u ∧ isInk c = true := by
    cases p with
    | operator op =>
      obtain ⟨c, u, hc, -, hink⟩ := op.text_eq_cons
      exact ⟨c, u, hc, hink⟩
    | word w =>
      obtain ⟨c, u, hc, hplain⟩ := w.text_eq_cons
      exact ⟨c, u, hc, isInk_of_isPlain hplain⟩
  refine lex_blanks (fun d hd => ?_) n
  rw [hc] at hd
  obtain rfl := Option.some.inj hd
  exact ⟨(ne_of_isInk hink).1, (ne_of_isInk hink).2.1⟩

theorem noOperator_of_isPlain {c : Char} (h : isPlain c = true) (s : List Char) :
    NoOperator (c :: s) := by
  intro d hd
  obtain rfl := Option.some.inj hd
  simp only [isPlain, Bool.and_eq_true, decide_eq_true_eq] at h
  exact ⟨h.1.1.1.2, h.1.1.2, h.1.2, h.2⟩

theorem border_of_isInk {c : Char} (h : isPlain c = false) (hink : isInk c = true) (s : List Char) :
    Border (c :: s) := by
  intro d hd
  obtain rfl := Option.some.inj hd
  exact ⟨h, (ne_of_isInk hink).2.2⟩

theorem noOperator_blanks (n : Nat) (s : List Char) : NoOperator (List.replicate (n + 1) ' ' ++ s) := by
  intro d hd
  obtain rfl := Option.some.inj hd
  decide

theorem border_blanks (n : Nat) (s : List Char) : Border (List.replicate (n + 1) ' ' ++ s) := by
  intro d hd
  obtain rfl := Option.some.inj hd
  decide

/-! ### The whole text -/

/-- What may follow a piece. -/
def Piece.Stops : Piece → List Char → Prop
  | .operator _, r => NoOperator r
  | .word _, r => Border r

/-- The text of the piece is read as the piece. -/
def Piece.Read : Piece → List Char → Prop
  | .operator _, r => LexRule.escaped.longest r = 0
  | .word w, r => w.Read r

theorem Piece.lex_append_iff {p : Piece} {r : List Char} {rest : List Lexeme} (hr : p.Stops r) :
    lex (p.text ++ r) = p.lexeme :: rest ↔ p.Read r ∧ lex r = rest := by
  cases p with
  | operator op => exact op.lex_append_iff hr
  | word w => exact w.lex_append_iff hr

section Items

variable {i : Item} {items : List Item} {trailing : Nat}

theorem stops_itemsText (h : ∀ j ∈ items.head?, i.Follows j) :
    i.piece.Stops (itemsText items trailing) := by
  obtain ⟨m, p⟩ := i
  cases items with
  | nil =>
    rw [itemsText, ← List.append_nil (List.replicate _ _)]
    cases trailing with
    | zero => cases p <;> exact fun c hc => by cases hc
    | succ n =>
      cases p with
      | operator op => exact noOperator_blanks n []
      | word w => exact border_blanks n []
  | cons j items =>
    obtain ⟨k, q⟩ := j
    have hj := h _ rfl
    rw [itemsText]
    cases k with
    | succ k =>
      cases p with
      | operator op => exact noOperator_blanks k _
      | word w => exact border_blanks k _
    | zero =>
      cases p with
      | operator op =>
        cases q with
        | operator op' => exact absurd hj (Nat.lt_irrefl 0)
        | word w' =>
          obtain ⟨c, s, hc, hplain⟩ := w'.text_eq_cons
          rw [Piece.text, hc]
          exact noOperator_of_isPlain hplain _
      | word w =>
        cases q with
        | operator op' =>
          obtain ⟨c, s, hc, hplain, hink⟩ := op'.text_eq_cons
          rw [Piece.text, hc]
          exact border_of_isInk hplain hink _
        | word w' => exact absurd hj (Nat.zero_ne_one)

/-- Every piece is read as such. -/
def ReadAll : List Item → Nat → Prop
  | [], _ => True
  | i :: items, trailing => i.piece.Read (itemsText items trailing) ∧ ReadAll items trailing

theorem lex_itemsText_iff (h : items.IsChain Item.Follows) :
    lex (itemsText items trailing) = items.map (fun i => i.piece.lexeme) ↔
      ReadAll items trailing := by
  induction items with
  | nil =>
    have hblanks := lex_blanks (s := []) (fun c hc => by cases hc) trailing
    rw [List.append_nil] at hblanks
    exact iff_of_true (hblanks.trans scan_nil) trivial
  | cons i items ih =>
    obtain ⟨hi, hitems⟩ := List.isChain_cons.mp h
    rw [itemsText, i.piece.lex_blanks_append, List.map_cons,
      Piece.lex_append_iff (stops_itemsText hi), ih hitems]
    exact Iff.rfl

/-! ### Which texts are read right -/

/-- No backslashes in the piece. -/
def Piece.Bare : Piece → Prop
  | .operator _ => True
  | .word w => w.Bare

/-- The rule with `delete_slashes` is not needed, or it is taken and goes over all of
the word. -/
def Piece.Lexable : Piece → Prop
  | .operator _ => True
  | .word w => w.Bare ∨ w.Marked ∧ w.letters.countP (fun l => l.char = ' ') ≤ 1

/-- The rule with `delete_slashes` does not go over both. -/
def Item.Apart (i j : Item) : Prop :=
  match i.piece with
  | .operator _ => j.blanks = 0 → j.piece.Bare
  | .word w => w.Bare ∨ 0 < j.blanks ∧ Closed w.letters

/-- The texts for which the scanner does not take the wrong rule. -/
def SourceText.Lexable (t : SourceText) : Prop :=
  (∀ i ∈ t.items, i.piece.Lexable) ∧ t.items.IsChain Item.Apart

theorem longest_escaped_blanks (n : Nat) (s : List Char) :
    LexRule.escaped.longest (List.replicate (n + 1) ' ' ++ s) = 0 := longest_escaped_of_not_ink rfl _

theorem EscapedWord.not_marked_of_bare {w : EscapedWord} (h : w.Bare) : ¬w.Marked := by
  intro hmarked
  obtain ⟨l, hl, hplain⟩ := hmarked
  exact Bool.eq_false_iff.mp (h l hl) (Letter.slash_of_not_plain hplain)

/-- No match begins before a text that is read right, except at a word with a backslash. -/
theorem longest_escaped_itemsText (h : ReadAll items trailing) :
    LexRule.escaped.longest (itemsText items trailing) = 0 ↔
      ∀ j ∈ items.head?, j.blanks = 0 → j.piece.Bare := by
  cases items with
  | nil =>
    refine iff_of_true ?_ (fun j hj => by cases hj)
    rw [itemsText, ← List.append_nil (List.replicate _ _)]
    cases trailing with
    | zero => rfl
    | succ n => exact longest_escaped_blanks n []
  | cons j items =>
    obtain ⟨k, q⟩ := j
    rw [itemsText]
    cases k with
    | succ k =>
      refine iff_of_true (longest_escaped_blanks k _) fun j hj hk => ?_
      obtain rfl := Option.some.inj hj
      exact absurd hk (Nat.succ_ne_zero k)
    | zero =>
      have hq : (∀ j ∈ (Item.mk 0 q :: items).head?, j.blanks = 0 → j.piece.Bare) ↔ q.Bare := by
        simp
      rw [hq, List.replicate_zero, List.nil_append]
      have hread := h.1
      cases q with
      | operator op =>
        refine iff_of_true ?_ trivial
        exact (op.longest_escaped _).trans (if_pos hread)
      | word w =>
        rcases hread with ⟨hbare, hzero⟩ | ⟨hmarked, hlongest⟩
        · exact iff_of_true ((EscapedWord.longest_escaped_of_bare hbare _).trans (if_pos hzero)) hbare
        · refine iff_of_false (fun hzero => ?_) fun hbare => EscapedWord.not_marked_of_bare hbare hmarked
          exact Nat.ne_of_gt w.length_text_pos (hlongest.symm.trans hzero)

/-- The text after a word. -/
theorem closed_before_iff {w : EscapedWord} {n : Nat}
    (hfollows : ∀ j ∈ items.head?, (Item.mk n (.word w)).Follows j)
    (hlast : items = [] → trailing = 0) :
    (∀ c ∈ (itemsText items trailing).head?, isInk c = false ∧ Closed w.letters) ↔
      ∀ j ∈ items.head?, 0 < j.blanks ∧ Closed w.letters := by
  cases items with
  | nil =>
    rw [hlast rfl]
    exact iff_of_true (fun c hc => by cases hc) fun j hj => by cases hj
  | cons j items =>
    have hfollow := hfollows j rfl
    obtain ⟨k, q⟩ := j
    simp only [List.head?_cons, Option.mem_some_iff, forall_eq']
    rw [itemsText]
    cases k with
    | succ k =>
      rw [and_iff_right (Nat.succ_pos k)]
      constructor
      · intro h
        exact (h ' ' rfl).2
      · intro hclosed c hc
        obtain rfl := Option.some.inj hc
        exact ⟨rfl, hclosed⟩
    | zero =>
      cases q with
      -- two words are never next to each other
      | word w' => exact absurd hfollow Nat.zero_ne_one
      | operator op =>
        obtain ⟨c, s, hc, -, hink⟩ := op.text_eq_cons
        refine iff_of_false (fun h => ?_) fun h => Nat.lt_irrefl 0 h.1
        rw [Piece.text, hc] at h
        exact Bool.eq_false_iff.mp (h c rfl).1 hink

/-- No match begins right after a word. -/
theorem longest_escaped_after {w : EscapedWord} {n : Nat}
    (hfollows : ∀ j ∈ items.head?, (Item.mk n (.word w)).Follows j)
    (h : ReadAll items trailing) : LexRule.escaped.longest (itemsText items trailing) = 0 := by
  refine (longest_escaped_itemsText h).mpr fun j hj hblanks => ?_
  have hfollow := hfollows j hj
  obtain ⟨k, q⟩ := j
  cases q with
  | operator op => trivial
  | word w' => exact absurd (hfollow.symm.trans hblanks) Nat.one_ne_zero

/-- A piece is read as such if the next one is far enough from it. -/
theorem read_iff (hfollows : ∀ j ∈ items.head?, i.Follows j)
    (hlast : items = [] → ∀ w, i.piece = .word w → trailing = 0) (h : ReadAll items trailing) :
    i.piece.Read (itemsText items trailing) ↔
      i.piece.Lexable ∧ ∀ j ∈ items.head?, i.Apart j := by
  obtain ⟨n, p⟩ := i
  cases p with
  | operator op =>
    rw [Piece.Read, longest_escaped_itemsText h, Piece.Lexable, true_and]
    exact Iff.rfl
  | word w =>
    have hzero := longest_escaped_after hfollows h
    have hnext := closed_before_iff hfollows fun hnil => hlast hnil w rfl
    have hborder : Border (itemsText items trailing) := stops_itemsText (i := ⟨n, .word w⟩) hfollows
    have hlongest (hmarked : w.Marked) := longest_escaped_iff hmarked fun c hc => (hborder c hc).1
    by_cases hbare : w.Bare
    · exact iff_of_true (Or.inl ⟨hbare, hzero⟩) ⟨Or.inl hbare, fun j _ => Or.inl hbare⟩
    · constructor
      · intro hread
        obtain ⟨hmarked, heq⟩ := hread.resolve_left fun hread => hbare hread.1
        obtain ⟨hcount, hall⟩ := (hlongest hmarked).mp heq
        exact ⟨Or.inr ⟨hmarked, hcount⟩, fun j hj => Or.inr (hnext.mp hall j hj)⟩
      · intro hlexable
        obtain ⟨hmarked, hcount⟩ := hlexable.1.resolve_left hbare
        have hall := hnext.mpr fun j hj => (hlexable.2 j hj).resolve_left hbare
        exact Or.inr ⟨hmarked, (hlongest hmarked).mpr ⟨hcount, hall⟩⟩

theorem readAll_iff (hfollows : items.IsChain Item.Follows)
    (hlast : ∀ j ∈ items.getLast?, ∀ w, j.piece = .word w → trailing = 0) :
    ReadAll items trailing ↔
      (∀ i ∈ items, i.piece.Lexable) ∧ items.IsChain Item.Apart := by
  induction items with
  | nil => exact iff_of_true trivial ⟨List.forall_mem_nil _, List.isChain_nil⟩
  | cons i items ih =>
    obtain ⟨hi, hitems⟩ := List.isChain_cons.mp hfollows
    have hlast' : ∀ j ∈ items.getLast?, ∀ w, j.piece = .word w → trailing = 0 := by
      cases items with
      | nil => exact fun j hj => by cases hj
      | cons j items => rwa [List.getLast?_cons_cons] at hlast
    have hnil (h : items = []) : ∀ w, i.piece = .word w → trailing = 0 := hlast i (by rw [h]; rfl)
    rw [ReadAll, List.isChain_cons, List.forall_mem_cons, ← and_and_and_comm, ← ih hitems hlast']
    exact and_congr_left fun h => read_iff hi hnil h

end Items

/-- The tokens are those that the text was written for if the rule without
`delete_slashes` is not taken for a word with a backslash, and the other not for more
than a word. -/
theorem SourceText.lexes_iff (t : SourceText) : lex t.text = t.lexemes ↔ t.Lexable := by
  refine (lex_itemsText_iff t.spacing).trans (readAll_iff t.spacing fun j hj w hw => ?_)
  obtain ⟨n, p⟩ := j
  exact t.last n w (hw ▸ hj)

/-- A double quote with a backslash. -/
def quoteText : SourceText where
  items := [⟨0, .word ⟨[⟨'"', true, by decide, by decide, fun _ => rfl⟩], by decide, by decide⟩⟩]
  trailing := 0
  first := by simp
  spacing := .singleton _
  last := by simp

/-- The backslash is a part of the word. -/
theorem quoteText_not_lexed :
    lex quoteText.text = [wordToken ['\\', '"']] ∧ quoteText.lexemes = [wordToken ['"']] ∧
      lex quoteText.text ≠ quoteText.lexemes := by
  decide +kernel

end Cs252.Shell
