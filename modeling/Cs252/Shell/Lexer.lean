import Cs252.Lib.Flex
import Cs252.Shell.Parser

/-!
# Cs252.Shell.Lexer

The scanner of `lab3-src/shell.l`.

`rules` are its patterns in their order. `lex` gives the tokens of a text. A
command in backquotes is run by the scanner, which then reads what the command
prints in its place; `lex` ends there, with the command and the rest of the text.
The texts are without null characters.
-/

namespace Cs252.Shell

/-! ### Rules -/

/-- The characters of `[^ \t\n]`. -/
def isInk (c : Char) : Bool := c ≠ ' ' && c ≠ '\t' && c ≠ '\n'

/-- The characters of `[^ \t\n|><&]`. -/
def isPlain (c : Char) : Bool := isInk c && c ≠ '|' && c ≠ '>' && c ≠ '<' && c ≠ '&'

/-- What a rule does. -/
inductive LexAction
  | newline
  | discard
  | operator (t : Token)
  | quoted
  | word
  | escaped
  | subshell
  deriving Repr, DecidableEq

namespace LexRule

/-- `[ \t]+`. -/
def blanks : Pattern Char := .plus (.cls fun c => c = ' ' || c = '\t')

/-- `\"[^\t\n\"]*\"`. -/
def quoted : Pattern Char :=
  .seq (.word ['"']) (.seq (.star (.cls fun c => c ≠ '\t' && c ≠ '\n' && c ≠ '"')) (.word ['"']))

/-- `[^ \t\n|><&][^ \t\n|><&]*`. -/
def word : Pattern Char := .plus (.cls isPlain)

/-- `[^ \t\n]*(\\[^\s])[^ \t\n]*`, where `\s` is the letter. -/
def escaped : Pattern Char :=
  .seq (.star (.cls isInk))
    (.seq (.seq (.word ['\\']) (.cls fun c => c ≠ 's')) (.star (.cls isInk)))

/-- A command in backquotes. -/
def subshell : Pattern Char :=
  .seq (.word ['`']) (.seq (.star (.cls fun c => c ≠ '\n' && c ≠ '`')) (.word ['`']))

end LexRule

/-- The rules before those for words. -/
def symbolRules : List (Pattern Char × LexAction) :=
  [(.word ['\n'], .newline),
    (LexRule.blanks, .discard),
    (.word ['>'], .operator (.io .great)),
    (.word ['>', '>'], .operator (.io .greatGreat)),
    (.word ['&'], .operator .ampersand),
    (.word ['>', '&'], .operator (.io .greatAmp)),
    (.word ['&', '<'], .operator (.io .greatAmp)),
    (.word ['>', '>', '&'], .operator (.io .greatGreatAmp)),
    (.word ['&', '>', '>'], .operator (.io .greatGreatAmp)),
    (.word ['<'], .operator (.io .less)),
    (.word ['|'], .operator .pipe),
    (.word ['2', '>', '&', '1'], .operator (.io .redir)),
    (.word ['2', '>'], .operator (.io .redir)),
    (LexRule.quoted, .quoted)]

/-- The rules. -/
def rules : List (Pattern Char × LexAction) :=
  -- on ties the rule without `delete_slashes` comes before the one with it
  symbolRules ++ [(LexRule.word, .word), (LexRule.escaped, .escaped), (LexRule.subshell, .subshell)]

/-! ### Actions -/

/-- `delete_slashes`. A backslash at the end takes the terminator with it. -/
def deleteSlashes : List Char → List Char
  | [] => []
  | [c] => if c ≠ '\\' && c ≠ '\n' then [c] else []
  | c :: d :: rest =>
    if c ≠ '\\' && c ≠ '\n' then c :: deleteSlashes (d :: rest) else d :: deleteSlashes rest

/-- What the parser gets from the scanner. -/
inductive Lexeme
  | newline
  | token (t : Token)
  | subshell (command rest : List Char)
  deriving Repr, DecidableEq

/-- The `WORD` with a text. -/
def wordToken (text : List Char) : Lexeme := .token (.word (String.ofList text))

/-- What an action gives, for the text of its rule, the rest, and what follows. -/
def perform (action : LexAction) (yytext rest : List Char) (following : List Lexeme) :
    List Lexeme :=
  match action with
  | .newline => .newline :: following
  | .discard => following
  | .operator t => .token t :: following
  | .quoted => wordToken (yytext.drop 1).dropLast :: following
  | .word => wordToken yytext :: following
  | .escaped => wordToken (deleteSlashes yytext) :: following
  | .subshell => [.subshell (yytext.drop 1).dropLast rest]

/-- The tokens of a text. -/
def lex (text : List Char) : List Lexeme := scan rules perform text

example : lex "ls -l | wc>a".toList = [wordToken "ls".toList, wordToken "-l".toList,
    .token .pipe, wordToken "wc".toList, .token (.io .great), wordToken "a".toList] := by
  decide +kernel

/-! ### The patterns of words -/

theorem longest_blanks {c : Char} (hblank : c ≠ ' ') (htab : c ≠ '\t') (s : List Char) :
    LexRule.blanks.longest (c :: s) = 0 := by
  rw [LexRule.blanks, Pattern.longest_plus_cls, List.takeWhile_cons_of_neg (by simp [hblank, htab])]
  rfl

theorem isInk_of_isPlain {c : Char} (h : isPlain c = true) : isInk c = true := by
  simp only [isPlain, Bool.and_eq_true] at h
  exact h.1.1.1.1

/-- A word with a backslash, and any character but one after it. -/
theorem mem_escaped {s : List Char} :
    s ∈ LexRule.escaped.lang ↔ ∃ x c y, s = x ++ '\\' :: c :: y ∧ (∀ d ∈ x, isInk d = true) ∧
      c ≠ 's' ∧ ∀ d ∈ y, isInk d = true := by
  rw [LexRule.escaped, Pattern.lang_seq, Language.mem_mul]
  constructor
  · intro h
    obtain ⟨x, hx, b, hb, rfl⟩ := h
    obtain ⟨e, he, y, hy, rfl⟩ := Language.mem_mul.mp hb
    obtain ⟨a, ha, d, ⟨c, hc, rfl⟩, rfl⟩ := Language.mem_mul.mp he
    obtain rfl := Pattern.mem_word.mp ha
    exact ⟨x, c, y, rfl, Pattern.mem_star_cls.mp hx, of_decide_eq_true hc, Pattern.mem_star_cls.mp hy⟩
  · intro h
    obtain ⟨x, c, y, rfl, hx, hc, hy⟩ := h
    refine ⟨x, Pattern.mem_star_cls.mpr hx, _, Language.mem_mul.mpr ⟨['\\', c], ?_, y,
      Pattern.mem_star_cls.mpr hy, rfl⟩, rfl⟩
    exact Language.mem_mul.mpr ⟨['\\'], Pattern.mem_word.mpr rfl, [c], ⟨c, decide_eq_true hc, rfl⟩, rfl⟩

/-- More characters may stand before a match. -/
theorem cons_mem_escaped {c : Char} {s : List Char} (hink : isInk c = true) (hslash : c ≠ '\\') :
    c :: s ∈ LexRule.escaped.lang ↔ s ∈ LexRule.escaped.lang := by
  rw [mem_escaped, mem_escaped]
  constructor
  · intro h
    obtain ⟨x, d, y, heq, hx, hd, hy⟩ := h
    cases x with
    | nil => exact absurd (List.cons.inj heq).1 hslash
    | cons e x =>
      obtain ⟨-, rfl⟩ := List.cons.inj heq
      exact ⟨x, d, y, rfl, (List.forall_mem_cons.mp hx).2, hd, hy⟩
  · intro h
    obtain ⟨x, d, y, rfl, hx, hd, hy⟩ := h
    exact ⟨c :: x, d, y, rfl, List.forall_mem_cons.mpr ⟨hink, hx⟩, hd, hy⟩

theorem longest_escaped_append {x : List Char} (hx : ∀ c ∈ x, isInk c = true ∧ c ≠ '\\')
    (s : List Char) :
    LexRule.escaped.longest (x ++ s) =
      if LexRule.escaped.longest s = 0 then 0 else x.length + LexRule.escaped.longest s := by
  refine Pattern.longest_append (fun hnil => ?_) fun c hc t => cons_mem_escaped (hx c hc).1 (hx c hc).2
  obtain ⟨x, c, y, heq, -⟩ := mem_escaped.mp hnil
  exact List.append_ne_nil_of_right_ne_nil x (List.cons_ne_nil _ _) heq.symm

theorem longest_escaped_of_not_ink {c : Char} (hink : isInk c = false) (s : List Char) :
    LexRule.escaped.longest (c :: s) = 0 := by
  refine Pattern.longest_eq_zero fun t ht hmem => ?_
  obtain ⟨x, d, y, rfl, hx, -⟩ := mem_escaped.mp hmem
  obtain ⟨u, hu⟩ := ht
  have hc : isInk c = true := by
    cases x with
    | nil => exact (List.cons.inj hu).1 ▸ rfl
    | cons e x => exact (List.cons.inj hu).1 ▸ hx e List.mem_cons_self
  exact Bool.eq_false_iff.mp hink hc

end Cs252.Shell
