import Cs252.Shell.EscapedText
import Cs252.Shell.QuotedWords

/-!
# Cs252.Shell.WrittenLines

Texts of whole lines, and what the scanner makes of them.

A word may be written with backslashes or between double quotes, and an operator in
every way for which there is a rule. In front of a blank, a tab or the end of the
line each of these is read as what it stands for (`Written.lex_append`). So the
scanner gives the tokens of the lines for which a text was written, whatever the
spelling and the spacing (`ScriptText.inputLines_lex`).
-/

namespace Cs252.Shell

/-! ### Operators -/

/-- The operators, in the order of their rules. -/
def symbols : List (List Char × Token) :=
  [(['>'], .io .great),
    (['>', '>'], .io .greatGreat),
    (['&'], .ampersand),
    (['>', '&'], .io .greatAmp),
    (['&', '<'], .io .greatAmp),
    (['>', '>', '&'], .io .greatGreatAmp),
    (['&', '>', '>'], .io .greatGreatAmp),
    (['<'], .io .less),
    (['|'], .pipe),
    (['2', '>', '&', '1'], .io .redir),
    (['2', '>'], .io .redir)]

/-- The rule for an operator. -/
def symbolRule (x : List Char × Token) : Pattern Char × LexAction := (.word x.1, .operator x.2)

theorem rules_eq : rules =
    (.word ['\n'], .newline) :: (LexRule.blanks, .discard) :: (symbols.map symbolRule ++
      [(LexRule.quoted, .quoted), (LexRule.word, .word), (LexRule.escaped, .escaped),
        (LexRule.subshell, .subshell)]) := rfl

section Symbols

variable {c : Char} {x : List Char × Token}

theorem symbols_ink (hx : x ∈ symbols) : ∀ d ∈ x.1, isInk d = true ∧ d ≠ '\\' := by
  have h : ∀ x ∈ symbols, ∀ d ∈ x.1, isInk d = true ∧ d ≠ '\\' := by simp [symbols, isInk]
  exact h x hx

theorem symbols_inj {y : List Char × Token} (hx : x ∈ symbols) (hy : y ∈ symbols) (h : x.1 = y.1) :
    x = y :=
  (show ∀ x ∈ symbols, ∀ y ∈ symbols, x.1 = y.1 → x = y by decide) x hx y hy h

theorem symbols_head (hx : x ∈ symbols) :
    ∃ d w, x.1 = d :: w ∧ isInk d = true ∧ d ≠ '"' ∧ d ≠ '`' := by
  obtain ⟨d, hd⟩ := Option.isSome_iff_exists.mp
    ((show ∀ x ∈ symbols, x.1.head?.isSome = true by decide) x hx)
  obtain ⟨w, hw⟩ := List.head?_eq_some_iff.mp hd
  obtain ⟨hquote, hbackquote⟩ :=
    (show ∀ x ∈ symbols, '"' ∉ x.1 ∧ '`' ∉ x.1 by decide) x hx
  rw [hw] at hquote hbackquote
  exact ⟨d, w, hw, (symbols_ink hx d (hw ▸ List.mem_cons_self)).1,
    Ne.symm (List.ne_of_not_mem_cons hquote), Ne.symm (List.ne_of_not_mem_cons hbackquote)⟩

theorem symbols_not_plain (hx : x ∈ symbols) : (x.1.takeWhile isPlain).length < x.1.length :=
  (show ∀ x ∈ symbols, (x.1.takeWhile isPlain).length < x.1.length by decide) x hx

theorem isPlain_of_not_isInk (hc : isInk c = false) : isPlain c = false :=
  Bool.eq_false_iff.mpr fun h => Bool.eq_false_iff.mp hc (isInk_of_isPlain h)

/-- A beginning of the text that is an operator ends before the blank. -/
theorem symbol_prefix {w s : List Char} (hx : x ∈ symbols) (hc : isInk c = false)
    (h : x.1 <+: w ++ c :: s) : x.1 <+: w := by
  rcases List.prefix_or_prefix_of_prefix h (List.prefix_append w _) with hpre | ⟨v, hv⟩
  · exact hpre
  · rw [← hv, List.prefix_append_right_inj] at h
    cases v with
    | nil => exact ⟨[], by rw [List.append_nil, ← hv, List.append_nil]⟩
    | cons d v =>
      obtain rfl := (List.cons_prefix_cons.mp h).1
      have hink := (symbols_ink hx d (hv ▸ List.mem_append_right _ List.mem_cons_self)).1
      exact absurd hink (Bool.eq_false_iff.mp hc)

/-- In front of a blank, no rule matches as much as that of an operator. -/
theorem longest_lt_symbol (hx : x ∈ symbols) (hc : isInk c = false) (s : List Char) :
    ∀ y ∈ rules, y = symbolRule x ∨ y.1.longest (x.1 ++ c :: s) < x.1.length := by
  obtain ⟨d, w, hw, hink, hquote, hbackquote⟩ := symbols_head hx
  have hpos : 0 < x.1.length := by rw [hw]; exact Nat.succ_pos _
  have hzero {r : Pattern Char} (h : r.longest (d :: (w ++ c :: s)) = 0) :
      r.longest (x.1 ++ c :: s) < x.1.length := by
    rw [hw, List.cons_append, h, ← hw]
    exact hpos
  obtain ⟨hblank, htab, hnewline⟩ := ne_of_isInk hink
  rw [rules_eq]
  simp only [List.forall_mem_cons, List.forall_mem_append, List.forall_mem_map]
  refine ⟨Or.inr (hzero (Pattern.longest_word_of_ne _ hnewline.symm _)),
    Or.inr (hzero (longest_blanks hblank htab _)), fun y hy => ?_,
    Or.inr (hzero (Pattern.longest_seq_word hquote _)), Or.inr ?_, Or.inr ?_,
    Or.inr (hzero (Pattern.longest_seq_word hbackquote _)), List.forall_mem_nil _⟩
  · -- another operator is no longer beginning of the text
    rw [symbolRule, Pattern.longest_word]
    split
    · next hpre =>
      have hle := symbol_prefix hy hc hpre
      rcases Nat.lt_or_eq_of_le hle.length_le with hlt | heq
      · exact Or.inr hlt
      · exact Or.inl (congrArg symbolRule (symbols_inj hy hx (hle.eq_of_length heq)))
    · exact Or.inr hpos
  · refine Nat.lt_of_le_of_lt ?_ (symbols_not_plain hx)
    rw [LexRule.word, Pattern.longest_plus_cls, List.takeWhile_append,
      List.takeWhile_cons_of_neg (Bool.eq_false_iff.mp (isPlain_of_not_isInk hc)), List.append_nil]
    split
    · next hall => exact Nat.le_of_eq hall.symm
    · exact Nat.le_refl _
  · rw [longest_escaped_append (symbols_ink hx), if_pos (longest_escaped_of_not_ink hc s)]
    exact hpos

/-- An operator in front of a blank. -/
theorem lex_symbol (hx : x ∈ symbols) (hc : isInk c = false) (s : List Char) :
    lex (x.1 ++ c :: s) = .token x.2 :: lex (c :: s) := by
  have hself : (Pattern.word x.1).longest (x.1 ++ c :: s) = x.1.length := by
    rw [Pattern.longest_word, if_pos (List.prefix_append _ _)]
  have hmem : (Pattern.word x.1, LexAction.operator x.2) ∈ rules := by
    rw [rules_eq]
    exact List.mem_cons_of_mem _ (List.mem_cons_of_mem _
      (List.mem_append_left _ (List.mem_map_of_mem (f := symbolRule) hx)))
  obtain ⟨d, w, hw, -⟩ := symbols_head hx
  have hpos : 0 < (Pattern.word x.1).longest (x.1 ++ c :: s) := by
    rw [hself, hw]
    exact Nat.succ_pos _
  have hselect := select_of_lt hmem hpos fun y hy =>
    (longest_lt_symbol hx hc s y hy).imp_right fun hlt => hself ▸ hlt
  rw [hself] at hselect
  rw [lex, scan_of_select hselect, perform, List.drop_left]
  rfl

end Symbols

/-! ### Tokens -/

/-- The ways to write a token. -/
inductive Written : Token → List Char → Prop
  /-- A word as it is. -/
  | bare {w : EscapedWord} : w.Bare → Written (.word (String.ofList w.value)) w.text
  /-- A word with backslashes, where the rule that deletes them is taken and ends with
  the word. -/
  | escaped {w : EscapedWord} : w.Marked → w.letters.countP (fun l => l.char = ' ') ≤ 1 →
      Closed w.letters → Written (.word (String.ofList w.value)) w.text
  /-- The word that is the beginning of an operator. -/
  | two : Written (.word "2") ['2']
  | quoted {s : List Char} : (∀ d ∈ s, isQuotable d = true) →
      Written (.word (String.ofList s)) ('"' :: (s ++ ['"']))
  | symbol {x : List Char × Token} : x ∈ symbols → Written x.2 x.1

section Tokens

variable {c : Char} {t : Token} {text : List Char}

/-- A word without backslashes. -/
theorem EscapedWord.lex_bare {w : EscapedWord} (h : w.Bare) (hc : isInk c = false) (s : List Char) :
    lex (w.text ++ c :: s) = wordToken w.value :: lex (c :: s) := by
  have hescaped : LexRule.escaped.longest (w.text ++ c :: s) = 0 := by
    rw [longest_escaped_of_bare h, if_pos (longest_escaped_of_not_ink hc s)]
  have hplain : ∀ l ∈ w.letters, isPlain l.char = true := fun l hl => (Letter.of_not_slash (h l hl)).1
  have hword : LexRule.word.longest (w.text ++ c :: s) = w.text.length := by
    rw [LexRule.word, Pattern.longest_plus_cls, text, takeWhile_plain hplain]
    intro d hd
    obtain rfl := Option.some.inj hd
    exact isPlain_of_not_isInk hc
  have htext : w.text = w.value := lettersText_eq_map_iff.mpr h
  rw [(w.wordStart _).lex_word (hword ▸ w.length_text_pos) (hescaped ▸ Nat.zero_le _), hword,
    List.take_left, List.drop_left, htext]

/-- A word for which `delete_slashes` is called. -/
theorem EscapedWord.lex_marked {w : EscapedWord} (h : w.Marked)
    (hblanks : w.letters.countP (fun l => l.char = ' ') ≤ 1) (hclosed : Closed w.letters)
    (hc : isInk c = false) (s : List Char) :
    lex (w.text ++ c :: s) = wordToken w.value :: lex (c :: s) := by
  have hescaped : LexRule.escaped.longest (w.text ++ c :: s) = w.text.length := by
    refine (longest_escaped_iff h fun d hd => ?_).mpr ⟨hblanks, fun d hd => ?_⟩
    · obtain rfl := Option.some.inj hd
      exact isPlain_of_not_isInk hc
    · obtain rfl := Option.some.inj hd
      exact ⟨hc, hclosed⟩
  have hvalue : deleteSlashes w.text = w.value := by
    have := deleteSlashes_append w.letters []
    rwa [List.append_nil, deleteSlashes, List.append_nil] at this
  rw [(w.wordStart _).lex_escaped (word_lt_escaped h _), hescaped, List.take_left, List.drop_left,
    hvalue]

theorem lex_two (hc : isInk c = false) (s : List Char) :
    lex ('2' :: c :: s) = wordToken ['2'] :: lex (c :: s) := by
  have hstart : WordStart ('2' :: c :: s) := by
    refine wordStart_cons rfl (by decide) (by decide) fun _ hgreat => ?_
    obtain rfl := Option.some.inj hgreat
    cases hc
  have hescaped : LexRule.escaped.longest ('2' :: c :: s) = 0 := by
    have := longest_escaped_append (x := ['2']) (by simp [isInk]) (c :: s)
    rwa [longest_escaped_of_not_ink hc, if_pos rfl] at this
  have hword : LexRule.word.longest ('2' :: c :: s) = 1 := by
    rw [LexRule.word, Pattern.longest_plus_cls, List.takeWhile_cons_of_pos rfl,
      List.takeWhile_cons_of_neg (Bool.eq_false_iff.mp (isPlain_of_not_isInk hc))]
    rfl
  rw [hstart.lex_word (hword ▸ Nat.one_pos) (hescaped ▸ Nat.zero_le _), hword]
  rfl

theorem lex_quoted_append {w : List Char} (hw : ∀ d ∈ w, isQuotable d = true)
    (hc : isInk c = false) (s : List Char) :
    lex ('"' :: (w ++ ['"']) ++ c :: s) = wordToken w :: lex (c :: s) := by
  have htext : '"' :: (w ++ ['"']) ++ c :: s = '"' :: (w ++ '"' :: c :: s) := by simp
  have hlength : w.length + 2 = ('"' :: (w ++ ['"'])).length := by simp
  have hselect := select_quoted hw hc s
  rw [← htext] at hselect
  rw [lex, scan_of_select hselect, hlength, List.take_left, List.drop_left]
  simp [perform, lex]

/-- **In front of a blank or the end of the line, a token is read as it was written.** -/
theorem Written.lex_append (h : Written t text) (hc : isInk c = false) (s : List Char) :
    lex (text ++ c :: s) = .token t :: lex (c :: s) := by
  cases h with
  | bare hbare => exact EscapedWord.lex_bare hbare hc s
  | escaped hmarked hblanks hclosed => exact EscapedWord.lex_marked hmarked hblanks hclosed hc s
  | two => exact lex_two hc s
  | quoted hw => exact lex_quoted_append hw hc s
  | symbol hx => exact lex_symbol hx hc s

/-- A character that is written without a backslash. -/
def isOrdinary (c : Char) : Bool := 32 ≤ c.toNat && c.toNat ≤ 126 && c ≠ '`' && !isSpecial c

/-- The letter for such a character. -/
def ordinaryLetter (c : Char) (h : isOrdinary c = true) : Letter where
  char := c
  slash := false
  printable := by
    simp only [isOrdinary, Bool.and_eq_true, decide_eq_true_eq] at h
    exact ⟨UInt32.le_iff_toNat_le.mpr h.1.1.1, UInt32.le_iff_toNat_le.mpr h.1.1.2⟩
  no_backquote := by
    simp only [isOrdinary, Bool.and_eq_true, decide_eq_true_eq] at h
    exact h.1.2
  special hspecial := by simp [isOrdinary, hspecial] at h

/-- A word of such characters is written as it is. -/
theorem Written.ordinary {word : List Char} (hne : word ≠ [])
    (h : ∀ c ∈ word, isOrdinary c = true) : Written (.word (String.ofList word)) word := by
  by_cases htwo : word = ['2']
  · rw [htwo]
    exact .two
  · have hvalue : (word.pmap ordinaryLetter h).map Letter.char = word := by
      simp [List.map_pmap, ordinaryLetter]
    let w : EscapedWord := ⟨word.pmap ordinaryLetter h, fun hnil => hne (List.pmap_eq_nil_iff.mp hnil),
      fun heq => htwo (hvalue ▸ heq)⟩
    have hbare : w.Bare := by
      intro l hl
      obtain ⟨c, hc, rfl⟩ := List.mem_pmap.mp hl
      rfl
    have htext : w.text = word := (lettersText_eq_map_iff.mpr hbare).trans hvalue
    have hwritten : Written (.word (String.ofList w.value)) w.text := .bare hbare
    rwa [htext, show w.value = word from hvalue] at hwritten

end Tokens

/-! ### Lines -/

/-- The blanks between two tokens. -/
def isBlank (c : Char) : Bool := c = ' ' || c = '\t'

/-- The texts of a line: its tokens with blanks and tabs between them. -/
inductive LineText : List Token → List Char → Prop
  | nil : LineText [] []
  | blank {c : Char} {ts : List Token} {s : List Char} : isBlank c = true → LineText ts s →
      LineText ts (c :: s)
  | token {t : Token} {text : List Char} {ts : List Token} {s : List Char} : Written t text →
      (∀ c ∈ s.head?, isBlank c = true) → LineText ts s → LineText (t :: ts) (text ++ s)

/-- The texts of some lines, each with the newline that ends it. -/
inductive ScriptText : List (List Token) → List Char → Prop
  | nil : ScriptText [] []
  | line {ts : List Token} {s : List Char} {lines : List (List Token)} {text : List Char} :
      LineText ts s → ScriptText lines text → ScriptText (ts :: lines) (s ++ '\n' :: text)

/-- The lines the parser gets from the scanner, if no command in backquotes is among
them and the last one is ended. -/
def inputLines : List Lexeme → Option (List (List Token))
  | [] => some []
  | .newline :: rest => (inputLines rest).map ([] :: ·)
  | .token t :: rest =>
    match inputLines rest with
    | some (line :: lines) => some ((t :: line) :: lines)
    | _ => none
  | .subshell _ _ :: _ => none

section Lines

variable {c : Char} {s text : List Char} {ts : List Token} {lines : List (List Token)}

theorem not_isInk_of_isBlank (h : isBlank c = true) : isInk c = false := by
  simp only [isBlank, Bool.or_eq_true, decide_eq_true_eq] at h
  rcases h with rfl | rfl <;> rfl

/-- At a blank or a newline, only the rules for these match. -/
theorem longest_of_not_isInk (hc : isInk c = false) (s : List Char) :
    ∀ x ∈ symbols.map symbolRule ++ [(LexRule.quoted, .quoted), (LexRule.word, .word),
      (LexRule.escaped, .escaped), (LexRule.subshell, .subshell)], x.1.longest (c :: s) = 0 := by
  have hne {d : Char} (hd : isInk d = true) : c ≠ d := fun h => Bool.eq_false_iff.mp hc (h ▸ hd)
  simp only [List.forall_mem_append, List.forall_mem_map, List.forall_mem_cons]
  refine ⟨fun y hy => ?_, Pattern.longest_seq_word (hne rfl) s, ?_,
    longest_escaped_of_not_ink hc s, Pattern.longest_seq_word (hne rfl) s, List.forall_mem_nil _⟩
  · obtain ⟨d, w, hw, hink, -⟩ := symbols_head hy
    rw [symbolRule, hw]
    exact Pattern.longest_word_of_ne w (hne hink).symm s
  · rw [LexRule.word, Pattern.longest_plus_cls,
      List.takeWhile_cons_of_neg (Bool.eq_false_iff.mp (isPlain_of_not_isInk hc))]
    rfl

theorem lex_newline (s : List Char) : lex ('\n' :: s) = .newline :: lex s := by
  have hself : (Pattern.word ['\n']).longest ('\n' :: s) = 1 := by
    rw [Pattern.longest_word, if_pos ⟨s, rfl⟩]
    rfl
  have hothers : ∀ x ∈ rules.tail,
      x.1.longest ('\n' :: s) ≤ (Pattern.word ['\n']).longest ('\n' :: s) := by
    intro x hx
    rw [rules_eq, List.tail_cons] at hx
    rcases List.mem_cons.mp hx with rfl | hx
    · exact (longest_blanks (by decide) (by decide) s).trans_le (Nat.zero_le _)
    · exact (longest_of_not_isInk rfl s x hx).trans_le (Nat.zero_le _)
  have hselect : select ([] ++ (Pattern.word ['\n'], LexAction.newline) :: rules.tail) ('\n' :: s) =
      some (.newline, (Pattern.word ['\n']).longest ('\n' :: s)) :=
    select_eq_some (hself ▸ Nat.one_pos) (List.forall_mem_nil _) hothers
  rw [hself] at hselect
  exact scan_of_select hselect

/-- All blanks are passed over at once. -/
theorem lex_dropWhile (s : List Char) : lex (s.dropWhile isBlank) = lex s := by
  cases s with
  | nil => rfl
  | cons c s =>
    cases hc : isBlank c with
    | false => rw [List.dropWhile_cons_of_neg (Bool.eq_false_iff.mp hc)]
    | true =>
      have hlongest : LexRule.blanks.longest (c :: s) = ((c :: s).takeWhile isBlank).length :=
        Pattern.longest_plus_cls
      have hpos : 0 < LexRule.blanks.longest (c :: s) := by
        rw [hlongest, List.takeWhile_cons_of_pos hc]
        exact Nat.succ_pos _
      have hmem : (LexRule.blanks, LexAction.discard) ∈ rules := by simp [rules, symbolRules]
      have hselect := select_of_lt hmem hpos fun x hx => by
        rw [rules_eq] at hx
        rcases List.mem_cons.mp hx with rfl | hx
        · refine Or.inr (lt_of_eq_of_lt (Pattern.longest_word_of_ne _ (fun h => ?_) s) hpos)
          exact absurd (h ▸ hc) (by decide)
        rcases List.mem_cons.mp hx with rfl | hx
        · exact Or.inl rfl
        · exact Or.inr (lt_of_eq_of_lt (longest_of_not_isInk (not_isInk_of_isBlank hc) s x hx) hpos)
      rw [hlongest] at hselect
      have hdrop : (c :: s).dropWhile isBlank = (c :: s).drop ((c :: s).takeWhile isBlank).length := by
        have := congrArg (List.drop ((c :: s).takeWhile isBlank).length)
          (List.takeWhile_append_dropWhile (p := isBlank) (l := c :: s))
        rwa [List.drop_left] at this
      rw [hdrop, lex, lex, scan_of_select hselect, perform]

/-- Blanks are passed over one at a time. -/
theorem lex_blank (hc : isBlank c = true) (s : List Char) : lex (c :: s) = lex s := by
  rw [← lex_dropWhile (c :: s), List.dropWhile_cons_of_pos hc, lex_dropWhile]

theorem LineText.lex_append (h : LineText ts s) (text : List Char) :
    lex (s ++ '\n' :: text) = ts.map .token ++ .newline :: lex text := by
  induction h with
  | nil => exact lex_newline text
  | blank hc _ ih => rw [List.cons_append, lex_blank hc, ih]
  | @token t w ts s hw hs _ ih =>
    obtain ⟨c, r, hr, hc⟩ : ∃ c r, s ++ '\n' :: text = c :: r ∧ isInk c = false := by
      cases s with
      | nil => exact ⟨_, _, rfl, rfl⟩
      | cons c s => exact ⟨_, _, rfl, not_isInk_of_isBlank (hs c rfl)⟩
    rw [List.append_assoc, hr, hw.lex_append hc, ← hr, ih]
    rfl

theorem inputLines_line (ts : List Token) (rest : List Lexeme) :
    inputLines (ts.map .token ++ .newline :: rest) = (inputLines rest).map (ts :: ·) := by
  induction ts with
  | nil => rfl
  | cons t ts ih =>
    rw [List.map_cons, List.cons_append, inputLines, ih]
    cases inputLines rest <;> rfl

/-- **The parser gets the lines for which the text was written.** -/
theorem ScriptText.inputLines_lex (h : ScriptText lines text) :
    inputLines (lex text) = some lines := by
  induction h with
  | nil => rw [lex, scan_nil]; rfl
  | line hline _ ih => rw [hline.lex_append, inputLines_line, ih]; rfl

end Lines

end Cs252.Shell
