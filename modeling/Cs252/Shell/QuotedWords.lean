import Cs252.Shell.Lexer
import Cs252.Shell.Wildcards

/-!
# Cs252.Shell.QuotedWords

Words in double quotes.

The rules for plain words and for words with backslashes match at a double quote
too. Neither gets past the blank or newline after the closing quote: that
character is not plain, and a backslash that would take it along cannot be the
character before it, which is the quote. What they match is no longer than the
quoted text, and on a tie the rule for quoted text comes first.

The action strips the quotes in `yytext` itself, with a copy from one place
higher (`stripQuotes`).
-/

namespace Cs252.Shell

/-! ### The quotes are stripped in place -/

/-- `strcpy` of a string to one place lower, from the left: the loop from
position `i` on. -/
def copyDown (cells : List (Option Char)) (i : Nat) : Option (List (Option Char)) :=
  match hi : cells[i + 1]? with
  | none => none
  | some none => some (cells.set i none)
  | some (some c) =>
    have : i + 1 < cells.length := (List.getElem?_eq_some_iff.mp hi).1
    copyDown (cells.set i (some c)) (i + 1)
termination_by cells.length - i
decreasing_by
  rw [List.length_set]
  omega

/-- The action of the rule for quoted text, on the memory of `yytext`: the string that
is duplicated. -/
def stripQuotes (yytext : List (Option Char)) : Option Text := do
  let cells ← copyDown yytext 0
  let length := (← readText cells).length
  if length = 0 then none
  else readText (cells.set (length - 1) none)

theorem copyDown_eq (s : Text) (done cells : List (Option Char)) (x : Option Char) :
    copyDown (done ++ x :: (s.map some ++ none :: cells)) done.length =
      some (done ++ (s.map some ++ none :: none :: cells)) := by
  induction s generalizing done x with
  | nil =>
    rw [copyDown]
    split
    · next h => simp at h
    · simp
    · next h => simp at h
  | cons c s ih =>
    rw [copyDown]
    split
    · next h => simp at h
    · next h => simp at h
    · next d h =>
      obtain rfl : c = d := by simpa using h
      have hrest := ih (done ++ [some c]) (some c)
      simpa using hrest

/-- What is left is the text between the quotes. -/
theorem stripQuotes_eq (c d : Char) (s : Text) (cells : List (Option Char)) :
    stripQuotes ((c :: (s ++ [d])).map some ++ none :: cells) = some s := by
  have hcopy : copyDown ((c :: (s ++ [d])).map some ++ none :: cells) 0 =
      some ((s ++ [d]).map some ++ none :: none :: cells) := by
    simpa using copyDown_eq (s ++ [d]) [] cells (some c)
  have hset : ((s ++ [d]).map some ++ none :: none :: cells).set s.length none =
      s.map some ++ none :: none :: none :: cells := by simp
  rw [stripQuotes, hcopy]
  simp only [Option.bind_eq_bind, Option.bind_some, readText_append, List.length_append,
    List.length_singleton, Nat.add_sub_cancel, hset]
  exact if_neg (Nat.succ_ne_zero _)

/-! ### The rules at a double quote -/

/-- The characters of `[^\t\n\"]`. -/
def isQuotable (c : Char) : Bool := c ≠ '\t' && c ≠ '\n' && c ≠ '"'

section Rules

variable {s t v rest : List Char} {c : Char}

theorem mem_quoted : t ∈ LexRule.quoted.lang ↔
    ∃ s, t = '"' :: (s ++ ['"']) ∧ ∀ d ∈ s, isQuotable d = true := by
  rw [LexRule.quoted, Pattern.lang_seq, Language.mem_mul]
  constructor
  · intro h
    obtain ⟨a, ha, b, hb, rfl⟩ := h
    obtain ⟨s, hs, e, he, rfl⟩ := Language.mem_mul.mp hb
    obtain rfl := Pattern.mem_word.mp ha
    obtain rfl := Pattern.mem_word.mp he
    exact ⟨s, rfl, Pattern.mem_star_cls.mp hs⟩
  · intro h
    obtain ⟨s, rfl, hs⟩ := h
    exact ⟨['"'], Pattern.mem_word.mpr rfl, s ++ ['"'], Language.mem_mul.mpr
      ⟨s, Pattern.mem_star_cls.mpr hs, ['"'], Pattern.mem_word.mpr rfl, rfl⟩, rfl⟩

/-- Quoted text ends at the first quote. -/
theorem longest_quoted (hs : ∀ d ∈ s, isQuotable d = true) (rest : List Char) :
    LexRule.quoted.longest ('"' :: (s ++ '"' :: rest)) = s.length + 2 := by
  have hlength : ('"' :: (s ++ ['"'])).length = s.length + 2 := by simp
  rw [← hlength]
  refine Pattern.longest_eq ⟨rest, by simp⟩ (mem_quoted.mpr ⟨s, rfl, hs⟩) fun u hpre _ hu => ?_
  obtain ⟨s', rfl, hs'⟩ := mem_quoted.mp hu
  obtain ⟨v, hv⟩ := hpre
  have htext : s ++ '"' :: v = s' ++ ['"'] := by simpa using hv
  have htake := congrArg (List.takeWhile isQuotable) htext
  rw [List.takeWhile_append_of_pos hs, List.takeWhile_append_of_pos hs',
    List.takeWhile_cons_of_neg (by decide), List.takeWhile_cons_of_neg (by decide),
    List.append_nil, List.append_nil] at htake
  rw [htake]

/-- Plain text ends before a character that is not plain. -/
theorem longest_word_le (hc : isPlain c = false) (t rest : List Char) :
    LexRule.word.longest (t ++ c :: rest) ≤ t.length := by
  have hnot : ¬isPlain c = true := Bool.eq_false_iff.mp hc
  rw [LexRule.word, Pattern.longest_plus_cls, List.takeWhile_append,
    List.takeWhile_cons_of_neg hnot, List.append_nil]
  split
  · exact Nat.le_refl _
  · exact (List.takeWhile_prefix isPlain).length_le

/-- A blank or newline belongs to a word only after a backslash. -/
theorem notMem_escaped (hlast : t.getLast? ≠ some '\\') (hc : isInk c = false) :
    t ++ c :: v ∉ LexRule.escaped.lang := by
  intro hmem
  obtain ⟨x, d, y, heq, hx, -, hy⟩ := mem_escaped.mp hmem
  have hnot : ¬isInk c = true := Bool.eq_false_iff.mp hc
  have hslash : c ≠ '\\' := fun h => hnot (h ▸ rfl)
  rcases List.append_eq_append_iff.mp heq with ⟨a, hxt, hrest⟩ | ⟨a, htx, hrest⟩
  · cases a with
    | nil => exact hslash (List.cons.inj hrest).1
    | cons e a =>
      -- the character is one of those before the backslash
      obtain rfl := (List.cons.inj hrest).1
      exact hnot (hx c (hxt ▸ List.mem_append_right _ List.mem_cons_self))
  · match a, htx, hrest with
    | [], _, hrest => exact hslash (List.cons.inj hrest).1.symm
    | [e], htx, hrest =>
      obtain rfl := (List.cons.inj hrest).1
      exact hlast (by rw [htx, List.getLast?_concat])
    | e :: f :: a, _, hrest =>
      -- it is one of those after the next character
      obtain ⟨-, hrest⟩ := List.cons.inj hrest
      obtain ⟨-, rfl⟩ := List.cons.inj hrest
      exact hnot (hy c (List.mem_append_right _ List.mem_cons_self))

theorem longest_escaped_le (hlast : t.getLast? ≠ some '\\') (hc : isInk c = false)
    (rest : List Char) : LexRule.escaped.longest (t ++ c :: rest) ≤ t.length := by
  by_contra hlong
  have hpos : 0 < LexRule.escaped.longest (t ++ c :: rest) := by omega
  have hmem := Pattern.longest_mem hpos
  obtain ⟨n, hn⟩ := Nat.exists_eq_add_of_lt (Nat.not_le.mp hlong)
  rw [hn, Nat.add_assoc, List.take_length_add_append, List.take_succ_cons] at hmem
  exact notMem_escaped hlast hc hmem

/-- At a double quote no rule before the one for quoted text matches. -/
theorem longest_symbol (s : List Char) :
    ∀ x ∈ symbolRules.dropLast, x.1.longest ('"' :: s) = 0 := by
  have hother {d : Char} (h : d ≠ '"') (w : List Char) :
      (Pattern.word (d :: w)).longest ('"' :: s) = 0 := Pattern.longest_word_of_ne w h s
  have hrules : symbolRules.dropLast = symbolRules.take 13 := rfl
  intro x hx
  rw [hrules] at hx
  simp only [symbolRules, List.take_succ_cons, List.take_zero, List.mem_cons, List.not_mem_nil,
    or_false] at hx
  rcases hx with rfl | rfl | rfl | rfl | rfl | rfl | rfl | rfl | rfl | rfl | rfl | rfl | rfl
  case inr.inl => exact longest_blanks (by decide) (by decide) s
  all_goals exact hother (by decide) _

/-- The rule for quoted text is taken, for the text up to the closing quote. -/
theorem select_quoted (hs : ∀ d ∈ s, isQuotable d = true) (hc : isInk c = false)
    (rest : List Char) :
    select rules ('"' :: (s ++ '"' :: c :: rest)) = some (.quoted, s.length + 2) := by
  have hquoted := longest_quoted hs (c :: rest)
  have htext : '"' :: (s ++ '"' :: c :: rest) = ('"' :: (s ++ ['"'])) ++ c :: rest := by simp
  have hlength : ('"' :: (s ++ ['"'])).length = s.length + 2 := by simp
  have hplain : isPlain c = false := Bool.eq_false_iff.mpr fun h =>
    Bool.eq_false_iff.mp hc (isInk_of_isPlain h)
  have hlast : ('"' :: (s ++ ['"'])).getLast? ≠ some '\\' := by
    rw [← List.cons_append, List.getLast?_concat]
    decide
  have hpost : ∀ x ∈ [(LexRule.word, LexAction.word), (LexRule.escaped, LexAction.escaped),
      (LexRule.subshell, LexAction.subshell)],
      x.1.longest ('"' :: (s ++ '"' :: c :: rest)) ≤ s.length + 2 := by
    rw [List.forall_mem_cons, List.forall_mem_cons, List.forall_mem_singleton]
    refine ⟨?_, ?_, ?_⟩
    · rw [← hlength, htext]
      exact longest_word_le hplain _ rest
    · rw [← hlength, htext]
      exact longest_escaped_le hlast hc rest
    · exact (Pattern.longest_seq_word (by decide) _).trans_le (Nat.zero_le _)
  rw [← hquoted] at hpost ⊢
  have hpre : ∀ x ∈ symbolRules.dropLast, x.1.longest ('"' :: (s ++ '"' :: c :: rest)) <
      LexRule.quoted.longest ('"' :: (s ++ '"' :: c :: rest)) := by
    intro x hx
    rw [longest_symbol _ x hx]
    omega
  exact select_eq_some (by omega) hpre hpost

/-- **Quoted text lexes to its contents.** The rule for quoted text takes it as one
match, what its action leaves in `yytext` is the text between the quotes, and the
scanner goes on after the closing quote. -/
theorem lex_quoted (hs : ∀ d ∈ s, d ≠ '\t' ∧ d ≠ '\n' ∧ d ≠ '"') (hc : c = ' ' ∨ c = '\n')
    (rest : List Char) :
    select rules ('"' :: (s ++ '"' :: c :: rest)) = some (.quoted, s.length + 2) ∧
    ('"' :: (s ++ '"' :: c :: rest)).take (s.length + 2) = '"' :: (s ++ ['"']) ∧
    (∀ buffer, stripQuotes (('"' :: (s ++ ['"'])).map some ++ none :: buffer) = some s) ∧
    lex ('"' :: (s ++ '"' :: c :: rest)) = wordToken s :: lex (c :: rest) := by
  have hquotable : ∀ d ∈ s, isQuotable d = true := by
    intro d hd
    obtain ⟨htab, hnewline, hquote⟩ := hs d hd
    simp [isQuotable, htab, hnewline, hquote]
  have hink : isInk c = false := by
    rcases hc with rfl | rfl <;> rfl
  have hselect := select_quoted hquotable hink rest
  have htext : '"' :: (s ++ '"' :: c :: rest) = ('"' :: (s ++ ['"'])) ++ c :: rest := by simp
  have hlength : s.length + 2 = ('"' :: (s ++ ['"'])).length := by simp
  refine ⟨hselect, ?_, stripQuotes_eq '"' '"' s, ?_⟩
  · rw [htext, hlength, List.take_left]
  · rw [lex, scan_of_select hselect, htext, hlength, List.take_left, List.drop_left]
    simp [perform, lex]

/-- A quoted text with blanks, an operator and a backslash before the closing quote. -/
theorem lex_quoted_mixed :
    lex "\"a > b\\\" c".toList = wordToken "a > b\\".toList :: lex " c".toList :=
  (lex_quoted (s := "a > b\\".toList) (c := ' ') (by simp) (Or.inl rfl) ['c']).2.2.2

end Rules

end Cs252.Shell
