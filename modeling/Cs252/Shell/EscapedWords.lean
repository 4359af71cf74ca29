import Cs252.Shell.Lexer

/-!
# Cs252.Shell.EscapedWords

Words in which characters are preceded by backslashes.

`delete_slashes` undoes the escaping of a whole word (`deleteSlashes_append`). Of
the two rules for such words, the one without it stops at the first character
that is not plain, and the other has a longer match exactly if there is one.
-/

namespace Cs252.Shell

/-- The characters that have to be escaped. -/
def isSpecial (c : Char) : Bool :=
  c = ' ' || c = '"' || c = '\\' || c = '|' || c = '>' || c = '<' || c = '&'

/-- A character of a word, with a backslash or without. -/
structure Letter where
  char : Char
  slash : Bool
  printable : ' ' ≤ char ∧ char ≤ '~'
  no_backquote : char ≠ '`'
  special : isSpecial char = true → slash = true

namespace Letter

variable {l : Letter}

/-- The letter as it is written. -/
def text (l : Letter) : List Char := if l.slash then ['\\', l.char] else [l.char]

theorem text_of_slash (h : l.slash = true) : l.text = ['\\', l.char] := if_pos h

theorem text_of_not_slash (h : l.slash = false) : l.text = [l.char] :=
  if_neg (Bool.eq_false_iff.mp h)

theorem ne_newline (l : Letter) : l.char ≠ '\n' := fun h => absurd (h ▸ l.printable).1 (by decide)

theorem ne_tab (l : Letter) : l.char ≠ '\t' := fun h => absurd (h ▸ l.printable).1 (by decide)

theorem isInk_iff : isInk l.char = true ↔ l.char ≠ ' ' := by
  simp [isInk, l.ne_newline, l.ne_tab]

/-- A letter without a backslash is plain. -/
theorem of_not_slash (h : l.slash = false) :
    isPlain l.char = true ∧ l.char ≠ '\\' ∧ l.char ≠ '"' := by
  have hspecial : isSpecial l.char = false :=
    Bool.eq_false_iff.mpr fun hspecial => Bool.eq_false_iff.mp h (l.special hspecial)
  simp only [isSpecial, Bool.or_eq_false_iff, decide_eq_false_iff_not] at hspecial
  simp [isPlain, isInk, l.ne_newline, l.ne_tab, hspecial]

end Letter

/-- A text of letters. -/
def lettersText (letters : List Letter) : List Char := letters.flatMap Letter.text

section Letters

variable {l : Letter} {letters pre post : List Letter} {s : List Char}

theorem lettersText_cons : lettersText (l :: letters) = l.text ++ lettersText letters :=
  List.flatMap_cons

theorem lettersText_append : lettersText (pre ++ post) = lettersText pre ++ lettersText post :=
  List.flatMap_append

theorem length_lettersText (letters : List Letter) :
    (lettersText letters).length = letters.length + letters.countP Letter.slash := by
  induction letters with
  | nil => rfl
  | cons l letters ih =>
    have hl : l.text.length = 1 + if l.slash then 1 else 0 := by
      cases hslash : l.slash with
      | true => rw [Letter.text_of_slash hslash]; rfl
      | false => rw [Letter.text_of_not_slash hslash]; rfl
    rw [lettersText_cons, List.length_append, ih, hl, List.length_cons, List.countP_cons]
    omega

theorem lettersText_ne_nil (h : ∃ l ∈ letters, isPlain l.char = false) : lettersText letters ≠ [] := by
  obtain ⟨l, hl, -⟩ := h
  refine List.ne_nil_of_length_pos ?_
  rw [length_lettersText]
  exact Nat.add_pos_left (List.length_pos_of_mem hl) _

/-- The text is the word if there are no backslashes. -/
theorem lettersText_eq_map_iff :
    lettersText letters = letters.map Letter.char ↔ ∀ l ∈ letters, l.slash = false := by
  constructor
  · intro h
    have hlength := congrArg List.length h
    rw [length_lettersText, List.length_map] at hlength
    have hzero : letters.countP Letter.slash = 0 := Nat.add_eq_left.mp hlength
    exact fun l hl => Bool.eq_false_iff.mpr (List.countP_eq_zero.mp hzero l hl)
  · intro h
    rw [lettersText, ← List.flatMap_pure_eq_map]
    exact List.flatMap_congr fun l hl => Letter.text_of_not_slash (h l hl)

/-! ### Deleting the backslashes -/

theorem deleteSlashes_cons {c : Char} (hslash : c ≠ '\\') (hnewline : c ≠ '\n') (s : List Char) :
    deleteSlashes (c :: s) = c :: deleteSlashes s := by
  cases s <;> simp [deleteSlashes, hslash, hnewline]

theorem deleteSlashes_text (l : Letter) (s : List Char) :
    deleteSlashes (l.text ++ s) = l.char :: deleteSlashes s := by
  cases h : l.slash with
  | true =>
    rw [Letter.text_of_slash h]
    rfl
  | false =>
    rw [Letter.text_of_not_slash h]
    exact deleteSlashes_cons (Letter.of_not_slash h).2.1 l.ne_newline s

theorem deleteSlashes_take_text {n : Nat} (hn : n < l.text.length) :
    deleteSlashes (l.text.take n) = [] := by
  cases h : l.slash with
  | true =>
    rw [Letter.text_of_slash h] at hn ⊢
    match n, hn with
    | 0, _ => rfl
    | 1, _ => rfl
  | false =>
    rw [Letter.text_of_not_slash h] at hn ⊢
    match n, hn with
    | 0, _ => rfl

/-- The escaping is undone. -/
theorem deleteSlashes_append (letters : List Letter) (s : List Char) :
    deleteSlashes (lettersText letters ++ s) = letters.map Letter.char ++ deleteSlashes s := by
  induction letters with
  | nil => rfl
  | cons l letters ih =>
    rw [lettersText_cons, List.append_assoc, deleteSlashes_text, ih]
    rfl

/-- A part of the text is shorter. -/
theorem length_deleteSlashes_take {n : Nat} (h : n < (lettersText letters).length) :
    (deleteSlashes ((lettersText letters).take n)).length < letters.length := by
  induction letters generalizing n with
  | nil => cases h
  | cons l letters ih =>
    by_cases hn : n < l.text.length
    · rw [lettersText_cons, List.take_append_of_le_length (Nat.le_of_lt hn),
        deleteSlashes_take_text hn]
      exact Nat.succ_pos _
    · rw [lettersText_cons, List.length_append] at h
      rw [lettersText_cons, List.take_append, List.take_of_length_le (Nat.le_of_not_lt hn),
        deleteSlashes_text]
      exact Nat.succ_lt_succ (ih (by omega))

/-! ### The characters of the text -/

theorem mem_lettersText {c : Char} (h : c ∈ lettersText letters) :
    c = '\\' ∨ ∃ l ∈ letters, c = l.char := by
  obtain ⟨l, hl, hc⟩ := List.mem_flatMap.mp h
  cases hslash : l.slash with
  | true =>
    rw [Letter.text_of_slash hslash] at hc
    rcases List.mem_pair.mp hc with rfl | rfl
    · exact Or.inl rfl
    · exact Or.inr ⟨l, hl, rfl⟩
  | false =>
    rw [Letter.text_of_not_slash hslash, List.mem_singleton] at hc
    exact Or.inr ⟨l, hl, hc⟩

theorem plain_of_mem_lettersText (h : ∀ l ∈ letters, isPlain l.char = true) :
    ∀ c ∈ lettersText letters, isPlain c = true := by
  intro c hc
  rcases mem_lettersText hc with rfl | ⟨l, hl, rfl⟩
  · rfl
  · exact h l hl

theorem ink_of_mem_lettersText (h : ∀ l ∈ letters, l.char ≠ ' ') :
    ∀ c ∈ lettersText letters, isInk c = true := by
  intro c hc
  rcases mem_lettersText hc with rfl | ⟨l, hl, rfl⟩
  · rfl
  · exact Letter.isInk_iff.mpr (h l hl)

theorem Letter.slash_of_not_plain (h : isPlain l.char = false) : l.slash = true := by
  cases hslash : l.slash with
  | true => rfl
  | false => exact absurd (Letter.of_not_slash hslash).1 (Bool.eq_false_iff.mp h)

/-! ### What the two rules match -/

/-- The rule without `delete_slashes` matches all of a plain text. -/
theorem takeWhile_plain (h : ∀ l ∈ letters, isPlain l.char = true)
    (hs : ∀ c ∈ s.head?, isPlain c = false) :
    (lettersText letters ++ s).takeWhile isPlain = lettersText letters := by
  have htake : s.takeWhile isPlain = [] := by
    cases s with
    | nil => rfl
    | cons c s => exact List.takeWhile_cons_of_neg (Bool.eq_false_iff.mp (hs c rfl))
  rw [List.takeWhile_append_of_pos (plain_of_mem_lettersText h), htake, List.append_nil]

/-- The first character that is not plain. -/
theorem exists_first (h : ∃ l ∈ letters, isPlain l.char = false) :
    ∃ pre l post, letters = pre ++ l :: post ∧ (∀ x ∈ pre, isPlain x.char = true) ∧
      isPlain l.char = false := by
  induction letters with
  | nil => exact absurd h (by simp)
  | cons x letters ih =>
    cases hx : isPlain x.char with
    | false => exact ⟨[], x, letters, rfl, List.forall_mem_nil _, hx⟩
    | true =>
      have hrest : ∃ l ∈ letters, isPlain l.char = false := by simpa [hx] using h
      obtain ⟨pre, l, post, rfl, hpre, hl⟩ := ih hrest
      exact ⟨x :: pre, l, post, rfl, List.forall_mem_cons.mpr ⟨hx, hpre⟩, hl⟩

/-- Where there is such a character, the other rule matches more. -/
theorem word_lt_escaped (h : ∃ l ∈ letters, isPlain l.char = false) (s : List Char) :
    LexRule.word.longest (lettersText letters ++ s) <
      LexRule.escaped.longest (lettersText letters ++ s) := by
  obtain ⟨pre, l, post, rfl, hpre, hl⟩ := exists_first h
  have htext : lettersText (pre ++ l :: post) ++ s =
      lettersText pre ++ '\\' :: l.char :: (lettersText post ++ s) := by
    rw [lettersText_append, lettersText_cons, Letter.text_of_slash (Letter.slash_of_not_plain hl)]
    simp
  have hplain := plain_of_mem_lettersText hpre
  have hword : LexRule.word.longest (lettersText (pre ++ l :: post) ++ s) =
      (lettersText pre).length + 1 := by
    rw [htext, LexRule.word, Pattern.longest_plus_cls, List.takeWhile_append_of_pos hplain,
      List.takeWhile_cons_of_pos rfl, List.takeWhile_cons_of_neg (Bool.eq_false_iff.mp hl),
      List.length_append]
    rfl
  have hescaped : lettersText pre ++ ['\\', l.char] ∈ LexRule.escaped.lang :=
    mem_escaped.mpr ⟨_, l.char, [], rfl, fun c hc => isInk_of_isPlain (hplain c hc),
      fun hs => absurd (hs ▸ hl) (by decide), List.forall_mem_nil _⟩
  have hprefix : lettersText pre ++ ['\\', l.char] <+: lettersText (pre ++ l :: post) ++ s := by
    rw [htext]
    exact ⟨lettersText post ++ s, by simp⟩
  have hle := Pattern.length_le_longest hprefix hescaped
  rw [List.length_append] at hle
  rw [hword]
  exact hle

/-! ### Where the longer match ends -/

/-- A blank cannot be the second character that a match goes over. -/
theorem countP_of_mem_escaped (h : s ∈ LexRule.escaped.lang) :
    s.countP (fun c => !isInk c) ≤ 1 := by
  obtain ⟨x, c, y, rfl, hx, -, hy⟩ := mem_escaped.mp h
  have hx' : x.countP (fun c => !isInk c) = 0 := List.countP_eq_zero.mpr fun d hd => by simp [hx d hd]
  have hy' : y.countP (fun c => !isInk c) = 0 := List.countP_eq_zero.mpr fun d hd => by simp [hy d hd]
  rw [List.countP_append, List.countP_cons_of_neg (by decide), List.countP_cons, hx', hy']
  split <;> decide

theorem countP_lettersText (letters : List Letter) :
    (lettersText letters).countP (fun c => !isInk c) = letters.countP fun l => l.char = ' ' := by
  induction letters with
  | nil => rfl
  | cons l letters ih =>
    have hl : l.text.countP (fun c => !isInk c) = if l.char = ' ' then 1 else 0 := by
      have hink : isInk l.char = !decide (l.char = ' ') := by
        rw [Bool.eq_iff_iff, Letter.isInk_iff]
        simp
      cases hslash : l.slash with
      | true =>
        rw [Letter.text_of_slash hslash, List.countP_cons_of_neg (by decide)]
        simp [List.countP_cons, hink]
      | false =>
        rw [Letter.text_of_not_slash hslash]
        simp [List.countP_cons, hink]
    rw [lettersText_cons, List.countP_append, List.countP_cons, ih, hl, Nat.add_comm]
    simp

theorem getLast?_lettersText (letters : List Letter) :
    (lettersText letters).getLast? = letters.getLast?.map Letter.char := by
  induction letters using List.reverseRecOn with
  | nil => rfl
  | append_singleton letters l =>
    have hl : lettersText [l] = l.text := List.append_nil _
    rw [lettersText_append, hl, List.getLast?_concat]
    cases hslash : l.slash with
    | true =>
      rw [Letter.text_of_slash hslash]
      simp
    | false =>
      rw [Letter.text_of_not_slash hslash]
      simp

/-- At the end of the letters, a blank is not part of the match: there was another
one before, or there is no backslash that it could follow. -/
def Closed (letters : List Letter) : Prop :=
  (∃ l ∈ letters, l.char = ' ') ∨ letters.getLast?.map Letter.char ≠ some '\\'

theorem mem_escaped_of_split (hl : isPlain l.char = false) (hpre : ∀ x ∈ pre, x.char ≠ ' ')
    (hpost : ∀ x ∈ post, x.char ≠ ' ') : lettersText (pre ++ l :: post) ∈ LexRule.escaped.lang := by
  refine mem_escaped.mpr ⟨lettersText pre, l.char, lettersText post, ?_, ink_of_mem_lettersText hpre,
    fun hs => absurd (hs ▸ hl) (by decide), ink_of_mem_lettersText hpost⟩
  rw [lettersText_append, lettersText_cons, Letter.text_of_slash (Letter.slash_of_not_plain hl)]
  rfl

/-- With one blank at most, all of the text is a match. -/
theorem lettersText_mem_escaped (h : ∃ l ∈ letters, isPlain l.char = false)
    (hblanks : letters.countP (fun l => l.char = ' ') ≤ 1) :
    lettersText letters ∈ LexRule.escaped.lang := by
  by_cases hblank : ∃ l ∈ letters, l.char = ' '
  · obtain ⟨l, hl, hc⟩ := hblank
    obtain ⟨pre, post, rfl⟩ := List.append_of_mem hl
    rw [List.countP_append, List.countP_cons, if_pos (decide_eq_true hc)] at hblanks
    have hpre : pre.countP (fun l => l.char = ' ') = 0 := by omega
    have hpost : post.countP (fun l => l.char = ' ') = 0 := by omega
    simp only [List.countP_eq_zero, decide_eq_true_eq] at hpre hpost
    exact mem_escaped_of_split (hc ▸ rfl) hpre hpost
  · obtain ⟨l, hl, hplain⟩ := h
    obtain ⟨pre, post, rfl⟩ := List.append_of_mem hl
    simp only [not_exists, not_and] at hblank
    exact mem_escaped_of_split hplain (fun x hx => hblank x (List.mem_append_left _ hx))
      fun x hx => hblank x (List.mem_append_right _ (List.mem_cons_of_mem _ hx))

/-- A match that goes on over a blank after the letters. -/
theorem not_closed_of_mem {c : Char} {v : List Char} (hc : isInk c = false)
    (h : lettersText letters ++ c :: v ∈ LexRule.escaped.lang) : ¬Closed letters := by
  have hcount := countP_of_mem_escaped h
  rw [List.countP_append, List.countP_cons_of_pos (by simp [hc]), countP_lettersText] at hcount
  have hzero : letters.countP (fun l => l.char = ' ') = 0 := by omega
  simp only [List.countP_eq_zero, decide_eq_true_eq] at hzero
  obtain ⟨x, d, y, heq, hx, -, hy⟩ := mem_escaped.mp h
  have hd : isInk d = false := by
    refine Bool.eq_false_iff.mpr fun hd => Bool.eq_false_iff.mp hc ?_
    have hmem : c ∈ x ++ '\\' :: d :: y := heq ▸ List.mem_append_right _ List.mem_cons_self
    rcases List.mem_append.mp hmem with hmem | hmem
    · exact hx c hmem
    · rcases List.mem_cons.mp hmem with rfl | hmem
      · rfl
      · rcases List.mem_cons.mp hmem with rfl | hmem
        · exact hd
        · exact hy c hmem
  -- both sides up to the first character that is not visible
  have htake := congrArg (List.takeWhile isInk) heq
  rw [List.takeWhile_append_of_pos (ink_of_mem_lettersText hzero),
    List.takeWhile_cons_of_neg (Bool.eq_false_iff.mp hc), List.append_nil,
    List.takeWhile_append_of_pos hx, List.takeWhile_cons_of_pos rfl,
    List.takeWhile_cons_of_neg (Bool.eq_false_iff.mp hd)] at htake
  rintro (⟨l, hl, hblank⟩ | hlast)
  · exact hzero l hl hblank
  · rw [← getLast?_lettersText, htake, List.getLast?_concat] at hlast
    exact hlast rfl

theorem mem_of_not_closed {c : Char} (hc : c ≠ 's') (h : ¬Closed letters) :
    lettersText letters ++ [c] ∈ LexRule.escaped.lang := by
  simp only [Closed, not_or, not_exists, not_and, ne_eq, not_not] at h
  obtain ⟨hblanks, hlast⟩ := h
  obtain ⟨l, hl, hslash⟩ := Option.map_eq_some_iff.mp hlast
  obtain ⟨init, rfl⟩ := List.getLast?_eq_some_iff.mp hl
  have htext : lettersText [l] = ['\\', '\\'] := by
    rw [lettersText_cons, Letter.text_of_slash (l.special (hslash ▸ rfl)), hslash]
    rfl
  rw [lettersText_append, htext]
  refine mem_escaped.mpr ⟨lettersText init ++ ['\\'], c, [], by simp, ?_, hc, List.forall_mem_nil _⟩
  exact List.forall_mem_append.mpr
    ⟨ink_of_mem_lettersText fun x hx => hblanks x (List.mem_append_left _ hx),
      List.forall_mem_singleton.mpr rfl⟩

/-- The longer match is the text of the letters. -/
theorem longest_escaped_iff (h : ∃ l ∈ letters, isPlain l.char = false)
    (hs : ∀ c ∈ s.head?, isPlain c = false) :
    LexRule.escaped.longest (lettersText letters ++ s) = (lettersText letters).length ↔
      letters.countP (fun l => l.char = ' ') ≤ 1 ∧
        ∀ c ∈ s.head?, isInk c = false ∧ Closed letters := by
  rw [Pattern.longest_eq_iff (List.prefix_append _ _) (lettersText_ne_nil h)]
  constructor
  · intro hlongest
    obtain ⟨hmem, hmax⟩ := hlongest
    refine ⟨countP_lettersText letters ▸ countP_of_mem_escaped hmem, fun c hc => ?_⟩
    obtain ⟨s, rfl⟩ : ∃ s', s = c :: s' := List.head?_eq_some_iff.mp hc
    -- one more character cannot be matched too, so it is no visible one and no backslash waits for it
    have hnot : lettersText letters ++ [c] ∉ LexRule.escaped.lang := fun hmem => by
      have hpre : lettersText letters ++ [c] <+: lettersText letters ++ c :: s := ⟨s, by simp⟩
      exact List.cons_ne_nil _ _ (List.append_right_eq_self.mp (hmax _ (List.prefix_append _ _) hpre hmem))
    have hink : isInk c = false := by
      refine Bool.eq_false_iff.mpr fun hink => hnot ?_
      obtain ⟨x, d, y, heq, hx, hd, hy⟩ := mem_escaped.mp hmem
      refine mem_escaped.mpr ⟨x, d, y ++ [c], by rw [heq]; simp, hx, hd, ?_⟩
      exact List.forall_mem_append.mpr ⟨hy, List.forall_mem_singleton.mpr hink⟩
    refine ⟨hink, ?_⟩
    by_contra hclosed
    refine hnot (mem_of_not_closed (fun heq => ?_) hclosed)
    exact absurd (heq ▸ hs c hc) (by decide)
  · intro hgood
    obtain ⟨hblanks, hnext⟩ := hgood
    refine ⟨lettersText_mem_escaped h hblanks, fun u hpre hu hmem => ?_⟩
    obtain ⟨v, rfl⟩ := hpre
    cases v with
    | nil => exact List.append_nil _
    | cons c v =>
      obtain ⟨s, rfl⟩ := (List.prefix_append_right_inj _).mp hu
      exact absurd (hnext c rfl).2 (not_closed_of_mem (hnext c rfl).1 hmem)

end Letters

end Cs252.Shell
