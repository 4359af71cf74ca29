import Cs252.Lib.Ere

/-!
# Cs252.Lib.EreSyntax

How POSIX spells extended regular expressions, in its own locale.

A text is cut into tokens (`lex`), and the tokens go one by one to a parser that keeps the
groups that are open on a stack. What POSIX leaves undefined, such as a repetition of
nothing or of a repetition, an ordinary character after a backslash or an empty branch, is
no expression here.

A token is lighter than what spells it, as long as the scale of the tokens and the one of
the spelling go together (`Spells.weight_le`), and an expression than its tokens
(`parse_weight_le`). A repetition of more than one copy would break the second.
-/

namespace Ere

/-- `RE_DUP_MAX`. -/
def reDupMax : Nat := 32767

inductive Token
  | one (c : Char)
  | any
  | bracket (p : Char → Bool)
  | bol
  | eol
  | opening
  | closing
  | bar
  | dup (lo : Nat) (hi : Option Nat)

/-! ### Intervals -/

/-- The number that digits spell. -/
def number (digits : List Char) : Nat := digits.foldl (fun n c => 10 * n + (c.toNat - 48)) 0

/-- The digits at the beginning of a text. -/
def digits (text : List Char) : Option (Nat × List Char) :=
  if text.takeWhile Char.isDigit = [] then none
  else some (number (text.takeWhile Char.isDigit), text.dropWhile Char.isDigit)

/-- The end of an interval, after its lower bound. -/
def upper (lo : Nat) : List Char → Option (Option Nat × List Char)
  | '}' :: rest => some (some lo, rest)
  | ',' :: '}' :: rest => some (none, rest)
  | ',' :: rest => do
    match ← digits rest with
    | (hi, '}' :: rest) => some (some hi, rest)
    | _ => none
  | _ => none

/-- An interval, after its brace. -/
def interval (text : List Char) : Option ((Nat × Option Nat) × List Char) := do
  let (lo, rest) ← digits text
  let (hi, rest) ← upper lo rest
  if lo ≤ hi.getD lo ∧ hi.getD lo ≤ reDupMax then some ((lo, hi), rest) else none

theorem digits_suffix {text rest : List Char} {n : Nat} (h : digits text = some (n, rest)) :
    rest <:+ text := by
  unfold digits at h
  split at h
  · cases h
  · cases h
    exact List.dropWhile_suffix _

theorem upper_suffix {text rest : List Char} {lo : Nat} {hi : Option Nat}
    (h : upper lo text = some (hi, rest)) : rest <:+ text := by
  unfold upper at h
  split at h
  · cases h
    exact List.suffix_cons _ _
  · cases h
    exact (List.suffix_cons _ _).trans (List.suffix_cons _ _)
  · obtain ⟨⟨hi', after⟩, hdigits, h⟩ := Option.bind_eq_some_iff.mp h
    split at h
    · next heq =>
      cases heq
      cases h
      exact (List.suffix_cons _ _).trans ((digits_suffix hdigits).trans (List.suffix_cons _ _))
    · cases h
  · cases h

theorem interval_suffix {text rest : List Char} {bounds : Nat × Option Nat}
    (h : interval text = some (bounds, rest)) : rest <:+ text := by
  obtain ⟨⟨lo, rest₁⟩, hlo, h⟩ := Option.bind_eq_some_iff.mp h
  obtain ⟨⟨hi, rest₂⟩, hhi, h⟩ := Option.bind_eq_some_iff.mp h
  obtain ⟨-, h⟩ := Option.ite_none_right_eq_some.mp h
  cases h
  exact (upper_suffix hhi).trans (digits_suffix hlo)

/-! ### Bracket expressions -/

/-- The character classes. -/
def classes : List (String × (Char → Bool)) :=
  [("alnum", Char.isAlphanum), ("alpha", Char.isAlpha), ("blank", fun c => c = ' ' || c = '\t'),
    ("cntrl", fun c => c.toNat < 32 || c.toNat = 127), ("digit", Char.isDigit),
    ("graph", fun c => 32 < c.toNat && c.toNat < 127), ("lower", Char.isLower),
    ("print", fun c => 32 ≤ c.toNat && c.toNat < 127),
    ("punct", fun c => 32 < c.toNat && c.toNat < 127 && !c.isAlphanum),
    ("space", fun c => c = ' ' || 9 ≤ c.toNat && c.toNat ≤ 13), ("upper", Char.isUpper),
    ("xdigit", fun c => c.isDigit || 'a' ≤ c && c ≤ 'f' || 'A' ≤ c && c ≤ 'F')]

/-- What stands between hyphens: a character, or a class of them. -/
inductive Element
  | char (c : Char)
  | class (p : Char → Bool)

/-- An element of a list. -/
def element : List Char → Option (Element × List Char)
  | [] => none
  | '[' :: '.' :: rest =>
    match rest with
    | c :: '.' :: ']' :: rest => some (.char c, rest)
    | _ => none
  | '[' :: '=' :: rest =>
    match rest with
    | c :: '=' :: ']' :: rest => some (.class (· == c), rest)
    | _ => none
  | '[' :: ':' :: rest =>
    match rest.dropWhile Char.isAlpha with
    | ':' :: ']' :: rest' =>
      (classes.lookup (String.ofList (rest.takeWhile Char.isAlpha))).map fun p => (.class p, rest')
    | _ => none
  | c :: rest => some (.char c, rest)

/-- The end of a range, if a hyphen follows its first element and is not the last of the
list. -/
def rangeEnd : Element → List Char → Option ((Char → Bool) × List Char)
  | .class p, rest => some (p, rest)
  | .char c, '-' :: rest =>
    if rest.head? = some ']' then some ((· == c), '-' :: rest)
    else do
      match ← element rest with
      | (.char d, rest) => if c ≤ d then some (fun x => c ≤ x && x ≤ d, rest) else none
      | (.class _, _) => none
  | .char c, rest => some ((· == c), rest)

/-- An element, or a range. -/
def range (text : List Char) : Option ((Char → Bool) × List Char) := do
  let (first, rest) ← element text
  rangeEnd first rest

theorem element_suffix {text rest : List Char} {e : Element} (h : element text = some (e, rest)) :
    ∃ c used, text = c :: used ++ rest := by
  unfold element at h
  split at h
  · cases h
  · split at h
    · cases h
      exact ⟨_, ['.', _, '.', ']'], rfl⟩
    · cases h
  · split at h
    · cases h
      exact ⟨_, ['=', _, '=', ']'], rfl⟩
    · cases h
  · next after =>
    split at h
    · next hdrop =>
      obtain ⟨_, _, h⟩ := Option.map_eq_some_iff.mp h
      cases h
      refine ⟨'[', ':' :: (after.takeWhile Char.isAlpha ++ [':', ']']), ?_⟩
      rw [List.cons_append, List.cons_append, List.append_assoc, List.cons_append,
        List.cons_append, List.nil_append, ← hdrop, List.takeWhile_append_dropWhile]
    · cases h
  · cases h
    exact ⟨_, [], rfl⟩

theorem rangeEnd_suffix {text rest : List Char} {first : Element} {p : Char → Bool}
    (h : rangeEnd first text = some (p, rest)) : rest <:+ text := by
  unfold rangeEnd at h
  split at h
  · cases h
    exact List.suffix_refl _
  · split at h
    · cases h
      exact List.suffix_refl _
    · obtain ⟨⟨second, after⟩, hsecond, h⟩ := Option.bind_eq_some_iff.mp h
      obtain ⟨c, used, htext⟩ := element_suffix hsecond
      split at h
      · next heq =>
        cases heq
        obtain ⟨-, h⟩ := Option.ite_none_right_eq_some.mp h
        cases h
        rw [htext]
        exact (List.suffix_append _ _).trans (List.suffix_cons _ _)
      · cases h
  · cases h
    exact List.suffix_refl _

theorem range_suffix {text rest : List Char} {p : Char → Bool} (h : range text = some (p, rest)) :
    ∃ c used, text = c :: used ++ rest := by
  obtain ⟨⟨first, rest₁⟩, hfirst, hrest⟩ := Option.bind_eq_some_iff.mp h
  obtain ⟨c, used, htext⟩ := element_suffix hfirst
  obtain ⟨used', hused⟩ := rangeEnd_suffix hrest
  exact ⟨c, used ++ used', by rw [htext, ← hused, List.cons_append, List.cons_append, List.append_assoc]⟩

theorem range_lt {text rest : List Char} {p : Char → Bool} (h : range text = some (p, rest)) :
    rest.length < text.length := by
  obtain ⟨c, used, rfl⟩ := range_suffix h
  rw [List.cons_append, List.length_cons, List.length_append]
  omega

/-- The list of a bracket expression, after its first range. A hyphen stands for itself
only at the end. -/
def listRest (text : List Char) : Option ((Char → Bool) × List Char) :=
  if text.head? = some ']' then some (fun _ => false, text.tail)
  else if text.head? = some '-' ∧ text.tail.head? ≠ some ']' then none
  else
    match h : range text with
    | none => none
    | some (p, rest) =>
      have := range_lt h
      (listRest rest).map fun (q, rest) => (fun c => p c || q c, rest)
termination_by text.length

/-- The list of a bracket expression. -/
def list (text : List Char) : Option ((Char → Bool) × List Char) := do
  let (p, rest) ← range text
  let (q, rest) ← listRest rest
  some (fun c => p c || q c, rest)

/-- A bracket expression, after its bracket. -/
def bracket : List Char → Option ((Char → Bool) × List Char)
  | '^' :: rest => (list rest).map fun (p, rest) => (fun c => !p c, rest)
  | text => list text

theorem listRest_suffix {text rest : List Char} {p : Char → Bool}
    (h : listRest text = some (p, rest)) : ']' :: rest <:+ text := by
  induction hn : text.length using Nat.strong_induction_on generalizing text p with
  | _ n ih =>
    subst hn
    rw [listRest] at h
    split at h
    · next hhead =>
      cases h
      exact ⟨[], List.cons_head?_tail hhead⟩
    · split at h
      · cases h
      · split at h
        · cases h
        · next hrange =>
          obtain ⟨⟨q, rest'⟩, hq, h⟩ := Option.map_eq_some_iff.mp h
          cases h
          obtain ⟨c, used, htext⟩ := range_suffix hrange
          refine (ih _ (range_lt hrange) hq rfl).trans ?_
          rw [htext]
          exact List.suffix_append _ _

theorem list_suffix {text rest : List Char} {p : Char → Bool} (h : list text = some (p, rest)) :
    ']' :: rest <:+ text := by
  obtain ⟨⟨q, rest₁⟩, hrange, h⟩ := Option.bind_eq_some_iff.mp h
  obtain ⟨⟨r, rest₂⟩, hrest, h⟩ := Option.bind_eq_some_iff.mp h
  cases h
  obtain ⟨c, used, rfl⟩ := range_suffix hrange
  exact (listRest_suffix hrest).trans (List.suffix_append _ _)

/-- A bracket expression ends with a bracket. -/
theorem bracket_suffix {text rest : List Char} {p : Char → Bool}
    (h : bracket text = some (p, rest)) : ']' :: rest <:+ text := by
  unfold bracket at h
  split at h
  · obtain ⟨⟨q, rest'⟩, hlist, h⟩ := Option.map_eq_some_iff.mp h
    cases h
    exact (list_suffix hlist).trans (List.suffix_cons _ _)
  · exact list_suffix h

/-! ### Tokens -/

/-- A character that is special outside of a bracket expression. -/
def special (c : Char) : Bool :=
  ['^', '.', '[', '$', '(', '|', '*', '+', '?', '{', '\\'].contains c

/-- A character that a backslash can come before. -/
def quotable (c : Char) : Bool := special c || c = ')'

/-- The token that a character spells. -/
def single (c : Char) : Token :=
  if c = '^' then .bol
  else if c = '$' then .eol
  else if c = '.' then .any
  else if c = '*' then .dup 0 none
  else if c = '+' then .dup 1 none
  else if c = '?' then .dup 0 (some 1)
  else if c = '(' then .opening
  else if c = ')' then .closing
  else if c = '|' then .bar
  else .one c

theorem single_of_not_special {c : Char} (h : ¬special c = true) :
    single c = if c = ')' then .closing else .one c := by
  have hne : ∀ d, special d = true → c ≠ d := fun d hd hcd => h (hcd ▸ hd)
  unfold single
  rw [if_neg (hne '^' rfl), if_neg (hne '$' rfl), if_neg (hne '.' rfl), if_neg (hne '*' rfl),
    if_neg (hne '+' rfl), if_neg (hne '?' rfl), if_neg (hne '(' rfl)]
  split
  · rfl
  · rw [if_neg (hne '|' rfl)]

/-- The first token. -/
def nextToken : List Char → Option (Token × List Char)
  | [] => none
  | '\\' :: rest =>
    match rest with
    | c :: rest => if quotable c then some (.one c, rest) else none
    | [] => none
  | '[' :: rest => (bracket rest).map fun (p, rest) => (.bracket p, rest)
  | '{' :: rest => (interval rest).map fun ((lo, hi), rest) => (.dup lo hi, rest)
  | c :: rest => some (single c, rest)

/-- A text begins with a token. -/
inductive Reads : List Char → Token → List Char → Prop
  | quoted {c : Char} {rest : List Char} : quotable c → Reads ('\\' :: c :: rest) (.one c) rest
  | bracket {p : Char → Bool} {used rest : List Char} :
      Reads ('[' :: used ++ ']' :: rest) (.bracket p) rest
  | interval {lo : Nat} {hi : Option Nat} {used rest : List Char} :
      Reads ('{' :: used ++ rest) (.dup lo hi) rest
  | single {c : Char} {rest : List Char} :
      c ≠ '\\' → c ≠ '[' → c ≠ '{' → Reads (c :: rest) (single c) rest

theorem nextToken_reads {text rest : List Char} {t : Token}
    (h : nextToken text = some (t, rest)) : Reads text t rest := by
  unfold nextToken at h
  split at h
  · cases h
  · split at h
    · obtain ⟨hquotable, h⟩ := Option.ite_none_right_eq_some.mp h
      cases h
      exact .quoted hquotable
    · cases h
  · obtain ⟨⟨p, rest'⟩, hbracket, h⟩ := Option.map_eq_some_iff.mp h
    cases h
    obtain ⟨used, rfl⟩ := bracket_suffix hbracket
    exact .bracket
  · obtain ⟨⟨⟨lo, hi⟩, rest'⟩, hinterval, h⟩ := Option.map_eq_some_iff.mp h
    cases h
    obtain ⟨used, rfl⟩ := interval_suffix hinterval
    exact .interval
  · next hback hopen hbrace =>
    cases h
    exact .single hback hopen hbrace

theorem nextToken_single {c : Char} {rest : List Char} (hback : c ≠ '\\') (hopen : c ≠ '[')
    (hbrace : c ≠ '{') : nextToken (c :: rest) = some (single c, rest) := by
  rw [nextToken]
  · exact hback
  · exact hopen
  · exact hbrace

theorem Reads.suffix {text rest : List Char} {t : Token} (h : Reads text t rest) :
    ∃ c used, text = c :: used ++ rest := by
  cases h with
  | quoted => exact ⟨_, [_], rfl⟩
  | @bracket p used =>
    exact ⟨'[', used ++ [']'], by rw [List.cons_append, List.cons_append, List.append_assoc]; rfl⟩
  | interval => exact ⟨_, _, rfl⟩
  | single => exact ⟨_, [], rfl⟩

theorem nextToken_lt {text rest : List Char} {t : Token} (h : nextToken text = some (t, rest)) :
    rest.length < text.length := by
  obtain ⟨c, used, rfl⟩ := (nextToken_reads h).suffix
  rw [List.cons_append, List.length_cons, List.length_append]
  omega

/-- The tokens of a text. -/
def lex (text : List Char) : Option (List Token) :=
  if text = [] then some []
  else
    match h : nextToken text with
    | none => none
    | some (t, rest) =>
      have := nextToken_lt h
      (lex rest).map (t :: ·)
termination_by text.length

/-- A text spells tokens. -/
inductive Spells : List Char → List Token → Prop
  | nil : Spells [] []
  | cons {text rest : List Char} {t : Token} {ts : List Token} :
      Reads text t rest → Spells rest ts → Spells text (t :: ts)

theorem lex_nil : lex [] = some [] := by
  rw [lex]
  rfl

theorem lex_of_next {text rest : List Char} {t : Token} (h : nextToken text = some (t, rest)) :
    lex text = (lex rest).map (t :: ·) := by
  have hne : text ≠ [] := by
    rintro rfl
    cases h
  rw [lex, if_neg hne]
  split
  · next hnone => cases h.symm.trans hnone
  · next hsome =>
    cases h.symm.trans hsome
    rfl

theorem lex_spells {text : List Char} {ts : List Token} (h : lex text = some ts) :
    Spells text ts := by
  induction hn : text.length using Nat.strong_induction_on generalizing text ts with
  | _ n ih =>
    subst hn
    rw [lex] at h
    split at h
    · next hnil =>
      cases h
      rw [hnil]
      exact .nil
    · split at h
      · cases h
      · next hnext =>
        obtain ⟨ts', hrest, h⟩ := Option.map_eq_some_iff.mp h
        cases h
        exact .cons (nextToken_reads hnext) (ih _ (nextToken_lt hnext) hrest rfl)

/-! ### The parser -/

/-- A group that is open: the branches before the last bar, and the last branch, of which
the last piece is known to be repeatable or not. -/
structure Frame where
  branches : Option (Expr Char)
  front : Expr Char
  last : Option (Expr Char × Bool)

namespace Frame

def start : Frame := ⟨none, .empty, none⟩

/-- The last branch. -/
def branch (f : Frame) : Expr Char :=
  match f.last with
  | none => f.front
  | some (e, _) => .seq f.front e

/-- Another piece. -/
def push (f : Frame) (e : Expr Char) (repeatable : Bool) : Frame :=
  { f with front := f.branch, last := some (e, repeatable) }

/-- The last piece is repeated. -/
def dup (f : Frame) (lo : Nat) (hi : Option Nat) : Option Frame :=
  match f.last with
  | some (e, true) => some { f with last := some (.rep lo hi e, false) }
  | _ => none

/-- The group, if its last branch is not empty. -/
def group (f : Frame) : Option (Expr Char) :=
  if f.last.isNone then none
  else
    match f.branches with
    | none => some f.branch
    | some e => some (.alt e f.branch)

end Frame

/-- The group that is read, and the ones around it. -/
structure Parser where
  frame : Frame
  outer : List Frame

/-- Another piece of the group that is read. -/
def Parser.push (s : Parser) (e : Expr Char) (repeatable : Bool) : Parser :=
  { s with frame := s.frame.push e repeatable }

/-- A closing parenthesis. Without an opening one it stands for itself. -/
def Parser.close (s : Parser) : Option Parser :=
  match s.outer with
  | [] => some (s.push (.one ')') true)
  | f :: outer => s.frame.group.map fun e => ⟨f.push e true, outer⟩

/-- The parser takes a token. -/
def Parser.step (s : Parser) : Token → Option Parser
  | .one c => some (s.push (.one c) true)
  | .any => some (s.push .any true)
  | .bracket p => some (s.push (.bracket p) true)
  | .bol => some (s.push .bol false)
  | .eol => some (s.push .eol true)
  | .opening => some ⟨.start, s.frame :: s.outer⟩
  | .closing => s.close
  | .bar => s.frame.group.map fun e => { s with frame := ⟨some e, .empty, none⟩ }
  | .dup lo hi => (s.frame.dup lo hi).map fun f => { s with frame := f }

/-- The expression that is read, if no group is open. -/
def Parser.result (s : Parser) : Option (Expr Char) :=
  if s.outer.isEmpty then s.frame.group else none

/-- The expression that a text spells. -/
def parse (text : List Char) : Option (Expr Char) := do
  let ts ← lex text
  let s ← ts.foldlM Parser.step ⟨.start, []⟩
  s.result

/-! ### Weights -/

section Weights

variable {μ : Scale Char} {φ : Char → Nat} {text : List Char} {ts : List Token}

/-- What a token needs. -/
def Token.weight (μ : Scale Char) : Token → Nat
  | .one c => μ.letter c
  | .bracket _ => μ.heaviest
  | .closing => μ.letter ')'
  | _ => 0

/-- Only what stands for itself needs something. -/
theorem single_weight {c : Char} (hback : c ≠ '\\') (hopen : c ≠ '[') (hbrace : c ≠ '{') :
    (single c).weight μ = if special c then 0 else μ.letter c := by
  by_cases hspecial : special c = true
  · rw [if_pos hspecial]
    simp only [special, List.contains_iff_mem, List.mem_cons, List.not_mem_nil, or_false] at hspecial
    rcases hspecial with rfl | rfl | rfl | rfl | rfl | rfl | rfl | rfl | rfl | rfl | rfl
    all_goals first | rfl | contradiction
  · rw [if_neg hspecial, single_of_not_special hspecial]
    split
    · next hc => rw [hc, Token.weight]
    · rfl

/-- A character of a text pays for what it spells. -/
structure Pays (μ : Scale Char) (φ : Char → Nat) (text : List Char) : Prop where
  quoted : ∀ c rest, '\\' :: c :: rest <:+ text → quotable c = true →
    μ.letter c ≤ φ '\\' + φ c
  bracket : '[' ∈ text → μ.heaviest ≤ φ ']'
  single : ∀ c, special c = false → μ.letter c ≤ φ c

theorem Pays.suffix {rest : List Char} (h : Pays μ φ text) (hrest : rest <:+ text) :
    Pays μ φ rest :=
  ⟨fun _ _ hquoted => h.quoted _ _ (hquoted.trans hrest), fun hmem => h.bracket (hrest.subset hmem),
    h.single⟩

theorem Reads.weight_le {rest : List Char} {t : Token} (h : Reads text t rest)
    (hpays : Pays μ φ text) : t.weight μ + (rest.map φ).sum ≤ (text.map φ).sum := by
  cases h with
  | quoted hquotable =>
    have hle := hpays.quoted _ _ (List.suffix_refl _) hquotable
    simp only [List.map_cons, List.sum_cons, Token.weight]
    omega
  | bracket =>
    have hle := hpays.bracket List.mem_cons_self
    simp only [List.map_cons, List.map_append, List.sum_cons, List.sum_append, List.cons_append,
      Token.weight]
    omega
  | interval =>
    simp only [List.map_cons, List.map_append, List.sum_cons, List.sum_append, List.cons_append,
      Token.weight]
    omega
  | @single c _ hback hopen hbrace =>
    have hle : (Ere.single c).weight μ ≤ φ c := by
      rw [single_weight hback hopen hbrace]
      split
      · exact Nat.zero_le _
      · next hspecial => exact hpays.single c (Bool.not_eq_true _ ▸ hspecial)
    rw [List.map_cons, List.sum_cons]
    exact Nat.add_le_add_right hle _

/-- Tokens are paid by what spells them. -/
theorem Spells.weight_le (h : Spells text ts) (hpays : Pays μ φ text) :
    (ts.map (Token.weight μ)).sum ≤ (text.map φ).sum := by
  induction h with
  | nil => exact Nat.le_refl _
  | cons hreads _ ih =>
    obtain ⟨c, used, htext⟩ := hreads.suffix
    have hrest := ih (hpays.suffix (htext ▸ List.suffix_append _ _))
    have ht := hreads.weight_le hpays
    rw [List.map_cons, List.sum_cons]
    omega

theorem single_dup {c : Char} {lo : Nat} {hi : Option Nat} (h : single c = .dup lo hi) :
    lo ≤ 1 := by
  unfold single at h
  repeat' split at h
  all_goals cases h <;> decide

/-- Without a brace no repetition is of more than one copy. -/
theorem Spells.dup_le_one (h : Spells text ts) (hbrace : '{' ∉ text) {lo : Nat} {hi : Option Nat}
    (hdup : .dup lo hi ∈ ts) : lo ≤ 1 := by
  induction h with
  | nil => cases hdup
  | cons hreads _ ih =>
    obtain ⟨c, used, htext⟩ := hreads.suffix
    rcases List.mem_cons.mp hdup with hdup | hdup
    · generalize hi? : Token.dup lo hi = t at hdup
      subst hdup
      cases hreads with
      | quoted => cases hi?
      | bracket => cases hi?
      | interval => exact absurd List.mem_cons_self hbrace
      | single => exact single_dup hi?.symm
    · exact ih (fun hmem => hbrace (htext ▸ List.mem_append_right _ hmem)) hdup

/-- What the pieces of a group need. -/
def Frame.weight (μ : Scale Char) (f : Frame) : Nat :=
  f.branches.elim 0 (Expr.weight μ) + f.front.weight μ + f.last.elim 0 fun last => last.1.weight μ

def Parser.weight (μ : Scale Char) (s : Parser) : Nat :=
  s.frame.weight μ + (s.outer.map (Frame.weight μ)).sum

theorem Frame.branch_weight (μ : Scale Char) (f : Frame) :
    f.branches.elim 0 (Expr.weight μ) + f.branch.weight μ = f.weight μ := by
  unfold branch weight
  cases f.last with
  | none => rfl
  | some last => exact (Nat.add_assoc _ _ _).symm

theorem Frame.push_weight (f : Frame) (e : Expr Char) (repeatable : Bool) :
    (f.push e repeatable).weight μ = f.weight μ + e.weight μ := by
  rw [← f.branch_weight μ]
  rfl

theorem Frame.group_weight (μ : Scale Char) {f : Frame} {e : Expr Char} (h : f.group = some e) :
    e.weight μ ≤ f.weight μ := by
  have hbranch := f.branch_weight μ
  unfold group at h
  split at h
  · cases h
  · split at h
    · next hnone =>
      cases h
      rw [hnone] at hbranch
      rw [← hbranch]
      exact Nat.le_add_left _ _
    · next hsome =>
      cases h
      rw [hsome] at hbranch
      rw [← hbranch]
      exact max_le (Nat.le_add_right _ _) (Nat.le_add_left _ _)

theorem Frame.dup_weight {f f' : Frame} {lo : Nat} {hi : Option Nat} (h : f.dup lo hi = some f')
    (hlo : lo ≤ 1 ∨ f.weight μ = 0) : f'.weight μ ≤ f.weight μ := by
  unfold dup at h
  split at h
  · next e hlast =>
    cases h
    have hle : max lo 1 * e.weight μ ≤ e.weight μ := by
      rcases hlo with hlo | hzero
      · rw [max_eq_right hlo, Nat.one_mul]
      · rw [weight, hlast, Option.elim_some] at hzero
        rw [(Nat.add_eq_zero_iff.mp hzero).2]
        exact Nat.le_refl _
    unfold weight
    rw [hlast]
    exact Nat.add_le_add_left hle _
  · cases h

theorem Parser.push_weight (s : Parser) (e : Expr Char) (repeatable : Bool) :
    (s.push e repeatable).weight μ = s.weight μ + e.weight μ := by
  simp only [push, weight, Frame.push_weight]
  omega

theorem Parser.close_weight {s s' : Parser} (h : s.close = some s') :
    s'.weight μ ≤ s.weight μ + μ.letter ')' := by
  unfold close at h
  split at h
  · cases h
    exact (push_weight _ _ _).le
  · next houter =>
    obtain ⟨e, hgroup, h⟩ := Option.map_eq_some_iff.mp h
    cases h
    have hle := Frame.group_weight μ hgroup
    simp only [weight, houter, Frame.push_weight, List.map_cons, List.sum_cons]
    omega

/-- A token adds no more to the weight than its own. -/
theorem Parser.step_weight (μ : Scale Char) {s s' : Parser} {t : Token} (h : s.step t = some s')
    (hdup : ∀ lo hi, t = .dup lo hi → lo ≤ 1 ∨ s.weight μ = 0) :
    s'.weight μ ≤ s.weight μ + t.weight μ := by
  cases t with
  | one c => cases h; exact (push_weight _ _ _).le
  | any => cases h; exact (push_weight _ _ _).le
  | bracket p => cases h; exact (push_weight _ _ _).le
  | bol => cases h; exact (push_weight _ _ _).le
  | eol => cases h; exact (push_weight _ _ _).le
  | opening =>
    cases h
    simp only [Parser.weight, List.map_cons, List.sum_cons]
    change 0 + _ ≤ _
    omega
  | closing => exact close_weight h
  | bar =>
    obtain ⟨e, hgroup, h⟩ := Option.map_eq_some_iff.mp h
    cases h
    have hle := Frame.group_weight μ hgroup
    exact Nat.add_le_add_right hle _
  | dup lo hi =>
    obtain ⟨f, hf, h⟩ := Option.map_eq_some_iff.mp h
    cases h
    refine Nat.add_le_add_right (Frame.dup_weight hf ((hdup lo hi rfl).imp_right fun hzero => ?_)) _
    exact (Nat.add_eq_zero_iff.mp hzero).1

theorem Parser.run_weight (μ : Scale Char) {s s' : Parser} (h : ts.foldlM step s = some s')
    (hdup : ∀ lo hi, .dup lo hi ∈ ts → lo ≤ 1 ∨ s.weight μ + (ts.map (Token.weight μ)).sum = 0) :
    s'.weight μ ≤ s.weight μ + (ts.map (Token.weight μ)).sum := by
  induction ts generalizing s with
  | nil =>
    cases h
    exact Nat.le_refl _
  | cons t ts ih =>
    rw [List.foldlM_cons] at h
    obtain ⟨s₁, hstep, hrun⟩ := Option.bind_eq_some_iff.mp h
    rw [List.map_cons, List.sum_cons] at hdup ⊢
    have hs₁ := step_weight μ hstep fun lo hi ht =>
      (hdup lo hi (ht ▸ List.mem_cons_self)).imp_right fun hzero => by omega
    have hs' := ih hrun fun lo hi hmem =>
      (hdup lo hi (List.mem_cons_of_mem _ hmem)).imp_right fun hzero => by omega
    omega

/-- An expression needs no more than the characters that spell it pay, if no repetition is
of more than one copy or the characters pay nothing. -/
theorem parse_weight_le {e : Expr Char} (h : parse text = some e) (hpays : Pays μ φ text)
    (hbrace : '{' ∉ text ∨ (text.map φ).sum = 0) : e.weight μ ≤ (text.map φ).sum := by
  obtain ⟨ts, hlex, h⟩ := Option.bind_eq_some_iff.mp h
  obtain ⟨s, hrun, h⟩ := Option.bind_eq_some_iff.mp h
  have hspells := lex_spells hlex
  have hle := hspells.weight_le hpays
  have hs := Parser.run_weight μ hrun fun lo hi hmem => hbrace.imp
    (fun hbrace => hspells.dup_le_one hbrace hmem) fun hzero => by
      change 0 + _ = 0
      omega
  obtain ⟨-, hgroup⟩ := Option.ite_none_right_eq_some.mp h
  have he := Frame.group_weight μ hgroup
  change s.frame.weight μ + _ ≤ 0 + _ at hs
  omega

end Weights

end Ere
