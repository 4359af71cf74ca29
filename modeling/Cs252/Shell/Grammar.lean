import Cs252.Shell.Parser

/-!
# Cs252.Shell.Grammar

The grammar of `lab3-src/shell.y`, and the lines the parser accepts.

Each nonterminal is a predicate on the tokens it derives, one constructor per
rule. `Reads` describes the tokens read so far by the parser state they lead
to. Every token keeps it, so the parser accepts exactly the lines of the
grammar (`accepts_iff`).
-/

namespace Cs252.Shell

/-! ### The rules -/

/-- `argument_list`. -/
inductive ArgumentList : List Token → Prop
  | empty : ArgumentList []
  | argument {ts : List Token} {text : String} :
      ArgumentList ts → ArgumentList (ts ++ [.word text])

/-- `command_and_args`. -/
inductive CommandAndArgs : List Token → Prop
  | mk {ts : List Token} {text : String} : ArgumentList ts → CommandAndArgs (.word text :: ts)

/-- `pipe_list`. -/
inductive PipeList : List Token → Prop
  | single {ts : List Token} : CommandAndArgs ts → PipeList ts
  | pipe {ts us : List Token} : PipeList ts → CommandAndArgs us → PipeList (ts ++ .pipe :: us)

/-- `iomodifier_opt`. -/
inductive IomodifierOpt : List Token → Prop
  | mk {op : IoModifier} {text : String} : IomodifierOpt [.io op, .word text]

/-- `iomodifier_list`. -/
inductive IomodifierList : List Token → Prop
  | empty : IomodifierList []
  | modifier {ts us : List Token} :
      IomodifierList ts → IomodifierOpt us → IomodifierList (ts ++ us)

/-- `background_opt`. -/
inductive BackgroundOpt : List Token → Prop
  | empty : BackgroundOpt []
  | ampersand : BackgroundOpt [.ampersand]

/-- The lines of `simple_command` that are not rejected. -/
inductive WellFormedLine : List Token → Prop
  | command {ts us vs : List Token} : PipeList ts → IomodifierList us → BackgroundOpt vs →
      WellFormedLine (ts ++ us ++ vs)
  | newline : WellFormedLine []

/-! ### What has been read -/

/-- The tokens that lead to a state. -/
def Reads : LineState → List Token → Prop
  | .lineStart, line => line = []
  | .arguments, line => PipeList line
  | .pipe, line => ∃ ts, PipeList ts ∧ line = ts ++ [.pipe]
  | .modifiers, line => ∃ ts us, PipeList ts ∧ IomodifierList us ∧ line = ts ++ us
  | .operator op, line => ∃ ts us, PipeList ts ∧ IomodifierList us ∧ line = ts ++ us ++ [.io op]
  | .background, line => ∃ ts us, PipeList ts ∧ IomodifierList us ∧ line = ts ++ us ++ [.ampersand]
  | .error, _ => True

theorem PipeList.word {line : List Token} (h : PipeList line) (text : String) :
    PipeList (line ++ [.word text]) := by
  cases h with
  | single hcommand =>
    obtain ⟨hargs⟩ := hcommand
    exact .single (.mk hargs.argument)
  | @pipe ts us hlist hcommand =>
    obtain ⟨hargs⟩ := hcommand
    rw [List.append_assoc]
    exact .pipe hlist (.mk hargs.argument)

/-- One more token. -/
theorem reads_snoc {st : LineState} {line : List Token} (h : Reads st line) (t : Token) :
    Reads (st.next t) (line ++ [t]) := by
  cases st with
  | lineStart =>
    obtain rfl := h
    cases t with
    | word text => exact .single (.mk .empty)
    | _ => trivial
  | arguments =>
    cases t with
    | word text => exact h.word text
    | io op => exact ⟨line, [], h, .empty, by simp⟩
    | pipe => exact ⟨line, h, rfl⟩
    | ampersand => exact ⟨line, [], h, .empty, by simp⟩
  | pipe =>
    obtain ⟨ts, hts, rfl⟩ := h
    cases t with
    | word text =>
      rw [List.append_assoc]
      exact .pipe hts (.mk .empty)
    | _ => trivial
  | modifiers =>
    obtain ⟨ts, us, hts, hus, rfl⟩ := h
    cases t with
    | io op => exact ⟨ts, us, hts, hus, rfl⟩
    | ampersand => exact ⟨ts, us, hts, hus, rfl⟩
    | _ => trivial
  | operator op =>
    obtain ⟨ts, us, hts, hus, rfl⟩ := h
    cases t with
    | word text => exact ⟨ts, us ++ [.io op, .word text], hts, hus.modifier .mk, by simp⟩
    | _ => trivial
  | background => cases t <;> trivial
  | error => cases t <;> trivial

/-- Every line leads to the state that describes it. -/
theorem reads_foldl {st : LineState} {pre line : List Token} (h : Reads st pre) :
    Reads (line.foldl LineState.next st) (pre ++ line) := by
  induction line generalizing st pre with
  | nil => simpa using h
  | cons t line ih => simpa using ih (reads_snoc h t)

/-! ### Acceptance -/

theorem foldl_argumentList {ts : List Token} (h : ArgumentList ts) :
    ts.foldl LineState.next .arguments = .arguments := by
  induction h with
  | empty => rfl
  | argument _ ih =>
    rw [List.foldl_append, ih]
    rfl

theorem foldl_commandAndArgs {ts : List Token} (h : CommandAndArgs ts) {st : LineState}
    (hst : ∀ text, st.next (.word text) = .arguments) :
    ts.foldl LineState.next st = .arguments := by
  obtain ⟨hargs⟩ := h
  rw [List.foldl_cons, hst]
  exact foldl_argumentList hargs

theorem foldl_pipeList {ts : List Token} (h : PipeList ts) :
    ts.foldl LineState.next .lineStart = .arguments := by
  induction h with
  | single hcommand => exact foldl_commandAndArgs hcommand fun _ => rfl
  | pipe _ hcommand ih =>
    rw [List.foldl_append, ih, List.foldl_cons]
    exact foldl_commandAndArgs hcommand fun _ => rfl

theorem foldl_iomodifierList {us : List Token} (h : IomodifierList us) :
    us = [] ∨ us.foldl LineState.next .arguments = .modifiers := by
  induction h with
  | empty => exact Or.inl rfl
  | modifier _ hmodifier ih =>
    right
    obtain ⟨op, text⟩ := hmodifier
    rw [List.foldl_append]
    rcases ih with rfl | ih
    · rfl
    · rw [ih]
      rfl

/-- **The parser accepts the lines of the grammar.** -/
theorem accepts_iff {line : List Token} : accepts line = true ↔ WellFormedLine line := by
  constructor
  · intro h
    have hreads : Reads (line.foldl LineState.next .lineStart) ([] ++ line) :=
      reads_foldl (show Reads .lineStart [] from rfl)
    rw [List.nil_append] at hreads
    rw [accepts] at h
    cases hst : line.foldl LineState.next .lineStart with
    | lineStart =>
      rw [hst] at hreads
      obtain rfl := hreads
      exact .newline
    | arguments =>
      rw [hst] at hreads
      simpa using WellFormedLine.command hreads .empty .empty
    | modifiers =>
      rw [hst] at hreads
      obtain ⟨ts, us, hts, hus, rfl⟩ := hreads
      simpa using WellFormedLine.command hts hus .empty
    | background =>
      rw [hst] at hreads
      obtain ⟨ts, us, hts, hus, rfl⟩ := hreads
      exact .command hts hus .ampersand
    | _ =>
      rw [hst] at h
      cases h
  · intro h
    cases h with
    | newline => rfl
    | command hts hus hvs =>
      rw [accepts, List.foldl_append, List.foldl_append, foldl_pipeList hts]
      rcases foldl_iomodifierList hus with rfl | hmodifiers
      · cases hvs <;> rfl
      · rw [hmodifiers]
        cases hvs <;> rfl

instance : DecidablePred WellFormedLine := fun _ => decidable_of_iff _ accepts_iff

end Cs252.Shell
