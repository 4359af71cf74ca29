import Cs252.Http.Survival

/-!
# Cs252.Http.LineStream

What `socket_read_line` makes of a stream, called until it returns an empty line.

`lineCall` is one call with the stores into the line buffer one at a time. The
buffer has one byte more than `max_length`, for the terminator; no store is outside
of it, and what the pointer returned points to is the line of `socketReadLine`
(`lineCall_eq`).

Nothing of a stream is lost (`LosesNothing`) if it is made of ASCII characters and
no line of it has more than `2 ^ 30` bytes: a byte 255 is taken for the end of the
stream, the bytes 128 to 254 for an error, and an `int` does not count past the last
doubling.
-/

namespace Cs252.Http

/-! ### One call -/

/-- The buffer of a line. -/
structure LineBuffer where
  maxLength : Nat
  cells : List (Option UInt8)
  pos : 0 < maxLength
  allocated : cells.length = maxLength + 1

namespace LineBuffer

/-- The buffer at the start. -/
def start : LineBuffer where
  maxLength := initLineSize
  cells := List.replicate (initLineSize + 1) none
  pos := by decide
  allocated := List.length_replicate

/-- Twice the buffer. `realloc` refuses a size that is negative as an `int`, and the next
store goes to `NULL`. -/
def double (line : LineBuffer) : Except Fault LineBuffer :=
  if 0 ≤ asInt (2 * line.maxLength) then
    .ok {
      maxLength := 2 * line.maxLength
      cells := line.cells ++ List.replicate line.maxLength none
      pos := Nat.mul_pos (by decide) line.pos
      allocated := by rw [List.length_append, List.length_replicate, line.allocated]; omega }
  else .error .null

/-- Room for a character at the index `i`. -/
def room (line : LineBuffer) (i : Nat) : Except Fault LineBuffer :=
  if line.maxLength ≤ i then line.double else .ok line

/-- `line[i] = c`. -/
def store (line : LineBuffer) (i : Nat) (c : UInt8) : Except Fault LineBuffer :=
  if i < line.maxLength + 1 then
    .ok { line with
      cells := line.cells.set i (some c)
      allocated := by rw [List.length_set, line.allocated] }
  else .error .outside

/-- The two characters before the index `i` are the end of a line. -/
def endsAt (line : LineBuffer) (i : Nat) : Bool :=
  2 ≤ i && line.cells[i - 2]? = some (some 13) && line.cells[i - 1]? = some (some 10)

end LineBuffer

/-- The loop of `socket_read_line`, over the bytes of the client: the buffer and the
number of characters in it, and the bytes that are left. -/
def lineLoop (line : LineBuffer) (i : Nat) :
    List UInt8 → Except Fault (Option (LineBuffer × Nat) × List UInt8)
  | [] => .ok (some (line, i), [])
  | c :: rest =>
    if line.endsAt i then .ok (some (line, i), c :: rest)
    -- `c == EOF`
    else if c = 255 then .ok (some (line, i), rest)
    -- `c < 0`
    else if 128 ≤ c then .ok (none, rest)
    else do
      let line ← line.room i
      let line ← line.store i c
      lineLoop line (i + 1) rest

/-- The string at the beginning of memory. -/
def stringAt : List (Option UInt8) → Except Fault (List UInt8)
  | [] => .error .outside
  | none :: _ => .error .unset
  | some c :: cells => if c = 0 then .ok [] else return c :: (← stringAt cells)

/-- `socket_read_line`: the string that is returned, or `NULL`. -/
def lineCall (input : List UInt8) : Except Fault (Option (List UInt8) × List UInt8) := do
  match ← lineLoop .start 0 input with
  | (none, rest) => return (none, rest)
  | (some (line, i), rest) => do
    let line ← line.store i 0
    let string ← stringAt line.cells
    return (some string, rest)

namespace LineBuffer

variable {b : LineBuffer} {text : List UInt8}

/-- The buffer begins with a text, and has room for it. -/
structure Holds (b : LineBuffer) (text : List UInt8) : Prop where
  le : text.length ≤ b.maxLength
  cells : text.map some <+: b.cells

theorem holds_start : start.Holds [] := ⟨Nat.zero_le _, List.nil_prefix⟩

/-- The buffer is doubled where `lineRoom` doubles its size. -/
theorem Holds.room (h : b.Holds text) :
    (∃ fault, b.room text.length = .error fault ∧
      lineRoom b.maxLength text.length = .error fault) ∨
    ∃ b', b.room text.length = .ok b' ∧ lineRoom b.maxLength text.length = .ok b'.maxLength ∧
      text.length < b'.maxLength ∧ b'.Holds text := by
  unfold LineBuffer.room lineRoom
  by_cases hfull : b.maxLength ≤ text.length
  · rw [if_pos hfull, if_pos hfull, double]
    split
    · have hpos := b.pos
      have hlt : text.length < 2 * b.maxLength := by
        have := h.le
        omega
      exact Or.inr ⟨_, rfl, rfl, hlt, hlt.le, h.cells.trans (List.prefix_append _ _)⟩
    · exact Or.inl ⟨_, rfl, rfl⟩
  · rw [if_neg hfull, if_neg hfull]
    exact Or.inr ⟨b, rfl, rfl, Nat.lt_of_not_le hfull, h⟩

/-- A store behind the text is in the buffer. -/
theorem Holds.store (h : b.Holds text) (c : UInt8) :
    ∃ b', b.store text.length c = .ok b' ∧ b'.maxLength = b.maxLength ∧
      (text ++ [c]).map some <+: b'.cells := by
  refine ⟨_, if_pos (Nat.lt_succ_of_le h.le), rfl, ?_⟩
  have hlt : (text.map some).length < b.cells.length := by
    rw [List.length_map, b.allocated]
    exact Nat.lt_succ_of_le h.le
  have hstored := concat_isPrefix_set h.cells hlt (some c)
  rwa [List.length_map, ← List.map_singleton, ← List.map_append] at hstored

/-- The test of the loop is that of `readLine`. -/
theorem Holds.endsAt_eq (h : b.Holds text) : b.endsAt text.length = endsLine text := by
  obtain ⟨cells, hcells⟩ := h.cells
  by_cases hshort : text.length < 2
  · have hends : ¬endsLine text := fun hends => by
      have hle := (List.isSuffixOf_iff_suffix.mp hends).length_le
      rw [List.length_cons, List.length_singleton] at hle
      omega
    rw [endsAt, decide_eq_false (by omega), Bool.eq_false_iff.mpr hends]
    rfl
  · obtain ⟨front, x, y, rfl⟩ : ∃ front x y, text = front ++ [x, y] := by
      rcases List.eq_nil_or_concat text with rfl | ⟨init, y, rfl⟩
      · exact absurd (by decide) hshort
      rcases List.eq_nil_or_concat init with rfl | ⟨front, x, rfl⟩
      · exact absurd (by simp) hshort
      exact ⟨front, x, y, by simp⟩
    have hends : endsLine (front ++ [x, y]) = decide (x = 13 ∧ y = 10) := by
      rw [endsLine, Bool.eq_iff_iff, List.isSuffixOf_iff_suffix, decide_eq_true_iff]
      constructor
      · rintro ⟨init, hinit⟩
        obtain ⟨-, hlast⟩ := List.append_inj' hinit rfl
        cases hlast
        exact ⟨rfl, rfl⟩
      · rintro ⟨rfl, rfl⟩
        exact ⟨front, rfl⟩
    have hx : b.cells[front.length]? = some (some x) := by
      simp [← hcells]
    have hy : b.cells[front.length + 1]? = some (some y) := by
      simp [← hcells]
    rw [hends, endsAt, List.length_append]
    simp [hx, hy]

end LineBuffer

/-- How an outcome of the loop is one of `readLine`. -/
inductive Matches : Except Fault (Option (LineBuffer × Nat) × List UInt8) →
    Except Fault (Option (List UInt8) × List UInt8) → Prop
  | fault (fault : Fault) : Matches (.error fault) (.error fault)
  | null (rest : List UInt8) : Matches (.ok (none, rest)) (.ok (none, rest))
  | line {b : LineBuffer} {text : List UInt8} (rest : List UInt8) : b.Holds text →
      Matches (.ok (some (b, text.length), rest)) (.ok (some text, rest))

theorem lineLoop_matches {b : LineBuffer} {text : List UInt8} (h : b.Holds text)
    (input : List UInt8) :
    Matches (lineLoop b text.length input) (readLine b.maxLength text input) := by
  induction input generalizing b text with
  | nil => exact .line [] h
  | cons c input ih =>
    rw [lineLoop, readLine, h.endsAt_eq]
    split
    · exact .line _ h
    split
    · exact .line _ h
    split
    · exact .null _
    rcases h.room with ⟨fault, hroom, hroom'⟩ | ⟨b₁, hroom, hroom', hlt, h₁⟩
    · rw [hroom, hroom']
      exact .fault fault
    · obtain ⟨b₂, hstore, hmax, hcells⟩ := h₁.store c
      have h₂ : b₂.Holds (text ++ [c]) := by
        refine ⟨?_, hcells⟩
        rw [List.length_append, List.length_singleton, hmax]
        exact hlt
      have hnext := ih h₂
      rw [List.length_append, List.length_singleton, hmax] at hnext
      rw [hroom, hroom']
      change Matches (b₁.store text.length c >>= fun line => lineLoop line (text.length + 1) input)
        (readLine b₁.maxLength (text ++ [c]) input)
      rw [hstore]
      exact hnext

theorem stringAt_terminated (text : List UInt8) (cells : List (Option UInt8)) :
    stringAt (text.map some ++ some 0 :: cells) = .ok (text.takeWhile (· ≠ 0)) := by
  induction text with
  | nil => rfl
  | cons c text ih =>
    rw [List.map_cons, List.cons_append, stringAt]
    split
    · next hzero => rw [hzero]; rfl
    · next hne =>
      rw [ih, List.takeWhile_cons_of_pos (by simpa)]
      rfl

/-- A call returns the line of `socketReadLine` as a string. -/
theorem lineCall_eq (input : List UInt8) :
    lineCall input = (socketReadLine input).map fun x =>
      (x.1.map (·.takeWhile (· ≠ 0)), x.2) := by
  have hmatch : Matches (lineLoop .start 0 input) (socketReadLine input) :=
    lineLoop_matches LineBuffer.holds_start input
  rw [lineCall]
  generalize lineLoop .start 0 input = outcome, socketReadLine input = expected at hmatch
  cases hmatch with
  | fault fault => rfl
  | null rest => rfl
  | @line b text rest h =>
    obtain ⟨b', hstore, -, cells, hcells⟩ := h.store 0
    change (b.store text.length 0 >>= fun line => stringAt line.cells >>= fun string =>
      .ok (some string, rest)) = _
    rw [hstore]
    change (stringAt b'.cells >>= fun string => .ok (some string, rest)) = _
    rw [← hcells, List.map_append, List.append_assoc]
    exact congrArg (· >>= fun string => .ok (some string, rest)) (stringAt_terminated text cells)

/-! ### All calls -/

/-- A line that is `NULL` has taken the byte that is no character. -/
theorem readLine_length_of_null {maxLength : Nat} {line input rest : List UInt8}
    (h : readLine maxLength line input = .ok (none, rest)) : rest.length < input.length := by
  induction input generalizing maxLength line with
  | nil => cases h
  | cons c input ih =>
    rw [readLine] at h
    rw [List.length_cons]
    split at h
    · cases h
    split at h
    · cases h
    split at h
    · cases h
      exact Nat.lt_succ_self _
    · obtain ⟨maxLength', -, h⟩ := bind_eq_ok.mp h
      exact Nat.lt_succ_of_lt (ih h)

theorem lineCall_eq_ok {input rest : List UInt8} {line : Option (List UInt8)}
    (h : lineCall input = .ok (line, rest)) :
    ∃ line', socketReadLine input = .ok (line', rest) ∧
      line = line'.map (·.takeWhile (· ≠ 0)) := by
  rw [lineCall_eq] at h
  obtain ⟨⟨line', rest'⟩, hread, heq⟩ := map_eq_ok.mp h
  cases heq
  exact ⟨line', hread, rfl⟩

/-- A call takes a byte from the input, or the line is empty. -/
theorem lineCall_length {input rest : List UInt8} {line : Option (List UInt8)}
    (h : lineCall input = .ok (line, rest)) (hline : line ≠ some []) :
    rest.length < input.length := by
  obtain ⟨line', hread, rfl⟩ := lineCall_eq_ok h
  cases line' with
  | none => exact readLine_length_of_null hread
  | some text =>
    have hlength := readLine_length hread
    have hne : 0 < text.length := by
      refine List.length_pos_of_ne_nil fun hnil => hline ?_
      rw [hnil]
      rfl
    rw [List.length_nil] at hlength
    omega

/-- The calls up to the first one that returns an empty line: the strings they return. -/
def readLines (input : List UInt8) : Except Fault (List (Option (List UInt8))) :=
  match _ : lineCall input with
  | .error fault => .error fault
  | .ok (line, rest) =>
    if _ : line = some [] then .ok []
    else do
      let lines ← readLines rest
      return line :: lines
termination_by input.length
decreasing_by exact lineCall_length ‹_› ‹_›

theorem readLines_of_call {input rest : List UInt8} {line : Option (List UInt8)}
    (h : lineCall input = .ok (line, rest)) :
    readLines input = if line = some [] then .ok [] else (line :: ·) <$> readLines rest := by
  rw [readLines]
  split
  · next hcall => simp [hcall] at h
  · next line' rest' hcall =>
    obtain ⟨rfl, rfl⟩ := Prod.ext_iff.mp (Except.ok.inj (hcall.symm.trans h))
    split
    · rfl
    · cases readLines rest' <;> rfl

/-! ### The lines of a stream -/

/-- The lines of a stream, each with its line end. -/
def linesOf : List UInt8 → List (List UInt8)
  | [] => []
  | 13 :: 10 :: rest => [13, 10] :: linesOf rest
  | c :: rest =>
    match linesOf rest with
    | [] => [[c]]
    | line :: lines => (c :: line) :: lines

section Lines

variable {text rest input : List UInt8} {c : UInt8}

theorem linesOf_cons (h : ¬[13, 10] <+: c :: rest) :
    linesOf (c :: rest) =
      match linesOf rest with
      | [] => [[c]]
      | line :: lines => (c :: line) :: lines := by
  rw [linesOf]
  intro rest' hc hrest
  exact h ⟨rest', by rw [hc, hrest]; rfl⟩

/-- A stream up to its first line end. -/
theorem linesOf_append (h : ¬[13, 10] <:+: text ++ [13]) (rest : List UInt8) :
    linesOf (text ++ 13 :: 10 :: rest) = (text ++ [13, 10]) :: linesOf rest := by
  induction text with
  | nil => rw [List.nil_append, linesOf, List.nil_append]
  | cons c text ih =>
    have hpre : ¬[13, 10] <+: c :: (text ++ 13 :: 10 :: rest) := by
      intro hpre
      have hbefore : c :: (text ++ [13]) <+: c :: (text ++ 13 :: 10 :: rest) :=
        ⟨10 :: rest, by simp⟩
      exact h (List.prefix_of_prefix_length_le hpre hbefore (by simp)).isInfix
    have htail : ¬[13, 10] <:+: text ++ [13] := fun hinfix => h (List.infix_cons hinfix)
    rw [List.cons_append, linesOf_cons hpre, ih htail]
    rfl

/-- A stream without a line end is one line. -/
theorem linesOf_plain (h : ¬[13, 10] <:+: text) (hne : text ≠ []) : linesOf text = [text] := by
  induction text with
  | nil => exact absurd rfl hne
  | cons c text ih =>
    have hpre : ¬[13, 10] <+: c :: text := fun hpre => h hpre.isInfix
    rw [linesOf_cons hpre]
    cases text with
    | nil => rfl
    | cons d text =>
      rw [ih (fun hinfix => h (List.infix_cons hinfix)) (List.cons_ne_nil _ _)]

/-- A stream has a first line end, or none. -/
theorem exists_line (input : List UInt8) :
    (∃ text rest, input = text ++ 13 :: 10 :: rest ∧ ¬[13, 10] <:+: text ++ [13]) ∨
      ¬[13, 10] <:+: input := by
  induction input with
  | nil => exact Or.inr (by simp)
  | cons c input ih =>
    by_cases hpre : [13, 10] <+: c :: input
    · obtain ⟨rest, hrest⟩ := hpre
      exact Or.inl ⟨[], rest, hrest.symm, by decide⟩
    rcases ih with ⟨text, rest, rfl, htext⟩ | hnone
    · refine Or.inl ⟨c :: text, rest, rfl, fun hinfix => ?_⟩
      rcases List.infix_cons_iff.mp hinfix with hstart | hlater
      · exact hpre (hstart.trans ⟨10 :: rest, by simp⟩)
      · exact htext hlater
    · refine Or.inr fun hinfix => ?_
      rcases List.infix_cons_iff.mp hinfix with hstart | hlater
      · exact hpre hstart
      · exact hnone hlater

/-- Induction over the lines of a stream. -/
theorem lines_induction {P : List UInt8 → Prop} (plain : ∀ text, ¬[13, 10] <:+: text → P text)
    (line : ∀ text rest, ¬[13, 10] <:+: text ++ [13] → P rest → P (text ++ 13 :: 10 :: rest))
    (input : List UInt8) : P input := by
  induction hn : input.length using Nat.strongRecOn generalizing input with
  | ind n ih =>
    rcases exists_line input with ⟨text, rest, rfl, htext⟩ | hnone
    · refine line text rest htext (ih rest.length ?_ rest rfl)
      rw [← hn, List.length_append, List.length_cons, List.length_cons]
      omega
    · exact plain input hnone

/-! ### Nothing is lost -/

/-- The calls return strings that make up the stream. All but the last one end with a
line end, and have none before. -/
def LosesNothing (input : List UInt8) : Prop :=
  ∃ lines : List (List UInt8), readLines input = .ok (lines.map some) ∧
    lines.flatten = input ∧
    ∀ line ∈ lines.dropLast, [13, 10] <:+ line ∧ ¬[13, 10] <:+: line.dropLast

/-- The lines of a stream make it up. -/
theorem flatten_linesOf (input : List UInt8) : (linesOf input).flatten = input := by
  induction input using lines_induction with
  | plain text htext =>
    by_cases hne : text = []
    · rw [hne]
      rfl
    · rw [linesOf_plain htext hne, List.flatten_singleton]
  | line text rest htext ih =>
    rw [linesOf_append htext, List.flatten_cons, ih]
    simp

theorem linesOf_ends (input : List UInt8) :
    ∀ line ∈ (linesOf input).dropLast, [13, 10] <:+ line ∧ ¬[13, 10] <:+: line.dropLast := by
  induction input using lines_induction with
  | plain text htext =>
    by_cases hne : text = []
    · rw [hne]
      exact fun line hline => absurd hline List.not_mem_nil
    · rw [linesOf_plain htext hne]
      exact fun line hline => absurd hline List.not_mem_nil
  | line text rest htext ih =>
    rw [linesOf_append htext]
    intro line hline
    have hfirst : [13, 10] <:+ text ++ [13, 10] ∧ ¬[13, 10] <:+: (text ++ [13, 10]).dropLast := by
      rw [List.append_cons text, List.dropLast_concat]
      exact ⟨⟨text, by simp⟩, htext⟩
    cases hrest : linesOf rest with
    | nil =>
      rw [hrest] at hline
      exact absurd hline List.not_mem_nil
    | cons next lines =>
      rw [hrest, List.dropLast_cons_cons] at hline
      rcases List.mem_cons.mp hline with rfl | hline
      · exact hfirst
      · exact ih line (hrest ▸ hline)

/-- A call that returns a line without zero bytes. -/
theorem lineCall_of_line {line : List UInt8} (h : socketReadLine input = .ok (some line, rest))
    (hnul : 0 ∉ line) : lineCall input = .ok (some line, rest) := by
  rw [lineCall_eq, h, Except.map, Option.map_some, takeWhile_ne_self hnul]

theorem readLines_of_wireLine {line : List UInt8} (h : WireLine line input rest)
    (hle : line.length ≤ 2 ^ 30) (hnul : 0 ∉ line) (hne : line ≠ []) :
    readLines input = (some line :: ·) <$> readLines rest := by
  rw [readLines_of_call (lineCall_of_line (readLine_of_wireLine h hle) hnul), if_neg]
  exact fun h => hne (Option.some.inj h)

theorem readLines_nil : readLines [] = .ok [] := by
  have hcall : lineCall [] = .ok (some [], []) := lineCall_of_line rfl List.not_mem_nil
  rw [readLines_of_call hcall, if_pos rfl]

/-- ASCII lines that fit are read one by one. -/
theorem readLines_eq (hascii : ∀ c ∈ input, c < 128) (hnul : 0 ∉ input)
    (hle : ∀ line ∈ linesOf input, line.length ≤ 2 ^ 30) :
    readLines input = .ok ((linesOf input).map some) := by
  induction input using lines_induction with
  | plain text htext =>
    by_cases hne : text = []
    · rw [hne]
      exact readLines_nil
    · rw [linesOf_plain htext hne] at hle ⊢
      rw [readLines_of_wireLine (.closed ⟨hascii, htext⟩) (hle text List.mem_cons_self) hnul hne,
        readLines_nil]
      rfl
  | line text rest htext ih =>
    rw [linesOf_append htext] at hle ⊢
    have hline : text ++ 13 :: 10 :: rest = (text ++ [13, 10]) ++ rest := by simp
    have hplain : Plain (text ++ [13]) := by
      refine ⟨fun c hc => hascii c ?_, htext⟩
      rw [List.append_cons]
      exact List.mem_append_left _ hc
    rw [hline] at hascii hnul
    obtain ⟨hfirst, hrest⟩ := List.forall_mem_cons.mp hle
    rw [readLines_of_wireLine (.crlf hplain) hfirst
      (fun hmem => hnul (List.mem_append_left _ hmem)) (by simp),
      ih (fun c hc => hascii c (List.mem_append_right _ hc))
        (fun hmem => hnul (List.mem_append_right _ hmem)) hrest]
    rfl

/-- The bytes of a line and those after it are bytes of the input. -/
theorem WireLine.input_eq {line : List UInt8} (h : WireLine line input rest) :
    ∃ ended, input = line ++ ended ++ rest := by
  cases h with
  | crlf => exact ⟨[], by simp⟩
  | eof => exact ⟨[255], by simp⟩
  | closed => exact ⟨[], by simp⟩

theorem readLines_eq_ok {lines : List (Option (List UInt8))} (h : readLines input = .ok lines)
    (hne : lines ≠ []) : ∃ line rest lines', lineCall input = .ok (line, rest) ∧
      readLines rest = .ok lines' ∧ lines = line :: lines' := by
  rw [readLines] at h
  split at h
  · cases h
  · next line rest hcall =>
    split at h
    · cases h
      exact absurd rfl hne
    · obtain ⟨lines', hread, h⟩ := bind_eq_ok.mp h
      exact ⟨line, rest, lines', hcall, hread, (Except.ok.inj h).symm⟩

/-- The first string that is returned is the line on the wire. -/
theorem readLines_cons {line : List UInt8} {lines : List (List UInt8)} (hnul : 0 ∉ input)
    (h : readLines input = .ok ((line :: lines).map some)) :
    ∃ rest, WireLine line input rest ∧ line.length ≤ 2 ^ 30 ∧ 0 ∉ rest ∧
      readLines rest = .ok (lines.map some) := by
  obtain ⟨line', rest, lines', hcall, hread, heq⟩ := readLines_eq_ok h (List.cons_ne_nil _ _)
  obtain ⟨rfl, rfl⟩ := List.cons.inj heq
  obtain ⟨found, hsocket, hfound⟩ := lineCall_eq_ok hcall
  obtain ⟨text, rfl, htext⟩ := Option.map_eq_some_iff.mp hfound.symm
  have hplain : Plain [] := ⟨fun _ h => absurd h List.not_mem_nil, by simp⟩
  have hroom : Room initLineSize ([] : List UInt8).length := ⟨Nat.zero_le _, 4, by decide, rfl⟩
  obtain ⟨hwire, hle⟩ := wireLine_of_readLine hplain hroom hsocket
  rw [List.nil_append] at hwire
  obtain ⟨ended, hinput⟩ := hwire.input_eq
  rw [hinput, List.mem_append, List.mem_append, not_or, not_or] at hnul
  -- the string ends where the buffer does
  have hsame : text = line := by
    rw [← htext]
    exact (takeWhile_ne_self hnul.1.1).symm
  rw [hsame] at hwire hle
  exact ⟨rest, hwire, hle, hnul.2, hread⟩

/-- No more is returned than there was. -/
theorem flatten_length_le {lines : List (List UInt8)} (hnul : 0 ∉ input)
    (h : readLines input = .ok (lines.map some)) : lines.flatten.length ≤ input.length := by
  induction lines generalizing input with
  | nil => exact Nat.zero_le _
  | cons line lines ih =>
    obtain ⟨rest, hwire, -, hrest, hread⟩ := readLines_cons hnul h
    obtain ⟨ended, hinput⟩ := hwire.input_eq
    have hle := ih hrest hread
    rw [hinput, List.flatten_cons, List.length_append, List.length_append, List.length_append]
    omega

/-- What is read without a loss has no byte that a signed character makes negative, and
fits the buffer. -/
theorem ascii_of_readLines {lines : List (List UInt8)} (hnul : 0 ∉ input)
    (h : readLines input = .ok (lines.map some)) (hflat : lines.flatten = input) :
    (∀ c ∈ input, c < 128) ∧ ∀ line ∈ linesOf input, line.length ≤ 2 ^ 30 := by
  induction lines generalizing input with
  | nil =>
    rw [← hflat]
    exact ⟨fun _ h => absurd h List.not_mem_nil, fun _ h => absurd h List.not_mem_nil⟩
  | cons line lines ih =>
    obtain ⟨rest, hwire, hle, hrest, hread⟩ := readLines_cons hnul h
    rw [List.flatten_cons] at hflat
    cases hwire with
    | @crlf text rest hplain =>
      have hflat : lines.flatten = rest := by simpa using hflat
      obtain ⟨hascii, hfits⟩ := ih hrest hread hflat
      rw [linesOf_append hplain.2]
      refine ⟨fun c hc => ?_, List.forall_mem_cons.mpr ⟨hle, hfits⟩⟩
      rw [List.append_cons, List.mem_append, List.mem_cons] at hc
      rcases hc with hc | rfl | hc
      · exact hplain.1 c hc
      · decide
      · exact hascii c hc
    | eof hplain =>
      -- the byte 255 is gone, and no later call brings it back
      have hlength := flatten_length_le hrest hread
      rw [List.append_cancel_left hflat, List.length_cons] at hlength
      omega
    | closed hplain =>
      refine ⟨hplain.1, fun line' hline' => ?_⟩
      by_cases hne : line = []
      · rw [hne] at hline'
        exact absurd hline' List.not_mem_nil
      · rw [linesOf_plain hplain.2 hne, List.mem_singleton] at hline'
        rwa [hline']

/-- **Line reading loses nothing** exactly if the stream is made of ASCII characters and
no line of it has more than `2 ^ 30` bytes. -/
theorem losesNothing_iff (hnul : 0 ∉ input) :
    LosesNothing input ↔
      (∀ c ∈ input, c < 128) ∧ ∀ line ∈ linesOf input, line.length ≤ 2 ^ 30 := by
  constructor
  · rintro ⟨lines, hread, hflat, -⟩
    exact ascii_of_readLines hnul hread hflat
  · rintro ⟨hascii, hle⟩
    exact ⟨linesOf input, readLines_eq hascii hnul hle, flatten_linesOf input, linesOf_ends input⟩

/-- A stream with a line end in it, and a last line without one. -/
theorem losesNothing_get : LosesNothing (ascii "GET /\r\n\nx") :=
  (losesNothing_iff (by decide)).mpr ⟨by decide +kernel, by decide⟩

/-- The byte 255 is not read, and one of 128 to 254 makes a line `NULL`. -/
theorem not_losesNothing :
    readLines (ascii "a" ++ 255 :: ascii "\r\n") = .ok [some (ascii "a"), some (ascii "\r\n")] ∧
    ¬LosesNothing (ascii "a" ++ 255 :: ascii "\r\n") ∧
    readLines (ascii "caf" ++ 233 :: ascii "\r\n") = .ok [none, some (ascii "\r\n")] ∧
    ¬LosesNothing (ascii "caf" ++ 233 :: ascii "\r\n") := by
  have hcrlf : readLines (ascii "\r\n") = .ok [some (ascii "\r\n")] := by
    have hcall : lineCall (ascii "\r\n") = .ok (some (ascii "\r\n"), []) := rfl
    rw [readLines_of_call hcall, readLines_nil]
    rfl
  have heof : readLines (ascii "a" ++ 255 :: ascii "\r\n") =
      .ok [some (ascii "a"), some (ascii "\r\n")] := by
    have hcall : lineCall (ascii "a" ++ 255 :: ascii "\r\n") =
      .ok (some (ascii "a"), ascii "\r\n") := rfl
    rw [readLines_of_call hcall, hcrlf]
    rfl
  have hnull : readLines (ascii "caf" ++ 233 :: ascii "\r\n") =
      .ok [none, some (ascii "\r\n")] := by
    have hcall : lineCall (ascii "caf" ++ 233 :: ascii "\r\n") = .ok (none, ascii "\r\n") := rfl
    rw [readLines_of_call hcall, hcrlf]
    rfl
  refine ⟨heof, ?_, hnull, ?_⟩
  · rintro ⟨lines, hread, hflat, -⟩
    have hlines : lines = [ascii "a", ascii "\r\n"] := by
      refine List.map_injective_iff.mpr (fun _ _ => Option.some.inj) ?_
      exact Except.ok.inj (hread.symm.trans heof)
    rw [hlines] at hflat
    exact absurd hflat (by decide)
  · rintro ⟨lines, hread, -⟩
    have hmem : none ∈ lines.map some := by
      rw [Except.ok.inj (hread.symm.trans hnull)]
      exact List.mem_cons_self
    obtain ⟨_, -, h⟩ := List.mem_map.mp hmem
    cases h

end Lines

end Cs252.Http
