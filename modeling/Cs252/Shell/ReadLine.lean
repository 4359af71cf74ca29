import Cs252.Lib.CString

/-!
# Cs252.Shell.ReadLine

The line editor of `lab3-src/read-line.c`.

`readLine` reads characters until a line is ended. The static variables stay from one
line to the next: the buffer, the history and the place in it. The length is an `int`
that a backspace counts down, whatever it is, and a store outside of the buffer is a
fault. What is echoed to the terminal is left out.

On the other side there are keys, and the line that they make of an empty one. As long
as a key does not meet the edges of the line, the buffer begins with that line
(`Holds`), key after key.
-/

namespace Cs252.ReadLine

/-- `MAX_BUFFER_LINE`. -/
def maxBufferLine : Nat := 2048

/-! ### The editor -/

/-- `history`, and `history_index`. -/
structure History where
  lines : List CString
  index : Nat
  lt : index < lines.length
  short : ∀ line ∈ lines, line.length < maxBufferLine - 2

namespace History

/-- `history[history_index]`. -/
def current (history : History) : CString := history.lines.get ⟨history.index, history.lt⟩

/-- `history_index = (history_index + 1) % history_length`. -/
def next (history : History) : History where
  lines := history.lines
  index := (history.index + 1) % history.lines.length
  lt := Nat.mod_lt _ (Nat.zero_lt_of_lt history.lt)
  short := history.short

theorem length_current_lt (history : History) : history.current.length < maxBufferLine - 2 :=
  history.short _ (List.get_mem _ _)

end History

/-- `line_length`, `line_buffer` and the history. -/
structure Editor where
  lineLength : Int
  lineBuffer : List UInt8
  size : lineBuffer.length = maxBufferLine
  history : History

namespace Editor

/-- `line_buffer[i] = c`. -/
def store (s : Editor) (i : Int) (c : UInt8) : Option Editor :=
  if 0 ≤ i ∧ i < maxBufferLine then
    some { s with
      lineBuffer := s.lineBuffer.set i.toNat c
      size := by rw [List.length_set, s.size] }
  else none

/-- `line_length++`. -/
def increment (s : Editor) : Editor := { s with lineLength := s.lineLength + 1 }

/-- `line_length--`. -/
def decrement (s : Editor) : Editor := { s with lineLength := s.lineLength - 1 }

/-- The line is copied from the history. -/
def recallLine (s : Editor) : Option Editor :=
  let copied := s.history.current.memory ++ s.lineBuffer.drop (s.history.current.length + 1)
  if hsize : copied.length = maxBufferLine then
    (strlen copied).map fun (n : Nat) => ⟨n, copied, hsize, s.history.next⟩
  else none

end Editor

/-- How a round of the loop ends. -/
inductive Outcome
  /-- The loop goes on with the rest of the input. -/
  | next (s : Editor) (rest : List UInt8)
  /-- The loop is left. -/
  | ended (s : Editor) (rest : List UInt8)
  /-- A store goes outside of the buffer, or there is nothing to read. -/
  | stuck

/-- The rest of an escape sequence. -/
def escapeSequence (s : Editor) : List UInt8 → Outcome
  | firstChar :: secondChar :: rest =>
    if firstChar = 91 ∧ secondChar = 65 then s.recallLine.elim .stuck fun s => .next s rest
    else .next s rest
  | _ => .stuck

/-- One round of the loop. -/
def round (s : Editor) : List UInt8 → Outcome
  | [] => .stuck
  | ch :: rest =>
    -- a printable character
    if 32 ≤ ch ∧ ch < 127 then
      if s.lineLength = maxBufferLine - 2 then .ended s rest
      else (s.store s.lineLength ch).elim .stuck fun s => .next s.increment rest
    -- enter
    else if ch = 10 then .ended s rest
    -- ctrl-?, for which the usage is printed
    else if ch = 31 then (s.store 0 0).elim .stuck fun s => .ended s rest
    -- backspace
    else if ch = 8 ∨ ch = 127 then .next s.decrement rest
    else if ch = 27 then escapeSequence s rest
    else .next s rest

theorem elim_eq_next {o : Option Editor} {f : Editor → Outcome} {s' : Editor} {rest : List UInt8}
    (h : o.elim .stuck f = .next s' rest) : ∃ s, f s = .next s' rest := by
  cases o with
  | none => cases h
  | some s => exact ⟨s, h⟩

theorem escapeSequence_next {s s' : Editor} {input rest : List UInt8}
    (h : escapeSequence s input = .next s' rest) : rest.length ≤ input.length := by
  unfold escapeSequence at h
  split at h
  · simp only [List.length_cons]
    split at h
    · obtain ⟨_, h⟩ := elim_eq_next h
      cases h
      omega
    · cases h
      omega
  · cases h

/-- A round reads something. -/
theorem round_next {s s' : Editor} {input rest : List UInt8}
    (h : round s input = .next s' rest) : rest.length < input.length := by
  cases input with
  | nil => cases h
  | cons ch input =>
    rw [List.length_cons]
    rw [round] at h
    split at h
    · split at h
      · cases h
      · obtain ⟨_, h⟩ := elim_eq_next h
        cases h
        exact Nat.lt_succ_self _
    split at h
    · cases h
    split at h
    · obtain ⟨_, h⟩ := elim_eq_next h
      cases h
    split at h
    · cases h
      exact Nat.lt_succ_self _
    split at h
    · exact Nat.lt_succ_of_le (escapeSequence_next h)
    · cases h
      exact Nat.lt_succ_self _

/-- The end of the function: the line gets an end, and a terminator. -/
def finish (s : Editor) : Option Editor := do
  let s ← s.store s.lineLength 10
  let s := s.increment
  s.store s.lineLength 0

/-- The states at the top of the loop. -/
def tops (s : Editor) (input : List UInt8) : List Editor :=
  match h : round s input with
  | .next s' rest =>
    have := round_next h
    s :: tops s' rest
  | _ => [s]
termination_by input.length

/-- The loop, and the end of the function. -/
def readLoop (s : Editor) (input : List UInt8) : Option (Editor × List UInt8) :=
  match h : round s input with
  | .next s' rest =>
    have := round_next h
    readLoop s' rest
  | .ended s' rest => (finish s').map (·, rest)
  | .stuck => none
termination_by input.length

/-- The editor of the program before its first line. -/
def Editor.start : Editor where
  lineLength := 0
  lineBuffer := List.replicate maxBufferLine 0
  size := List.length_replicate
  history :=
    { lines := ["ls -al | grep x", "ps -e", "cat read-line-example.c", "vi hello.c", "make",
        "ls -al | grep xxx | grep yyy"].map CString.lit
      index := 0
      lt := by decide
      short := by decide }

/-- The editor when a line is begun. -/
def Editor.begin (s : Editor) : Editor := { s with lineLength := 0 }

/-- `read_line`: the state that it leaves, and the input after the line. -/
def readLine (s : Editor) (input : List UInt8) : Option (Editor × List UInt8) :=
  readLoop s.begin input

/-! ### Keys -/

/-- A key, but the ones that end a line. -/
inductive Key
  | printable (ch : UInt8) (h : 32 ≤ ch ∧ ch < 127)
  | backspace (ch : UInt8) (h : ch = 8 ∨ ch = 127)
  | upArrow
  /-- Another escape sequence. -/
  | escape (firstChar secondChar : UInt8) (h : ¬(firstChar = 91 ∧ secondChar = 65))
  /-- A key that does nothing. -/
  | other (ch : UInt8) (h : ¬(32 ≤ ch ∧ ch < 127) ∧ ch ≠ 10 ∧ ch ≠ 31 ∧ ¬(ch = 8 ∨ ch = 127) ∧ ch ≠ 27)

/-- A key that ends a line. -/
inductive LastKey
  | enter
  /-- ctrl-? -/
  | usage
  deriving DecidableEq

/-- What a key sends. -/
def Key.bytes : Key → List UInt8
  | .printable ch _ => [ch]
  | .backspace ch _ => [ch]
  | .upArrow => [27, 91, 65]
  | .escape firstChar secondChar _ => [27, firstChar, secondChar]
  | .other ch _ => [ch]

/-- What the last key sends. -/
def LastKey.byte : LastKey → UInt8
  | .enter => 10
  | .usage => 31

/-- What some keys send. -/
def input (keys : List Key) (last : LastKey) : List UInt8 := keys.flatMap Key.bytes ++ [last.byte]

/-- A line that is being typed. -/
structure Line where
  text : List UInt8
  history : History

/-- The line after a key. -/
def Line.type (line : Line) : Key → Line
  | .printable ch _ => { line with text := line.text ++ [ch] }
  | .backspace _ _ => { line with text := line.text.dropLast }
  | .upArrow => ⟨line.history.current.bytes, line.history.next⟩
  | .escape _ _ _ => line
  | .other _ _ => line

/-- The text after the last key. -/
def Line.finished (line : Line) : LastKey → List UInt8
  | .enter => line.text
  | .usage => []

/-- The text that the keys make of a line. -/
def Line.result (line : Line) (keys : List Key) (last : LastKey) : List UInt8 :=
  (keys.foldl Line.type line).finished last

/-- The buffer is kept: the length is in range at the top of the loop, no store goes
outside, and the string that is returned is what was typed, with an end of line. -/
structure Disciplined (s : Editor) (keys : List Key) (last : LastKey) : Prop where
  bounds : ∀ t ∈ tops s.begin (input keys last), 0 ≤ t.lineLength ∧ t.lineLength ≤ maxBufferLine - 2
  returns : ∃ s' rest, readLine s (input keys last) = some (s', rest) ∧
    (CString.ofMemory s'.lineBuffer).bytes = Line.result ⟨[], s.history⟩ keys last ++ [10]

/-- No key meets the edges of the line: no backspace at its beginning, and no ctrl-? but
there. A printable key at its end ends it, and the keys from there on are lost: they
have to come to nothing. -/
def Careful (line : Line) : List Key → LastKey → Prop
  | [], .enter => True
  | [], .usage => line.text = []
  | key :: keys, last =>
    match key with
    | .printable ch h =>
      if line.text.length < maxBufferLine - 2 then Careful (line.type (.printable ch h)) keys last
      else line.result (.printable ch h :: keys) last = line.text
    | .backspace ch h => line.text ≠ [] ∧ Careful (line.type (.backspace ch h)) keys last
    | key => Careful (line.type key) keys last

instance Careful.decidable : (line : Line) → (keys : List Key) → (last : LastKey) →
    Decidable (Careful line keys last)
  | _, [], .enter => inferInstanceAs (Decidable True)
  | line, [], .usage => inferInstanceAs (Decidable (line.text = []))
  | line, .printable ch h :: keys, last =>
    have := Careful.decidable (line.type (.printable ch h)) keys last
    inferInstanceAs (Decidable (ite (line.text.length < maxBufferLine - 2) _ _))
  | line, .backspace ch h :: keys, last =>
    have := Careful.decidable (line.type (.backspace ch h)) keys last
    inferInstanceAs (Decidable (line.text ≠ [] ∧ _))
  | line, .upArrow :: keys, last => Careful.decidable (line.type .upArrow) keys last
  | line, .escape firstChar secondChar h :: keys, last =>
    Careful.decidable (line.type (.escape firstChar secondChar h)) keys last
  | line, .other ch h :: keys, last => Careful.decidable (line.type (.other ch h)) keys last

/-! ### The buffer holds the line -/

/-- The buffer begins with a line. -/
structure Holds (s : Editor) (line : Line) : Prop where
  length : s.lineLength = line.text.length
  le : line.text.length ≤ maxBufferLine - 2
  begins : line.text <+: s.lineBuffer
  noNul : 0 ∉ line.text
  history : s.history = line.history

/-- The key does not meet the edges of a line. -/
def Key.Inside (line : Line) : Key → Prop
  | .printable _ _ => line.text.length < maxBufferLine - 2
  | .backspace _ _ => line.text ≠ []
  | _ => True

section Rounds

variable {s : Editor} {line : Line} {rest : List UInt8} {keys : List Key} {last : LastKey}

/-- The length is in range. -/
theorem Holds.bounds (h : Holds s line) : 0 ≤ s.lineLength ∧ s.lineLength ≤ maxBufferLine - 2 := by
  have hle := h.le
  rw [h.length]
  simp only [maxBufferLine] at hle ⊢
  omega

theorem holds_begin (s : Editor) : Holds s.begin ⟨[], s.history⟩ :=
  ⟨rfl, Nat.zero_le _, List.nil_prefix, List.not_mem_nil, rfl⟩

/-- A character is stored behind what the buffer begins with. -/
theorem store_concat {text : List UInt8} (hbegins : text <+: s.lineBuffer)
    (hlength : s.lineLength = text.length) (hlt : text.length < maxBufferLine) (ch : UInt8) :
    ∃ s', s.store s.lineLength ch = some s' ∧ s'.lineLength = s.lineLength ∧
      text ++ [ch] <+: s'.lineBuffer ∧ s'.history = s.history := by
  have hin : 0 ≤ s.lineLength ∧ s.lineLength < maxBufferLine := by
    rw [hlength]
    omega
  refine ⟨_, if_pos hin, rfl, ?_, rfl⟩
  change text ++ [ch] <+: s.lineBuffer.set s.lineLength.toNat ch
  rw [hlength, Int.toNat_natCast]
  exact concat_isPrefix_set hbegins (by rwa [s.size]) ch

theorem Holds.store (h : Holds s line) (ch : UInt8) : ∃ s', s.store s.lineLength ch = some s' ∧
    s'.lineLength = line.text.length ∧ line.text ++ [ch] <+: s'.lineBuffer ∧
    s'.history = line.history := by
  obtain ⟨s', hstore, hlength, hbegins, hhistory⟩ :=
    store_concat h.begins h.length (Nat.lt_of_le_of_lt h.le (by decide)) ch
  exact ⟨s', hstore, hlength.trans h.length, hbegins, hhistory.trans h.history⟩

/-- The line of the history is copied to the beginning of the buffer. -/
theorem Holds.recallLine (h : Holds s line) :
    ∃ s', s.recallLine = some s' ∧ Holds s' ⟨line.history.current.bytes, line.history.next⟩ := by
  have hshort := s.history.length_current_lt
  have hsize := s.size
  simp only [maxBufferLine] at hshort hsize
  have hcopied : (s.history.current.memory ++
      s.lineBuffer.drop (s.history.current.length + 1)).length = maxBufferLine := by
    rw [List.length_append, CString.memory, List.length_append, List.length_singleton,
      List.length_drop, hsize, maxBufferLine, ← CString.length]
    omega
  have hstrlen : strlen (s.history.current.memory ++
      s.lineBuffer.drop (s.history.current.length + 1)) = some s.history.current.length := by
    rw [CString.memory, List.append_assoc, strlen_append s.history.current.noNul]
    rfl
  have hrecall : s.recallLine = some ⟨s.history.current.length, _, hcopied, s.history.next⟩ := by
    rw [Editor.recallLine, dif_pos hcopied, hstrlen, Option.map_some]
  refine ⟨_, hrecall, ?_⟩
  rw [← h.history]
  refine ⟨rfl, Nat.le_of_lt s.history.length_current_lt, ?_, s.history.current.noNul, rfl⟩
  change s.history.current.bytes <+: s.history.current.memory ++ _
  rw [CString.memory, List.append_assoc]
  exact List.prefix_append _ _

/-- A round does to the buffer what the key does to the line. -/
theorem Holds.round (h : Holds s line) {key : Key} (hkey : key.Inside line) :
    ∃ s', round s (key.bytes ++ rest) = .next s' rest ∧ Holds s' (line.type key) := by
  cases key with
  | printable ch hch =>
    obtain ⟨s', hstore, hlength, hbegins, hhistory⟩ := h.store ch
    have hfull : ¬s.lineLength = maxBufferLine - 2 := by
      simp only [Key.Inside, maxBufferLine] at hkey
      rw [h.length, maxBufferLine]
      omega
    refine ⟨s'.increment, ?_, ?_⟩
    · rw [Key.bytes, List.singleton_append, ReadLine.round, if_pos hch, if_neg hfull, hstore]
      rfl
    · have hnul : 0 ∉ line.text ++ [ch] := by
        rw [List.mem_append, List.mem_singleton, not_or]
        refine ⟨h.noNul, fun hzero => ?_⟩
        rw [← hzero] at hch
        exact absurd hch (by decide)
      refine ⟨?_, ?_, hbegins, hnul, hhistory⟩
      · rw [Editor.increment, hlength, Line.type, List.length_append, List.length_singleton]
        rfl
      · rw [Line.type, List.length_append, List.length_singleton]
        exact hkey
  | backspace ch hch =>
    refine ⟨s.decrement, ?_, ?_⟩
    · rcases hch with rfl | rfl <;> rfl
    · have hpos := List.length_pos_iff.mpr hkey
      have hle := h.le
      refine ⟨?_, ?_, (List.dropLast_prefix _).trans h.begins,
        fun hzero => h.noNul ((List.dropLast_sublist _).subset hzero), h.history⟩
      · change s.lineLength - 1 = _
        rw [h.length, Line.type, List.length_dropLast]
        omega
      · rw [Line.type, List.length_dropLast]
        exact Nat.le_trans (Nat.sub_le _ _) h.le
  | upArrow =>
    obtain ⟨s', hrecall, hs'⟩ := h.recallLine
    refine ⟨s', ?_, hs'⟩
    change s.recallLine.elim _ _ = _
    rw [hrecall]
    rfl
  | escape firstChar secondChar hne => exact ⟨s, if_neg hne, h⟩
  | other ch hch =>
    obtain ⟨hprint, henter, husage, hback, hescape⟩ := hch
    refine ⟨s, ?_, h⟩
    rw [Key.bytes, List.singleton_append, ReadLine.round, if_neg hprint, if_neg henter,
      if_neg husage, if_neg hback, if_neg hescape]

/-- A printable key at the end of the line ends it. -/
theorem Holds.round_full (h : Holds s line) (hfull : line.text.length = maxBufferLine - 2)
    {ch : UInt8} (hch : 32 ≤ ch ∧ ch < 127) : ReadLine.round s (ch :: rest) = .ended s rest := by
  have hlength : s.lineLength = maxBufferLine - 2 := by
    rw [h.length, hfull]
    rfl
  rw [ReadLine.round, if_pos hch, if_pos hlength]

/-- The end of the function stores an end of line and a terminator behind what the buffer
begins with. -/
theorem finish_begins {text : List UInt8} (hbegins : text <+: s.lineBuffer)
    (hlength : s.lineLength = text.length) (hle : text.length ≤ maxBufferLine - 2) :
    ∃ s', finish s = some s' ∧ text ++ [10] ++ [0] <+: s'.lineBuffer := by
  simp only [maxBufferLine] at hle
  have hlt : text.length < maxBufferLine := Nat.lt_of_le_of_lt hle (by decide)
  obtain ⟨s₁, hstore₁, hlength₁, hbegins₁, -⟩ := store_concat hbegins hlength hlt 10
  have hnext : s₁.increment.lineLength = (text ++ [10]).length := by
    rw [Editor.increment, hlength₁, hlength, List.length_append]
    rfl
  have hnextlt : (text ++ [10]).length < maxBufferLine := by
    rw [List.length_append, List.length_singleton, maxBufferLine]
    omega
  obtain ⟨s₂, hstore₂, -, hbegins₂, -⟩ :=
    store_concat (s := s₁.increment) hbegins₁ hnext hnextlt 0
  refine ⟨s₂, ?_, hbegins₂⟩
  rw [finish, hstore₁]
  exact hstore₂

/-- The line gets its end. -/
theorem Holds.finish (h : Holds s line) : ∃ s', finish s = some s' ∧
    (CString.ofMemory s'.lineBuffer).bytes = line.text ++ [10] := by
  obtain ⟨s', hfinish, after, hafter⟩ := finish_begins h.begins h.length h.le
  refine ⟨s', hfinish, ?_⟩
  have hnul : 0 ∉ line.text ++ [10] := by
    rw [List.mem_append, List.mem_singleton, not_or]
    exact ⟨h.noNul, by decide⟩
  rw [← hafter, List.append_assoc]
  exact CString.ofMemory_terminated hnul after

/-- For ctrl-? only the first byte of the line is cleared: its length stays. -/
theorem Holds.usage (h : Holds s line) : ∃ s₁ s₂, s.store 0 0 = some s₁ ∧
    ReadLine.finish s₁ = some s₂ ∧
    ((CString.ofMemory s₂.lineBuffer).bytes = [10] ↔ line.text = []) := by
  obtain ⟨s₁, hstore, hbuffer, hlength⟩ : ∃ s₁, s.store 0 0 = some s₁ ∧
      s₁.lineBuffer = s.lineBuffer.set 0 0 ∧ s₁.lineLength = line.text.length :=
    ⟨_, if_pos (by decide), rfl, h.length⟩
  have hle := h.le
  cases htext : line.text with
  | nil =>
    rw [htext] at hlength hle
    obtain ⟨s₂, hfinish, after, hafter⟩ := finish_begins List.nil_prefix hlength hle
    refine ⟨s₁, s₂, hstore, hfinish, iff_of_true ?_ rfl⟩
    rw [← hafter, List.append_assoc]
    exact CString.ofMemory_terminated (by decide) after
  | cons c text =>
    rw [htext] at hlength hle
    have hbegins : 0 :: text <+: s₁.lineBuffer := by
      obtain ⟨rest, hrest⟩ := h.begins
      refine ⟨rest, ?_⟩
      rw [hbuffer, ← hrest, htext]
      rfl
    obtain ⟨s₂, hfinish, after, hafter⟩ := finish_begins hbegins hlength hle
    refine ⟨s₁, s₂, hstore, hfinish, iff_of_false ?_ (List.cons_ne_nil _ _)⟩
    have hnil : (CString.ofMemory s₂.lineBuffer).bytes = [] := by
      rw [← hafter]
      rfl
    rw [hnil]
    exact (List.cons_ne_nil _ _).symm

end Rounds

/-! ### Lines that are kept -/

/-- From the top of the loop on the length is in range, no store goes outside of the
buffer, and the string that is returned is a text with an end of line. -/
structure Kept (s : Editor) (input text : List UInt8) : Prop where
  bounds : ∀ t ∈ tops s input, 0 ≤ t.lineLength ∧ t.lineLength ≤ maxBufferLine - 2
  returns : ∃ s' rest, readLoop s input = some (s', rest) ∧
    (CString.ofMemory s'.lineBuffer).bytes = text ++ [10]

section Kept

variable {s s' : Editor} {line : Line} {input rest text : List UInt8}

theorem tops_next (h : round s input = .next s' rest) : tops s input = s :: tops s' rest := by
  rw [tops]
  split
  · next hround =>
    rw [h] at hround
    cases hround
    rfl
  · next hround => exact absurd h (hround _ _)

theorem tops_ended (h : round s input = .ended s' rest) : tops s input = [s] := by
  rw [tops]
  split
  · next hround =>
    rw [h] at hround
    cases hround
  · rfl

theorem readLoop_next (h : round s input = .next s' rest) :
    readLoop s input = readLoop s' rest := by
  rw [readLoop]
  split <;> rename_i hround <;> rw [h] at hround <;> cases hround
  rfl

theorem readLoop_ended (h : round s input = .ended s' rest) :
    readLoop s input = (finish s').map (·, rest) := by
  rw [readLoop]
  split <;> rename_i hround <;> rw [h] at hround <;> cases hround
  rfl

theorem head_mem_tops (s : Editor) (input : List UInt8) : s ∈ tops s input := by
  rw [tops]
  split
  · exact List.mem_cons_self
  · exact List.mem_singleton_self _

theorem kept_next (h : round s input = .next s' rest) (hs : Holds s line) :
    Kept s input text ↔ Kept s' rest text := by
  constructor
  · rintro ⟨hbounds, hreturns⟩
    rw [tops_next h] at hbounds
    rw [readLoop_next h] at hreturns
    exact ⟨fun t ht => hbounds t (List.mem_cons_of_mem _ ht), hreturns⟩
  · rintro ⟨hbounds, hreturns⟩
    refine ⟨?_, ?_⟩
    · rw [tops_next h]
      exact List.forall_mem_cons.mpr ⟨hs.bounds, hbounds⟩
    · rwa [readLoop_next h]

theorem kept_ended {s₂ : Editor} (h : round s input = .ended s' rest) (hs : Holds s line)
    (hfinish : finish s' = some s₂) :
    Kept s input text ↔ (CString.ofMemory s₂.lineBuffer).bytes = text ++ [10] := by
  have hloop : readLoop s input = some (s₂, rest) := by
    rw [readLoop_ended h, hfinish]
    rfl
  constructor
  · rintro ⟨-, s₃, rest', hreturns, hbytes⟩
    rw [hloop] at hreturns
    cases hreturns
    exact hbytes
  · intro hbytes
    refine ⟨?_, s₂, rest, hloop, hbytes⟩
    rw [tops_ended h]
    exact List.forall_mem_singleton.mpr hs.bounds

/-- A line that is ended as it is. -/
theorem kept_whole (h : round s input = .ended s rest) (hs : Holds s line) :
    Kept s input text ↔ text = line.text := by
  obtain ⟨s₂, hfinish, hbytes⟩ := hs.finish
  rw [kept_ended h hs hfinish, hbytes, List.append_left_inj]
  exact eq_comm

/-- After a backspace at the beginning of the line, its length is below zero. -/
theorem not_kept_decrement (hs : Holds s line) (hempty : line.text = []) :
    ¬Kept s.decrement input text := by
  rintro ⟨hbounds, -⟩
  have hneg : 0 ≤ s.lineLength - 1 := (hbounds _ (head_mem_tops _ _)).1
  rw [hs.length, hempty] at hneg
  exact absurd hneg (by decide)

theorem careful_inside {key : Key} (hkey : key.Inside line) (keys : List Key) (last : LastKey) :
    Careful line (key :: keys) last ↔ Careful (line.type key) keys last := by
  cases key with
  | printable ch hch =>
    rw [Key.Inside] at hkey
    rw [Careful, if_pos hkey]
  | backspace ch hch =>
    rw [Careful]
    exact and_iff_right hkey
  | upArrow => rfl
  | escape firstChar secondChar h => rfl
  | other ch h => rfl

theorem input_cons (key : Key) (keys : List Key) (last : LastKey) :
    ReadLine.input (key :: keys) last = key.bytes ++ ReadLine.input keys last := by
  rw [ReadLine.input, List.flatMap_cons, List.append_assoc]
  rfl

/-- A line is kept if its keys are careful, and only then. -/
theorem kept_iff_careful (hs : Holds s line) (keys : List Key) (last : LastKey) :
    Kept s (ReadLine.input keys last) (line.result keys last) ↔ Careful line keys last := by
  induction keys generalizing s line with
  | nil =>
    cases last with
    | enter => exact (kept_whole rfl hs).trans (iff_of_true rfl trivial)
    | usage =>
      obtain ⟨s₁, s₂, hstore, hfinish, hbytes⟩ := hs.usage
      have hround : round s [31] = .ended s₁ [] := by
        change ((s.store 0 0).elim Outcome.stuck fun s => Outcome.ended s []) = _
        rw [hstore]
        rfl
      exact (kept_ended hround hs hfinish).trans hbytes
  | cons key keys ih =>
    rw [input_cons]
    by_cases hkey : key.Inside line
    · obtain ⟨s', hround, hs'⟩ := hs.round hkey
      exact ((kept_next hround hs).trans (ih hs')).trans (careful_inside hkey keys last).symm
    · cases key with
      | printable ch hch =>
        have hfull : line.text.length = maxBufferLine - 2 :=
          Nat.le_antisymm hs.le (Nat.le_of_not_lt hkey)
        rw [Key.Inside] at hkey
        rw [Careful, if_neg hkey]
        exact kept_whole (hs.round_full hfull hch) hs
      | backspace ch hch =>
        have hempty : line.text = [] := not_not.mp hkey
        have hround : round s (ch :: ReadLine.input keys last) =
            .next s.decrement (ReadLine.input keys last) := by
          rcases hch with rfl | rfl <;> rfl
        refine iff_of_false ?_ fun h => h.1 hempty
        exact mt (kept_next hround hs).mp (not_kept_decrement hs hempty)
      | upArrow => exact absurd trivial hkey
      | escape firstChar secondChar h => exact absurd trivial hkey
      | other ch h => exact absurd trivial hkey

end Kept

/-- The buffer is kept, and the line that is typed returned, if the keys are careful, and
only then. -/
theorem disciplined_iff (s : Editor) (keys : List Key) (last : LastKey) :
    Disciplined s keys last ↔ Careful ⟨[], s.history⟩ keys last := by
  rw [← kept_iff_careful (holds_begin s) keys last]
  exact ⟨fun ⟨hbounds, hreturns⟩ => ⟨hbounds, hreturns⟩,
    fun ⟨hbounds, hreturns⟩ => ⟨hbounds, hreturns⟩⟩

/-- A backspace on an empty line, and ctrl-? after a character. -/
theorem edges_missed : ¬Disciplined .start [.backspace 127 (.inr rfl)] .enter ∧
    ¬Disciplined .start [.printable 97 (by decide)] .usage := by
  refine ⟨fun h => ?_, fun h => ?_⟩
  · have hcareful := (kept_iff_careful (holds_begin _) _ _).mp ⟨h.bounds, h.returns⟩
    exact absurd hcareful (by decide)
  · have hcareful := (kept_iff_careful (holds_begin _) _ _).mp ⟨h.bounds, h.returns⟩
    exact absurd hcareful (by decide)

end Cs252.ReadLine
