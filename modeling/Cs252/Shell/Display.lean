import Cs252.Lib.Terminal
import Cs252.Shell.ReadLine

/-!
# Cs252.Shell.Display

What the line editor of `lab3-src/read-line.c` shows, and its `main`.

`echo` is what a round of the loop writes to the terminal, branch by branch as in
`round`. While the keys stay inside the line, the row with the cursor is the prompt
and the text that the buffer begins with, whatever was typed over it
(`echo_shows`): what is seen is what is returned (`shown_is_kept`). `main` writes
the prompt and the lines it reads, and so the rows that scroll away are a
transcript of what was typed (`transcript_shown`).
-/

namespace Cs252.ReadLine

/-! ### The terminal -/

/-- `USAGE`, as it is defined line by line. -/
def usage : List UInt8 := (CString.lit (
  "\n" ++
  " ctrl-?       Print usage\n" ++
  " Backspace    Deletes last character\n" ++
  " up arrow     See last command in the history\n")).bytes

/-- `PROMPT`. -/
def prompt : List UInt8 := (CString.lit "myshell>").bytes

/-- Backspaces, blanks and backspaces, for a line of this length. -/
def erasure (lineLength : Int) : List UInt8 :=
  List.replicate lineLength.toNat 8 ++ List.replicate lineLength.toNat 32 ++
    List.replicate lineLength.toNat 8

/-- What is written for an escape sequence. -/
def echoEscape (s : Editor) : List UInt8 → List UInt8
  | firstChar :: secondChar :: _ =>
    if firstChar = 91 ∧ secondChar = 65 then
      erasure s.lineLength ++
        s.recallLine.elim [] fun s => s.lineBuffer.take s.lineLength.toNat
    else []
  | _ => []

/-- What a round of the loop writes. -/
def echo (s : Editor) : List UInt8 → List UInt8
  | [] => []
  | ch :: rest =>
    -- a printable character is written before the length is looked at
    if 32 ≤ ch ∧ ch < 127 then [ch]
    else if ch = 10 then [ch]
    else if ch = 31 then usage
    else if ch = 8 ∨ ch = 127 then [8, 32, 8]
    else if ch = 27 then echoEscape s rest
    else []

/-- The loop on a terminal, and the end of the function. -/
def readLoopOn (s : Editor) (t : Terminal) (input : List UInt8) :
    Option (Editor × Terminal × List UInt8) :=
  match h : round s input with
  | .next s' rest =>
    have := round_next h
    readLoopOn s' (t.write (echo s input)) rest
  | .ended s' rest => (finish s').map (·, t.write (echo s input), rest)
  | .stuck => none
termination_by input.length

/-- The states at the top of the loop, with the terminal there. -/
def topsOn (s : Editor) (t : Terminal) (input : List UInt8) : List (Editor × Terminal) :=
  match h : round s input with
  | .next s' rest =>
    have := round_next h
    (s, t) :: topsOn s' (t.write (echo s input)) rest
  | _ => [(s, t)]
termination_by input.length

/-- What `main` prints of a line that was read. -/
def lineRead (s : Editor) : List UInt8 :=
  (CString.lit "line read: ").bytes ++ (CString.ofMemory s.lineBuffer).bytes ++ [10]

/-- `main`, for some lines. -/
def mainLoop : Nat → Editor → Terminal → List UInt8 → Option (Editor × Terminal × List UInt8)
  | 0, s, t, input => some (s, t, input)
  | n + 1, s, t, input =>
    match readLoopOn s.begin (t.write prompt) input with
    | none => none
    | some (s, t, input) => mainLoop n s (t.write (lineRead s)) input

section Loops

variable {s s' : Editor} {t : Terminal} {input rest : List UInt8}

theorem readLoopOn_next (h : round s input = .next s' rest) :
    readLoopOn s t input = readLoopOn s' (t.write (echo s input)) rest := by
  rw [readLoopOn]
  split <;> rename_i hround <;> rw [h] at hround <;> cases hround
  rfl

theorem readLoopOn_ended (h : round s input = .ended s' rest) :
    readLoopOn s t input = (finish s').map (·, t.write (echo s input), rest) := by
  rw [readLoopOn]
  split <;> rename_i hround <;> rw [h] at hround <;> cases hround
  rfl

theorem readLoop_stuck (h : round s input = .stuck) : readLoop s input = none := by
  rw [readLoop]
  split <;> rename_i hround <;> rw [h] at hround <;> cases hround

theorem readLoopOn_stuck (h : round s input = .stuck) : readLoopOn s t input = none := by
  rw [readLoopOn]
  split <;> rename_i hround <;> rw [h] at hround <;> cases hround

theorem topsOn_next (h : round s input = .next s' rest) :
    topsOn s t input = (s, t) :: topsOn s' (t.write (echo s input)) rest := by
  rw [topsOn]
  split
  · next hround =>
    rw [h] at hround
    cases hround
    rfl
  · next hround => exact absurd h (hround _ _)

theorem topsOn_ended (h : round s input = .ended s' rest) : topsOn s t input = [(s, t)] := by
  rw [topsOn]
  split
  · next hround =>
    rw [h] at hround
    cases hround
  · rfl

theorem head_mem_topsOn (s : Editor) (t : Terminal) (input : List UInt8) :
    (s, t) ∈ topsOn s t input := by
  rw [topsOn]
  split
  · exact List.mem_cons_self
  · exact List.mem_singleton_self _

/-- The terminal does not change what is read. -/
theorem readLoopOn_fst (s : Editor) (t : Terminal) (input : List UInt8) :
    (readLoopOn s t input).map (fun x => (x.1, x.2.2)) = readLoop s input := by
  induction hn : input.length using Nat.strongRecOn generalizing s t input with
  | ind n ih =>
    cases hround : round s input with
    | next s' rest =>
      rw [readLoopOn_next hround, readLoop_next hround]
      exact ih _ (hn ▸ round_next hround) _ _ _ rfl
    | ended s' rest =>
      rw [readLoopOn_ended hround, readLoop_ended hround, Option.map_map]
      rfl
    | stuck =>
      rw [readLoopOn_stuck hround, readLoop_stuck hround]
      rfl

end Loops

/-! ### What a key shows -/

/-- The lines of the history are shown as they are. -/
def History.Visible (history : History) : Prop :=
  ∀ line ∈ history.lines, ∀ c ∈ line.bytes, Terminal.Visible c

theorem History.Visible.current {history : History} (h : history.Visible) :
    ∀ c ∈ history.current.bytes, Terminal.Visible c := h _ (List.get_mem _ _)

theorem Line.type_visible {line : Line} (h : line.history.Visible) (key : Key) :
    (line.type key).history.Visible := by
  cases key <;> exact h

theorem printable_visible {ch : UInt8} (h : 32 ≤ ch ∧ ch < 127) : Terminal.Visible ch := by
  constructor <;> rintro rfl <;> exact absurd h.1 (by decide)

section Echo

variable {s : Editor} {line : Line} {t : Terminal}

/-- The line of the history is written from the buffer. -/
theorem Holds.echoEscape (h : Holds s line) (rest : List UInt8) : ReadLine.echoEscape s (91 :: 65 :: rest) =
    erasure line.text.length ++ line.history.current.bytes := by
  obtain ⟨s', hrecall, hs'⟩ := h.recallLine
  obtain ⟨after, hafter⟩ := hs'.begins
  rw [ReadLine.echoEscape, if_pos ⟨rfl, rfl⟩, hrecall, h.length, Option.elim_some, hs'.length,
    ← hafter, Int.toNat_natCast, List.take_left]

/-- After a key, the row is the prompt and the line. -/
theorem echo_shows (h : Holds s line) (hvisible : line.history.Visible) {key : Key}
    (hkey : key.Inside line) (ht : t.Shows (prompt ++ line.text))
    (hroom : (prompt ++ line.text).length < t.width)
    (hroom' : (prompt ++ (line.type key).text).length < t.width) (rest : List UInt8) :
    (t.write (echo s (key.bytes ++ rest))).Shows (prompt ++ (line.type key).text) ∧
      t.SameRows (t.write (echo s (key.bytes ++ rest))) := by
  cases key with
  | printable ch hch =>
    have hecho : echo s ((Key.printable ch hch).bytes ++ rest) = [ch] := if_pos hch
    rw [hecho, Line.type, ← List.append_assoc]
    rw [Line.type, ← List.append_assoc] at hroom'
    exact ht.type (List.forall_mem_singleton.mpr (printable_visible hch)) hroom'
  | backspace ch hch =>
    have hecho : echo s ((Key.backspace ch hch).bytes ++ rest) = [8, 32, 8] := by
      rcases hch with rfl | rfl <;> rfl
    have hlast := List.dropLast_concat_getLast hkey
    rw [← hlast, ← List.append_assoc] at ht hroom
    rw [hecho, Line.type]
    exact ht.erase hroom
  | upArrow =>
    have hecho : echo s (Key.upArrow.bytes ++ rest) =
        erasure line.text.length ++ line.history.current.bytes := h.echoEscape rest
    obtain ⟨herased, hsame⟩ := ht.erase hroom
    rw [hecho, Terminal.write_append, erasure, Int.toNat_natCast]
    obtain ⟨htyped, hsame'⟩ := herased.type hvisible.current (hsame.width ▸ hroom')
    exact ⟨htyped, hsame.trans hsame'⟩
  | escape firstChar secondChar hne =>
    have hecho : echo s ((Key.escape firstChar secondChar hne).bytes ++ rest) = [] := if_neg hne
    rw [hecho]
    exact ⟨ht, .refl t⟩
  | other ch hch =>
    obtain ⟨hprint, henter, husage, hback, hescape⟩ := hch
    have hecho : echo s (ch :: rest) = [] := by
      rw [echo, if_neg hprint, if_neg henter, if_neg husage, if_neg hback, if_neg hescape]
    rw [Key.bytes, List.singleton_append, hecho]
    exact ⟨ht, .refl t⟩

end Echo

/-! ### Lines -/

instance : (line : Line) → (key : Key) → Decidable (key.Inside line)
  | line, .printable _ _ => inferInstanceAs (Decidable (line.text.length < maxBufferLine - 2))
  | line, .backspace _ _ => inferInstanceAs (Decidable (line.text ≠ []))
  | _, .upArrow => inferInstanceAs (Decidable True)
  | _, .escape _ _ _ => inferInstanceAs (Decidable True)
  | _, .other _ _ => inferInstanceAs (Decidable True)

/-- The keys stay inside the line, and the line is shorter than the room for it. -/
def Stays (room : Nat) (line : Line) : List Key → Prop
  | [] => True
  | key :: keys =>
    key.Inside line ∧ (line.type key).text.length < room ∧ Stays room (line.type key) keys

/-- The last key leaves the line as it is: ctrl-? on an empty line only. -/
def LastKey.Keeps (line : Line) : LastKey → Prop
  | .enter => True
  | .usage => line.text = []

/-- A line that is typed within the room for it, and kept by the last key. -/
structure Fits (room : Nat) (line : Line) (keys : List Key) (last : LastKey) : Prop where
  stays : Stays room line keys
  keeps : last.Keeps (keys.foldl Line.type line)

/-- The rows of the usage. -/
def usageRows : List (List UInt8) :=
  [(CString.lit " ctrl-?       Print usage").bytes,
    (CString.lit " Backspace    Deletes last character").bytes,
    (CString.lit " up arrow     See last command in the history").bytes]

/-- The rows that the last key shows. -/
def LastKey.rows : LastKey → List (List UInt8)
  | .enter => []
  | .usage => usageRows

theorem usage_eq : usage = 10 :: usageRows.flatMap (· ++ [10]) := by decide

/-- The length of a row with a line. -/
theorem length_prompt (text : List UInt8) : (prompt ++ text).length = text.length + 8 := by
  rw [List.length_append, Nat.add_comm]
  rfl

theorem usageRows_shown : ∀ row ∈ usageRows, (∀ c ∈ row, Terminal.Visible c) ∧ row.length < 47 := by
  decide +kernel

theorem prompt_visible : ∀ c ∈ prompt, Terminal.Visible c := by decide +kernel

section Terminal

variable {t : Terminal} {text : List UInt8}

/-- The last key ends the row, and shows its rows. -/
theorem shows_last (ht : t.Shows text) (hwidth : 47 ≤ t.width) (last : LastKey) (s : Editor)
    (rest : List UInt8) : ∃ k, t.write (echo s (last.byte :: rest)) = { t with
      above := t.above ++ (text ++ List.replicate k 32) :: last.rows
      before := []
      behind := [] } := by
  obtain ⟨k, hnewline⟩ := ht.newline
  refine ⟨k, ?_⟩
  cases last with
  | enter => exact hnewline
  | usage =>
    have hecho : echo s (LastKey.usage.byte :: rest) = usage := rfl
    rw [hecho, usage_eq, Terminal.write_cons, Terminal.put_newline, hnewline,
      Terminal.write_rows rfl rfl fun row hrow => ?_]
    · simp [LastKey.rows]
    · obtain ⟨hvisible, hlength⟩ := usageRows_shown row hrow
      exact ⟨hvisible, Nat.lt_of_lt_of_le hlength hwidth⟩

end Terminal

/-! ### The loop -/

theorem store_history {s s' : Editor} {i : Int} {c : UInt8} (h : s.store i c = some s') :
    s'.history = s.history := by
  rw [Editor.store] at h
  split at h
  · cases h
    rfl
  · cases h

theorem finish_history {s s' : Editor} (h : finish s = some s') : s'.history = s.history := by
  obtain ⟨s₁, hstore, h⟩ := Option.bind_eq_some_iff.mp h
  exact (store_history h).trans (show s₁.history = s.history from store_history hstore)

/-- The terminal shows what the buffer begins with, up to the length. -/
def ShowsBuffer (t : Terminal) (s : Editor) : Prop :=
  ∃ text, text <+: s.lineBuffer ∧ s.lineLength = text.length ∧ t.Shows (prompt ++ text)

section Loop

variable {s : Editor} {line : Line} {t : Terminal} {room : Nat}

theorem Holds.showsBuffer (h : Holds s line) (ht : t.Shows (prompt ++ line.text)) :
    ShowsBuffer t s := ⟨line.text, h.begins, h.length, ht⟩

theorem input_append (key : Key) (keys : List Key) (last : LastKey) (rest : List UInt8) :
    ReadLine.input (key :: keys) last ++ rest =
      key.bytes ++ (ReadLine.input keys last ++ rest) := by
  rw [input_cons, List.append_assoc]

/-- The end of a line. -/
theorem Holds.last (h : Holds s line) (last : LastKey) (rest : List UInt8) :
    ∃ s₁ s', ReadLine.round s (last.byte :: rest) = .ended s₁ rest ∧
      ReadLine.finish s₁ = some s' ∧ s'.history = line.history ∧
      (last.Keeps line → (CString.ofMemory s'.lineBuffer).bytes = line.finished last ++ [10]) := by
  cases last with
  | enter =>
    obtain ⟨s', hfinish, hbytes⟩ := h.finish
    exact ⟨s, s', rfl, hfinish, (finish_history hfinish).trans h.history, fun _ => hbytes⟩
  | usage =>
    obtain ⟨s₁, s', hstore, hfinish, hbytes⟩ := h.usage
    refine ⟨s₁, s', ?_, hfinish,
      (finish_history hfinish).trans ((store_history hstore).trans h.history), hbytes.mpr⟩
    have hround : ReadLine.round s (LastKey.usage.byte :: rest) =
        (s.store 0 0).elim Outcome.stuck fun s => Outcome.ended s rest := rfl
    rw [hround, hstore]
    rfl

/-- A key inside the line is shown as it is kept. -/
theorem Holds.type_shows (h : Holds s line) (hvisible : line.history.Visible) {key : Key}
    (hkey : key.Inside line) (ht : t.Shows (prompt ++ line.text)) (htext : line.text.length < room)
    (hlt : (line.type key).text.length < room) (hroom : room + 8 ≤ t.width) (rest : List UInt8) :
    ∃ s₁, ReadLine.round s (key.bytes ++ rest) = .next s₁ rest ∧ Holds s₁ (line.type key) ∧
      (t.write (echo s (key.bytes ++ rest))).Shows (prompt ++ (line.type key).text) ∧
      t.SameRows (t.write (echo s (key.bytes ++ rest))) := by
  have hshort {text : List UInt8} (hlt : text.length < room) :
      (prompt ++ text).length < t.width := by
    rw [length_prompt]
    omega
  obtain ⟨s₁, hround, hs₁⟩ : ∃ s₁, ReadLine.round s (key.bytes ++ rest) = .next s₁ rest ∧
      Holds s₁ (line.type key) := h.round hkey
  exact ⟨s₁, hround, hs₁, echo_shows h hvisible hkey ht (hshort htext) (hshort hlt) rest⟩

/-- While a line is typed, the buffer is shown from the top of the loop on. -/
theorem tops_show (h : Holds s line) (hvisible : line.history.Visible) {keys : List Key}
    {last : LastKey} (hstays : Stays room line keys) (ht : t.Shows (prompt ++ line.text))
    (htext : line.text.length < room) (hroom : room + 8 ≤ t.width) (rest : List UInt8) :
    ∀ x ∈ topsOn s t (ReadLine.input keys last ++ rest),
      ShowsBuffer x.2 x.1 ∧ t.SameRows x.2 := by
  induction keys generalizing s line t with
  | nil =>
    obtain ⟨s₁, s', hround, -⟩ := h.last last rest
    have htops : topsOn s t (last.byte :: rest) = [(s, t)] := topsOn_ended hround
    change ∀ x ∈ topsOn s t (last.byte :: rest), _
    rw [htops]
    exact List.forall_mem_singleton.mpr ⟨h.showsBuffer ht, .refl t⟩
  | cons key keys ih =>
    obtain ⟨hkey, hlt, hstays⟩ := hstays
    rw [input_append]
    obtain ⟨s₁, hround, hs₁, hshows, hsame⟩ := h.type_shows hvisible hkey ht htext hlt hroom
      (ReadLine.input keys last ++ rest)
    have htops := ih hs₁ (Line.type_visible hvisible key) hstays hshows hlt (hsame.width ▸ hroom)
    rw [topsOn_next hround]
    exact List.forall_mem_cons.mpr ⟨⟨h.showsBuffer ht, .refl t⟩,
      fun x hx => ⟨(htops x hx).1, hsame.trans (htops x hx).2⟩⟩

/-- The keys of a line, from the top of the loop on. -/
theorem loop_shows (h : Holds s line) (hvisible : line.history.Visible) {keys : List Key}
    {last : LastKey} (hfits : Fits room line keys last) (ht : t.Shows (prompt ++ line.text))
    (htext : line.text.length < room) (hroom : room + 8 ≤ t.width) (hwidth : 47 ≤ t.width)
    (rest : List UInt8) :
    ∃ s' k, readLoopOn s t (ReadLine.input keys last ++ rest) = some (s', { t with
        above := t.above ++ (prompt ++ (keys.foldl Line.type line).text ++
          List.replicate k 32) :: last.rows
        before := []
        behind := [] }, rest) ∧
      (CString.ofMemory s'.lineBuffer).bytes = line.result keys last ++ [10] ∧
      s'.history = (keys.foldl Line.type line).history := by
  obtain ⟨hstays, hkeeps⟩ := hfits
  induction keys generalizing s line t with
  | nil =>
    obtain ⟨s₁, s', hround, hfinish, hhistory, hbytes⟩ := h.last last rest
    obtain ⟨k, hlast⟩ := shows_last ht hwidth last s rest
    refine ⟨s', k, ?_, hbytes hkeeps, hhistory⟩
    change readLoopOn s t (last.byte :: rest) = _
    rw [readLoopOn_ended hround, hfinish, hlast]
    rfl
  | cons key keys ih =>
    obtain ⟨hkey, hlt, hstays⟩ := hstays
    rw [input_append]
    obtain ⟨s₁, hround, hs₁, hshows, hsame⟩ := h.type_shows hvisible hkey ht htext hlt hroom
      (ReadLine.input keys last ++ rest)
    obtain ⟨s', k, hrun, hbytes, hhistory⟩ := ih hs₁ (Line.type_visible hvisible key)
      hshows hlt (hsame.width ▸ hroom) (hsame.width ▸ hwidth) hstays hkeeps
    refine ⟨s', k, ?_, hbytes, hhistory⟩
    rw [readLoopOn_next hround, hrun, hsame.width, hsame.above]
    rfl

end Loop

/-- **What is shown is what is kept.** Whenever the loop waits for a key, the row with the
cursor is the prompt and the text that the buffer begins with, and nothing above
it has changed. -/
theorem shown_is_kept {s : Editor} {t : Terminal} {room : Nat} {keys : List Key} {last : LastKey}
    (hvisible : s.history.Visible) (hstays : Stays room ⟨[], s.history⟩ keys)
    (ht : t.Shows prompt) (hpos : 0 < room) (hroom : room + 8 ≤ t.width) (rest : List UInt8) :
    ∀ x ∈ topsOn s.begin t (ReadLine.input keys last ++ rest),
      ShowsBuffer x.2 x.1 ∧ t.SameRows x.2 :=
  tops_show (holds_begin s) hvisible hstays (by rwa [List.append_nil]) hpos hroom rest

/-! ### The program -/

/-- What some lines send. -/
def inputs (typed : List (List Key × LastKey)) : List UInt8 :=
  typed.flatMap fun x => ReadLine.input x.1 x.2

/-- The lines that are typed. The place in the history stays from line to line. -/
def results : History → List (List Key × LastKey) → List (List UInt8 × LastKey)
  | _, [] => []
  | history, (keys, last) :: typed =>
    (Line.result ⟨[], history⟩ keys last, last) ::
      results (keys.foldl Line.type ⟨[], history⟩).history typed

/-- All lines fit. -/
def AllFit (room : Nat) : History → List (List Key × LastKey) → Prop
  | _, [] => True
  | history, (keys, last) :: typed =>
    Fits room ⟨[], history⟩ keys last ∧
      AllFit room (keys.foldl Line.type ⟨[], history⟩).history typed

/-- The rows for some lines: the row in which the line was typed, where blanks may be left, those
of the last key, and what `main` prints. -/
inductive Transcript : List (List UInt8 × LastKey) → List (List UInt8) → Prop
  | nil : Transcript [] []
  | line {text : List UInt8} {last : LastKey} {k : Nat} {more : List (List UInt8 × LastKey)}
      {rows : List (List UInt8)} : Transcript more rows →
      Transcript ((text, last) :: more) ((prompt ++ text ++ List.replicate k 32) ::
        (last.rows ++ [(CString.lit "line read: ").bytes ++ text, []] ++ rows))

section Session

variable {room : Nat} {line : Line}

theorem Line.text_visible (hhistory : line.history.Visible)
    (htext : ∀ c ∈ line.text, Terminal.Visible c) (key : Key) :
    ∀ c ∈ (line.type key).text, Terminal.Visible c := by
  cases key with
  | printable ch hch =>
    exact List.forall_mem_append.mpr
      ⟨htext, List.forall_mem_singleton.mpr (printable_visible hch)⟩
  | backspace ch hch => exact fun c hc => htext c ((List.dropLast_sublist _).subset hc)
  | upArrow => exact hhistory.current
  | escape firstChar secondChar hne => exact htext
  | other ch hch => exact htext

/-- The line that is typed in the end. -/
structure Line.Final (room : Nat) (line line' : Line) (keys : List Key) (last : LastKey) : Prop where
  lt : line'.text.length < room
  visible : ∀ c ∈ line'.text, Terminal.Visible c
  history : line'.history.Visible
  result : line.result keys last = line'.text

theorem Fits.final {keys : List Key} {last : LastKey} (hfits : Fits room line keys last)
    (hlt : line.text.length < room) (hvisible : ∀ c ∈ line.text, Terminal.Visible c)
    (hhistory : line.history.Visible) :
    line.Final room (keys.foldl Line.type line) keys last := by
  obtain ⟨hstays, hkeeps⟩ := hfits
  induction keys generalizing line with
  | nil =>
    refine ⟨hlt, hvisible, hhistory, ?_⟩
    cases last with
    | enter => rfl
    | usage => exact (show line.text = [] from hkeeps).symm
  | cons key keys ih =>
    obtain ⟨-, hlt', hstays⟩ := hstays
    obtain ⟨hlt, hvisible, hhistory, hresult⟩ := ih hlt' (Line.text_visible hhistory hvisible key)
      (Line.type_visible hhistory key) hstays hkeeps
    exact ⟨hlt, hvisible, hhistory, hresult⟩

/-- `main` prints the line. -/
theorem lineRead_rows {s : Editor} {t : Terminal} {text : List UInt8} (hbefore : t.before = [])
    (hbehind : t.behind = []) (hbytes : (CString.ofMemory s.lineBuffer).bytes = text ++ [10])
    (hvisible : ∀ c ∈ text, Terminal.Visible c) (hroom : text.length + 11 < t.width) :
    t.write (lineRead s) =
      { t with above := t.above ++ [(CString.lit "line read: ").bytes ++ text, []] } := by
  have hlineRead : lineRead s =
      [(CString.lit "line read: ").bytes ++ text, []].flatMap (· ++ [10]) := by
    rw [lineRead, hbytes]
    simp
  have hlength : (CString.lit "line read: ").bytes.length = 11 := by decide
  rw [hlineRead, Terminal.write_rows hbefore hbehind]
  refine List.forall_mem_cons.mpr ⟨⟨?_, ?_⟩, List.forall_mem_singleton.mpr ⟨?_, ?_⟩⟩
  · exact List.forall_mem_append.mpr ⟨by decide +kernel, hvisible⟩
  · rw [List.length_append, hlength]
    omega
  · exact List.forall_mem_nil _
  · exact Nat.zero_lt_of_lt hroom

/-- **The transcript.** The rows that `main` leaves on the terminal are the prompts with the
lines as they were typed in the end, each followed by what was read. -/
theorem transcript_shown {typed : List (List Key × LastKey)} {s : Editor} {t : Terminal}
    (hvisible : s.history.Visible) (hfits : AllFit room s.history typed) (hpos : 0 < room)
    (hbefore : t.before = []) (hbehind : t.behind = []) (hroom : room + 11 ≤ t.width)
    (hwidth : 47 ≤ t.width) (rest : List UInt8) :
    ∃ s' rows, mainLoop typed.length s t (inputs typed ++ rest) =
        some (s', { t with above := t.above ++ rows }, rest) ∧
      Transcript (results s.history typed) rows := by
  induction typed generalizing s t with
  | nil => exact ⟨s, [], by simp [mainLoop, inputs], .nil⟩
  | cons x typed ih =>
    obtain ⟨keys, last⟩ := x
    obtain ⟨hfirst, hmore⟩ := hfits
    have hprompt : (t.write prompt).Shows prompt ∧ t.SameRows (t.write prompt) :=
      Terminal.Shows.type (t := t) ⟨hbefore, 0, hbehind⟩ prompt_visible
        (Nat.lt_of_lt_of_le (by decide : ([] ++ prompt).length < 47) hwidth)
    obtain ⟨t₁, ht₁⟩ : ∃ t₁, t.write prompt = t₁ := ⟨_, rfl⟩
    rw [ht₁] at hprompt
    obtain ⟨ht, hsame⟩ := hprompt
    have hroom₁ : room + 8 ≤ t₁.width := by
      rw [hsame.width]
      omega
    have hwidth₁ : 47 ≤ t₁.width := by rwa [hsame.width]
    obtain ⟨s₁, k, hrun, hbytes, hhistory⟩ := loop_shows (holds_begin s) hvisible hfirst
      (by rwa [List.append_nil]) hpos hroom₁ hwidth₁ (inputs typed ++ rest)
    obtain ⟨hlt, htext, hhistory₁, hresult⟩ := hfirst.final hpos (List.forall_mem_nil _) hvisible
    rw [hresult] at hbytes
    rw [← hhistory] at hhistory₁
    rw [hsame.width, hsame.above] at hrun
    have hinputs : inputs ((keys, last) :: typed) ++ rest =
        ReadLine.input keys last ++ (inputs typed ++ rest) := by
      rw [inputs, List.flatMap_cons, List.append_assoc]
      rfl
    -- the rows of the line, and those that `main` writes
    obtain ⟨t₂, ht₂⟩ : ∃ t₂ : Terminal, t₂ = { t with
      above := t.above ++ (prompt ++ (keys.foldl Line.type ⟨[], s.history⟩).text ++
        List.replicate k 32) :: last.rows
      before := []
      behind := [] } := ⟨_, rfl⟩
    have hwidth₂ : t₂.width = t.width := by rw [ht₂]
    have hline := lineRead_rows (by rw [ht₂]) (by rw [ht₂]) hbytes htext
      (hwidth₂ ▸ Nat.lt_of_lt_of_le (Nat.add_lt_add_right hlt 11) hroom)
    obtain ⟨s', rows, hmain, htranscript⟩ := ih hhistory₁ (hhistory ▸ hmore)
      (t := t₂.write (lineRead s₁)) (by rw [hline, ht₂]) (by rw [hline, ht₂])
      (by rwa [hline, hwidth₂]) (by rwa [hline, hwidth₂])
    have hrows : Transcript (((keys.foldl Line.type ⟨[], s.history⟩).text, last) :: _)
      ((prompt ++ _ ++ List.replicate k 32) :: _) := .line htranscript
    rw [hhistory, ← hresult] at hrows
    refine ⟨s', _, ?_, hrows⟩
    rw [hinputs, List.length_cons, mainLoop, ht₁, hrun]
    dsimp only
    rw [← ht₂, hmain, hline, ht₂]
    rw [hbefore, hbehind, hresult]
    simp only [List.append_assoc, List.cons_append]

end Session

/-! ### Two lines -/

/-- The keys of `la`, with the last one corrected, and those of a line from the history. -/
def twoLines : List (List Key × LastKey) :=
  [([.printable 108 (by decide), .printable 97 (by decide), .backspace 127 (.inr rfl),
      .printable 115 (by decide)], .enter),
    ([.printable 120 (by decide), .upArrow], .enter)]

/-- A terminal with 80 columns. -/
def emptyTerminal : Terminal := ⟨80, [], [], []⟩

theorem start_visible : Editor.start.history.Visible := by
  have h : ∀ line ∈ Editor.start.history.lines, ∀ c ∈ line.bytes, Terminal.Visible c := by
    decide +kernel
  exact h

theorem twoLines_fit : AllFit 40 Editor.start.history twoLines :=
  ⟨⟨⟨by decide, by decide, by decide, by decide, by decide, by decide, by decide, by decide,
    trivial⟩, trivial⟩, ⟨⟨by decide, by decide, trivial, by decide, trivial⟩, trivial⟩, trivial⟩

/-- The buffer is shown while the first line is typed. -/
theorem shown_is_kept_ls :
    (Editor.start.begin, emptyTerminal.write prompt) ∈
        topsOn Editor.start.begin (emptyTerminal.write prompt) (inputs twoLines) ∧
      ∀ x ∈ topsOn Editor.start.begin (emptyTerminal.write prompt) (inputs twoLines),
        ShowsBuffer x.2 x.1 ∧ (emptyTerminal.write prompt).SameRows x.2 :=
  ⟨head_mem_topsOn _ _ _, shown_is_kept start_visible twoLines_fit.1.stays
    ⟨by decide, 0, by decide⟩ (by decide) (by decide) _⟩

/-- The transcript of the lines `ls` and `ls -al | grep x`. -/
theorem transcript_shown_two :
    ∃ s' rows, mainLoop 2 Editor.start emptyTerminal (inputs twoLines ++ []) =
        some (s', { emptyTerminal with above := [] ++ rows }, []) ∧
      Transcript [((CString.lit "ls").bytes, .enter),
        ((CString.lit "ls -al | grep x").bytes, .enter)] rows :=
  transcript_shown start_visible twoLines_fit (by decide) rfl rfl (by decide) (by decide) []

end Cs252.ReadLine
