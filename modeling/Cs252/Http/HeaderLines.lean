import Cs252.Http.Survival

/-!
# Cs252.Http.HeaderLines

Which header lines `handle` reads as they were written.

`handle` takes the first word of a line without its last character for the key,
and for the value the first word after it that is not `Basic`. A value comes
back only if it is a single word, and is not `Basic`. A byte that is not ASCII
ends the line or the connection.
-/

namespace Cs252.Http

/-! ### What is sent -/

/-- A word of a request line: visible characters. -/
structure Word where
  text : CString
  nonempty : text.bytes ≠ []
  visible : ∀ c ∈ text.bytes, 33 ≤ c ∧ c ≤ 126

/-- A request line. -/
structure RequestLine where
  method : Word
  rawPath : Word
  httpVersion : Word

/-- A request line on the wire, without its line end. -/
def RequestLine.text (l : RequestLine) : CString :=
  l.method.text ++ .lit " " ++ l.rawPath.text ++ .lit " " ++ l.httpVersion.text

/-- A key and a value that may stand in a header line. -/
structure Field where
  key : CString
  value : CString
  key_nonempty : key.bytes ≠ []
  key_word : ∀ c ∈ key.bytes, c ≠ 32 ∧ c ≠ 58 ∧ c ≠ 13 ∧ c ≠ 10
  value_nonempty : value.bytes ≠ []
  value_line : ∀ c ∈ value.bytes, c ≠ 13 ∧ c ≠ 10
  value_trimmed : value.bytes.head? ≠ some 32 ∧ value.bytes.getLast? ≠ some 32

/-- The header with a key and a value. -/
def Field.header (f : Field) : Header := ⟨some f.key, some f.value⟩

/-- The head of a request: the request line, the header lines as
`response_string` writes them, and a blank line. -/
def requestHead (l : RequestLine) (fields : List Field) : List UInt8 :=
  (l.text ++ crlf).bytes ++ fields.flatMap (fun f => f.header.line.bytes) ++ crlf.bytes

/-- A field that comes back as it was written. -/
structure Field.Simple (f : Field) : Prop where
  ascii : ∀ c ∈ f.key.bytes ++ f.value.bytes, c < 128
  word : 32 ∉ f.value.bytes
  not_basic : f.value ≠ .lit "Basic"
  short : f.header.line.length ≤ 2 ^ 30

/-! ### Lines on the wire -/

/-- A plain text that starts with a line and its first character does not contain
the line end. -/
theorem not_plain_line (text rest : List UInt8) : ¬Plain (text ++ 13 :: 10 :: rest) :=
  fun h => h.2 ⟨text, rest, by simp⟩

/-- Where a character stands in a text with a line end. -/
theorem split_line {text t more rest : List UInt8} {c : UInt8}
    (h : text ++ 13 :: 10 :: more = t ++ c :: rest) :
    (∃ u, text = t ++ c :: u) ∨ (t = text ∧ c = 13 ∧ rest = 10 :: more) ∨
      (t = text ++ [13] ∧ c = 10) ∨ ∃ u, t = text ++ 13 :: 10 :: u := by
  rcases List.append_eq_append_iff.mp h with ⟨a, rfl, ha⟩ | ⟨u, rfl, hu⟩
  · right
    cases a with
    | nil =>
      obtain ⟨rfl, rfl⟩ := List.cons.inj ha
      exact Or.inl ⟨List.append_nil _, rfl, rfl⟩
    | cons x a =>
      obtain ⟨rfl, ha'⟩ := List.cons.inj ha
      cases a with
      | nil => exact Or.inr (Or.inl ⟨rfl, (List.cons.inj ha').1.symm⟩)
      | cons y a =>
        obtain ⟨rfl, -⟩ := List.cons.inj ha'
        exact Or.inr (Or.inr ⟨a, rfl⟩)
  · cases u with
    | nil =>
      obtain ⟨rfl, rfl⟩ := List.cons.inj hu
      exact Or.inr (Or.inl ⟨(List.append_nil _).symm, rfl, rfl⟩)
    | cons x u =>
      obtain ⟨rfl, -⟩ := List.cons.inj hu
      exact Or.inl ⟨u, rfl⟩

/-- A line that is sent is read up to its end, or up to the first byte 255. -/
theorem wireLine_cases {text line rest more : List UInt8} (hcr : 13 ∉ text)
    (h : WireLine line (text ++ 13 :: 10 :: more) rest) :
    (line = text ++ [13, 10] ∧ rest = more ∧ ∀ c ∈ text, c < 128) ∨
      ∃ rest', text = line ++ 255 :: rest' := by
  generalize hinput : text ++ 13 :: 10 :: more = input at h
  cases h with
  | @crlf t _ hplain =>
    rcases split_line hinput with ⟨u, rfl⟩ | ⟨rfl, -, hrest⟩ | ⟨-, hc⟩ | ⟨u, rfl⟩
    · simp at hcr
    · obtain rfl := List.tail_eq_of_cons_eq hrest
      exact Or.inl ⟨rfl, rfl, fun c hc => hplain.1 c (List.mem_append_left _ hc)⟩
    · exact absurd hc (by decide)
    · rw [List.append_assoc] at hplain
      exact absurd hplain (not_plain_line text _)
  | eof hplain =>
    rcases split_line hinput with hleft | ⟨-, hc, -⟩ | ⟨-, hc⟩ | ⟨u, rfl⟩
    · exact Or.inr hleft
    · exact absurd hc (by decide)
    · exact absurd hc (by decide)
    · exact absurd hplain (not_plain_line text u)
  | closed hplain => exact absurd (hinput ▸ hplain) (not_plain_line text more)

/-- A line of ASCII characters is read to its end. -/
theorem wireLine_of_ascii {text : List UInt8} (hcr : 13 ∉ text) (hascii : ∀ c ∈ text, c < 128)
    (more : List UInt8) : WireLine (text ++ [13, 10]) (text ++ 13 :: 10 :: more) more := by
  have hplain : Plain text := ⟨hascii, fun h => hcr (h.subset (by simp))⟩
  rcases plain_concat hplain (c := 13) (by decide) with hline | ⟨-, -, hc⟩
  · exact .crlf hline
  · exact absurd hc (by decide)

/-! ### Header lines -/

namespace Field

variable {f : Field}

/-- A header line, without its line end. -/
def text (f : Field) : CString := f.key ++ .lit ": " ++ f.value

theorem line_bytes (f : Field) : f.header.line.bytes = f.text.bytes ++ [13, 10] := by
  have hcrlf : crlf.bytes = [13, 10] := by decide
  simp [header, Header.line, text, hcrlf]

theorem text_bytes (f : Field) : f.text.bytes = f.key.bytes ++ 58 :: 32 :: f.value.bytes := by
  have hcolon : (CString.lit ": ").bytes = [58, 32] := by decide
  simp [text, hcolon]

theorem cr_notMem (f : Field) : 13 ∉ f.text.bytes := by
  rw [text_bytes]
  intro h
  simp only [List.mem_append, List.mem_cons] at h
  rcases h with h | h | h | h
  · exact (f.key_word 13 h).2.2.1 rfl
  · exact absurd h (by decide)
  · exact absurd h (by decide)
  · exact (f.value_line 13 h).1 rfl

/-- The words of a header line. -/
theorem tokens_text (f : Field) : f.text.tokens 32 = (f.key ++ .lit ":") :: f.value.tokens 32 := by
  have hcolon : (CString.lit ":").bytes = [58] := by decide
  refine CString.tokens_cons ?_ ?_ ?_
  · rw [text_bytes, CString.append_bytes, hcolon, List.append_assoc]
    rfl
  · rw [CString.append_bytes, hcolon]
    intro h
    rcases List.mem_append.mp h with h | h
    · exact (f.key_word 32 h).1 rfl
    · exact absurd h (by decide)
  · rw [CString.append_bytes, hcolon]
    simp

/-- A header line is read as it was written if its value is one word, and not `Basic`. -/
theorem headerLine_iff (f : Field) :
    HeaderLine f.text f.header ↔ 32 ∉ f.value.bytes ∧ f.value ≠ .lit "Basic" := by
  unfold HeaderLine
  rw [tokens_text]
  constructor
  · intro h
    obtain ⟨key, skipped, value, words, htokens, -, hbasic, hheader⟩ := h
    obtain rfl : f.value = value := Option.some.inj (congrArg Header.value hheader)
    refine ⟨CString.notMem_of_mem_tokens (s := f.value) ?_, hbasic⟩
    rw [(List.cons.inj htokens).2]
    exact List.mem_append_right _ List.mem_cons_self
  · intro h
    have hcolon : (CString.lit ":").bytes = [58] := by decide
    have hkey : dropColon (f.key ++ .lit ":") = f.key := by
      ext1
      simp [dropColon, hcolon]
    rw [CString.tokens_word h.1 f.value_nonempty]
    exact ⟨_, [], f.value, [], rfl, by simp, h.2, by rw [hkey]; rfl⟩

/-- A line that is cut off is not read as the header it was the beginning of. -/
theorem not_headerLine_of_prefix {line : List UInt8} {c : UInt8} {rest : List UInt8}
    (h : f.text.bytes = line ++ c :: rest) : ¬HeaderLine (chop (.ofMemory line)) f.header := by
  intro hline
  obtain ⟨key, skipped, value, words, htokens, -, -, hheader⟩ := hline
  obtain rfl : f.value = value := Option.some.inj (congrArg Header.value hheader)
  have hkey : f.key = dropColon key := Option.some.inj (congrArg Header.key hheader)
  have hkeylen : f.key.length = key.length - 1 := by
    rw [hkey]
    exact List.length_dropLast
  have hpos : 0 < f.key.length := List.length_pos_iff.mpr f.key_nonempty
  -- the two words take as many characters as the whole line had
  have hwords := CString.length_tokens 32 (chop (.ofMemory line))
  rw [htokens] at hwords
  simp only [List.map_cons, List.map_append, List.sum_cons, List.sum_append] at hwords
  have hchop : (chop (.ofMemory line)).length ≤ line.length :=
    (List.take_sublist _ _).length_le.trans (List.takeWhile_prefix _).length_le
  have htext := congrArg List.length (f.text_bytes.symm.trans h)
  simp only [List.length_append, List.length_cons] at htext
  unfold CString.length at *
  omega

end Field

/-! ### The head -/

/-- A line that is read to its end loses just that. -/
theorem chop_line (s : CString) : chop (.ofMemory (s.bytes ++ [13, 10])) = s := by
  have hnul : 0 ∉ s.bytes ++ [13, 10] := by
    intro h
    rcases List.mem_append.mp h with h | h
    · exact s.noNul h
    · exact absurd h (by decide)
  ext1
  simp [chop, CString.length, CString.ofMemory_bytes hnul]

/-- A line of ASCII characters in the head. -/
theorem Head.ascii_line {s : CString} {rest : List UInt8} {lines : List CString}
    (hcr : 13 ∉ s.bytes) (hascii : ∀ c ∈ s.bytes, c < 128) (hshort : s.length + 2 ≤ 2 ^ 30)
    (hlong : 0 < s.length) (h : Head rest lines) :
    Head (s.bytes ++ 13 :: 10 :: rest) (s :: lines) := by
  have hnul : 0 ∉ s.bytes ++ [13, 10] := by simp [s.noNul]
  have hline := Head.line (wireLine_of_ascii hcr hascii rest)
    (by rw [List.length_append]; exact hshort)
    (by simpa [CString.length, CString.ofMemory_bytes hnul] using hlong) h
  rwa [chop_line] at hline

theorem head_of_simple {fields : List Field} (h : ∀ f ∈ fields, f.Simple) (rest : List UInt8) :
    Head (fields.flatMap (fun f => f.header.line.bytes) ++ (crlf.bytes ++ rest))
      (fields.map Field.text) := by
  have hcrlf : crlf.bytes = [] ++ [13, 10] := by decide
  induction fields with
  | nil =>
    have hblank := wireLine_of_ascii (List.not_mem_nil (a := 13)) (List.forall_mem_nil _) rest
    exact .done (by simpa [hcrlf] using hblank) (by decide) (by decide)
  | cons f fields ih =>
    have hf := h f List.mem_cons_self
    have hshort := hf.short
    have hascii := hf.ascii
    rw [CString.length, f.line_bytes, List.length_append] at hshort
    rw [List.flatMap_cons, f.line_bytes, List.append_assoc, List.append_assoc]
    refine Head.ascii_line f.cr_notMem ?_ hshort ?_ (ih fun g hg => h g (List.mem_cons_of_mem _ hg))
    · intro c hc
      rw [f.text_bytes] at hc
      simp only [List.mem_append, List.mem_cons] at hc hascii
      rcases hc with hc | rfl | rfl | hc
      · exact hascii c (Or.inl hc)
      · decide
      · decide
      · exact hascii c (Or.inr hc)
    · rw [CString.length, f.text_bytes, List.length_append, List.length_cons]
      omega

/-- Fields that come back were read whole, and have one word for a value. -/
theorem simple_of_head {fields : List Field} {tail : List UInt8} {lines : List CString}
    (hhead : Head (fields.flatMap (fun f => f.header.line.bytes) ++ tail) lines)
    (hlines : List.Forall₂ HeaderLine lines (fields.map Field.header)) :
    ∀ f ∈ fields, f.Simple := by
  induction fields generalizing lines with
  | nil => simp
  | cons f fields ih =>
    rw [List.flatMap_cons, f.line_bytes, List.append_assoc, List.append_assoc] at hhead
    rw [List.map_cons] at hlines
    obtain ⟨line, lines, hline, hrest, rfl⟩ := List.forall₂_cons_right_iff.mp hlines
    generalize hinput : f.text.bytes ++ ([13, 10] ++ (_ ++ tail)) = input at hhead
    cases hhead with
    | @line buffer _ rest _ hwire hshort _ hhead =>
      subst hinput
      rcases wireLine_cases f.cr_notMem hwire with ⟨rfl, rfl, hascii⟩ | ⟨rest', hcut⟩
      · rw [chop_line, f.headerLine_iff] at hline
        intro g hg
        rcases List.mem_cons.mp hg with rfl | hg
        · refine ⟨fun c hc => hascii c ?_, hline.1, hline.2, ?_⟩
          · rw [g.text_bytes]
            simp only [List.mem_append, List.mem_cons] at hc ⊢
            tauto
          · rw [CString.length, g.line_bytes]
            exact hshort
        · exact ih hhead hrest g hg
      · exact absurd hline (Field.not_headerLine_of_prefix hcut)

namespace RequestLine

variable (l : RequestLine)

theorem visible {c : UInt8} (h : c ∈ l.text.bytes) : 32 ≤ c ∧ c ≤ 126 := by
  have hblank : (CString.lit " ").bytes = [32] := by decide
  have hword : ∀ w : Word, c ∈ w.text.bytes → 32 ≤ c ∧ c ≤ 126 := fun w hc =>
    ⟨UInt8.le_trans (by decide) (w.visible c hc).1, (w.visible c hc).2⟩
  simp only [text, CString.append_bytes, hblank, List.mem_append, List.mem_singleton] at h
  rcases h with (((h | rfl) | h) | rfl) | h
  · exact hword _ h
  · decide
  · exact hword _ h
  · decide
  · exact hword _ h

theorem cr_notMem : 13 ∉ l.text.bytes := fun h => absurd (l.visible h).1 (by decide)

theorem ascii {c : UInt8} (h : c ∈ l.text.bytes) : c < 128 :=
  UInt8.lt_of_le_of_lt (l.visible h).2 (by decide)

theorem tokens_text :
    l.text.tokens 32 = [l.method.text, l.rawPath.text, l.httpVersion.text] := by
  have hblank : (CString.lit " ").bytes = [32] := by decide
  have hword : ∀ w : Word, 32 ∉ w.text.bytes := fun w h => absurd (w.visible 32 h).1 (by decide)
  have htail : (l.rawPath.text ++ .lit " " ++ l.httpVersion.text).tokens 32 =
      [l.rawPath.text, l.httpVersion.text] := by
    rw [CString.tokens_cons (w := l.rawPath.text) (r := l.httpVersion.text) (by simp [hblank])
      (hword _) l.rawPath.nonempty, CString.tokens_word (hword _) l.httpVersion.nonempty]
  rw [CString.tokens_cons (w := l.method.text)
    (r := l.rawPath.text ++ .lit " " ++ l.httpVersion.text) (by simp [text, hblank])
    (hword _) l.method.nonempty, htail]

end RequestLine

/-- **Header lines come back** as they were written exactly if each value is one
word other than `Basic`, all characters are ASCII, and the lines are neither too
long nor too many. -/
theorem headers_iff (l : RequestLine) (fields : List Field) (rest : List UInt8) :
    (∃ request, readRequest (requestHead l fields ++ rest) = .ok request ∧
      request.headers = fields.map Field.header) ↔
    l.text.length + 2 ≤ 2 ^ 30 ∧ fields.length + 1 < 2 ^ 31 ∧ ∀ f ∈ fields, f.Simple := by
  have hcrlf : crlf.bytes = [13, 10] := by decide
  have hinput : requestHead l fields ++ rest = l.text.bytes ++ 13 :: 10 ::
      (fields.flatMap (fun f => f.header.line.bytes) ++ (crlf.bytes ++ rest)) := by
    simp [requestHead, hcrlf]
  rw [hinput]
  simp only [readRequest_eq_ok_iff]
  constructor
  · intro h
    obtain ⟨request, hdenotes, hheaders⟩ := h
    obtain ⟨hhead, hfew, htokens, hlines⟩ := hdenotes
    subst hheaders
    generalize hline : l.text.bytes ++ _ = input at hhead
    cases hhead with
    | line hwire hshort hlong hhead =>
      subst hline
      rcases wireLine_cases l.cr_notMem hwire with ⟨rfl, rfl, -⟩ | ⟨rest', hcut⟩
      · refine ⟨?_, ?_, simple_of_head hhead hlines⟩
        · rwa [List.length_append] at hshort
        · rw [hlines.length_eq, List.length_map] at hfew
          exact hfew
      · have hmem : 255 ∈ l.text.bytes := hcut ▸ List.mem_append_right _ List.mem_cons_self
        exact absurd (l.ascii hmem) (by decide)
  · intro h
    obtain ⟨hshort, hfew, hsimple⟩ := h
    have hlong : 0 < l.text.length := by
      have := List.length_pos_iff.mpr l.method.nonempty
      simp only [RequestLine.text, CString.append_length]
      unfold CString.length
      omega
    have hlines : List.Forall₂ HeaderLine (fields.map Field.text) (fields.map Field.header) := by
      rw [List.forall₂_map_left_iff, List.forall₂_map_right_iff, List.forall₂_same]
      exact fun f hf => f.headerLine_iff.mpr ⟨(hsimple f hf).word, (hsimple f hf).not_basic⟩
    exact ⟨_, .request (Head.ascii_line l.cr_notMem (fun _ => l.ascii) hshort hlong
      (head_of_simple hsimple rest)) (by simpa using hfew) l.tokens_text hlines, rfl⟩

/-- `GET / HTTP/1.1`. -/
def getLine : RequestLine where
  method := ⟨.lit "GET", by decide, by decide +kernel⟩
  rawPath := ⟨.lit "/", by decide, by decide +kernel⟩
  httpVersion := ⟨.lit "HTTP/1.1", by decide, by decide +kernel⟩

/-- A value with a blank in it. -/
def acceptEncoding : Field where
  key := .lit "Accept-Encoding"
  value := .lit "gzip, deflate"
  key_nonempty := by decide
  key_word := by decide +kernel
  value_nonempty := by decide
  value_line := by decide +kernel
  value_trimmed := by decide

/-- Credentials. -/
def authorization : Field where
  key := .lit "Authorization"
  value := .lit "Basic Y3MyNTI6Z3VzdGF2bw=="
  key_nonempty := by decide
  key_word := by decide +kernel
  value_nonempty := by decide
  value_line := by decide +kernel
  value_trimmed := by decide

/-- Two headers of the expected output in `lab5-src/examples`, each of which is cut. -/
theorem values_cut :
    ∃ request, readRequest (requestHead getLine [acceptEncoding, authorization]) = .ok request ∧
      request.headers = [⟨some (.lit "Accept-Encoding"), some (.lit "gzip,")⟩,
        ⟨some (.lit "Authorization"), some (.lit "Y3MyNTI6Z3VzdGF2bw==")⟩] ∧
      request.headers ≠ [acceptEncoding, authorization].map Field.header := by
  refine ⟨⟨.lit "GET", .lit "/index.html", .lit "HTTP/1.1", _, .lit "", .lit ""⟩, ?_, rfl, ?_⟩
  · decide +kernel
  · decide +kernel

end Cs252.Http
