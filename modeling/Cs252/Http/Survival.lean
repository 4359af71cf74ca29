import Cs252.Http.Answers
import Cs252.Http.Connection

/-!
# Cs252.Http.Survival

Which input `handle` survives.

`Denotes` is the grammar of the requests that the code handles: lines of ASCII
characters, a first line with three words at least, and then lines with a key
and a value. Nothing else in the code makes up for a word that is missing, for a
line that is `NULL`, or for a head without lines: on any other input, `handle`
uses a variable that it has not set, or `strlen` of `NULL`.
-/

namespace Cs252.Http

/-! ### The grammar -/

/-- ASCII characters without a line end. -/
def Plain (text : List UInt8) : Prop := (∀ c ∈ text, c < 128) ∧ ¬[13, 10] <:+: text

/-- `WireLine line input rest`: the first line of the input, up to its line end,
to a byte 255 or to the end, and the bytes after it. -/
inductive WireLine : List UInt8 → List UInt8 → List UInt8 → Prop
  | crlf {text rest : List UInt8} :
      Plain (text ++ [13]) → WireLine (text ++ [13, 10]) (text ++ 13 :: 10 :: rest) rest
  | eof {text rest : List UInt8} : Plain text → WireLine text (text ++ 255 :: rest) rest
  | closed {text : List UInt8} : Plain text → WireLine text text []

/-- The lines of the head of a request, without their line ends. A line that is
cut off by a zero byte loses two characters all the same. -/
inductive Head : List UInt8 → List CString → Prop
  | done {line input rest : List UInt8} : WireLine line input rest → line.length ≤ 2 ^ 30 →
      (CString.ofMemory line).length ≤ 2 → Head input []
  | line {line input rest : List UInt8} {lines : List CString} : WireLine line input rest →
      line.length ≤ 2 ^ 30 → 2 < (CString.ofMemory line).length → Head rest lines →
      Head input (chop (.ofMemory line) :: lines)

/-- A header line has a key, and a value that is not `Basic`. -/
def HeaderLine (line : CString) (header : Header) : Prop :=
  ∃ key skipped value words, line.tokens 32 = key :: (skipped ++ value :: words) ∧
    (∀ word ∈ skipped, word = .lit "Basic") ∧ value ≠ .lit "Basic" ∧
    header = ⟨some (dropColon key), some value⟩

/-- The request that some input denotes. -/
inductive Denotes : List UInt8 → HttpRequest → Prop
  | request {input : List UInt8} {firstLine : CString} {lines : List CString}
      {method rawPath httpVersion : CString} {words : List CString} {headers : List Header} :
      Head input (firstLine :: lines) → lines.length + 1 < 2 ^ 31 →
      firstLine.tokens 32 = method :: rawPath :: httpVersion :: words →
      List.Forall₂ HeaderLine lines headers →
      Denotes input {
        method
        requestUri := requestPath rawPath
        httpVersion
        headers
        messageBody := .lit ""
        query := .lit "" }

/-! ### Lines -/

/-- The buffer has doubled some times, and has room for `i` characters. -/
def Room (maxLength i : Nat) : Prop := i ≤ maxLength ∧ ∃ k ≤ 30, maxLength = 2 ^ k

theorem Room.le {maxLength i : Nat} (h : Room maxLength i) : i ≤ 2 ^ 30 := by
  obtain ⟨hle, k, hk, rfl⟩ := h
  exact Nat.le_trans hle (Nat.pow_le_pow_right (by decide) hk)

/-- A buffer that has doubled fewer than thirty times can double again. -/
theorem pow_lt_iff {k : Nat} : 2 ^ k < 2 ^ 30 ↔ k < 30 := Nat.pow_lt_pow_iff_right (by decide)

theorem lineRoom_eq {maxLength i : Nat} (h : Room maxLength i) (hi : i + 1 ≤ 2 ^ 30) :
    ∃ maxLength', lineRoom maxLength i = .ok maxLength' ∧ Room maxLength' (i + 1) := by
  obtain ⟨hle, k, hk, hpow⟩ := h
  unfold lineRoom
  split
  · next hfull =>
    have hlt : k < 30 := pow_lt_iff.mp (by omega)
    have hpos : 0 < 2 ^ k := Nat.pow_pos (by decide)
    rw [asInt_of_lt (by omega) (by omega), if_pos (by omega)]
    exact ⟨_, rfl, by omega, k + 1, hlt, by rw [Nat.pow_succ]; omega⟩
  · exact ⟨_, rfl, by omega, k, hk, hpow⟩

theorem lineRoom_eq_ok {maxLength maxLength' i : Nat} (h : Room maxLength i)
    (hroom : lineRoom maxLength i = .ok maxLength') : Room maxLength' (i + 1) := by
  have hmax := (show Room maxLength maxLength from ⟨Nat.le_refl _, h.2⟩).le
  obtain ⟨hle, k, hk, hpow⟩ := h
  unfold lineRoom at hroom
  split at hroom
  · split at hroom <;> cases hroom
    next hnonneg =>
    have hlt := lt_of_le_asInt (by omega) hnonneg
    have hpos : 0 < 2 ^ k := Nat.pow_pos (by decide)
    exact ⟨by omega, k + 1, pow_lt_iff.mp (by omega), by rw [Nat.pow_succ]; omega⟩
  · cases hroom
    exact ⟨by omega, k, hk, hpow⟩

theorem endsLine_append (text : List UInt8) : endsLine (text ++ [13] ++ [10]) = true := by
  rw [endsLine, List.isSuffixOf_iff_suffix, List.append_assoc]
  exact ⟨text, rfl⟩

theorem not_plain_of_endsLine {line : List UInt8} (h : endsLine line = true) : ¬Plain line :=
  fun hplain => hplain.2 (List.isSuffixOf_iff_suffix.mp h).isInfix

/-- A character after a plain text ends the line, or the text stays plain. -/
theorem plain_concat {line : List UInt8} {c : UInt8} (h : Plain line) (hc : c < 128) :
    Plain (line ++ [c]) ∨ ∃ text, line = text ++ [13] ∧ c = 10 := by
  by_cases hinfix : [13, 10] <:+: line ++ [c]
  · have hends := (List.infix_concat_iff.mp hinfix).resolve_right h.2
    obtain ⟨t, ht, text, rfl⟩ := (List.suffix_concat_iff.mp hends).resolve_left (by simp)
    have ht : [13] ++ [10] = t ++ [c] := ht
    obtain ⟨rfl, hc⟩ := List.append_inj' ht rfl
    exact Or.inr ⟨text, rfl, (List.singleton_inj.mp hc).symm⟩
  · refine Or.inl ⟨fun d hd => ?_, hinfix⟩
    rcases List.mem_append.mp hd with hd | hd
    · exact h.1 d hd
    · rwa [List.mem_singleton.mp hd]

theorem readLine_of_endsLine {maxLength : Nat} {line : List UInt8} (h : endsLine line = true)
    (input : List UInt8) : readLine maxLength line input = .ok (some line, input) := by
  cases input with
  | nil => rfl
  | cons c input => rw [readLine, if_pos h]

theorem readLine_of_plain {maxLength : Nat} {line : List UInt8} {c : UInt8} (hline : Plain line)
    (hc : c < 128) (input : List UInt8) :
    readLine maxLength line (c :: input) =
      (lineRoom maxLength line.length >>= fun maxLength =>
        readLine maxLength (line ++ [c]) input) := by
  have hends : ¬endsLine line := fun h => not_plain_of_endsLine h hline
  have heof : c ≠ 255 := by rintro rfl; exact absurd hc (by decide)
  rw [readLine, if_neg hends, if_neg heof, if_neg (UInt8.not_le.mpr hc)]

/-- What `socket_read_line` returns is the line on the wire. -/
theorem wireLine_of_readLine {maxLength : Nat} {line line' input rest : List UInt8}
    (hline : Plain line) (hroom : Room maxLength line.length)
    (h : readLine maxLength line input = .ok (some line', rest)) :
    WireLine line' (line ++ input) rest ∧ line'.length ≤ 2 ^ 30 := by
  induction input generalizing maxLength line with
  | nil =>
    cases h
    rw [List.append_nil]
    exact ⟨.closed hline, hroom.le⟩
  | cons c input ih =>
    by_cases hc : c < 128
    · rw [readLine_of_plain hline hc] at h
      obtain ⟨maxLength', hgrown, h⟩ := bind_eq_ok.mp h
      have hroom' := lineRoom_eq_ok hroom hgrown
      rcases plain_concat hline hc with hplain | ⟨text, rfl, rfl⟩
      · rw [List.append_cons]
        exact ih hplain (by simpa using hroom') h
      · rw [readLine_of_endsLine (endsLine_append text)] at h
        cases h
        refine ⟨?_, by rw [List.length_append]; exact hroom'.le⟩
        simpa using WireLine.crlf hline
    · have hends : ¬endsLine line := fun h => not_plain_of_endsLine h hline
      rw [readLine, if_neg hends] at h
      split at h
      · cases h
        subst c
        exact ⟨.eof hline, hroom.le⟩
      · rw [if_pos (UInt8.not_lt.mp hc)] at h
        cases h

/-- Plain text is read to its end. -/
theorem readLine_append {maxLength : Nat} {line text : List UInt8}
    (hplain : Plain (line ++ text)) (hroom : Room maxLength line.length)
    (hle : (line ++ text).length ≤ 2 ^ 30) (input : List UInt8) :
    ∃ maxLength', Room maxLength' (line ++ text).length ∧
      readLine maxLength line (text ++ input) = readLine maxLength' (line ++ text) input := by
  induction text generalizing maxLength line with
  | nil => exact ⟨maxLength, by rwa [List.append_nil], by rw [List.append_nil, List.nil_append]⟩
  | cons c text ih =>
    have hline : Plain line := ⟨fun d hd => hplain.1 d (List.mem_append_left _ hd),
      fun h => hplain.2 (List.infix_append_of_infix_left h)⟩
    have hc : c < 128 := hplain.1 c (List.mem_append_right _ List.mem_cons_self)
    rw [List.length_append, List.length_cons] at hle
    obtain ⟨maxLength', hgrown, hroom'⟩ := lineRoom_eq hroom (by omega)
    rw [List.append_cons] at hplain ⊢
    obtain ⟨maxLength'', hroom'', hread⟩ := ih hplain (by simpa using hroom')
      (by simp only [List.length_append, List.length_singleton]; omega)
    refine ⟨maxLength'', hroom'', ?_⟩
    rw [List.cons_append, readLine_of_plain hline hc, hgrown]
    exact hread

theorem socketReadLine_append {text : List UInt8} (hplain : Plain text)
    (hle : text.length ≤ 2 ^ 30) (input : List UInt8) :
    ∃ maxLength, Room maxLength text.length ∧
      socketReadLine (text ++ input) = readLine maxLength text input :=
  readLine_append (show Plain ([] ++ text) from hplain) ⟨by decide, 4, by decide, rfl⟩ hle input

/-- A line on the wire is what `socket_read_line` returns. -/
theorem readLine_of_wireLine {line input rest : List UInt8} (h : WireLine line input rest)
    (hle : line.length ≤ 2 ^ 30) : socketReadLine input = .ok (some line, rest) := by
  cases h with
  | closed hplain =>
    obtain ⟨maxLength, -, hread⟩ := socketReadLine_append hplain hle []
    rw [List.append_nil] at hread
    exact hread
  | eof hplain =>
    obtain ⟨maxLength, -, hread⟩ := socketReadLine_append hplain hle (255 :: rest)
    rw [hread, readLine, if_neg fun h => not_plain_of_endsLine h hplain, if_pos rfl]
  | @crlf text _ hplain =>
    rw [List.length_append, List.length_cons, List.length_singleton] at hle
    have hle' : (text ++ [13]).length + 1 ≤ 2 ^ 30 := by
      rw [List.length_append, List.length_singleton]
      omega
    obtain ⟨maxLength, hroom, hread⟩ :=
      socketReadLine_append hplain (Nat.le_of_succ_le hle') (10 :: rest)
    obtain ⟨maxLength', hgrown, -⟩ := lineRoom_eq hroom hle'
    have hline : text ++ [13, 10] = text ++ [13] ++ [10] := List.append_cons ..
    rw [List.append_cons text, hread, readLine_of_plain hplain (by decide), hgrown, hline]
    exact readLine_of_endsLine (endsLine_append text) rest

/-! ### The head -/

theorem linesRoom_eq_ok {numLines : Nat} (hlt : numLines < 2 ^ 31) :
    linesRoom numLines = .ok () ↔ numLines + 1 < 2 ^ 31 := by
  unfold linesRoom
  constructor
  · intro h
    split at h
    · next hnonneg =>
      have := lt_of_le_asInt (by omega) hnonneg
      omega
    · cases h
  · intro h
    rw [asInt_of_lt (by omega) (by omega), if_pos (by omega)]

theorem readHead_of_line {numLines : Nat} {input buffer rest : List UInt8}
    (hread : socketReadLine input = .ok (some buffer, rest)) :
    readHead numLines input =
      if 2 < (CString.ofMemory buffer).length then
        linesRoom numLines >>= fun _ => readHead (numLines + 1) rest >>= fun generalLines =>
          .ok (chop (.ofMemory buffer) :: generalLines)
      else .ok [] := by
  rw [readHead]
  split
  · next h => rw [hread] at h; cases h
  · next h => rw [hread] at h; cases h
  · next h =>
    rw [hread] at h
    cases h
    rfl

/-- A head is read only if each of its lines is. -/
theorem line_of_readHead {numLines : Nat} {input : List UInt8} {lines : List CString}
    (h : readHead numLines input = .ok lines) :
    ∃ buffer rest, socketReadLine input = .ok (some buffer, rest) := by
  rw [readHead] at h
  split at h
  · cases h
  · cases h
  · exact ⟨_, _, ‹_›⟩

theorem head_of_readHead {numLines : Nat} {input : List UInt8} {lines : List CString}
    (hlt : numLines < 2 ^ 31) (h : readHead numLines input = .ok lines) :
    Head input lines ∧ numLines + lines.length < 2 ^ 31 := by
  have hplain : Plain [] := ⟨fun c hc => absurd hc List.not_mem_nil, by simp⟩
  have hroom : Room initLineSize ([] : List UInt8).length := ⟨by decide, 4, by decide, rfl⟩
  obtain ⟨buffer, rest, hread⟩ := line_of_readHead h
  obtain ⟨hwire, hle⟩ := wireLine_of_readLine hplain hroom hread
  rw [readHead_of_line hread] at h
  split at h
  · next hlong =>
    obtain ⟨⟨⟩, hmore, h⟩ := bind_eq_ok.mp h
    obtain ⟨generalLines, hrest, h⟩ := bind_eq_ok.mp h
    cases h
    have hmore := (linesRoom_eq_ok hlt).mp hmore
    have hshorter := socketReadLine_length hread hlong
    obtain ⟨hhead, hfew⟩ := head_of_readHead hmore hrest
    refine ⟨.line hwire hle hlong hhead, ?_⟩
    rw [List.length_cons]
    omega
  · next hshort =>
    cases h
    exact ⟨.done hwire hle (Nat.not_lt.mp hshort), hlt⟩
termination_by input.length

theorem readHead_of_head {numLines : Nat} {input : List UInt8} {lines : List CString}
    (h : Head input lines) (hfew : numLines + lines.length < 2 ^ 31) :
    readHead numLines input = .ok lines := by
  induction h generalizing numLines with
  | done hwire hle hshort =>
    rw [readHead_of_line (readLine_of_wireLine hwire hle), if_neg (Nat.not_lt.mpr hshort)]
  | line hwire hle hlong hrest ih =>
    rw [List.length_cons] at hfew
    rw [readHead_of_line (readLine_of_wireLine hwire hle), if_pos hlong,
      (linesRoom_eq_ok (by omega)).mpr (by omega), ih (by omega)]
    rfl

/-! ### The request -/

theorem requestWords_eq_ok_iff {firstLine method rawPath httpVersion : CString} :
    requestWords firstLine = .ok (method, rawPath, httpVersion) ↔
      ∃ words, firstLine.tokens 32 = method :: rawPath :: httpVersion :: words := by
  unfold requestWords
  constructor
  · intro h
    split at h <;> cases h
    exact ⟨_, ‹_›⟩
  · intro hline
    obtain ⟨words, hwords⟩ := hline
    rw [hwords]

theorem readHeader_eq_ok_iff {line : CString} {header : Header} :
    readHeader line = .ok header ↔ HeaderLine line header := by
  unfold readHeader HeaderLine
  constructor
  · intro h
    split at h
    · cases h
    · next key words hwords =>
      split at h <;> cases h
      next value hvalue =>
      obtain ⟨hbasic, skipped, rest, rfl, hskipped⟩ := List.find?_eq_some_iff_append.mp hvalue
      exact ⟨key, skipped, value, rest, hwords, by simpa using hskipped, by simpa using hbasic, rfl⟩
  · intro hline
    obtain ⟨key, skipped, value, words, hwords, hskipped, hbasic, rfl⟩ := hline
    have hvalue : (skipped ++ value :: words).find? (· ≠ .lit "Basic") = some value :=
      List.find?_eq_some_iff_append.mpr
        ⟨by simpa using hbasic, skipped, words, rfl, by simpa using hskipped⟩
    rw [hwords]
    simp only [hvalue]

theorem readHeaders_eq_ok_iff {lines : List CString} {headers : List Header} :
    lines.mapM readHeader = .ok headers ↔ List.Forall₂ HeaderLine lines headers := by
  simp only [mapM_eq_ok_iff, readHeader_eq_ok_iff]

/-- The requests that are read are those that the grammar denotes. -/
theorem readRequest_eq_ok_iff {input : List UInt8} {request : HttpRequest} :
    readRequest input = .ok request ↔ Denotes input request := by
  constructor
  · intro h
    obtain ⟨generalLines, hhead, h⟩ := bind_eq_ok.mp h
    obtain ⟨hhead, hfew⟩ := head_of_readHead (by decide) hhead
    cases generalLines with
    | nil => cases h
    | cons firstLine lines =>
      obtain ⟨⟨method, rawPath, httpVersion⟩, hwords, h⟩ := bind_eq_ok.mp h
      obtain ⟨headers, hheaders, h⟩ := bind_eq_ok.mp h
      cases h
      obtain ⟨words, hwords⟩ := requestWords_eq_ok_iff.mp hwords
      rw [List.length_cons, Nat.zero_add] at hfew
      exact .request hhead hfew hwords (readHeaders_eq_ok_iff.mp hheaders)
  · intro hparts
    obtain ⟨hhead, hfew, hwords, hheaders⟩ := hparts
    refine bind_eq_ok.mpr ⟨_, readHead_of_head hhead (by rw [List.length_cons]; omega), ?_⟩
    refine bind_eq_ok.mpr ⟨_, requestWords_eq_ok_iff.mpr ⟨_, hwords⟩, ?_⟩
    exact bind_eq_ok.mpr ⟨_, readHeaders_eq_ok_iff.mpr hheaders, rfl⟩

/-- What is sent is sent for a request that the input denotes. -/
theorem handle_eq_ok_iff {host : Host} {input sent : List UInt8} :
    handle host input = .ok sent ↔
      ∃ request, Denotes input request ∧ parseRespond host request = .ok sent := by
  rw [handle, bind_eq_ok]
  exact exists_congr fun request => and_congr_left fun _ => readRequest_eq_ok_iff

end Cs252.Http
