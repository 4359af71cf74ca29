import Cs252.Lib.CString

/-!
# Cs252.Lib.MessageFormat

Messages on a stream of bytes: a start line, fields with a name and a value, an
empty line, and a body whose length a field announces.

`read` is a reader of such messages. What is written is read back, whatever
follows it (`read_write`). The reader looks at no byte behind the message
(`read_append`), so the beginnings of a stream in which it finds a message are
those that have all of it (`read_prefix_iff`).
-/

/-- A message. -/
structure TextMessage where
  startLine : List UInt8
  /-- The names and the values. -/
  fields : List (List UInt8 × List UInt8)
  body : List UInt8
  deriving DecidableEq

namespace TextMessage

/-! ### Lines -/

/-- The end of a line. -/
def lineEnd : List UInt8 := [13, 10]

/-- The line that a stream begins with, and what follows its end. -/
def takeLine : List UInt8 → Option (List UInt8 × List UInt8)
  | [] => none
  | c :: input =>
    if lineEnd <+: c :: input then some ([], (c :: input).drop 2)
    else (takeLine input).map fun r => (c :: r.1, r.2)

variable {line input rest : List UInt8}

theorem takeLine_append (h : takeLine input = some (line, rest)) (more : List UInt8) :
    takeLine (input ++ more) = some (line, rest ++ more) := by
  induction input generalizing line with
  | nil => cases h
  | cons c input ih =>
    rw [takeLine] at h
    rw [List.cons_append, takeLine]
    split at h
    · next hend =>
      obtain ⟨tail, htail⟩ := hend
      rw [← List.cons_append, ← htail, List.append_assoc, if_pos (List.prefix_append _ _)]
      rw [← htail] at h
      cases h
      rfl
    · next hend =>
      obtain ⟨r, hr, hline⟩ := Option.map_eq_some_iff.mp h
      cases hline
      have hlonger : 2 ≤ (c :: input).length := by
        cases input with
        | nil => cases hr
        | cons d input => exact Nat.le_add_left 2 _
      have hend' : ¬lineEnd <+: c :: (input ++ more) := fun hpre =>
        hend (List.prefix_of_prefix_length_le hpre (List.prefix_append (c :: input) more) hlonger)
      rw [if_neg hend', ih hr, Option.map_some]

/-- A line without a line end in it is read up to its own. -/
theorem takeLine_line (h : ¬lineEnd <:+: line ++ [13]) (rest : List UInt8) :
    takeLine (line ++ (lineEnd ++ rest)) = some (line, rest) := by
  induction line with
  | nil => rfl
  | cons c line ih =>
    have hend : ¬lineEnd <+: c :: (line ++ (lineEnd ++ rest)) := by
      intro hpre
      have hlonger : 2 ≤ (c :: line ++ [13]).length := by simp
      have hline : c :: line ++ [13] <+: c :: (line ++ (lineEnd ++ rest)) :=
        ⟨10 :: rest, by simp [lineEnd]⟩
      exact h (List.prefix_of_prefix_length_le hpre hline hlonger).isInfix
    rw [List.cons_append, takeLine, if_neg hend,
      ih fun hin => h (hin.trans (List.suffix_cons c _).isInfix), Option.map_some]

theorem takeLine_length (h : takeLine input = some (line, rest)) : rest.length < input.length := by
  induction input generalizing line with
  | nil => cases h
  | cons c input ih =>
    rw [takeLine] at h
    split at h
    · cases h
      rw [List.length_drop, List.length_cons]
      omega
    · obtain ⟨r, hr, hline⟩ := Option.map_eq_some_iff.mp h
      cases hline
      exact Nat.lt_succ_of_lt (ih hr)

/-! ### Fields -/

/-- The name of a field up to the first colon, and the value after the blanks behind it. -/
def parseField (line : List UInt8) : Option (List UInt8 × List UInt8) :=
  if 58 ∈ line then
    some (line.takeWhile (· ≠ 58), ((line.dropWhile (· ≠ 58)).drop 1).dropWhile (· = 32))
  else none

/-- The fields up to an empty line, and what follows it. -/
def readFields (input : List UInt8) : Option (List (List UInt8 × List UInt8) × List UInt8) :=
  match h : takeLine input with
  | none => none
  | some (line, rest) =>
    have := takeLine_length h
    if line = [] then some ([], rest)
    else do
      let field ← parseField line
      let (fields, rest) ← readFields rest
      return (field :: fields, rest)
termination_by input.length

theorem readFields_of_line (h : takeLine input = some (line, rest)) :
    readFields input =
      if line = [] then some ([], rest)
      else (parseField line).bind fun field =>
        (readFields rest).map fun r => (field :: r.1, r.2) := by
  rw [readFields]
  split
  · next h' => rw [h] at h'; cases h'
  · next h' =>
    rw [h] at h'
    cases h'
    split
    · rfl
    · cases parseField line with
      | none => rfl
      | some field => cases readFields rest <;> rfl

theorem readFields_of_none (h : takeLine input = none) : readFields input = none := by
  rw [readFields]
  split
  · rfl
  · next h' => rw [h] at h'; cases h'

variable {fields : List (List UInt8 × List UInt8)}

theorem readFields_append {input rest : List UInt8} {fields : List (List UInt8 × List UInt8)}
    (h : readFields input = some (fields, rest)) (more : List UInt8) :
    readFields (input ++ more) = some (fields, rest ++ more) := by
  cases hline : takeLine input with
  | none => rw [readFields_of_none hline] at h; cases h
  | some r =>
    obtain ⟨line, after⟩ := r
    have hshorter := takeLine_length hline
    rw [readFields_of_line hline] at h
    rw [readFields_of_line (takeLine_append hline more)]
    split
    · next hempty =>
      rw [if_pos hempty] at h
      cases h
      rfl
    · next hempty =>
      rw [if_neg hempty] at h
      obtain ⟨field, hfield, h⟩ := Option.bind_eq_some_iff.mp h
      obtain ⟨r, hr, hfields⟩ := Option.map_eq_some_iff.mp h
      cases hfields
      rw [hfield, Option.bind_some, readFields_append hr more, Option.map_some]
termination_by input.length

/-- The line of a field. -/
def fieldLine (field : List UInt8 × List UInt8) : List UInt8 := field.1 ++ [58, 32] ++ field.2

/-- A field that can be written in a line. -/
structure FieldOk (field : List UInt8 × List UInt8) : Prop where
  name : 58 ∉ field.1
  value : field.2.head? ≠ some 32
  line : ¬lineEnd <:+: fieldLine field ++ [13]

theorem parseField_fieldLine {field : List UInt8 × List UInt8} (h : FieldOk field) :
    parseField (fieldLine field) = some field := by
  obtain ⟨name, value⟩ := field
  have hname : ∀ c ∈ name, decide (c ≠ 58) = true := fun c hc => by
    simpa using ne_of_mem_of_not_mem hc h.name
  have hvalue : value.dropWhile (· = 32) = value := by
    cases value with
    | nil => rfl
    | cons c value => exact List.dropWhile_cons_of_neg (by simpa using h.value)
  have hline : fieldLine (name, value) = name ++ 58 :: 32 :: value := by
    simp [fieldLine]
  rw [hline, parseField, if_pos (by simp), takeWhile_ne_append h.name,
    List.dropWhile_append_of_pos hname]
  simp [hvalue]

theorem readFields_write (h : ∀ field ∈ fields, FieldOk field) (rest : List UInt8) :
    readFields (fields.flatMap (fun field => fieldLine field ++ lineEnd) ++ (lineEnd ++ rest)) =
      some (fields, rest) := by
  induction fields with
  | nil => exact (readFields_of_line (@takeLine_line [] (by decide) rest)).trans (if_pos rfl)
  | cons field fields ih =>
    obtain ⟨hfield, hfields⟩ := List.forall_mem_cons.mp h
    have hne : fieldLine field ≠ [] := by simp [fieldLine]
    rw [List.flatMap_cons, List.append_assoc, List.append_assoc,
      readFields_of_line (takeLine_line hfield.line _), if_neg hne, parseField_fieldLine hfield,
      Option.bind_some, ih hfields, Option.map_some]

/-! ### Messages -/

/-- Lower case, for the letters of the alphabet. -/
def lower (c : UInt8) : UInt8 := if 65 ≤ c ∧ c ≤ 90 then c + 32 else c

/-- A number, by its digits. -/
def parseNumber (digits : List UInt8) : Option Nat :=
  if digits ≠ [] ∧ digits.all isDigit then some (digitsValue digits) else none

/-- The length of the body, as the first field of that name announces it. -/
def announcedLength (fields : List (List UInt8 × List UInt8)) : Option Nat :=
  (fields.find? fun field => field.1.map lower = ascii "content-length").bind fun field =>
    parseNumber field.2

/-- The message that a stream begins with, and what follows it. -/
def read (input : List UInt8) : Option (TextMessage × List UInt8) := do
  let (startLine, rest) ← takeLine input
  let (fields, rest) ← readFields rest
  let length ← announcedLength fields
  if length ≤ rest.length then
    some (⟨startLine, fields, rest.take length⟩, rest.drop length)
  else none

/-- A message as it is written. -/
def write (m : TextMessage) : List UInt8 :=
  m.startLine ++ (lineEnd ++
    (m.fields.flatMap (fun field => fieldLine field ++ lineEnd) ++ (lineEnd ++ m.body)))

/-- A message that can be written: no line has a line end in it, and the length of the
body is announced. -/
structure WellFormed (m : TextMessage) : Prop where
  startLine : ¬lineEnd <:+: m.startLine ++ [13]
  fields : ∀ field ∈ m.fields, FieldOk field
  length : announcedLength m.fields = some m.body.length

variable {m m' : TextMessage}

/-- **What is written is read back**, and no more than that is taken. -/
theorem read_write (h : m.WellFormed) (rest : List UInt8) :
    read (m.write ++ rest) = some (m, rest) := by
  simp only [read, write, List.append_assoc, takeLine_line h.startLine, readFields_write h.fields,
    h.length, Option.bind_eq_bind, Option.bind_some]
  rw [if_pos (by simp), List.take_left, List.drop_left]

/-- The parts that are read. -/
theorem read_eq_some_iff :
    read input = some (m, rest) ↔
      ∃ r, takeLine input = some (m.startLine, r) ∧
        ∃ r', readFields r = some (m.fields, r') ∧
          announcedLength m.fields = some m.body.length ∧ r' = m.body ++ rest := by
  obtain ⟨startLine, fields, body⟩ := m
  unfold read
  simp only [Option.bind_eq_bind, Option.bind_eq_some_iff, Prod.exists]
  constructor
  · rintro ⟨startLine', r, hline, fields', r', hfields, length, hlength, h⟩
    split at h
    · next hle =>
      cases h
      refine ⟨r, hline, r', hfields, ?_, (List.take_append_drop _ _).symm⟩
      rw [hlength, List.length_take_of_le hle]
    · cases h
  · rintro ⟨r, hline, r', hfields, hlength, rfl⟩
    refine ⟨startLine, r, hline, fields, _, hfields, body.length, hlength, ?_⟩
    rw [if_pos (by simp), List.take_left, List.drop_left]

/-- A message that has been read is not changed by what comes later. -/
theorem read_append (h : read input = some (m, rest)) (more : List UInt8) :
    read (input ++ more) = some (m, rest ++ more) := by
  obtain ⟨r, hline, r', hfields, hlength, rfl⟩ := read_eq_some_iff.mp h
  exact read_eq_some_iff.mpr ⟨_, takeLine_append hline more, _, readFields_append hfields more,
    hlength, List.append_assoc _ _ _⟩

/-- **A beginning of a stream** has a message in it if it has all of it. -/
theorem read_prefix_iff {sent : List UInt8} (h : m.WellFormed) (hsent : sent <+: m.write ++ rest) :
    (∃ more, read sent = some (m', more)) ↔ m' = m ∧ m.write.length ≤ sent.length := by
  obtain ⟨tail, htail⟩ := hsent
  constructor
  · intro hread
    obtain ⟨more, hread⟩ := hread
    have hall := read_append hread tail
    rw [htail, read_write h] at hall
    cases hall
    have hlength := congrArg List.length htail
    rw [List.length_append, List.length_append, List.length_append] at hlength
    exact ⟨rfl, by omega⟩
  · rintro ⟨rfl, hle⟩
    have hpre : m'.write <+: sent :=
      List.prefix_of_prefix_length_le ⟨rest, rfl⟩ ⟨tail, htail⟩ hle
    obtain ⟨more, rfl⟩ := hpre
    exact ⟨more, read_write h more⟩

end TextMessage
