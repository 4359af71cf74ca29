import Mathlib.Data.List.Induction

/-!
# Cs252.Lib.Terminal

A terminal that shows what is written to it.

The row with the cursor is split at the cursor, so that the cursor is never beyond
the end of the row. `Shows` says what stands before the cursor, and that only
blanks are behind it; the lemmas follow `Shows` through what line editors write:
more text, and blanks over the end of a text (`Shows.erase`).
-/

namespace Cs252

/-- The rows above the cursor, and the cells of its own row before and behind it. -/
structure Terminal where
  width : Nat
  above : List (List UInt8)
  before : List UInt8
  behind : List UInt8
  deriving Repr, DecidableEq

namespace Terminal

/-- The cursor goes to the beginning of a new row. -/
def newline (t : Terminal) : Terminal :=
  { t with above := t.above ++ [t.before ++ t.behind], before := [], behind := [] }

/-- The cursor goes back, but not out of its row. -/
def back (t : Terminal) : Terminal :=
  match t.before.getLast? with
  | none => t
  | some c => { t with before := t.before.dropLast, behind := c :: t.behind }

/-- A cell is written. A row that is full is left. -/
def cell (t : Terminal) (c : UInt8) : Terminal :=
  let t' := { t with before := t.before ++ [c], behind := t.behind.tail }
  if t.before.length + 1 = t.width then t'.newline else t'

/-- A byte is written: a backspace, a newline or a character. -/
def put (t : Terminal) (c : UInt8) : Terminal :=
  if c = 8 then t.back else if c = 10 then t.newline else t.cell c

/-- Some bytes are written. -/
def write (t : Terminal) (bytes : List UInt8) : Terminal := bytes.foldl put t

variable {t : Terminal} {text : List UInt8}

@[simp] theorem write_nil : t.write [] = t := rfl

@[simp] theorem write_cons (c : UInt8) : t.write (c :: text) = (t.put c).write text := rfl

@[simp] theorem write_append (more : List UInt8) :
    t.write (text ++ more) = (t.write text).write more := List.foldl_append

theorem put_backspace : t.put 8 = t.back := if_pos rfl

theorem put_newline : t.put 10 = t.newline := rfl

/-- A byte that is shown. -/
def Visible (c : UInt8) : Prop := c ≠ 8 ∧ c ≠ 10

instance : DecidablePred Visible := fun _ => inferInstanceAs (Decidable (_ ∧ _))

/-- The text before the cursor, with blanks behind it. -/
structure Shows (t : Terminal) (text : List UInt8) : Prop where
  before : t.before = text
  behind : ∃ k, t.behind = List.replicate k 32

/-- A terminal that differs in the row with the cursor only. -/
structure SameRows (t t' : Terminal) : Prop where
  width : t'.width = t.width
  above : t'.above = t.above

theorem SameRows.refl (t : Terminal) : SameRows t t := ⟨rfl, rfl⟩

theorem SameRows.trans {t t' t'' : Terminal} (h : SameRows t t') (h' : SameRows t' t'') :
    SameRows t t'' := ⟨h'.width.trans h.width, h'.above.trans h.above⟩

/-- Visible text, in a row with room for it. -/
theorem write_visible {more : List UInt8} (hvisible : ∀ c ∈ more, Visible c)
    (hroom : t.before.length + more.length < t.width) :
    t.write more =
      { t with before := t.before ++ more, behind := t.behind.drop more.length } := by
  induction more generalizing t with
  | nil => simp
  | cons c more ih =>
    obtain ⟨⟨hback, hnewline⟩, hmore⟩ := List.forall_mem_cons.mp hvisible
    rw [List.length_cons] at hroom
    have hput : t.put c = { t with before := t.before ++ [c], behind := t.behind.tail } := by
      rw [put, if_neg hback, if_neg hnewline, cell, if_neg (by omega)]
    rw [write_cons, hput, ih hmore (by simpa [Nat.add_assoc, Nat.add_comm 1] using hroom)]
    simp [List.append_assoc]

/-- The cursor goes back over some cells. -/
theorem write_backspaces {pre gone : List UInt8} (h : t.before = pre ++ gone) :
    t.write (List.replicate gone.length 8) = { t with before := pre, behind := gone ++ t.behind } := by
  induction gone using List.reverseRecOn generalizing t with
  | nil =>
    rw [List.append_nil] at h
    simp [← h]
  | append_singleton gone c ih =>
    have hback : t.back = { t with before := pre ++ gone, behind := c :: t.behind } := by
      rw [back, h, ← List.append_assoc, List.getLast?_concat, List.dropLast_concat]
    rw [List.length_append, List.length_singleton, List.replicate_succ, write_cons, put_backspace,
      hback, ih rfl, List.append_assoc]
    rfl

/-- A whole row, at the beginning of one. -/
theorem write_row {row : List UInt8} (hbefore : t.before = []) (hbehind : t.behind = [])
    (hvisible : ∀ c ∈ row, Visible c) (hroom : row.length < t.width) :
    t.write (row ++ [10]) = { t with above := t.above ++ [row] } := by
  have hwrite := write_visible hvisible (by rwa [hbefore, List.length_nil, Nat.zero_add])
  rw [write_append, hwrite, hbefore, hbehind]
  simp [put_newline, Terminal.newline]

/-- Whole rows. -/
theorem write_rows {rows : List (List UInt8)} (hbefore : t.before = []) (hbehind : t.behind = [])
    (hrows : ∀ row ∈ rows, (∀ c ∈ row, Visible c) ∧ row.length < t.width) :
    t.write (rows.flatMap (· ++ [10])) = { t with above := t.above ++ rows } := by
  induction rows generalizing t with
  | nil => simp
  | cons row rows ih =>
    obtain ⟨⟨hvisible, hroom⟩, hrest⟩ := List.forall_mem_cons.mp hrows
    have hrow := write_row hbefore hbehind hvisible hroom
    have hrows := ih (t := { t with above := t.above ++ [row] }) hbefore hbehind hrest
    rw [List.flatMap_cons, write_append, hrow, hrows, List.append_assoc]
    rfl

namespace Shows

/-- More text is typed. -/
theorem type {more : List UInt8} (h : t.Shows text) (hvisible : ∀ c ∈ more, Visible c)
    (hroom : (text ++ more).length < t.width) :
    (t.write more).Shows (text ++ more) ∧ SameRows t (t.write more) := by
  obtain ⟨k, hk⟩ := h.behind
  rw [List.length_append, ← h.before] at hroom
  rw [write_visible hvisible hroom]
  refine ⟨⟨?_, k - more.length, ?_⟩, ⟨rfl, rfl⟩⟩
  · rw [h.before]
  · rw [hk, List.drop_replicate]

/-- The end of the text is erased: back over it, blanks, and back again. -/
theorem erase {pre gone : List UInt8} (h : t.Shows (pre ++ gone))
    (hroom : (pre ++ gone).length < t.width) :
    let bytes := List.replicate gone.length 8 ++ List.replicate gone.length 32 ++
      List.replicate gone.length 8
    (t.write bytes).Shows pre ∧ SameRows t (t.write bytes) := by
  obtain ⟨k, hk⟩ := h.behind
  have hblanks : ({ t with before := pre, behind := gone ++ t.behind } : Terminal).write
      (List.replicate gone.length 32) =
      { t with before := pre ++ List.replicate gone.length 32, behind := t.behind } := by
    rw [write_visible]
    · simp
    · intro c hc
      rw [List.eq_of_mem_replicate hc]
      exact ⟨by decide, by decide⟩
    · simpa using hroom
  have hback := write_backspaces
    (t := { t with before := pre ++ List.replicate gone.length 32, behind := t.behind }) rfl
  rw [List.length_replicate] at hback
  simp only [write_append]
  rw [write_backspaces h.before, hblanks, hback]
  refine ⟨⟨rfl, gone.length + k, ?_⟩, ⟨rfl, rfl⟩⟩
  rw [hk, List.replicate_append_replicate]

/-- A row that is ended stays as it is. -/
theorem newline (h : t.Shows text) : ∃ k,
    t.newline = { t with
      above := t.above ++ [text ++ List.replicate k 32], before := [], behind := [] } := by
  obtain ⟨k, hk⟩ := h.behind
  exact ⟨k, by rw [Terminal.newline, h.before, hk]⟩

end Shows

end Terminal

end Cs252
