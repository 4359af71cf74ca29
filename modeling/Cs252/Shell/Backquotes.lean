import Cs252.Shell.Wildcards

/-!
# Cs252.Shell.Backquotes

What the scanner reads in place of a command in backquotes.

The subshell prints what the command prints, and then its own good bye. The
action of the rule reads all of it to a buffer on the stack, takes the good bye
out of the text again, shortens the text by one character and pushes it back to
the input (`backquote`).

The last thing in the buffer that is pushed back is the first to be pushed: the
terminator. It stays in the input, between the text and what followed the
closing backquote.
-/

namespace Cs252.Shell

/-! ### The action -/

/-- `MAX_BUFFER`. -/
def maxBuffer : Nat := 1024

/-- The array `buffer` before anything is stored in it. -/
structure OutputBuffer where
  cells : List (Option Char)
  length_eq : cells.length = maxBuffer

/-- `buffer[i] = c`. -/
def storeAt (cells : List (Option Char)) (i : Nat) (c : Option Char) :
    Option (List (Option Char)) :=
  if i < cells.length then some (cells.set i c) else none

/-- A newline becomes a blank. -/
def toBlank (c : Char) : Char := if c = '\n' then ' ' else c

/-- The loop that reads the output to the end of file: the buffer, and `i`. -/
def readOutput (cells : List (Option Char)) (i : Nat) : Text → Option (List (Option Char) × Nat)
  | [] => some (cells, i)
  | c :: output => do
    let cells ← storeAt cells i (some (toBlank c))
    readOutput cells (i + 1) output

/-- `good_bye`. -/
def banner : Text := " Good bye!! ".toList

/-- `strstr`. -/
def strstr (needle : Text) : Text → Option Nat
  | [] => if needle = [] then some 0 else none
  | c :: text => if needle <+: c :: text then some 0 else (strstr needle text).map (· + 1)

theorem strstr_prefix {needle text : Text} {k : Nat} (h : strstr needle text = some k) :
    needle <+: text.drop k := by
  induction text generalizing k with
  | nil =>
    rw [strstr] at h
    split at h
    · next hnil =>
      rw [hnil]
      exact List.nil_prefix
    · cases h
  | cons c text ih =>
    rw [strstr] at h
    split at h
    · next hpre =>
      cases h
      exact hpre
    · obtain ⟨j, hj, rfl⟩ := Option.map_eq_some_iff.mp h
      exact ih hj

theorem strstr_le {needle text : Text} {k : Nat} (h : strstr needle text = some k) :
    k + needle.length ≤ text.length := by
  induction text generalizing k with
  | nil =>
    rw [strstr] at h
    split at h
    · next hnil =>
      cases h
      rw [hnil]
      exact Nat.le_refl _
    · cases h
  | cons c text ih =>
    rw [strstr] at h
    split at h
    · next hpre =>
      cases h
      rw [Nat.zero_add]
      exact hpre.length_le
    · obtain ⟨j, hj, rfl⟩ := Option.map_eq_some_iff.mp h
      rw [Nat.add_right_comm]
      exact Nat.succ_le_succ (ih hj)

/-- The loop that removes the good bye, on the string from `temp` on. What has been
passed is not looked at again. -/
def removeBanners (text : Text) : Text :=
  match h : strstr banner text with
  | none => text
  | some k =>
    have := strstr_le h
    text.take k ++ removeBanners (text.drop (k + banner.length))
termination_by text.length
decreasing_by
  have hpos : 0 < banner.length := by decide
  rw [List.length_drop]
  omega

/-- The loop that pushes a part of the buffer back, from its position `i` down. -/
def unputFrom (buffer : List (Option Char)) : Nat → List (Option Char) → List (Option Char)
  | 0, input => buffer.getD 0 none :: input
  | i + 1, input => unputFrom buffer i (buffer.getD (i + 1) none :: input)

/-- The action, for what is read from the pipe and the input after the closing
backquote: the input that is scanned next. -/
def backquote (stack : OutputBuffer) (printed : Text) (input : List (Option Char)) :
    Option (List (Option Char)) := do
  let (cells, i) ← readOutput stack.cells 0 printed
  let cells ← storeAt cells i none
  let buffer := removeBanners (← readText cells)
  -- an empty string has no last character
  if buffer = [] then none
  else
    let buffer := buffer.dropLast
    return unputFrom (buffer.map some ++ [none]) buffer.length input

/-! ### The buffer -/

theorem readOutput_eq (output : Text) (done cells : List (Option Char)) :
    readOutput (done ++ cells) done.length output =
      if output.length ≤ cells.length then
        some (done ++ (output.map fun c => some (toBlank c)) ++ cells.drop output.length,
          done.length + output.length)
      else none := by
  induction output generalizing done cells with
  | nil => simp [readOutput]
  | cons c output ih =>
    rw [readOutput, storeAt]
    cases cells with
    | nil => simp
    | cons x cells =>
      have hlt : done.length < (done ++ x :: cells).length := by simp
      have hset : (done ++ x :: cells).set done.length (some (toBlank c)) =
          (done ++ [some (toBlank c)]) ++ cells := by simp
      rw [if_pos hlt, Option.bind_eq_bind, Option.bind_some, hset]
      have hrest := ih (done ++ [some (toBlank c)]) cells
      rw [List.length_append, List.length_singleton] at hrest
      have hcount : done.length + 1 + output.length = done.length + (output.length + 1) := by omega
      rw [hrest, hcount]
      simp

/-- The terminator fits too, or it is stored out of bounds. -/
theorem storeAt_end (cells : List (Option Char)) (text : Text) :
    (storeAt (text.map some ++ cells) text.length none).bind readText =
      if cells = [] then none else some text := by
  cases cells with
  | nil => simp [storeAt]
  | cons x cells =>
    have hset : (text.map some ++ x :: cells).set text.length none =
        text.map some ++ none :: cells := by simp
    rw [storeAt, if_pos (by simp), hset]
    exact readText_append text cells

theorem unputFrom_eq {buffer : List (Option Char)} {i : Nat} (hi : i < buffer.length)
    (input : List (Option Char)) : unputFrom buffer i input = buffer.take (i + 1) ++ input := by
  induction i generalizing input with
  | zero =>
    cases buffer with
    | nil => cases hi
    | cons c buffer => rfl
  | succ i ih =>
    rw [unputFrom, ih (Nat.lt_of_succ_lt hi), List.take_add_one (i := i + 1),
      List.getD_eq_getElem?_getD, List.getElem?_eq_getElem hi, List.append_assoc]
    rfl

/-- What `strstr` and `strlen` see of the buffer, if the output fits it with its terminator. -/
theorem readOutput_text (stack : OutputBuffer) (printed : Text) :
    ((readOutput stack.cells 0 printed).bind fun x => (storeAt x.1 x.2 none).bind readText) =
      if printed.length < 1024 then some (printed.map toBlank) else none := by
  have hlength : stack.cells.length = 1024 := stack.length_eq
  have hmap : (printed.map fun c => some (toBlank c)) = (printed.map toBlank).map some :=
    (List.map_map (f := toBlank) (g := some)).symm
  have hread := readOutput_eq printed [] stack.cells
  rw [List.nil_append, List.nil_append, List.length_nil, Nat.zero_add, hlength, hmap] at hread
  have hend := storeAt_end (stack.cells.drop printed.length) (printed.map toBlank)
  rw [List.length_map] at hend
  have hfull : stack.cells.drop printed.length = [] ↔ ¬printed.length < 1024 := by
    rw [List.drop_eq_nil_iff, hlength, Nat.not_lt]
  rw [hread]
  by_cases hfits : printed.length ≤ 1024
  · rw [if_pos hfits, Option.bind_some, hend]
    by_cases hroom : printed.length < 1024
    · rw [if_neg fun h => hfull.mp h hroom, if_pos hroom]
    · rw [if_pos (hfull.mpr hroom), if_neg hroom]
  · rw [if_neg hfits, if_neg fun h => hfits (Nat.le_of_lt h)]
    rfl

/-- The whole buffer is pushed back, its terminator included. -/
theorem unputFrom_text (text : Text) (input : List (Option Char)) :
    unputFrom (text.map some ++ [none]) text.length input = text.map some ++ none :: input := by
  rw [unputFrom_eq (by simp), List.take_of_length_le (by simp), List.append_assoc]
  rfl

/-- **What the action does.** It faults when the output does not fit the buffer with its
terminator, and when nothing is left of it. -/
theorem backquote_eq (stack : OutputBuffer) (printed : Text) (input : List (Option Char)) :
    backquote stack printed input =
      if printed.length < 1024 ∧ removeBanners (printed.map toBlank) ≠ [] then
        some ((removeBanners (printed.map toBlank)).dropLast.map some ++ none :: input)
      else none := by
  have hbind : backquote stack printed input =
      ((readOutput stack.cells 0 printed).bind fun x => (storeAt x.1 x.2 none).bind readText).bind
        fun text => if removeBanners text = [] then none else
          some (unputFrom ((removeBanners text).dropLast.map some ++ [none])
            (removeBanners text).dropLast.length input) := by
    simp only [Option.bind_assoc]
    rfl
  rw [hbind, readOutput_text]
  by_cases hroom : printed.length < 1024
  · rw [if_pos hroom, Option.bind_some]
    by_cases hnil : removeBanners (printed.map toBlank) = []
    · rw [if_pos hnil, if_neg fun h => h.2 hnil]
    · rw [if_neg hnil, if_pos ⟨hroom, hnil⟩, unputFrom_text]
  · rw [if_neg hroom, if_neg fun h => hroom h.1]
    rfl

/-! ### The good bye -/

section Banner

variable {text : Text}

theorem strstr_eq_none_iff {needle : Text} (hneedle : needle ≠ []) :
    strstr needle text = none ↔ ¬needle <:+: text := by
  induction text with
  | nil => simp [strstr, hneedle]
  | cons c text ih =>
    rw [strstr, List.infix_cons_iff, not_or, ← ih]
    split
    · next h => simp [h]
    · next h => simp [h]

theorem removeBanners_of_none (h : strstr banner text = none) : removeBanners text = text := by
  rw [removeBanners]
  split
  · rfl
  · next h' => cases h.symm.trans h'

theorem removeBanners_of_some {k : Nat} (h : strstr banner text = some k) :
    removeBanners text = text.take k ++ removeBanners (text.drop (k + banner.length)) := by
  rw [removeBanners]
  split
  · next h' => cases h.symm.trans h'
  · next h' =>
    cases h.symm.trans h'
    rfl

theorem removeBanners_length_le (text : Text) : (removeBanners text).length ≤ text.length := by
  induction hn : text.length using Nat.strongRecOn generalizing text with
  | ind n ih =>
    cases h : strstr banner text with
    | none => rw [removeBanners_of_none h, hn]
    | some k =>
      have hle := strstr_le h
      have hpos : 0 < banner.length := by decide
      have hrest := ih _ (by rw [List.length_drop]; omega) (text.drop (k + banner.length)) rfl
      rw [removeBanners_of_some h]
      simp only [List.length_append, List.length_take, List.length_drop] at hrest ⊢
      omega

theorem removeBanners_of_infix (h : banner <:+: text) :
    (removeBanners text).length + banner.length ≤ text.length := by
  cases hk : strstr banner text with
  | none => exact absurd h ((strstr_eq_none_iff (by decide)).mp hk)
  | some k =>
    have hle := strstr_le hk
    have hrest := removeBanners_length_le (text.drop (k + banner.length))
    rw [removeBanners_of_some hk]
    simp only [List.length_append, List.length_take, List.length_drop] at hrest ⊢
    omega

/-- What is found in a text is found when more text follows. -/
theorem strstr_append {needle : Text} {k : Nat} (h : strstr needle text = some k) (rest : Text) :
    strstr needle (text ++ rest) = some k := by
  induction text generalizing k with
  | nil =>
    rw [strstr] at h
    split at h
    · next hnil =>
      cases h
      rw [hnil]
      cases rest <;> simp [strstr]
    · cases h
  | cons c text ih =>
    rw [strstr] at h
    rw [List.cons_append, strstr]
    split at h
    · next hpre =>
      cases h
      exact if_pos (hpre.trans (List.prefix_append (c :: text) rest))
    · next hnot =>
      obtain ⟨j, hj, rfl⟩ := Option.map_eq_some_iff.mp h
      have hlength := strstr_le hj
      have hnot' : ¬needle <+: c :: (text ++ rest) := fun hpre =>
        hnot (List.prefix_of_prefix_length_le hpre (List.prefix_append (c :: text) rest)
          (by simp only [List.length_cons]; omega))
      rw [if_neg hnot', ih hj]
      rfl

/-- A good bye that the command itself printed is taken out as well. -/
theorem removeBanners_length_lt (h : banner <:+: text) :
    (removeBanners (text ++ banner)).length + banner.length ≤ text.length := by
  cases hk : strstr banner text with
  | none => exact absurd h ((strstr_eq_none_iff (by decide)).mp hk)
  | some k =>
    have hle := strstr_le hk
    have hrest := removeBanners_of_infix
      (List.suffix_append (text.drop (k + banner.length)) banner).isInfix
    rw [removeBanners_of_some (strstr_append hk banner), List.take_append_of_le_length (by omega),
      List.drop_append_of_le_length hle]
    simp only [List.length_append, List.length_take, List.length_drop] at hrest ⊢
    omega

/-- The good bye does not overlap itself after a blank. -/
theorem banner_overlap : ∀ n < banner.length, 0 < n → (banner.take n).getLast? = some ' ' →
    ¬banner.drop n <+: banner := by
  decide

/-- After a text that ends with a blank, the good bye of the subshell is the first one. -/
theorem strstr_banner (hnot : ¬banner <:+: text) (hlast : text.getLast? = some ' ') :
    strstr banner (text ++ banner) = some text.length := by
  cases hk : strstr banner (text ++ banner) with
  | none =>
    exact absurd (List.suffix_append text banner).isInfix ((strstr_eq_none_iff (by decide)).mp hk)
  | some k =>
    have hle := strstr_le hk
    rw [List.length_append, Nat.add_le_add_iff_right] at hle
    refine congrArg some (Nat.le_antisymm hle (Nat.le_of_not_lt fun hlt => ?_))
    -- the part of the text that would belong to an earlier one
    have hin := strstr_prefix hk
    rw [List.drop_append_of_le_length hle] at hin
    have hlength : (text.drop k).length < banner.length := by
      refine Nat.lt_of_not_le fun hlong => hnot ?_
      have hwhole := List.prefix_of_prefix_length_le hin (List.prefix_append _ _) hlong
      exact hwhole.isInfix.trans (List.drop_suffix k text).isInfix
    have htake : text.drop k = banner.take (text.drop k).length :=
      List.prefix_iff_eq_take.mp (List.prefix_of_prefix_length_le (List.prefix_append _ _) hin
        (Nat.le_of_lt hlength))
    have hpos : 0 < (text.drop k).length := by
      rw [List.length_drop]
      omega
    have hblank : (text.drop k).getLast? = some ' ' := by
      rw [List.getLast?_drop, if_neg (Nat.not_le_of_lt hlt), hlast]
    generalize (text.drop k).length = n at hlength htake hpos
    rw [htake] at hin hblank
    refine banner_overlap n hlength hpos hblank ?_
    rwa [← List.prefix_append_right_inj (banner.take n), List.take_append_drop]

theorem removeBanners_append (hnot : ¬banner <:+: text) (hlast : text.getLast? = some ' ') :
    removeBanners (text ++ banner) = text := by
  have hnil : strstr banner [] = none := by decide
  rw [removeBanners_of_some (strstr_banner hnot hlast), List.take_left, ← List.length_append,
    List.drop_length, removeBanners_of_none hnil, List.append_nil]

end Banner

/-! ### What is scanned next -/

/-- The output with blanks for newlines, and without a blank at its end. -/
def captured (output : Text) : Text :=
  let text := output.map toBlank
  if text.getLast? = some ' ' then text.dropLast else text

theorem length_captured (output : Text) :
    (captured output).length =
      if (output.map toBlank).getLast? = some ' ' then output.length - 1 else output.length := by
  simp only [captured]
  split
  · rw [List.length_dropLast, List.length_map]
  · rw [List.length_map]

theorem removeBanners_dropLast_iff {output : Text} :
    removeBanners (output.map toBlank ++ banner) ≠ [] ∧
      (removeBanners (output.map toBlank ++ banner)).dropLast = captured output ↔
    (output.map toBlank).getLast? = some ' ' ∧ ¬banner <:+: output.map toBlank := by
  constructor
  · rintro ⟨hne, heq⟩
    have hlength := congrArg List.length heq
    have hpos := List.length_pos_iff.mpr hne
    have hle := removeBanners_of_infix (List.suffix_append (output.map toBlank) banner).isInfix
    rw [List.length_dropLast, length_captured] at hlength
    rw [List.length_append, List.length_map] at hle
    refine ⟨?_, fun hin => ?_⟩
    · by_contra hlast
      rw [if_neg hlast] at hlength
      omega
    · have hlt := removeBanners_length_lt hin
      have hbanner : banner.length = 12 := rfl
      rw [List.length_map] at hlt
      split at hlength
      · omega
      · omega
  · rintro ⟨hlast, hnot⟩
    rw [removeBanners_append hnot hlast, captured]
    simp only [hlast, if_true, and_true]
    intro hnil
    rw [hnil] at hlast
    cases hlast

/-- **Command substitution never gives the text it should**: the terminator of the
buffer is pushed back too. But for the terminator it does exactly when the output is
not empty and ends with a blank or a newline, fits the buffer with the good bye of the
subshell, and does not contain such a good bye itself. -/
theorem backquote_text (stack : OutputBuffer) (output rest : Text) :
    backquote stack (output ++ " Good bye!!\n".toList) (rest.map some) ≠
        some ((captured output ++ rest).map some) ∧
    (backquote stack (output ++ " Good bye!!\n".toList) (rest.map some) =
        some ((captured output).map some ++ none :: rest.map some) ↔
      output.length ≤ 1011 ∧ (output.map toBlank).getLast? = some ' ' ∧
        ¬banner <:+: output.map toBlank) := by
  have hprinted : (output ++ " Good bye!!\n".toList).map toBlank = output.map toBlank ++ banner :=
    List.map_append
  have hlength : (output ++ " Good bye!!\n".toList).length < 1024 ↔ output.length ≤ 1011 := by
    rw [List.length_append]
    exact Nat.add_lt_add_iff_right (k := 12) (m := 1012).trans Nat.lt_succ_iff
  rw [backquote_eq, hprinted, ← removeBanners_dropLast_iff]
  by_cases h : output.length ≤ 1011 ∧ removeBanners (output.map toBlank ++ banner) ≠ []
  · rw [if_pos ⟨hlength.mpr h.1, h.2⟩]
    refine ⟨fun heq => ?_, ?_⟩
    · -- there is no terminator in the text
      have hmem : none ∈ (captured output ++ rest).map some := by
        rw [← Option.some.inj heq]
        exact List.mem_append_right _ List.mem_cons_self
      simp at hmem
    · rw [Option.some.injEq, List.append_cancel_right_eq,
        List.map_inj_right fun _ _ => Option.some.inj]
      exact ⟨fun heq => ⟨h.1, h.2, heq⟩, fun hcond => hcond.2.2⟩
  · rw [if_neg fun hcond => h ⟨hlength.mp hcond.1, hcond.2⟩]
    exact ⟨nofun, iff_of_false nofun fun hcond => h ⟨hcond.1, hcond.2.1⟩⟩

/-- An array of zeros. -/
def zeroBuffer : OutputBuffer where
  cells := List.replicate maxBuffer none
  length_eq := List.length_replicate

/-- The output of `echo hi`, before a blank and an operator. -/
theorem backquote_hi :
    backquote zeroBuffer "hi\n Good bye!!\n".toList (" > out".toList.map some) =
        some ("hi".toList.map some ++ none :: " > out".toList.map some) ∧
    captured "hi\n".toList = "hi".toList ∧
    backquote zeroBuffer "hi\n Good bye!!\n".toList (" > out".toList.map some) ≠
      some ((captured "hi\n".toList ++ " > out".toList).map some) := by
  have hnot : ¬banner <:+: "hi ".toList := by decide
  have hremoved : removeBanners ("hi\n Good bye!!\n".toList.map toBlank) = "hi ".toList :=
    removeBanners_append hnot rfl
  rw [backquote_eq, hremoved, if_pos (by decide)]
  exact ⟨rfl, rfl, by decide⟩

end Cs252.Shell
