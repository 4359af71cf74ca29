import Mathlib.Algebra.Ring.Int.Defs
import Mathlib.Algebra.Ring.Nat
import Mathlib.Data.List.TakeWhile

/-!
# Cs252.Lib.CString

Strings as a C program sees them.

The memory that can be read from a pointer on is a list of bytes. A C string in
it ends at the first zero byte: `CString` is such a string without its
terminator, `strlen` looks for the terminator and fails where it runs off the
end of the memory. `asInt` and `asSizeT` are the conversions to the types in
which a program counts its bytes, of 32 and of 64 bits, and `decimal` and
`atoi` those between numbers and their texts.
-/

/-- The bytes of a text of one-byte characters. -/
def ascii (s : String) : List UInt8 := s.toList.map Char.toUInt8

/-- A number of any size as an `int`. -/
def asInt (n : Int) : Int := n.bmod (2 ^ 32)

/-- A number of any size as a `size_t`. -/
def asSizeT (n : Int) : Nat := (n % 2 ^ 64).toNat

theorem asInt_of_lt {n : Int} (hnonneg : 0 ≤ n) (hlt : n < 2 ^ 31) : asInt n = n :=
  Int.bmod_eq_of_le (by omega) (by omega)

/-- A number that stays close to what it was fits an `int`. -/
theorem lt_of_le_asInt {n m : Int} (hm : n - 2 ^ 32 < m) (h : m ≤ asInt n) : n < 2 ^ 31 := by
  unfold asInt at h
  rw [Int.bmod_def] at h
  split at h <;> omega

theorem asInt_lt (n : Int) : asInt n < 2 ^ 31 :=
  Int.bmod_lt (by decide)

theorem asSizeT_of_lt {n : Int} (hnonneg : 0 ≤ n) (hlt : n < 2 ^ 64) : (asSizeT n : Int) = n := by
  unfold asSizeT
  omega

/-! ### Strings in memory -/

/-- Bytes without `c` are all before the first `c`. -/
theorem takeWhile_ne_self {c : UInt8} {xs : List UInt8} (h : c ∉ xs) :
    xs.takeWhile (· ≠ c) = xs :=
  List.takeWhile_eq_self_iff.mpr fun d hd => by simpa using ne_of_mem_of_not_mem hd h

theorem takeWhile_ne_append {c : UInt8} {xs : List UInt8} (h : c ∉ xs) (rest : List UInt8) :
    (xs ++ c :: rest).takeWhile (· ≠ c) = xs := by
  rw [List.takeWhile_append_of_pos fun d hd => by simpa using ne_of_mem_of_not_mem hd h,
    List.takeWhile_cons_of_neg (by simp), List.append_nil]

/-- A store behind what memory begins with. -/
theorem concat_isPrefix_set {α : Type} {xs memory : List α} (h : xs <+: memory)
    (hlt : xs.length < memory.length) (c : α) : xs ++ [c] <+: memory.set xs.length c := by
  obtain ⟨rest, rfl⟩ := h
  cases rest with
  | nil =>
    rw [List.append_nil] at hlt
    exact absurd hlt (Nat.lt_irrefl _)
  | cons x rest =>
    refine ⟨rest, ?_⟩
    rw [List.set_append_right _ _ (Nat.le_refl _), Nat.sub_self, List.append_assoc]
    rfl

/-- A C string: the bytes before its terminator. -/
@[ext] structure CString where
  bytes : List UInt8
  noNul : 0 ∉ bytes
  deriving DecidableEq

/-- The position of the first zero byte in memory. -/
def strlen : List UInt8 → Option Nat
  | [] => none
  | c :: memory => if c = 0 then some 0 else (strlen memory).map (· + 1)

theorem strlen_append {xs : List UInt8} (h : 0 ∉ xs) (ys : List UInt8) :
    strlen (xs ++ ys) = (strlen ys).map (xs.length + ·) := by
  induction xs with
  | nil => simp
  | cons c xs ih =>
    obtain ⟨hc, hxs⟩ := not_or.mp (mt List.mem_cons.mpr h)
    rw [List.cons_append, strlen, if_neg (Ne.symm hc), ih hxs, Option.map_map]
    congr 1
    funext n
    simp only [Function.comp_apply, List.length_cons]
    omega

theorem strlen_append_of_mem {xs : List UInt8} (h : 0 ∈ xs) (ys : List UInt8) :
    strlen (xs ++ ys) = strlen xs := by
  induction xs with
  | nil => cases h
  | cons c xs ih =>
    rw [List.cons_append, strlen, strlen]
    split
    · rfl
    · rw [ih ((List.mem_cons.mp h).resolve_left fun hc => ‹c ≠ 0› hc.symm)]

/-- The zero byte that is found is in memory. -/
theorem strlen_lt {memory : List UInt8} {n : Nat} (h : strlen memory = some n) :
    n < memory.length := by
  induction memory generalizing n with
  | nil => cases h
  | cons c memory ih =>
    rw [strlen] at h
    split at h
    · cases h
      exact Nat.succ_pos _
    · obtain ⟨m, hm, rfl⟩ := Option.map_eq_some_iff.mp h
      exact Nat.succ_lt_succ (ih hm)

namespace CString

/-- The number of bytes, as `strlen` counts them. -/
def length (s : CString) : Nat := s.bytes.length

/-- `strcat`. -/
instance : Append CString :=
  ⟨fun s t => ⟨s.bytes ++ t.bytes, fun h => (List.mem_append.mp h).elim s.noNul t.noNul⟩⟩

@[simp] theorem append_bytes (s t : CString) : (s ++ t).bytes = s.bytes ++ t.bytes := rfl

theorem append_assoc (s t u : CString) : s ++ t ++ u = s ++ (t ++ u) := by
  ext1
  exact List.append_assoc _ _ _

@[simp] theorem append_length (s t : CString) : (s ++ t).length = s.length + t.length :=
  List.length_append

/-- The memory of a string. -/
def memory (s : CString) : List UInt8 := s.bytes ++ [0]

/-- The string at the beginning of memory. -/
def ofMemory (memory : List UInt8) : CString where
  bytes := memory.takeWhile (· ≠ 0)
  noNul h := by simpa using List.mem_takeWhile_imp h

/-- A string literal. -/
def lit (s : String) : CString := ofMemory (ascii s)

@[simp] theorem append_lit_empty (s : CString) : s ++ lit "" = s := by
  ext1
  exact List.append_nil s.bytes

theorem ofMemory_bytes {memory : List UInt8} (h : 0 ∉ memory) :
    (ofMemory memory).bytes = memory := takeWhile_ne_self h

/-- A string ends at its terminator, whatever memory follows. -/
theorem ofMemory_terminated {xs : List UInt8} (h : 0 ∉ xs) (rest : List UInt8) :
    (ofMemory (xs ++ 0 :: rest)).bytes = xs := takeWhile_ne_append h rest

/-- What `strtok` finds, called until it finds nothing more: the pieces between
the delimiters that are not empty. -/
def tokens (delimiter : UInt8) (s : CString) : List CString :=
  ((s.bytes.splitOn delimiter).filter (· ≠ [])).map ofMemory

/-! ### Words -/

section Words

variable {d : UInt8} {s w r : CString}

/-- The words before a delimiter, and those after it. -/
theorem tokens_append {t : CString} (hs : s.bytes = t.bytes ++ d :: r.bytes) :
    s.tokens d = t.tokens d ++ r.tokens d := by
  rw [tokens, hs, List.splitOn_append_cons_self, List.filter_append, List.map_append]
  rfl

/-- A string without delimiters is one word. -/
theorem tokens_word (hd : d ∉ w.bytes) (hw : w.bytes ≠ []) : w.tokens d = [w] := by
  have hword : ofMemory w.bytes = w := CString.ext (ofMemory_bytes w.noNul)
  rw [tokens, List.splitOn_eq_singleton hd, List.filter_cons_of_pos (by simpa), List.filter_nil,
    List.map_singleton, hword]

/-- A word up to a delimiter. -/
theorem tokens_cons (hs : s.bytes = w.bytes ++ d :: r.bytes) (hd : d ∉ w.bytes)
    (hw : w.bytes ≠ []) : s.tokens d = w :: r.tokens d := by
  rw [tokens_append hs, tokens_word hd hw, List.singleton_append]

theorem notMem_of_mem_splitOn {xs piece : List UInt8} (h : piece ∈ xs.splitOn d) : d ∉ piece := by
  induction xs generalizing piece with
  | nil =>
    rw [List.splitOn_nil, List.mem_singleton] at h
    simp [h]
  | cons x xs ih =>
    rw [List.splitOn_cons_eq_if_modifyHead] at h
    split at h
    · rcases List.mem_cons.mp h with rfl | h
      · exact List.not_mem_nil
      · exact ih h
    · next hx =>
      obtain ⟨head, pieces, hpieces⟩ := List.exists_cons_of_ne_nil (List.splitOn_ne_nil d xs)
      rw [hpieces] at h ih
      rcases List.mem_cons.mp h with rfl | h
      · have hne : d ≠ x := fun hd => hx (by simp [hd])
        simpa [hne] using ih List.mem_cons_self
      · exact ih (List.mem_cons_of_mem _ h)

/-- There is no delimiter in a word. -/
theorem notMem_of_mem_tokens (h : w ∈ s.tokens d) : d ∉ w.bytes := by
  obtain ⟨piece, hpiece, rfl⟩ := List.mem_map.mp h
  intro hd
  exact notMem_of_mem_splitOn (List.mem_filter.mp hpiece).1
    ((List.takeWhile_sublist _).subset hd)

/-- The pieces of a text are parts of it, and the first one begins it. -/
theorem splitOn_infix (d : UInt8) (xs : List UInt8) :
    ∃ head pieces, xs.splitOn d = head :: pieces ∧ head <+: xs ∧
      ∀ piece ∈ pieces, piece <:+: xs := by
  induction xs with
  | nil => exact ⟨[], [], List.splitOn_nil d, List.nil_prefix, List.forall_mem_nil _⟩
  | cons x xs ih =>
    obtain ⟨head, pieces, hpieces, hhead, hrest⟩ := ih
    have hmore : ∀ piece, piece <:+: xs → piece <:+: x :: xs :=
      fun piece h => h.trans (List.suffix_cons x xs).isInfix
    rw [List.splitOn_cons_eq_if_modifyHead, hpieces]
    split
    · exact ⟨[], head :: pieces, rfl, List.nil_prefix, List.forall_mem_cons.mpr
        ⟨hmore head hhead.isInfix, fun piece hpiece => hmore piece (hrest piece hpiece)⟩⟩
    · exact ⟨x :: head, pieces, rfl, List.cons_prefix_cons.mpr ⟨rfl, hhead⟩,
        fun piece hpiece => hmore piece (hrest piece hpiece)⟩

/-- A word is part of the string. -/
theorem infix_of_mem_tokens (h : w ∈ s.tokens d) : w.bytes <:+: s.bytes := by
  obtain ⟨piece, hpiece, rfl⟩ := List.mem_map.mp h
  obtain ⟨head, pieces, hpieces, hhead, hrest⟩ := splitOn_infix d s.bytes
  have hin : piece <:+: s.bytes := by
    have hmem := (List.mem_filter.mp hpiece).1
    rw [hpieces] at hmem
    rcases List.mem_cons.mp hmem with rfl | hmem
    · exact hhead.isInfix
    · exact hrest piece hmem
  exact (List.takeWhile_prefix _).isInfix.trans hin

theorem length_splitOn (d : UInt8) (xs : List UInt8) :
    ((xs.splitOn d).map fun piece => piece.length + 1).sum = xs.length + 1 := by
  induction xs with
  | nil => simp
  | cons x xs ih =>
    rw [List.splitOn_cons_eq_if_modifyHead]
    split
    · rw [List.map_cons, List.sum_cons, ih, List.length_nil, List.length_cons, Nat.add_comm]
    · obtain ⟨piece, pieces, hpieces⟩ := List.exists_cons_of_ne_nil (List.splitOn_ne_nil d xs)
      rw [hpieces] at ih ⊢
      simp only [List.map_cons, List.sum_cons, List.modifyHead_cons, List.length_cons] at ih ⊢
      omega

/-- Each word takes its length and, but for the last, a delimiter. -/
theorem length_tokens (d : UInt8) (s : CString) :
    ((s.tokens d).map fun word => word.length + 1).sum ≤ s.length + 1 := by
  have hle : ∀ pieces : List (List UInt8),
      (((pieces.filter (· ≠ [])).map ofMemory).map fun word => word.length + 1).sum ≤
        (pieces.map fun piece => piece.length + 1).sum := by
    intro pieces
    induction pieces with
    | nil => simp
    | cons piece pieces ih =>
      have hpiece : (ofMemory piece).length ≤ piece.length := (List.takeWhile_prefix _).length_le
      rw [List.filter_cons]
      split
      · simp only [List.map_cons, List.sum_cons]
        omega
      · simp only [List.map_cons, List.sum_cons]
        omega
  exact (hle _).trans_eq (length_splitOn d s.bytes)

end Words

end CString

/-! ### Numbers -/

/-- The text of a number, as `%d` prints it. -/
def decimal (n : Int) : CString :=
  .ofMemory ((if n < 0 then ascii "-" else []) ++ (Nat.toDigits 10 n.natAbs).map Char.toUInt8)

/-- `isspace`. -/
def isSpace (c : UInt8) : Bool := c = 32 || 9 ≤ c && c ≤ 13

/-- `isdigit`. -/
def isDigit (c : UInt8) : Bool := 48 ≤ c && c ≤ 57

/-- The number that digits spell. -/
def digitsValue (digits : List UInt8) : Nat := digits.foldl (fun n c => 10 * n + (c.toNat - 48)) 0

/-- A number of any size as a `long`, as `strtol` returns it. -/
def clampLong (n : Int) : Int := max (-2 ^ 63) (min n (2 ^ 63 - 1))

theorem clampLong_of_lt {n : Int} (hnonneg : 0 ≤ n) (hlt : n < 2 ^ 63) : clampLong n = n := by
  unfold clampLong
  omega

/-- `atoi`. -/
def atoi (s : CString) : Int :=
  match s.bytes.dropWhile isSpace with
  | 45 :: rest => asInt (clampLong (-digitsValue (rest.takeWhile isDigit)))
  | 43 :: rest => asInt (clampLong (digitsValue (rest.takeWhile isDigit)))
  | rest => asInt (clampLong (digitsValue (rest.takeWhile isDigit)))

theorem mem_digits {n : Nat} {c : UInt8} (h : c ∈ (Nat.toDigits 10 n).map Char.toUInt8) :
    isDigit c = true := by
  obtain ⟨d, hd, rfl⟩ := List.mem_map.mp h
  have hdigit := Nat.isDigit_of_mem_toDigits (by decide) (by decide) hd
  simp only [Char.isDigit, Bool.and_eq_true, decide_eq_true_eq] at hdigit
  have h48 : 48 ≤ d.toNat := UInt32.le_iff_toNat_le.mp hdigit.1
  have h57 : d.toNat ≤ 57 := UInt32.le_iff_toNat_le.mp hdigit.2
  have hd : d.toUInt8.toNat = d.toNat :=
    Nat.mod_eq_of_lt (show d.toNat < 2 ^ 8 by omega)
  simp only [isDigit, Bool.and_eq_true, decide_eq_true_eq, UInt8.le_iff_toNat_le, hd]
  exact ⟨h48, h57⟩

theorem decimal_bytes_of_nonneg {n : Int} (h : 0 ≤ n) :
    (decimal n).bytes = (Nat.toDigits 10 n.natAbs).map Char.toUInt8 := by
  rw [decimal, if_neg (Int.not_lt.mpr h), List.nil_append]
  exact CString.ofMemory_bytes fun h => absurd (mem_digits h) (by decide)

theorem isDigit_of_mem_decimal {n : Int} (h : 0 ≤ n) {c : UInt8} (hc : c ∈ (decimal n).bytes) :
    isDigit c = true :=
  mem_digits (decimal_bytes_of_nonneg h ▸ hc)

theorem digitsValue_append (xs : List UInt8) (c : UInt8) :
    digitsValue (xs ++ [c]) = 10 * digitsValue xs + (c.toNat - 48) := by
  simp [digitsValue]

theorem digitsValue_toDigits (n : Nat) :
    digitsValue ((Nat.toDigits 10 n).map Char.toUInt8) = n := by
  have hdigit : ∀ d < 10, (Nat.digitChar d).toUInt8.toNat - 48 = d := by decide
  induction n using Nat.strongRecOn with
  | ind n ih =>
    by_cases hn : n < 10
    · rw [Nat.toDigits_of_lt_base hn]
      simpa [digitsValue] using hdigit n hn
    · have hsplit := Nat.toDigits_append_toDigits (b := 10) (n := n / 10) (d := n % 10)
        (by decide) (by omega) (by omega)
      rw [Nat.div_add_mod] at hsplit
      rw [← hsplit, Nat.toDigits_of_lt_base (Nat.mod_lt n (by decide)), List.map_append,
        List.map_singleton, digitsValue_append, ih _ (by omega), hdigit _ (by omega)]
      omega

theorem length_decimal_le_iff {n : Int} {k : Nat} (h : 0 ≤ n) (hk : 0 < k) :
    (decimal n).length ≤ k ↔ n.natAbs < 10 ^ k := by
  rw [CString.length, decimal_bytes_of_nonneg h, List.length_map]
  exact Nat.length_toDigits_le_iff (by decide) hk

/-- Numbers are told apart by their texts. -/
theorem decimal_inj {m n : Int} (hm : 0 ≤ m) (hn : 0 ≤ n) (h : decimal m = decimal n) : m = n := by
  have hvalue := congrArg (fun s => digitsValue (CString.bytes s)) h
  simp only [decimal_bytes_of_nonneg hm, decimal_bytes_of_nonneg hn, digitsValue_toDigits] at hvalue
  omega

theorem minus_mem_decimal {n : Int} (h : n < 0) : 45 ∈ (decimal n).bytes := by
  rw [decimal, if_pos h]
  exact List.mem_cons_self

/-- A number is printed as it is exactly if an `int` holds it. -/
theorem decimal_asInt_eq_iff (n : Nat) : decimal (asInt n) = decimal n ↔ n < 2 ^ 31 := by
  constructor
  · intro h
    have hnonneg : 0 ≤ asInt n := by
      refine Int.not_lt.mp fun hneg => ?_
      have hminus : 45 ∈ (decimal n).bytes := h ▸ minus_mem_decimal hneg
      exact absurd (isDigit_of_mem_decimal (Int.natCast_nonneg n) hminus) (by decide)
    have hsame := decimal_inj hnonneg (Int.natCast_nonneg n) h
    have hlt := asInt_lt n
    omega
  · intro h
    rw [asInt_of_lt (Int.natCast_nonneg n) (by omega)]

/-- The text of a number that no `long` holds is read as the greatest `long`. -/
theorem atoi_decimal_of_nonneg {n : Int} (hnonneg : 0 ≤ n) :
    atoi (decimal n) = asInt (clampLong n) := by
  have hbytes := decimal_bytes_of_nonneg hnonneg
  have hdigits : ∀ c ∈ (decimal n).bytes, isDigit c = true :=
    fun c hc => isDigit_of_mem_decimal hnonneg hc
  have hvalue : (digitsValue ((decimal n).bytes.takeWhile isDigit) : Int) = n := by
    rw [List.takeWhile_eq_self_iff.mpr hdigits, hbytes, digitsValue_toDigits,
      Int.natAbs_of_nonneg hnonneg]
  have hspace : (decimal n).bytes.dropWhile isSpace = (decimal n).bytes := by
    cases hd : (decimal n).bytes with
    | nil => rfl
    | cons c rest =>
      have hc := hdigits c (by rw [hd]; exact List.mem_cons_self)
      refine List.dropWhile_cons_of_neg ?_
      simp only [isDigit, isSpace, Bool.and_eq_true, Bool.or_eq_true, decide_eq_true_eq,
        UInt8.le_iff_toNat_le, ← UInt8.toNat_inj] at hc ⊢
      simp at hc ⊢
      omega
  rw [atoi, hspace]
  split
  · exact absurd (hdigits 45 (‹_ = _› ▸ List.mem_cons_self)) (by decide)
  · exact absurd (hdigits 43 (‹_ = _› ▸ List.mem_cons_self)) (by decide)
  · rw [hvalue]

/-- Numbers are read as they are printed. -/
theorem atoi_decimal {n : Int} (hnonneg : 0 ≤ n) (hlt : n < 2 ^ 31) : atoi (decimal n) = n := by
  rw [atoi_decimal_of_nonneg hnonneg, clampLong_of_lt hnonneg (by omega), asInt_of_lt hnonneg hlt]
