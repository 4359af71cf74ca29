import Mathlib.Tactic.Ring
import Mathlib.Algebra.Order.Ring.Nat

/-!
# Cs252.Lib.ByteMem

A total, byte-addressed memory with little-endian multi-byte accesses.

`load m a n` reads the `n` bytes from `a` as a number and `store m a n v`
writes the low `n` bytes of `v` there. Two facts carry every proof about
memory-resident structures: a load reads back what a store of the same bytes
left (`load_store_eq`), and an access sees nothing of a store to other bytes
(`load_store_of_disjoint`, `store_outside`). Their side conditions are linear
inequalities between addresses, so `simp (disch := omega)` runs a chain of
stores symbolically.

`fill` and `copy` are the block operations (`memset`, and `memcpy` of
non-overlapping regions).
-/

/-- Memory: one byte at every address. -/
abbrev ByteMem := Nat → UInt8

namespace ByteMem

/-- The number in the `n` bytes from `a`, least significant byte first. -/
def load (m : ByteMem) (a : Nat) : Nat → Nat
  | 0 => 0
  | n + 1 => (m a).toNat + 256 * load m (a + 1) n

/-- Write the low `n` bytes of `v` from `a` on. -/
def store (m : ByteMem) (a n v : Nat) : ByteMem := fun x =>
  if a ≤ x ∧ x < a + n then UInt8.ofNat (v / 256 ^ (x - a)) else m x

/-- Set the `n` bytes from `a` to `v`. -/
def fill (m : ByteMem) (a : Nat) (v : UInt8) (n : Nat) : ByteMem := fun x =>
  if a ≤ x ∧ x < a + n then v else m x

/-- Copy the `n` bytes from `src` to `dst` (non-overlapping regions). -/
def copy (m : ByteMem) (dst src n : Nat) : ByteMem := fun x =>
  if dst ≤ x ∧ x < dst + n then m (src + (x - dst)) else m x

/-! ### Loads -/

/-- A load depends on the bytes it reads only. -/
theorem load_congr {m m' : ByteMem} {a n : Nat}
    (h : ∀ x, a ≤ x → x < a + n → m' x = m x) : load m' a n = load m a n := by
  induction n generalizing a with
  | zero => rfl
  | succ n ih =>
    have htail : load m' (a + 1) n = load m (a + 1) n :=
      ih fun x hx hx' => h x (by omega) (by omega)
    rw [load, load, h a (by omega) (by omega), htail]

/-- Bytes that spell `v` are read back as `v`, cut to the width. -/
theorem load_of_bytes {m : ByteMem} {a n v : Nat}
    (h : ∀ i, i < n → m (a + i) = UInt8.ofNat (v / 256 ^ i)) :
    load m a n = v % 256 ^ n := by
  induction n generalizing a v with
  | zero => simp [load, Nat.mod_one]
  | succ n ih =>
    have hhead : (m a).toNat = v % 256 := by
      rw [show m a = UInt8.ofNat v by simpa using h 0 (by omega)]
      simp
    have htail : load m (a + 1) n = v / 256 % 256 ^ n := by
      refine ih fun i hi => ?_
      rw [show a + 1 + i = a + (i + 1) by omega, h (i + 1) (by omega),
        Nat.div_div_eq_div_mul, Nat.pow_succ, Nat.mul_comm]
    rw [load, hhead, htail, Nat.pow_succ, Nat.mul_comm (256 ^ n), Nat.mod_mul]

/-- A load in two parts. -/
theorem load_add (m : ByteMem) (a n k : Nat) :
    load m a (n + k) = load m a n + 256 ^ n * load m (a + n) k := by
  induction n generalizing a with
  | zero => simp [load]
  | succ n ih =>
    rw [show n + 1 + k = n + k + 1 by omega, load, load, ih, show a + 1 + n = a + (n + 1) by omega]
    ring

theorem load_lt (m : ByteMem) (a n : Nat) : load m a n < 256 ^ n := by
  induction n generalizing a with
  | zero => simp [load]
  | succ n ih =>
    have hbyte : (m a).toNat < 256 := UInt8.toNat_lt (m a)
    have htail := ih (a + 1)
    rw [load, Nat.pow_succ]
    omega

/-- Equal numbers have equal bytes. -/
theorem byte_of_load_eq {m m' : ByteMem} {a n : Nat} (h : load m' a n = load m a n) {x : Nat}
    (hx : a ≤ x) (hx' : x < a + n) : m' x = m x := by
  induction n generalizing a with
  | zero => omega
  | succ n ih =>
    have hlow : (m a).toNat < 256 := UInt8.toNat_lt (m a)
    have hlow' : (m' a).toNat < 256 := UInt8.toNat_lt (m' a)
    rw [load, load] at h
    rcases Nat.lt_or_eq_of_le hx with hlt | rfl
    · exact ih (a := a + 1) (by omega) hlt (by omega)
    · exact UInt8.toNat_inj.mp (by omega)

/-! ### Loads and bytes after a store -/

/-- A byte outside a store is as before. -/
@[simp] theorem store_outside (m : ByteMem) {a n x : Nat} (v : Nat) (h : x < a ∨ a + n ≤ x) :
    store m a n v x = m x := by
  rw [store, if_neg]
  omega

/-- Reading a prefix of a stored number cuts it to the prefix. -/
theorem load_store_low (m : ByteMem) {a b n k : Nat} (v : Nat) (h : a = b) (hk : n ≤ k) :
    load (store m b k v) a n = v % 256 ^ n := by
  subst h
  refine load_of_bytes fun i hi => ?_
  rw [store, if_pos (by omega), Nat.add_sub_cancel_left]

/-- A load of the stored bytes gives the stored number. -/
@[simp] theorem load_store_eq (m : ByteMem) {a b n v : Nat} (h : a = b) (hv : v < 256 ^ n) :
    load (store m b n v) a n = v := by
  rw [load_store_low m v h le_rfl, Nat.mod_eq_of_lt hv]

/-- A store to the low half of an 8-byte number keeps the high half. -/
theorem load_store_half (m : ByteMem) {a b v : Nat} (h : a = b) (hv : v < 2 ^ 32) :
    load (store m b 4 v) a 8 = v + load m a 8 / 2 ^ 32 * 2 ^ 32 := by
  subst h
  have hlow := load_store_low m (n := 4) (k := 4) v (Eq.refl a) le_rfl
  have hhigh : load (store m a 4 v) (a + 4) 4 = load m (a + 4) 4 :=
    load_congr fun x hx _ => store_outside m v (Or.inr hx)
  have hlt := load_lt m a 4
  rw [load_add (store m a 4 v) a 4 4, load_add m a 4 4, hlow, hhigh]
  omega

/-- A load of other bytes does not see the store. -/
@[simp] theorem load_store_of_disjoint (m : ByteMem) {a b n k : Nat} (v : Nat)
    (h : a + n ≤ b ∨ b + k ≤ a) : load (store m b k v) a n = load m a n :=
  load_congr fun _ _ _ => store_outside m v (by omega)

/-! ### Block operations -/

theorem fill_outside (m : ByteMem) {a n x : Nat} (v : UInt8) (h : x < a ∨ a + n ≤ x) :
    fill m a v n x = m x := by
  rw [fill, if_neg]
  omega

theorem fill_inside (m : ByteMem) {a n x : Nat} (v : UInt8) (h : a ≤ x) (h' : x < a + n) :
    fill m a v n x = v := by
  rw [fill, if_pos ⟨h, h'⟩]

theorem copy_outside (m : ByteMem) {dst n x : Nat} (src : Nat) (h : x < dst ∨ dst + n ≤ x) :
    copy m dst src n x = m x := by
  rw [copy, if_neg]
  omega

theorem copy_inside (m : ByteMem) {dst n i : Nat} (src : Nat) (h : i < n) :
    copy m dst src n (dst + i) = m (src + i) := by
  rw [copy, if_pos (by omega), Nat.add_sub_cancel_left]

end ByteMem
