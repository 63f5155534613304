import Mathlib.Data.Int.Notation
import Mathlib.Data.Nat.Notation
import Mathlib.Tactic.Common
import Mathlib.Tactic.Linarith

/-! # Machine words and byte strings

Conventions of the whole development. Values that a program computes are wrapped where the C or
OCaml type wraps (`i64`, `u64`, `i63`). Sizes of objects in memory and indices into them are
`ℕ`: an object is shorter than `2^63` bytes, so their arithmetic is exact. -/

namespace Bfcomp
set_option autoImplicit false

abbrev Byte := BitVec 8

/-! ## Integer conversions -/

/-- Conversion to a signed 64-bit integer. -/
def i64 (x : ℤ) : ℤ := x.bmod (2^64)

/-- Conversion to an unsigned 64-bit integer. -/
def u64 (x : ℤ) : ℤ := x % 2^64

/-- Conversion to a 63-bit signed integer. -/
def i63 (x : ℤ) : ℤ := x.bmod (2^63)

theorem i64_eq (x : ℤ) : i64 x = (x + 2^63) % 2^64 - 2^63 := by
  unfold i64
  rw [Int.bmod_def]
  norm_num
  split <;> omega

theorem i64_of_range {x : ℤ} (lo : -2^63 ≤ x) (hi : x < 2^63) : i64 x = x := by
  unfold i64
  exact Int.bmod_eq_of_le (by omega) (by omega)

theorem i63_of_range {x : ℤ} (lo : -2^62 ≤ x) (hi : x < 2^62) : i63 x = x := by
  unfold i63
  exact Int.bmod_eq_of_le (by omega) (by omega)

theorem i63_emod_256 (x : ℤ) : i63 x % 256 = x % 256 := by
  unfold i63
  rw [Int.bmod_def]
  norm_num
  split <;> omega

theorem i64_add_right (x y : ℤ) : i64 (x + i64 y) = i64 (x + y) := by
  unfold i64
  exact Int.add_bmod_bmod

theorem i63_add_left (x y : ℤ) : i63 (i63 x + y) = i63 (x + y) := by
  unfold i63
  exact Int.bmod_add_bmod

theorem i63_add_right (x y : ℤ) : i63 (x + i63 y) = i63 (x + y) := by
  unfold i63
  exact Int.add_bmod_bmod

theorem i64_idem (x : ℤ) : i64 (i64 x) = i64 x := by
  unfold i64
  exact Int.bmod_bmod

theorem i63_idem (x : ℤ) : i63 (i63 x) = i63 x := by
  unfold i63
  exact Int.bmod_bmod

theorem u64_of_range {x : ℤ} (lo : 0 ≤ x) (hi : x < 2^64) : u64 x = x :=
  Int.emod_eq_of_lt lo hi

theorem ofInt8_i64 (x : ℤ) : BitVec.ofInt 8 (i64 x) = BitVec.ofInt 8 x := by
  apply BitVec.eq_of_toInt_eq
  simp only [BitVec.toInt_ofInt, i64]
  exact Int.bmod_bmod_of_dvd (by norm_num)

theorem ofInt8_i63 (x : ℤ) : BitVec.ofInt 8 (i63 x) = BitVec.ofInt 8 x := by
  apply BitVec.eq_of_toInt_eq
  simp only [BitVec.toInt_ofInt, i63]
  exact Int.bmod_bmod_of_dvd (by norm_num)

/-! ## Little-endian bytes -/

def le16 (w : BitVec 16) : List Byte := [w.extractLsb' 0 8, w.extractLsb' 8 8]

def le32 (w : BitVec 32) : List Byte :=
  [w.extractLsb' 0 8, w.extractLsb' 8 8, w.extractLsb' 16 8, w.extractLsb' 24 8]

/-- The word whose little-endian bytes are `a b c d`. -/
def ofLe32 (a b c d : Byte) : BitVec 32 := d ++ c ++ b ++ a

@[simp] theorem le16_length (w : BitVec 16) : (le16 w).length = 2 := rfl
@[simp] theorem le32_length (w : BitVec 32) : (le32 w).length = 4 := rfl

@[simp] theorem ofLe32_le32 (w : BitVec 32) :
    ofLe32 (w.extractLsb' 0 8) (w.extractLsb' 8 8) (w.extractLsb' 16 8) (w.extractLsb' 24 8) = w := by
  apply BitVec.eq_of_getLsbD_eq
  intro i hi
  simp only [ofLe32, BitVec.getLsbD_append, BitVec.getLsbD_extractLsb']
  have hcase : i < 8 ∨ (8 ≤ i ∧ i < 16) ∨ (16 ≤ i ∧ i < 24) ∨ 24 ≤ i := by omega
  rcases hcase with h | ⟨h, h'⟩ | ⟨h, h'⟩ | h
  · simp [h]
  · have h1 : ¬ i < 8 := by omega
    have h2 : i - 8 < 8 := by omega
    have h3 : 8 + (i - 8) = i := by omega
    simp [h1, h2, h3]
  · have h1 : ¬ i < 8 := by omega
    have h2 : ¬ i - 8 < 8 := by omega
    have h3 : i - 8 - 8 < 8 := by omega
    have h4 : 16 + (i - 8 - 8) = i := by omega
    simp [h1, h2, h3, h4]
  · have h1 : ¬ i < 8 := by omega
    have h2 : ¬ i - 8 < 8 := by omega
    have h3 : ¬ i - 8 - 8 < 8 := by omega
    have h4 : i - 8 - 8 - 8 < 8 := by omega
    have h5 : 24 + (i - 8 - 8 - 8) = i := by omega
    simp [h1, h2, h3, h4, h5]

/-! ## C strings -/

/-- What a `const char *` points to: the bytes before the terminating NUL, inside one object. -/
structure CString where
  bytes : List Byte
  nulFree : (0 : Byte) ∉ bytes
  fits : bytes.length < 2^63
  deriving DecidableEq

@[ext] theorem CString.ext {a b : CString} (h : a.bytes = b.bytes) : a = b := by
  cases a
  cases b
  simpa using h

/-- The byte of an ASCII character. -/
def ascii (c : Char) : Byte := BitVec.ofNat 8 c.toNat

end Bfcomp
