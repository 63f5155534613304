import Bfcomp.Foundations.Words
import Mathlib.Data.Nat.Digits.Defs

/-! # Numbers of any width in memory

The bytes of a number, the lowest first, and the number that bytes spell. Stored in `k` bytes a
number comes back modulo `256^k`, and with eight of them an integer comes back as a signed one. -/

namespace Bfcomp
set_option autoImplicit false

def leBytes : ℕ → ℕ → List Byte
  | 0, _ => []
  | k + 1, x => BitVec.ofNat 8 x :: leBytes k (x / 256)

def ofLeBytes (bs : List Byte) : ℕ := Nat.ofDigits 256 (bs.map BitVec.toNat)

@[simp] theorem leBytes_length (k x : ℕ) : (leBytes k x).length = k := by
  induction k generalizing x with
  | zero => rfl
  | succ k ih => rw [leBytes, List.length_cons, ih]

theorem ofLeBytes_cons (b : Byte) (bs : List Byte) :
    ofLeBytes (b :: bs) = b.toNat + 256 * ofLeBytes bs := rfl

theorem ofLeBytes_leBytes (k x : ℕ) : ofLeBytes (leBytes k x) = x % 256^k := by
  induction k generalizing x with
  | zero => exact (Nat.mod_one x).symm
  | succ k ih =>
    have hsplit : x % 256^(k + 1) = x % 256 + 256 * (x / 256 % 256^k) := by
      rw [Nat.pow_succ', Nat.mod_mul]
    rw [leBytes, ofLeBytes_cons, ih, hsplit, BitVec.toNat_ofNat]

/-- The eight bytes of a 64-bit integer. -/
def i64Bytes (x : ℤ) : List Byte := leBytes 8 (x % 2^64).toNat

def ofI64Bytes (bs : List Byte) : ℤ := i64 (ofLeBytes bs)

@[simp] theorem i64Bytes_length (x : ℤ) : (i64Bytes x).length = 8 := leBytes_length _ _

@[simp] theorem ofI64Bytes_i64Bytes (x : ℤ) : ofI64Bytes (i64Bytes x) = i64 x := by
  have hmod : (x % 2^64).toNat % 256^8 = (x % 2^64).toNat := by omega
  rw [ofI64Bytes, i64Bytes, ofLeBytes_leBytes, hmod, Int.toNat_of_nonneg (by omega)]
  exact Int.emod_bmod x (2^64)

/-- Adding to what eight bytes spell. -/
theorem i64Bytes_add (bs : List Byte) (v : ℤ) :
    ofI64Bytes (i64Bytes (ofLeBytes bs + v)) = i64 (ofI64Bytes bs + v) := by
  rw [ofI64Bytes_i64Bytes, ofI64Bytes, add_comm, add_comm (i64 _), i64_add_right]

end Bfcomp
