import Mathlib.Algebra.Order.Floor.Div
import Mathlib.Data.Int.Bitwise
import Mathlib.Order.Bounds.Basic
import Mathlib.Tactic.Common
import Mathlib.Tactic.Linarith
import Mathlib.Tactic.Ring

/-! # Masks, and rounding up

To clear the low bits of a number is to round it down to a multiple of a power of two. The least
multiple of `a` that is at least `n` is what `n + a - 1` is rounded down to. -/

namespace Bfcomp
set_option autoImplicit false

/-! ## Masks of natural numbers -/

theorem and_high_bits (x : ℕ) {k b : ℕ} (h : k ≤ b) :
    x &&& (2^b - 2^k) = x % 2^b / 2^k * 2^k := by
  have hmask : 2^b - 2^k = (2^(b - k) - 1) * 2^k := by
    rw [Nat.sub_mul, Nat.one_mul, ← Nat.pow_add, Nat.sub_add_cancel h]
  rw [hmask]
  apply Nat.eq_of_testBit_eq
  intro i
  simp only [Nat.testBit_and, Nat.testBit_mul_two_pow, Nat.testBit_div_two_pow,
    Nat.testBit_mod_two_pow, Nat.testBit_two_pow_sub_one]
  by_cases hi : k ≤ i
  · have hback : i - k + k = i := Nat.sub_add_cancel hi
    have hlt : i - k < b - k ↔ i < b := by omega
    simp only [hi, hback, hlt, decide_true, Bool.true_and]
    exact Bool.and_comm _ _
  · simp only [hi, decide_false, Bool.false_and, Bool.and_false]

theorem ldiff_low_bits (x k : ℕ) : Nat.ldiff x (2^k - 1) = x / 2^k * 2^k := by
  apply Nat.eq_of_testBit_eq
  intro i
  simp only [Nat.testBit_ldiff, Nat.testBit_mul_two_pow, Nat.testBit_div_two_pow,
    Nat.testBit_two_pow_sub_one]
  by_cases hi : k ≤ i
  · have hback : i - k + k = i := Nat.sub_add_cancel hi
    simp [hi, hback]
  · have hlt : i < k := Nat.lt_of_not_le hi
    simp [hi, hlt]

theorem or_low_bits (x k : ℕ) : x ||| (2^k - 1) = x / 2^k * 2^k + (2^k - 1) := by
  have hlow : 2^k - 1 < 2^k := Nat.sub_lt (Nat.two_pow_pos k) Nat.one_pos
  rw [Nat.mul_comm (x / 2^k), Nat.two_pow_add_eq_or_of_lt hlow]
  apply Nat.eq_of_testBit_eq
  intro i
  simp only [Nat.testBit_or, Nat.testBit_two_pow_mul, Nat.testBit_div_two_pow,
    Nat.testBit_two_pow_sub_one]
  by_cases hi : k ≤ i
  · have hback : i - k + k = i := Nat.sub_add_cancel hi
    simp [hi, hback]
  · have hlt : i < k := Nat.lt_of_not_le hi
    simp [hlt]

theorem sub_low_bits (x k : ℕ) : x - (x &&& (2^k - 1)) = x / 2^k * 2^k := by
  rw [Nat.and_two_pow_sub_one_eq_mod, Nat.div_mul_self_eq_mod_sub_self]

/-! ## The masks as integers -/

theorem land_high_bits (x : ℕ) {k b : ℕ} (hk : k ≤ b) :
    Int.land x (2^b - 2^k) = ((x % 2^b / 2^k * 2^k : ℕ) : ℤ) := by
  have hle : 2^k ≤ 2^b := Nat.pow_le_pow_right (by decide) hk
  have hcast : (2^b - 2^k : ℤ) = ((2^b - 2^k : ℕ) : ℤ) := by
    push_cast [hle]
    rfl
  have hland : Int.land (x : ℤ) ((2^b - 2^k : ℕ) : ℤ) = ((x &&& (2^b - 2^k) : ℕ) : ℤ) := rfl
  rw [hcast, hland, and_high_bits x hk]

/-- The mask `-2^k` rounds every integer down to a multiple of `2^k`. -/
theorem land_neg_two_pow (x : ℤ) (k : ℕ) : Int.land x (-2^k) = x / 2^k * 2^k := by
  have hpos : 0 < 2^k := Nat.two_pow_pos k
  have hmask : (-2^k : ℤ) = Int.negSucc (2^k - 1) := by
    rw [Int.negSucc_eq]
    push_cast [hpos]
    ring
  rw [hmask]
  cases x with
  | ofNat m =>
    have hland : Int.land (Int.ofNat m) (Int.negSucc (2^k - 1)) =
        ((Nat.ldiff m (2^k - 1) : ℕ) : ℤ) := rfl
    rw [hland, ldiff_low_bits]
    push_cast
    rfl
  | negSucc m =>
    have hland : Int.land (Int.negSucc m) (Int.negSucc (2^k - 1)) =
        Int.negSucc (m ||| (2^k - 1)) := rfl
    have hdiv : Int.negSucc m / ((2^k : ℕ) : ℤ) = -((m / 2^k : ℕ) + 1 : ℤ) := by
      rw [Int.negSucc_ediv _ (by exact_mod_cast hpos)]
      rfl
    push_cast at hdiv
    rw [hland, or_low_bits, hdiv, Int.negSucc_eq]
    push_cast [hpos]
    ring

/-! ## The least multiple -/

/-- Rounded up to a multiple of `a`. -/
theorem isLeast_multiple {a : ℕ} (ha : 0 < a) (n : ℕ) :
    IsLeast {m | a ∣ m ∧ n ≤ m} ((n + a - 1) / a * a) := by
  rw [← Nat.ceilDiv_eq_add_pred_div]
  constructor
  · refine ⟨Nat.dvd_mul_left a _, ?_⟩
    have hle := (ceilDiv_le_iff_le_smul (b := n) ha).mp (le_refl (n ⌈/⌉ a))
    rwa [smul_eq_mul, Nat.mul_comm] at hle
  · rintro m ⟨⟨q, rfl⟩, hn⟩
    have hle : n ⌈/⌉ a ≤ q := (ceilDiv_le_iff_le_smul ha).mpr hn
    rw [Nat.mul_comm a q]
    exact Nat.mul_le_mul_right a hle

/-- What is left over is made up for. -/
theorem multiple_of_rest {a : ℕ} (ha : 0 < a) (n : ℕ) :
    (n + a - 1) / a * a = if n % a = 0 then n else n + (a - n % a) := by
  have hrest : n % a < a := Nat.mod_lt n ha
  have hdiv : n = n / a * a + n % a := (Nat.div_add_mod' n a).symm
  have hdown : ∀ r, r < a → (n / a * a + r) / a * a = n / a * a := by
    intro r hr
    rw [Nat.add_comm, Nat.add_mul_div_right _ _ ha, Nat.div_eq_of_lt hr, Nat.zero_add]
  split
  · have hsum : n + a - 1 = n / a * a + (a - 1) := by omega
    rw [hsum, hdown (a - 1) (by omega)]
    omega
  · have hsum : n + a - 1 = (n / a * a + (n % a - 1)) + a := by omega
    rw [hsum, Nat.add_div_right _ ha, Nat.succ_mul, hdown (n % a - 1) (by omega)]
    omega

end Bfcomp
