import Bfcomp.Foundations.Rounding
import Mathlib.Data.Int.Notation

/-! # The integer types of C

Narrower operands are promoted to `int`, so an expression is of one of four types; `long` is the
wider one. Its value is an integer that fits the type. -/

namespace Bfcomp
set_option autoImplicit false

inductive CInt where
  | int
  | unsigned
  | long
  | unsignedLong
  deriving DecidableEq

namespace CInt

def bits : CInt → ℕ
  | int | unsigned => 32
  | long | unsignedLong => 64

def isSigned : CInt → Bool
  | int | long => true
  | unsigned | unsignedLong => false

def lo (t : CInt) : ℤ := if t.isSigned then -2^(t.bits - 1) else 0

/-- The first number that is too large. -/
def hi (t : CInt) : ℤ := if t.isSigned then 2^(t.bits - 1) else 2^t.bits

def Fits (t : CInt) (x : ℤ) : Prop := t.lo ≤ x ∧ x < t.hi

instance (t : CInt) (x : ℤ) : Decidable (t.Fits x) := instDecidableAnd

/-- Conversion to the type. -/
def conv (t : CInt) (x : ℤ) : ℤ := if t.isSigned then x.bmod (2^t.bits) else x % 2^t.bits

/-- What an operation on the type gives for the exact result `x`: overflow of a signed type has no
defined result. -/
def arith (t : CInt) (x : ℤ) : Option ℤ :=
  if t.isSigned ∧ ¬ t.Fits x then none else some (t.conv x)

/-- The operator `~`. -/
def compl (t : CInt) (x : ℤ) : ℤ := t.conv (Int.lnot x)

/-- The type that two operands are converted to. -/
def common (t u : CInt) : CInt :=
  if t.bits < u.bits then u
  else if u.bits < t.bits then t
  else if t.isSigned then u
  else t

section
variable {t u : CInt} {x : ℤ} {k : ℕ}

theorem conv_of_fits (h : t.Fits x) : t.conv x = x := by
  obtain ⟨hlo, hhi⟩ := h
  cases t <;> simp only [lo, hi, conv, isSigned, bits, if_true, Bool.false_eq_true, if_false] at *
  · exact Int.bmod_eq_of_le (by omega) (by omega)
  · exact Int.emod_eq_of_lt hlo hhi
  · exact Int.bmod_eq_of_le (by omega) (by omega)
  · exact Int.emod_eq_of_lt hlo hhi

theorem arith_of_fits (h : t.Fits x) : t.arith x = some x := by
  rw [arith, if_neg (fun hover => hover.2 h), conv_of_fits h]

theorem lo_nonpos (t : CInt) : t.lo ≤ 0 := by
  cases t <;> decide

theorem fits_of_le {y : ℤ} (h : t.Fits y) (h0 : 0 ≤ x) (hle : x ≤ y) : t.Fits x :=
  ⟨(lo_nonpos t).trans h0, Int.lt_of_le_of_lt hle h.2⟩

theorem fits_common (h0 : 0 ≤ x) (h : u.Fits x) : (common t u).Fits x := by
  refine ⟨(lo_nonpos _).trans h0, Int.lt_of_lt_of_le h.2 ?_⟩
  cases t <;> cases u <;> decide

theorem conv_neg (h : t.Fits x) (hpos : 0 < x) :
    t.conv (-x) = if t.isSigned then -x else 2^t.bits - x := by
  obtain ⟨_, hhi⟩ := h
  cases hsigned : t.isSigned with
  | true =>
    rw [hi, if_pos hsigned] at hhi
    refine conv_of_fits ⟨?_, ?_⟩
    · rw [lo, if_pos hsigned]
      omega
    · rw [hi, if_pos hsigned]
      omega
  | false =>
    rw [hi, if_neg (by rw [hsigned]; decide)] at hhi
    rw [conv, if_neg (by rw [hsigned]; decide), if_neg (by decide), ← Int.add_emod_right,
      Int.emod_eq_of_lt (by omega) (by omega)]
    ring

theorem compl_low_bits (t : CInt) (k : ℕ) : t.compl (2^k - 1) = t.conv (-2^k) := by
  have hcast : (2^k - 1 : ℤ) = ((2^k - 1 : ℕ) : ℤ) := by
    push_cast [Nat.two_pow_pos k]
    rfl
  have hlnot : Int.lnot ((2^k - 1 : ℕ) : ℤ) = Int.negSucc (2^k - 1) := rfl
  rw [compl, hcast, hlnot, Int.negSucc_eq]
  push_cast [Nat.two_pow_pos k]
  congr 1
  ring

end
end CInt
end Bfcomp
