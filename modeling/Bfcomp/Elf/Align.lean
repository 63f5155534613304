import Bfcomp.Elf.Format
import Bfcomp.Foundations.CInt

/-! # The macro `align_to` (`elf_gen.h`)

A macro has no operand types of its own: the sum is computed in the type that both operands are
converted to, and the mask in the type of `align`. -/

namespace Bfcomp
set_option autoImplicit false

/-- `align_to(val, align)`, the operands being of the types `tv` and `ta`. -/
def alignToMacro (tv ta : CInt) (val align : ℤ) : Option ℤ :=
  let t := CInt.common tv ta
  (t.arith (t.conv val + t.conv align)).bind fun sum =>
    (t.arith (sum - 1)).bind fun last =>
      (ta.arith (align - 1)).map fun low => Int.land last (t.conv (ta.compl low))

/-- The sum does not overflow: in its own type, nor in the type of the mask, if that is unsigned. -/
structure NoOverflow (tv ta : CInt) (n a : ℤ) : Prop where
  align : ta.Fits a
  sum : (CInt.common tv ta).Fits (n + a)
  mask : ta.isSigned = false → ta.Fits (n + a)

/-- Of the sum alone, unless `align` is of an unsigned type that is narrower. -/
theorem NoOverflow.of_sum {tv ta : CInt} {n a : ℤ} (ha : ta.Fits a)
    (hsum : (CInt.common tv ta).Fits (n + a)) (htypes : ta.isSigned = true ∨ tv.bits ≤ ta.bits) :
    NoOverflow tv ta n a := by
  refine ⟨ha, hsum, fun hta => ?_⟩
  rcases htypes with hsigned | hbits
  · rw [hta] at hsigned
    cases hsigned
  · have hcommon : CInt.common tv ta = ta := by
      revert hta hbits
      cases tv <;> cases ta <;> decide
    rwa [hcommon] at hsum

section
variable {tv ta : CInt} {n k x : ℕ}

/-- A mask that is computed in an unsigned type keeps the bits of that type only. -/
theorem land_mask_unsigned (hta : ta.isSigned = false) (hk : ta.Fits (2^k)) :
    Int.land x ((CInt.common tv ta).conv (ta.compl (2^k - 1))) =
      ((x % 2^ta.bits / 2^k * 2^k : ℕ) : ℤ) := by
  have hpos : (0 : ℤ) < 2^k := by positivity
  have hlt : (2^k : ℤ) < 2^ta.bits := by
    have hhi := hk.2
    rwa [CInt.hi, if_neg (by rw [hta]; decide)] at hhi
  have hmask : ta.conv (-2^k) = 2^ta.bits - 2^k := by
    rw [CInt.conv_neg hk hpos, if_neg (by rw [hta]; decide)]
  have hfits : ta.Fits (2^ta.bits - 2^k) := by
    rw [CInt.Fits, CInt.lo, CInt.hi, if_neg (by rw [hta]; decide), if_neg (by rw [hta]; decide)]
    omega
  rw [CInt.compl_low_bits, hmask, CInt.conv_of_fits (CInt.fits_common (by omega) hfits)]
  exact land_high_bits x ((pow_lt_pow_iff_right₀ one_lt_two).mp hlt).le

/-- A mask that is computed in a signed type is the mask of the type it is converted to. -/
theorem land_mask_signed (hta : ta.isSigned = true) (hk : ta.Fits (2^k))
    (hx : (CInt.common tv ta).Fits x) :
    Int.land x ((CInt.common tv ta).conv (ta.compl (2^k - 1))) = ((x / 2^k * 2^k : ℕ) : ℤ) := by
  have hpos : (0 : ℤ) < 2^k := by positivity
  have hk' : (CInt.common tv ta).Fits (2^k) := CInt.fits_common hpos.le hk
  rw [CInt.compl_low_bits, CInt.conv_neg hk hpos, if_pos hta, CInt.conv_neg hk' hpos]
  cases ht : (CInt.common tv ta).isSigned with
  | true =>
    rw [if_pos rfl, land_neg_two_pow]
    push_cast
    rfl
  | false =>
    have hhi := hx.2
    have hlt := hk'.2
    rw [CInt.hi, if_neg (by rw [ht]; decide)] at hhi hlt
    rw [if_neg (by decide), land_high_bits x ((pow_lt_pow_iff_right₀ one_lt_two).mp hlt).le,
      Nat.mod_eq_of_lt (by exact_mod_cast hhi)]

theorem alignToMacro_mask (hk : ta.Fits (2^k)) (hsum : (CInt.common tv ta).Fits (n + 2^k)) :
    alignToMacro tv ta n (2^k) = some (Int.land ((n + 2^k - 1 : ℕ) : ℤ)
      ((CInt.common tv ta).conv (ta.compl (2^k - 1)))) := by
  have hpos : (0 : ℤ) < 2^k := by positivity
  have hn : (CInt.common tv ta).Fits n := CInt.fits_of_le hsum (by omega) (by omega)
  have ha : (CInt.common tv ta).Fits (2^k) := CInt.fits_of_le hsum (by omega) (by omega)
  have hlast : (CInt.common tv ta).Fits ((n : ℤ) + 2^k - 1) :=
    CInt.fits_of_le hsum (by omega) (by omega)
  have hlow : ta.Fits (2^k - 1) := CInt.fits_of_le hk (by omega) (by omega)
  have hcast : ((n : ℤ) + 2^k - 1) = ((n + 2^k - 1 : ℕ) : ℤ) := by
    have hle : 1 ≤ n + 2^k := Nat.le_add_left_of_le Nat.one_le_two_pow
    push_cast [hle]
    rfl
  rw [alignToMacro, CInt.conv_of_fits hn, CInt.conv_of_fits ha, CInt.arith_of_fits hsum,
    Option.bind_some, CInt.arith_of_fits hlast, Option.bind_some, CInt.arith_of_fits hlow,
    Option.map_some, hcast]

theorem alignToMacro_eq (h : NoOverflow tv ta n (2^k)) :
    alignToMacro tv ta n (2^k) = some ((alignTo n (2^k) : ℕ) : ℤ) := by
  have hlast : ((n + 2^k - 1 : ℕ) : ℤ) ≤ n + 2^k := by
    have hle := Nat.sub_le (n + 2^k) 1
    exact_mod_cast hle
  rw [alignToMacro_mask h.align h.sum, alignTo_two_pow]
  cases hta : ta.isSigned with
  | true =>
    rw [land_mask_signed hta h.align (CInt.fits_of_le h.sum (Int.natCast_nonneg _) hlast)]
  | false =>
    have hhi := (CInt.fits_of_le (h.mask hta) (Int.natCast_nonneg _) hlast).2
    rw [CInt.hi, if_neg (by rw [hta]; decide)] at hhi
    rw [land_mask_unsigned hta h.align, Nat.mod_eq_of_lt (by exact_mod_cast hhi)]

/-- Of a `size_t` that is aligned to an `unsigned`, only the low half is kept. -/
theorem alignToMacro_narrow (hk : k < 32) (h : n + 2^k < 2^64) :
    alignToMacro .unsignedLong .unsigned n (2^k) =
      some (((n + 2^k - 1) % 2^32 / 2^k * 2^k : ℕ) : ℤ) := by
  have hfits : CInt.unsigned.Fits (2^k) := by
    refine ⟨by positivity, ?_⟩
    exact pow_lt_pow_right₀ one_lt_two hk
  have hlt : (n : ℤ) + 2^k < 2^64 := by exact_mod_cast h
  have hsum : (CInt.common .unsignedLong .unsigned).Fits ((n : ℤ) + 2^k) :=
    ⟨by positivity, hlt⟩
  rw [alignToMacro_mask hfits hsum, land_mask_unsigned rfl hfits]
  rfl

end
end Bfcomp
