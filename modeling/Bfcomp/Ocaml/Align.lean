import Bfcomp.Elf.Align

/-! # The alignment functions of `lib/codegen.ml` and `lib/elf.ml`

One clears bits with the mask `-a`, the other makes up for the remainder. Where nothing overflows
they agree with each other and with the macro of the C sources. -/

namespace Bfcomp.Ocaml
set_option autoImplicit false

/-- `Codegen.align`. -/
def Codegen.align (n a : ℤ) : ℤ :=
  if n ≥ 0 then Int.land (i63 (i63 (n + a) - 1)) (i63 (-a)) else Int.land n (i63 (-a))

/-- `Elf.align_to`; it raises `Division_by_zero` or nothing. -/
def Elf.alignTo (value align : ℤ) : Option ℤ :=
  if align = 0 then none
  else
    let rem := value.tmod align
    if rem = 0 then some value else some (i63 (value + i63 (align - rem)))

section
variable {n k : ℕ}

theorem i63_neg_two_pow (hk : k < 62) : i63 (-2^k) = -2^k := by
  have hpos : (0 : ℤ) < 2^k := by positivity
  have hlt : (2^k : ℤ) < 2^62 := pow_lt_pow_right₀ one_lt_two hk
  exact i63_of_range (by omega) (by omega)

theorem Codegen.align_eq (h : n + 2^k < 2^62) :
    Codegen.align n (2^k) = ((alignTo n (2^k) : ℕ) : ℤ) := by
  have hpos : 0 < 2^k := Nat.two_pow_pos k
  have hk : k < 62 := (Nat.pow_lt_pow_iff_right (a := 2) (by decide)).mp (by omega)
  have hsum : i63 ((n : ℤ) + 2^k) = ((n + 2^k : ℕ) : ℤ) := by
    rw [← Nat.cast_ofNat, ← Nat.cast_pow, ← Int.natCast_add]
    exact i63_of_range (by omega) (by omega)
  have hlast : i63 (((n + 2^k : ℕ) : ℤ) - 1) = ((n + 2^k - 1 : ℕ) : ℤ) := by
    have hcast : ((n + 2^k : ℕ) : ℤ) - 1 = ((n + 2^k - 1 : ℕ) : ℤ) := by omega
    rw [hcast]
    exact i63_of_range (by omega) (by omega)
  rw [align, if_pos (Int.natCast_nonneg n), hsum, hlast, i63_neg_two_pow hk, land_neg_two_pow,
    alignTo_two_pow]
  push_cast
  rfl

theorem Codegen.align_of_neg {x : ℤ} (hx : x < 0) (hk : k < 62) :
    Codegen.align x (2^k) = x / 2^k * 2^k := by
  rw [align, if_neg (by omega), i63_neg_two_pow hk, land_neg_two_pow]

theorem Elf.alignTo_eq (h : n + 2^k < 2^62) :
    Elf.alignTo n (2^k) = some ((Bfcomp.alignTo n (2^k) : ℕ) : ℤ) := by
  have hpos : 0 < 2^k := Nat.two_pow_pos k
  have hlt : n % 2^k < 2^k := Nat.mod_lt n hpos
  have hrem : (n : ℤ).tmod (2^k) = ((n % 2^k : ℕ) : ℤ) := by
    rw [Int.tmod_eq_emod_of_nonneg (Int.natCast_nonneg n)]
    push_cast
    rfl
  have hne : (2^k : ℤ) ≠ 0 := by positivity
  rw [alignTo, if_neg hne, alignTo_two_pow, multiple_of_rest hpos, hrem]
  by_cases hzero : n % 2^k = 0
  · simp only [hzero, Int.natCast_zero, if_true]
  · have hne' : ((n % 2^k : ℕ) : ℤ) ≠ 0 := by exact_mod_cast hzero
    have hgap : (2^k : ℤ) - ((n % 2^k : ℕ) : ℤ) = ((2^k - n % 2^k : ℕ) : ℤ) := by
      push_cast [hlt.le]
      rfl
    have hi : i63 ((2^k - n % 2^k : ℕ) : ℤ) = ((2^k - n % 2^k : ℕ) : ℤ) :=
      i63_of_range (by omega) (by omega)
    have hi' : i63 ((n : ℤ) + ((2^k - n % 2^k : ℕ) : ℤ)) = ((n + (2^k - n % 2^k) : ℕ) : ℤ) := by
      rw [← Int.natCast_add]
      exact i63_of_range (by omega) (by omega)
    simp only [hne', if_false, hzero, hgap, hi, hi']

end

/-- Where `n + a` does not overflow, for a power of two `a`, the three functions give the least
multiple of `a` that is at least `n`. -/
theorem aligns_agree (tv ta : CInt) (n k : ℕ) (hocaml : n + 2^k < 2^62)
    (hc : NoOverflow tv ta n (2^k)) :
    Codegen.align n (2^k) = ((alignTo n (2^k) : ℕ) : ℤ) ∧
      Elf.alignTo n (2^k) = some ((alignTo n (2^k) : ℕ) : ℤ) ∧
      alignToMacro tv ta n (2^k) = some ((alignTo n (2^k) : ℕ) : ℤ) ∧
      IsLeast {m : ℕ | 2^k ∣ m ∧ n ≤ m} (alignTo n (2^k)) := by
  refine ⟨Codegen.align_eq hocaml, Elf.alignTo_eq hocaml, alignToMacro_eq hc, ?_⟩
  rw [alignTo_two_pow]
  exact isLeast_multiple (Nat.two_pow_pos k) n

/-- An offset of five is aligned to four, as the C sources align offsets: by an `int`. -/
theorem aligns_agree_five :
    Codegen.align 5 4 = 8 ∧ Elf.alignTo 5 4 = some 8 ∧
      alignToMacro .unsignedLong .int 5 4 = some 8 ∧ IsLeast {m : ℕ | 4 ∣ m ∧ 5 ≤ m} 8 :=
  aligns_agree .unsignedLong .int 5 2 (by decide) (.of_sum (by decide) (by decide) (.inl rfl))

end Bfcomp.Ocaml
