import Bfcomp.Foundations.Overwrite
import Bfcomp.Foundations.Words
import Bfcomp.Ocaml.Interpreter

/-! # `Bytes` and the integers of `Stdint`

A `Bytes.t` is the list of its bytes; an access out of bounds raises. `Stdint` is a library that the
repository only uses: its functions are a parameter, and what is relied on is stated of them. -/

namespace Bfcomp.Ocaml
set_option autoImplicit false

abbrev Bytes := List Byte

namespace Bytes

def get (b : Bytes) (i : ℕ) : Except Exn Byte :=
  match b[i]? with
  | some c => .ok c
  | none => .error (.invalidArgument "index out of bounds")

def set (b : Bytes) (i : ℕ) (c : Byte) : Except Exn Bytes :=
  if i < b.length then .ok (overwrite b i [c])
  else .error (.invalidArgument "index out of bounds")

def blit (src : Bytes) (srcoff : ℕ) (dst : Bytes) (dstoff len : ℕ) : Except Exn Bytes :=
  if srcoff + len ≤ src.length ∧ dstoff + len ≤ dst.length then
    .ok (overwrite dst dstoff ((src.drop srcoff).take len))
  else .error (.invalidArgument "Bytes.blit")

def blitString (src : List Byte) (srcoff : ℕ) (dst : Bytes) (dstoff len : ℕ) : Except Exn Bytes :=
  if srcoff + len ≤ src.length ∧ dstoff + len ≤ dst.length then
    .ok (overwrite dst dstoff ((src.drop srcoff).take len))
  else .error (.invalidArgument "String.blit / Bytes.blit_string")

def fill (b : Bytes) (off : ℕ) (len : ℤ) (c : Byte) : Except Exn Bytes :=
  if 0 ≤ len ∧ off + len ≤ b.length then .ok (overwrite b off (List.replicate len.toNat c))
  else .error (.invalidArgument "String.fill / Bytes.fill")

end Bytes

/-! ## `Stdint` -/

inductive IntType where
  | int8
  | uint8
  | int16
  | uint16
  | int32
  | uint32
  deriving DecidableEq

namespace IntType

def bits : IntType → ℕ
  | int8 => 8
  | uint8 => 8
  | int16 => 16
  | uint16 => 16
  | int32 => 32
  | uint32 => 32

def Signed : IntType → Prop
  | int8 => True
  | int16 => True
  | int32 => True
  | _ => False

instance (t : IntType) : Decidable t.Signed := by
  cases t <;> unfold Signed <;> infer_instance

/-- The integer that a value of the type is. -/
def value (t : IntType) (v : BitVec t.bits) : ℤ := if t.Signed then v.toInt else v.toNat

/-- The type can hold the integer. -/
def Holds (t : IntType) (n : ℤ) : Prop :=
  if t.Signed then -2^(t.bits - 1) ≤ n ∧ n < 2^(t.bits - 1) else 0 ≤ n ∧ n < 2^t.bits

instance (t : IntType) (n : ℤ) : Decidable (t.Holds n) := by
  unfold Holds
  infer_instance

end IntType

/-- The functions of `Stdint` that are used, for each of its types. -/
structure Stdint where
  ofInt : (t : IntType) → ℤ → BitVec t.bits
  toBytesLittleEndian : (t : IntType) → BitVec t.bits → Bytes → ℕ → Except Exn Bytes

/-- The bytes of an integer, the least significant first. -/
def littleEndian {n : ℕ} (v : BitVec n) : List Byte :=
  (List.range (n / 8)).map fun k => v.extractLsb' (8 * k) 8

@[simp] theorem littleEndian_length {n : ℕ} (v : BitVec n) : (littleEndian v).length = n / 8 := by
  simp [littleEndian]

namespace Stdint

/-- `to_bytes_little_endian` writes the bytes of the integer at the index, if they fit there. -/
def WritesBytes (S : Stdint) : Prop :=
  ∀ (t : IntType) (v : BitVec t.bits) (b : Bytes) (i : ℕ), i + t.bits / 8 ≤ b.length →
    S.toBytesLittleEndian t v b i = .ok (overwrite b i (littleEndian v))

/-- `of_int` keeps an integer that the type can hold. -/
def KeepsValues (S : Stdint) : Prop :=
  ∀ (t : IntType) (n : ℤ), t.Holds n → t.value (S.ofInt t n) = n

/-- Conversion by truncation, and bounds checked before the bytes are written. -/
def checked : Stdint where
  ofInt := fun t n => BitVec.ofInt t.bits n
  toBytesLittleEndian := fun t v b i =>
    if i + t.bits / 8 ≤ b.length then .ok (overwrite b i (littleEndian v))
    else .error (.invalidArgument "index out of bounds")

theorem checked_writesBytes : checked.WritesBytes := fun _ _ _ _ h => if_pos h

theorem checked_keepsValues : checked.KeepsValues := by
  intro t n h
  unfold IntType.Holds at h
  unfold IntType.value
  have hbits : 0 < t.bits := by cases t <;> decide
  split
  · rw [if_pos ‹_›] at h
    exact BitVec.toInt_ofInt_eq_self hbits h.1 h.2
  · rw [if_neg ‹_›] at h
    have hmod : n % ((2^t.bits : ℕ) : ℤ) = n := by
      refine Int.emod_eq_of_lt h.1 ?_
      rw [Nat.cast_pow]
      exact h.2
    simp only [checked]
    rw [BitVec.toNat_ofInt, hmod, Int.toNat_of_nonneg h.1]

end Stdint
end Bfcomp.Ocaml
