import Bfcomp.Foundations.Runs
import Bfcomp.Foundations.Words
import Mathlib.Data.List.Basic
import Mathlib.Logic.Function.Basic

/-! # A fragment of IA-32 under Linux

The 32-bit instructions of a small compiler: register and byte-in-memory arithmetic, moves, a push,
conditional jumps and `int 0x80` with the system calls `exit`, `read` and `write`. Code and data
share one memory. Of the flags only ZF is kept, since the jumps test no other. -/

namespace Bfcomp.Ia32
set_option autoImplicit false

/-! ## Instructions and their encoding -/

inductive Reg where
  | eax
  | ecx
  | edx
  | ebx
  | esp
  | ebp
  | esi
  | edi
  deriving DecidableEq

def Reg.num : Reg → ℕ
  | eax => 0
  | ecx => 1
  | edx => 2
  | ebx => 3
  | esp => 4
  | ebp => 5
  | esi => 6
  | edi => 7

def Reg.ofNum : ℕ → Reg
  | 0 => eax
  | 1 => ecx
  | 2 => edx
  | 3 => ebx
  | 4 => esp
  | 5 => ebp
  | 6 => esi
  | _ => edi

/-- The registers whose plain indirect form is a ModRM byte alone. -/
def Reg.Indirect (r : Reg) : Prop := r ≠ esp ∧ r ≠ ebp

instance (r : Reg) : Decidable r.Indirect := instDecidableAnd

/-- `Mem` marks the forms that work on the byte at the address in the register. -/
inductive Instr where
  | inc (r : Reg)
  | dec (r : Reg)
  | addImm8 (r : Reg) (imm : Byte)
  | subImm8 (r : Reg) (imm : Byte)
  | addImm32 (r : Reg) (imm : BitVec 32)
  | subImm32 (r : Reg) (imm : BitVec 32)
  | incMem (r : Reg)
  | decMem (r : Reg)
  | addMem (r : Reg) (imm : Byte)
  | subMem (r : Reg) (imm : Byte)
  | cmpMem (r : Reg) (imm : Byte)
  | addMemAl (r : Reg)
  | subMemAl (r : Reg)
  | mov (dst src : Reg)
  | movImm (r : Reg) (imm : BitVec 32)
  | movModRm (r : Reg) (imm : BitVec 32)
  | push (r : Reg)
  | int (n : Byte)
  | je8 (rel : Byte)
  | jne8 (rel : Byte)
  | je32 (rel : BitVec 32)
  | jne32 (rel : BitVec 32)
  deriving DecidableEq

def modRmByte (mode reg rm : ℕ) : Byte := BitVec.ofNat 8 (64 * mode + 8 * reg + rm)

namespace Instr

def encode : Instr → List Byte
  | inc r => [BitVec.ofNat 8 (0x40 + r.num)]
  | dec r => [BitVec.ofNat 8 (0x48 + r.num)]
  | addImm8 r imm => [0x83, modRmByte 3 0 r.num, imm]
  | subImm8 r imm => [0x83, modRmByte 3 5 r.num, imm]
  | addImm32 r imm => [0x81, modRmByte 3 0 r.num] ++ le32 imm
  | subImm32 r imm => [0x81, modRmByte 3 5 r.num] ++ le32 imm
  | incMem r => [0xFE, modRmByte 0 0 r.num]
  | decMem r => [0xFE, modRmByte 0 1 r.num]
  | addMem r imm => [0x80, modRmByte 0 0 r.num, imm]
  | subMem r imm => [0x80, modRmByte 0 5 r.num, imm]
  | cmpMem r imm => [0x80, modRmByte 0 7 r.num, imm]
  | addMemAl r => [0x00, modRmByte 0 0 r.num]
  | subMemAl r => [0x28, modRmByte 0 0 r.num]
  | mov dst src => [0x89, modRmByte 3 src.num dst.num]
  | movImm r imm => BitVec.ofNat 8 (0xB8 + r.num) :: le32 imm
  | movModRm r imm => [0xC7, modRmByte 3 0 r.num] ++ le32 imm
  | push r => [0xFF, modRmByte 3 6 r.num]
  | int n => [0xCD, n]
  | je8 rel => [0x74, rel]
  | jne8 rel => [0x75, rel]
  | je32 rel => [0x0F, 0x84] ++ le32 rel
  | jne32 rel => [0x0F, 0x85] ++ le32 rel

/-- The forms on memory need a register that can be named without a SIB byte or displacement. -/
def Encodable : Instr → Prop
  | incMem r | decMem r | addMem r _ | subMem r _ | cmpMem r _ | addMemAl r | subMemAl r => r.Indirect
  | _ => True

theorem encode_length_le (i : Instr) : i.encode.length ≤ 6 := by
  cases i <;> simp [encode]

end Instr

def decodeImm8 (mk : Byte → Instr) : List Byte → Option Instr
  | a :: _ => some (mk a)
  | _ => none

def decodeImm32 (mk : BitVec 32 → Instr) : List Byte → Option Instr
  | a :: b :: c :: d :: _ => some (mk (ofLe32 a b c d))
  | _ => none

/-- Decode an opcode that a ModRM byte with fields `mode`, `reg` and `r` follows. -/
def decodeModRm (op mode reg : ℕ) (r : Reg) (bs : List Byte) : Option Instr :=
  if mode = 3 then
    match op, reg with
    | 0x81, 0 => decodeImm32 (.addImm32 r) bs
    | 0x81, 5 => decodeImm32 (.subImm32 r) bs
    | 0x83, 0 => decodeImm8 (.addImm8 r) bs
    | 0x83, 5 => decodeImm8 (.subImm8 r) bs
    | 0x89, src => some (.mov r (.ofNum src))
    | 0xC7, 0 => decodeImm32 (.movModRm r) bs
    | 0xFF, 6 => some (.push r)
    | _, _ => none
  else if mode = 0 ∧ r.Indirect then
    match op, reg with
    | 0x00, 0 => some (.addMemAl r)
    | 0x28, 0 => some (.subMemAl r)
    | 0x80, 0 => decodeImm8 (.addMem r) bs
    | 0x80, 5 => decodeImm8 (.subMem r) bs
    | 0x80, 7 => decodeImm8 (.cmpMem r) bs
    | 0xFE, 0 => some (.incMem r)
    | 0xFE, 1 => some (.decMem r)
    | _, _ => none
  else none

/-- The instruction at the head of the bytes. -/
def decode : List Byte → Option Instr
  | [] => none
  | b :: bs =>
    let op := b.toNat
    if op / 8 = 0x08 then some (.inc (.ofNum (op % 8)))
    else if op / 8 = 0x09 then some (.dec (.ofNum (op % 8)))
    else if op / 8 = 0x17 then decodeImm32 (.movImm (.ofNum (op % 8))) bs
    else if op = 0x74 then decodeImm8 .je8 bs
    else if op = 0x75 then decodeImm8 .jne8 bs
    else if op = 0xCD then decodeImm8 .int bs
    else
      match bs with
      | [] => none
      | m :: bs =>
        if op = 0x0F then
          if m = 0x84 then decodeImm32 .je32 bs
          else if m = 0x85 then decodeImm32 .jne32 bs
          else none
        else decodeModRm op (m.toNat / 64) (m.toNat / 8 % 8) (.ofNum (m.toNat % 8)) bs

theorem decodeImm32_le32 (mk : BitVec 32 → Instr) (w : BitVec 32) (bs : List Byte) :
    decodeImm32 mk (le32 w ++ bs) = some (mk w) := by
  simp [decodeImm32, le32]

theorem decode_encode (i : Instr) (h : i.Encodable) (bs : List Byte) :
    decode (i.encode ++ bs) = some i := by
  cases i with
  | inc r => cases r <;> rfl
  | dec r => cases r <;> rfl
  | addImm8 r imm => cases r <;> rfl
  | subImm8 r imm => cases r <;> rfl
  | addImm32 r imm => cases r <;> exact decodeImm32_le32 _ imm bs
  | subImm32 r imm => cases r <;> exact decodeImm32_le32 _ imm bs
  | incMem r => cases r <;> first | rfl | simp [Instr.Encodable, Reg.Indirect] at h
  | decMem r => cases r <;> first | rfl | simp [Instr.Encodable, Reg.Indirect] at h
  | addMem r imm => cases r <;> first | rfl | simp [Instr.Encodable, Reg.Indirect] at h
  | subMem r imm => cases r <;> first | rfl | simp [Instr.Encodable, Reg.Indirect] at h
  | cmpMem r imm => cases r <;> first | rfl | simp [Instr.Encodable, Reg.Indirect] at h
  | addMemAl r => cases r <;> first | rfl | simp [Instr.Encodable, Reg.Indirect] at h
  | subMemAl r => cases r <;> first | rfl | simp [Instr.Encodable, Reg.Indirect] at h
  | mov dst src => cases dst <;> cases src <;> rfl
  | movImm r imm => cases r <;> exact decodeImm32_le32 _ imm bs
  | movModRm r imm => cases r <;> exact decodeImm32_le32 _ imm bs
  | push r => cases r <;> rfl
  | int n => rfl
  | je8 rel => rfl
  | jne8 rel => rfl
  | je32 rel => exact decodeImm32_le32 _ rel bs
  | jne32 rel => exact decodeImm32_le32 _ rel bs

end Bfcomp.Ia32
