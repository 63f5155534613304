import Bfcomp.Foundations.Ia32.Encoding
import Bfcomp.Frontend.IrGen

/-! # The emitter (`ir_compile.h`, `ir_compile.c`)

A `compile_ctx` is the vector of bytes emitted so far. The body of a loop is compiled into a buffer
of its own and appended after the jump over it. -/

namespace Bfcomp
set_option autoImplicit false

inductive CompileResult where
  | operandSize
  | malformedLoop
  | illegalState
  | ok
  deriving DecidableEq

def CompileResult.str : CompileResult → String
  | operandSize => "operand size too big"
  | malformedLoop => "malformed loop"
  | illegalState => "illegal state"
  | ok => "ok"

inductive ModRmMode where
  | regIndirect
  | sib1
  | sib2
  | regDirect
  deriving DecidableEq

def ModRmMode.num : ModRmMode → ℕ
  | regIndirect => 0
  | sib1 => 1
  | sib2 => 2
  | regDirect => 3

/-- `SP_REG`. -/
abbrev spReg : Ia32.Reg := .edi

def sysExit : Byte := 0x01
def sysRead : Byte := 0x03
def sysWrite : Byte := 0x04

def int8Max : ℤ := 127
def int8Min : ℤ := -128
def int32Max : ℤ := 2147483647
def int32Min : ℤ := -2147483648

/-- A cast to `int8_t`, kept as its byte. -/
def int8 (x : ℤ) : Byte := BitVec.ofInt 8 x

/-- A cast to `int32_t`. -/
def int32 (x : ℤ) : BitVec 32 := BitVec.ofInt 32 x

def modRm (mode : ModRmMode) (reg : ℕ) (rm : Ia32.Reg) : Byte :=
  BitVec.ofNat 8 ((mode.num <<< 6) ||| (reg <<< 3) ||| rm.num)

def ctxPushCode (ctx : List Byte) (code : List Byte) : List Byte := ctx ++ code

/-- `vec_push_as_bytes` of an `int32_t`. -/
def pushAsBytes (ctx : List Byte) (arg : BitVec 32) : List Byte := ctx ++ le32 arg

/-! ## Additions -/

/-- An operand that an instruction can hold. -/
def OperandFits (arg : ℤ) : Prop := ¬ (arg > int32Max ∨ arg < int32Min)

instance (arg : ℤ) : Decidable (OperandFits arg) := instDecidableNot

def emitAddSub (ctx : List Byte) (mode : ModRmMode) (op : IrOp) : CompileResult × List Byte :=
  if op.arg = 0 then (.ok, ctx)
  else if op.arg > int32Max ∨ op.arg < int32Min then (.operandSize, ctx)
  else if op.arg = 1 then
    if mode = .regDirect then (.ok, ctxPushCode ctx [0x40 + BitVec.ofNat 8 spReg.num])
    else (.ok, ctxPushCode ctx [0xFE, modRm mode 0 spReg])
  else if op.arg = -1 then
    if mode = .regDirect then (.ok, ctxPushCode ctx [0x48 + BitVec.ofNat 8 spReg.num])
    else (.ok, ctxPushCode ctx [0xFE, modRm mode 1 spReg])
  else if mode = .regIndirect then
    if op.arg > 0 then
      if op.arg ≤ int8Max then
        (.ok, ctxPushCode ctx [0x80, modRm mode 0 spReg, int8 op.arg])
      else
        let ctx := ctxPushCode ctx [0xC7, modRm .regDirect 0 .eax]
        let ctx := pushAsBytes ctx (int32 op.arg)
        (.ok, ctxPushCode ctx [0x00, modRm mode Ia32.Reg.eax.num spReg])
    else if -op.arg ≤ int8Max then
      (.ok, ctxPushCode ctx [0x80, modRm mode 5 spReg, int8 (-op.arg)])
    else
      let ctx := ctxPushCode ctx [0xC7, modRm .regDirect 0 .eax]
      let ctx := pushAsBytes ctx (int32 (-op.arg))
      (.ok, ctxPushCode ctx [0x28, modRm mode Ia32.Reg.eax.num spReg])
  else if mode = .regDirect then
    if op.arg > 0 then
      if op.arg ≤ int8Max then
        (.ok, ctxPushCode ctx [0x83, modRm mode 0 spReg, int8 op.arg])
      else
        let ctx := ctxPushCode ctx [0x81, modRm mode 0 spReg]
        (.ok, pushAsBytes ctx (int32 op.arg))
    else if -op.arg ≤ int8Max then
      (.ok, ctxPushCode ctx [0x83, modRm mode 5 spReg, int8 (-op.arg)])
    else
      let ctx := ctxPushCode ctx [0x81, modRm mode 5 spReg]
      (.ok, pushAsBytes ctx (int32 (-op.arg)))
  else (.illegalState, ctx)

def emitCodeTape (ctx : List Byte) (op : IrOp) : CompileResult × List Byte :=
  emitAddSub ctx .regDirect op

def emitCodeCell (ctx : List Byte) (op : IrOp) : CompileResult × List Byte :=
  emitAddSub ctx .regIndirect op

/-! ## Jumps -/

def emitCodeLoopStart (ctx : List Byte) (size : ℕ) : CompileResult × List Byte :=
  let ctx := ctxPushCode ctx [0x80, modRm .regIndirect 0x7 spReg, 0x0]
  if (size : ℤ) + 2 ≤ int8Max then (.ok, ctxPushCode ctx [0x74, int8 size])
  else
    let ctx := ctxPushCode ctx [0x0F, 0x84]
    (.ok, pushAsBytes ctx (int32 size))

/-- The offset is computed as a `size_t` and truncated to an `int32_t`. -/
def emitCodeLoopEnd (ctx : List Byte) : CompileResult × List Byte :=
  let ctx := ctxPushCode ctx [0x80, modRm .regIndirect 0x7 spReg, 0x0]
  let offset := (int32 (-((ctx.length : ℤ) + 2))).toInt
  if offset ≥ int8Min then (.ok, ctxPushCode ctx [0x75, int8 offset])
  else
    let ctx := ctxPushCode ctx [0x0F, 0x85]
    (.ok, pushAsBytes ctx (int32 (offset - 4)))

/-! ## System calls -/

def syscallArgReg : ℕ → Ia32.Reg
  | 0 => .ebx
  | 1 => .ecx
  | 2 => .edx
  | 3 => .esi
  | 4 => .edi
  | _ => .ebp

def syscallConstArg (ctx : List Byte) (n : ℕ) (arg : BitVec 32) : List Byte :=
  pushAsBytes (ctxPushCode ctx [0xb8 + BitVec.ofNat 8 (syscallArgReg n).num]) arg

def syscallRegArg (ctx : List Byte) (n : ℕ) (reg : Ia32.Reg) : List Byte :=
  ctxPushCode ctx [0x89, modRm .regDirect reg.num (syscallArgReg n)]

/-- One transfer of the byte at `SP_REG`: the sequence that `emit_code_write` and `emit_code_read`
share. -/
def emitTransfer (nr : Byte) (fd : ℤ) (ctx : List Byte) : List Byte :=
  let ctx := ctxPushCode ctx [0xb8 + BitVec.ofNat 8 Ia32.Reg.eax.num, nr, 0x0, 0x0, 0x0]
  let ctx := syscallConstArg ctx 0 (int32 fd)
  let ctx := syscallRegArg ctx 1 spReg
  let ctx := syscallConstArg ctx 2 (int32 1)
  ctxPushCode ctx [0xcd, 0x80]

/-- A transfer for each count of the op. -/
def emitCodeWrite (ctx : List Byte) (op : IrOp) : CompileResult × List Byte :=
  if op.arg > int32Max ∨ op.arg < int32Min then (.operandSize, ctx)
  else (.ok, (emitTransfer sysWrite 1)^[op.arg.toNat] ctx)

/-- One transfer, whatever the op's count. -/
def emitCodeRead (ctx : List Byte) (op : IrOp) : CompileResult × List Byte :=
  if op.arg > int32Max ∨ op.arg < int32Min then (.operandSize, ctx)
  else (.ok, emitTransfer sysRead 0 ctx)

def emitCodeTrap (ctx : List Byte) : CompileResult × List Byte :=
  (.ok, ctxPushCode ctx [0xcd, 0x03])

def emitCodeExit (ctx : List Byte) (op : IrOp) : CompileResult × List Byte :=
  if op.arg > int32Max ∨ op.arg < int32Min then (.operandSize, ctx)
  else
    let ctx := ctxPushCode ctx [0xb8 + BitVec.ofNat 8 Ia32.Reg.eax.num, sysExit, 0x0, 0x0, 0x0]
    let ctx := syscallConstArg ctx 0 (int32 op.arg)
    (.ok, ctxPushCode ctx [0xcd, 0x80])

/-- `code_fn`. The driver does not use the entry of `LOOP_START`; its third argument is the op's
index. -/
def codeFn (ctx : List Byte) (i : ℕ) (op : IrOp) : CompileResult × List Byte :=
  match op.kind with
  | .tape => emitCodeTape ctx op
  | .cell => emitCodeCell ctx op
  | .loopStart => emitCodeLoopStart ctx i
  | .loopEnd => emitCodeLoopEnd ctx
  | .write => emitCodeWrite ctx op
  | .read => emitCodeRead ctx op
  | .set => emitCodeTrap ctx
  | .max => emitCodeExit ctx op

/-! ## The driver -/

/-- What a compilation returns, the bytes it leaves, and what it prints to `stderr`. -/
structure Compiled where
  err : CompileResult
  code : List Byte
  stderr : List String
  deriving DecidableEq

def compilerError (opcode : IrOp) (err : CompileResult) : String :=
  "compiler error: [" ++ irFmtOp opcode ++ "] " ++ err.str

/-- `ir_ctx_compile__` from op `i` on; `none` when `fuel` turns of its loop do not suffice. -/
def compileLoop (ops : List IrOp) : ℕ → List Byte → ℕ → Option Compiled
  | 0, _, _ => none
  | fuel + 1, ctx, i =>
    match ops[i]? with
    | none => some ⟨.ok, ctx, []⟩
    | some opcode =>
      if opcode.kind = .loopStart then
        match compileLoop ops fuel [] (i + 1) with
        | none => none
        | some loopCode =>
          if loopCode.err = .ok then
            let emitted := emitCodeLoopStart ctx loopCode.code.length
            let ctx := emitted.2 ++ loopCode.code
            if emitted.1 = .ok then
              -- `i` is a `size_t`: below zero it would wrap past the end of the vector
              if 0 ≤ i + opcode.arg + 1 then compileLoop ops fuel ctx (i + opcode.arg + 1).toNat
              else some ⟨.ok, ctx, []⟩
            else some ⟨emitted.1, ctx, [compilerError opcode emitted.1]⟩
          else some ⟨loopCode.err, ctx, loopCode.stderr ++ [compilerError opcode loopCode.err]⟩
      else
        let emitted := codeFn ctx i opcode
        if emitted.1 = .ok then
          if opcode.kind = .loopEnd then some ⟨.ok, emitted.2, []⟩
          else compileLoop ops fuel emitted.2 (i + 1)
        else some ⟨emitted.1, emitted.2, [compilerError opcode emitted.1]⟩

/-- `ir_ctx_compile`: one turn for each op suffices, and one to see the end. -/
def irCtxCompile (ctx : List Byte) (ir : IrCtx) : Option Compiled :=
  let ops := patchHalt ir
  compileLoop ops (ops.length + 1) (ctxPushCode ctx [0xFF, modRm .regDirect 6 spReg]) 0

end Bfcomp
