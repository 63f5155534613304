import Bfcomp.Compile.Emit
import Bfcomp.Foundations.Ia32.Machine
import Bfcomp.Frontend.Shape

/-! # The code of a structured program

`enc` is the code of a structured program, `pendingCode` that of a context whose pending loops have
the rest of the program as their body and then once more as what follows them. The emitter produces
exactly these bytes (`compileLoop_flat`, `compileLoop_pending`). -/

namespace Bfcomp
set_option autoImplicit false

open Ia32 (Instr assemble)

/-! ## Instructions of the primitives -/

def tapeInstrs (n : ℤ) : List Instr :=
  if n = 0 then []
  else if n = 1 then [.inc spReg]
  else if n = -1 then [.dec spReg]
  else if n > 0 then
    if n ≤ int8Max then [.addImm8 spReg (int8 n)] else [.addImm32 spReg (int32 n)]
  else if -n ≤ int8Max then [.subImm8 spReg (int8 (-n))]
  else [.subImm32 spReg (int32 (-n))]

def cellInstrs (n : ℤ) : List Instr :=
  if n = 0 then []
  else if n = 1 then [.incMem spReg]
  else if n = -1 then [.decMem spReg]
  else if n > 0 then
    if n ≤ int8Max then [.addMem spReg (int8 n)]
    else [.movModRm .eax (int32 n), .addMemAl spReg]
  else if -n ≤ int8Max then [.subMem spReg (int8 (-n))]
  else [.movModRm .eax (int32 (-n)), .subMemAl spReg]

def transferInstrs (nr fd : ℕ) : List Instr :=
  [.movImm .eax (BitVec.ofNat 32 nr), .movImm .ebx (BitVec.ofNat 32 fd), .mov .ecx spReg,
    .movImm .edx 1, .int 0x80]

def exitInstrs : List Instr := [.movImm .eax 1, .movImm .ebx 0, .int 0x80]

def Prim.instrs : Prim → List Instr
  | tape n => tapeInstrs n
  | cell n => cellInstrs n
  | write n => (List.replicate n.toNat (transferInstrs 4 1)).flatten
  | read _ => transferInstrs 3 0

def Prim.Fits (i : Prim) : Prop := OperandFits i.op.arg

section
variable (ctx : List Byte)

theorem emitCodeTape_eq (n : ℤ) (h : OperandFits n) :
    emitCodeTape ctx ⟨.tape, n⟩ = (.ok, ctx ++ assemble (tapeInstrs n)) := by
  simp only [emitCodeTape, emitAddSub, tapeInstrs, if_neg h]
  by_cases h0 : n = 0
  · simp [h0]
  by_cases h1 : n = 1
  · simp only [h1]
    rfl
  by_cases hm : n = -1
  · simp only [hm]
    rfl
  simp only [h0, h1, hm, if_false, reduceCtorEq]
  by_cases hp : n > 0
  · by_cases hs : n ≤ int8Max
    · simp only [hp, hs, if_true]
      rfl
    · simp only [hp, hs, if_true, if_false, pushAsBytes, ctxPushCode, List.append_assoc]
      simp only [assemble, List.append_nil]
      rfl
  · by_cases hs : -n ≤ int8Max
    · simp only [hp, hs, if_true, if_false]
      rfl
    · simp only [hp, hs, if_false, pushAsBytes, ctxPushCode, List.append_assoc]
      simp only [assemble, List.append_nil]
      rfl

theorem emitCodeCell_eq (n : ℤ) (h : OperandFits n) :
    emitCodeCell ctx ⟨.cell, n⟩ = (.ok, ctx ++ assemble (cellInstrs n)) := by
  simp only [emitCodeCell, emitAddSub, cellInstrs, if_neg h]
  by_cases h0 : n = 0
  · simp [h0]
  by_cases h1 : n = 1
  · simp only [h1]
    rfl
  by_cases hm : n = -1
  · simp only [hm]
    rfl
  simp only [h0, h1, hm, if_false, if_true]
  by_cases hp : n > 0
  · by_cases hs : n ≤ int8Max
    · simp only [hp, hs, if_true]
      rfl
    · simp only [hp, hs, if_true, if_false, pushAsBytes, ctxPushCode, List.append_assoc]
      rfl
  · by_cases hs : -n ≤ int8Max
    · simp only [hp, hs, if_true, if_false]
      rfl
    · simp only [hp, hs, if_false, pushAsBytes, ctxPushCode, List.append_assoc]
      rfl

theorem emitTransfer_write : emitTransfer sysWrite 1 ctx = ctx ++ assemble (transferInstrs 4 1) := by
  simp only [emitTransfer, syscallConstArg, syscallRegArg, pushAsBytes, ctxPushCode,
    List.append_assoc]
  rfl

theorem emitTransfer_read : emitTransfer sysRead 0 ctx = ctx ++ assemble (transferInstrs 3 0) := by
  simp only [emitTransfer, syscallConstArg, syscallRegArg, pushAsBytes, ctxPushCode,
    List.append_assoc]
  rfl

theorem emitTransfer_iterate (n : ℕ) : (emitTransfer sysWrite 1)^[n] ctx =
    ctx ++ assemble (List.replicate n (transferInstrs 4 1)).flatten := by
  induction n generalizing ctx with
  | zero => simp
  | succ n ih =>
    rw [Function.iterate_succ_apply, ih, emitTransfer_write, List.replicate_succ,
      List.flatten_cons, Ia32.assemble_append, List.append_assoc]

theorem emitCodeWrite_eq (n : ℤ) (h : OperandFits n) :
    emitCodeWrite ctx ⟨.write, n⟩ =
      (.ok, ctx ++ assemble (List.replicate n.toNat (transferInstrs 4 1)).flatten) := by
  simp only [emitCodeWrite, if_neg h, emitTransfer_iterate]

theorem emitCodeRead_eq (n : ℤ) (h : OperandFits n) :
    emitCodeRead ctx ⟨.read, n⟩ = (.ok, ctx ++ assemble (transferInstrs 3 0)) := by
  simp only [emitCodeRead, if_neg h, emitTransfer_read]

theorem codeFn_prim (i : ℕ) (p : Prim) (h : p.Fits) :
    codeFn ctx i p.op = (.ok, ctx ++ assemble p.instrs) := by
  cases p with
  | tape n => exact emitCodeTape_eq ctx n h
  | cell n => exact emitCodeCell_eq ctx n h
  | write n => exact emitCodeWrite_eq ctx n h
  | read n => exact emitCodeRead_eq ctx n h

theorem codeFn_max (i : ℕ) : codeFn ctx i ⟨.max, 0⟩ = (.ok, ctx ++ assemble exitInstrs) := by
  have hfit : ¬ ((0 : ℤ) > int32Max ∨ (0 : ℤ) < int32Min) := by decide
  simp only [codeFn, emitCodeExit, if_neg hfit, syscallConstArg, pushAsBytes, ctxPushCode,
    List.append_assoc]
  rfl

end

/-! ## Loops -/

/-- The compare and the jump over a loop body of `size` bytes. -/
def startInstrs (size : ℕ) : List Instr :=
  [.cmpMem spReg 0, if (size : ℤ) + 2 ≤ int8Max then .je8 (int8 size) else .je32 (int32 size)]

/-- The displacement of the jump back over `len` bytes, the compare and a short jump. -/
def backOffset (len : ℕ) : ℤ := (int32 (-((len : ℤ) + 5))).toInt

def endInstrs (len : ℕ) : List Instr :=
  [.cmpMem spReg 0,
    if backOffset len ≥ int8Min then .jne8 (int8 (backOffset len))
    else .jne32 (int32 (backOffset len - 4))]

theorem emitCodeLoopStart_eq (ctx : List Byte) (size : ℕ) :
    emitCodeLoopStart ctx size = (.ok, ctx ++ assemble (startInstrs size)) := by
  simp only [emitCodeLoopStart, startInstrs, pushAsBytes, ctxPushCode, List.append_assoc]
  split <;> rfl

theorem emitCodeLoopEnd_eq (ctx : List Byte) :
    emitCodeLoopEnd ctx = (.ok, ctx ++ assemble (endInstrs ctx.length)) := by
  have hlen : (((ctx ++ [0x80, modRm .regIndirect 0x7 spReg, 0x0]).length : ℕ) : ℤ) + 2 =
      (ctx.length : ℤ) + 5 := by
    simp only [List.length_append, List.length_cons, List.length_nil]
    omega
  simp only [emitCodeLoopEnd, endInstrs, pushAsBytes, ctxPushCode, hlen]
  unfold backOffset
  simp only [List.append_assoc]
  split <;> rfl

/-- A loop body with its compare and jump back. -/
def bodyCode (code : List Byte) : List Byte := code ++ assemble (endInstrs code.length)

def enc : Prog Prim → List Byte
  | .nil => []
  | .prim i k => assemble i.instrs ++ enc k
  | .loop b k =>
    assemble (startInstrs (bodyCode (enc b)).length) ++ bodyCode (enc b) ++ enc k

/-- A context with pending loops: `segments` each end at one, `cur` follows the last. -/
def pendingOps : List (Prog Prim) → Prog Prim → List IrOp
  | [], cur => flat cur
  | p :: segments, cur => flat p ++ ⟨.loopStart, 0⟩ :: pendingOps segments cur

def pendingCode : List (Prog Prim) → Prog Prim → List Byte
  | [], cur => enc cur ++ assemble exitInstrs
  | p :: segments, cur =>
    enc p ++ assemble (startInstrs (pendingCode segments cur).length) ++
      pendingCode segments cur ++ pendingCode segments cur

theorem opened_append (outer segments : List (Prog Prim)) (cur : Prog Prim) :
    opened outer ++ pendingOps segments cur = pendingOps (outer.reverse ++ segments) cur := by
  induction outer generalizing segments with
  | nil => rfl
  | cons p ps ih =>
    have h := ih (p :: segments)
    simp only [opened, pendingOps, List.reverse_cons, List.append_assoc, List.cons_append,
      List.nil_append] at h ⊢
    exact h

/-! ## The emitter produces it -/

section
variable {ops : List IrOp} {fuel i : ℕ} {ctx : List Byte}

theorem compileLoop_end (h : ops.length ≤ i) (hf : ops.length - i < fuel) :
    compileLoop ops fuel ctx i = some ⟨.ok, ctx, []⟩ := by
  obtain ⟨f, rfl⟩ : ∃ f, fuel = f + 1 := ⟨fuel - 1, by omega⟩
  rw [compileLoop, List.getElem?_eq_none h]

theorem compileLoop_op {op : IrOp} {code : List Byte} (hop : ops[i]? = some op)
    (hs : op.kind ≠ .loopStart) (he : op.kind ≠ .loopEnd)
    (hcode : codeFn ctx i op = (.ok, ctx ++ code)) :
    compileLoop ops (fuel + 1) ctx i = compileLoop ops fuel (ctx ++ code) (i + 1) := by
  rw [compileLoop, hop]
  simp only [hs, he, hcode, if_true, if_false]

theorem compileLoop_loopEnd {arg : ℤ} (hop : ops[i]? = some ⟨.loopEnd, arg⟩) :
    compileLoop ops (fuel + 1) ctx i = some ⟨.ok, bodyCode ctx, []⟩ := by
  rw [compileLoop, hop]
  simp only [reduceCtorEq, if_false, codeFn, emitCodeLoopEnd_eq, if_true]
  rfl

theorem compileLoop_loopStart {d : ℕ} {body : List Byte} (hop : ops[i]? = some ⟨.loopStart, d⟩)
    (hbody : compileLoop ops fuel [] (i + 1) = some ⟨.ok, body, []⟩) :
    compileLoop ops (fuel + 1) ctx i =
      compileLoop ops fuel (ctx ++ assemble (startInstrs body.length) ++ body) (i + d + 1) := by
  have hnext : 0 ≤ (i : ℤ) + d + 1 := by omega
  have hto : ((i : ℤ) + d + 1).toNat = i + d + 1 := by omega
  rw [compileLoop, hop]
  simp only [if_true, hbody, emitCodeLoopStart_eq, if_pos hnext, hto]

end

theorem getElem?_append_cons {α : Type} (l : List α) (x : α) (r : List α) :
    (l ++ x :: r)[l.length]? = some x := by
  rw [List.getElem?_append_right (Nat.le_refl _), Nat.sub_self, List.getElem?_cons_zero]

/-- The emitter, at the ops of a program, appends the program's code and goes on behind them. -/
theorem compileLoop_flat {ops : List IrOp} {p : Prog Prim} (hp : p.All Prim.Fits)
    (pre post : List IrOp) (h : ops = pre ++ flat p ++ post) (fuel : ℕ)
    (hf : ops.length - pre.length < fuel) (ctx : List Byte) :
    ∃ fuel', ops.length - (pre ++ flat p).length < fuel' ∧
      compileLoop ops fuel ctx pre.length =
        compileLoop ops fuel' (ctx ++ enc p) (pre ++ flat p).length := by
  induction p generalizing pre post fuel ctx with
  | nil => exact ⟨fuel, by simpa using hf, by simp [enc]⟩
  | prim i k ih =>
    obtain ⟨f, rfl⟩ : ∃ f, fuel = f + 1 := ⟨fuel - 1, by omega⟩
    have hop : ops[pre.length]? = some i.op := by simp [h, flat]
    have hlen : pre.length < ops.length := (List.getElem?_eq_some_iff.mp hop).1
    obtain ⟨f', hf', hk⟩ := ih hp.2 (pre ++ [i.op]) post (by simp [h, flat]) f
      (by rw [List.length_append, List.length_singleton]; omega) (ctx ++ assemble i.instrs)
    have hpos : pre ++ flat (.prim i k) = pre ++ [i.op] ++ flat k := by simp [flat]
    refine ⟨f', by rw [hpos]; exact hf', ?_⟩
    rw [compileLoop_op hop i.op_ne_bracket.1 i.op_ne_bracket.2 (codeFn_prim ctx _ i hp.1), hpos,
      enc, ← List.append_assoc, ← hk, List.length_append, List.length_singleton]
  | loop b k ihb ihk =>
    obtain ⟨f, rfl⟩ : ∃ f, fuel = f + 1 := ⟨fuel - 1, by omega⟩
    have hop : ops[pre.length]? = some ⟨.loopStart, ((flat b).length + 1 : ℕ)⟩ := by
      simp [h, flat]
    have hlen : pre.length + (flat b).length + 2 ≤ ops.length := by
      rw [h]
      simp only [flat, List.length_append, List.length_cons]
      omega
    have hpre : (pre ++ [(⟨.loopStart, (flat b).length + 1⟩ : IrOp)]).length = pre.length + 1 := by
      rw [List.length_append, List.length_singleton]
    -- the body, into a buffer of its own, up to the closing bracket
    obtain ⟨fb, hfb, hb⟩ := ihb hp.1 (pre ++ [⟨.loopStart, (flat b).length + 1⟩])
      (⟨.loopEnd, -((flat b).length + 1 : ℤ)⟩ :: flat k ++ post)
      (by simp [h, flat]) f (by rw [hpre]; omega) []
    obtain ⟨g, rfl⟩ : ∃ g, fb = g + 1 := ⟨fb - 1, by omega⟩
    have hend : ops[(pre ++ [(⟨.loopStart, (flat b).length + 1⟩ : IrOp)] ++ flat b).length]? =
        some ⟨.loopEnd, -((flat b).length + 1 : ℤ)⟩ := by
      have hops : ops = (pre ++ [⟨.loopStart, (flat b).length + 1⟩] ++ flat b) ++
          ⟨.loopEnd, -((flat b).length + 1 : ℤ)⟩ :: (flat k ++ post) := by
        simp [h, flat]
      rw [hops]
      exact getElem?_append_cons _ _ _
    rw [compileLoop_loopEnd hend, hpre, List.nil_append] at hb
    -- what follows the loop
    have hrest : (pre ++ ⟨.loopStart, (flat b).length + 1⟩ :: flat b ++
        [⟨.loopEnd, -((flat b).length + 1 : ℤ)⟩] : List IrOp).length =
        pre.length + ((flat b).length + 1) + 1 := by
      simp only [List.length_append, List.length_cons, List.length_nil, Nat.add_assoc]
    obtain ⟨fk, hfk, hk⟩ := ihk hp.2 (pre ++ ⟨.loopStart, (flat b).length + 1⟩ :: flat b ++
      [⟨.loopEnd, -((flat b).length + 1 : ℤ)⟩]) post (by simp [h, flat]) f
      (by rw [hrest]; omega)
      (ctx ++ assemble (startInstrs (bodyCode (enc b)).length) ++ bodyCode (enc b))
    have hpos : pre ++ flat (.loop b k) = pre ++ ⟨.loopStart, (flat b).length + 1⟩ :: flat b ++
        [⟨.loopEnd, -((flat b).length + 1 : ℤ)⟩] ++ flat k := by simp [flat]
    refine ⟨fk, by rw [hpos]; exact hfk, ?_⟩
    rw [compileLoop_loopStart hop hb, hpos, enc, ← hrest, hk]
    simp only [List.append_assoc]

/-- The emitter, from the first op after a pending loop to the end of the vector. -/
theorem compileLoop_pending {ops : List IrOp} {segments : List (Prog Prim)} {cur : Prog Prim}
    (hs : ∀ p ∈ segments, p.All Prim.Fits) (hcur : cur.All Prim.Fits) {pre : List IrOp}
    (h : ops = pre ++ pendingOps segments cur ++ [⟨.max, 0⟩]) {fuel : ℕ}
    (hf : ops.length - pre.length < fuel) (ctx : List Byte) :
    compileLoop ops fuel ctx pre.length = some ⟨.ok, ctx ++ pendingCode segments cur, []⟩ := by
  induction segments generalizing pre fuel ctx with
  | nil =>
    obtain ⟨f, hf', hflat⟩ := compileLoop_flat hcur pre _ h fuel hf ctx
    have hop : ops[(pre ++ flat cur).length]? = some ⟨.max, 0⟩ := by
      rw [h]
      exact List.getElem?_concat_length
    have hlen : ops.length = (pre ++ flat cur).length + 1 := by
      rw [h, List.length_append, List.length_singleton]
      rfl
    obtain ⟨g, rfl⟩ : ∃ g, f = g + 1 := ⟨f - 1, by omega⟩
    rw [hflat, compileLoop_op hop nofun nofun (codeFn_max _ _),
      compileLoop_end (by omega) (by omega), pendingCode, List.append_assoc]
  | cons p segments ih =>
    obtain ⟨f, hf', hflat⟩ := compileLoop_flat (hs p (by simp)) pre
      (⟨.loopStart, 0⟩ :: pendingOps segments cur ++ [⟨.max, 0⟩])
      (by simp [h, pendingOps]) fuel hf ctx
    have hops : ops = pre ++ flat p ++ ⟨.loopStart, ((0 : ℕ) : ℤ)⟩ ::
        (pendingOps segments cur ++ [⟨.max, 0⟩]) := by simp [h, pendingOps]
    have hop : ops[(pre ++ flat p).length]? = some ⟨.loopStart, ((0 : ℕ) : ℤ)⟩ := by
      rw [hops]
      exact getElem?_append_cons _ _ _
    have hlt := (List.getElem?_eq_some_iff.mp hop).1
    obtain ⟨g, rfl⟩ : ∃ g, f = g + 1 := ⟨f - 1, by omega⟩
    have hrest : ∀ ctx, compileLoop ops g ctx ((pre ++ flat p).length + 1) =
        some ⟨.ok, ctx ++ pendingCode segments cur, []⟩ := by
      intro ctx
      have hpre : (pre ++ flat p ++ [(⟨.loopStart, 0⟩ : IrOp)]).length =
          (pre ++ flat p).length + 1 := by
        rw [List.length_append, List.length_singleton]
      rw [← hpre]
      exact ih (fun q hq => hs q (by simp [hq])) (by simp [hops]) (by rw [hpre]; omega) ctx
    rw [hflat, compileLoop_loopStart hop (hrest []), Nat.add_zero, hrest]
    simp only [pendingCode, List.nil_append, List.append_assoc]

end Bfcomp
