import Bfcomp.Compile.Layout

/-! # Where compilation fails

An op whose operand is too big stops the emitter, inside any number of loops: the buffer of each
enclosing loop is dropped and the error handed on. So a balanced IR compiles exactly when every
operand fits. -/

namespace Bfcomp
set_option autoImplicit false

/-- Every op that has an operand has one in the range of an `int32_t`. -/
def OperandsInRange (ops : List IrOp) : Prop :=
  ∀ op ∈ ops, op.kind = .cell ∨ op.kind = .tape ∨ op.kind = .read ∨ op.kind = .write →
    -2^31 ≤ op.arg ∧ op.arg < 2^31

instance (ops : List IrOp) : Decidable (OperandsInRange ops) :=
  inferInstanceAs (Decidable (∀ op ∈ ops, _))

theorem operandFits_iff (arg : ℤ) : OperandFits arg ↔ -2^31 ≤ arg ∧ arg < 2^31 := by
  unfold OperandFits int32Max int32Min
  omega

theorem Prim.op_hasOperand (i : Prim) :
    i.op.kind = .cell ∨ i.op.kind = .tape ∨ i.op.kind = .read ∨ i.op.kind = .write := by
  cases i <;> simp [Prim.op]

theorem operandsFit_flat {p : Prog Prim} (h : p.All Prim.Fits) : OperandsFit (flat p) :=
  all_flat.mpr h

theorem operandsInRange_flat {p : Prog Prim} : OperandsInRange (flat p) ↔ p.All Prim.Fits := by
  constructor
  · intro h
    refine Prog.All.imp (fun i hi => ?_) (all_flat.mp fun op hop _ _ => h op hop)
    exact (operandFits_iff i.op.arg).mpr (hi i.op_hasOperand)
  · intro h op hop hkind
    refine (operandFits_iff op.arg).mp (operandsFit_flat h op hop ?_ ?_)
    · rintro hs
      simp [hs] at hkind
    · rintro he
      simp [he] at hkind

/-! ## One op, and every loop around it -/

theorem emitAddSub_misfit (ctx : List Byte) (mode : ModRmMode) (op : IrOp)
    (h : ¬ OperandFits op.arg) : (emitAddSub ctx mode op).1 = .operandSize :=
  (emitAddSub_operandSize ctx mode op).1.mpr fun hrange => h ((operandFits_iff op.arg).mpr hrange)

theorem codeFn_misfit (ctx : List Byte) (n : ℕ) {i : Prim} (h : ¬ i.Fits) :
    (codeFn ctx n i.op).1 = .operandSize := by
  cases i with
  | tape m => exact emitAddSub_misfit ctx .regDirect ⟨.tape, m⟩ h
  | cell m => exact emitAddSub_misfit ctx .regIndirect ⟨.cell, m⟩ h
  | write m => exact congrArg Prod.fst (if_pos (not_not.mp h))
  | read m => exact congrArg Prod.fst (if_pos (not_not.mp h))

section
variable {ops : List IrOp} {fuel i : ℕ} {ctx : List Byte}

theorem compileLoop_misfit_op {op : IrOp} (hop : ops[i]? = some op) (hs : op.kind ≠ .loopStart)
    (hcode : (codeFn ctx i op).1 = .operandSize) :
    ∃ out, compileLoop ops (fuel + 1) ctx i = some out ∧ out.err = .operandSize := by
  rw [compileLoop, hop]
  simp only [hs, hcode, reduceCtorEq, if_false]
  exact ⟨_, rfl, rfl⟩

theorem compileLoop_misfit_body {op : IrOp} (hop : ops[i]? = some op) (hs : op.kind = .loopStart)
    {out : Compiled} (hbody : compileLoop ops fuel [] (i + 1) = some out)
    (herr : out.err = .operandSize) :
    ∃ out, compileLoop ops (fuel + 1) ctx i = some out ∧ out.err = .operandSize := by
  rw [compileLoop, hop]
  simp only [hs, hbody, herr, reduceCtorEq, if_true, if_false]
  exact ⟨_, rfl, rfl⟩

end

/-- The emitter, at the ops of a program of which one does not fit, stops with an error. -/
theorem compileLoop_misfit {ops : List IrOp} {p : Prog Prim} (hp : ¬ p.All Prim.Fits)
    (pre post : List IrOp) (h : ops = pre ++ flat p ++ post) (fuel : ℕ)
    (hf : ops.length - pre.length < fuel) (ctx : List Byte) :
    ∃ out, compileLoop ops fuel ctx pre.length = some out ∧ out.err = .operandSize := by
  induction p generalizing pre post fuel ctx with
  | nil => exact (hp trivial).elim
  | prim i k ih =>
    by_cases hi : i.Fits
    · obtain ⟨f, hf', hfirst⟩ := compileLoop_flat (p := .prim i .nil) ⟨hi, trivial⟩ pre
        (flat k ++ post) (by simp [h, flat]) fuel hf ctx
      rw [hfirst]
      exact ih (fun hk => hp ⟨hi, hk⟩) _ post (by simp [h, flat]) f hf' _
    · obtain ⟨f, rfl⟩ : ∃ f, fuel = f + 1 := ⟨fuel - 1, by omega⟩
      have hop : ops[pre.length]? = some i.op := by simp [h, flat]
      exact compileLoop_misfit_op hop i.op_ne_bracket.1 (codeFn_misfit ctx _ hi)
  | loop b k ihb ihk =>
    by_cases hb : b.All Prim.Fits
    · -- the loop compiles, so the error comes from what follows it
      obtain ⟨f, hf', hfirst⟩ := compileLoop_flat (p := .loop b .nil) ⟨hb, trivial⟩ pre
        (flat k ++ post) (by simp [h, flat]) fuel hf ctx
      rw [hfirst]
      exact ihk (fun hk => hp ⟨hb, hk⟩) _ post (by simp [h, flat]) f hf' _
    · obtain ⟨f, rfl⟩ : ∃ f, fuel = f + 1 := ⟨fuel - 1, by omega⟩
      have hop : ops[pre.length]? = some ⟨.loopStart, (flat b).length + 1⟩ := by simp [h, flat]
      have hlt := (List.getElem?_eq_some_iff.mp hop).1
      have hpre : (pre ++ [(⟨.loopStart, (flat b).length + 1⟩ : IrOp)]).length =
          pre.length + 1 := by
        rw [List.length_append, List.length_singleton]
      obtain ⟨out, hout, herr⟩ := ihb hb (pre ++ [⟨.loopStart, (flat b).length + 1⟩])
        (⟨.loopEnd, -((flat b).length + 1 : ℤ)⟩ :: flat k ++ post)
        (by simp [h, flat]) f (by rw [hpre]; omega) []
      rw [hpre] at hout
      exact compileLoop_misfit_body hop rfl hout herr

/-- A balanced IR compiles exactly when every operand is in range; else the operand is reported. -/
theorem irCtxCompile_err {ctx : IrCtx} {cur : Prog Prim} (H : Represents ctx cur [])
    (buf : List Byte) : ∃ out, irCtxCompile buf ctx = some out ∧
      (out.err = .ok ↔ OperandsInRange ctx.data) := by
  have hdata : ctx.data = flat cur := by rw [H.data, opened, List.nil_append]
  have hrange : OperandsInRange ctx.data ↔ cur.All Prim.Fits := by rw [hdata, operandsInRange_flat]
  by_cases hfit : cur.All Prim.Fits
  · exact ⟨_, irCtxCompile_eq H (hdata ▸ operandsFit_flat hfit) buf,
      fun _ => hrange.mpr hfit, fun _ => rfl⟩
  · have hops : patchHalt ctx = [] ++ flat cur ++ [⟨.max, 0⟩] := by
      rw [patchHalt, hdata, List.nil_append]
    obtain ⟨out, hout, herr⟩ := compileLoop_misfit hfit [] [⟨.max, 0⟩] hops
      ((patchHalt ctx).length + 1) (by rw [List.length_nil]; omega)
      (ctxPushCode buf [0xFF, modRm .regDirect 6 spReg])
    refine ⟨out, hout, ?_⟩
    rw [herr]
    refine iff_of_false ?_ fun h => hfit (hrange.mp h)
    intro h
    cases h

end Bfcomp
