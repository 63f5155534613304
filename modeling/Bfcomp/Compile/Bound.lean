import Bfcomp.Compile.Layout
import Bfcomp.Compile.Size
import Bfcomp.Frontend.Cost

/-! # How much code a source makes

Nineteen bytes are enough for each character that an op stands for: the longest code for one
character is that of a transfer, and the two jumps of a loop take eighteen for its two brackets. Only
a loop that is never closed makes more: what is behind it is emitted twice. -/

namespace Bfcomp
set_option autoImplicit false

open Ia32 (assemble)

/-! ## Closed loops -/

theorem addSize_le {short long : ℕ} (hshort : short ≤ 19) (hlong : long ≤ 19) (n : ℤ) :
    addSize short long n ≤ 19 := by
  unfold addSize
  split_ifs <;> omega

theorem opSize_le (op : IrOp) : opSize op ≤ 19 * op.cost := by
  have hpos := op.cost_pos
  unfold opSize
  split
  · have hadd : addSize 1 6 op.arg ≤ 19 := addSize_le (by decide) (by decide) op.arg
    omega
  · have hadd : addSize 2 8 op.arg ≤ 19 := addSize_le (by decide) (by decide) op.arg
    omega
  · next hk =>
    have habs := op.natAbs_le_cost (by rw [hk]; decide) (by rw [hk]; decide)
    omega
  · omega
  · exact Nat.zero_le _

theorem startSize_le (size : ℕ) : startSize size ≤ 9 := by
  unfold startSize
  split <;> decide

theorem endSize_le (len : ℕ) : endSize len ≤ 9 := by
  unfold endSize
  split <;> decide

/-- The bytes of all open loops together. -/
def SizeScan.total (st : SizeScan) : ℕ := st.cur + st.outer.sum

theorem scan_op_le (st : SizeScan) (op : IrOp) :
    (st.op op).total ≤ st.total + 19 * op.cost ∧
      (st.fit = true → st.total + 5 ≤ 2^31 → (st.op op).fit = true) := by
  obtain ⟨cur, outer, fit⟩ := st
  have hpos := op.cost_pos
  unfold SizeScan.op SizeScan.total
  split
  · simp only [List.sum_cons]
    exact ⟨by omega, fun hfit _ => hfit⟩
  · cases outer with
    | nil => exact ⟨Nat.le_add_right _ _, fun hfit _ => hfit⟩
    | cons before outer =>
      have hstart := startSize_le (cur + endSize cur)
      have hend := endSize_le cur
      simp only [List.sum_cons, Bool.and_eq_true, decide_eq_true_eq]
      exact ⟨by omega, fun hfit hroom => ⟨hfit, by omega⟩⟩
  · have hop := opSize_le op
    exact ⟨by simp only; omega, fun hfit _ => hfit⟩

theorem scan_le (ops : List IrOp) (st : SizeScan) :
    (ops.foldl SizeScan.op st).total ≤ st.total + 19 * cost ops ∧
      (st.fit = true → st.total + 19 * cost ops + 5 ≤ 2^31 →
        (ops.foldl SizeScan.op st).fit = true) := by
  induction ops generalizing st with
  | nil => exact ⟨Nat.le_refl _, fun hfit _ => hfit⟩
  | cons op ops ih =>
    obtain ⟨hle, hkeep⟩ := scan_op_le st op
    obtain ⟨hle', hkeep'⟩ := ih (st.op op)
    rw [List.foldl_cons, cost_cons]
    exact ⟨by omega, fun hfit hroom => hkeep' (hkeep hfit (by omega)) (by omega)⟩

/-- Loops of a source that is not too long can be jumped over. -/
theorem loopsFit_of_cost {ops : List IrOp} (h : 19 * cost ops + 5 ≤ 2^31) : LoopsFit ops :=
  (scan_le ops ⟨0, [], true⟩).2 rfl (by simpa [SizeScan.total] using h)

theorem operandsFit_of_cost {ops : List IrOp} (h : cost ops < 2^31) : OperandsFit ops := by
  intro op hop hs he
  have habs := op.natAbs_le_cost hs he
  have hcost := cost_le_of_mem hop
  unfold OperandFits int32Max int32Min
  omega

/-! ## Open loops -/

theorem startInstrs_length_le (size : ℕ) :
    5 ≤ (assemble (startInstrs size)).length ∧ (assemble (startInstrs size)).length ≤ 9 := by
  rw [startInstrs_length]
  unfold startSize
  split <;> decide

theorem endInstrs_length_le (len : ℕ) : (assemble (endInstrs len)).length ≤ 9 := by
  unfold endInstrs
  split
  · exact (by decide : 5 ≤ 9)
  · exact (by decide : 9 ≤ 9)

theorem enc_length_le (p : Prog Prim) : (enc p).length ≤ 19 * cost (flat p) := by
  induction p with
  | nil => exact Nat.le_refl _
  | prim i k ih =>
    have hop := opSize_le i.op
    rw [enc, flat, List.length_append, instrs_length, cost_cons]
    omega
  | loop b k ihb ihk =>
    have hstart := (startInstrs_length_le (bodyCode (enc b)).length).2
    have hend := endInstrs_length_le (enc b).length
    have hbody : (bodyCode (enc b)).length =
        (enc b).length + (assemble (endInstrs (enc b).length)).length := List.length_append
    have hopen : (IrOp.mk .loopStart ((flat b).length + 1)).cost = 1 := rfl
    have hclose : (IrOp.mk .loopEnd (-((flat b).length + 1))).cost = 1 := rfl
    rw [enc, flat, List.length_append, List.length_append, cost_append, cost_cons, cost_cons]
    omega

theorem pendingCode_length (segments : List (Prog Prim)) (cur : Prog Prim) :
    2^segments.length * 12 ≤ (pendingCode segments cur).length ∧
      (pendingCode segments cur).length ≤
        2^segments.length * (19 * cost (pendingOps segments cur) + 12) := by
  induction segments with
  | nil =>
    have hle := enc_length_le cur
    have hexit : (assemble exitInstrs).length = 12 := rfl
    rw [pendingCode, pendingOps, List.length_append, hexit, List.length_nil]
    omega
  | cons p segments ih =>
    obtain ⟨hlower, hupper⟩ := ih
    have hle := enc_length_le p
    obtain ⟨_, hstart⟩ := startInstrs_length_le (pendingCode segments cur).length
    have hopen : (IrOp.mk .loopStart 0).cost = 1 := rfl
    have hpow : 1 ≤ 2^segments.length := Nat.one_le_two_pow
    have hdouble : 2^(p :: segments).length = 2 * 2^segments.length := by
      rw [List.length_cons, Nat.pow_succ, Nat.mul_comm]
    rw [pendingCode, pendingOps, hdouble, List.length_append, List.length_append,
      List.length_append, cost_append, cost_cons, hopen]
    generalize 2^segments.length = d at *
    generalize (pendingCode segments cur).length = l at *
    generalize cost (pendingOps segments cur) = c at *
    refine ⟨by rw [Nat.mul_assoc]; omega, ?_⟩
    calc (enc p).length + (assemble (startInstrs l)).length + l + l
        ≤ 19 * cost (flat p) + 9 + 2 * (d * (19 * c + 12)) := by omega
      _ ≤ 2 * d * (19 * (cost (flat p) + (1 + c)) + 12) := by nlinarith

end Bfcomp
