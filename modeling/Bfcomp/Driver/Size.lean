import Bfcomp.Compile.Bound
import Bfcomp.Driver.Commands
import Bfcomp.Driver.Output

/-! # The size of the compiled program

The length of a source bounds the operands of its IR and the code that is made of it. Each loop that
the source leaves open doubles the code behind it, so a source of a few dozen open brackets has no
executable that could be stored. -/

namespace Bfcomp
set_option autoImplicit false

section
variable (ctx : IrCtx) (chunks : List Chunk)

theorem readLoop_cost :
    cost (readLoop ctx chunks).ctx.data ≤ cost ctx.data + (visible chunks).length := by
  induction chunks generalizing ctx with
  | nil => exact Nat.le_refl _
  | cons chunk chunks ih =>
    have hfirst := parseLoop_cost ctx (chunk.bytes.takeWhile (· ≠ 0))
    rw [visible_cons, List.length_append]
    by_cases hstatus : (parseLoop ctx 0 (chunk.bytes.takeWhile (· ≠ 0))).status = 0
    · have hrest := ih (parseLoop ctx 0 (chunk.bytes.takeWhile (· ≠ 0))).ctx
      rw [readLoop_more chunks hstatus]
      omega
    · rw [readLoop_stop chunks hstatus]
      omega

/-- A source without two adjacent commas reads one byte at a time, however it is cut. -/
theorem readLoop_readsOnce (H : ReadsOnce ctx.data) (hsrc : ¬ doubleRead <:+: visible chunks) :
    ReadsOnce (readLoop ctx chunks).ctx.data := by
  induction chunks generalizing ctx with
  | nil => exact H
  | cons chunk chunks ih =>
    rw [visible_cons] at hsrc
    have hfirst := parseLoop_readsOnce ctx (chunk.bytes.takeWhile (· ≠ 0)) H fun hmem =>
      hsrc (hmem.trans (List.prefix_append _ _).isInfix)
    by_cases hstatus : (parseLoop ctx 0 (chunk.bytes.takeWhile (· ≠ 0))).status = 0
    · rw [readLoop_more chunks hstatus]
      exact ih _ hfirst fun hmem => hsrc (hmem.trans (List.suffix_append _ _).isInfix)
    · rw [readLoop_stop chunks hstatus]
      exact hfirst

end

theorem Represents.data_pending {ctx : IrCtx} {cur : Prog Prim} {outer : List (Prog Prim)}
    (H : Represents ctx cur outer) : ctx.data = pendingOps outer.reverse cur := by
  have happ := opened_append outer [] cur
  rw [pendingOps, List.append_nil] at happ
  rw [H.data, happ]

/-- Whatever source is parsed without error, it compiles if it is shorter than two gigabytes and the
bound on its code leaves room for the lengths in a `size_t`; the code has at most 19 bytes for each
character and 12 for the end, doubled for each of the `d` loops that are left open, and at least the
12 as often. -/
theorem compile_size (chunks : List Chunk) {d : ℕ} (hopen : openAfter 0 (visible chunks) = some d)
    (hsize : (visible chunks).length < 2^31) (buf : List Byte)
    (hroom : buf.length + 2 + 2^d * (19 * (visible chunks).length + 12) < 2^63) :
    ∃ code, irCtxCompile buf (readLoop {} chunks).ctx = some ⟨.ok, buf ++ [0xFF, 0xF7] ++ code, []⟩ ∧
      2^d * 12 ≤ code.length ∧ code.length ≤ 2^d * (19 * (visible chunks).length + 12) ∧
      buf.length + 2 + code.length < 2^63 := by
  obtain ⟨cur, outer, H, _, _⟩ := readLoop_shaped chunks shaped_init
  have hread := readLoop_openAfter {} chunks
  rw [List.length_nil, hopen] at hread
  obtain ⟨_, _, hpatch⟩ := hread
  have hd : outer.reverse.length = d := by
    rw [List.length_reverse, ← addrs_length, ← H.patch, hpatch]
  have hcost := readLoop_cost {} chunks
  rw [cost_nil, Nat.zero_add] at hcost
  obtain ⟨hlower, hupper⟩ := pendingCode_length outer.reverse cur
  rw [hd] at hlower hupper
  rw [← H.data_pending] at hupper
  have hle : (pendingCode outer.reverse cur).length ≤ 2^d * (19 * (visible chunks).length + 12) :=
    hupper.trans (Nat.mul_le_mul_left _ (by omega))
  exact ⟨_, irCtxCompile_eq H (operandsFit_of_cost (by omega)) buf, hlower, hle, by omega⟩

/-- `[[.`: the end and the write behind two open loops are there four times. -/
def openChunks : List Chunk := [openChunk, ⟨[ascii '[', ascii '.'], by decide, by decide⟩]

theorem compile_size_open : ∃ code, irCtxCompile textStart (readLoop {} openChunks).ctx =
      some ⟨.ok, textStart ++ [0xFF, 0xF7] ++ code, []⟩ ∧
    2^2 * 12 ≤ code.length ∧ code.length ≤ 2^2 * (19 * (visible openChunks).length + 12) ∧
    textStart.length + 2 + code.length < 2^63 :=
  compile_size openChunks (by decide) (by decide) textStart (by decide)

end Bfcomp
