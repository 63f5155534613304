import Bfcomp.Frontend.Reading
import Mathlib.Algebra.Order.BigOperators.Group.List

/-! # What a source costs

Every op of an IR is paid for by characters of the source: a bracket by one, a coalesced run by at
least as many as its operand says. So the length of a source bounds every operand, and the number of
ops. A source without two adjacent commas reads one byte at a time. -/

namespace Bfcomp
set_option autoImplicit false

/-! ## The cost of an op -/

/-- The least number of characters that an op can stand for. -/
def IrOp.cost (op : IrOp) : ℕ :=
  match op.kind with
  | .loopStart => 1
  | .loopEnd => 1
  | _ => max 1 op.arg.natAbs

def cost (ops : List IrOp) : ℕ := (ops.map IrOp.cost).sum

@[simp] theorem cost_nil : cost [] = 0 := rfl

@[simp] theorem cost_cons (op : IrOp) (ops : List IrOp) : cost (op :: ops) = op.cost + cost ops := by
  simp [cost]

@[simp] theorem cost_append (ops ops' : List IrOp) : cost (ops ++ ops') = cost ops + cost ops' := by
  simp [cost]

theorem IrOp.cost_pos (op : IrOp) : 1 ≤ op.cost := by
  unfold cost
  split
  · exact Nat.le_refl 1
  · exact Nat.le_refl 1
  · exact Nat.le_max_left _ _

theorem IrOp.cost_le (kind : IrOpKind) (v : ℤ) :
    (IrOp.mk kind v).cost ≤ max 1 v.natAbs := by
  unfold cost
  split
  · exact Nat.le_max_left _ _
  · exact Nat.le_max_left _ _
  · exact Nat.le_refl _

theorem IrOp.natAbs_le_cost {op : IrOp} (hs : op.kind ≠ .loopStart) (he : op.kind ≠ .loopEnd) :
    op.arg.natAbs ≤ op.cost := by
  unfold cost
  split
  · exact (hs ‹_›).elim
  · exact (he ‹_›).elim
  · exact Nat.le_max_right _ _

theorem cost_le_of_mem {op : IrOp} {ops : List IrOp} (h : op ∈ ops) : op.cost ≤ cost ops :=
  List.single_le_sum (fun _ _ => Nat.zero_le _) _ (List.mem_map_of_mem h)

/-- Patching an op with one that costs a character costs nothing. -/
theorem cost_set_le {op : IrOp} (hop : op.cost = 1) (ops : List IrOp) (i : ℕ) :
    cost (ops.set i op) ≤ cost ops := by
  induction ops generalizing i with
  | nil => exact Nat.le_refl _
  | cons op' ops ih =>
    cases i with
    | zero =>
      have hpos := op'.cost_pos
      rw [List.set_cons_zero, cost_cons, cost_cons]
      omega
    | succ i =>
      have hrest := ih i
      rw [List.set_cons_succ, cost_cons, cost_cons]
      omega

theorem natAbs_i64_le (x : ℤ) : (i64 x).natAbs ≤ x.natAbs := by
  by_cases h : -2^63 ≤ x ∧ x < 2^63
  · rw [i64_of_range h.1 h.2]
  · have heq := i64_eq x
    omega

/-! ## The parser pays -/

section
variable {ctx ctx' : IrCtx}

theorem pushOp_cost (ctx : IrCtx) (kind : IrOpKind) {v : ℤ} (hv : 1 ≤ v.natAbs) :
    cost (pushOp ctx kind v).data ≤ cost ctx.data + v.natAbs := by
  have hop := IrOp.cost_le kind (i64 v)
  have habs := natAbs_i64_le v
  rw [pushOp, cost_append, cost_cons, cost_nil]
  omega

theorem coalesce_cost (ctx : IrCtx) {kind : IrOpKind} (hk : kind = .cell ∨ kind = .tape) {v : ℤ}
    (hv : 1 ≤ v.natAbs) : cost (coalesce ctx kind v).data ≤ cost ctx.data + v.natAbs := by
  rcases coalesce_cases ctx kind v with ⟨init, a, hdata, hnew⟩ | ⟨_, hnew⟩
  · have hold : a.natAbs ≤ (IrOp.mk kind a).cost := by
      rcases hk with rfl | rfl <;> exact Nat.le_max_right _ _
    have hpos := (IrOp.mk kind a).cost_pos
    have hop := IrOp.cost_le kind (i64 (a + v))
    have habs := natAbs_i64_le (a + v)
    rw [hnew, hdata, cost_append, cost_append, cost_cons, cost_cons, cost_nil]
    omega
  · rw [hnew]
    exact pushOp_cost ctx kind hv

theorem parseSwitch_cost {c : Byte} {count advance : ℕ} (hcount : 1 ≤ count)
    (h : parseSwitch ctx c count = some (ctx', advance)) :
    cost ctx'.data ≤ cost ctx.data + advance := by
  rcases parseSwitch_cases h with ⟨kind, _, rfl, rfl⟩ | ⟨kind, v, hk, hv, rfl, rfl⟩ | ⟨rfl, rfl⟩ |
    ⟨addr, prev, _, rfl, rfl⟩ | ⟨rfl, rfl⟩
  · exact pushOp_cost ctx kind (v := (advance : ℤ)) (by omega)
  · have habs : v.natAbs = advance := by omega
    have hpay := coalesce_cost ctx hk (v := v) (by omega)
    rwa [habs] at hpay
  · rw [openLoop, cost_append, cost_cons, cost_nil]
    exact Nat.le_refl _
  · have hset : cost (ctx.data.set addr ⟨.loopStart, (ctx.data.length : ℤ) - addr⟩) ≤ cost ctx.data :=
      cost_set_le rfl ctx.data addr
    simp only [closeLoop, cost_append, cost_cons, cost_nil]
    have hend : (IrOp.mk .loopEnd (-((ctx.data.length : ℤ) - addr))).cost = 1 := rfl
    omega
  · exact Nat.le_add_right _ _

/-- What the parser appends is paid for by the characters that it consumes. -/
theorem parseLoop_cost (ctx : IrCtx) (src : List Byte) :
    cost (parseLoop ctx 0 src).ctx.data ≤ cost ctx.data + src.length := by
  induction ctx, src using parseLoop_induct with
  | hnil ctx => exact Nat.le_refl _
  | hturn ctx c src ctx' advance hsw ih =>
    have hpay := parseSwitch_cost (countChar_pos c src c) hsw
    obtain ⟨hpos, hrun⟩ := parseSwitch_advance hsw
    have hlen := congrArg List.length hrun
    rw [List.length_append, List.length_replicate] at hlen
    rw [parseLoop_cons hsw]
    omega
  | hfail ctx c src hsw =>
    rw [parseLoop_unmatched hsw]
    exact Nat.le_add_right _ _

end

/-! ## Reading one byte at a time -/

/-- Every `READ` stands for one character. -/
def ReadsOnce (ops : List IrOp) : Prop := ∀ op ∈ ops, op.kind = .read → op.arg ≤ 1

/-- Two adjacent commas. -/
def doubleRead : List Byte := [ascii ',', ascii ',']

theorem countChar_le_one {c : Byte} {src : List Byte} (h : ¬ [c, c] <:+: c :: src) :
    countChar (c :: src) c ≤ 1 := by
  rw [countChar]
  cases src with
  | nil => exact Nat.le_refl 1
  | cons d src =>
    have hd : d ≠ c := by
      rintro rfl
      exact h ⟨[], src, rfl⟩
    rw [List.takeWhile_cons_of_neg (by simpa using hd)]
    exact Nat.le_refl 1

theorem ReadsOnce.push {ops : List IrOp} {op : IrOp} (H : ReadsOnce ops)
    (hop : op.kind = .read → op.arg ≤ 1) : ReadsOnce (ops ++ [op]) := by
  intro op' hmem hkind
  rcases List.mem_append.mp hmem with hmem | hmem
  · exact H op' hmem hkind
  · cases List.mem_singleton.mp hmem
    exact hop hkind

section
variable {ctx ctx' : IrCtx}

theorem ReadsOnce.coalesce (H : ReadsOnce ctx.data) {mk : ℤ → Prim} {kind : IrOpKind}
    (hk : Coalesces mk kind) (v : ℤ) : ReadsOnce (coalesce ctx kind v).data := by
  have hread : kind ≠ .read := by cases hk <;> decide
  rcases coalesce_cases ctx kind v with ⟨init, a, hdata, hnew⟩ | ⟨_, hnew⟩
  · rw [hnew]
    refine ReadsOnce.push (fun op hop => H op ?_) fun hkind => (hread hkind).elim
    rw [hdata]
    exact List.mem_append_left _ hop
  · rw [hnew]
    exact H.push fun hkind => (hread hkind).elim

theorem ReadsOnce.closeLoop (H : ReadsOnce ctx.data) (addr : ℕ) (prev : List ℕ) :
    ReadsOnce (closeLoop ctx addr prev).data := by
  refine ReadsOnce.push (fun op hop hkind => ?_) fun hkind => by cases hkind
  rcases List.mem_or_eq_of_mem_set hop with hop | rfl
  · exact H op hop hkind
  · cases hkind

theorem parseSwitch_readsOnce {c : Byte} {src : List Byte} {advance : ℕ} (H : ReadsOnce ctx.data)
    (hsrc : ¬ doubleRead <:+: c :: src)
    (h : parseSwitch ctx c (countChar (c :: src) c) = some (ctx', advance)) :
    ReadsOnce ctx'.data := by
  by_cases ho : c = ascii '['
  · subst ho
    rw [parseSwitch_open] at h
    cases h
    exact H.push fun hkind => by cases hkind
  by_cases hc : c = ascii ']'
  · subst hc
    rw [parseSwitch_close] at h
    split at h
    · cases h
      exact H.closeLoop _ _
    · cases h
  rcases parseSwitch_run ho hc ctx (countChar (c :: src) c) with ⟨kind, j, hrun, hj, hsw⟩ |
    ⟨mk, kind, v, hmk, _, hsw⟩ | ⟨_, hsw⟩
  · rw [hsw] at h
    cases h
    refine H.push fun hkind => ?_
    have hread : j.op.kind = .read := by rw [hj]; exact hkind
    rcases runOp_cases hrun with ⟨rfl, _⟩ | ⟨_, rfl⟩ | ⟨_, rfl⟩ | ⟨_, rfl⟩ | ⟨_, rfl⟩ | ⟨_, rfl⟩
    · have hone := countChar_le_one hsrc
      have harg : i64 (countChar (ascii ',' :: src) (ascii ',')) =
          countChar (ascii ',' :: src) (ascii ',') := i64_of_range (by omega) (by omega)
      simp only [harg]
      omega
    all_goals cases hread
  · rw [hsw] at h
    cases h
    exact H.coalesce hmk v
  · rw [hsw] at h
    cases h
    exact H

theorem parseLoop_readsOnce (ctx : IrCtx) (src : List Byte) (H : ReadsOnce ctx.data)
    (hsrc : ¬ doubleRead <:+: src) : ReadsOnce (parseLoop ctx 0 src).ctx.data := by
  induction ctx, src using parseLoop_induct with
  | hnil ctx => exact H
  | hturn ctx c src ctx' advance hsw ih =>
    rw [parseLoop_cons hsw]
    refine ih (parseSwitch_readsOnce H hsrc hsw) fun hrest => hsrc (hrest.trans ?_)
    exact ((List.drop_suffix _ _).trans (List.suffix_cons _ _)).isInfix
  | hfail ctx c src hsw =>
    rw [parseLoop_unmatched hsw]
    exact H

end
end Bfcomp
