import Bfcomp.Compile.Execute

/-! # The size of the code, read off the ops

One scan over the ops with a stack of the sizes before the loops still open. The jump back over a
loop body is emitted from an offset truncated to 32 bits, so it goes wrong for a body of more than
`2^31 - 5` bytes; `LoopsFit` says that no closed loop has one. -/

namespace Bfcomp
set_option autoImplicit false

open Ia32 (assemble)

def addSize (byteForm longForm : ℕ) (n : ℤ) : ℕ :=
  if n = 0 then 0
  else if n = 1 ∨ n = -1 then byteForm
  else if -127 ≤ n ∧ n ≤ 127 then 3
  else longForm

/-- The size of the code of an op that is no bracket. -/
def opSize (op : IrOp) : ℕ :=
  match op.kind with
  | .tape => addSize 1 6 op.arg
  | .cell => addSize 2 8 op.arg
  | .write => 19 * op.arg.toNat
  | .read => 19
  | _ => 0

def startSize (size : ℕ) : ℕ := if size + 2 ≤ 127 then 5 else 9

def endSize (len : ℕ) : ℕ := if len + 5 ≤ 128 then 5 else 9

/-- The sizes before the open loops, innermost first, and whether every closed loop's jump back can
cross its body. -/
structure SizeScan where
  cur : ℕ
  outer : List ℕ
  fit : Bool
  deriving DecidableEq

def SizeScan.op (st : SizeScan) (op : IrOp) : SizeScan :=
  match op.kind with
  | .loopStart => ⟨0, st.cur :: st.outer, st.fit⟩
  | .loopEnd =>
    match st.outer with
    | [] => st
    | before :: outer =>
      let body := st.cur + endSize st.cur
      ⟨before + startSize body + body, outer, st.fit && decide (st.cur + 5 ≤ 2^31)⟩
  | _ => { st with cur := st.cur + opSize op }

def scanSize (ops : List IrOp) : SizeScan := ops.foldl SizeScan.op ⟨0, [], true⟩

/-- No closed loop has a body too long to jump back over. -/
def LoopsFit (ops : List IrOp) : Prop := (scanSize ops).fit = true

instance (ops : List IrOp) : Decidable (LoopsFit ops) := instDecidableEqBool _ _

/-- The same for a structured program. -/
def BodiesFit : Prog Prim → Prop
  | .nil => True
  | .prim _ k => BodiesFit k
  | .loop b k => (enc b).length + 5 ≤ 2^31 ∧ BodiesFit b ∧ BodiesFit k

/-! ## The scan computes the size of the code -/

theorem tapeInstrs_length (n : ℤ) : (assemble (tapeInstrs n)).length = addSize 1 6 n := by
  unfold tapeInstrs addSize int8Max
  split_ifs <;> first | rfl | omega

theorem cellInstrs_length (n : ℤ) : (assemble (cellInstrs n)).length = addSize 2 8 n := by
  unfold cellInstrs addSize int8Max
  split_ifs <;> first | rfl | omega

theorem writeInstrs_length (n : ℕ) :
    (assemble (List.replicate n (transferInstrs 4 1)).flatten).length = 19 * n := by
  induction n with
  | zero => rfl
  | succ n ih =>
    rw [List.replicate_succ, List.flatten_cons, Ia32.assemble_append, List.length_append, ih]
    have h : (assemble (transferInstrs 4 1)).length = 19 := rfl
    omega

theorem instrs_length (i : Prim) : (assemble i.instrs).length = opSize i.op := by
  cases i with
  | tape n => exact tapeInstrs_length n
  | cell n => exact cellInstrs_length n
  | write n => exact writeInstrs_length n.toNat
  | read n => rfl

theorem startInstrs_length (size : ℕ) :
    (assemble (startInstrs size)).length = startSize size := by
  unfold startInstrs startSize int8Max
  split_ifs <;> first | rfl | omega

theorem endInstrs_length {len : ℕ} (h : len + 5 ≤ 2^31) :
    (assemble (endInstrs len)).length = endSize len := by
  unfold endInstrs endSize int8Min
  rw [backOffset_eq len h]
  split_ifs <;> first | rfl | omega

theorem scan_prim (st : SizeScan) (i : Prim) :
    st.op i.op = { st with cur := st.cur + opSize i.op } := by
  cases i <;> rfl

theorem scan_not_fit (ops : List IrOp) (st : SizeScan) (h : st.fit = false) :
    (ops.foldl SizeScan.op st).fit = false := by
  induction ops generalizing st with
  | nil => exact h
  | cons op ops ih =>
    refine ih _ ?_
    unfold SizeScan.op
    split
    · exact h
    · split
      · exact h
      · simp [h]
    · exact h

theorem scan_fit_left {ops ops' : List IrOp} {st : SizeScan}
    (h : ((ops ++ ops').foldl SizeScan.op st).fit = true) : (ops.foldl SizeScan.op st).fit = true := by
  cases hfit : (ops.foldl SizeScan.op st).fit with
  | true => rfl
  | false =>
    rw [List.foldl_append, scan_not_fit ops' _ hfit] at h
    cases h

theorem scan_flat {p : Prog Prim} {before : ℕ} {outer : List ℕ}
    (h : ((flat p).foldl SizeScan.op ⟨before, outer, true⟩).fit = true) :
    (flat p).foldl SizeScan.op ⟨before, outer, true⟩ =
      ⟨before + (enc p).length, outer, true⟩ ∧ BodiesFit p := by
  induction p generalizing before outer with
  | nil => exact ⟨rfl, trivial⟩
  | prim i k ih =>
    rw [flat, List.foldl_cons, scan_prim] at h ⊢
    obtain ⟨hscan, hfit⟩ := ih h
    rw [hscan, enc, List.length_append, instrs_length, Nat.add_assoc]
    exact ⟨rfl, hfit⟩
  | loop b k ihb ihk =>
    rw [flat, List.cons_append, List.foldl_cons] at h ⊢
    have hstart : SizeScan.op ⟨before, outer, true⟩ ⟨.loopStart, (flat b).length + 1⟩ =
        ⟨0, before :: outer, true⟩ := rfl
    rw [hstart] at h ⊢
    obtain ⟨hb, hbfit⟩ := ihb (scan_fit_left h)
    rw [List.foldl_append, hb, List.foldl_cons, Nat.zero_add] at h ⊢
    have hlen : (enc b).length + 5 ≤ 2^31 := by
      by_contra hlong
      rw [scan_not_fit] at h
      · cases h
      · simp only [SizeScan.op, Bool.true_and]
        exact decide_eq_false hlong
    have hend : SizeScan.op ⟨(enc b).length, before :: outer, true⟩
        ⟨.loopEnd, -((flat b).length + 1 : ℤ)⟩ =
        ⟨before + startSize (bodyCode (enc b)).length + (bodyCode (enc b)).length, outer,
          true⟩ := by
      simp only [SizeScan.op, Bool.true_and, bodyCode, List.length_append, endInstrs_length hlen]
      rw [decide_eq_true hlen]
    rw [hend] at h ⊢
    obtain ⟨hk, hkfit⟩ := ihk h
    refine ⟨?_, hlen, hbfit, hkfit⟩
    rw [hk, enc, List.length_append, List.length_append, startInstrs_length]
    simp only [Nat.add_assoc]

theorem LoopsFit.segments {outer : List (Prog Prim)} {cur : Prog Prim}
    (h : LoopsFit (opened outer ++ flat cur)) : (∀ p ∈ outer, BodiesFit p) ∧ BodiesFit cur := by
  have hopened : ∀ outer : List (Prog Prim), (scanSize (opened outer)).fit = true →
      (∃ before stack, scanSize (opened outer) = ⟨before, stack, true⟩) ∧
        ∀ p ∈ outer, BodiesFit p := by
    intro outer
    induction outer with
    | nil => exact fun _ => ⟨⟨0, [], rfl⟩, by simp⟩
    | cons p ps ih =>
      intro hfit
      unfold scanSize at hfit ih ⊢
      rw [opened] at hfit ⊢
      have hp := scan_fit_left hfit
      obtain ⟨⟨before, stack, hps⟩, hall⟩ := ih (scan_fit_left hp)
      rw [List.foldl_append, hps] at hp
      obtain ⟨hscan, hbody⟩ := scan_flat hp
      refine ⟨⟨0, (before + (enc p).length) :: stack, ?_⟩, ?_⟩
      · rw [List.foldl_append, List.foldl_append, hps, hscan]
        rfl
      · intro q hq
        rcases List.mem_cons.mp hq with rfl | hq
        · exact hbody
        · exact hall q hq
  obtain ⟨⟨before, stack, hscan⟩, hall⟩ := hopened outer (scan_fit_left h)
  unfold LoopsFit scanSize at h
  unfold scanSize at hscan
  rw [List.foldl_append, hscan] at h
  exact ⟨hall, (scan_flat h).2⟩

end Bfcomp
