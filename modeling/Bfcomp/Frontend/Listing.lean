import Bfcomp.Frontend.Brackets
import Mathlib.Data.List.Sort

/-! # An IR printed op by op (`ir_ctx_dump_ir`)

Every op is a line with its index. Nothing is lost in the print: the lines tell the ops, and the ops
tell which loops are open. -/

namespace Bfcomp
set_option autoImplicit false

/-- The body of the `vec_for` at `i`. -/
def dumpLine (i : ℕ) (op : IrOp) : String := "[" ++ toString i ++ "] " ++ irFmtOp op ++ "\n"

/-- The `vec_for` from `i` on; an empty vector prints nothing. -/
def dumpLines : ℕ → List IrOp → String
  | _, [] => ""
  | i, op :: ops => dumpLine i op ++ dumpLines (i + 1) ops

def irCtxDumpIr (ctx : IrCtx) : String := dumpLines 0 ctx.data

/-! ## Separators -/

section
variable {α : Type} {a : α} {x x' z z' : List α}

/-- The last separator of a list. -/
theorem cut_at_last (hz : a ∉ z) (hz' : a ∉ z') (h : x ++ a :: z = x' ++ a :: z') :
    x = x' ∧ z = z' := by
  rcases List.append_eq_append_iff.mp h with ⟨m, rfl, hm⟩ | ⟨m, rfl, hm⟩
  · cases m with
    | nil => exact ⟨(List.append_nil x).symm, List.tail_eq_of_cons_eq hm⟩
    | cons b m =>
      refine absurd ?_ hz
      rw [List.tail_eq_of_cons_eq hm]
      exact List.mem_append_right m List.mem_cons_self
  · cases m with
    | nil => exact ⟨List.append_nil x', (List.tail_eq_of_cons_eq hm).symm⟩
    | cons b m =>
      refine absurd ?_ hz'
      rw [List.tail_eq_of_cons_eq hm]
      exact List.mem_append_right m List.mem_cons_self

/-- The first separator of a list. -/
theorem cut_at_first (hx : a ∉ x) (hx' : a ∉ x') (h : x ++ a :: z = x' ++ a :: z') :
    x = x' ∧ z = z' := by
  have hrev : z.reverse ++ a :: x.reverse = z'.reverse ++ a :: x'.reverse := by
    have := congrArg List.reverse h
    simpa only [List.reverse_append, List.reverse_cons, List.append_assoc, List.singleton_append]
      using this
  obtain ⟨hz, hx⟩ := cut_at_last (by rwa [List.mem_reverse]) (by rwa [List.mem_reverse]) hrev
  exact ⟨List.reverse_inj.mp hx, List.reverse_inj.mp hz⟩

end

/-! ## Numbers -/

theorem toString_toList (n : ℤ) : (toString n).toList =
    if 0 ≤ n then Nat.toDigits 10 n.toNat else '-' :: Nat.toDigits 10 (-n).toNat := by
  rw [Int.toString_eq_repr, Int.repr_eq_if]
  split
  · exact Nat.toList_repr
  · rw [String.toList_append, Nat.toList_repr]
    rfl

theorem notMem_toDigits {a : Char} (ha : a.isDigit = false) (n : ℕ) : a ∉ Nat.toDigits 10 n := by
  intro h
  rw [Nat.isDigit_of_mem_toDigits (by decide) (by decide) h] at ha
  cases ha

theorem toDigits_injective {m n : ℕ} (h : Nat.toDigits 10 m = Nat.toDigits 10 n) : m = n := by
  have hvalue := congrArg (Nat.ofDigitChars 10 · 0) h
  simpa only [Nat.ofDigitChars_toDigits (b := 10) (by decide) (by decide)] using hvalue

theorem notMem_toString {a : Char} (ha : a.isDigit = false) (hsign : a ≠ '-') (n : ℤ) :
    a ∉ (toString n).toList := by
  rw [toString_toList]
  split
  · exact notMem_toDigits ha _
  · rw [List.mem_cons, not_or]
    exact ⟨hsign, notMem_toDigits ha _⟩

theorem toString_injective {m n : ℤ} (h : (toString m).toList = (toString n).toList) : m = n := by
  have hminus : ∀ k : ℕ, '-' ∉ Nat.toDigits 10 k := notMem_toDigits rfl
  rw [toString_toList, toString_toList] at h
  split at h <;> split at h
  · have := toDigits_injective h
    omega
  · exact absurd (h ▸ List.mem_cons_self) (hminus m.toNat)
  · exact absurd (h ▸ List.mem_cons_self) (hminus n.toNat)
  · have := toDigits_injective (List.tail_eq_of_cons_eq h)
    omega

/-! ## Ops -/

/-- What `ir_fmt_op` prints of a negative op before its last space, or of one that is not. -/
def fmtWords (neg : Bool) : IrOpKind → String
  | .read => "read"
  | .write => "write"
  | .cell => (if neg then "sub" else "add") ++ " [$tape]"
  | .tape => (if neg then "sub" else "add") ++ " $tape"
  | .loopStart => "jz"
  | .loopEnd => "jnz"
  | .set => "invalid *"
  | .max => "halt"

/-- The sign is printed as a word. -/
def IrOpKind.Signed (kind : IrOpKind) : Prop := kind = .cell ∨ kind = .tape

instance (kind : IrOpKind) : Decidable kind.Signed := instDecidableOr

/-- The number that `ir_fmt_op` prints. -/
def fmtNumber (op : IrOp) : ℤ := if op.kind.Signed ∧ op.arg < 0 then i64 (-op.arg) else op.arg

/-- An op as the parser makes them: its argument is an `int64_t` where its sign is printed, and it is
not the op that prints no argument. -/
structure IrOp.Printable (op : IrOp) : Prop where
  number : op.kind ≠ .max
  fits : op.kind.Signed → i64 op.arg = op.arg

theorem irFmtOp_toList {op : IrOp} (h : op.Printable) : (irFmtOp op).toList =
    (fmtWords (decide (op.arg < 0)) op.kind).toList ++ ' ' :: (toString (fmtNumber op)).toList := by
  obtain ⟨kind, arg⟩ := op
  have hnumber := h.number
  by_cases hneg : arg < 0 <;>
    cases kind <;> simp_all [irFmtOp, fmtWords, fmtNumber, IrOpKind.Signed]

theorem fmtWords_injective : ∀ kind kind' neg neg', fmtWords neg kind = fmtWords neg' kind' →
    kind = kind' ∧ (kind.Signed → neg = neg') := by
  intro kind kind' neg neg'
  cases kind <;> cases kind' <;> cases neg <;> cases neg' <;> decide

theorem fmtWords_oneLine (neg : Bool) (kind : IrOpKind) : '\n' ∉ (fmtWords neg kind).toList := by
  cases neg <;> cases kind <;> decide

theorem fmtNumber_injective {kind : IrOpKind} {arg arg' : ℤ} (hfits : kind.Signed → i64 arg = arg)
    (hfits' : kind.Signed → i64 arg' = arg') (hsign : kind.Signed → (arg < 0 ↔ arg' < 0))
    (h : fmtNumber ⟨kind, arg⟩ = fmtNumber ⟨kind, arg'⟩) : arg = arg' := by
  simp only [fmtNumber] at h
  by_cases hsigned : kind.Signed
  · have harg := hfits hsigned
    have harg' := hfits' hsigned
    have hneg := hsign hsigned
    simp only [hsigned, true_and] at h
    rw [i64_eq] at harg harg'
    by_cases hlt : arg < 0
    · rw [if_pos hlt, if_pos (hneg.mp hlt), i64_eq, i64_eq] at h
      omega
    · rwa [if_neg hlt, if_neg (mt hneg.mpr hlt)] at h
  · simp only [hsigned, false_and, if_false] at h
    exact h

theorem irFmtOp_injective {op op' : IrOp} (hop : op.Printable) (hop' : op'.Printable)
    (h : (irFmtOp op).toList = (irFmtOp op').toList) : op = op' := by
  rw [irFmtOp_toList hop, irFmtOp_toList hop'] at h
  obtain ⟨hwords, hnumber⟩ :=
    cut_at_last (notMem_toString rfl (by decide) _) (notMem_toString rfl (by decide) _) h
  obtain ⟨hkind, hsign⟩ := fmtWords_injective _ _ _ _ (String.toList_inj.mp hwords)
  obtain ⟨kind, arg⟩ := op
  obtain ⟨kind', arg'⟩ := op'
  cases hkind
  have harg : arg = arg' := fmtNumber_injective hop.fits hop'.fits
    (fun hsigned => decide_eq_decide.mp (hsign hsigned)) (toString_injective hnumber)
  rw [harg]

/-! ## Lines -/

theorem dumpLines_cons (i : ℕ) (op : IrOp) (ops : List IrOp) : (dumpLines i (op :: ops)).toList =
    ("[" ++ toString i ++ "] ").toList ++
      ((irFmtOp op).toList ++ '\n' :: (dumpLines (i + 1) ops).toList) := by
  have hnewline : "\n".toList = ['\n'] := rfl
  rw [dumpLines, dumpLine, String.toList_append, String.toList_append, String.toList_append, hnewline,
    List.append_assoc, List.append_assoc, List.singleton_append]

theorem dumpLines_cons_ne (i : ℕ) (op : IrOp) (ops : List IrOp) :
    (dumpLines i (op :: ops)).toList ≠ [] := by
  rw [dumpLines_cons]
  exact List.append_ne_nil_of_right_ne_nil _ (List.append_ne_nil_of_right_ne_nil _
    (List.cons_ne_nil _ _))

theorem IrOp.Printable.oneLine {op : IrOp} (h : op.Printable) : '\n' ∉ (irFmtOp op).toList := by
  rw [irFmtOp_toList h, List.mem_append, List.mem_cons]
  rintro (hwords | hspace | hnumber)
  · exact fmtWords_oneLine _ _ hwords
  · cases hspace
  · exact notMem_toString rfl (by decide) _ hnumber

theorem dumpLines_injective {ops ops' : List IrOp} (hops : ∀ op ∈ ops, op.Printable)
    (hops' : ∀ op ∈ ops', op.Printable) {i : ℕ}
    (h : (dumpLines i ops).toList = (dumpLines i ops').toList) : ops = ops' := by
  induction ops generalizing ops' i with
  | nil =>
    cases ops' with
    | nil => rfl
    | cons op' ops' => exact absurd h.symm (dumpLines_cons_ne i op' ops')
  | cons op ops ih =>
    cases ops' with
    | nil => exact absurd h (dumpLines_cons_ne i op ops)
    | cons op' ops' =>
      rw [List.forall_mem_cons] at hops hops'
      rw [dumpLines_cons, dumpLines_cons] at h
      obtain ⟨hop, hrest⟩ :=
        cut_at_first hops.1.oneLine hops'.1.oneLine (List.append_cancel_left h)
      rw [irFmtOp_injective hops.1 hops'.1 hop, ih hops.2 hops'.2 hrest]

/-! ## Contexts -/

theorem Printable.parseSwitch {ctx ctx' : IrCtx} {c : Byte} {count advance : ℕ}
    (H : ∀ op ∈ ctx.data, op.Printable) (h : parseSwitch ctx c count = some (ctx', advance)) :
    ∀ op ∈ ctx'.data, op.Printable := by
  refine parseSwitch_forall (fun kind v hk => ⟨?_, fun _ => i64_idem v⟩)
    (fun _ => ⟨nofun, nofun⟩) (fun _ => ⟨nofun, nofun⟩) H h
  rcases hk with rfl | rfl | rfl | rfl <;> exact nofun

/-- The open loops are the ops that jump nowhere. -/
theorem BracketInv.mem_patch {ctx : IrCtx} (H : BracketInv ctx) {a : ℕ} :
    a ∈ ctx.patch ↔ ctx.data[a]? = some ⟨.loopStart, 0⟩ := by
  constructor
  · exact H.pending a
  · intro h
    by_contra hclosed
    obtain ⟨_, hpos, _⟩ := H.start_matched a 0 h hclosed
    omega

theorem BracketInv.eq_of_data {ctx ctx' : IrCtx} (H : BracketInv ctx) (H' : BracketInv ctx')
    (h : ctx.data = ctx'.data) : ctx = ctx' := by
  have hpatch : ctx.patch = ctx'.patch :=
    H.decreasing.eq_of_mem_iff H'.decreasing fun a => by rw [H.mem_patch, H'.mem_patch, h]
  cases ctx
  cases ctx'
  cases h
  cases hpatch
  rfl

/-- Two contexts that the parser makes are printed alike only if they are the same, open loops
included: what `-d` prints of a source determines the program that is run or compiled. -/
theorem irCtxDumpIr_parseCalls (calls calls' : List CString) :
    irCtxDumpIr (parseCalls calls) = irCtxDumpIr (parseCalls calls') ↔
      parseCalls calls = parseCalls calls' := by
  have hbrackets : ∀ calls, BracketInv (parseCalls calls) :=
    parseCalls_invariant bracketInv_init fun _ _ _ _ _ H _ _ h => H.parseSwitch h
  have hops : ∀ calls, ∀ op ∈ (parseCalls calls).data, op.Printable :=
    parseCalls_invariant (P := fun ctx => ∀ op ∈ ctx.data, op.Printable) nofun
      fun _ _ _ _ _ H _ _ h => Printable.parseSwitch H h
  constructor
  · intro h
    exact (hbrackets calls).eq_of_data (hbrackets calls')
      (dumpLines_injective (hops calls) (hops calls') (congrArg String.toList h))
  · exact congrArg irCtxDumpIr

end Bfcomp
