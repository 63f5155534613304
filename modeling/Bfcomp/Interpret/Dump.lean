import Bfcomp.Frontend.Dump
import Bfcomp.Interpret.Meaning

/-! # The printed IR, interpreted

Ops whose counts cancelled print nothing, so the IR that is read back may fuse ops that were apart.
A move of the fused op may wrap around the tape where the separate moves did not, or the other way
round; what both have in common is the meaning of the unit ops on a tape whose ends are joined. As
long as a run keeps its pointer on the tape, it is a run on that tape. -/

namespace Bfcomp
set_option autoImplicit false

/-! ## The tape with its ends joined -/

/-- The meaning of an op on a circular tape of `cap` cells. -/
def Prim.wrap (cap : ℕ) : Prim → Store → Except Unit Store
  | tape n, s => .ok { s with ptr := (s.ptr + n) % cap }
  | cell n, s => .ok (s.setCell (s.cell + BitVec.ofInt 8 n))
  | write n, s => .ok (Store.writeByte^[n.toNat] s)
  | read n, s => .ok (Store.readByte^[n.toNat] s)

theorem Prim.wrap_ok (cap : ℕ) (i : Prim) (s : Store) : ∃ t, i.wrap cap s = .ok t := by
  cases i <;> exact ⟨_, rfl⟩

section
variable {cap : ℕ}

theorem Prim.wrap_onTape (hcap : 0 < cap) (i : Prim) (s t : Store) (hs : s.OnTape cap)
    (h : i.wrap cap s = .ok t) : t.OnTape cap := by
  cases i with
  | tape n =>
    cases h
    exact ⟨Int.emod_nonneg _ (by omega), Int.emod_lt_of_pos _ (by omega)⟩
  | cell n =>
    cases h
    exact hs
  | write n =>
    cases h
    exact Store.writeByte_iterate_onTape hs _
  | read n =>
    cases h
    exact Store.readByte_iterate_onTape hs _

/-- A move that ends on the tape wraps around it once at most. -/
theorem movePtr_wrap (hcap : cap < 2^62) {sp n : ℤ} (hsp : 0 ≤ sp ∧ sp < cap)
    (hn : n.natAbs < 2^63) (h : 0 ≤ movePtr cap sp n ∧ movePtr cap sp n < cap) :
    movePtr cap sp n = (sp + n) % cap := by
  have hcases : movePtr cap sp n = sp + n ∨ movePtr cap sp n = sp + n - cap := by
    unfold movePtr at h ⊢
    simp only [u64, i64_eq] at h ⊢
    split at h
    · rename_i hge
      rw [if_pos hge]
      omega
    · rename_i hlt
      rw [if_neg hlt]
      split at h
      · rename_i hneg
        rw [if_pos hneg]
        omega
      · rename_i hpos
        rw [if_neg hpos]
        omega
  rcases hcases with he | he
  · rw [he] at h ⊢
    exact (Int.emod_eq_of_lt h.1 h.2).symm
  · rw [he] at h ⊢
    rw [← Int.sub_emod_right, Int.emod_eq_of_lt h.1 h.2]

/-! ## The interpreter on the circular tape -/

/-- The move ends on the tape. -/
def staysOn (cap : ℕ) : Prim → Store → Bool
  | .tape n, s => decide (0 ≤ movePtr cap s.ptr n ∧ movePtr cap s.ptr n < cap)
  | _, _ => true

/-- The next step takes the pointer off the tape. -/
def StepsOff (code : List IrOp) (cap : ℕ) (c : Config) : Prop :=
  ∃ c', interpretStep code cap c = some c' ∧ ¬ c'.store.OnTape cap

/-- As long as its pointer stays on the tape, the interpreter realises the circular tape. -/
theorem interpret_realises_wrap {code : List IrOp} (hcap : cap < 2^62)
    (hargs : ∀ n, ⟨.tape, n⟩ ∈ code → n.natAbs < 2^63) :
    Realises (interpretStep code cap) (Prog.restrict (staysOn cap) () (Prim.wrap cap)) cellTest
      (OpAt code) (LoopOpsAt code) (PendingAt code) (AtOp cap) (StepsOff code cap) :=
  { @interpret_realises code cap (by omega) with
    prim_ok := by
      rintro i a b s t m ⟨hop, rfl⟩ ⟨rfl, hs⟩ hact
      unfold Prog.restrict at hact
      split at hact
      · cases i with
        | tape n =>
          have hstay : 0 ≤ movePtr cap s.ptr n ∧ movePtr cap s.ptr n < cap :=
            of_decide_eq_true ‹_›
          have hmove := movePtr_wrap hcap hs (hargs n (List.mem_of_getElem? hop)) hstay
          cases hact
          rw [← hmove]
          refine ⟨1, _, .single ?_, rfl, hstay⟩
          simp only [interpretStep, hop, Prim.op, next]
        | cell n =>
          exact ⟨1, _, .single (interpretStep_prim (by omega) hop hs hact), rfl,
            Prim.act_onTape (i := .cell n) hact hs⟩
        | write n =>
          exact ⟨1, _, .single (interpretStep_prim (by omega) hop hs hact), rfl,
            Prim.act_onTape (i := .write n) hact hs⟩
        | read n =>
          exact ⟨1, _, .single (interpretStep_prim (by omega) hop hs hact), rfl,
            Prim.act_onTape (i := .read n) hact hs⟩
      · cases hact
    prim_error := by
      rintro i a b s e m ⟨hop, rfl⟩ ⟨rfl, hs⟩ hact
      unfold Prog.restrict at hact
      split at hact
      · obtain ⟨t, ht⟩ := i.wrap_ok cap s
        rw [ht] at hact
        cases hact
      · cases i with
        | tape n =>
          refine ⟨⟨a + 1, { s with ptr := movePtr cap s.ptr n }⟩, ?_, fun hon => ‹¬ _› ?_⟩
          · simp only [interpretStep, hop, Prim.op, next]
          · exact decide_eq_true hon
        | cell n => exact (‹¬ _› rfl).elim
        | write n => exact (‹¬ _› rfl).elim
        | read n => exact (‹¬ _› rfl).elim
    open_error := fun _ _ h => by cases h
    close_error := fun _ _ h => by cases h }

theorem mem_flat_tape {p : Prog Prim} {n : ℤ} (h : ⟨.tape, n⟩ ∈ flat p) : n.natAbs ≤ weight p := by
  induction p with
  | nil => cases h
  | prim i k ih =>
    rw [flat, List.mem_cons] at h
    rw [weight]
    rcases h with h | h
    · cases i with
      | tape m =>
        cases h
        exact Nat.le_add_right _ _
      | cell m => cases h
      | write m => cases h
      | read m => cases h
    · exact (ih h).trans (Nat.le_add_left _ _)
  | loop b k ihb ihk =>
    simp only [flat, List.cons_append, List.mem_cons, List.mem_append, IrOp.mk.injEq, reduceCtorEq,
      false_and, false_or] at h
    rw [weight]
    rcases h with h | h
    · have hle := ihb h
      omega
    · have hle := ihk h
      omega

/-- A run that keeps its pointer on the tape is a run of the program on the circular tape. -/
theorem interpret_mirrors_wrap {ctx : IrCtx} {cur : Prog Prim} (H : Represents ctx cur [])
    (hweight : weight cur < 2^63) {input : List Byte}
    (hrun : ∀ k c, Runs (interpretStep (patchHalt ctx) 30000) k ⟨0, .start input⟩ c →
      c.store.OnTape 30000) :
    Mirrors (interpretStep (patchHalt ctx) 30000) ⟨0, .start input⟩
      (fun s c => c.store = s ∧ Halted (patchHalt ctx) c) (fun s c => c.store = s)
      (fun n => cur.exec (Prim.wrap 30000) cellTest n (.start input)) := by
  have hargs : ∀ n, ⟨.tape, n⟩ ∈ patchHalt ctx → n.natAbs < 2^63 := by
    intro n hn
    rw [patchHalt, H.data, opened, List.nil_append, List.mem_append] at hn
    rcases hn with hn | hn
    · exact Nat.lt_of_le_of_lt (mem_flat_tape hn) hweight
    · cases List.mem_singleton.mp hn
  have hstart : (Store.start input).OnTape 30000 := Store.start_onTape (by decide) input
  have R := @interpret_realises_wrap 30000 _ (by decide) hargs
  have hsafe := not_raised_of_tracks (fun n => interpret_tracks H R n hstart) (by
    rintro k c hr ⟨c', hstep, hoff⟩
    exact hoff (hrun (k + 1) c' (hr.tail hstep)))
  have hbelow : ∀ n, Below ((meaning cur []).exec (Prog.restrict (staysOn 30000) ()
      (Prim.wrap 30000)) cellTest n (.start input))
      (cur.exec (Prim.wrap 30000) cellTest n (.start input)) := by
    intro n
    refine Prog.Refines.of_act (I := Store.OnTape 30000) ?_ (fun _ _ _ h => h) ?_ cur n _ hstart
    · intro i s t hs h
      unfold Prog.restrict at h
      split at h
      · exact Prim.wrap_onTape (by decide) i s t hs h
      · cases h
    · intro i s t _ h
      unfold Prog.restrict at h
      split at h
      · exact h
      · cases h
  exact interpret_mirrors_of H R hstart (fun n => (hbelow n).not_raised (hsafe n))
    fun n => (hbelow n).symm (hsafe n)

/-! ## Runs of unit ops -/

/-- On the circular tape, `q` does what `p` does. -/
abbrev SameWrapped (cap : ℕ) (p q : Prog Prim) : Prop :=
  Prog.Refines (Store.OnTape cap) (Prim.wrap cap) cellTest (Prim.wrap cap) cellTest p q

theorem SameWrapped.symm {p q : Prog Prim} (h : SameWrapped cap p q) : SameWrapped cap q p :=
  Prog.Refines.symm h fun n s _ =>
    Prog.exec_not_raised (fun i s => i.wrap_ok cap s) (fun _ => ⟨_, rfl⟩) n p s

theorem wraps_tape (hcap : 0 < cap) (d : ℤ) (m : ℕ) :
    SameWrapped cap (Prog.copies (.tape d) m) (.prim (.tape (d * m)) .nil) := by
  refine Prog.Refines.copies (fun m => Prim.tape (d * m)) (Prim.wrap_onTape hcap) ?_ ?_ m
  · intro s hs
    simp only [Prim.wrap, Int.natCast_zero, Int.mul_zero, Int.add_zero]
    rw [Int.emod_eq_of_lt hs.1 hs.2]
  · intro m s t u _ ht hu
    cases ht
    cases hu
    have hsum : s.ptr + d + d * m = s.ptr + d * (m + 1 : ℕ) := by
      rw [Int.natCast_succ, Int.mul_add, Int.mul_one]
      omega
    simp only [Prim.wrap, Int.emod_add_emod, hsum]

theorem wraps_cell (hcap : 0 < cap) (d : ℤ) (m : ℕ) :
    SameWrapped cap (Prog.copies (.cell d) m) (.prim (.cell (d * m)) .nil) := by
  refine Prog.Refines.copies (fun m => Prim.cell (d * m)) (Prim.wrap_onTape hcap) ?_ ?_ m
  · intro s _
    simp [Prim.wrap]
  · intro m s t u _ ht hu
    cases ht
    cases hu
    have hsum : d * (m + 1 : ℕ) = d + d * m := by
      rw [Int.natCast_succ, Int.mul_add, Int.mul_one, Int.add_comm]
    simp only [Prim.wrap, Store.setCell_cell, Store.setCell_setCell, hsum, BitVec.ofInt_add,
      BitVec.add_assoc]

theorem wraps_write (hcap : 0 < cap) (m : ℕ) :
    SameWrapped cap (Prog.copies (.write 1) m) (.prim (.write m) .nil) := by
  refine Prog.Refines.copies_iterate (f := Store.writeByte) (fun m => Prim.write m)
    (Prim.wrap_onTape hcap) ?_ (fun _ _ => rfl) m
  intro s t ht
  cases ht
  rfl

theorem wraps_read (hcap : 0 < cap) (m : ℕ) :
    SameWrapped cap (Prog.copies (.read 1) m) (.prim (.read m) .nil) := by
  refine Prog.Refines.copies_iterate (f := Store.readByte) (fun m => Prim.read m)
    (Prim.wrap_onTape hcap) ?_ (fun _ _ => rfl) m
  intro s t ht
  cases ht
  rfl

theorem wraps_units (hcap : 0 < cap) (i : Prim) : SameWrapped cap (.prim i .nil) i.units := by
  have hsign : ∀ n : ℤ, (if n < 0 then -1 else 1) * (n.natAbs : ℤ) = n := by
    intro n
    split <;> omega
  cases i with
  | tape n =>
    have hrun := wraps_tape hcap (if n < 0 then -1 else 1) n.natAbs
    rw [hsign] at hrun
    exact hrun.symm
  | cell n =>
    have hrun := wraps_cell hcap (if n < 0 then -1 else 1) n.natAbs
    rw [hsign] at hrun
    exact hrun.symm
  | write n =>
    have hrun : SameWrapped cap (.prim (.write n) .nil) (.prim (.write (n.toNat : ℤ)) .nil) :=
      Prog.Refines.refl _
    exact hrun.trans (wraps_write hcap n.toNat).symm
  | read n =>
    have hrun : SameWrapped cap (.prim (.read n) .nil) (.prim (.read (n.toNat : ℤ)) .nil) :=
      Prog.Refines.refl _
    exact hrun.trans (wraps_read hcap n.toNat).symm

theorem wraps_subst_units (hcap : 0 < cap) (p : Prog Prim) : SameWrapped cap p (p.subst Prim.units) :=
  Prog.Refines.subst (Prim.wrap_onTape hcap) (fun _ _ _ h => h) (Prog.all_of_forall (wraps_units hcap) p)

/-! ## The parser spells what it reads -/

/-- The ops are no heavier than what was read, and on the circular tape they do the same. -/
def Fused (cap : ℕ) (p q : Prog Prim) : Prop :=
  weight p < 2^63 → weight q ≤ weight p ∧ SameWrapped cap p q

theorem wraps_merge {mk : ℤ → Prim} {kind : IrOpKind} (h : Coalesces mk kind) (a b : ℤ) :
    SameWrapped cap (.prim (mk a) (.prim (mk b) .nil)) (.prim (mk (a + b)) .nil) := by
  refine Prog.Refines.merge fun s t u _ ht hu => ?_
  cases h with
  | cell =>
    cases ht
    cases hu
    simp only [Prim.wrap, Store.setCell_cell, Store.setCell_setCell, BitVec.ofInt_add,
      BitVec.add_assoc]
  | tape =>
    cases ht
    cases hu
    simp only [Prim.wrap, Int.emod_add_emod, Int.add_assoc]

theorem wraps_copies (hcap : 0 < cap) {mk : ℤ → Prim} {kind : IrOpKind} (h : Coalesces mk kind)
    (d : ℤ) (m : ℕ) : SameWrapped cap (Prog.copies (mk d) m) (.prim (mk (d * m)) .nil) := by
  cases h with
  | cell => exact wraps_cell hcap d m
  | tape => exact wraps_tape hcap d m

theorem Coalesces.weight {mk : ℤ → Prim} {kind : IrOpKind} (h : Coalesces mk kind) (a : ℤ) :
    (mk a).weight = a.natAbs := by
  cases h <;> rfl

theorem fused_run {m : ℕ} {i j : Prim} (hi : i.weight = 1) (hj : j.weight ≤ m)
    (hrun : SameWrapped cap (Prog.copies i m) (.prim j .nil)) :
    Fused cap (Prog.copies i m) (.prim j .nil) := by
  intro _
  rw [weight_copies, hi, Nat.mul_one, weight, weight]
  exact ⟨hj, hrun⟩

theorem fused_runOp (hcap : 0 < cap) {c : Byte} {m : ℕ} {j : Prim} (hm : m < 2^63)
    (hj : runOp c m = some j) :
    ∃ i, unitOp c = some i ∧ Fused cap (Prog.copies i m) (.prim j .nil) := by
  rcases runOp_unit hm hj with ⟨hc, rfl⟩ | ⟨hc, rfl⟩ | ⟨mk, kind, d, hmk, hd, hc, rfl⟩
  · exact ⟨_, hc, fused_run rfl (Nat.le_refl m) (wraps_read hcap m)⟩
  · exact ⟨_, hc, fused_run rfl (Nat.le_refl m) (wraps_write hcap m)⟩
  · have hd' : d.natAbs = 1 := by
      rcases hd with rfl | rfl <;> rfl
    have hrange : i64 (d * m) = d * m := by
      rcases hd with rfl | rfl <;> exact i64_of_range (by omega) (by omega)
    have hle : (d * m).natAbs ≤ m := by rw [Int.natAbs_mul, hd', Nat.one_mul, Int.natAbs_natCast]
    rw [hrange]
    rw [← hmk.weight] at hd' hle
    exact ⟨_, hc, fused_run hd' hle (wraps_copies hcap hmk d m)⟩

theorem unitOp_of_runOp {c : Byte} {m : ℕ} (h : runOp c m = none) : unitOp c = none := by
  unfold runOp at h
  unfold unitOp
  repeat'
    split at h
    · cases h
    rw [if_neg ‹_›]

theorem spells_wrap (hcap : 0 < cap) : Spells (Fused cap) unitOp where
  nil := fun _ => ⟨Nat.le_refl 0, Prog.Refines.nil⟩
  append := by
    intro p r q t h h' hlt
    rw [weight_append] at hlt
    obtain ⟨hw, hpq⟩ := h (by omega)
    obtain ⟨hw', hrt⟩ := h' (by omega)
    rw [weight_append, weight_append]
    exact ⟨Nat.add_le_add hw hw', Prog.Refines.append (Prim.wrap_onTape hcap) hpq hrt⟩
  loop := by
    intro b c h hlt
    rw [weight] at hlt
    obtain ⟨hw, hbc⟩ := h (by omega)
    refine ⟨?_, Prog.Refines.loop (Prim.wrap_onTape hcap) (fun _ _ _ h => h) hbc⟩
    rw [weight, weight]
    exact Nat.add_le_add_right (Nat.add_le_add_right hw 2) _
  merge := by
    intro p q mk kind a b hmk h hlt
    obtain ⟨hw, hpq⟩ := h hlt
    simp only [weight_append, weight, hmk.weight] at hw ⊢
    have hsum : i64 (a + b) = a + b := i64_of_range (by omega) (by omega)
    rw [hsum]
    refine ⟨by omega, hpq.trans ?_⟩
    exact Prog.Refines.append (Prim.wrap_onTape hcap) (.refl q) (wraps_merge hmk a b)
  run := fused_runOp hcap
  skip := unitOp_of_runOp

end

/-! ## The text parsed again -/

/-- The interpreter halts on both op vectors or on neither, with the same store, and what it has
written on one it comes to write on the other. -/
structure InterpretsAs (code code' : List IrOp) (cap : ℕ) (input : List Byte) : Prop where
  halts : (∃ k c, Runs (interpretStep code cap) k ⟨0, .start input⟩ c ∧ Halted code c) ↔
    ∃ k c, Runs (interpretStep code' cap) k ⟨0, .start input⟩ c ∧ Halted code' c
  store : ∀ k c k' c', Runs (interpretStep code cap) k ⟨0, .start input⟩ c → Halted code c →
    Runs (interpretStep code' cap) k' ⟨0, .start input⟩ c' → Halted code' c' → c.store = c'.store
  written : ∀ k c, Runs (interpretStep code cap) k ⟨0, .start input⟩ c →
    ∃ k' c', Runs (interpretStep code' cap) k' ⟨0, .start input⟩ c' ∧
      c.store.output <+: c'.store.output
  written' : ∀ k c, Runs (interpretStep code' cap) k ⟨0, .start input⟩ c →
    ∃ k' c', Runs (interpretStep code cap) k' ⟨0, .start input⟩ c' ∧
      c.store.output <+: c'.store.output

section
variable {code code' : List IrOp} {cap : ℕ} {input : List Byte} {ε : Type}
  {run : ℕ → Outcome ε Store}

/-- The interpreter on an op vector mirrors the executions. -/
abbrev Shows (code : List IrOp) (cap : ℕ) (input : List Byte) (run : ℕ → Outcome ε Store) : Prop :=
  Mirrors (interpretStep code cap) ⟨0, .start input⟩ (fun s c => c.store = s ∧ Halted code c)
    (fun s c => c.store = s) run

theorem Shows.halts (H : Shows code cap input run) (H' : Shows code' cap input run)
    (h : ∃ k c, Runs (interpretStep code cap) k ⟨0, .start input⟩ c ∧ Halted code c) :
    ∃ k c, Runs (interpretStep code' cap) k ⟨0, .start input⟩ c ∧ Halted code' c := by
  obtain ⟨k, c, hr, hhalt⟩ := h
  obtain ⟨s, hs, _⟩ := Mirrors.done_of_stops H hr hhalt.step_none (Nat.lt_succ_self k)
  obtain ⟨k', c', hr', _, hf⟩ := Mirrors.done H' _ s hs
  exact ⟨k', c', hr', hf.2⟩

theorem Shows.written (H : Shows code cap input run) (H' : Shows code' cap input run) {k : ℕ}
    {c : Config} (hr : Runs (interpretStep code cap) k ⟨0, .start input⟩ c) :
    ∃ k' c', Runs (interpretStep code' cap) k' ⟨0, .start input⟩ c' ∧
      c.store.output <+: c'.store.output :=
  Mirrors.puts_out (fun c : Config => c.store.output) (fun c : Config => c.store.output)
    Store.output H H' (fun _ _ _ h => interpret_output_mono h) (fun s c h => by rw [h.1])
    (fun s c h => by rw [h]) (fun s c h => by rw [h.1]) (fun s c h => by rw [h]) hr

theorem Shows.interpretsAs (H : Shows code cap input run) (H' : Shows code' cap input run) :
    InterpretsAs code code' cap input where
  halts := ⟨H.halts H', H'.halts H⟩
  store := by
    intro k c k' c' hr hhalt hr' hhalt'
    obtain ⟨s, ⟨hc, _⟩, hc', _⟩ := Mirrors.agree H H' hr hhalt.step_none hr' hhalt'.step_none
    rw [hc, hc']
  written := fun _ _ hr => H.written H' hr
  written' := fun _ _ hr => H'.written H hr

end

/-- The IR of a balanced source, if its counts can be counted in an `int`, is printed as a balanced
text that is no longer than the source and a newline. The IR of that text runs as the first one does
on every input on which both keep the pointer on the tape. -/
theorem dumpBf_interprets (src : CString) (hbal : Balanced src.bytes)
    (hargs : ∀ op ∈ (irCtxParse {} src).ctx.data, op.kind ≠ .loopStart → op.kind ≠ .loopEnd →
      op.arg.natAbs < 2^31) :
    ∃ w, irCtxDumpBf (irCtxParse {} src).ctx = some w ∧ w.length ≤ src.bytes.length + 1 ∧
      (0 : Byte) ∉ w ∧ Balanced w ∧
      ∀ text : CString, text.bytes = w →
        ∃ ctx, irCtxParse {} text = ⟨0, ctx, []⟩ ∧ ∀ input,
          (∀ k c, Runs (interpretStep (patchHalt (irCtxParse {} src).ctx) 30000) k
            ⟨0, .start input⟩ c → c.store.OnTape 30000) →
          (∀ k c, Runs (interpretStep (patchHalt ctx) 30000) k ⟨0, .start input⟩ c →
            c.store.OnTape 30000) →
          InterpretsAs (patchHalt (irCtxParse {} src).ctx) (patchHalt ctx) 30000 input := by
  obtain ⟨ctx, cur, hparse, hrep, _, hfused⟩ :=
    irCtxParse_readAs (@spells_wrap 30000 (by decide)) src hbal
  rw [hparse] at hargs ⊢
  have hread := Reading.weight_text ⟨.nil, []⟩ src.bytes
  have hsrc : weight (Reading.text unitOp ⟨.nil, []⟩ src.bytes).cur ≤ src.bytes.length := by
    have hzero : Reading.weight ⟨.nil, []⟩ = 0 := rfl
    rw [hzero, Reading.weight] at hread
    omega
  have hfits := src.fits
  obtain ⟨hweight, _⟩ := hfused (by omega)
  have hdata : ctx.data = flat cur := by rw [hrep.data, opened, List.nil_append]
  have hcount : cur.All Prim.Countable := all_flat.mp fun op hop => hargs op (hdata ▸ hop)
  have hnul : (0 : Byte) ∉ chars cur ++ [ascii '\n'] := by
    rw [List.mem_append, List.mem_singleton]
    rintro (h | h)
    · exact chars_nulFree cur h
    · exact absurd h (by decide)
  have hbal' : Balanced (chars cur ++ [ascii '\n']) := by
    rw [Balanced, openAfter_chars]
    rfl
  refine ⟨chars cur ++ [ascii '\n'], ?_, ?_, hnul, hbal', ?_⟩
  · rw [irCtxDumpBf, hdata, dumpOps_flat hcount]
    rfl
  · rw [List.length_append, chars_length, List.length_singleton]
    omega
  intro text htext
  obtain ⟨ctx', cur', hparse', hrep', _, hfused'⟩ :=
    irCtxParse_readAs (@spells_wrap 30000 (by decide)) text (htext ▸ hbal')
  refine ⟨ctx', hparse', fun input hrun hrun' => ?_⟩
  -- what is read of the text is the unit ops of the first program; the newline is skipped
  have hunits : (Reading.text unitOp ⟨.nil, []⟩ text.bytes).cur = cur.subst Prim.units := by
    rw [htext, Reading.text_append, Reading.text_chars]
    rfl
  rw [hunits] at hfused'
  obtain ⟨hweight', hwraps'⟩ := hfused' (by rw [weight_subst_units]; omega)
  rw [weight_subst_units] at hweight'
  have hwraps : SameWrapped 30000 cur cur' := (wraps_subst_units (by decide) cur).trans hwraps'
  have H := interpret_mirrors_wrap hrep (by omega) hrun
  have H' := interpret_mirrors_wrap hrep' (by omega) hrun'
  have hsame : (fun n => cur'.exec (Prim.wrap 30000) cellTest n (.start input)) =
      fun n => cur.exec (Prim.wrap 30000) cellTest n (.start input) := by
    funext n
    exact (hwraps n _ (Store.start_onTape (by decide) input)).eq (H.safe n)
  rw [hsame] at H'
  exact Shows.interpretsAs H H'

def movedText : CString := ⟨[ascii '+', ascii '>', ascii '<', ascii '+'], by decide, by decide⟩

def fusedText : CString := ⟨[ascii '+', ascii '+', ascii '\n'], by decide, by decide⟩

theorem stays_of_still {code : List IrOp} (h : ∀ op ∈ code, op.kind = .tape → op.arg = 0)
    {input : List Byte} {k : ℕ} {c : Config}
    (hr : Runs (interpretStep code 30000) k ⟨0, .start input⟩ c) : c.store.OnTape 30000 := by
  have hptr : c.store.ptr = 0 := by
    refine hr.invariant (P := fun c => c.store.ptr = 0) ?_ rfl
    intro c c' hc hstep
    cases hop : code[c.ip]? with
    | none => simp [interpretStep, hop] at hstep
    | some op =>
      rw [interpretStep_ptr hop hstep]
      split
      · rw [h op (List.mem_of_getElem? hop) ‹_›, hc]
        decide
      · exact hc
  unfold Store.OnTape
  omega

/-- `+><+` is printed as `++`: three ops become one. -/
theorem dumpBf_interprets_moved : irCtxDumpBf (irCtxParse {} movedText).ctx = some fusedText.bytes ∧
    patchHalt (irCtxParse {} movedText).ctx = [⟨.cell, 1⟩, ⟨.tape, 0⟩, ⟨.cell, 1⟩, ⟨.max, 0⟩] ∧
    patchHalt (irCtxParse {} fusedText).ctx = [⟨.cell, 2⟩, ⟨.max, 0⟩] ∧
    InterpretsAs (patchHalt (irCtxParse {} movedText).ctx) (patchHalt (irCtxParse {} fusedText).ctx)
      30000 [] := by
  have hdump : irCtxDumpBf (irCtxParse {} movedText).ctx = some fusedText.bytes := by decide
  refine ⟨hdump, by decide, by decide, ?_⟩
  obtain ⟨w, hw, _, _, _, h⟩ := dumpBf_interprets movedText (by decide) (by decide)
  rw [hdump] at hw
  cases hw
  obtain ⟨ctx, hctx, hrun⟩ := h fusedText rfl
  rw [hctx]
  rw [show ctx = (irCtxParse {} fusedText).ctx by rw [hctx]] at hrun ⊢
  exact hrun [] (fun k c => stays_of_still (by decide)) (fun k c => stays_of_still (by decide))

end Bfcomp
