import Bfcomp.Frontend.Reading
import Bfcomp.Ocaml.Behaviour
import Bfcomp.Ocaml.Scan

/-! # The C interpreter and the OCaml interpreter

A balanced text is one structured program for OCaml and, up to coalescing, the same one for C. As
long as the OCaml run keeps its pointer on the tape and finds input to read, both machines follow
its execution. -/

namespace Bfcomp.Ocaml
set_option autoImplicit false

open Interpreter

/-! ## The C parser follows the scan -/

/-- The context holds, segment by segment, what the scan has read. -/
def Follows (ctx : IrCtx) (z : Scan) : Prop :=
  ∃ cur outer, Represents ctx cur outer ∧ Same z.cur cur ∧ List.Forall₂ Same z.outer outer

/-- A run of one character is, for OCaml, as many copies of an instruction that a C op stands for. -/
theorem same_runOp {c : Byte} {m : ℕ} {j : Prim} (hm : m < 2^63) (h : runOp c m = some j) :
    ∃ i, Parser.unitOf c = some i ∧ Same (Prog.copies i m) (.prim j .nil) := by
  have hcount : i64 m = m := i64_of_range (by omega) (by omega)
  have hup : ((1 : ℤ) * m) = m := Int.one_mul _
  have hdown : ((-1 : ℤ) * m) = -m := Int.neg_one_mul _
  have hcell := same_cell (.inl rfl) m
  have hcell' := same_cell (.inr rfl) m
  have htape := same_tape (.inl rfl) m
  have htape' := same_tape (.inr rfl) m
  rw [hup] at hcell htape
  rw [hdown] at hcell' htape'
  rcases runOp_cases h with ⟨rfl, rfl⟩ | ⟨rfl, rfl⟩ | ⟨rfl, rfl⟩ | ⟨rfl, rfl⟩ | ⟨rfl, rfl⟩ |
    ⟨rfl, rfl⟩
  · rw [hcount]
    exact ⟨.read, rfl, same_read m⟩
  · rw [hcount]
    exact ⟨.write, rfl, same_write m⟩
  · exact ⟨.cell 1, rfl, hcell⟩
  · exact ⟨.cell (-1), rfl, hcell'⟩
  · exact ⟨.tape 1, rfl, htape⟩
  · exact ⟨.tape (-1), rfl, htape'⟩

theorem unitOf_of_runOp {c : Byte} {m : ℕ} (h : runOp c m = none) : Parser.unitOf c = none := by
  cases hi : Parser.unitOf c with
  | none => rfl
  | some i =>
    rcases Parser.unitOf_cases hi with ⟨rfl, _⟩ | ⟨rfl, _⟩ | ⟨rfl, _⟩ | ⟨rfl, _⟩ | ⟨rfl, _⟩ |
      ⟨rfl, _⟩ <;> simp [runOp, ascii] at h

theorem spells_same : Spells Same Parser.unitOf where
  nil := Prog.Refines.nil
  append := Prog.Refines.append keptAct_onTape
  loop := Prog.Refines.loop keptAct_onTape test_cellTest
  merge := fun hmk h => h.trans (Prog.Refines.append primAct_onTape (.refl _) (merge_ops hmk _ _))
  run := same_runOp
  skip := unitOf_of_runOp

/-- What is scanned, as it is read. -/
def Scan.reading (z : Scan) : Reading Ir := ⟨z.cur, z.outer⟩

theorem Scan.reading_next (z : Scan) (c : Byte) :
    (z.next c).reading = z.reading.next Parser.unitOf c := by
  obtain ⟨cur, outer⟩ := z
  unfold Scan.next Reading.next
  split
  · rfl
  split
  · cases outer <;> rfl
  · cases Parser.unitOf c <;> rfl

theorem scan_reading (z : Scan) (s : List Byte) :
    (scan z s).reading = z.reading.text Parser.unitOf s := by
  induction s generalizing z with
  | nil => rfl
  | cons c s ih =>
    have hstep : scan z (c :: s) = scan (z.next c) s := rfl
    rw [hstep, ih, Scan.reading_next]
    rfl

/-- On a text without an unmatched `]` the C parser ends with what the scan ends with. -/
theorem parseLoop_follows (ctx : IrCtx) (src : List Byte) (hfits : src.length < 2^63)
    (hok : (parseLoop ctx 0 src).status = 0) (z : Scan) (H : Follows ctx z) :
    Follows (parseLoop ctx 0 src).ctx (scan z src) := by
  have hread := parseLoop_readAs spells_same ctx src hfits hok z.reading H
  rw [← scan_reading] at hread
  exact hread

/-- The text as a C string. -/
def MlString.toC (text : MlString) (hnul : (0 : Byte) ∉ text.bytes) : CString :=
  ⟨text.bytes, hnul, Nat.lt_of_le_of_lt text.fits (by norm_num)⟩

/-- The context of a balanced text means, op by op, the OCaml program. -/
theorem parse_same (text : MlString) (hnul : (0 : Byte) ∉ text.bytes)
    (hbal : Balanced text.bytes) :
    ∃ ctx cur, irCtxParse {} (text.toC hnul) = ⟨0, ctx, []⟩ ∧ Represents ctx cur [] ∧
      Same (toProg (Parser.parse text)) cur := by
  obtain ⟨ctx, hparse, hpatch⟩ := irCtxParse_balanced (text.toC hnul) hbal
  have hctx : (parseLoop {} 0 text.bytes).ctx = ctx := congrArg ParseResult.ctx hparse
  have hinit : Follows {} ⟨.nil, []⟩ := ReadAs.init spells_same
  have H := parseLoop_follows {} text.bytes (text.toC hnul).fits
    (congrArg ParseResult.status hparse) _ hinit
  rw [scan_parse hbal, hctx] at H
  obtain ⟨cur, outer, hrep, hcur, houter⟩ := H
  cases houter
  exact ⟨ctx, cur, hparse, hrep, hcur⟩

/-! ## The two machines -/

/-- At every step the pointer is on the tape, and there is input left where a `Read` comes next. -/
def StaysInside (program : List Ir) (input : List Byte) : Prop :=
  ∀ k c, Runs step k (initial program input) c →
    c.state.OnTape tapeLength ∧ ∀ rest, c.code = .prim .read rest → c.state.input ≠ []

/-- A `Read` comes next. -/
def readsNext : Prog Ir → Bool
  | .prim .read _ => true
  | _ => false

theorem StaysInside.of_stopsAlong {program : List Ir} {input : List Byte} {n : ℕ}
    (h : StopsAlong step (fun c => c.state.OnTape tapeLength ∧
      (readsNext c.code = true → c.state.input ≠ [])) n (initial program input)) :
    StaysInside program input := by
  intro k c hr
  obtain ⟨htape, hread⟩ := h.of_runs hr
  refine ⟨htape, fun rest hcode => hread ?_⟩
  rw [hcode]
  rfl

/-- The instruction comes from a character. -/
def IsUnit (i : Ir) : Prop := ∃ c, Parser.unitOf c = some i

theorem Tree.units {w : List Byte} {p : List Ir} (h : Tree w p) : (toProg p).All IsUnit := by
  induction h with
  | nil => trivial
  | @unit c i w p hi _ ih =>
    rcases Parser.unitOf_cases hi with ⟨_, rfl⟩ | ⟨_, rfl⟩ | ⟨_, rfl⟩ | ⟨_, rfl⟩ | ⟨_, rfl⟩ |
      ⟨_, rfl⟩ <;> exact ⟨⟨c, hi⟩, ih⟩
  | skip _ _ _ _ ih => exact ih
  | loop _ _ ihw ihv => exact ⟨ihw, ihv⟩

theorem act_unit {i : Ir} {s : Store} (hi : IsUnit i) (hs : s.OnTape tapeLength)
    (hin : i = .read → s.input ≠ []) : ∃ t, act i s = .ok t := by
  obtain ⟨c, hc⟩ := hi
  rcases Parser.unitOf_cases hc with ⟨_, rfl⟩ | ⟨_, rfl⟩ | ⟨_, rfl⟩ | ⟨_, rfl⟩ | ⟨_, rfl⟩ | ⟨_, rfl⟩
  · exact ⟨_, by rw [act_cell (by decide), if_pos hs]⟩
  · exact ⟨_, by rw [act_cell (by decide), if_pos hs]⟩
  · exact ⟨_, rfl⟩
  · exact ⟨_, rfl⟩
  · cases hinput : s.input with
    | nil => exact (hin rfl hinput).elim
    | cons b rest =>
      rw [act, hinput]
      exact ⟨_, assign_onTape (s := { s with input := rest }) hs b⟩
  · exact ⟨_, by rw [act, bounds_of_onTape hs, Except.map]⟩

/-- Where a step is an error, or takes the pointer off the tape. -/
def Leaves (c : Prog.Left Ir Store) : Prop :=
  Prog.Fails act test c ∨ ∃ i rest, c.code = .prim i rest ∧ kept i c.state = false

section
variable {program : List Ir} {input : List Byte}

theorem StaysInside.not_leaves (H : StaysInside program input)
    (hunits : (toProg program).All IsUnit) {k : ℕ} {c : Prog.Left Ir Store}
    (hr : Runs step k (initial program input) c) : ¬ Leaves c := by
  have hcode : c.code.All IsUnit :=
    hr.invariant (P := fun c => c.code.All IsUnit) (fun _ _ h hs => Prog.step_all h hs) hunits
  obtain ⟨hs, hin⟩ := H k c hr
  have hok : ∀ i rest, c.code = .prim i rest → ∃ t, act i c.state = .ok t ∧ t.OnTape tapeLength := by
    intro i rest hc
    rw [hc] at hcode
    obtain ⟨t, ht⟩ := act_unit hcode.1 hs (fun hi => hin rest (by rw [hc, hi]))
    have hstep : step c = some ⟨rest, t⟩ := by
      rw [step, Prog.step, hc]
      simp only [ht]
    exact ⟨t, ht, (H (k + 1) _ (hr.tail hstep)).1⟩
  rintro (hfail | ⟨i, rest, hc, hkept⟩)
  · obtain ⟨code, s⟩ := c
    cases code with
    | nil => exact hfail
    | prim i rest =>
      obtain ⟨e, he⟩ := hfail
      obtain ⟨t, ht, _⟩ := hok i rest rfl
      rw [show act i s = _ from ht] at he
      cases he
    | loop b rest =>
      obtain ⟨e, he⟩ := hfail
      rw [test_of_onTape hs] at he
      cases he
  · obtain ⟨t, ht, hton⟩ := hok i rest hc
    rw [kept, ht] at hkept
    exact (of_decide_eq_false hkept) hton

/-- The executions that both machines follow. -/
def keptRun (program : List Ir) (input : List Byte) (n : ℕ) : Outcome Exn Store :=
  (toProg program).exec keptAct test n (.start input)

theorem ocaml_tracks (program : List Ir) (input : List Byte) (n : ℕ) :
    Tracks step Prog.Holds Leaves n (initial program input) (· = .nil)
      (keptRun program input n) := by
  have hlayout := Prog.layout_append (toProg program) .nil
  rw [Prog.append_nil] at hlayout
  have hrestrict : Realises step keptAct test Prog.PrimCode Prog.LoopCode Prog.NoFork Prog.Holds
      Leaves := by
    refine ((Prog.step_realises act test).weaken Leaves fun _ => .inl).restrict ?_
    rintro i a b s c rfl rfl hkept
    exact .inr ⟨i, b, rfl, hkept⟩
  exact hrestrict.run hlayout n (.start input) (initial program input) rfl

theorem ocaml_mirrors (H : StaysInside program input) (hunits : (toProg program).All IsUnit) :
    Mirrors step (initial program input) (fun s c => c = ⟨.nil, s⟩) (fun s c => c.state = s)
      (keptRun program input) := by
  have hsafe := not_raised_of_tracks (ocaml_tracks program input)
    (fun k c hr => H.not_leaves hunits hr)
  refine .of_tracks (ocaml_tracks program input) hsafe ?_ ?_
  · rintro a s c rfl
    rfl
  · rintro a s c rfl rfl
    exact ⟨0, _, .refl _, rfl, rfl⟩

theorem c_mirrors {ctx : IrCtx} {cur : Prog Prim} (hrep : Represents ctx cur [])
    (hsame : Same (toProg program) cur) (hsafe : ∀ n, ¬ (keptRun program input n).Raised) :
    Mirrors (interpretStep (patchHalt ctx) 30000) ⟨0, .start input⟩
      (fun s c => c.store = s ∧ Halted (patchHalt ctx) c) (fun s c => c.store = s)
      (keptRun program input) := by
  have hstart : (Store.start input).OnTape tapeLength := Store.start_onTape (by decide) input
  exact interpret_mirrors_of hrep (interpret_realises _ (by decide)) hstart hsafe
    fun n => hsame n (.start input) hstart

end

/-! ## Output only grows -/

theorem step_output {c c' : Prog.Left Ir Store} (h : step c = some c') :
    c.state.output <+: c'.state.output := by
  obtain ⟨code, s⟩ := c
  unfold step Prog.step at h
  cases code with
  | nil => cases h
  | prim i k =>
    simp only at h
    split at h
    · cases h
      exact act_output ‹_›
    · cases h
  | loop b k =>
    simp only at h
    split at h <;> cases h <;> exact ⟨[], by rw [List.append_nil]⟩

theorem steps_output {n : ℕ} {c c' : Prog.Left Ir Store} (h : Runs step n c c') :
    c.state.output <+: c'.state.output :=
  h.monotone (fun c => c.state.output) (fun _ => List.prefix_rfl)
    (fun _ _ _ => List.IsPrefix.trans) (fun _ _ => step_output)

/-! ## Agreement -/

/-- On a balanced text without a NUL, and an input on which the OCaml run stays on the tape and
finds what it reads, the C interpreter halts exactly when the OCaml one does, with the same streams,
tape and pointer, and what one has written the other comes to write. -/
theorem implementations_agree (text : MlString) (hnul : (0 : Byte) ∉ text.bytes)
    (hbal : Balanced text.bytes) (input : List Byte)
    (hrun : StaysInside (Parser.parse text) input) :
    ∃ ctx, irCtxParse {} (text.toC hnul) = ⟨0, ctx, []⟩ ∧
      ((∃ k c, Runs (interpretStep (patchHalt ctx) 30000) k ⟨0, .start input⟩ c ∧
          Halted (patchHalt ctx) c) ↔
        ∃ k t, Runs step k (initial (Parser.parse text) input) ⟨.nil, t⟩) ∧
      (∀ k c k' t, Runs (interpretStep (patchHalt ctx) 30000) k ⟨0, .start input⟩ c →
        Halted (patchHalt ctx) c → Runs step k' (initial (Parser.parse text) input) ⟨.nil, t⟩ →
        c.store = t) ∧
      (∀ k c, Runs (interpretStep (patchHalt ctx) 30000) k ⟨0, .start input⟩ c →
        ∃ k' c', Runs step k' (initial (Parser.parse text) input) c' ∧
          c.store.output <+: c'.state.output) ∧
      ∀ k' c', Runs step k' (initial (Parser.parse text) input) c' →
        ∃ k c, Runs (interpretStep (patchHalt ctx) 30000) k ⟨0, .start input⟩ c ∧
          c'.state.output <+: c.store.output := by
  obtain ⟨p, htree⟩ := (tree_of_openAfter text.bytes).2 hbal
  have hunits := htree.units
  rw [← htree.parse] at hunits
  obtain ⟨ctx, cur, hparse, hrep, hsame⟩ := parse_same text hnul hbal
  have HO := ocaml_mirrors hrun hunits
  have HC := c_mirrors hrep hsame HO.safe
  refine ⟨ctx, hparse, ⟨?_, ?_⟩, ?_, ?_, ?_⟩
  · rintro ⟨k, c, hr, hhalt⟩
    obtain ⟨s, hs, _⟩ := HC.done_of_stops hr hhalt.step_none (Nat.lt_succ_self k)
    obtain ⟨k', m, hr', _, rfl⟩ := HO.done _ s hs
    exact ⟨k', s, hr'⟩
  · rintro ⟨k, t, hr⟩
    obtain ⟨s, hs, _⟩ := HO.done_of_stops hr rfl (Nat.lt_succ_self k)
    obtain ⟨k', c, hr', _, hf⟩ := HC.done _ s hs
    exact ⟨k', c, hr', hf.2⟩
  · intro k c k' t hr hhalt hr'
    obtain ⟨s, ⟨hcs, _⟩, hts⟩ := HC.agree HO hr hhalt.step_none hr' rfl
    cases hts
    exact hcs
  · intro k c hr
    exact HC.puts_out (fun c : Config => c.store.output)
      (fun c : Prog.Left Ir Store => c.state.output) Store.output HO
      (fun _ _ _ h => interpret_output_mono h) (fun s c h => by rw [h.1]) (fun s c h => by rw [h])
      (fun s c h => by rw [h]) (fun s c h => by rw [h]) hr
  · intro k c hr
    exact HO.puts_out (fun c : Prog.Left Ir Store => c.state.output)
      (fun c : Config => c.store.output) Store.output HC
      (fun _ _ _ h => steps_output h) (fun s c h => by rw [h]) (fun s c h => by rw [h])
      (fun s c h => by rw [h.1]) (fun s c h => by rw [h]) hr

def countdownText : MlString := ⟨[',', '[', '-', '-', '.', ']'].map ascii, by decide⟩

theorem countdown_inside : StaysInside (Parser.parse countdownText) [4] :=
  .of_stopsAlong (n := 11) (by decide +kernel)

/-- On the input 4 both interpreters end in the same store, and have written 2 and 0. -/
theorem implementations_agree_countdown :
    ∃ ctx k c k' t, irCtxParse {} (countdownText.toC (by decide)) = ⟨0, ctx, []⟩ ∧
      Runs (interpretStep (patchHalt ctx) 30000) k ⟨0, .start [4]⟩ c ∧
      Halted (patchHalt ctx) c ∧
      Runs step k' (initial (Parser.parse countdownText) [4]) ⟨.nil, t⟩ ∧
      c.store = t ∧ t.output = [2, 0] := by
  obtain ⟨ctx, hparse, hends, hsame, _⟩ :=
    implementations_agree countdownText (by decide) (by decide) [4] countdown_inside
  have hcode : patchHalt ctx = countdownCode := by
    have hctx : (irCtxParse {} (countdownText.toC (by decide))).ctx = ctx :=
      congrArg ParseResult.ctx hparse
    rw [← hctx]
    decide
  obtain ⟨k, c, hr, hhalt, hwritten⟩ := countdown_halts
  rw [← hcode] at hr hhalt
  obtain ⟨k', t, hr'⟩ := hends.mp ⟨k, c, hr, hhalt⟩
  have hstore := hsame k c k' t hr hhalt hr'
  exact ⟨ctx, k, c, k', t, hparse, hr, hhalt, hr', hstore, by rw [← hstore, hwritten]⟩

end Bfcomp.Ocaml
