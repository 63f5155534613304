import Bfcomp.Driver.Executable
import Bfcomp.Driver.Size
import Bfcomp.Ocaml.Agree
import Bfcomp.Ocaml.Main

/-! # One source, three ways to run it

The OCaml program optimises a source and interprets it; `main` interprets it, or leaves an
executable. A source that is not too long, balanced, without a NUL and without two adjacent commas
runs alike in all three, on every input on which the OCaml interpreter without its optimiser stays on
the tape and finds what it reads; the optimiser must not meet two adjacent loops of which the first
is entered. -/

namespace Bfcomp
set_option autoImplicit false

open Ia32 (Cpu)
open Ocaml (Ir Exn MlString Parser.parse Parser.unitOf)
open Ocaml.Interpreter (toProg)

/-! ## What `main` reads -/

/-- The read loop spells what it sees, whatever the instructions of single characters are. -/
theorem readLoop_spells {ι : Type} {R : Prog ι → Prog Prim → Prop} {unit : Byte → Option ι}
    (S : Spells R unit) {ctx : IrCtx} {chunks : List Chunk} {z : Reading ι} (H : ReadAs R ctx z)
    (hok : (readLoop ctx chunks).status = 0) :
    ReadAs R (readLoop ctx chunks).ctx (z.text unit (visible chunks)) := by
  induction chunks generalizing ctx z with
  | nil => exact H
  | cons chunk chunks ih =>
    have hfits := (bufferString chunk.bytes chunk.fits).fits
    by_cases hparse : (parseLoop ctx 0 (chunk.bytes.takeWhile (· ≠ 0))).status = 0
    · rw [readLoop_more chunks hparse] at hok ⊢
      rw [visible_cons, Reading.text_append]
      exact ih (parseLoop_readAs S ctx _ hfits hparse z H) hok
    · rw [readLoop_stop chunks hparse] at hok
      exact (hparse hok).elim

/-- An op for input or output does at least one transfer. -/
def IrOp.Valid (op : IrOp) : Prop := op.kind = .read ∨ op.kind = .write → 1 ≤ op.arg

theorem Prim.valid_iff (i : Prim) : i.Valid ↔ i.op.Valid := by
  cases i with
  | write n => exact ⟨fun h _ => h, fun h => h (.inr rfl)⟩
  | read n => exact ⟨fun h _ => h, fun h => h (.inl rfl)⟩
  | tape n | cell n =>
    refine ⟨fun _ h => ?_, fun _ => trivial⟩
    rcases h with h | h <;> cases h

section
variable {content : MlString} {chunks : List Chunk}

/-- The context of a balanced source: what it means for OCaml, and what its ops are. -/
structure ReadFrom (content : MlString) (ctx : IrCtx) (cur : Prog Prim) : Prop where
  represents : Represents ctx cur []
  same : Ocaml.Same (toProg (Parser.parse content)) cur
  valid : cur.All Prim.Valid
  cost_le : cost ctx.data ≤ content.bytes.length
  once : ¬ doubleRead <:+: content.bytes → cur.All fun i => ∀ s, singleRead i s = true

theorem readLoop_readFrom (hvisible : visible chunks = content.bytes)
    (hbal : Balanced content.bytes) :
    (readLoop {} chunks).status = 0 ∧ ∃ cur, ReadFrom content (readLoop {} chunks).ctx cur := by
  have hread := readLoop_openAfter {} chunks
  rw [List.length_nil, hvisible, hbal] at hread
  obtain ⟨hok, _, hpatch⟩ := hread
  obtain ⟨cur, outer, H, hsame, _⟩ := readLoop_spells Ocaml.spells_same
    (ReadAs.init Ocaml.spells_same) hok
  cases H.outer_nil (List.eq_nil_of_length_eq_zero hpatch)
  have htext : Reading.text Parser.unitOf ⟨.nil, []⟩ (visible chunks) =
      ⟨toProg (Parser.parse content), []⟩ := by
    have hscan := Ocaml.scan_reading ⟨.nil, []⟩ content.bytes
    rw [Ocaml.scan_parse hbal] at hscan
    rw [hvisible]
    exact hscan.symm
  rw [htext] at hsame
  have hdata : (readLoop {} chunks).ctx.data = flat cur := H.data
  refine ⟨hok, cur, H, hsame, ?_, ?_, fun hreads => ?_⟩
  · obtain ⟨cur', outer', H', hvalid, _⟩ := readLoop_shaped chunks shaped_init
    cases H'.outer_nil (List.eq_nil_of_length_eq_zero hpatch)
    have hflat : flat cur' = flat cur := H'.data.symm.trans hdata
    have hops := all_flat.mpr (hvalid.imp fun i => i.valid_iff.mp)
    rw [hflat] at hops
    exact (all_flat.mp hops).imp fun i => i.valid_iff.mpr
  · have hcost := readLoop_cost {} chunks
    rw [hvisible, cost_nil, Nat.zero_add] at hcost
    exact hcost
  · have hreads' := readLoop_readsOnce {} chunks (fun op hop => by cases hop)
      (by rw [hvisible]; exact hreads)
    rw [hdata] at hreads'
    have hall := all_flat.mp fun op hop _ _ => hreads' op hop
    refine hall.imp fun i hi s => ?_
    cases i with
    | read n =>
      have hone : n ≤ 1 := hi rfl
      rw [singleRead, decide_eq_true hone, Bool.true_or]
    | tape n => rfl
    | cell n => rfl
    | write n => rfl

end

/-! ## The executions that all of them follow -/

section
variable {content : MlString} {ctx : IrCtx} {cur : Prog Prim} {input : List Byte}

theorem Balanced.units (hbal : Balanced content.bytes) :
    (toProg (Parser.parse content)).All Ocaml.IsUnit := by
  obtain ⟨p, htree⟩ := (Ocaml.tree_of_openAfter content.bytes).2 hbal
  rw [htree.parse]
  exact htree.units

/-- Without two adjacent commas, the executions that the processor follows are those of the OCaml
program, for as long as these raise nothing. -/
theorem ReadFrom.below (H : ReadFrom content ctx cur) (honce : ¬ doubleRead <:+: content.bytes)
    (input : List Byte) (n : ℕ) :
    Below (Ocaml.keptRun (Parser.parse content) input n) (executions cur [] input n) := by
  have hstart : (Store.start input).OnTape 30000 := Store.start_onTape (by decide) input
  have hact : cur.All fun i => ∀ s,
      Prim.act 30000 i s = Prog.restrict singleRead () (Prim.act 30000) i s := by
    refine (H.once honce).imp fun i hi s => ?_
    rw [Prog.restrict, hi s]
    rfl
  have hbelow : Below (Ocaml.keptRun (Parser.parse content) input n)
      (cur.exec (Prim.act 30000) cellTest n (.start input)) := H.same n (.start input) hstart
  rw [Prog.exec_congr_act hact] at hbelow
  exact hbelow

end

/-- The text of a source of which each character takes at most 19 bytes ends below the tape, and the
tape below the end of the address space. -/
theorem ReadFrom.text_fits {content : MlString} {ctx : IrCtx} {cur : Prog Prim}
    (H : ReadFrom content ctx cur) (hsize : 19 * content.bytes.length + 5 ≤ 2^31) {out : Compiled}
    (hout : irCtxCompile textStart ctx = some out) :
    alignTo (textVaddr.toNat + out.code.length) pageSize + tapeBytes ≤ 2^32 := by
  have hcost := H.cost_le
  have hcompile := irCtxCompile_eq H.represents (operandsFit_of_cost (by omega)) textStart
  rw [hout, Option.some.injEq] at hcompile
  obtain ⟨_, hupper⟩ := pendingCode_length [] cur
  have hops := H.represents.data_pending
  rw [List.reverse_nil] at hops
  rw [← hops, List.length_nil, pow_zero, Nat.one_mul] at hupper
  have hstart : textStart.length = 5 := rfl
  have hlen : out.code.length = 5 + 2 + (pendingCode [] cur).length := by
    rw [hcompile]
    simp only [List.length_append, hstart, List.length_cons, List.length_nil, List.reverse_nil]
  have halign := alignTo_page (textVaddr.toNat + out.code.length)
  have hvaddr : textVaddr.toNat = 134512640 := by decide
  unfold tapeBytes
  omega

/-! ## Agreement -/

/-- What becomes of one input. The OCaml interpreter ends exactly when the C interpreter does, in the
same store, and what one has written the other comes to write; the OCaml program with its optimiser
ends in that store too, if no loop that is entered stands right before another one; and each process
of the executable does what the C interpreter does. -/
structure RunsAlike (content : MlString) (ctx : IrCtx) (f : OutFile) (file : ElfFile)
    (input : List Byte) : Prop where
  ends : ∀ t, (∃ n, Ocaml.Interpreter.run n (Parser.parse content) input = .done t) ↔
    ∃ k c, Runs (interpretStep (patchHalt ctx) 30000) k ⟨0, .start input⟩ c ∧
      Halted (patchHalt ctx) c ∧ c.store = t
  shows : ∀ n, ∃ k c, Runs (interpretStep (patchHalt ctx) 30000) k ⟨0, .start input⟩ c ∧
    (Ocaml.Interpreter.run n (Parser.parse content) input).state.output <+: c.store.output
  shown : ∀ k c, Runs (interpretStep (patchHalt ctx) 30000) k ⟨0, .start input⟩ c →
    ∃ n, c.store.output <+: (Ocaml.Interpreter.run n (Parser.parse content) input).state.output
  optimises : ∀ n t, Ocaml.Guarded n (Parser.parse content) (.start input) →
    Ocaml.Interpreter.run n (Parser.parse content) input = .done t →
    Ocaml.main n (some content) input = .done t
  executes : ∀ m, Process (image f.file.writes) file input m →
    ∃ base, Behaves (patchHalt ctx) input base m

theorem below_run (program : List Ir) (input : List Byte) (n : ℕ) :
    Below (Ocaml.keptRun program input n) (Ocaml.Interpreter.run n program input) := by
  rw [Ocaml.Interpreter.run, Ocaml.Interpreter.execs_eq]
  exact Prog.Refines.of_act Ocaml.keptAct_onTape (fun _ _ _ h => h)
    (fun _ _ _ _ h => (Ocaml.keptAct_ok h).1) (toProg program) n (.start input)
    (Store.start_onTape (by decide) input)

section
variable {content : MlString} {ctx : IrCtx} {cur : Prog Prim} {f : OutFile} {file : ElfFile}
  {text bss : Elf32Phdr} {input : List Byte}

theorem ReadFrom.runsAlike (H : ReadFrom content ctx cur) (hbal : Balanced content.bytes)
    (honce : ¬ doubleRead <:+: content.bytes) (hloops : LoopsFit ctx.data)
    (hfile : TextAndTape (image f.file.writes)
      (textStart ++ ([0xFF, 0xF7] ++ pendingCode [] cur)) file text bss)
    (hfits : alignTo (textVaddr.toNat +
      (textStart ++ ([0xFF, 0xF7] ++ pendingCode [] cur)).length) pageSize + tapeBytes ≤ 2^32)
    (hinside : Ocaml.StaysInside (Parser.parse content) input) :
    RunsAlike content ctx f file input := by
  have hsafe := (Ocaml.ocaml_mirrors hinside hbal.units).safe
  have HC := Ocaml.c_mirrors H.represents H.same hsafe
  have hrun (n : ℕ) : Ocaml.Interpreter.run n (Parser.parse content) input =
      Ocaml.keptRun (Parser.parse content) input n :=
    (below_run (Parser.parse content) input n).eq (hsafe n)
  constructor
  · intro t
    constructor
    · rintro ⟨n, hdone⟩
      rw [hrun] at hdone
      obtain ⟨k, c, hr, _, hstore, hhalt⟩ := HC.done n t hdone
      exact ⟨k, c, hr, hhalt, hstore⟩
    · rintro ⟨k, c, hr, hhalt, rfl⟩
      obtain ⟨s, hs, rfl, _⟩ := HC.done_of_stops hr hhalt.step_none (Nat.lt_succ_self k)
      exact ⟨k + 1, (hrun _).trans hs⟩
  · intro n
    rw [hrun]
    cases ho : Ocaml.keptRun (Parser.parse content) input n with
    | done s =>
      obtain ⟨k, c, hr, _, rfl, _⟩ := HC.done n s ho
      exact ⟨k, c, hr, List.prefix_rfl⟩
    | raised e s => exact (hsafe n (by rw [ho]; trivial)).elim
    | timeout s =>
      obtain ⟨k, c, _, hr, rfl⟩ := HC.timeout n s ho
      exact ⟨k, c, hr, List.prefix_rfl⟩
  · intro k c hr
    obtain ⟨s, hs, hout⟩ := HC.shown (fun c : Config => c.store.output) Store.output
      (fun _ _ _ h => interpret_output_mono h) (fun s c h => by rw [h.1]) (fun s c h => by rw [h]) hr
    refine ⟨k, ?_⟩
    rw [hrun]
    rcases hs with hs | hs <;> rw [hs] <;> exact hout
  · intro n t hguard hdone
    exact Ocaml.main_keeps content hbal hguard hdone
  · intro m hprocess
    obtain ⟨m₁, hr₁, hloaded⟩ := hprocess.loaded hfile hfits
    have hbelow := H.below honce input
    have HM := cpu_mirrors H.represents H.valid (fun p hp => by cases hp) hloops
      (fun n => (hbelow n).not_raised (hsafe n)) hloaded
    exact ⟨_, behaves_of_mirrors HC ((HM.of_below hsafe hbelow).prepend hr₁)⟩

end

section
variable (programs : Order Program) (sections : Order Section) (stMode : ℕ)
  (inputName outputName : String) {content : MlString} {chunks : List Chunk}

/-- A balanced source of less than a hundred megabytes, without a NUL and without two adjacent
commas: `main` interprets it or leaves an executable, both without a message, and on every input on
which the OCaml interpreter stays inside, the C interpreter, the OCaml program and every process of
the executable run alike. -/
theorem source_agrees (hsource : source chunks = content.bytes) (hnul : (0 : Byte) ∉ content.bytes)
    (hbal : Balanced content.bytes) (honce : ¬ doubleRead <:+: content.bytes)
    (hsize : 19 * content.bytes.length + 5 ≤ 2^31) :
    ∃ ctx f file,
      main (some ⟨inputName, none, false⟩) (some chunks) true = ⟨some (.interpret ctx), 0, []⟩ ∧
      main (some ⟨inputName, some outputName, false⟩) (some chunks) true =
        ⟨some (.writeElfFile ctx), 0, []⟩ ∧
      (main (some ⟨inputName, some outputName, false⟩) (some chunks) true).outFile programs sections
        stMode = some f ∧
      f.Executable ∧ readElf (image f.file.writes) = some file ∧ SegmentsApart file.segments ∧
      ∀ input, Ocaml.StaysInside (Parser.parse content) input →
        RunsAlike content ctx f file input := by
  have hvisible : visible chunks = content.bytes := by
    rw [← hsource] at hnul ⊢
    exact visible_of_nulFree hnul
  obtain ⟨hok, cur, H⟩ := readLoop_readFrom hvisible hbal
  have hread := readLoop_openAfter {} chunks
  rw [List.length_nil, hvisible, hbal] at hread
  obtain ⟨_, hsilent, hpatch⟩ := hread
  have hfree : irCtxFree (readLoop {} chunks).ctx = [] :=
    if_neg (not_not_intro (List.eq_nil_of_length_eq_zero hpatch))
  have hcost := H.cost_le
  have hwrites : Writes ⟨inputName, some outputName, false⟩ true :=
    ⟨rfl, Option.some_ne_none _, rfl⟩
  obtain ⟨f, file, text, bss, hleft, haccepted, hfits, hfile⟩ :=
    main_textAndTape programs sections stMode hwrites hok H.represents
      (operandsFit_of_cost (by omega)) (fun out hout => H.text_fits hsize hout)
  refine ⟨_, _, file, ?_, ?_, hleft, makeExe_executable stMode, haccepted,
    hfile.segmentsApart hfits, fun input hinside =>
      H.runsAlike hbal honce (loopsFit_of_cost (by omega)) hfile hfits hinside⟩
  · simp only [main, hok, hsilent, hfree, ne_eq, not_true_eq_false, if_false, Bool.false_eq_true,
      List.append_nil]
  · rw [main_writes hwrites hok, hsilent, hfree, List.append_nil]

end

/-- An accepted source whose loop has a coalesced run. -/
theorem source_agrees_countdown : ∃ ctx f file,
    (main (some ⟨"a.bf", some "a", false⟩) (some countdownChunks) true).outFile (.asRegistered Program)
      (.asRegistered Section) 0o644 = some f ∧
    readElf (image f.file.writes) = some file ∧ RunsAlike Ocaml.countdownText ctx f file [4] := by
  have hsource : source countdownChunks = Ocaml.countdownText.bytes := rfl
  obtain ⟨ctx, f, file, _, _, hleft, _, haccepted, _, halike⟩ :=
    source_agrees (.asRegistered Program) (.asRegistered Section) 0o644 "a.bf" "a" hsource
      (by decide) (by decide) (by decide) (by decide)
  exact ⟨ctx, f, file, hleft, haccepted, halike [4] Ocaml.countdown_inside⟩

end Bfcomp
