import Bfcomp.Compile.Errors
import Bfcomp.Driver.Main
import Bfcomp.Elf.Image

/-! # What a run of the compiler leaves behind (`main.c`)

`write_elf_file` does not look at the result of `ir_ctx_compile`: it writes the code that is there
when the compiler stops, and makes the file executable. -/

namespace Bfcomp
set_option autoImplicit false

def sIxusr : ℕ := 0o100
def sIxgrp : ℕ := 0o010
def sIxoth : ℕ := 0o001

/-- `make_exe`, on the mode that `fstat` reports. -/
def makeExe (stMode : ℕ) : ℕ := stMode ||| sIxusr ||| sIxgrp ||| sIxoth

structure OutFile where
  file : File
  mode : ℕ

/-- The owner may execute the file. -/
def OutFile.Executable (f : OutFile) : Prop := f.mode &&& sIxusr ≠ 0

/-- The output file, if `main` opens and writes one; `stMode` is the mode it is created with. -/
def MainResult.outFile (programs : Order Program) (sections : Order Section) (stMode : ℕ)
    (r : MainResult) : Option OutFile :=
  match r.action with
  | some (.writeElfFile ir) =>
    (writeElfFile programs sections ir).map fun written => ⟨written.2, makeExe stMode⟩
  | _ => none

theorem makeExe_executable (stMode : ℕ) : makeExe stMode &&& sIxusr ≠ 0 := by
  have hown : sIxusr.testBit 6 = true := by decide
  have hbit : (makeExe stMode &&& sIxusr).testBit 6 = true := by
    simp only [makeExe, Nat.testBit_and, Nat.testBit_or, hown, Bool.or_true, Bool.true_or,
      Bool.and_true]
  intro h
  rw [h, Nat.zero_testBit] at hbit
  cases hbit

/-- `ir_ctx_compile` returns one. -/
def CompileSucceeds (buf : List Byte) (ir : IrCtx) : Prop :=
  ∃ out, irCtxCompile buf ir = some out ∧ out.err = .ok

/-- The run exits with status zero and leaves an executable file. -/
def LeavesExecutable (programs : Order Program) (sections : Order Section) (stMode : ℕ)
    (r : MainResult) : Prop :=
  r.status = 0 ∧ ∃ f, r.outFile programs sections stMode = some f ∧ f.Executable

/-- Success is reported for the operands in range, and no failure looks like a success. -/
def ErrorsKept (programs : Order Program) (sections : Order Section) (stMode : ℕ) (ir : IrCtx)
    (r : MainResult) : Prop :=
  (CompileSucceeds textStart ir ↔ OperandsInRange ir.data) ∧
    (¬ CompileSucceeds textStart ir → ¬ LeavesExecutable programs sections stMode r)

/-- An output file is asked for, and can be opened. -/
def Writes (options : Options) (outFile : Bool) : Prop :=
  options.dumpIr = false ∧ options.outputName ≠ none ∧ outFile = true

/-! ## The IR that is compiled -/

theorem Represents.of_balanced {ctx : IrCtx} (h : Shaped ctx) (hpatch : ctx.patch = []) :
    ∃ cur, Represents ctx cur [] := by
  obtain ⟨cur, outer, hrep, _⟩ := h
  cases hrep.outer_nil hpatch
  exact ⟨cur, hrep⟩

theorem readLoop_shaped {ctx : IrCtx} (chunks : List Chunk) (h : Shaped ctx) :
    Shaped (readLoop ctx chunks).ctx := by
  have hparse : ∀ {ctx : IrCtx} (src : CString), Shaped ctx → Shaped (irCtxParse ctx src).ctx :=
    fun src h => irCtxParse_invariant (fun _ _ _ _ _ H hpos hfits h => H.parseSwitch hpos hfits h)
      _ h src
  induction chunks generalizing ctx with
  | nil => exact hparse _ h
  | cons chunk chunks ih =>
    unfold readLoop
    dsimp only
    split
    · exact hparse _ h
    · exact ih (hparse _ h)

theorem compileSucceeds_iff {ctx : IrCtx} {cur : Prog Prim} (H : Represents ctx cur [])
    (buf : List Byte) : CompileSucceeds buf ctx ↔ OperandsInRange ctx.data := by
  obtain ⟨out, hout, herr⟩ := irCtxCompile_err H buf
  rw [← herr]
  constructor
  · rintro ⟨out', hout', hok⟩
    rw [hout] at hout'
    cases hout'
    exact hok
  · exact fun hok => ⟨out, hout, hok⟩

/-! ## The file that is left -/

section
variable {programs : Order Program} {sections : Order Section} {stMode : ℕ} {options : Options}
  {chunks : List Chunk} {outFile : Bool}

/-- If `main` comes to `write_elf_file`, it leaves an executable file and returns zero. -/
theorem main_leavesExecutable (hwrites : Writes options outFile)
    (hread : (readLoop {} chunks).status = 0)
    (hcompile : ∃ out, irCtxCompile textStart (readLoop {} chunks).ctx = some out) :
    LeavesExecutable programs sections stMode (main (some options) (some chunks) outFile) := by
  obtain ⟨hdump, hname, rfl⟩ := hwrites
  obtain ⟨name, hname⟩ := Option.ne_none_iff_exists'.mp hname
  obtain ⟨out, hout⟩ := hcompile
  have hmain : main (some options) (some chunks) true = ⟨some (.writeElfFile (readLoop {} chunks).ctx),
      0, (readLoop {} chunks).stderr ++ irCtxFree (readLoop {} chunks).ctx⟩ := by
    simp only [main, hread, hdump, hname, ne_eq, not_true_eq_false, if_false, if_true,
      Bool.false_eq_true]
  rw [hmain]
  have hfile : ∃ w, writeElfFile programs sections (readLoop {} chunks).ctx = some w := by
    rw [writeElfFile, hout]
    exact ⟨_, rfl⟩
  obtain ⟨w, hw⟩ := hfile
  refine ⟨rfl, ⟨w.2, makeExe stMode⟩, ?_, makeExe_executable stMode⟩
  simp only [MainResult.outFile, hw, Option.map_some]

theorem main_writes_nothing (h : ¬ Writes options outFile) :
    ¬ LeavesExecutable programs sections stMode (main (some options) (some chunks) outFile) := by
  rintro ⟨_, f, hfile, _⟩
  unfold main at hfile
  simp only at hfile
  split at hfile
  · cases hfile
  split at hfile
  · cases hfile
  split at hfile
  · cases hfile
  split at hfile
  · exact h ⟨by simpa using ‹¬ options.dumpIr = true›, by simp [*], ‹_›⟩
  · cases hfile

end

theorem errorsKept_run (programs : Order Program) (sections : Order Section) (stMode : ℕ)
    (options : Options) (chunks : List Chunk) (outFile : Bool)
    (hbal : Balanced (visible chunks)) :
    ErrorsKept programs sections stMode (readLoop {} chunks).ctx
        (main (some options) (some chunks) outFile) ↔
      OperandsInRange (readLoop {} chunks).ctx.data ∨ ¬ Writes options outFile := by
  have hopen := readLoop_openAfter {} chunks
  rw [List.length_nil, hbal] at hopen
  obtain ⟨hstatus, _, hpatch⟩ := hopen
  obtain ⟨cur, H⟩ := Represents.of_balanced (readLoop_shaped chunks shaped_init)
    (List.eq_nil_of_length_eq_zero hpatch)
  have hsucceeds := compileSucceeds_iff H textStart
  obtain ⟨out, hout, _⟩ := irCtxCompile_err H textStart
  constructor
  · rintro ⟨_, hkept⟩
    by_cases hrange : OperandsInRange (readLoop {} chunks).ctx.data
    · exact .inl hrange
    · exact .inr fun hwrites => hkept (fun hok => hrange (hsucceeds.mp hok))
        (main_leavesExecutable hwrites hstatus ⟨out, hout⟩)
  · rintro (hrange | hwrites)
    · exact ⟨hsucceeds, fun hfail => (hfail (hsucceeds.mpr hrange)).elim⟩
    · exact ⟨hsucceeds, fun _ => main_writes_nothing hwrites⟩

/-- A balanced IR compiles exactly when its operands are in range. A run on a balanced source keeps
a compile error exactly when there is none to keep, or no file is written. -/
theorem errorsKept_iff (calls : List CString) (buf : List Byte)
    (hpatch : (parseCalls calls).patch = []) (programs : Order Program) (sections : Order Section)
    (stMode : ℕ) (options : Options) (chunks : List Chunk) (outFile : Bool)
    (hbal : Balanced (visible chunks)) :
    (∃ out, irCtxCompile buf (parseCalls calls) = some out ∧
      (out.err = .ok ↔ OperandsInRange (parseCalls calls).data)) ∧
    (ErrorsKept programs sections stMode (readLoop {} chunks).ctx
        (main (some options) (some chunks) outFile) ↔
      OperandsInRange (readLoop {} chunks).ctx.data ∨ ¬ Writes options outFile) := by
  obtain ⟨cur, H⟩ := Represents.of_balanced (shaped_parseCalls calls) hpatch
  exact ⟨irCtxCompile_err H buf, errorsKept_run programs sections stMode options chunks outFile hbal⟩

def compileOptions : Options := ⟨"a.bf", some "a", false⟩

/-- A run that compiles `[]` and keeps its errors, there being none. -/
theorem errorsKept_closed :
    (∃ out, irCtxCompile [] (parseCalls [clearText]) = some out ∧
      (out.err = .ok ↔ OperandsInRange (parseCalls [clearText]).data)) ∧
    ErrorsKept (.asRegistered Program) (.asRegistered Section) 0o644 (readLoop {} [closedChunk]).ctx
      (main (some compileOptions) (some [closedChunk]) true) :=
  (errorsKept_iff [clearText] [] (by decide) (.asRegistered Program) (.asRegistered Section) 0o644
    compileOptions [closedChunk] true (by decide)).imp_right fun h => h.mpr (.inl (by decide))

/-! ## An operand that is out of range -/

/-- A full buffer of `+`. -/
def plusChunk : Chunk where
  bytes := List.replicate 1024 (ascii '+')
  nonempty := by
    rw [ne_eq, List.replicate_eq_nil_iff]
    decide
  fits := List.length_replicate.le

theorem plusChunk_visible :
    plusChunk.bytes.takeWhile (· ≠ 0) = List.replicate 1024 (ascii '+') := by
  rw [plusChunk, List.takeWhile_replicate, if_pos (by decide)]

theorem parseLoop_run {ctx ctx' : IrCtx} {c : Byte} {m : ℕ}
    (h : parseSwitch ctx c (m + 1) = some (ctx', m + 1)) :
    parseLoop ctx 0 (List.replicate (m + 1) c) = ⟨0, ctx', []⟩ := by
  have hcount : countChar (c :: List.replicate m c) c = m + 1 := by
    rw [countChar, List.takeWhile_replicate, if_pos (by simp), List.length_replicate, Nat.add_comm]
  rw [← hcount] at h
  rw [List.replicate_succ, parseLoop_cons h, hcount, Nat.add_sub_cancel, List.drop_replicate,
    Nat.sub_self]
  rfl

theorem readLoop_plusChunks {v : ℤ} (hv : i64 v = v) (n : ℕ) :
    readLoop ⟨[⟨.cell, v⟩], []⟩ (List.replicate n plusChunk) =
      ⟨0, ⟨[⟨.cell, i64 (v + 1024 * n)⟩], []⟩, []⟩ := by
  induction n generalizing v with
  | zero =>
    rw [Int.natCast_zero, Int.mul_zero, Int.add_zero, hv]
    rfl
  | succ n ih =>
    have hparse : parseLoop ⟨[⟨.cell, v⟩], []⟩ 0 (plusChunk.bytes.takeWhile (· ≠ 0)) =
        ⟨0, ⟨[⟨.cell, i64 (v + 1024)⟩], []⟩, []⟩ := by
      rw [plusChunk_visible]
      exact parseLoop_run rfl
    have hsum : i64 (i64 (v + 1024) + 1024 * n) = i64 (v + 1024 * (n + 1 : ℕ)) := by
      have harith : v + 1024 * (n + 1 : ℕ) = 1024 * n + (v + 1024) := by push_cast; omega
      rw [harith, Int.add_comm, i64_add_right]
    rw [List.replicate_succ, readLoop_more _ (by rw [hparse]), hparse, ih (i64_idem _), hsum]

theorem readLoop_plusFile (n : ℕ) : readLoop {} (List.replicate (n + 1) plusChunk) =
    ⟨0, ⟨[⟨.cell, i64 (1024 + 1024 * n)⟩], []⟩, []⟩ := by
  have hparse : parseLoop {} 0 (plusChunk.bytes.takeWhile (· ≠ 0)) =
      ⟨0, ⟨[⟨.cell, 1024⟩], []⟩, []⟩ := by
    rw [plusChunk_visible]
    exact parseLoop_run rfl
  rw [List.replicate_succ, readLoop_more _ (by rw [hparse]), hparse, readLoop_plusChunks rfl]

theorem balanced_plusFile (n : ℕ) : Balanced (visible (List.replicate n plusChunk)) := by
  have hbytes : visible (List.replicate n plusChunk) =
      List.replicate (n * 1024) (ascii '+') ++ [] := by
    rw [visible, List.map_replicate, plusChunk_visible, List.flatten_replicate_replicate,
      List.append_nil]
  rw [Balanced, hbytes, openAfter_replicate (by decide) (by decide)]
  rfl

/-- Of a source of `2^31` characters `+` the compiler reports an operand that is too big; `main`
returns zero, and the file it leaves is executable. -/
theorem errorsKept_not :
    ¬ ∀ programs sections stMode options chunks outFile, Balanced (visible chunks) →
      ErrorsKept programs sections stMode (readLoop {} chunks).ctx
        (main (some options) (some chunks) outFile) := by
  intro h
  have hkept := h (.asRegistered Program) (.asRegistered Section) 0o644 compileOptions
    (List.replicate (2097151 + 1) plusChunk) true (balanced_plusFile _)
  rw [errorsKept_run _ _ _ _ _ _ (balanced_plusFile _), readLoop_plusFile] at hkept
  rcases hkept with hrange | hwrites
  · exact absurd hrange (by decide)
  · exact hwrites ⟨rfl, nofun, rfl⟩

end Bfcomp
