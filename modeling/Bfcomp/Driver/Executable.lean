import Bfcomp.Compile.Correct
import Bfcomp.Driver.Output
import Bfcomp.Elf.Loader

/-! # From a source to a running process

`main` parses a source and writes a file; a system loads the file and starts a process; the process
does what `main` would have done by interpreting the source. -/

namespace Bfcomp
set_option autoImplicit false

open Ia32 (Cpu Holds)

/-- The process does what the interpreter does on the same input: one ends exactly when the other
does, with status zero and the same output, input and tape, and neither shows anything that the
other does not come to show. `base`: where the process has its tape. -/
structure Behaves (code : List IrOp) (input : List Byte) (base : BitVec 32) (m₀ : Cpu) : Prop where
  ends : (∃ k c, Runs (interpretStep code 30000) k ⟨0, .start input⟩ c ∧ Halted code c) ↔
    ∃ k m, Runs Cpu.step k m₀ m ∧ m.step = none
  final : ∀ k c k' m, Runs (interpretStep code 30000) k ⟨0, .start input⟩ c → Halted code c →
    Runs Cpu.step k' m₀ m → m.step = none → ShowsFinal base c.store m
  shows : ∀ k c, Runs (interpretStep code 30000) k ⟨0, .start input⟩ c →
    ∃ k' m, Runs Cpu.step k' m₀ m ∧ c.store.output <+: m.output
  shown : ∀ k' m, Runs Cpu.step k' m₀ m →
    ∃ k c, Runs (interpretStep code 30000) k ⟨0, .start input⟩ c ∧ m.output <+: c.store.output

/-! ## The first instruction -/

section
variable {f : ℕ → Byte} {file : ElfFile} {text bss : Elf32Phdr} {rest input : List Byte} {m : Cpu}

/-- Code and tape lie one behind the other below the end of the address space. -/
theorem bssVaddr_toNat {length : ℕ}
    (hfits : alignTo (textVaddr.toNat + length) pageSize + tapeBytes ≤ 2^32) :
    textVaddr.toNat + length ≤ (bssVaddr length).toNat ∧
      (bssVaddr length).toNat + 30000 ≤ 2^32 := by
  unfold tapeBytes at hfits
  have hnum : (bssVaddr length).toNat = alignTo (textVaddr.toNat + length) pageSize :=
    toNat_ofNat_of_lt (by omega)
  have hle := le_alignTo (textVaddr.toNat + length)
  omega

/-- After the move of the address of `.bss` to `edi`, the process is about to execute the code. -/
theorem Process.loaded (hfile : TextAndTape f (textStart ++ rest) file text bss)
    (hfits : alignTo (textVaddr.toNat + (textStart ++ rest).length) pageSize + tapeBytes ≤ 2^32)
    (H : Process f file input m) :
    ∃ m', Runs Cpu.step 1 m m' ∧
      Loaded rest input (textVaddr + 5) (bssVaddr (textStart ++ rest).length) m' := by
  have htext : text ∈ file.segments := hfile.segments.mem_iff.mpr List.mem_cons_self
  have hbss : bss ∈ file.segments :=
    hfile.segments.mem_iff.mpr (List.mem_cons_of_mem _ List.mem_cons_self)
  have hheld := H.copied text htext hfile.textType
  have hcode : (textStart ++ rest).take 1 ++ le32 (bssVaddr (textStart ++ rest).length) ++
      (textStart ++ rest).drop 5 =
      (Ia32.Instr.movImm spReg (bssVaddr (textStart ++ rest).length)).encode ++ rest := rfl
  rw [hfile.textContents, hfile.textAddr, hcode] at hheld
  have hstep := Cpu.step_of_holds (i := .movImm spReg (bssVaddr (textStart ++ rest).length))
    H.running trivial (by rw [H.entry, hfile.entry]; exact hheld.take)
  have hlen : (textStart ++ rest).length = 5 + rest.length := List.length_append
  obtain ⟨hbehind, hend⟩ := bssVaddr_toNat hfits
  have hvaddr : textVaddr.toNat = 134512640 := by decide
  have hstackText := H.stack text htext hfile.textType
  have hstackBss := H.stack bss hbss hfile.bssType
  rw [hfile.textMemsz, hfile.textAddr, hlen] at hstackText
  rw [hfile.bssMemsz, hfile.bssAddr] at hstackBss
  refine ⟨_, .single hstep, H.running, ?_, hheld.drop, ?_, ?_, H.input, H.output, ?_, ?_, ?_⟩
  · simp only [Cpu.setReg, Cpu.advance]
    rw [H.entry, hfile.entry]
    rfl
  · simp only [Cpu.setReg]
    exact Function.update_self _ _ _
  · intro j hj
    have hzero := H.zeroed bss hbss hfile.bssType j (by rw [hfile.bssFilesz]; omega)
      (by rw [hfile.bssMemsz]; exact hj)
    rw [hfile.bssAddr] at hzero
    exact hzero
  · intro k hk j hj
    have hbelow : textVaddr.toNat + (5 + rest.length) ≤
        (bssVaddr (textStart ++ rest).length).toNat := by omega
    bv_omega
  · intro i hi k hk
    have hne := hstackText i hi (5 + k) (by omega)
    rw [BitVec.ofNat_add, ← BitVec.add_assoc] at hne
    exact hne
  · intro i hi j hj
    exact hstackBss i hi j hj

/-- A loader that starts the stack above the tape starts a process. -/
theorem TextAndTape.process {code : List Byte} (hfile : TextAndTape f code file text bss)
    (hfits : alignTo (textVaddr.toNat + code.length) pageSize + tapeBytes ≤ 2^32)
    (hapart : SegmentsApart file.segments) (input : List Byte) {esp : BitVec 32}
    (hesp : (bssVaddr code.length).toNat + 30004 ≤ esp.toNat) :
    Process f file input (execve f file input esp) := by
  obtain ⟨hbehind, hend⟩ := bssVaddr_toNat hfits
  have hvaddr : textVaddr.toNat = 134512640 := by decide
  refine .of_execve hapart input ?_
  intro h hmem _ i hi k hk
  rcases (by simpa using hfile.segments.mem_iff.mp hmem : h = text ∨ h = bss) with rfl | rfl
  · rw [hfile.textMemsz] at hk
    rw [hfile.textAddr]
    bv_omega
  · have hmemsz : h.pMemsz.toNat = 30000 := hfile.bssMemsz
    rw [hmemsz] at hk
    rw [hfile.bssAddr]
    bv_omega

end

/-! ## The compiled source -/

theorem behaves_of_mirrors {code : List IrOp} {input : List Byte} {base : BitVec 32} {m₀ : Cpu}
    {ε : Type} {run : ℕ → Outcome ε Store}
    (HI : Mirrors (interpretStep code 30000) ⟨0, .start input⟩
      (fun s c => c.store = s ∧ Halted code c) (fun s c => c.store = s) run)
    (HC : Mirrors Cpu.step m₀ (ShowsFinal base) (fun s m => m.output = s.output) run) :
    Behaves code input base m₀ where
  ends := by
    constructor
    · rintro ⟨k, c, hr, hhalt⟩
      obtain ⟨k', m, s, hr', hstop, _⟩ := HI.stops HC hr hhalt.step_none
      exact ⟨k', m, hr', hstop⟩
    · rintro ⟨k, m, hr, hstop⟩
      obtain ⟨k', c, s, hr', _, _, hhalt⟩ := HC.stops HI hr hstop
      exact ⟨k', c, hr', hhalt⟩
  final := by
    intro k c k' m hr hhalt hr' hstop
    obtain ⟨s, ⟨rfl, _⟩, hf⟩ := HI.agree HC hr hhalt.step_none hr' hstop
    exact hf
  shows := by
    intro k c hr
    exact HI.puts_out (fun c : Config => c.store.output) Cpu.output Store.output HC
      (fun _ _ _ h => interpret_output_mono h) (fun s c h => by rw [h.1]) (fun s c h => by rw [h])
      (fun s m h => h.2.1) (fun s m h => h) hr
  shown := by
    intro k' m hr
    exact HC.puts_out Cpu.output (fun c : Config => c.store.output) Store.output HI
      (fun _ _ _ h => Ia32.runs_output h) (fun s m h => h.2.1) (fun s m h => h)
      (fun s c h => by rw [h.1]) (fun s c h => by rw [h]) hr

/-- The file that `main` leaves for an output name, as a reader and a system see it. -/
structure Delivers (programs : Order Program) (sections : Order Section) (stMode : ℕ)
    (r : MainResult) (ir : IrCtx) (f : OutFile) (file : ElfFile) : Prop where
  status : r.status = 0
  left : r.outFile programs sections stMode = some f
  executable : f.Executable
  accepted : readElf (image f.file.writes) = some file
  apart : SegmentsApart file.segments
  behaves : ∀ input,
    (∀ k c, Runs (interpretStep (patchHalt ir) 30000) k ⟨0, .start input⟩ c →
      AgreesAt (patchHalt ir) 30000 c) →
    ∀ m, Process (image f.file.writes) file input m → ∃ base, Behaves (patchHalt ir) input base m

section
variable (programs : Order Program) (sections : Order Section) (stMode : ℕ) {options : Options}
  {chunks : List Chunk} {outFile : Bool}

theorem main_writes (hwrites : Writes options outFile) (hread : (readLoop {} chunks).status = 0) :
    main (some options) (some chunks) outFile = ⟨some (.writeElfFile (readLoop {} chunks).ctx), 0,
      (readLoop {} chunks).stderr ++ irCtxFree (readLoop {} chunks).ctx⟩ := by
  obtain ⟨hdump, hname, rfl⟩ := hwrites
  obtain ⟨name, hname⟩ := Option.ne_none_iff_exists'.mp hname
  simp only [main, hread, hdump, hname, ne_eq, not_true_eq_false, if_false, if_true,
    Bool.false_eq_true]

theorem TextAndTape.segmentsApart {f : ℕ → Byte} {code : List Byte} {file : ElfFile}
    {text bss : Elf32Phdr} (hfile : TextAndTape f code file text bss)
    (hfits : alignTo (textVaddr.toNat + code.length) pageSize + tapeBytes ≤ 2^32) :
    SegmentsApart file.segments := by
  obtain ⟨hbehind, hend⟩ := bssVaddr_toNat hfits
  have htextMemsz := hfile.textMemsz
  have hbssMemsz : bss.pMemsz.toNat = 30000 := hfile.bssMemsz
  have hmeet (a : BitVec 32) (ht : text.Maps a) (hb : bss.Maps a) : False := by
    have h1 := ht.2
    have h2 := hb.2
    rw [hfile.textAddr, htextMemsz] at h1
    rw [hfile.bssAddr, hbssMemsz] at h2
    bv_omega
  have hcases {h : Elf32Phdr} (hmem : h ∈ file.segments) : h = text ∨ h = bss := by
    simpa using hfile.segments.mem_iff.mp hmem
  constructor
  · intro h hmem
    rcases hcases hmem with rfl | rfl
    · rw [hfile.textFilesz, htextMemsz]
    · rw [hfile.bssFilesz]
      exact Nat.zero_le _
  · intro h hmem h' hmem' a ha ha'
    rcases hcases hmem with rfl | rfl
    · rcases hcases hmem' with rfl | rfl
      · rfl
      · exact (hmeet a ha ha').elim
    · rcases hcases hmem' with rfl | rfl
      · exact (hmeet a ha' ha).elim
      · rfl

/-- What the file of an accepted source looks like: its text is the move of the address of the tape,
a push, and the code of the parsed source. -/
theorem main_textAndTape (hwrites : Writes options outFile)
    (hread : (readLoop {} chunks).status = 0) {cur : Prog Prim} {outer : List (Prog Prim)}
    (H : Represents (readLoop {} chunks).ctx cur outer)
    (hoperands : OperandsFit (readLoop {} chunks).ctx.data)
    (hsize : ∀ out, irCtxCompile textStart (readLoop {} chunks).ctx = some out →
      alignTo (textVaddr.toNat + out.code.length) pageSize + tapeBytes ≤ 2^32) :
    ∃ f file text bss,
      (main (some options) (some chunks) outFile).outFile programs sections stMode =
        some ⟨f, makeExe stMode⟩ ∧
      readElf (image f.writes) = some file ∧
      alignTo (textVaddr.toNat +
        (textStart ++ ([0xFF, 0xF7] ++ pendingCode outer.reverse cur)).length) pageSize +
          tapeBytes ≤ 2^32 ∧
      TextAndTape (image f.writes) (textStart ++ ([0xFF, 0xF7] ++ pendingCode outer.reverse cur))
        file text bss := by
  have hcompile := irCtxCompile_eq H hoperands textStart
  have hfits := hsize _ hcompile
  rw [List.append_assoc] at hcompile hfits
  obtain ⟨file, text, bss, haccepted, hfile⟩ :=
    elfContext_textAndTape programs sections
      (by rw [List.length_append]; exact Nat.le_add_right 5 _) hfits
  refine ⟨_, file, text, bss, ?_, haccepted, hfits, hfile⟩
  rw [main_writes hwrites hread]
  simp only [MainResult.outFile, writeElfFile, hcompile, Option.map_some]

/-- Whatever source `main` accepts and however it is read: if the operands and the loops fit the
instructions and the text fits below the tape, the file that `main` leaves is an executable, and
every process started from it behaves like the interpreter on every input on which the interpreter
keeps to the tape and reads one byte at a time. -/
theorem main_delivers (hwrites : Writes options outFile)
    (hread : (readLoop {} chunks).status = 0) (hoperands : OperandsFit (readLoop {} chunks).ctx.data)
    (hloops : LoopsFit (readLoop {} chunks).ctx.data)
    (hsize : ∀ out, irCtxCompile textStart (readLoop {} chunks).ctx = some out →
      alignTo (textVaddr.toNat + out.code.length) pageSize + tapeBytes ≤ 2^32) :
    ∃ f file, Delivers programs sections stMode (main (some options) (some chunks) outFile)
      (readLoop {} chunks).ctx f file := by
  obtain ⟨cur, outer, H, hvalid, hvalids⟩ := readLoop_shaped chunks shaped_init
  obtain ⟨f, file, text, bss, hleft, haccepted, hfits, hfile⟩ :=
    main_textAndTape programs sections stMode hwrites hread H hoperands hsize
  refine ⟨_, file, ?_, hleft, makeExe_executable stMode, haccepted, hfile.segmentsApart hfits, ?_⟩
  · rw [main_writes hwrites hread]
  · intro input hrun m hprocess
    have HI := interpret_mirrors H hrun
    obtain ⟨m₁, hr₁, hloaded⟩ := hprocess.loaded hfile hfits
    exact ⟨_, behaves_of_mirrors HI
      ((cpu_mirrors H hvalid hvalids hloops HI.safe hloaded).prepend hr₁)⟩

end

/-- The source `,[--.]`, cut between the two decrements. -/
def countdownChunks : List Chunk :=
  [⟨[',', '[', '-'].map ascii, by decide, by decide⟩, ⟨['-', '.', ']'].map ascii, by decide, by decide⟩]

theorem countdownChunks_code : patchHalt (readLoop {} countdownChunks).ctx = countdownCode := by
  decide

theorem countdownChunks_length {out : Compiled}
    (h : irCtxCompile textStart (readLoop {} countdownChunks).ctx = some out) :
    out.code.length = 70 := by
  have hlen : (irCtxCompile textStart (readLoop {} countdownChunks).ctx).map
      (fun out => out.code.length) = some 70 := by decide +kernel
  rw [h] at hlen
  exact Option.some.inj hlen

/-- The executable of `,[--.]`: the process that a loader starts from it on the input 4 writes 2 and
0 and exits. -/
theorem main_delivers_countdown : ∃ f file,
    (main (some compileOptions) (some countdownChunks) true).outFile (.asRegistered Program)
      (.asRegistered Section) 0o644 = some f ∧
    readElf (image f.file.writes) = some file ∧ ∃ k m,
      Runs Cpu.step k (execve (image f.file.writes) file [4] 0xC0000000#32) m ∧
        m.exit = some 0 ∧ m.output = [2, 0] := by
  have hwrites : Writes compileOptions true := ⟨rfl, Option.some_ne_none _, rfl⟩
  have hend : alignTo (textVaddr.toNat + 70) pageSize = 0x08049000 := by decide
  have hsize : ∀ out, irCtxCompile textStart (readLoop {} countdownChunks).ctx = some out →
      alignTo (textVaddr.toNat + out.code.length) pageSize + tapeBytes ≤ 2^32 := by
    intro out hout
    rw [countdownChunks_length hout, hend]
    decide
  obtain ⟨f, file, hdelivers⟩ := main_delivers (.asRegistered Program) (.asRegistered Section)
    0o644 hwrites (by decide) (by decide) (by decide) hsize
  obtain ⟨cur, outer, H, _, _⟩ := readLoop_shaped countdownChunks shaped_init
  obtain ⟨f', file', text, bss, hleft, haccepted, hfits, hfile⟩ :=
    main_textAndTape (.asRegistered Program) (.asRegistered Section) 0o644 hwrites (by decide) H
      (by decide) hsize
  rw [hdelivers.left, Option.some.injEq] at hleft
  subst hleft
  have hsame := hdelivers.accepted
  rw [haccepted, Option.some.injEq] at hsame
  subst hsame
  have hcompile := irCtxCompile_eq H (by decide) textStart
  rw [List.append_assoc] at hcompile
  have hlen : (textStart ++ ([0xFF, 0xF7] ++ pendingCode outer.reverse cur)).length = 70 :=
    countdownChunks_length hcompile
  have hbss : (bssVaddr (textStart ++ ([0xFF, 0xF7] ++
      pendingCode outer.reverse cur)).length).toNat = 0x08049000 := by
    rw [bssVaddr, hlen, hend]
    decide
  have hprocess := hfile.process hfits hdelivers.apart [4]
    (by rw [hbss]; decide : _ ≤ (0xC0000000#32).toNat)
  have hagrees := countdown_agreesAt
  obtain ⟨k, c, hr, hhalt, hwritten⟩ := countdown_halts
  rw [← countdownChunks_code] at hagrees hr hhalt
  obtain ⟨base, hbehaves⟩ := hdelivers.behaves [4] hagrees _ hprocess
  obtain ⟨k', m, hr', hstop⟩ := hbehaves.ends.mp ⟨k, c, hr, hhalt⟩
  obtain ⟨hexit, hout, _⟩ := hbehaves.final k c k' m hr hhalt hr' hstop
  exact ⟨_, file', hdelivers.left, hdelivers.accepted, k', m, hr', hexit, hout.trans hwritten⟩

end Bfcomp
