import Bfcomp.Compile.Agree

/-! # Whole runs of compiled code

The code of a context is a layout of its meaning, so the processor and the interpreter follow the
same executions: they halt together, and show the same streams and the same tape. -/

namespace Bfcomp
set_option autoImplicit false

open Ia32 (Cpu Holds assemble)

/-! ## The layout of the code -/

theorem layout_enc (code : List Byte) {p : Prog Prim} (hv : p.All Prim.Valid) (hfit : BodiesFit p)
    (pre post : List Byte) (h : code = pre ++ enc p ++ post) :
    Layout (PrimBytes code) (LoopBytes code) (ForkBytes code) p pre.length
      (· = (pre ++ enc p).length) := by
  induction p generalizing pre post with
  | nil => exact .nil (by rw [enc, List.append_nil])
  | prim i k ih =>
    have hk := ih hv.2 hfit (pre ++ assemble i.instrs) post (by simp [h, enc])
    refine .prim (b := (pre ++ assemble i.instrs).length)
      ⟨pre, enc k ++ post, by simp [h, enc], rfl, List.length_append, hv.1⟩ ?_
    simpa [enc] using hk
  | loop b k ihb ihk =>
    obtain ⟨hlen, hbfit, hkfit⟩ := hfit
    have hb := ihb hv.1 hbfit (pre ++ assemble (startInstrs (bodyCode (enc b)).length))
      (assemble (endInstrs (enc b).length) ++ enc k ++ post) (by simp [h, enc, bodyCode])
    have hk := ihk hv.2 hkfit
      (pre ++ assemble (startInstrs (bodyCode (enc b)).length) ++ bodyCode (enc b)) post (by simp [h, enc])
    refine .loop (b := pre.length + (assemble (startInstrs (bodyCode (enc b)).length)).length)
      (c := pre.length + (assemble (startInstrs (bodyCode (enc b)).length)).length +
        (enc b).length)
      (d := pre.length + (assemble (startInstrs (bodyCode (enc b)).length)).length +
        (bodyCode (enc b)).length)
      ⟨pre, enc b, enc k ++ post, by simp [h, enc, bodyCode], hlen, rfl, rfl, rfl, rfl⟩ ?_ ?_
    · simpa only [List.length_append] using hb
    · have e : pre ++ enc (.loop b k) =
          pre ++ assemble (startInstrs (bodyCode (enc b)).length) ++ bodyCode (enc b) ++ enc k := by
        simp [enc]
      rw [e]
      simpa only [List.length_append] using hk

/-- The segments of a context, one after the other. -/
def joined : List (Prog Prim) → Prog Prim → Prog Prim
  | [], cur => cur
  | p :: segments, cur => p ++ joined segments cur

theorem meaning_append (p q : Prog Prim) (outer : List (Prog Prim)) :
    meaning (p ++ q) outer = meaning p outer ++ q := by
  cases outer with
  | nil => rfl
  | cons r rs => rw [meaning, meaning, Prog.append_assoc]

theorem joined_reverse (outer segments : List (Prog Prim)) (cur : Prog Prim) :
    joined (outer.reverse ++ segments) cur = meaning (joined segments cur) outer := by
  induction outer generalizing segments with
  | nil => rfl
  | cons p ps ih =>
    have h := ih (p :: segments)
    simp only [List.reverse_cons, List.append_assoc, List.cons_append, List.nil_append]
    rw [h, joined, meaning_append, meaning]

theorem layout_pending (code : List Byte) {segments : List (Prog Prim)} {cur : Prog Prim}
    (hv : ∀ p ∈ segments, p.All Prim.Valid) (hcur : cur.All Prim.Valid)
    (hfit : ∀ p ∈ segments, BodiesFit p) (hcurfit : BodiesFit cur) (pre post : List Byte)
    (h : code = pre ++ pendingCode segments cur ++ post) :
    Layout (PrimBytes code) (LoopBytes code) (ForkBytes code) (joined segments cur) pre.length
      (ExitBytes code) := by
  induction segments generalizing pre post with
  | nil =>
    have henc := layout_enc code hcur hcurfit pre (assemble exitInstrs ++ post) (by simp [h, pendingCode])
    have happ := henc.append (q := .nil) (F := ExitBytes code)
      (fun b hb => .nil ⟨pre ++ enc cur, post, by simp [h, pendingCode], hb⟩)
    rwa [Prog.append_nil] at happ
  | cons p segments ih =>
    have hp := layout_enc code (hv p (by simp)) (hfit p (by simp)) pre
      (assemble (startInstrs (pendingCode segments cur).length) ++
        pendingCode segments cur ++ pendingCode segments cur ++ post) (by simp [h, pendingCode])
    have hv' : ∀ q ∈ segments, q.All Prim.Valid := fun q hq => hv q (by simp [hq])
    have hfit' : ∀ q ∈ segments, BodiesFit q := fun q hq => hfit q (by simp [hq])
    -- the rest of the program lies there twice, and the jump between the copies chooses
    have h1 := ih hv' hfit'
      (pre ++ enc p ++ assemble (startInstrs (pendingCode segments cur).length))
      (pendingCode segments cur ++ post) (by simp [h, pendingCode])
    have h2 := ih hv' hfit'
      (pre ++ enc p ++ assemble (startInstrs (pendingCode segments cur).length) ++
        pendingCode segments cur) post (by simp [h, pendingCode])
    refine hp.append ?_
    rintro _ rfl
    refine .fork ⟨pre ++ enc p, pendingCode segments cur, pendingCode segments cur ++ post,
      by simp [h, pendingCode], rfl, rfl, rfl⟩ ?_ ?_
    · simpa only [List.length_append] using h1
    · simpa only [List.length_append] using h2

/-! ## The loaded program -/

/-- The processor is about to execute `code` at `org`, with `edi` at the first cell of a zeroed
tape. Code, tape and the stack slot below `esp` do not meet. -/
structure Loaded (code input : List Byte) (org base : BitVec 32) (m : Cpu) : Prop where
  running : m.exit = none
  eip : m.eip = org
  held : Holds m.mem org code
  edi : m.regs .edi = base
  tape : ∀ j < 30000, m.mem (base + BitVec.ofNat 32 j) = 0
  input : m.input = input
  output : m.output = []
  apart : Apart code org base 30000
  stack_code : ∀ i < 4, ∀ k < code.length,
    m.regs .esp - 4 + BitVec.ofNat 32 i ≠ org + BitVec.ofNat 32 k
  stack_tape : ∀ i < 4, ∀ j < 30000,
    m.regs .esp - 4 + BitVec.ofNat 32 i ≠ base + BitVec.ofNat 32 j

theorem Loaded.prologue {rest input : List Byte} {org base : BitVec 32} {m : Cpu}
    (H : Loaded ([0xFF, 0xF7] ++ rest) input org base m) :
    ∃ m', Runs Cpu.step 1 m m' ∧
      AtByte ([0xFF, 0xF7] ++ rest) org base 30000 2 (.start input) m' := by
  have hcode : Holds m.mem m.eip (Ia32.Instr.push spReg).encode := by
    rw [H.eip]
    exact H.held.take
  have hstep := Cpu.step_of_holds (i := .push spReg) H.running trivial hcode
  refine ⟨_, .single hstep, H.running, ?_, ?_, ?_, ?_, H.input, H.output, ?_⟩
  · simp only [Cpu.setReg, Cpu.advance]
    rw [H.eip]
    rfl
  · refine H.held.congr fun k hk => ?_
    exact Ia32.storeBytes_frame _ _ fun i hi => (H.stack_code i hi k hk).symm
  · simp only [Cpu.setReg, Cpu.advance]
    rw [Function.update_of_ne (by decide), H.edi]
    exact (BitVec.add_zero base).symm
  · intro j hj
    refine (Ia32.storeBytes_frame (le32 _) _ fun i hi => (H.stack_tape i hi j hj).symm).trans ?_
    exact H.tape j hj
  · exact Store.start_onTape (by decide) input

/-- Code, tape and stack at three addresses of an otherwise empty memory. -/
def load (code input : List Byte) (org base esp : BitVec 32) : Cpu where
  regs := Function.update (Function.update (fun _ => 0) .edi base) .esp esp
  zf := false
  eip := org
  mem := fun a => code.getD (a - org).toNat 0
  input := input
  output := []
  exit := none

/-- Code below the tape and the tape below the stack. -/
theorem loaded_load {code : List Byte} (input : List Byte) (org base esp : BitVec 32)
    (hbase : org.toNat + code.length ≤ base.toNat) (hesp : base.toNat + 30004 ≤ esp.toNat) :
    Loaded code input org base (load code input org base esp) where
  running := rfl
  eip := rfl
  held := by
    intro k b hk
    have hlt := (List.getElem?_eq_some_iff.mp hk).1
    have hoff : (org + BitVec.ofNat 32 k - org).toNat = k := by bv_omega
    simp only [load, hoff, List.getD_eq_getElem?_getD, hk, Option.getD_some]
  edi := rfl
  tape := by
    intro j hj
    have hoff : code.length ≤ (base + BitVec.ofNat 32 j - org).toNat := by bv_omega
    simp only [load, List.getD_eq_getElem?_getD, List.getElem?_eq_none hoff, Option.getD_none]
  input := rfl
  output := rfl
  apart := by
    intro k hk j hj
    bv_omega
  stack_code := by
    intro i hi k hk
    have hreg : (load code input org base esp).regs .esp = esp := rfl
    rw [hreg]
    bv_omega
  stack_tape := by
    intro i hi j hj
    have hreg : (load code input org base esp).regs .esp = esp := rfl
    rw [hreg]
    bv_omega

/-! ## Agreement -/

/-- The op about to be dispatched keeps the pointer on the tape without wrapping, and reads one
byte at most. -/
def AgreesAt (code : List IrOp) (cap : ℕ) (c : Config) : Prop :=
  ∀ op, code[c.ip]? = some op →
    (op.kind = .tape → 0 ≤ c.store.ptr + op.arg ∧ c.store.ptr + op.arg < cap) ∧
    (op.kind = .read → op.arg ≤ 1 ∨ c.store.input.length ≤ 1)

instance (code : List IrOp) (cap : ℕ) : DecidablePred (AgreesAt code cap) := fun c =>
  inferInstanceAs (Decidable (∀ op ∈ code[c.ip]?, (op.kind = .tape → _) ∧ (op.kind = .read → _)))

theorem interpret_realises_single (code : List IrOp) {cap : ℕ} (hcap : cap < 2^63) :
    Realises (interpretStep code cap) (Prog.restrict singleRead () (Prim.act cap)) cellTest
      (OpAt code) (LoopOpsAt code) (PendingAt code) (AtOp cap) (fun c => ¬ AgreesAt code cap c) := by
  have H := (interpret_realises code hcap).weaken (fun c => ¬ AgreesAt code cap c) (by
    rintro c ⟨n, hop, hleave⟩ hagrees
    exact hleave ((hagrees _ hop).1 rfl))
  refine H.restrict ?_
  rintro i a b s c ⟨hop, _⟩ ⟨rfl, _⟩ hok hagrees
  cases i with
  | read n =>
    have hone := (hagrees _ hop).2 rfl
    simp only [singleRead, Bool.or_eq_false_iff, decide_eq_false_iff_not] at hok
    exact hone.elim hok.1 hok.2
  | tape n => cases hok
  | cell n => cases hok
  | write n => cases hok

/-- What the final state of the compiled program shows of a store. -/
def ShowsFinal (base : BitVec 32) (s : Store) (m : Cpu) : Prop :=
  m.exit = some 0 ∧ m.output = s.output ∧ m.input = s.input ∧
    ∀ j < 30000, m.mem (base + BitVec.ofNat 32 j) = s.cells j

section
variable {ctx : IrCtx} {cur : Prog Prim} {outer : List (Prog Prim)} {input : List Byte}

/-- The executions that both machines follow. -/
def executions (cur : Prog Prim) (outer : List (Prog Prim)) (input : List Byte) (n : ℕ) :
    Outcome Unit Store :=
  (meaning cur outer).exec (Prog.restrict singleRead () (Prim.act 30000)) cellTest n (.start input)

theorem interpret_follows (H : Represents ctx cur outer) (input : List Byte) (n : ℕ) :
    Tracks (interpretStep (patchHalt ctx) 30000) (AtOp 30000)
      (fun c => ¬ AgreesAt (patchHalt ctx) 30000 c) n ⟨0, .start input⟩ (· = ctx.data.length)
      (executions cur outer input n) :=
  interpret_tracks H (interpret_realises_single _ (by decide)) n
    (Store.start_onTape (by decide) input)

theorem interpret_mirrors (H : Represents ctx cur outer)
    (hrun : ∀ k c, Runs (interpretStep (patchHalt ctx) 30000) k ⟨0, .start input⟩ c →
      AgreesAt (patchHalt ctx) 30000 c) :
    Mirrors (interpretStep (patchHalt ctx) 30000) ⟨0, .start input⟩
      (fun s c => c.store = s ∧ Halted (patchHalt ctx) c) (fun s c => c.store = s)
      (executions cur outer input) := by
  have hsafe := not_raised_of_tracks (interpret_follows H input)
    (fun k c hr hbad => hbad (hrun k c hr))
  exact interpret_mirrors_of H (interpret_realises_single _ (by decide))
    (Store.start_onTape (by decide) input) hsafe fun _ => .refl _

theorem cpu_mirrors (H : Represents ctx cur outer) (hvalid : cur.All Prim.Valid)
    (hvalids : ∀ p ∈ outer, p.All Prim.Valid) (hloops : LoopsFit ctx.data)
    (hsafe : ∀ n, ¬ (executions cur outer input n).Raised) {org base : BitVec 32} {m : Cpu}
    (hload : Loaded ([0xFF, 0xF7] ++ pendingCode outer.reverse cur) input org base m) :
    Mirrors Cpu.step m (ShowsFinal base) (fun s m => m.output = s.output)
      (executions cur outer input) := by
  rw [H.data] at hloops
  obtain ⟨hfits, hfit⟩ := hloops.segments
  have hlayout := layout_pending ([0xFF, 0xF7] ++ pendingCode outer.reverse cur)
    (fun p hp => hvalids p (List.mem_reverse.mp hp)) hvalid
    (fun p hp => hfits p (List.mem_reverse.mp hp)) hfit [0xFF, 0xF7] [] (List.append_nil _).symm
  have hjoined := joined_reverse outer [] cur
  rw [List.append_nil, joined] at hjoined
  rw [hjoined] at hlayout
  obtain ⟨m₁, hr₁, H₁⟩ := hload.prologue
  have hrealises := cpu_realises (by decide) hload.apart
  have htracks : ∀ n, Tracks Cpu.step
      (AtByte ([0xFF, 0xF7] ++ pendingCode outer.reverse cur) org base 30000) (fun _ => True) n m
      (ExitBytes ([0xFF, 0xF7] ++ pendingCode outer.reverse cur)) (executions cur outer input n) :=
    fun n => ((hrealises.run hlayout n (.start input) m₁ H₁).prepend hr₁).weaken (by omega)
  refine .of_tracks htracks hsafe (fun a s m h => h.output) ?_
  rintro a s m' ⟨pre, post, hcode, ha⟩ H'
  obtain ⟨m₂, hr₂, hexit, hmem, hin, hout⟩ := exit_runs H'.running (H'.at pre post hcode ha)
  refine ⟨3, m₂, hr₂, ?_, hexit, by rw [hout, H'.output], by rw [hin, H'.input], ?_⟩
  · unfold Cpu.step
    rw [hexit]
    rfl
  · rw [hmem]
    exact H'.tape

end

/-- The compiled program and the interpreter, on a parsed source whose operands fit the
instructions and whose loops can be jumped over, and on an input on which every dispatched op keeps
the pointer on the tape and reads one byte at most: they halt together, with the same output, the
same input left and the same tape, and what one has written the other comes to write. -/
theorem compile_agrees (calls : List CString) (input : List Byte)
    (hoperands : OperandsFit (parseCalls calls).data) (hloops : LoopsFit (parseCalls calls).data)
    (hrun : ∀ k c, Runs (interpretStep (patchHalt (parseCalls calls)) 30000) k ⟨0, .start input⟩ c →
      AgreesAt (patchHalt (parseCalls calls)) 30000 c) :
    ∃ out, irCtxCompile [] (parseCalls calls) = some out ∧ out.err = .ok ∧
      ∀ org base m₀, Loaded out.code input org base m₀ →
        ((∃ k c, Runs (interpretStep (patchHalt (parseCalls calls)) 30000) k ⟨0, .start input⟩ c ∧
            Halted (patchHalt (parseCalls calls)) c) ↔
          ∃ k m, Runs Cpu.step k m₀ m ∧ m.exit ≠ none) ∧
        (∀ k c k' m,
          Runs (interpretStep (patchHalt (parseCalls calls)) 30000) k ⟨0, .start input⟩ c →
          Halted (patchHalt (parseCalls calls)) c → Runs Cpu.step k' m₀ m → m.exit ≠ none →
          m.exit = some 0 ∧ m.output = c.store.output ∧ m.input = c.store.input ∧
            ∀ j < 30000, m.mem (base + BitVec.ofNat 32 j) = c.store.cells j) ∧
        (∀ k c, Runs (interpretStep (patchHalt (parseCalls calls)) 30000) k ⟨0, .start input⟩ c →
          ∃ k' m, Runs Cpu.step k' m₀ m ∧ c.store.output <+: m.output) ∧
        ∀ k' m, Runs Cpu.step k' m₀ m →
          ∃ k c, Runs (interpretStep (patchHalt (parseCalls calls)) 30000) k ⟨0, .start input⟩ c ∧
            m.output <+: c.store.output := by
  obtain ⟨cur, outer, H, hvalid, hvalids⟩ := shaped_parseCalls calls
  refine ⟨_, irCtxCompile_eq H hoperands [], rfl, ?_⟩
  intro org base m₀ hload
  have HI := interpret_mirrors H hrun
  have HC := cpu_mirrors H hvalid hvalids hloops HI.safe hload
  have hstop : ∀ m : Cpu, m.exit ≠ none → m.step = none := by
    intro m hm
    unfold Cpu.step
    rw [if_pos (Option.isSome_iff_ne_none.mpr hm)]
  refine ⟨⟨?_, ?_⟩, ?_, ?_, ?_⟩
  · rintro ⟨k, c, hr, hhalt⟩
    obtain ⟨s, hs, _⟩ := HI.done_of_stops hr hhalt.step_none (Nat.lt_succ_self k)
    obtain ⟨k', m, hr', _, hf⟩ := HC.done _ s hs
    exact ⟨k', m, hr', by rw [hf.1]; nofun⟩
  · rintro ⟨k, m, hr, hexit⟩
    obtain ⟨s, hs, _⟩ := HC.done_of_stops hr (hstop m hexit) (Nat.lt_succ_self k)
    obtain ⟨k', c, hr', _, hf⟩ := HI.done _ s hs
    exact ⟨k', c, hr', hf.2⟩
  · intro k c k' m hr hhalt hr' hexit
    obtain ⟨s, ⟨rfl, _⟩, hf⟩ := HI.agree HC hr hhalt.step_none hr' (hstop m hexit)
    exact hf
  · intro k c hr
    exact HI.puts_out (fun c : Config => c.store.output) Cpu.output Store.output HC
      (fun _ _ _ h => interpret_output_mono h) (fun s c h => by rw [h.1]) (fun s c h => by rw [h])
      (fun s m h => h.2.1) (fun s m h => h) hr
  · intro k' m hr
    exact HC.puts_out Cpu.output (fun c : Config => c.store.output) Store.output HI
      (fun _ _ _ h => Ia32.runs_output h) (fun s m h => h.2.1) (fun s m h => h)
      (fun s c h => by rw [h.1]) (fun s c h => by rw [h]) hr

def countdownText : CString := ⟨[',', '[', '-', '-', '.', ']'].map ascii, by decide, by decide⟩

theorem countdown_code : patchHalt (parseCalls [countdownText]) = countdownCode := by decide

theorem countdown_agreesAt (k : ℕ) (c : Config)
    (hr : Runs (interpretStep countdownCode 30000) k ⟨0, .start [4]⟩ c) :
    AgreesAt countdownCode 30000 c := by
  have H : StopsAlong (interpretStep countdownCode 30000) (AgreesAt countdownCode 30000) 9
      ⟨0, .start [4]⟩ := by
    decide +kernel
  exact H.of_runs hr

/-- On the input 4 both machines end, and each has written 2 and 0. -/
theorem compile_agrees_countdown : ∃ out, irCtxCompile [] (parseCalls [countdownText]) = some out ∧
    ∃ k c k' m, Runs (interpretStep (patchHalt (parseCalls [countdownText])) 30000) k
        ⟨0, .start [4]⟩ c ∧ Halted (patchHalt (parseCalls [countdownText])) c ∧
      Runs Cpu.step k' (load out.code [4] 0x08048000#32 0x08049000#32 0xC0000000#32) m ∧
      m.exit = some 0 ∧ c.store.output = [2, 0] ∧ m.output = [2, 0] := by
  have hagrees := countdown_agreesAt
  rw [← countdown_code] at hagrees
  obtain ⟨out, hout, _, h⟩ := compile_agrees [countdownText] [4] (by decide) (by decide) hagrees
  have hlen : (irCtxCompile [] (parseCalls [countdownText])).map (fun out => out.code.length) =
      some 65 := by decide +kernel
  rw [hout, Option.map_some, Option.some.injEq] at hlen
  have hload : Loaded out.code [4] 0x08048000#32 0x08049000#32 _ :=
    loaded_load [4] _ _ 0xC0000000#32 (by rw [hlen]; decide) (by decide)
  obtain ⟨hends, hfinal, _⟩ := h _ _ _ hload
  obtain ⟨k, c, hr, hhalt, hwritten⟩ := countdown_halts
  rw [← countdown_code] at hr hhalt
  obtain ⟨k', m, hr', hexit⟩ := hends.mp ⟨k, c, hr, hhalt⟩
  obtain ⟨hzero, hsame, _⟩ := hfinal k c k' m hr hhalt hr' hexit
  exact ⟨out, hout, k, c, k', m, hr, hhalt, hr', hzero, hwritten, hsame.trans hwritten⟩

def readsText : CString := ⟨[ascii ',', ascii ','], by decide, by decide⟩

/-- `,,` on two bytes: the interpreter reads both, the compiled program reads one. -/
theorem compile_agrees_reads : (irCtxParse {} readsText).status = 0 ∧
    (∀ k c, Runs (interpretStep (patchHalt (parseCalls [readsText])) 30000) k
      ⟨0, .start [1, 2]⟩ c → c.store.OnTape 30000) ∧
    ∃ out org base m₀ k c k' m, irCtxCompile [] (parseCalls [readsText]) = some out ∧
      Loaded out.code [1, 2] org base m₀ ∧
      Runs (interpretStep (patchHalt (parseCalls [readsText])) 30000) k ⟨0, .start [1, 2]⟩ c ∧
      Halted (patchHalt (parseCalls [readsText])) c ∧ Runs Cpu.step k' m₀ m ∧ m.exit = some 0 ∧
      c.store.input = [] ∧ m.input = [2] := by
  have hcode : patchHalt (parseCalls [readsText]) = [⟨.read, 2⟩, ⟨.max, 0⟩] := by decide
  have hcomp : irCtxCompile [] (parseCalls [readsText]) =
      some ⟨.ok, [0xFF, 0xF7] ++ (assemble (transferInstrs 3 0) ++ assemble exitInstrs), []⟩ := by
    decide
  have hload : Loaded ([0xFF, 0xF7] ++ (assemble (transferInstrs 3 0) ++ assemble exitInstrs))
      [1, 2] 0x08048000#32 0x08049000#32 _ :=
    loaded_load [1, 2] _ _ 0xC0000000#32 (by decide) (by decide)
  rw [hcode]
  refine ⟨by decide, ?_, ?_⟩
  · intro k c hr
    refine hr.invariant (P := fun c => c.store.OnTape 30000) ?_ (Store.start_onTape (by decide) _)
    intro c c' hc hstep
    unfold Store.OnTape at hc ⊢
    cases hop : ([⟨.read, 2⟩, ⟨.max, 0⟩] : List IrOp)[c.ip]? with
    | none => simp [interpretStep, hop] at hstep
    | some op =>
      rw [interpretStep_ptr hop hstep, if_neg]
      · exact hc
      · intro hk
        have hmem := List.mem_of_getElem? hop
        simp only [List.mem_cons, List.not_mem_nil, or_false] at hmem
        rcases hmem with rfl | rfl <;> cases hk
  · obtain ⟨m₁, hr₁, H₁⟩ := hload.prologue
    have R := read_runs H₁.running (H₁.at [0xFF, 0xF7] (assemble exitInstrs) rfl rfl)
    have hin : m₁.input = [1, 2] := H₁.input
    rw [hin] at R
    obtain ⟨hheld, htape⟩ := H₁.store (by decide) hload.apart 1
    obtain ⟨m₂, hr₂, H₂⟩ := H₁.reaches (b := 21)
      (t := { (Store.start [1, 2]).setCell 1 with input := [2] }) R rfl hheld H₁.edi htape rfl
      H₁.output H₁.onTape
    obtain ⟨m₃, hr₃, hexit, _, hleft, _⟩ := exit_runs H₂.running
      (H₂.at ([0xFF, 0xF7] ++ assemble (transferInstrs 3 0)) [] rfl rfl)
    refine ⟨_, _, _, _, 1, _, 1 + 5 + 3, m₃, hcomp, hload, ⟨_, rfl, rfl⟩, ⟨0, rfl⟩,
      (hr₁.trans hr₂).trans hr₃, hexit, rfl, ?_⟩
    rw [hleft, H₂.input]

end Bfcomp
