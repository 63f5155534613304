import Bfcomp.Compile.Layout
import Bfcomp.Compile.Size
import Bfcomp.Interpret.Meaning

/-! # Compiled code agrees with the interpreter

Both machines realise the meaning of the context, as long as no move leaves the tape and no `READ`
stands for more than one transfer: `emit_code_read` drops the count that `emit_code_write` obeys. -/

namespace Bfcomp
set_option autoImplicit false

open Ia32 (Cpu Holds assemble)

/-! ## The processor at a code position -/

/-- The processor is about to execute the code at offset `a`; `edi` and the tape in memory hold the
store. -/
structure AtByte (code : List Byte) (org base : BitVec 32) (cap a : ℕ) (s : Store) (m : Cpu) :
    Prop where
  running : m.exit = none
  eip : m.eip = org + BitVec.ofNat 32 a
  held : Holds m.mem org code
  edi : m.regs .edi = base + BitVec.ofNat 32 s.ptr.toNat
  tape : ∀ j < cap, m.mem (base + BitVec.ofNat 32 j) = s.cells j
  input : m.input = s.input
  output : m.output = s.output
  onTape : s.OnTape cap

def PrimBytes (code : List Byte) (i : Prim) (a b : ℕ) : Prop :=
  ∃ pre post, code = pre ++ assemble i.instrs ++ post ∧ a = pre.length ∧
    b = pre.length + (assemble i.instrs).length ∧ i.Valid

def LoopBytes (code : List Byte) (a b c d : ℕ) : Prop :=
  ∃ pre body post, code = pre ++ assemble (startInstrs (bodyCode body).length) ++
      (body ++ assemble (endInstrs body.length)) ++ post ∧ body.length + 5 ≤ 2^31 ∧
    a = pre.length ∧ b = a + (assemble (startInstrs (bodyCode body).length)).length ∧
    c = b + body.length ∧ d = b + (bodyCode body).length

def ForkBytes (code : List Byte) (a b b' : ℕ) : Prop :=
  ∃ pre body post, code = pre ++ assemble (startInstrs body.length) ++ body ++ post ∧
    a = pre.length ∧ b = a + (assemble (startInstrs body.length)).length ∧ b' = b + body.length

def ExitBytes (code : List Byte) (a : ℕ) : Prop :=
  ∃ pre post, code = pre ++ assemble exitInstrs ++ post ∧ a = pre.length

/-- Code and tape share no address. -/
def Apart (code : List Byte) (org base : BitVec 32) (cap : ℕ) : Prop :=
  ∀ k < code.length, ∀ j < cap, org + BitVec.ofNat 32 k ≠ base + BitVec.ofNat 32 j

section
variable {code : List Byte} {org base : BitVec 32} {cap a b : ℕ} {s t : Store} {m : Cpu}

theorem AtByte.ptr_lt (H : AtByte code org base cap a s m) : s.ptr.toNat < cap := by
  obtain ⟨h0, h1⟩ := H.onTape
  omega

theorem AtByte.cell (H : AtByte code org base cap a s m) : m.mem (m.regs .edi) = s.cell := by
  rw [H.edi, H.tape _ H.ptr_lt]
  rfl

theorem AtByte.at (H : AtByte code org base cap a s m) (pre : List Byte) {bytes : List Byte}
    (post : List Byte) (hcode : code = pre ++ bytes ++ post) (ha : a = pre.length) : Holds m.mem m.eip bytes := by
  have hheld := H.held
  rw [hcode] at hheld
  rw [H.eip, ha]
  exact hheld.window

/-- What the processor reaches without touching the code is a code position again. -/
theorem AtByte.reaches (H : AtByte code org base cap a s m) {k : ℕ} {len edi : BitVec 32}
    {mem : BitVec 32 → Byte} {input output : List Byte}
    (R : Reaches k m len edi mem input output)
    (hlen : BitVec.ofNat 32 b = BitVec.ofNat 32 a + len) (hheld : Holds mem org code)
    (hedi : edi = base + BitVec.ofNat 32 t.ptr.toNat)
    (htape : ∀ j < cap, mem (base + BitVec.ofNat 32 j) = t.cells j) (hinput : input = t.input)
    (houtput : output = t.output) (hon : t.OnTape cap) :
    ∃ m', Runs Cpu.step k m m' ∧ AtByte code org base cap b t m' := by
  obtain ⟨m', hr, hexit, heip, hi, hm, hin, hout⟩ := R
  refine ⟨m', hr, hexit, ?_, ?_, ?_, ?_, ?_, ?_, hon⟩
  · rw [heip, H.eip, hlen, BitVec.add_assoc]
  · rw [hm]
    exact hheld
  · rw [hi, hedi]
  · rw [hm]
    exact htape
  · rw [hin, hinput]
  · rw [hout, houtput]

theorem tape_injective (hcap : cap ≤ 2^32) {i j : ℕ} (hi : i < cap) (hj : j < cap)
    (h : base + BitVec.ofNat 32 i = base + BitVec.ofNat 32 j) : i = j := by
  have hij : BitVec.ofNat 32 i = BitVec.ofNat 32 j := (BitVec.add_right_inj base).mp h
  have hnat := congrArg BitVec.toNat hij
  rw [BitVec.toNat_ofNat, BitVec.toNat_ofNat, Nat.mod_eq_of_lt (by omega),
    Nat.mod_eq_of_lt (by omega)] at hnat
  exact hnat

/-- A byte stored through `edi` changes the cell under the pointer. -/
theorem AtByte.store (H : AtByte code org base cap a s m) (hcap : cap ≤ 2^32)
    (hapart : Apart code org base cap) (v : Byte) :
    Holds (Function.update m.mem (m.regs .edi) v) org code ∧
      ∀ j < cap, Function.update m.mem (m.regs .edi) v (base + BitVec.ofNat 32 j) =
        (s.setCell v).cells j := by
  constructor
  · refine H.held.congr fun k hk => ?_
    rw [Function.update_of_ne]
    rw [H.edi]
    exact hapart k hk _ H.ptr_lt
  · intro j hj
    rw [Store.setCell_cells]
    by_cases hjp : j = s.ptr.toNat
    · rw [hjp, H.edi, Function.update_self, Function.update_self]
    · rw [Function.update_of_ne hjp, ← H.tape j hj, Function.update_of_ne]
      rw [H.edi]
      exact fun heq => hjp (tape_injective hcap hj H.ptr_lt heq)

/-! ## Primitives -/

theorem AtByte.tape_op (H : AtByte code org base cap a s m) {n : ℤ}
    (hp : PrimBytes code (.tape n) a b) (hmove : 0 ≤ s.ptr + n ∧ s.ptr + n < cap) :
    ∃ k m', Runs Cpu.step k m m' ∧
      AtByte code org base cap b { s with ptr := s.ptr + n } m' := by
  obtain ⟨pre, post, hcode, ha, hb, _⟩ := hp
  obtain ⟨k, R⟩ := tapeInstrs_runs n H.running (H.at pre post hcode ha)
  have hptr : BitVec.ofNat 32 s.ptr.toNat + int32 n = BitVec.ofNat 32 (s.ptr + n).toNat := by
    obtain ⟨h0, _⟩ := H.onTape
    rw [← int32_natCast, ← int32_natCast, ← int32_add, Int.toNat_of_nonneg h0,
      Int.toNat_of_nonneg hmove.1]
  refine ⟨k, H.reaches R ?_ H.held ?_ H.tape H.input H.output hmove⟩
  · rw [hb, ha, BitVec.ofNat_add]
    rfl
  · rw [H.edi, BitVec.add_assoc, hptr]

theorem AtByte.cell_op (H : AtByte code org base cap a s m) (hcap : cap ≤ 2^32)
    (hapart : Apart code org base cap) {n : ℤ} (hp : PrimBytes code (.cell n) a b) :
    ∃ k m', Runs Cpu.step k m m' ∧
      AtByte code org base cap b (s.setCell (s.cell + BitVec.ofInt 8 n)) m' := by
  obtain ⟨pre, post, hcode, ha, hb, _⟩ := hp
  obtain ⟨k, R⟩ := cellInstrs_runs n H.running (H.at pre post hcode ha)
  rw [H.cell] at R
  obtain ⟨hheld, htape⟩ := H.store hcap hapart (s.cell + int8 n)
  refine ⟨k, H.reaches R ?_ hheld H.edi htape H.input H.output H.onTape⟩
  rw [hb, ha, BitVec.ofNat_add]
  rfl

theorem AtByte.writes (n : ℕ) {pre post : List Byte}
    (H : AtByte code org base cap pre.length s m)
    (hcode : code = pre ++ assemble (List.replicate n (transferInstrs 4 1)).flatten ++ post) :
    ∃ k m', Runs Cpu.step k m m' ∧ AtByte code org base cap
      (pre.length + (assemble (List.replicate n (transferInstrs 4 1)).flatten).length)
      (Store.writeByte^[n] s) m' := by
  induction n generalizing pre s m with
  | zero => exact ⟨0, m, .refl m, H⟩
  | succ n ih =>
    rw [List.replicate_succ, List.flatten_cons, Ia32.assemble_append] at hcode ⊢
    have R := write_runs H.running
      (H.at pre (assemble (List.replicate n (transferInstrs 4 1)).flatten ++ post)
        (by simp [hcode]) rfl)
    rw [H.cell, H.output] at R
    obtain ⟨m₁, hr, H₁⟩ := H.reaches (b := (pre ++ assemble (transferInstrs 4 1)).length)
      (t := s.writeByte) R (by rw [List.length_append, BitVec.ofNat_add]) H.held H.edi H.tape
      H.input rfl H.onTape
    obtain ⟨k, m', hr', H'⟩ := ih H₁ (by simp [hcode])
    refine ⟨5 + k, m', hr.trans hr', ?_⟩
    rw [Function.iterate_succ_apply]
    have hpos : pre.length + (assemble (transferInstrs 4 1) ++
        assemble (List.replicate n (transferInstrs 4 1)).flatten).length =
        (pre ++ assemble (transferInstrs 4 1)).length +
          (assemble (List.replicate n (transferInstrs 4 1)).flatten).length := by
      simp only [List.length_append]
      omega
    rw [hpos]
    exact H'

theorem AtByte.read_op (H : AtByte code org base cap a s m) (hcap : cap ≤ 2^32)
    (hapart : Apart code org base cap) {n : ℤ} (hp : PrimBytes code (.read n) a b)
    (hone : n ≤ 1 ∨ s.input.length ≤ 1) :
    ∃ k m', Runs Cpu.step k m m' ∧
      AtByte code org base cap b (Store.readByte^[n.toNat] s) m' := by
  obtain ⟨pre, post, hcode, ha, hb, hvalid⟩ := hp
  have hn : 1 ≤ n := hvalid
  have R := read_runs H.running (H.at pre post hcode ha)
  have hlen : BitVec.ofNat 32 b = BitVec.ofNat 32 a + BitVec.ofNat 32
      (assemble (transferInstrs 3 0)).length := by
    rw [hb, ha, BitVec.ofNat_add]
    rfl
  rw [Store.readByte_iterate_once (n := n.toNat) (by omega)
    (hone.imp (fun h => by omega) id)]
  rw [H.input] at R
  unfold Store.readByte
  cases hin : s.input with
  | nil =>
    rw [hin] at R
    exact ⟨5, H.reaches R hlen H.held H.edi H.tape hin.symm H.output H.onTape⟩
  | cons v rest =>
    rw [hin] at R
    obtain ⟨hheld, htape⟩ := H.store hcap hapart v
    exact ⟨5, H.reaches (t := { s.setCell v with input := rest }) R hlen hheld H.edi htape rfl
      H.output H.onTape⟩

/-- The opening jump goes past the `size` bytes it guards when the cell is zero, else into them. -/
theorem AtByte.starts (H : AtByte code org base cap a s m) (pre post : List Byte) (size : ℕ)
    (hcode : code = pre ++ assemble (startInstrs size) ++ post) (ha : a = pre.length) :
    ∃ m', Runs Cpu.step 2 m m' ∧ AtByte code org base cap
      (a + (assemble (startInstrs size)).length + if s.cell = 0 then size else 0) s m' := by
  have R := startInstrs_runs size H.running (H.at pre post hcode ha)
  rw [H.cell] at R
  refine H.reaches R ?_ H.held H.edi H.tape H.input H.output H.onTape
  split
  · simp only [BitVec.ofNat_add, BitVec.add_assoc]
  · rw [Nat.add_zero, BitVec.ofNat_add]
    exact congrArg _ (BitVec.add_zero _).symm

/-- The closing jump goes on when the cell is zero, else back over a body of `len` bytes. -/
theorem AtByte.ends (H : AtByte code org base cap a s m) (pre post : List Byte) {len : ℕ}
    (hlen : len + 5 ≤ 2^31) (hcode : code = pre ++ assemble (endInstrs len) ++ post)
    (ha : a = pre.length) (hb : a = b + len) :
    ∃ m', Runs Cpu.step 2 m m' ∧ AtByte code org base cap
      (if s.cell = 0 then a + (assemble (endInstrs len)).length else b) s m' := by
  have R := endInstrs_runs hlen H.running (H.at pre post hcode ha)
  rw [H.cell] at R
  refine H.reaches R ?_ H.held H.edi H.tape H.input H.output H.onTape
  split
  · exact BitVec.ofNat_add _ _
  · rw [hb, BitVec.ofNat_add, BitVec.add_assoc, ← BitVec.sub_eq_add_neg, BitVec.sub_self,
      BitVec.add_zero]

/-- A `READ` has at most one byte to transfer. -/
def singleRead : Prim → Store → Bool
  | .read n, s => decide (n ≤ 1) || decide (s.input.length ≤ 1)
  | _, _ => true

theorem AtByte.prim_op (H : AtByte code org base cap a s m) (hcap : cap ≤ 2^32)
    (hapart : Apart code org base cap) {i : Prim} (hp : PrimBytes code i a b)
    (hok : singleRead i s = true) (hact : Prim.act cap i s = .ok t) :
    ∃ k m', Runs Cpu.step k m m' ∧ AtByte code org base cap b t m' := by
  cases i with
  | tape n =>
    obtain ⟨hn, rfl⟩ := Prim.act_tape hact
    exact H.tape_op hp hn
  | cell n =>
    cases hact
    exact H.cell_op hcap hapart hp
  | write n =>
    cases hact
    obtain ⟨pre, post, hcode, rfl, rfl, _⟩ := hp
    exact H.writes n.toNat hcode
  | read n =>
    cases hact
    refine H.read_op hcap hapart hp ?_
    simpa [singleRead] using hok

/-- The processor realises the meaning of a program, `READ`s of several bytes apart. -/
theorem cpu_realises (hcap : cap ≤ 2^32) (hapart : Apart code org base cap) :
    Realises Cpu.step (Prog.restrict singleRead () (Prim.act cap)) cellTest (PrimBytes code)
      (LoopBytes code) (ForkBytes code) (AtByte code org base cap) (fun _ => True) where
  prim_ok := by
    intro i a b s t m hp H hact
    unfold Prog.restrict at hact
    split at hact
    · exact H.prim_op hcap hapart hp ‹_› hact
    · cases hact
  prim_error := fun _ _ _ => trivial
  open_error := fun _ _ h => by cases h
  close_error := fun _ _ h => by cases h
  enter := by
    rintro a b c d s m ⟨pre, body, post, hcode, _, ha, hb, hc, hd⟩ H ht
    obtain ⟨m', hr, H'⟩ := H.starts pre (bodyCode body ++ post) (bodyCode body).length
      (by simp [hcode, bodyCode]) ha
    rw [if_neg (cellTest_true ht), Nat.add_zero, ← hb] at H'
    exact ⟨2, m', by omega, hr, H'⟩
  skip := by
    rintro a b c d s m ⟨pre, body, post, hcode, _, ha, hb, hc, hd⟩ H ht
    obtain ⟨m', hr, H'⟩ := H.starts pre (bodyCode body ++ post) (bodyCode body).length
      (by simp [hcode, bodyCode]) ha
    rw [if_pos (cellTest_false ht), ← hb, ← hd] at H'
    exact ⟨2, m', hr, H'⟩
  again := by
    rintro a b c d s m ⟨pre, body, post, hcode, hlen, ha, hb, hc, hd⟩ H ht
    obtain ⟨m', hr, H'⟩ := H.ends (pre ++ assemble (startInstrs (bodyCode body).length) ++ body)
      post hlen (by simp [hcode]) (by rw [hc, hb, ha, List.length_append, List.length_append]) hc
    rw [if_neg (cellTest_true ht)] at H'
    exact ⟨2, m', by omega, hr, H'⟩
  leave := by
    rintro a b c d s m ⟨pre, body, post, hcode, hlen, ha, hb, hc, hd⟩ H ht
    obtain ⟨m', hr, H'⟩ := H.ends (pre ++ assemble (startInstrs (bodyCode body).length) ++ body)
      post hlen (by simp [hcode]) (by rw [hc, hb, ha, List.length_append, List.length_append]) hc
    have hend : c + (assemble (endInstrs body.length)).length = d := by
      rw [hd, hc, bodyCode, List.length_append, Nat.add_assoc]
    rw [if_pos (cellTest_false ht), hend] at H'
    exact ⟨2, m', hr, H'⟩
  fork := by
    rintro a b b' s m ⟨pre, body, post, hcode, ha, hb, hb'⟩ H
    obtain ⟨m', hr, H'⟩ := H.starts pre (body ++ post) body.length (by simp [hcode]) ha
    rw [← hb] at H'
    refine ⟨2, m', hr, ?_⟩
    by_cases hz : s.cell = 0
    · rw [if_pos hz, ← hb'] at H'
      exact .inr H'
    · rw [if_neg hz, Nat.add_zero] at H'
      exact .inl H'

end
end Bfcomp
