import Bfcomp.Compile.Code

/-! # What the emitted instructions do

One lemma for each sequence the emitter writes, over any processor state that holds the bytes at
`eip`. -/

namespace Bfcomp
set_option autoImplicit false

open Ia32 (Cpu Instr Holds assemble)

/-! ## Words -/

section
variable {x : ℤ}

theorem int8_toInt (lo : -128 ≤ x) (hi : x < 128) : (int8 x).toInt = x := by
  rw [int8, BitVec.toInt_ofInt]
  exact Int.bmod_eq_of_le (by omega) (by omega)

theorem int32_toInt (lo : -2^31 ≤ x) (hi : x < 2^31) : (int32 x).toInt = x := by
  rw [int32, BitVec.toInt_ofInt]
  exact Int.bmod_eq_of_le (by omega) (by omega)

theorem int8_signExtend (lo : -128 ≤ x) (hi : x < 128) : (int8 x).signExtend 32 = int32 x := by
  rw [BitVec.signExtend, int8_toInt lo hi, int32]

theorem int32_setWidth (x : ℤ) : (int32 x).setWidth 8 = int8 x := by
  apply BitVec.eq_of_toNat_eq
  rw [BitVec.toNat_setWidth, int32, int8, BitVec.toNat_ofInt, BitVec.toNat_ofInt]
  omega

theorem int32_natCast (n : ℕ) : int32 n = BitVec.ofNat 32 n := BitVec.ofInt_natCast 32 n

theorem int32_neg (x : ℤ) : int32 (-x) = -int32 x := BitVec.ofInt_neg

theorem int8_neg (x : ℤ) : int8 (-x) = -int8 x := BitVec.ofInt_neg

theorem int32_add (x y : ℤ) : int32 (x + y) = int32 x + int32 y := BitVec.ofInt_add x y

end

/-! ## Effects -/

/-- From `m` the processor runs `k` steps over `len` bytes of code to a state with the given `edi`,
memory and streams. -/
def Reaches (k : ℕ) (m : Cpu) (len : BitVec 32) (edi : BitVec 32) (mem : BitVec 32 → Byte)
    (input output : List Byte) : Prop :=
  ∃ m', Runs Cpu.step k m m' ∧ m'.exit = none ∧ m'.eip = m.eip + len ∧ m'.regs .edi = edi ∧
    m'.mem = mem ∧ m'.input = input ∧ m'.output = output

section
variable {m : Cpu}

theorem Reaches.refl (hrun : m.exit = none) :
    Reaches 0 m 0 (m.regs .edi) m.mem m.input m.output :=
  ⟨m, .refl m, hrun, (BitVec.add_zero m.eip).symm, rfl, rfl, rfl, rfl⟩

theorem runs_single {i : Instr} {m' : Cpu} (hrun : m.exit = none) (hi : i.Encodable)
    (hcode : Holds m.mem m.eip (assemble [i])) (hx : i.exec (m.advance i.encode.length) = some m') :
    Runs Cpu.step 1 m m' := by
  have hheld : Holds m.mem m.eip i.encode := by simpa using hcode
  exact .single ((Cpu.step_of_holds hrun hi hheld).trans hx)

/-! ## Additions -/

theorem tapeInstrs_runs (n : ℤ) (hrun : m.exit = none)
    (hcode : Holds m.mem m.eip (assemble (tapeInstrs n))) :
    ∃ k, Reaches k m (BitVec.ofNat 32 (assemble (tapeInstrs n)).length) (m.regs .edi + int32 n)
      m.mem m.input m.output := by
  have hone : ∀ i : Instr, i.Encodable → tapeInstrs n = [i] →
      i.exec (m.advance i.encode.length) =
        some ((m.advance i.encode.length).setResult .edi (m.regs .edi + int32 n)) →
      ∃ k, Reaches k m (BitVec.ofNat 32 (assemble (tapeInstrs n)).length)
        (m.regs .edi + int32 n) m.mem m.input m.output := by
    intro i hi heq hx
    rw [heq] at hcode ⊢
    refine ⟨1, _, runs_single hrun hi hcode hx, hrun, ?_, ?_, rfl, rfl, rfl⟩
    · simp [Cpu.setResult, Cpu.setReg, Cpu.advance]
    · simp [Cpu.setResult, Cpu.setReg]
  by_cases h0 : n = 0
  · rw [h0]
    have hz : int32 0 = 0#32 := rfl
    rw [hz, BitVec.add_zero]
    exact ⟨0, .refl hrun⟩
  by_cases h1 : n = 1
  · exact hone (.inc .edi) trivial (by simp [tapeInstrs, h1]) (by rw [h1]; rfl)
  by_cases hm : n = -1
  · refine hone (.dec .edi) trivial (by simp [tapeInstrs, hm]) ?_
    rw [hm, int32_neg, ← BitVec.sub_eq_add_neg]
    rfl
  by_cases hp : n > 0
  · by_cases hs : n ≤ int8Max
    · refine hone (.addImm8 .edi (int8 n)) trivial (by simp [tapeInstrs, h0, h1, hm, hp, hs]) ?_
      simp only [int8Max] at hs
      simp only [Instr.exec, int8_signExtend (x := n) (by omega) (by omega)]
      rfl
    · exact hone (.addImm32 .edi (int32 n)) trivial (by simp [tapeInstrs, h0, h1, hm, hp, hs]) rfl
  · by_cases hs : -n ≤ int8Max
    · refine hone (.subImm8 .edi (int8 (-n))) trivial
        (by simp [tapeInstrs, h0, h1, hm, hp, hs]) ?_
      simp only [int8Max] at hs
      simp only [Instr.exec, int8_signExtend (x := -n) (by omega) (by omega), int32_neg,
        BitVec.sub_eq_add_neg, BitVec.neg_neg]
      rfl
    · refine hone (.subImm32 .edi (int32 (-n))) trivial
        (by simp [tapeInstrs, h0, h1, hm, hp, hs]) ?_
      simp only [Instr.exec, int32_neg, BitVec.sub_eq_add_neg, BitVec.neg_neg]
      rfl

theorem reaches_byte {i : Instr} {v : Byte} (hrun : m.exit = none) (hi : i.Encodable)
    (hcode : Holds m.mem m.eip (assemble [i]))
    (hx : i.exec (m.advance i.encode.length) =
      some ((m.advance i.encode.length).setByte (m.regs .edi) v)) :
    Reaches 1 m (BitVec.ofNat 32 (assemble [i]).length) (m.regs .edi)
      (Function.update m.mem (m.regs .edi) v) m.input m.output := by
  refine ⟨_, runs_single hrun hi hcode hx, hrun, ?_, rfl, rfl, rfl, rfl⟩
  simp [Cpu.setByte, Cpu.advance]

theorem reaches_byte_al {w : BitVec 32} {i : Instr} {v : Byte} (hrun : m.exit = none)
    (hi : i.Encodable) (hcode : Holds m.mem m.eip (assemble [.movModRm .eax w, i]))
    (hx : ∀ m₁ : Cpu, m₁.regs .eax = w → m₁.mem = m.mem → m₁.regs .edi = m.regs .edi →
      i.exec m₁ = some (m₁.setByte (m.regs .edi) v)) :
    Reaches 2 m (BitVec.ofNat 32 (assemble [.movModRm .eax w, i]).length) (m.regs .edi)
      (Function.update m.mem (m.regs .edi) v) m.input m.output := by
  have hexec : Ia32.execs m ([.movModRm .eax w] ++ [i]) =
      some ((((m.advance (Instr.movModRm .eax w).encode.length).setReg .eax w).advance
        i.encode.length).setByte (m.regs .edi) v) := by
    simp only [List.cons_append, List.nil_append, Ia32.execs, Instr.exec_movModRm,
      Option.bind_some]
    rw [hx _ (by simp [Cpu.setReg, Cpu.advance]) (by simp [Cpu.setReg, Cpu.advance])
      (by simp [Cpu.setReg, Cpu.advance])]
    rfl
  have hr := Ia32.runs_block [.movModRm .eax w] i hrun (by simp [Instr.RegOnly])
    (by
      intro j hj
      simp only [List.cons_append, List.nil_append, List.mem_cons, List.not_mem_nil,
        or_false] at hj
      rcases hj with rfl | rfl
      · trivial
      · exact hi) hcode hexec
  refine ⟨_, hr, hrun, ?_, ?_, ?_, rfl, rfl⟩
  · simp [Cpu.setByte, Cpu.setReg, Cpu.advance, BitVec.ofNat_add, BitVec.add_assoc]
  · simp [Cpu.setByte, Cpu.setReg, Cpu.advance]
  · simp [Cpu.setByte, Cpu.setReg, Cpu.advance]

theorem cellInstrs_runs (n : ℤ) (hrun : m.exit = none)
    (hcode : Holds m.mem m.eip (assemble (cellInstrs n))) :
    ∃ k, Reaches k m (BitVec.ofNat 32 (assemble (cellInstrs n)).length) (m.regs .edi)
      (Function.update m.mem (m.regs .edi) (m.mem (m.regs .edi) + int8 n)) m.input m.output := by
  have hind : Ia32.Reg.Indirect .edi := by decide
  by_cases h0 : n = 0
  · rw [h0]
    have hz : int8 0 = 0#8 := rfl
    rw [hz, BitVec.add_zero, Function.update_eq_self]
    exact ⟨0, .refl hrun⟩
  by_cases h1 : n = 1
  · have heq : cellInstrs n = [.incMem .edi] := by simp [cellInstrs, h1]
    rw [heq] at hcode ⊢
    exact ⟨1, reaches_byte hrun hind hcode (by rw [h1]; rfl)⟩
  by_cases hm : n = -1
  · have heq : cellInstrs n = [.decMem .edi] := by simp [cellInstrs, hm]
    rw [heq] at hcode ⊢
    refine ⟨1, reaches_byte hrun hind hcode ?_⟩
    rw [hm, int8_neg, ← BitVec.sub_eq_add_neg]
    rfl
  by_cases hp : n > 0
  · by_cases hs : n ≤ int8Max
    · have heq : cellInstrs n = [.addMem .edi (int8 n)] := by simp [cellInstrs, h0, h1, hm, hp, hs]
      rw [heq] at hcode ⊢
      exact ⟨1, reaches_byte hrun hind hcode rfl⟩
    · have heq : cellInstrs n = [.movModRm .eax (int32 n), .addMemAl .edi] := by
        simp [cellInstrs, h0, h1, hm, hp, hs]
      rw [heq] at hcode ⊢
      refine ⟨2, reaches_byte_al hrun hind hcode ?_⟩
      intro m₁ heax hmem hedi
      simp only [Instr.exec, heax, hmem, hedi, int32_setWidth]
  · by_cases hs : -n ≤ int8Max
    · have heq : cellInstrs n = [.subMem .edi (int8 (-n))] := by
        simp [cellInstrs, h0, h1, hm, hp, hs]
      rw [heq] at hcode ⊢
      refine ⟨1, reaches_byte hrun hind hcode ?_⟩
      simp only [Instr.exec, int8_neg, BitVec.sub_eq_add_neg, BitVec.neg_neg]
      rfl
    · have heq : cellInstrs n = [.movModRm .eax (int32 (-n)), .subMemAl .edi] := by
        simp [cellInstrs, h0, h1, hm, hp, hs]
      rw [heq] at hcode ⊢
      refine ⟨2, reaches_byte_al hrun hind hcode ?_⟩
      intro m₁ heax hmem hedi
      simp only [Instr.exec, heax, hmem, hedi, int32_setWidth, int8_neg, BitVec.sub_eq_add_neg,
        BitVec.neg_neg]

/-! ## System calls -/

/-- A transfer sequence comes to its system call with the call's registers loaded. -/
theorem transferInstrs_runs (nr fd : ℕ) (hrun : m.exit = none)
    (hcode : Holds m.mem m.eip (assemble (transferInstrs nr fd))) :
    ∃ m₁ : Cpu, m₁.regs .eax = BitVec.ofNat 32 nr ∧ m₁.regs .ebx = BitVec.ofNat 32 fd ∧
      m₁.regs .ecx = m.regs .edi ∧ m₁.regs .edx = 1 ∧ m₁.regs .edi = m.regs .edi ∧
      m₁.exit = none ∧
      m₁.eip = m.eip + BitVec.ofNat 32 (assemble (transferInstrs nr fd)).length ∧
      m₁.mem = m.mem ∧ m₁.input = m.input ∧ m₁.output = m.output ∧
      ∀ m', m₁.syscall = some m' → Runs Cpu.step 5 m m' := by
  let loads : List Instr := [.movImm .eax (BitVec.ofNat 32 nr), .movImm .ebx (BitVec.ofNat 32 fd),
    .mov .ecx .edi, .movImm .edx 1]
  let m₁ : Cpu := ((((((((m.advance 5).setReg .eax (BitVec.ofNat 32 nr)).advance 5).setReg .ebx
    (BitVec.ofNat 32 fd)).advance 2).setReg .ecx (m.regs .edi)).advance 5).setReg .edx 1).advance 2
  have hx : Ia32.execs m (loads ++ [.int 0x80]) = m₁.syscall := by
    have hint : Ia32.execs m (loads ++ [.int 0x80]) = m₁.syscall.bind some := rfl
    rw [hint, Option.bind_fun_some]
  refine ⟨m₁, ?_, ?_, ?_, ?_, ?_, hrun, ?_, rfl, rfl, rfl, ?_⟩
  · simp [m₁, Cpu.setReg, Cpu.advance]
  · simp [m₁, Cpu.setReg, Cpu.advance]
  · simp [m₁, Cpu.setReg, Cpu.advance]
  · simp [m₁, Cpu.setReg, Cpu.advance]
  · simp [m₁, Cpu.setReg, Cpu.advance]
  · have heip : m₁.eip = m.eip + BitVec.ofNat 32 5 + BitVec.ofNat 32 5 + BitVec.ofNat 32 2 +
        BitVec.ofNat 32 5 + BitVec.ofNat 32 2 := rfl
    rw [heip]
    simp only [BitVec.add_assoc, ← BitVec.ofNat_add]
    rfl
  · intro m' hsys
    refine Ia32.runs_block loads (.int 0x80) hrun ?_ ?_ hcode (hx.trans hsys)
    · simp [loads, Instr.RegOnly]
    · simp [loads, Instr.Encodable]

theorem write_runs (hrun : m.exit = none)
    (hcode : Holds m.mem m.eip (assemble (transferInstrs 4 1))) :
    Reaches 5 m (BitVec.ofNat 32 (assemble (transferInstrs 4 1)).length) (m.regs .edi) m.mem
      m.input (m.output ++ [m.mem (m.regs .edi)]) := by
  obtain ⟨m₁, ha, hb, hc, hd, hi, he, hip, hm, hin, hout, hr⟩ := transferInstrs_runs 4 1 hrun hcode
  have hsys : m₁.syscall = some { m₁.setReg .eax 1 with
      output := m.output ++ [m.mem (m.regs .edi)] } := by
    simp [Cpu.syscall, ha, hb, hc, hd, hm, hout, Cpu.loadBytes, List.range_succ]
  refine ⟨_, hr _ hsys, he, hip, ?_, hm, hin, rfl⟩
  simp [Cpu.setReg, hi]

/-- At the end of the input a read changes nothing but `eax`. -/
theorem read_runs (hrun : m.exit = none)
    (hcode : Holds m.mem m.eip (assemble (transferInstrs 3 0))) :
    Reaches 5 m (BitVec.ofNat 32 (assemble (transferInstrs 3 0)).length) (m.regs .edi)
      (Ia32.storeBytes m.mem (m.regs .edi) (m.input.take 1)) (m.input.drop 1) m.output := by
  obtain ⟨m₁, ha, hb, hc, hd, hi, he, hip, hm, hin, hout, hr⟩ := transferInstrs_runs 3 0 hrun hcode
  have hsys : m₁.syscall = some { m₁.setReg .eax (BitVec.ofNat 32 (m.input.take 1).length) with
      mem := Ia32.storeBytes m.mem (m.regs .edi) (m.input.take 1)
      input := m.input.drop 1 } := by
    simp [Cpu.syscall, ha, hb, hc, hd, hm, hin]
  refine ⟨_, hr _ hsys, he, hip, ?_, rfl, rfl, hout⟩
  simp [Cpu.setReg, hi]

theorem exit_runs (hrun : m.exit = none) (hcode : Holds m.mem m.eip (assemble exitInstrs)) :
    ∃ m', Runs Cpu.step 3 m m' ∧ m'.exit = some 0 ∧ m'.mem = m.mem ∧ m'.input = m.input ∧
      m'.output = m.output := by
  let loads : List Instr := [.movImm .eax 1, .movImm .ebx 0]
  let m₁ : Cpu := ((((m.advance 5).setReg .eax 1).advance 5).setReg .ebx 0).advance 2
  have hx : Ia32.execs m (loads ++ [.int 0x80]) = some { m₁ with exit := some 0 } := by
    have hint : Ia32.execs m (loads ++ [.int 0x80]) = m₁.syscall.bind some := rfl
    rw [hint]
    simp [m₁, Cpu.syscall, Cpu.setReg, Cpu.advance]
  refine ⟨_, Ia32.runs_block loads (.int 0x80) hrun ?_ ?_ hcode hx, rfl, rfl, rfl, rfl⟩
  · simp [loads, Instr.RegOnly]
  · simp [loads, Instr.Encodable]

/-! ## Jumps -/

/-- A compare with zero and a jump that goes `rel` bytes further when `taken` says so. -/
theorem compare_runs (i : Instr) (taken : Bool → Bool) (rel : BitVec 32) (hrun : m.exit = none)
    (hi : i.Encodable) (hx : ∀ m₁ : Cpu, i.exec m₁ = some (m₁.jumpIf (taken m₁.zf) rel))
    (hcode : Holds m.mem m.eip (assemble [.cmpMem spReg 0, i])) :
    Reaches 2 m (BitVec.ofNat 32 (assemble [.cmpMem spReg 0, i]).length +
      if taken (m.mem (m.regs .edi) == 0) then rel else 0) (m.regs .edi) m.mem m.input m.output := by
  let m₁ : Cpu := { (m.advance 3).advance i.encode.length with zf := m.mem (m.regs .edi) == 0 }
  have hexec : Ia32.execs m ([.cmpMem spReg 0] ++ [i]) =
      some (m₁.jumpIf (taken (m.mem (m.regs .edi) == 0)) rel) := by
    have hcmp : Ia32.execs m ([.cmpMem spReg 0] ++ [i]) = (i.exec
        { (m.advance 3).advance i.encode.length with
          zf := m.mem (m.regs .edi) - 0 == 0 }).bind some := rfl
    rw [hcmp, Option.bind_fun_some, hx, show m.mem (m.regs .edi) - 0 = m.mem (m.regs .edi) from
      BitVec.sub_zero _]
  have hr := Ia32.runs_block [.cmpMem spReg 0] i hrun (by simp [Instr.RegOnly])
    (by
      intro j hj
      simp only [List.cons_append, List.nil_append, List.mem_cons, List.not_mem_nil,
        or_false] at hj
      rcases hj with rfl | rfl
      · exact ⟨nofun, nofun⟩
      · exact hi) hcode hexec
  have heip : m₁.eip = m.eip + BitVec.ofNat 32 (assemble [.cmpMem spReg 0, i]).length := by
    have hlen : (assemble [.cmpMem spReg 0, i]).length = 3 + i.encode.length := by
      rw [Ia32.assemble_cons, Ia32.assemble_cons, Ia32.assemble_nil, List.append_nil,
        List.length_append]
      rfl
    rw [hlen, BitVec.ofNat_add, ← BitVec.add_assoc]
    rfl
  refine ⟨_, hr, ?_, ?_, ?_, ?_, ?_, ?_⟩
  all_goals unfold Cpu.jumpIf
  all_goals split
  all_goals first | exact hrun | rfl | skip
  · simp only [heip, BitVec.add_assoc]
  · rw [heip]
    exact congrArg _ (BitVec.add_zero _).symm

theorem startInstrs_runs (size : ℕ) (hrun : m.exit = none)
    (hcode : Holds m.mem m.eip (assemble (startInstrs size))) :
    Reaches 2 m (BitVec.ofNat 32 (assemble (startInstrs size)).length +
      if m.mem (m.regs .edi) = 0 then BitVec.ofNat 32 size else 0) (m.regs .edi) m.mem m.input
      m.output := by
  unfold startInstrs at hcode ⊢
  split at hcode
  · rename_i hs
    rw [if_pos hs]
    have hr := compare_runs (.je8 (int8 size)) id (BitVec.ofNat 32 size) hrun trivial
      (by
        intro m₁
        simp only [int8Max] at hs
        rw [← int32_natCast, ← int8_signExtend (x := (size : ℤ)) (by omega) (by omega)]
        rfl) hcode
    simpa using hr
  · rename_i hs
    rw [if_neg hs]
    have hr := compare_runs (.je32 (int32 size)) id (BitVec.ofNat 32 size) hrun trivial
      (by
        intro m₁
        rw [← int32_natCast]
        rfl) hcode
    simpa using hr

/-- The displacement of the jump back, for a body that it can cross. -/
theorem backOffset_eq (len : ℕ) (h : len + 5 ≤ 2^31) : backOffset len = -((len : ℤ) + 5) := by
  unfold backOffset
  exact int32_toInt (by omega) (by omega)

theorem endInstrs_runs {len : ℕ} (hlen : len + 5 ≤ 2^31) (hrun : m.exit = none)
    (hcode : Holds m.mem m.eip (assemble (endInstrs len))) :
    Reaches 2 m (if m.mem (m.regs .edi) = 0 then
        BitVec.ofNat 32 (assemble (endInstrs len)).length
      else -BitVec.ofNat 32 len) (m.regs .edi) m.mem m.input m.output := by
  have hback := backOffset_eq len hlen
  unfold endInstrs at hcode ⊢
  have hgoal : ∀ (i : Instr) (n : ℕ) (rel : BitVec 32), i.Encodable →
      (assemble [.cmpMem spReg 0, i]).length = n →
      BitVec.ofNat 32 n + rel = -BitVec.ofNat 32 len →
      (∀ m₁ : Cpu, i.exec m₁ = some (m₁.jumpIf (!m₁.zf) rel)) →
      Holds m.mem m.eip (assemble [.cmpMem spReg 0, i]) →
      Reaches 2 m (if m.mem (m.regs .edi) = 0 then
          BitVec.ofNat 32 (assemble [.cmpMem spReg 0, i]).length
        else -BitVec.ofNat 32 len) (m.regs .edi) m.mem m.input m.output := by
    intro i n rel hi hn hrel hx hcode
    have hr := compare_runs i not rel hrun hi hx hcode
    by_cases hz : m.mem (m.regs .edi) = 0
    · simpa [hz] using hr
    · have hne : (m.mem (m.regs .edi) == 0) = false := by simpa using hz
      rw [hne, Bool.not_false, if_pos rfl, hn, hrel] at hr
      rw [if_neg hz]
      exact hr
  have hsum : ∀ n : ℕ, BitVec.ofNat 32 n + int32 (-((len : ℤ) + n)) = -BitVec.ofNat 32 len := by
    intro n
    have hdiff : (n : ℤ) + -((len : ℤ) + n) = -(len : ℤ) := by omega
    rw [← int32_natCast, ← int32_add, hdiff, int32_neg, int32_natCast]
  split at hcode
  · rename_i hs
    rw [if_pos hs]
    simp only [int8Min] at hs
    refine hgoal _ 5 (int32 (backOffset len)) trivial rfl (by rw [hback]; exact hsum 5) ?_ hcode
    intro m₁
    rw [← int8_signExtend (x := backOffset len) (by omega) (by omega)]
    rfl
  · rename_i hs
    rw [if_neg hs]
    refine hgoal _ 9 (int32 (backOffset len - 4)) trivial rfl ?_ (fun _ => rfl) hcode
    have hdisp : -((len : ℤ) + 5) - 4 = -((len : ℤ) + (9 : ℕ)) := by omega
    rw [hback, hdisp]
    exact hsum 9

end

/-! ## Additions are exact -/

/-- Wherever a running processor has the code at `eip`, it runs to the end of the code and to a
state that `post` relates to the first one. -/
def RunsTo (code : List Byte) (post : Cpu → Cpu → Prop) : Prop :=
  ∀ m : Cpu, m.exit = none → Holds m.mem m.eip code →
    ∃ k m', Runs Cpu.step k m m' ∧ m'.exit = none ∧
      m'.eip = m.eip + BitVec.ofNat 32 code.length ∧ post m m'

/-- The byte at `edi` grows by `n`, and no other byte changes. -/
def AddsToCell (n : ℤ) (m m' : Cpu) : Prop :=
  m'.regs .edi = m.regs .edi ∧
    ((m'.mem (m.regs .edi)).toNat : ℤ) = ((m.mem (m.regs .edi)).toNat + n) % 2^8 ∧
    ∀ a, a ≠ m.regs .edi → m'.mem a = m.mem a

/-- `edi` grows by `n`, and no byte changes. -/
def AddsToPtr (n : ℤ) (m m' : Cpu) : Prop :=
  ((m'.regs .edi).toNat : ℤ) = ((m.regs .edi).toNat + n) % 2^32 ∧ m'.mem = m.mem

theorem int8_add_toNat (b : Byte) (n : ℤ) : ((b + int8 n).toNat : ℤ) = (b.toNat + n) % 2^8 := by
  rw [BitVec.toNat_add, int8, BitVec.toNat_ofInt]
  omega

theorem int32_add_toNat (w : BitVec 32) (n : ℤ) :
    ((w + int32 n).toNat : ℤ) = (w.toNat + n) % 2^32 := by
  rw [BitVec.toNat_add, int32, BitVec.toNat_ofInt]
  omega

theorem cellInstrs_exact (n : ℤ) : RunsTo (assemble (cellInstrs n)) (AddsToCell n) := by
  intro m hrun hcode
  obtain ⟨k, m', hr, hexit, heip, hedi, hmem, _, _⟩ := cellInstrs_runs n hrun hcode
  refine ⟨k, m', hr, hexit, heip, hedi, ?_, fun a ha => ?_⟩
  · rw [hmem, Function.update_self]
    exact int8_add_toNat _ n
  · rw [hmem, Function.update_of_ne ha]

theorem tapeInstrs_exact (n : ℤ) : RunsTo (assemble (tapeInstrs n)) (AddsToPtr n) := by
  intro m hrun hcode
  obtain ⟨k, m', hr, hexit, heip, hedi, hmem, _, _⟩ := tapeInstrs_runs n hrun hcode
  refine ⟨k, m', hr, hexit, heip, ?_, hmem⟩
  rw [hedi]
  exact int32_add_toNat _ n

theorem emitAddSub_operandSize (ctx : List Byte) (mode : ModRmMode) (op : IrOp) :
    ((emitAddSub ctx mode op).1 = .operandSize ↔ ¬ (-2^31 ≤ op.arg ∧ op.arg < 2^31)) ∧
      ((emitAddSub ctx mode op).1 = .operandSize → (emitAddSub ctx mode op).2 = ctx) := by
  by_cases hbig : op.arg > int32Max ∨ op.arg < int32Min
  · have hne : op.arg ≠ 0 := by
      unfold int32Max int32Min at hbig
      omega
    have heq : emitAddSub ctx mode op = (.operandSize, ctx) := by
      rw [emitAddSub, if_neg hne, if_pos hbig]
    rw [heq]
    unfold int32Max int32Min at hbig
    exact ⟨⟨fun _ => by omega, fun _ => rfl⟩, fun _ => rfl⟩
  · have hok : (emitAddSub ctx mode op).1 ≠ .operandSize := by
      simp only [emitAddSub, if_neg hbig]
      repeat' split
      all_goals
        intro h
        cases h
    unfold int32Max int32Min at hbig
    exact ⟨⟨fun h => (hok h).elim, fun h => (h (by omega)).elim⟩, fun h => (hok h).elim⟩

/-- An addition is refused exactly when its operand does not fit; else the bytes it emits add the
operand, to the byte at the pointer or to the pointer. -/
theorem emitAddSub_exact (ctx : List Byte) (op : IrOp) :
    (∀ mode, ((emitAddSub ctx mode op).1 = .operandSize ↔
        ¬ (-2^31 ≤ op.arg ∧ op.arg < 2^31)) ∧
      ((emitAddSub ctx mode op).1 = .operandSize → (emitAddSub ctx mode op).2 = ctx)) ∧
      (-2^31 ≤ op.arg ∧ op.arg < 2^31 →
        (∃ code, emitAddSub ctx .regIndirect op = (.ok, ctx ++ code) ∧
          RunsTo code (AddsToCell op.arg)) ∧
        ∃ code, emitAddSub ctx .regDirect op = (.ok, ctx ++ code) ∧
          RunsTo code (AddsToPtr op.arg)) := by
  refine ⟨fun mode => emitAddSub_operandSize ctx mode op, fun hrange => ?_⟩
  have hfits : OperandFits op.arg := by
    unfold OperandFits int32Max int32Min
    omega
  exact ⟨⟨_, emitCodeCell_eq ctx op.arg hfits, cellInstrs_exact op.arg⟩,
    ⟨_, emitCodeTape_eq ctx op.arg hfits, tapeInstrs_exact op.arg⟩⟩

end Bfcomp
