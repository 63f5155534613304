import Bfcomp.Foundations.Ia32.Encoding

/-! # Executing IA-32 code

`Cpu.step` fetches from memory, decodes and executes; it has no successor after `exit` and where
the fragment defines none. `Runs.block` runs a straight piece of code whose instructions, but for
the last, leave memory alone. -/

namespace Bfcomp.Ia32
set_option autoImplicit false

/-- Processor, memory and the two standard streams; `exit` holds the status of a process that has
ended. -/
structure Cpu where
  regs : Reg → BitVec 32
  zf : Bool
  eip : BitVec 32
  mem : BitVec 32 → Byte
  input : List Byte
  output : List Byte
  exit : Option (BitVec 32)

namespace Cpu

def setReg (m : Cpu) (r : Reg) (v : BitVec 32) : Cpu :=
  { m with regs := Function.update m.regs r v }

/-- The result of an addition or subtraction in a register. -/
def setResult (m : Cpu) (r : Reg) (v : BitVec 32) : Cpu :=
  { m.setReg r v with zf := v == 0 }

/-- The result of an addition or subtraction in memory. -/
def setByte (m : Cpu) (a : BitVec 32) (v : Byte) : Cpu :=
  { m with mem := Function.update m.mem a v, zf := v == 0 }

def jumpIf (m : Cpu) (c : Bool) (rel : BitVec 32) : Cpu :=
  if c then { m with eip := m.eip + rel } else m

def loadBytes (m : Cpu) (a : BitVec 32) (n : ℕ) : List Byte :=
  (List.range n).map fun k => m.mem (a + BitVec.ofNat 32 k)

end Cpu

def storeBytes (mem : BitVec 32 → Byte) (a : BitVec 32) : List Byte → BitVec 32 → Byte
  | [] => mem
  | b :: bs => storeBytes (Function.update mem a b) (a + 1) bs

/-- `int 0x80`: `exit`, `read` from descriptor 0 and `write` to descriptor 1. -/
def Cpu.syscall (m : Cpu) : Option Cpu :=
  let count := (m.regs .edx).toNat
  if m.regs .eax = 1 then some { m with exit := some (m.regs .ebx) }
  else if m.regs .eax = 3 ∧ m.regs .ebx = 0 then
    let got := m.input.take count
    some { m.setReg .eax (BitVec.ofNat 32 got.length) with
      mem := storeBytes m.mem (m.regs .ecx) got
      input := m.input.drop count }
  else if m.regs .eax = 4 ∧ m.regs .ebx = 1 then
    some { m.setReg .eax (BitVec.ofNat 32 count) with
      output := m.output ++ m.loadBytes (m.regs .ecx) count }
  else none

/-- The effect of an instruction, `eip` being past it already. -/
def Instr.exec (m : Cpu) : Instr → Option Cpu
  | inc r => some (m.setResult r (m.regs r + 1))
  | dec r => some (m.setResult r (m.regs r - 1))
  | addImm8 r imm => some (m.setResult r (m.regs r + imm.signExtend 32))
  | subImm8 r imm => some (m.setResult r (m.regs r - imm.signExtend 32))
  | addImm32 r imm => some (m.setResult r (m.regs r + imm))
  | subImm32 r imm => some (m.setResult r (m.regs r - imm))
  | incMem r => some (m.setByte (m.regs r) (m.mem (m.regs r) + 1))
  | decMem r => some (m.setByte (m.regs r) (m.mem (m.regs r) - 1))
  | addMem r imm => some (m.setByte (m.regs r) (m.mem (m.regs r) + imm))
  | subMem r imm => some (m.setByte (m.regs r) (m.mem (m.regs r) - imm))
  | cmpMem r imm => some { m with zf := m.mem (m.regs r) - imm == 0 }
  | addMemAl r => some (m.setByte (m.regs r) (m.mem (m.regs r) + (m.regs .eax).setWidth 8))
  | subMemAl r => some (m.setByte (m.regs r) (m.mem (m.regs r) - (m.regs .eax).setWidth 8))
  | mov dst src => some (m.setReg dst (m.regs src))
  | movImm r imm => some (m.setReg r imm)
  | movModRm r imm => some (m.setReg r imm)
  | push r =>
    let top := m.regs .esp - 4
    some { m.setReg .esp top with mem := storeBytes m.mem top (le32 (m.regs r)) }
  | int n => if n = 0x80 then m.syscall else none
  | je8 rel => some (m.jumpIf m.zf (rel.signExtend 32))
  | jne8 rel => some (m.jumpIf (!m.zf) (rel.signExtend 32))
  | je32 rel => some (m.jumpIf m.zf rel)
  | jne32 rel => some (m.jumpIf (!m.zf) rel)

theorem Instr.exec_movModRm (m : Cpu) (r : Reg) (imm : BitVec 32) :
    exec m (movModRm r imm) = some (m.setReg r imm) := rfl

def Cpu.advance (m : Cpu) (n : ℕ) : Cpu := { m with eip := m.eip + BitVec.ofNat 32 n }

/-- One instruction; six bytes hold any of the fragment. -/
def Cpu.step (m : Cpu) : Option Cpu :=
  if m.exit.isSome then none
  else
    match decode (m.loadBytes m.eip 6) with
    | none => none
    | some i => i.exec (m.advance i.encode.length)

/-! ## Bytes in memory -/

/-- The bytes lie in memory from `a` on. -/
def Holds (mem : BitVec 32 → Byte) (a : BitVec 32) (bs : List Byte) : Prop :=
  ∀ k b, bs[k]? = some b → mem (a + BitVec.ofNat 32 k) = b

section
variable {mem : BitVec 32 → Byte} {a : BitVec 32}

theorem Holds.nil : Holds mem a [] := by
  intro k b h
  simp at h

theorem Holds.drop {bs cs : List Byte} (h : Holds mem a (bs ++ cs)) :
    Holds mem (a + BitVec.ofNat 32 bs.length) cs := by
  intro k b hk
  have hat : (bs ++ cs)[bs.length + k]? = some b := by
    rw [List.getElem?_append_right (Nat.le_add_right _ _), Nat.add_sub_cancel_left]
    exact hk
  rw [BitVec.add_assoc, ← BitVec.ofNat_add]
  exact h _ b hat

theorem Holds.take {bs cs : List Byte} (h : Holds mem a (bs ++ cs)) : Holds mem a bs := by
  intro k b hk
  have hlt : k < bs.length := (List.getElem?_eq_some_iff.mp hk).1
  exact h k b (by rw [List.getElem?_append_left hlt, hk])

theorem Holds.window {pre bs post : List Byte} (h : Holds mem a (pre ++ bs ++ post)) :
    Holds mem (a + BitVec.ofNat 32 pre.length) bs := h.take.drop

theorem Holds.congr {mem' : BitVec 32 → Byte} {bs : List Byte} (h : Holds mem a bs)
    (heq : ∀ k < bs.length, mem' (a + BitVec.ofNat 32 k) = mem (a + BitVec.ofNat 32 k)) :
    Holds mem' a bs := by
  intro k b hk
  rw [heq k (List.getElem?_eq_some_iff.mp hk).1]
  exact h k b hk

theorem storeBytes_frame (bs : List Byte) (b : BitVec 32)
    (h : ∀ k < bs.length, b ≠ a + BitVec.ofNat 32 k) : storeBytes mem a bs b = mem b := by
  induction bs generalizing mem a with
  | nil => rfl
  | cons c bs ih =>
    have h0 : b ≠ a := by simpa using h 0 (by simp)
    rw [storeBytes, ih, Function.update_of_ne h0]
    intro k hk
    have hsucc := h (k + 1) (by simpa using hk)
    rw [Nat.add_comm, BitVec.ofNat_add, ← BitVec.add_assoc] at hsucc
    exact hsucc

theorem decode_loadBytes {m : Cpu} {i : Instr} (hi : i.Encodable)
    (h : Holds m.mem m.eip i.encode) : decode (m.loadBytes m.eip 6) = some i := by
  have hlen := i.encode_length_le
  have hbytes : m.loadBytes m.eip 6 = i.encode ++ (m.loadBytes m.eip 6).drop i.encode.length := by
    apply List.ext_getElem?
    intro k
    by_cases hk : k < i.encode.length
    · have hb := h k _ (List.getElem?_eq_getElem hk)
      have hk6 : k < 6 := by omega
      rw [List.getElem?_append_left hk, List.getElem?_eq_getElem hk, ← hb]
      simp [Cpu.loadBytes, hk6]
    · rw [List.getElem?_append_right (by omega), List.getElem?_drop]
      congr 1
      omega
  rw [hbytes]
  exact decode_encode i hi _

end

/-! ## Straight pieces of code -/

def assemble : List Instr → List Byte
  | [] => []
  | i :: is => i.encode ++ assemble is

@[simp] theorem assemble_nil : assemble [] = [] := rfl
@[simp] theorem assemble_cons (i : Instr) (is : List Instr) :
    assemble (i :: is) = i.encode ++ assemble is := rfl

theorem assemble_append (is js : List Instr) : assemble (is ++ js) = assemble is ++ assemble js := by
  induction is with
  | nil => rfl
  | cons i is ih => rw [List.cons_append, assemble, assemble, ih, List.append_assoc]

/-- Instructions that change registers and flags only. -/
def Instr.RegOnly : Instr → Prop
  | inc _ | dec _ | addImm8 _ _ | subImm8 _ _ | addImm32 _ _ | subImm32 _ _ | cmpMem _ _ | mov _ _
  | movImm _ _ | movModRm _ _ => True
  | _ => False

/-- The effect of a straight piece of code. -/
def execs (m : Cpu) : List Instr → Option Cpu
  | [] => some m
  | i :: is => (i.exec (m.advance i.encode.length)).bind fun m' => execs m' is

theorem Cpu.step_of_holds {m : Cpu} {i : Instr} (hrun : m.exit = none) (hi : i.Encodable)
    (h : Holds m.mem m.eip i.encode) : m.step = i.exec (m.advance i.encode.length) := by
  unfold Cpu.step
  rw [hrun, decode_loadBytes hi h]
  rfl

theorem Instr.RegOnly.exec {i : Instr} (h : i.RegOnly) {m m' : Cpu} (hx : i.exec m = some m') :
    m'.mem = m.mem ∧ m'.exit = m.exit ∧ m'.eip = m.eip := by
  cases i <;> first | exact h.elim | (cases hx; exact ⟨rfl, rfl, rfl⟩)

/-- A straight piece of code, held at `eip`, runs as `execs` says if only its last instruction may
touch memory. -/
theorem runs_block (is : List Instr) (i : Instr) {m m' : Cpu} (hrun : m.exit = none)
    (hpure : ∀ j ∈ is, j.RegOnly) (henc : ∀ j ∈ is ++ [i], j.Encodable)
    (hcode : Holds m.mem m.eip (assemble (is ++ [i]))) (hx : execs m (is ++ [i]) = some m') :
    Runs Cpu.step (is.length + 1) m m' := by
  induction is generalizing m with
  | nil =>
    have hi : i.exec (m.advance i.encode.length) = some m' := by simpa [execs] using hx
    have hheld : Holds m.mem m.eip i.encode := by simpa using hcode
    have hstep := Cpu.step_of_holds hrun (henc i (by simp)) hheld
    exact .single (hstep.trans hi)
  | cons j is ih =>
    obtain ⟨u, hu, hrest⟩ := Option.bind_eq_some_iff.mp hx
    have hstep := Cpu.step_of_holds hrun (henc j (by simp)) hcode.take
    obtain ⟨hmem, hexit, heip⟩ := (hpure j (by simp)).exec hu
    refine .head (hstep.trans hu) (ih ?_ (fun k hk => hpure k (by simp [hk]))
      (fun k hk => henc k (List.mem_cons_of_mem j hk)) ?_ hrest)
    · rw [hexit]
      exact hrun
    · rw [hmem, heip]
      exact hcode.drop

/-! ## Output only grows -/

theorem Instr.exec_output {i : Instr} {m m' : Cpu} (h : i.exec m = some m') :
    m.output <+: m'.output := by
  have hjump : ∀ (c : Bool) (rel : BitVec 32), (m.jumpIf c rel).output = m.output := by
    intro c rel
    unfold Cpu.jumpIf
    split <;> rfl
  cases i
  case int n =>
    simp only [exec] at h
    split at h
    · unfold Cpu.syscall at h
      split at h
      · cases h
        exact List.prefix_rfl
      split at h
      · cases h
        exact List.prefix_rfl
      split at h
      · cases h
        exact List.prefix_append _ _
      · cases h
    · cases h
  case je8 rel | jne8 rel | je32 rel | jne32 rel =>
    cases h
    exact ⟨[], by rw [List.append_nil, hjump]⟩
  all_goals
    cases h
    exact List.prefix_rfl

theorem Cpu.step_output {m m' : Cpu} (h : m.step = some m') : m.output <+: m'.output := by
  unfold Cpu.step at h
  split at h
  · cases h
  split at h
  · cases h
  · exact Instr.exec_output (m := m.advance _) h

theorem runs_output {n : ℕ} {m m' : Cpu} (h : Runs Cpu.step n m m') : m.output <+: m'.output :=
  h.monotone Cpu.output (fun _ => List.prefix_rfl) (fun _ _ _ => List.IsPrefix.trans)
    (fun _ _ => Cpu.step_output)

end Bfcomp.Ia32
