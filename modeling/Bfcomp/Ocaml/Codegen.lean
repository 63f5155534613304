import Bfcomp.Foundations.Structured
import Bfcomp.Ocaml.Bytebuffer
import Bfcomp.Ocaml.Print
import Mathlib.Data.Nat.Log

/-! # The instruction emitter (`lib/codegen.ml`)

Immediate operands, and the emission of loops. An operand is of one type here, `any_op`; the
instructions that `emit_instr` is given are counted, and nothing of them is written yet. -/

namespace Bfcomp.Ocaml
set_option autoImplicit false

namespace Codegen

inductive Reg where
  | eax
  | ecx
  | edx
  | ebx
  | esp
  | ebp
  | esi
  | edi
  deriving DecidableEq

/-- `any_op`. -/
inductive Op where
  | reg (r : Reg)
  | mem (op : Op)
  | imm8 (v : BitVec 8)
  | uimm8 (v : BitVec 8)
  | imm16 (v : BitVec 16)
  | uimm16 (v : BitVec 16)
  | imm32 (v : BitVec 32)
  | uimm32 (v : BitVec 32)
  deriving DecidableEq

section
variable (S : Stdint) (v : ℤ)

def imm8 : Op := .imm8 (S.ofInt .int8 v)
def uimm8 : Op := .uimm8 (S.ofInt .uint8 v)
def imm16 : Op := .imm16 (S.ofInt .int16 v)
def uimm16 : Op := .uimm16 (S.ofInt .uint16 v)
def imm32 : Op := .imm32 (S.ofInt .int32 v)
def uimm32 : Op := .uimm32 (S.ofInt .uint32 v)

end

/-! ## Immediates -/

def log2 (n : ℤ) : ℤ :=
  if n ≤ 1 then 0 else 1 + log2 (n >>> (1 : ℕ))
  termination_by n.toNat
  decreasing_by
    rw [Int.shiftRight_eq_div_pow]
    omega

/-- The match on `log2 (abs v)`. Its arms name the logarithm `v` again: that is what they are given,
and the number itself is seen by the message only. -/
def encode (arm8 arm16 arm32 : ℤ → Op) (v : ℤ) : Except Exn Op :=
  let l := log2 (absInt v)
  if l ≥ 0 ∧ l < 8 then .ok (arm8 l)
  else if l ≥ 8 ∧ l < 16 then .ok (arm16 l)
  else if l ≥ 16 ∧ l < 32 then .ok (arm32 l)
  else .error (.invalidArgument (toString v ++ " is too large"))

def encodeInt (S : Stdint) (v : ℤ) : Except Exn Op :=
  let s : ℤ := if v > 0 then 1 else if v = 0 then 0 else -1
  encode (fun l => imm8 S (l * s)) (fun l => imm16 S (l * s)) (fun l => imm32 S (l * s)) v

def encodeUint (S : Stdint) (v : ℤ) : Except Exn Op :=
  encode (uimm8 S) (uimm16 S) (uimm32 S) v

/-- The type and the integer of an immediate operand. -/
def Op.immediate : Op → Option (IntType × ℤ)
  | reg _ => none
  | mem _ => none
  | imm8 v => some (.int8, IntType.int8.value v)
  | uimm8 v => some (.uint8, IntType.uint8.value v)
  | imm16 v => some (.int16, IntType.int16.value v)
  | uimm16 v => some (.uint16, IntType.uint16.value v)
  | imm32 v => some (.int32, IntType.int32.value v)
  | uimm32 v => some (.uint32, IntType.uint32.value v)

def signed : List IntType := [.int8, .int16, .int32]

def unsigned : List IntType := [.uint8, .uint16, .uint32]

/-- The first of the types that can hold the integer. -/
def narrowest (types : List IntType) (v : ℤ) : Option IntType := types.find? fun t => t.Holds v

/-- `v` is encoded in the narrowest of the types, and refused if there is none. -/
def Encodes (types : List IntType) (v : ℤ) (result : Except Exn Op) : Prop :=
  match narrowest types v with
  | some t => ∃ op, result = .ok op ∧ op.immediate = some (t, v)
  | none => ∃ msg, result = .error (.invalidArgument msg)

theorem log2_eq (n : ℕ) : log2 n = Nat.log 2 n := by
  induction n using Nat.strong_induction_on with
  | h n ih =>
    rw [log2]
    split
    · rw [Nat.log_of_lt (by omega)]
      rfl
    · have hhalf : (n : ℤ) >>> (1 : ℕ) = ((n / 2 : ℕ) : ℤ) := rfl
      have hlog : Nat.log 2 n = Nat.log 2 (n / 2) + 1 :=
        Nat.log_of_one_lt_of_le (by decide) (by omega)
      rw [hhalf, ih (n / 2) (by omega), hlog]
      omega

/-- `abs` is wrong for one number, which it leaves negative. -/
theorem absInt_eq {v : ℤ} (lo : -2^62 ≤ v) (hi : v < 2^62) :
    absInt v = if v = -2^62 then -2^62 else (v.natAbs : ℤ) := by
  unfold absInt
  split
  · rw [if_neg (by omega), Int.natAbs_of_nonneg ‹_›]
  · split
    · rename_i hmin
      rw [hmin]
      decide
    · rw [i63_of_range (by omega) (by omega)]
      omega

theorem log2_absInt {v : ℤ} (lo : -2^62 ≤ v) (hi : v < 2^62) :
    log2 (absInt v) = if v = -2^62 then 0 else (Nat.log 2 v.natAbs : ℤ) := by
  rw [absInt_eq lo hi]
  split
  · rw [log2, if_pos (by decide)]
  · exact log2_eq _

theorem log2_absInt_large {v : ℤ} (lo : -2^62 ≤ v) (hi : v < 2^62) (hv : v ≠ 0) :
    32 ≤ log2 (absInt v) ↔ 2^32 ≤ v.natAbs ∧ v ≠ -2^62 := by
  rw [log2_absInt lo hi]
  split
  · exact ⟨fun h => absurd h (by decide), fun h => (h.2 ‹_›).elim⟩
  · have hlog := Nat.le_log_iff_pow_le (b := 2) (x := 32) (by decide) (Int.natAbs_ne_zero.mpr hv)
    rw [← hlog]
    omega

theorem log2_absInt_ne {v : ℤ} (lo : -2^62 ≤ v) (hi : v < 2^62) (hv : v ≠ 0) :
    0 ≤ log2 (absInt v) ∧ log2 (absInt v) ≠ v.natAbs := by
  rw [log2_absInt lo hi]
  split
  · omega
  · have hlog := Nat.log_lt_self 2 (Int.natAbs_ne_zero.mpr hv)
    omega

section
variable {types : List IntType} {arm8 arm16 arm32 : ℤ → Op} {value : ℤ → ℤ} {v : ℤ}

theorem encode_large (h : 32 ≤ log2 (absInt v)) :
    ∃ msg, encode arm8 arm16 arm32 v = .error (.invalidArgument msg) := by
  refine ⟨toString v ++ " is too large", ?_⟩
  unfold encode
  rw [if_neg (by omega), if_neg (by omega), if_neg (by omega)]

theorem encode_small (arm8 arm16 arm32 : ℤ → Op) (hlo : 0 ≤ log2 (absInt v)) (hhi : log2 (absInt v) < 32) :
    ∃ arm ∈ [arm8, arm16, arm32], encode arm8 arm16 arm32 v = .ok (arm (log2 (absInt v))) := by
  unfold encode
  by_cases h8 : log2 (absInt v) < 8
  · exact ⟨arm8, by simp, by rw [if_pos ⟨hlo, h8⟩]⟩
  · by_cases h16 : log2 (absInt v) < 16
    · exact ⟨arm16, by simp, by rw [if_neg (by omega), if_pos (by omega)]⟩
    · exact ⟨arm32, by simp, by rw [if_neg (by omega), if_neg (by omega), if_pos (by omega)]⟩

/-- The arms make an immediate of the logarithm or of its negation. -/
def ArmsOf (value : ℤ → ℤ) (arms : List (ℤ → Op)) : Prop :=
  ∀ arm ∈ arms, ∀ l, 0 ≤ l → l < 32 → ∃ t, (arm l).immediate = some (t, value l)

theorem encode_iff (lo : -2^62 ≤ v) (hi : v < 2^62) (harms : ArmsOf value [arm8, arm16, arm32])
    (hvalue : ∀ l, (value l).natAbs = l.natAbs) (hv : v ≠ 0)
    (hnone : 2^32 ≤ v.natAbs → narrowest types v = none) :
    Encodes types v (encode arm8 arm16 arm32 v) ↔ 2^32 ≤ v.natAbs ∧ v ≠ -2^62 := by
  rw [← log2_absInt_large lo hi hv]
  obtain ⟨hlog, hne⟩ := log2_absInt_ne lo hi hv
  constructor
  · intro h
    by_contra hsmall
    obtain ⟨arm, harm, hok⟩ := encode_small arm8 arm16 arm32 hlog (by omega)
    obtain ⟨t, himm⟩ := harms arm harm _ hlog (by omega)
    rw [Encodes, hok] at h
    split at h
    · obtain ⟨op, hop, hopv⟩ := h
      cases hop
      rw [himm, Option.some.injEq, Prod.mk.injEq] at hopv
      have habs := hvalue (log2 (absInt v))
      rw [hopv.2] at habs
      omega
    · obtain ⟨_, hmsg⟩ := h
      cases hmsg
  · intro h
    have hlarge := ((log2_absInt_large lo hi hv).mp h).1
    rw [Encodes, hnone hlarge]
    exact encode_large h

end

theorem holds_small {t : IntType} {n : ℤ} (lo : t.Signed ∨ 0 ≤ n) (habs : n.natAbs < 32) :
    t.Holds n := by
  cases t <;> simp [IntType.Holds, IntType.Signed, IntType.bits] at lo ⊢ <;> omega

theorem narrowest_none (types : List IntType) {v : ℤ} (h : 2^32 ≤ v.natAbs) :
    narrowest types v = none := by
  rw [narrowest, List.find?_eq_none]
  intro t _ ht
  have hv := of_decide_eq_true ht
  cases t <;> simp [IntType.Holds, IntType.Signed, IntType.bits] at hv <;> omega

section
variable {S : Stdint} (hS : S.KeepsValues)
include hS

/-- What an immediate holds that is made of an integer which its type can hold. -/
theorem kept {t : IntType} {n : ℤ} (h : t.Holds n) :
    some (t, t.value (S.ofInt t n)) = some (t, n) := by
  rw [hS t n h]

theorem encodeInt_arms {s : ℤ} (hs : s = 1 ∨ s = -1) :
    ArmsOf (fun l => l * s)
      [fun l => imm8 S (l * s), fun l => imm16 S (l * s), fun l => imm32 S (l * s)] := by
  intro arm harm l lo hi
  have hsmall : (l * s).natAbs < 32 := by
    rcases hs with rfl | rfl <;> omega
  simp only [List.mem_cons, List.not_mem_nil, or_false] at harm
  rcases harm with rfl | rfl | rfl
  · exact ⟨.int8, kept hS (holds_small (.inl trivial) hsmall)⟩
  · exact ⟨.int16, kept hS (holds_small (.inl trivial) hsmall)⟩
  · exact ⟨.int32, kept hS (holds_small (.inl trivial) hsmall)⟩

theorem encodeUint_arms : ArmsOf id [uimm8 S, uimm16 S, uimm32 S] := by
  intro arm harm l lo hi
  have hsmall : l.natAbs < 32 := by omega
  simp only [List.mem_cons, List.not_mem_nil, or_false] at harm
  rcases harm with rfl | rfl | rfl
  · exact ⟨.uint8, kept hS (holds_small (.inr lo) hsmall)⟩
  · exact ⟨.uint16, kept hS (holds_small (.inr lo) hsmall)⟩
  · exact ⟨.uint32, kept hS (holds_small (.inr lo) hsmall)⟩

theorem encodeInt_zero : Encodes signed 0 (encodeInt S 0) := by
  have hlog : log2 (absInt 0) = 0 := log2_eq 0
  refine ⟨imm8 S 0, ?_, kept hS (by decide)⟩
  rw [encodeInt, encode, hlog]
  rfl

theorem encodeUint_zero : Encodes unsigned 0 (encodeUint S 0) := by
  have hlog : log2 (absInt 0) = 0 := log2_eq 0
  refine ⟨uimm8 S 0, ?_, kept hS (by decide)⟩
  rw [encodeUint, encode, hlog]
  rfl

end

/-- The value is kept for zero only; and what is out of range is refused if its absolute value has
a logarithm out of range too. -/
theorem encodes_iff (S : Stdint) (hS : S.KeepsValues) (v : ℤ) (lo : -2^62 ≤ v) (hi : v < 2^62) :
    (Encodes signed v (encodeInt S v) ↔ v = 0 ∨ (2^32 ≤ v.natAbs ∧ v ≠ -2^62)) ∧
      (Encodes unsigned v (encodeUint S v) ↔ v = 0 ∨ (2^32 ≤ v.natAbs ∧ v ≠ -2^62)) := by
  rcases eq_or_ne v 0 with rfl | hv
  · exact ⟨iff_of_true (encodeInt_zero hS) (.inl rfl), iff_of_true (encodeUint_zero hS) (.inl rfl)⟩
  · rw [or_iff_right hv]
    constructor
    · have hsign : (if v > 0 then 1 else if v = 0 then 0 else -1 : ℤ) = 1 ∨
          (if v > 0 then 1 else if v = 0 then 0 else -1 : ℤ) = -1 := by
        rw [if_neg hv]
        exact (ite_eq_or_eq (v > 0) (1 : ℤ) (-1))
      refine encode_iff lo hi (encodeInt_arms hS hsign) ?_ hv (narrowest_none signed)
      intro l
      rcases hsign with hs | hs <;> rw [hs] <;> omega
    · exact encode_iff lo hi (encodeUint_arms hS) (fun _ => rfl) hv (narrowest_none unsigned)

theorem encodes_iff_large : Encodes signed (2^40) (encodeInt .checked (2^40)) :=
  ((encodes_iff .checked Stdint.checked_keepsValues (2^40) (by decide) (by decide)).1).mpr
    (.inr (by decide))

/-- The operand made for `1` is `0`. -/
theorem encodes_not :
    ¬ ∀ (S : Stdint), S.KeepsValues → ∀ v : ℤ, -2^62 ≤ v → v < 2^62 →
      Encodes signed v (encodeInt S v) ∧ Encodes unsigned v (encodeUint S v) := by
  intro h
  obtain ⟨⟨op, hop, hv⟩, _⟩ := h .checked Stdint.checked_keepsValues 1 (by decide) (by decide)
  have hlog : log2 (absInt 1) = 0 := log2_eq 1
  have hzero : encodeInt .checked 1 = .ok (.imm8 0) := by
    rw [encodeInt, encode, hlog]
    rfl
  rw [hzero] at hop
  cases hop
  exact absurd hv (by decide)

/-! ## Loops -/

inductive Jmp (α : Type) where
  | jmp (a : α)
  | jz (a : α)
  | jnz (a : α)
  deriving DecidableEq

inductive Instr where
  | mov (op1 op2 : Op)
  | add (op1 op2 : Op)
  | sub (op1 op2 : Op)
  | cmp (op1 op2 : Op)
  | intr (i : BitVec 8)
  | jmp (i : Jmp ℤ)
  deriving DecidableEq

/-- `t`: the buffer, and the number of instructions emitted. -/
structure Emitter where
  buf : Bytebuffer
  length : ℤ

def emitInstr (b : Emitter) (_ : Instr) : Emitter := { b with length := i63 (b.length + 1) }

/-- The instructions that are emitted on `b` itself, and `b` after them. -/
def emitLoop (S : Stdint) (b : Emitter) (genBody : Emitter → Except Exn Emitter) :
    Except Exn (List Instr × Emitter) :=
  -- the loop starts with the count of `b`, and with a buffer that has no room
  (genBody { b with buf := Bytebuffer.empty }).bind fun loop =>
    let loop := emitInstr loop (.cmp (.mem (.reg .esp)) (imm8 S 0))
    let loopCnd := i63 (loop.length + 1)
    let forward := .jmp (.jmp loopCnd)
    let b := emitInstr b forward
    (Bytebuffer.copy b.buf loop.buf).map fun buf =>
      let loopStart := i63 (-loopCnd)
      let back := .jmp (.jnz loopStart)
      ([forward, back], emitInstr { b with buf } back)

/-- A loop body made of calls of `emit_instr` and of nested `emit_loop`s. -/
def emitBody (S : Stdint) : Prog Instr → Emitter → Except Exn Emitter
  | .nil, b => .ok b
  | .prim i k, b => emitBody S k (emitInstr b i)
  | .loop c k, b => (emitLoop S b (emitBody S c)).bind fun r => emitBody S k r.2

/-- The instructions of a body. A loop in it has a compare and two jumps besides its own body. -/
def count : Prog Instr → ℕ
  | .nil => 0
  | .prim _ k => count k + 1
  | .loop c k => count c + 3 + count k

/-- The jumps of the loop go past its body and its compare and back, and the loop is counted. -/
def MeasuresLoop (S : Stdint) (b : Emitter) (body : Prog Instr) : Prop :=
  ∃ b', emitLoop S b (emitBody S body) =
      .ok ([.jmp (.jmp (count body + 2)), .jmp (.jnz (-(count body + 2)))], b') ∧
    b'.length = b.length + (count body + 3)

def Loopless : Prog Instr → Prop
  | .nil => True
  | .prim _ k => Loopless k
  | .loop _ _ => False

section
variable {S : Stdint}

theorem emitBody_loopless {body : Prog Instr} (h : Loopless body) {b : Emitter}
    (hb : i63 b.length = b.length) :
    emitBody S body b = .ok { b with length := i63 (b.length + count body) } := by
  induction body generalizing b with
  | nil => rw [emitBody, count, Nat.cast_zero, add_zero, hb]
  | prim i k ih =>
    have hrest : emitBody S k (emitInstr b i) =
        .ok { b with length := i63 (i63 (b.length + 1) + count k) } :=
      ih h (i63_idem (b.length + 1))
    rw [emitBody, hrest, count, i63_add_left, Nat.cast_succ, add_assoc, add_comm (1 : ℤ)]
  | loop c k => exact h.elim

/-- A loop with no loop in its body. Its jumps also go past what was emitted before it, of which only
the count is lost that its body adds. -/
theorem emitLoop_loopless {body : Prog Instr} (h : Loopless body) {b : Emitter}
    (hb : i63 b.length = b.length) :
    emitLoop S b (emitBody S body) =
      if b.buf.idx + 1 ≤ b.buf.buf.length then
        .ok ([.jmp (.jmp (i63 (b.length + (count body + 2)))),
            .jmp (.jnz (i63 (-i63 (b.length + (count body + 2)))))],
          { b with length := i63 (b.length + 2) })
      else .error (.invalidArgument "Bytes.blit") := by
  have hloop : i63 (i63 (i63 (b.length + count body) + 1) + 1) =
      i63 (b.length + (count body + 2)) := by
    rw [i63_add_left, add_assoc, i63_add_left, add_assoc]
    rfl
  have hlen : i63 (i63 (b.length + 1) + 1) = i63 (b.length + 2) := by
    rw [i63_add_left, add_assoc]
    rfl
  have hbody : emitBody S body { b with buf := .empty } =
      .ok ⟨.empty, i63 (b.length + count body)⟩ := emitBody_loopless h hb
  rw [emitLoop, hbody]
  simp only [Except.bind, emitInstr]
  rw [Bytebuffer.copy_empty, hloop]
  split
  · simp only [Except.map]
    rw [hlen]
  · rfl

/-- The buffer of a loop has no free place, so no loop can be emitted in it. -/
theorem emitBody_nested {body : Prog Instr} (h : ¬ Loopless body) {b : Emitter}
    (hb : i63 b.length = b.length) (hbuf : b.buf = .empty) :
    emitBody S body b = .error (.invalidArgument "Bytes.blit") := by
  induction body generalizing b with
  | nil => exact (h trivial).elim
  | prim i k ih => exact ih h (i63_idem (b.length + 1)) hbuf
  | loop c k ihc ihk =>
    rw [emitBody]
    by_cases hc : Loopless c
    · rw [emitLoop_loopless hc hb, hbuf, if_neg (by decide)]
      rfl
    · have hbody : emitBody S c { b with buf := .empty } = .error (.invalidArgument "Bytes.blit") :=
        ihc hc hb rfl
      rw [emitLoop, hbody]
      rfl

theorem emitLoop_nested {body : Prog Instr} (h : ¬ Loopless body) {b : Emitter}
    (hb : i63 b.length = b.length) :
    emitLoop S b (emitBody S body) = .error (.invalidArgument "Bytes.blit") := by
  have hbody : emitBody S body { b with buf := .empty } = .error (.invalidArgument "Bytes.blit") :=
    emitBody_nested h hb rfl
  rw [emitLoop, hbody]
  rfl

end

/-- No loop is ever measured right: the count of its body and its compare is lost. -/
theorem not_measuresLoop (S : Stdint) (b : Emitter) (lo : -2^62 ≤ b.length) (hi : b.length < 2^62)
    (body : Prog Instr) : ¬ MeasuresLoop S b body := by
  have hb := i63_of_range lo hi
  rintro ⟨b', hok, hlen⟩
  by_cases h : Loopless body
  · rw [emitLoop_loopless h hb] at hok
    split at hok
    · rw [Except.ok.injEq, Prod.mk.injEq] at hok
      have hle : i63 (b.length + 2) ≤ b.length + 2 := by
        unfold i63
        rw [Int.bmod_def]
        split <;> omega
      rw [← hok.2] at hlen
      simp only at hlen
      omega
    · cases hok
  · rw [emitLoop_nested h hb] at hok
    cases hok

theorem not_measuresLoop_empty :
    ¬ MeasuresLoop .checked ⟨⟨0, [0]⟩, 0⟩ .nil :=
  not_measuresLoop .checked ⟨⟨0, [0]⟩, 0⟩ (by decide) (by decide) .nil

/-- An empty loop at the start of a program: of its three instructions two are counted. -/
theorem measuresLoop_not :
    ¬ ∀ (S : Stdint) (b : Emitter) (body : Prog Instr), -2^62 ≤ b.length → b.length < 2^62 →
      MeasuresLoop S b body := by
  intro h
  obtain ⟨b', hok, hlen⟩ := h .checked ⟨⟨0, [0]⟩, 0⟩ .nil (by decide) (by decide)
  have hrun : emitLoop .checked ⟨⟨0, [0]⟩, 0⟩ (emitBody .checked .nil) =
      .ok ([.jmp (.jmp 2), .jmp (.jnz (-2))], ⟨⟨0, [0]⟩, 2⟩) := rfl
  rw [hrun] at hok
  cases hok
  exact absurd hlen (by decide)

end Codegen
end Bfcomp.Ocaml
