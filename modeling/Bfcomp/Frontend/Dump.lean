import Bfcomp.Frontend.Reading

/-! # An IR printed as Brainfuck (`ir_ctx_dump_bf`)

The text of an op is a run of its character, or nothing where the op's argument is zero. Read one
character at a time, it is the program with every op replaced by as many unit ops. -/

namespace Bfcomp
set_option autoImplicit false

/-- `putcc`: the loop counts in an `int`, which overflows before it reaches a count of `2^31`. -/
def putcc (c : Byte) (count : ℤ) : Option (List Byte) :=
  if count < 2^31 then some (List.replicate count.toNat c) else none

/-- The `switch` of `ir_ctx_dump_bf`. -/
def dumpOp (opcode : IrOp) : Option (List Byte) :=
  match opcode.kind with
  | .read => putcc (ascii ',') opcode.arg
  | .write => putcc (ascii '.') opcode.arg
  | .cell =>
    if opcode.arg < 0 then putcc (ascii '-') (-opcode.arg) else putcc (ascii '+') opcode.arg
  | .tape =>
    if opcode.arg < 0 then putcc (ascii '<') (-opcode.arg) else putcc (ascii '>') opcode.arg
  | .loopStart => some [ascii '[']
  | .loopEnd => some [ascii ']']
  | .set => putcc (ascii '#') opcode.arg
  | .max => putcc (ascii '#') opcode.arg

def dumpOps : List IrOp → Option (List Byte)
  | [] => some []
  | opcode :: data =>
    match dumpOp opcode, dumpOps data with
    | some w, some v => some (w ++ v)
    | _, _ => none

/-- What is printed; `puts` ends it with a newline. -/
def irCtxDumpBf (ctx : IrCtx) : Option (List Byte) :=
  (dumpOps ctx.data).map (· ++ [ascii '\n'])

/-! ## The text of a program -/

def Prim.chars : Prim → List Byte
  | tape n => List.replicate n.natAbs (if n < 0 then ascii '<' else ascii '>')
  | cell n => List.replicate n.natAbs (if n < 0 then ascii '-' else ascii '+')
  | write n => List.replicate n.toNat (ascii '.')
  | read n => List.replicate n.toNat (ascii ',')

def chars : Prog Prim → List Byte
  | .nil => []
  | .prim i k => i.chars ++ chars k
  | .loop b k => ascii '[' :: chars b ++ ascii ']' :: chars k

/-- The op's argument can be counted in an `int`. -/
def Prim.Countable (i : Prim) : Prop := i.op.arg.natAbs < 2^31

theorem putcc_signed {n : ℤ} (h : n.natAbs < 2^31) (c d : Byte) :
    (if n < 0 then putcc c (-n) else putcc d n) =
      some (List.replicate n.natAbs (if n < 0 then c else d)) := by
  by_cases hn : n < 0
  · have habs : (-n).toNat = n.natAbs := by omega
    rw [if_pos hn, if_pos hn, putcc, if_pos (by omega), habs]
  · have habs : n.toNat = n.natAbs := by omega
    rw [if_neg hn, if_neg hn, putcc, if_pos (by omega), habs]

theorem putcc_toNat {n : ℤ} (h : n.natAbs < 2^31) (c : Byte) :
    putcc c n = some (List.replicate n.toNat c) := if_pos (by omega)

theorem dumpOp_prim {i : Prim} (h : i.Countable) : dumpOp i.op = some i.chars := by
  cases i with
  | tape n => exact putcc_signed h _ _
  | cell n => exact putcc_signed h _ _
  | write n => exact putcc_toNat h _
  | read n => exact putcc_toNat h _

theorem dumpOps_cons {opcode : IrOp} {data : List IrOp} {w v : List Byte}
    (hw : dumpOp opcode = some w) (hv : dumpOps data = some v) :
    dumpOps (opcode :: data) = some (w ++ v) := by
  rw [dumpOps, hw, hv]

theorem dumpOps_append {data data' : List IrOp} {w v : List Byte} (hw : dumpOps data = some w)
    (hv : dumpOps data' = some v) : dumpOps (data ++ data') = some (w ++ v) := by
  induction data generalizing w with
  | nil =>
    cases hw
    exact hv
  | cons opcode data ih =>
    rw [dumpOps] at hw
    split at hw
    · cases hw
      rw [List.cons_append, dumpOps_cons ‹_› (ih ‹_›), List.append_assoc]
    · cases hw

theorem dumpOps_flat {p : Prog Prim} (h : p.All Prim.Countable) :
    dumpOps (flat p) = some (chars p) := by
  induction p with
  | nil => rfl
  | prim i k ih => exact dumpOps_cons (dumpOp_prim h.1) (ih h.2)
  | loop b k ihb ihk =>
    have hrest : dumpOps (⟨.loopEnd, -((flat b).length + 1)⟩ :: flat k) =
        some ([ascii ']'] ++ chars k) := dumpOps_cons rfl (ihk h.2)
    have hbody : dumpOps (⟨.loopStart, (flat b).length + 1⟩ :: flat b) =
        some ([ascii '['] ++ chars b) := dumpOps_cons rfl (ihb h.1)
    exact dumpOps_append hbody hrest

/-! ## Its length and its brackets -/

/-- The number of characters of an op. -/
def Prim.weight : Prim → ℕ
  | tape n => n.natAbs
  | cell n => n.natAbs
  | write n => n.toNat
  | read n => n.toNat

def weight : Prog Prim → ℕ
  | .nil => 0
  | .prim i k => i.weight + weight k
  | .loop b k => weight b + 2 + weight k

theorem chars_length (p : Prog Prim) : (chars p).length = weight p := by
  induction p with
  | nil => rfl
  | prim i k ih => cases i <;> simp [chars, weight, Prim.chars, Prim.weight, ih]
  | loop b k ihb ihk =>
    simp only [chars, weight, List.length_append, List.length_cons, ihb, ihk]
    omega

theorem weight_append (p q : Prog Prim) : weight (p ++ q) = weight p + weight q := by
  induction p with
  | nil => simp [weight]
  | prim i k ih => rw [Prog.prim_append, weight, weight, ih, Nat.add_assoc]
  | loop b k _ ih => rw [Prog.loop_append, weight, weight, ih, ← Nat.add_assoc]

theorem weight_copies (i : Prim) (m : ℕ) : weight (Prog.copies i m) = m * i.weight := by
  induction m with
  | zero => rw [Prog.copies, weight, Nat.zero_mul]
  | succ m ih => rw [Prog.copies, weight, ih, Nat.succ_mul, Nat.add_comm]

theorem Prim.chars_run (i : Prim) : ∃ c m, i.chars = List.replicate m c ∧ c ≠ ascii '[' ∧
    c ≠ ascii ']' ∧ c ≠ 0 := by
  cases i with
  | tape n => exact ⟨_, _, rfl, by split <;> decide, by split <;> decide, by split <;> decide⟩
  | cell n => exact ⟨_, _, rfl, by split <;> decide, by split <;> decide, by split <;> decide⟩
  | write n => exact ⟨_, _, rfl, by decide, by decide, by decide⟩
  | read n => exact ⟨_, _, rfl, by decide, by decide, by decide⟩

theorem chars_nulFree (p : Prog Prim) : (0 : Byte) ∉ chars p := by
  induction p with
  | nil => exact List.not_mem_nil
  | prim i k ih =>
    obtain ⟨c, m, hrun, _, _, hne⟩ := i.chars_run
    rw [chars, hrun, List.mem_append, List.mem_replicate]
    rintro (⟨_, h⟩ | h)
    · exact hne h.symm
    · exact ih h
  | loop b k ihb ihk =>
    rw [chars, List.cons_append, List.mem_cons, List.mem_append, List.mem_cons]
    rintro (h | h | h | h)
    · exact absurd h (by decide)
    · exact ihb h
    · exact absurd h (by decide)
    · exact ihk h

theorem openAfter_chars (p : Prog Prim) (d : ℕ) (s : List Byte) :
    openAfter d (chars p ++ s) = openAfter d s := by
  induction p generalizing d s with
  | nil => rfl
  | prim i k ih =>
    obtain ⟨c, m, hrun, ho, hc, _⟩ := i.chars_run
    rw [chars, List.append_assoc, hrun, openAfter_replicate ho hc, ih]
  | loop b k ihb ihk =>
    have hsplit : chars (.loop b k) ++ s =
        ascii '[' :: (chars b ++ (ascii ']' :: (chars k ++ s))) := by simp [chars]
    rw [hsplit, openAfter_open, ihb, openAfter_close_succ, ihk]

/-! ## Read one character at a time -/

/-- The op of a single character. -/
def unitOp (c : Byte) : Option Prim :=
  if c = ascii ',' then some (.read 1)
  else if c = ascii '.' then some (.write 1)
  else if c = ascii '+' then some (.cell 1)
  else if c = ascii '-' then some (.cell (-1))
  else if c = ascii '>' then some (.tape 1)
  else if c = ascii '<' then some (.tape (-1))
  else none

/-- What the unit op of a run is, by the kind of its op. -/
theorem runOp_unit {c : Byte} {m : ℕ} {j : Prim} (hm : m < 2^63) (h : runOp c m = some j) :
    (unitOp c = some (.read 1) ∧ j = .read m) ∨ (unitOp c = some (.write 1) ∧ j = .write m) ∨
    ∃ mk kind d, Coalesces mk kind ∧ (d = 1 ∨ d = -1) ∧ unitOp c = some (mk d) ∧
      j = mk (i64 (d * m)) := by
  have hcount : i64 m = m := i64_of_range (by omega) (by omega)
  have hup : (1 : ℤ) * m = m := Int.one_mul _
  have hdown : (-1 : ℤ) * m = -m := Int.neg_one_mul _
  rcases runOp_cases h with ⟨rfl, rfl⟩ | ⟨rfl, rfl⟩ | ⟨rfl, rfl⟩ | ⟨rfl, rfl⟩ | ⟨rfl, rfl⟩ |
    ⟨rfl, rfl⟩
  · exact .inl ⟨rfl, by rw [hcount]⟩
  · exact .inr (.inl ⟨rfl, by rw [hcount]⟩)
  · exact .inr (.inr ⟨.cell, .cell, 1, .cell, .inl rfl, rfl, by rw [hup]⟩)
  · exact .inr (.inr ⟨.cell, .cell, -1, .cell, .inr rfl, rfl, by rw [hdown]⟩)
  · exact .inr (.inr ⟨.tape, .tape, 1, .tape, .inl rfl, rfl, by rw [hup]⟩)
  · exact .inr (.inr ⟨.tape, .tape, -1, .tape, .inr rfl, rfl, by rw [hdown]⟩)

/-- An op as a run of unit ops. -/
def Prim.units : Prim → Prog Prim
  | tape n => Prog.copies (tape (if n < 0 then -1 else 1)) n.natAbs
  | cell n => Prog.copies (cell (if n < 0 then -1 else 1)) n.natAbs
  | write n => Prog.copies (write 1) n.toNat
  | read n => Prog.copies (read 1) n.toNat

theorem Prim.weight_units (i : Prim) : Bfcomp.weight i.units = i.weight := by
  cases i with
  | tape n =>
    rw [units, weight_copies, weight, weight]
    split <;> exact Nat.mul_one _
  | cell n =>
    rw [units, weight_copies, weight, weight]
    split <;> exact Nat.mul_one _
  | write n => exact (weight_copies _ _).trans (Nat.mul_one _)
  | read n => exact (weight_copies _ _).trans (Nat.mul_one _)

theorem weight_subst_units (p : Prog Prim) : weight (p.subst Prim.units) = weight p := by
  induction p with
  | nil => rfl
  | prim i k ih => rw [Prog.subst, weight_append, i.weight_units, ih, weight]
  | loop b k ihb ihk => rw [Prog.subst, weight, weight, ihb, ihk]

theorem Reading.text_prim (i : Prim) (z : Reading Prim) :
    z.text unitOp i.chars = ⟨z.cur ++ i.units, z.outer⟩ := by
  cases i with
  | tape n =>
    refine Reading.text_run ?_ ?_ ?_ _ z
    · split <;> decide
    · split <;> decide
    · split <;> rfl
  | cell n =>
    refine Reading.text_run ?_ ?_ ?_ _ z
    · split <;> decide
    · split <;> decide
    · split <;> rfl
  | write n =>
    refine Reading.text_run ?_ ?_ ?_ _ z
    · decide
    · decide
    · rfl
  | read n =>
    refine Reading.text_run ?_ ?_ ?_ _ z
    · decide
    · decide
    · rfl

theorem Reading.text_chars (p : Prog Prim) (z : Reading Prim) :
    z.text unitOp (chars p) = ⟨z.cur ++ p.subst Prim.units, z.outer⟩ := by
  induction p generalizing z with
  | nil => rw [Prog.subst, Prog.append_nil]; rfl
  | prim i k ih =>
    rw [chars, Reading.text_append, Reading.text_prim, ih, Prog.subst, Prog.append_assoc]
  | loop b k ihb ihk =>
    have hopen : z.text unitOp (ascii '[' :: chars b) =
        (z.next unitOp (ascii '[')).text unitOp (chars b) := rfl
    have hclose : ∀ z : Reading Prim, z.text unitOp (ascii ']' :: chars k) =
        (z.next unitOp (ascii ']')).text unitOp (chars k) := fun _ => rfl
    rw [chars, Reading.text_append, hopen, Reading.next_open, ihb, hclose, Prog.nil_append,
      Reading.next_close, ihk, Prog.subst, Prog.append_assoc]
    rfl

/-- The characters that what is read stands for. -/
def Reading.weight (z : Reading Prim) : ℕ :=
  Bfcomp.weight z.cur + (z.outer.map fun p => Bfcomp.weight p + 1).sum

theorem Reading.weight_next (z : Reading Prim) (c : Byte) :
    (z.next unitOp c).weight ≤ z.weight + 1 := by
  obtain ⟨cur, outer⟩ := z
  by_cases ho : c = ascii '['
  · subst ho
    simp only [Reading.next_open, weight, Bfcomp.weight, List.map_cons, List.sum_cons]
    omega
  by_cases hc : c = ascii ']'
  · subst hc
    cases outer with
    | nil => exact Nat.le_succ _
    | cons p ps =>
      simp only [Reading.next_close, weight, Bfcomp.weight, weight_append, List.map_cons,
        List.sum_cons]
      omega
  rw [Reading.next_other ho hc]
  cases hu : unitOp c with
  | none => exact Nat.le_succ _
  | some i =>
    have hi : i.weight = 1 := by
      unfold unitOp at hu
      repeat'
        split at hu
        · cases hu
          rfl
      cases hu
    simp only [weight, Bfcomp.weight, weight_append, hi]
    omega

theorem Reading.weight_text (z : Reading Prim) (s : List Byte) :
    (z.text unitOp s).weight ≤ z.weight + s.length := by
  induction s generalizing z with
  | nil => exact Nat.le_refl _
  | cons c s ih =>
    have hrest := ih (z.next unitOp c)
    have hnext := z.weight_next c
    have hstep : z.text unitOp (c :: s) = (z.next unitOp c).text unitOp s := rfl
    rw [hstep, List.length_cons]
    omega

end Bfcomp
