import Bfcomp.Foundations.SmallStep
import Bfcomp.Interpret.Store
import Bfcomp.Ocaml.Ir

/-! # The OCaml interpreter (`bin/interpreter.ml`)

A run over a tape of 30000 characters, every access to which is checked. The pointer itself moves
freely; it is an `int`. `execs n` is `f` on the rest of a program, with fuel for the local function
`loop`: each loop enters its body at most `n` times. -/

namespace Bfcomp.Ocaml
set_option autoImplicit false

inductive Exn where
  | invalidArgument (msg : String)
  | endOfFile
  deriving DecidableEq

namespace Interpreter

def tapeLength : ℕ := 30000

/-- The bounds check of `tape.(dp)`. -/
def bounds (s : Store) : Except Exn Unit :=
  if s.OnTape tapeLength then .ok () else .error (.invalidArgument "index out of bounds")

/-- `Char.chr`. -/
def chr (n : ℤ) : Except Exn Byte :=
  if 0 ≤ n ∧ n ≤ 255 then .ok (BitVec.ofInt 8 n) else .error (.invalidArgument "Char.chr")

def imod (a b : ℤ) : ℤ :=
  let m := a.tmod b
  if m ≥ 0 then m else i63 (m + b)

/-- `tape.(dp)`. -/
def load (s : Store) : Except Exn Byte :=
  (bounds s).map fun _ => s.cell

/-- `tape.(dp) <- c`. -/
def assign (s : Store) (c : Byte) : Except Exn Store :=
  (bounds s).map fun _ => s.setCell c

/-- The cases of `f` other than `Loop`. The right side of an assignment is evaluated first. -/
def act : Ir → Store → Except Exn Store
  | .tape x, s => .ok { s with ptr := i63 (s.ptr + x) }
  | .set x, s => (chr x).bind (assign s)
  | .cell x, s =>
    (load s).bind fun c =>
      let sum := i63 ((c.toNat : ℤ) + x)
      if x > 0 then (chr (sum.tmod 256)).bind (assign s)
      else (chr (imod sum 256)).bind (assign s)
  | .read, s =>
    match s.input with
    | [] => .error .endOfFile
    | c :: rest => assign { s with input := rest } c
  | .write, s => (bounds s).map fun _ => s.writeByte
  | .loop _, s => .ok s

/-- `tape.(dp') <> Char.chr 0`. -/
def test (s : Store) : Except Exn Bool :=
  (load s).map fun c => decide (c ≠ 0)

mutual

def exec (n : ℕ) : Ir → Store → Outcome Exn Store
  | .loop body, s => iterate test (execs n body) n s
  | i, s => .ofExcept s (act i s)

def execs (n : ℕ) : List Ir → Store → Outcome Exn Store
  | [], s => .done s
  | i :: p, s => (exec n i s).bind (execs n p)

end

/-- `run`, with fuel `n`. -/
def run (n : ℕ) (program : List Ir) (input : List Byte) : Outcome Exn Store :=
  execs n program (.start input)

/-! ## Single instructions -/

theorem bounds_of_onTape {s : Store} (h : s.OnTape tapeLength) : bounds s = .ok () := if_pos h

theorem imod_256 (x : ℤ) : imod x 256 = x % 256 := by
  have hm := Int.tmod_add_mul_tdiv x 256
  have hlt : x.tmod 256 < 256 := Int.tmod_lt_of_pos x (by norm_num)
  have hgt := Int.lt_tmod_of_pos x (b := 256) (by norm_num)
  simp only [imod]
  split
  · omega
  · rw [i63_of_range (by omega) (by omega)]
    omega

/-- Adding `x` to `c` overflows in the branch that takes the remainder with `mod`, and leaves a
negative one. -/
def Wraps (c : Byte) (x : ℤ) : Prop :=
  0 < x ∧ i63 ((c.toNat : ℤ) + x) < 0 ∧ ((c.toNat : ℤ) + x) % 256 ≠ 0

instance (c : Byte) (x : ℤ) : Decidable (Wraps c x) := instDecidableAnd

theorem not_wraps {c : Byte} {x : ℤ} (hx : x < 2^61) : ¬ Wraps c x := by
  rintro ⟨hpos, hneg, _⟩
  have hc := c.isLt
  rw [i63_of_range (by omega) (by omega)] at hneg
  omega

/-- The remainder that is handed to `Char.chr` is the sum of the bytes, unless it is negative. -/
theorem chr_sum (c : Byte) (x : ℤ) :
    (if x > 0 then chr ((i63 ((c.toNat : ℤ) + x)).tmod 256)
      else chr (imod (i63 ((c.toNat : ℤ) + x)) 256)) =
      if Wraps c x then .error (.invalidArgument "Char.chr") else .ok (c + BitVec.ofInt 8 x) := by
  have hmod := i63_emod_256 ((c.toNat : ℤ) + x)
  have hbyte : BitVec.ofInt 8 (((c.toNat : ℤ) + x) % 256) = c + BitVec.ofInt 8 x := by
    have hc := c.isLt
    apply BitVec.eq_of_toNat_eq
    simp
    omega
  have hchr : chr (((c.toNat : ℤ) + x) % 256) = .ok (c + BitVec.ofInt 8 x) := by
    rw [chr, if_pos (by omega), hbyte]
  have htmod := Int.tmod_add_mul_tdiv (i63 ((c.toNat : ℤ) + x)) 256
  have hgt := Int.lt_tmod_of_pos (i63 ((c.toNat : ℤ) + x)) (b := 256) (by norm_num)
  have hneg_le : i63 ((c.toNat : ℤ) + x) < 0 → (i63 ((c.toNat : ℤ) + x)).tmod 256 ≤ 0 := by
    intro hneg
    have hnonneg := Int.tmod_nonneg 256 (Int.neg_nonneg_of_nonpos hneg.le)
    rw [Int.neg_tmod] at hnonneg
    omega
  by_cases hw : Wraps c x
  · have hle := hneg_le hw.2.1
    have hne := hw.2.2
    rw [if_pos hw, if_pos hw.1, chr, if_neg (by omega)]
  · rw [if_neg hw]
    split
    · rename_i hpos
      rcases Int.lt_or_le (i63 ((c.toNat : ℤ) + x)) 0 with hneg | hnonneg
      · have hzero : ((c.toNat : ℤ) + x) % 256 = 0 := by
          by_contra hne
          exact hw ⟨hpos, hneg, hne⟩
        have hle := hneg_le hneg
        have htzero : (i63 ((c.toNat : ℤ) + x)).tmod 256 = ((c.toNat : ℤ) + x) % 256 := by omega
        rw [htzero, hchr]
      · rw [Int.tmod_eq_emod_of_nonneg hnonneg, hmod, hchr]
    · rw [imod_256, hmod, hchr]

theorem act_cell_eq (x : ℤ) (s : Store) :
    act (.cell x) s =
      if s.OnTape tapeLength then
        if Wraps s.cell x then .error (.invalidArgument "Char.chr")
        else .ok (s.setCell (s.cell + BitVec.ofInt 8 x))
      else .error (.invalidArgument "index out of bounds") := by
  have hsum := chr_sum s.cell x
  by_cases hs : s.OnTape tapeLength
  · have hact : act (.cell x) s =
        (if x > 0 then chr ((i63 ((s.cell.toNat : ℤ) + x)).tmod 256)
          else chr (imod (i63 ((s.cell.toNat : ℤ) + x)) 256)).bind (assign s) := by
      rw [act, load, bounds_of_onTape hs]
      simp only [Except.bind, Except.map]
      split <;> rfl
    rw [hact, hsum, if_pos hs]
    split
    · rfl
    · simp only [Except.bind, assign, bounds_of_onTape hs, Except.map]
  · rw [if_neg hs, act, load, bounds, if_neg hs]
    rfl

theorem act_cell {x : ℤ} (hx : x.natAbs < 2^61) (s : Store) :
    act (.cell x) s =
      if s.OnTape tapeLength then .ok (s.setCell (s.cell + BitVec.ofInt 8 x))
      else .error (.invalidArgument "index out of bounds") := by
  rw [act_cell_eq, if_neg (not_wraps (by omega))]

theorem exec_cell (n : ℕ) (x : ℤ) {s : Store} (hs : s.OnTape tapeLength) :
    exec n (.cell x) s =
      if Wraps s.cell x then .raised (.invalidArgument "Char.chr") s
      else .done (s.setCell (s.cell + BitVec.ofInt 8 x)) := by
  rw [exec, act_cell_eq, if_pos hs]
  · split <;> rfl
  · simp

theorem assign_ok {s t : Store} {c : Byte} (h : assign s c = .ok t) : t = s.setCell c := by
  unfold assign bounds at h
  split at h <;> cases h
  rfl

theorem act_cell_ok {x : ℤ} {s t : Store} (h : act (.cell x) s = .ok t) :
    ∃ c, t = s.setCell c := by
  have hput : ∀ n, (chr n).bind (assign s) = .ok t → ∃ c, t = s.setCell c := by
    intro n hn
    unfold chr at hn
    split at hn
    · exact ⟨_, assign_ok hn⟩
    · cases hn
  rw [act] at h
  cases hl : load s with
  | error e =>
    rw [hl] at h
    cases h
  | ok c =>
    rw [hl] at h
    simp only [Except.bind] at h
    split at h
    · exact hput _ h
    · exact hput _ h

theorem act_set_zero {s : Store} (hs : s.OnTape tapeLength) :
    act (.set 0) s = .ok (s.setCell 0) := by
  have hchr : chr 0 = .ok 0 := rfl
  rw [act, hchr, Except.bind, assign, bounds_of_onTape hs, Except.map]

theorem test_of_onTape {s : Store} (h : s.OnTape tapeLength) :
    test s = .ok (decide (s.cell ≠ 0)) := by
  rw [test, load, bounds_of_onTape h]
  rfl

theorem test_error {s : Store} (hs : ¬ s.OnTape tapeLength) :
    test s = .error (.invalidArgument "index out of bounds") := by
  rw [test, load, bounds, if_neg hs]
  rfl

theorem test_ok {s : Store} {b : Bool} (h : test s = .ok b) :
    s.OnTape tapeLength ∧ b = decide (s.cell ≠ 0) := by
  unfold test load bounds at h
  split at h <;> cases h
  exact ⟨‹_›, rfl⟩

theorem test_false {s : Store} (h : test s = .ok false) : s.OnTape tapeLength ∧ s.cell = 0 := by
  obtain ⟨hs, hb⟩ := test_ok h
  exact ⟨hs, by simpa using hb⟩

/-! ## The program as a structured program -/

mutual

def consProg : Ir → Prog Ir → Prog Ir
  | .loop body, k => .loop (toProg body) k
  | i, k => .prim i k

def toProg : List Ir → Prog Ir
  | [] => .nil
  | i :: p => consProg i (toProg p)

end

mutual

theorem exec_bind_eq (n : ℕ) (k : Prog Ir) : ∀ i s,
    (exec n i s).bind (k.exec act test n) = (consProg i k).exec act test n s
  | .loop body, s => by
    have hbody : execs n body = (toProg body).exec act test n := by
      funext t
      exact execs_eq n body t
    rw [exec, consProg, Prog.exec, hbody]
  | .tape x, s => by simp only [exec, consProg, Prog.ofExcept_bind_exec]
  | .cell x, s => by simp only [exec, consProg, Prog.ofExcept_bind_exec]
  | .read, s => by simp only [exec, consProg, Prog.ofExcept_bind_exec]
  | .write, s => by simp only [exec, consProg, Prog.ofExcept_bind_exec]
  | .set x, s => by simp only [exec, consProg, Prog.ofExcept_bind_exec]

theorem execs_eq (n : ℕ) : ∀ p s, execs n p s = (toProg p).exec act test n s
  | [], s => rfl
  | i :: p, s => by
    have hp : execs n p = (toProg p).exec act test n := by
      funext t
      exact execs_eq n p t
    rw [execs, toProg, hp]
    exact exec_bind_eq n (toProg p) i s

end

/-- The interpreter one step at a time. -/
abbrev step : Prog.Left Ir Store → Option (Prog.Left Ir Store) := Prog.step act test

/-- A program, about to be run. -/
def initial (program : List Ir) (input : List Byte) : Prog.Left Ir Store :=
  ⟨toProg program, .start input⟩

/-- The interpreter's run ends exactly when its steps do, in the same store. -/
theorem run_done_iff (program : List Ir) (input : List Byte) (t : Store) :
    (∃ n, run n program input = .done t) ↔
      ∃ k, Runs step k (initial program input) ⟨.nil, t⟩ := by
  simp only [run, execs_eq]
  exact Prog.exec_done_iff (toProg program) (.start input) t

end Interpreter
end Bfcomp.Ocaml
