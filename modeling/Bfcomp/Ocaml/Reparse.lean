import Bfcomp.Ocaml.Print
import Bfcomp.Ocaml.Scan
import Bfcomp.Ocaml.ZeroLoop

/-! # Optimised programs, printed and parsed again

What `show_t` prints of an instruction the parser reads as a run of unit instructions; of `Set` it
reads the loop that counts the cell down to zero. With the pointer on the tape these do what the
instruction does, so the program that is read back runs as the printed one. -/

namespace Bfcomp.Ocaml
set_option autoImplicit false

open Interpreter

/-! ## What is read back -/

mutual

/-- The instructions that the text of an instruction is parsed to. -/
def reread : Ir → List Ir
  | .tape n => List.replicate n.natAbs (.tape (if n < 0 then -1 else 1))
  | .cell n => List.replicate n.natAbs (.cell (if n < 0 then -1 else 1))
  | .set _ => [.loop [.cell (-1)]]
  | .read => [.read]
  | .write => [.write]
  | .loop b => [.loop (rereadAll b)]

def rereadAll : List Ir → List Ir
  | [] => []
  | i :: p => reread i ++ rereadAll p

end

mutual

/-- The length of the text of an instruction. -/
def showLength : Ir → ℕ
  | .tape n => n.natAbs
  | .cell n => n.natAbs
  | .set _ => 3
  | .read => 1
  | .write => 1
  | .loop b => showLengthAll b + 2

def showLengthAll : List Ir → ℕ
  | [] => 0
  | i :: p => showLength i + showLengthAll p

end

/-- `Sys.max_string_length`. -/
abbrev maxStringLength : ℕ := 144115188075855863

/-- Every `Set` of the program, at any depth, is a `Set 0`. -/
def SetsZero (p : List Ir) : Prop := (toProg p).All fun i => ∀ x, i = .set x → x = 0

theorem Tree.append {w v : List Byte} {p q : List Ir} (h : Tree w p) (h' : Tree v q) :
    Tree (w ++ v) (p ++ q) := by
  induction h with
  | nil => exact h'
  | unit hi _ ih => exact .unit hi ih
  | skip ho hc hi _ ih => exact .skip ho hc hi ih
  | @loop w u b p hw _ _ ihu =>
    have hsplit : ascii '[' :: w ++ ascii ']' :: u ++ v =
        ascii '[' :: w ++ ascii ']' :: (u ++ v) := by simp
    rw [hsplit]
    exact .loop hw ihu

theorem Tree.replicate {c : Byte} {i : Ir} (h : Parser.unitOf c = some i) (m : ℕ) :
    Tree (List.replicate m c) (List.replicate m i) := by
  induction m with
  | zero => exact .nil
  | succ m ih => exact .unit h ih

theorem stringMake_natAbs {n : ℤ} (h : n.natAbs ≤ maxStringLength) (c : Byte) :
    stringMake (absInt n) c = .ok (List.replicate n.natAbs c) := by
  unfold maxStringLength at h
  have habs : absInt n = n.natAbs := by
    unfold absInt
    split
    · omega
    · rw [i63_of_range (by omega) (by omega)]
      omega
  rw [habs, stringMake, if_pos (by omega), Int.toNat_natCast]

mutual

/-- The text of an instruction is the text of the instructions that are read back. -/
theorem showT_tree : ∀ i, showLength i ≤ maxStringLength →
    ∃ w, showT i = .ok w ∧ w.length = showLength i ∧ Tree w (reread i)
  | .tape n, h => by
    refine ⟨_, stringMake_natAbs h _, List.length_replicate, Tree.replicate ?_ _⟩
    split <;> rfl
  | .cell n, h => by
    refine ⟨_, stringMake_natAbs h _, List.length_replicate, Tree.replicate ?_ _⟩
    split <;> rfl
  | .set _, _ => ⟨_, rfl, rfl, .loop (w := [ascii '-']) (v := []) (.unit rfl .nil) .nil⟩
  | .read, _ => ⟨_, rfl, rfl, .unit rfl .nil⟩
  | .write, _ => ⟨_, rfl, rfl, .unit rfl .nil⟩
  | .loop b, h => by
    rw [showLength] at h
    obtain ⟨w, hw, hlen, htree⟩ := showAll_tree b (by omega)
    refine ⟨_, showT_loop hw, ?_, .loop (v := []) htree .nil⟩
    simp only [List.length_append, List.length_cons, List.length_nil, showLength]
    omega

theorem showAll_tree : ∀ p, showLengthAll p ≤ maxStringLength →
    ∃ w, showAll p = .ok w ∧ w.length = showLengthAll p ∧ Tree w (rereadAll p)
  | [], _ => ⟨[], rfl, rfl, .nil⟩
  | i :: p, h => by
    rw [showLengthAll] at h
    obtain ⟨w, hw, hwlen, hwtree⟩ := showT_tree i (by omega)
    obtain ⟨v, hv, hvlen, hvtree⟩ := showAll_tree p (by omega)
    refine ⟨w ++ v, showAll_cons hw hv, ?_, hwtree.append hvtree⟩
    rw [List.length_append, hwlen, hvlen, showLengthAll]

end

/-! ## The same program, one primitive at a time -/

theorem toProg_append (p q : List Ir) : toProg (p ++ q) = toProg p ++ toProg q := by
  induction p with
  | nil => rfl
  | cons i p ih => cases i <;> simp only [List.cons_append, toProg, consProg, ih] <;> rfl

theorem toProg_replicate {i : Ir} (hi : ¬ i.IsLoop) (m : ℕ) :
    toProg (List.replicate m i) = Prog.copies i m := by
  induction m with
  | zero => rfl
  | succ m ih =>
    rw [List.replicate_succ, toProg, ih]
    cases i with
    | loop b => exact (hi trivial).elim
    | _ => rfl

/-- What is read back for an instruction, as a program. -/
abbrev rereadProg (i : Ir) : Prog Ir := toProg (reread i)

mutual

theorem toProg_reread : ∀ i k, toProg (reread i) ++ Prog.subst rereadProg k =
    (consProg i k).subst rereadProg
  | .loop b, k => by
    rw [reread, consProg, Prog.subst, ← toProg_rereadAll b]
    rfl
  | .tape _, _ => rfl
  | .cell _, _ => rfl
  | .read, _ => rfl
  | .write, _ => rfl
  | .set _, _ => rfl

theorem toProg_rereadAll : ∀ p, toProg (rereadAll p) = (toProg p).subst rereadProg
  | [] => rfl
  | i :: p => by
    rw [rereadAll, toProg_append, toProg_rereadAll p, toProg_reread i, toProg]

end

/-- An instruction that can be printed. -/
def Printable : Ir → Prop
  | .tape n => n.natAbs ≤ maxStringLength
  | .cell n => n.natAbs ≤ maxStringLength
  | .set n => n = 0
  | .read => True
  | .write => True
  | .loop _ => False

mutual

theorem printable_cons : ∀ i k, showLength i ≤ maxStringLength →
    ((consProg i k).All fun i => ∀ x, i = .set x → x = 0) → k.All Printable →
    (consProg i k).All Printable
  | .loop b, _, h, hz, hk => by
    rw [showLength] at h
    exact ⟨printable b (by omega) hz.1, hk⟩
  | .tape _, _, h, _, hk => ⟨h, hk⟩
  | .cell _, _, h, _, hk => ⟨h, hk⟩
  | .read, _, _, _, hk => ⟨trivial, hk⟩
  | .write, _, _, _, hk => ⟨trivial, hk⟩
  | .set _, _, _, hz, hk => ⟨hz.1 _ rfl, hk⟩

theorem printable : ∀ p, showLengthAll p ≤ maxStringLength → SetsZero p →
    (toProg p).All Printable
  | [], _, _ => trivial
  | i :: p, h, hz => by
    rw [showLengthAll] at h
    have hp : SetsZero p := by
      unfold SetsZero at hz ⊢
      rw [toProg] at hz
      cases i <;> exact hz.2
    exact printable_cons i (toProg p) (by omega) hz (printable p (by omega) hp)

end

/-! ## Meaning -/

/-- In every state that the run comes to, the pointer is on the tape. -/
def StaysOnTape (program : List Ir) (input : List Byte) : Prop :=
  ∀ k c, Runs step k (initial program input) c → c.state.OnTape tapeLength

/-- The machine is left with printable code, and its pointer stays on the tape. -/
def Steady (c : Prog.Left Ir Store) : Prop :=
  c.code.All Printable ∧ ∀ k c', Runs step k c c' → c'.state.OnTape tapeLength

theorem Steady.step {c c' : Prog.Left Ir Store} (H : Steady c) (h : Interpreter.step c = some c') :
    Steady c' :=
  ⟨Prog.step_all H.1 h, fun k d hr => H.2 (k + 1) d (hr.head h)⟩

theorem exec_tapes (n : ℕ) (d : ℤ) (m : ℕ) {s : Store} (hs : i63 s.ptr = s.ptr) :
    (Prog.copies (.tape d) m).exec act test n s =
      .done { s with ptr := i63 (s.ptr + d * m) } := by
  induction m generalizing s with
  | zero => simp [Prog.copies, hs]
  | succ m ih =>
    have hact : act (.tape d) s = .ok { s with ptr := i63 (s.ptr + d) } := rfl
    have hsum : s.ptr + d + d * m = s.ptr + d * (m + 1 : ℕ) := by
      rw [Int.natCast_succ, Int.mul_add, Int.mul_one]
      omega
    rw [Prog.copies, Prog.exec_prim_ok hact, ih]
    · simp only [i63_add_left, hsum]
    · have h := i63_add_left (s.ptr + d) 0
      rwa [Int.add_zero, Int.add_zero] at h

theorem exec_cells (n : ℕ) {d : ℤ} (hd : d.natAbs < 2^61) (m : ℕ) {s : Store}
    (hs : s.OnTape tapeLength) :
    (Prog.copies (.cell d) m).exec act test n s =
      .done (s.setCell (s.cell + BitVec.ofInt 8 (d * m))) := by
  induction m generalizing s with
  | zero => simp [Prog.copies]
  | succ m ih =>
    have hact := act_cell hd s
    rw [if_pos hs] at hact
    have hmul : d * (m + 1 : ℕ) = d + d * m := by
      rw [Int.natCast_succ, Int.mul_add, Int.mul_one, Int.add_comm]
    rw [Prog.copies, Prog.exec_prim_ok hact, ih (s := s.setCell _) hs, Store.setCell_cell,
      Store.setCell_setCell, hmul, BitVec.ofInt_add, BitVec.add_assoc]

theorem Steady.exec_reread {n : ℕ} (hn : 255 ≤ n) {i : Ir} {k : Prog Ir} {s : Store}
    (H : Steady ⟨.prim i k, s⟩) :
    (rereadProg i).exec act test n s = Outcome.ofExcept s (act i s) := by
  have hs : s.OnTape tapeLength := H.2 0 _ (.refl _)
  have hprint : Printable i := H.1.1
  have hsign (m : ℤ) : (if m < 0 then -1 else 1) * (m.natAbs : ℤ) = m := by split <;> omega
  cases i with
  | tape m =>
    obtain ⟨h0, hlt⟩ := hs
    unfold tapeLength at hlt
    rw [rereadProg, reread, toProg_replicate id,
      exec_tapes n _ _ (i63_of_range (by omega) (by omega)), hsign]
    rfl
  | cell m =>
    have hd : (if m < 0 then -1 else 1 : ℤ).natAbs < 2^61 := by split <;> decide
    unfold Printable maxStringLength at hprint
    rw [rereadProg, reread, toProg_replicate id, exec_cells n hd _ hs, hsign,
      act_cell (by omega), if_pos hs]
    rfl
  | set m =>
    cases (hprint : m = 0)
    have hclears := clears_of_odd (x := -1) rfl (by norm_num) s.cell
    rw [rereadProg, reread, ← execs_eq, execs_singleton, exec_loop_cell hn hs hclears,
      act_set_zero hs]
    rfl
  | read =>
    have hprog : rereadProg .read = .prim .read .nil := rfl
    rw [hprog, Prog.exec]
    cases act .read s <;> rfl
  | write =>
    have hprog : rereadProg .write = .prim .write .nil := rfl
    rw [hprog, Prog.exec]
    cases act .write s <;> rfl
  | loop b => exact hprint.elim

/-- While the pointer stays on the tape, what is read back runs as the program. -/
theorem run_rereadAll {p : List Ir} (hp : (toProg p).All Printable) {input : List Byte}
    (hrun : StaysOnTape p input) {n : ℕ} (hn : 255 ≤ n) :
    Interpreter.run n (rereadAll p) input = Interpreter.run n p input := by
  have hs : Steady ⟨toProg p ++ .nil, .start input⟩ := by
    rw [Prog.append_nil]
    exact ⟨hp, hrun⟩
  rw [Interpreter.run, Interpreter.run, execs_eq, execs_eq, toProg_rereadAll]
  exact Prog.exec_subst (fun _ _ H h => H.step h) (fun _ _ _ H => H.exec_reread hn) _ _ _ hs

/-- A program whose `Set`s are all `Set 0` and whose text fits in a string is printed as a text that
is parsed to unit instructions, and these run as the program does as long as its pointer stays on
the tape. -/
theorem parse_shown (p : List Ir) (hset : SetsZero p) (hlen : showLengthAll p ≤ maxStringLength) :
    ∃ text : MlString, showAll p = .ok text.bytes ∧ Parser.parse text = rereadAll p ∧
      ∀ input, StaysOnTape p input →
        SameRuns (rereadAll p) p input ∧
          ∀ n, 255 ≤ n → Interpreter.run n (rereadAll p) input = Interpreter.run n p input := by
  obtain ⟨w, hw, hwlen, htree⟩ := showAll_tree p hlen
  refine ⟨⟨w, hwlen.trans_le hlen⟩, hw, htree.parse, fun input hrun => ?_⟩
  have hsame : ∀ n, 255 ≤ n →
      Interpreter.run n (rereadAll p) input = Interpreter.run n p input :=
    fun n hn => run_rereadAll (printable p hlen hset) hrun hn
  refine ⟨?_, hsame⟩
  refine .of_alike (run_growing _ input) (run_growing p input) (fun n (hn : 255 ≤ n) => ?_)
  rw [hsame n hn]
  exact .refl _

/-- A loop in a loop, and counts. -/
def nested : List Ir := [.cell 2, .loop [.loop [.cell (-2)], .tape 3, .set 0, .write]]

/-- It is printed as `++[[--]>>>[-].]`. -/
theorem parse_shown_nested : ∃ text : MlString, showAll nested = .ok text.bytes ∧
    Parser.parse text = [.cell 1, .cell 1, .loop [.loop [.cell (-1), .cell (-1)],
      .tape 1, .tape 1, .tape 1, .loop [.cell (-1)], .write]] ∧
    SameRuns (rereadAll nested) nested [] := by
  have hzero : SetsZero nested := by
    simp [SetsZero, nested, toProg, consProg, Prog.All]
  have H : StopsAlong step (fun c => c.state.OnTape tapeLength) 12 (initial nested []) := by
    decide +kernel
  obtain ⟨text, hshow, hparse, hruns⟩ := parse_shown nested hzero (by decide)
  exact ⟨text, hshow, hparse, (hruns [] fun k c hr => H.of_runs hr).1⟩

/-- `show_t` has no string for one `+` more than a string may hold. -/
theorem parse_shown_not :
    ¬ ∀ p : List Ir, SetsZero p → ∃ text : MlString, showAll p = .ok text.bytes ∧
      Parser.parse text = rereadAll p ∧
      ∀ input, StaysOnTape p input → SameRuns (rereadAll p) p input := by
  intro h
  obtain ⟨text, hshow, _⟩ := h [.cell 144115188075855864] ⟨fun x hx => (by cases hx), trivial⟩
  have hraises : showAll [.cell 144115188075855864] =
      .error (.invalidArgument "Bytes.create") := by
    have habs : absInt 144115188075855864 = 144115188075855864 := rfl
    rw [showAll, showT, habs, stringMake, if_neg (by decide)]
    rfl
  rw [hraises] at hshow
  cases hshow

end Bfcomp.Ocaml
