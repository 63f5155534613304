import Bfcomp.Frontend.Reading
import Bfcomp.Interpret.Meaning
import Bfcomp.Ocaml.Interpreter

/-! # Runs of one instruction

While the pointer stays on the tape, a run of one OCaml instruction does what one op with a count
does, and two adjacent ops of a kind do what their coalesced op does. -/

namespace Bfcomp.Ocaml
set_option autoImplicit false

open Interpreter

/-! ## The interpreter kept on the tape -/

/-- The instruction runs and leaves the pointer on the tape. -/
def kept (i : Ir) (s : Store) : Bool :=
  match act i s with
  | .ok t => decide (t.OnTape tapeLength)
  | .error _ => false

/-- The interpreter's instructions, each an error unless it is kept on the tape. -/
abbrev keptAct : Ir → Store → Except Exn Store := Prog.restrict kept .endOfFile act

theorem keptAct_ok {i : Ir} {s t : Store} (h : keptAct i s = .ok t) :
    act i s = .ok t ∧ t.OnTape tapeLength := by
  unfold keptAct Prog.restrict kept at h
  cases hi : act i s with
  | error e =>
    rw [hi] at h
    cases h
  | ok u =>
    rw [hi] at h
    simp only [decide_eq_true_eq] at h
    split at h
    · cases h
      exact ⟨rfl, ‹_›⟩
    · cases h

theorem keptAct_onTape (i : Ir) (s t : Store) (_ : s.OnTape tapeLength)
    (h : keptAct i s = .ok t) : t.OnTape tapeLength := (keptAct_ok h).2

theorem test_cellTest (s : Store) (b : Bool) (_ : s.OnTape tapeLength) (h : test s = .ok b) :
    cellTest s = .ok b := by
  rw [cellTest, (test_ok h).2]

/-- From a pointer on the tape, `q` does what `p` does as long as `p` is kept on the tape. -/
abbrev Same (p : Prog Ir) (q : Prog Prim) : Prop :=
  Prog.Refines (Store.OnTape tapeLength) keptAct test (Prim.act tapeLength) cellTest p q

theorem primAct_onTape (i : Prim) (s t : Store) (hs : s.OnTape tapeLength)
    (h : i.act tapeLength s = .ok t) : t.OnTape tapeLength := Prim.act_onTape h hs

/-! ## Runs -/

section
variable {s t u : Store}

theorem primAct_tape {n : ℤ} (hs : s.OnTape tapeLength)
    (h : (Prim.tape n).act tapeLength s = .ok t) :
    t = { s with ptr := s.ptr + n } ∧ -30000 < n ∧ n < 30000 := by
  obtain ⟨h0, hlt⟩ := hs
  obtain ⟨hn, rfl⟩ := Prim.act_tape h
  unfold tapeLength at *
  exact ⟨rfl, by omega, by omega⟩

theorem primAct_tape_of {n : ℤ} (h : ({ s with ptr := s.ptr + n } : Store).OnTape tapeLength) :
    (Prim.tape n).act tapeLength s = .ok { s with ptr := s.ptr + n } := if_pos h

theorem same_tape {d : ℤ} (hd : d = 1 ∨ d = -1) (m : ℕ) :
    Same (Prog.copies (.tape d) m) (.prim (.tape (i64 (d * m))) .nil) := by
  refine Prog.Refines.copies (fun m => Prim.tape (i64 (d * m))) keptAct_onTape ?_ ?_ m
  · intro s hs
    have hzero : i64 (d * (0 : ℕ)) = 0 := by rw [Int.natCast_zero, Int.mul_zero]; rfl
    simp only [hzero]
    rw [primAct_tape_of (by rw [Int.add_zero]; exact hs), Int.add_zero]
  · intro m s t u hs ht hu
    obtain ⟨hact, hton⟩ := keptAct_ok ht
    cases hact
    obtain ⟨rfl, hlo, hhi⟩ := primAct_tape hton hu
    have huon := Prim.act_onTape hu hton
    obtain ⟨h0, hlt⟩ := hs
    unfold tapeLength at hlt
    have hptr : i63 (s.ptr + d) = s.ptr + d := i63_of_range (by omega) (by omega)
    have hsum : i64 (d * (m + 1 : ℕ)) = d + i64 (d * m) := by
      have hmul : d * (m + 1 : ℕ) = d + d * m := by rcases hd with rfl | rfl <;> omega
      rw [hmul, ← i64_add_right, i64_of_range (by omega) (by omega)]
    simp only [hptr, Int.add_assoc, ← hsum] at huon ⊢
    exact primAct_tape_of huon

theorem same_cell {d : ℤ} (hd : d = 1 ∨ d = -1) (m : ℕ) :
    Same (Prog.copies (.cell d) m) (.prim (.cell (i64 (d * m))) .nil) := by
  refine Prog.Refines.copies (fun m => Prim.cell (i64 (d * m))) keptAct_onTape ?_ ?_ m
  · intro s hs
    simp only [Prim.act, ofInt8_i64]
    simp
  · intro m s t u hs ht hu
    obtain ⟨hact, hton⟩ := keptAct_ok ht
    rw [act_cell (by omega), if_pos hs] at hact
    cases hact
    cases hu
    simp only [Prim.act, ofInt8_i64, Store.setCell_cell, Store.setCell_setCell]
    have hmul : d * (m + 1 : ℕ) = d + d * m := by rcases hd with rfl | rfl <;> omega
    rw [BitVec.add_assoc, ← BitVec.ofInt_add, hmul]

theorem assign_onTape (hs : s.OnTape tapeLength) (c : Byte) : assign s c = .ok (s.setCell c) := by
  rw [assign, bounds_of_onTape hs, Except.map]

theorem act_read_ok (h : act .read s = .ok t) : t = s.readByte := by
  rw [act] at h
  cases hin : s.input with
  | nil =>
    rw [hin] at h
    cases h
  | cons c rest =>
    rw [hin] at h
    rw [assign_ok h, Store.readByte, hin]
    rfl

theorem act_write_ok (h : act .write s = .ok t) : t = s.writeByte := by
  rw [act, bounds] at h
  split at h <;> cases h
  rfl

theorem same_read (m : ℕ) : Same (Prog.copies .read m) (.prim (.read m) .nil) := by
  refine Prog.Refines.copies_iterate (fun m => Prim.read m) keptAct_onTape ?_ (fun _ _ => rfl) m
  exact fun s t ht => act_read_ok (keptAct_ok ht).1

theorem same_write (m : ℕ) : Same (Prog.copies .write m) (.prim (.write m) .nil) := by
  refine Prog.Refines.copies_iterate (fun m => Prim.write m) keptAct_onTape ?_ (fun _ _ => rfl) m
  exact fun s t ht => act_write_ok (keptAct_ok ht).1

end

/-! ## Coalescing -/

/-- Refinement between ops. -/
abbrev SameOps (p q : Prog Prim) : Prop :=
  Prog.Refines (Store.OnTape tapeLength) (Prim.act tapeLength) cellTest (Prim.act tapeLength)
    cellTest p q

theorem merge_tape (a b : ℤ) :
    SameOps (.prim (.tape a) (.prim (.tape b) .nil)) (.prim (.tape (i64 (a + b))) .nil) := by
  refine Prog.Refines.merge fun s t u hs ht hu => ?_
  have hton := Prim.act_onTape ht hs
  have huon := Prim.act_onTape hu hton
  obtain ⟨rfl, _, _⟩ := primAct_tape hs ht
  obtain ⟨rfl, _, _⟩ := primAct_tape hton hu
  rw [i64_of_range (by omega) (by omega)]
  simp only [Int.add_assoc] at huon ⊢
  exact primAct_tape_of huon

theorem merge_cell (a b : ℤ) :
    SameOps (.prim (.cell a) (.prim (.cell b) .nil)) (.prim (.cell (i64 (a + b))) .nil) := by
  refine Prog.Refines.merge fun s t u hs ht hu => ?_
  cases ht
  cases hu
  simp only [Prim.act, ofInt8_i64, Store.setCell_cell, Store.setCell_setCell]
  rw [BitVec.add_assoc, ← BitVec.ofInt_add]

theorem merge_ops {mk : ℤ → Prim} {kind : IrOpKind} (h : Coalesces mk kind) (a b : ℤ) :
    SameOps (.prim (mk a) (.prim (mk b) .nil)) (.prim (mk (i64 (a + b))) .nil) := by
  cases h with
  | cell => exact merge_cell a b
  | tape => exact merge_tape a b

end Bfcomp.Ocaml
