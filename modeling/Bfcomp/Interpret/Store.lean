import Bfcomp.Foundations.Words
import Mathlib.Logic.Function.Iterate

/-! # The store of a Brainfuck run: tape, pointer and the two streams

Both interpreters work on one. The cells are a function of the position; the programs themselves
decide which positions may be touched. -/

namespace Bfcomp
set_option autoImplicit false

structure Store where
  ptr : ℤ
  cells : ℕ → Byte
  input : List Byte
  output : List Byte

namespace Store

/-- The pointer is inside a tape of `cap` cells. -/
def OnTape (cap : ℕ) (s : Store) : Prop := 0 ≤ s.ptr ∧ s.ptr < cap

instance (cap : ℕ) (s : Store) : Decidable (s.OnTape cap) := instDecidableAnd

/-- The cell under the pointer. -/
def cell (s : Store) : Byte := s.cells s.ptr.toNat

def setCell (s : Store) (b : Byte) : Store :=
  { s with cells := Function.update s.cells s.ptr.toNat b }

/-- One byte from the input to the cell; at the end of the input the cell keeps its value. -/
def readByte (s : Store) : Store :=
  match s.input with
  | [] => s
  | b :: rest => { s.setCell b with input := rest }

/-- One byte from the cell to the output. -/
def writeByte (s : Store) : Store := { s with output := s.output ++ [s.cell] }

/-- A zeroed tape with the pointer on its first cell. -/
def start (input : List Byte) : Store := ⟨0, fun _ => 0, input, []⟩

theorem start_onTape {cap : ℕ} (h : 0 < cap) (input : List Byte) : (start input).OnTape cap :=
  ⟨Int.le_refl 0, Int.natCast_pos.mpr h⟩

theorem setCell_cells (s : Store) (b : Byte) :
    (s.setCell b).cells = Function.update s.cells s.ptr.toNat b := rfl
@[simp] theorem setCell_ptr (s : Store) (b : Byte) : (s.setCell b).ptr = s.ptr := rfl
@[simp] theorem setCell_input (s : Store) (b : Byte) : (s.setCell b).input = s.input := rfl
@[simp] theorem setCell_output (s : Store) (b : Byte) : (s.setCell b).output = s.output := rfl
@[simp] theorem setCell_cell (s : Store) (b : Byte) : (s.setCell b).cell = b := by
  simp [setCell, cell]
@[simp] theorem setCell_setCell (s : Store) (a b : Byte) :
    (s.setCell a).setCell b = s.setCell b := by
  simp [setCell]
@[simp] theorem setCell_self (s : Store) : s.setCell s.cell = s := by
  simp [setCell, cell]

@[simp] theorem readByte_ptr (s : Store) : s.readByte.ptr = s.ptr := by
  unfold readByte
  split <;> rfl
@[simp] theorem readByte_output (s : Store) : s.readByte.output = s.output := by
  unfold readByte
  split <;> rfl

@[simp] theorem writeByte_ptr (s : Store) : s.writeByte.ptr = s.ptr := rfl
@[simp] theorem writeByte_cells (s : Store) : s.writeByte.cells = s.cells := rfl
@[simp] theorem writeByte_input (s : Store) : s.writeByte.input = s.input := rfl

theorem readByte_iterate_ptr (n : ℕ) (s : Store) : (readByte^[n] s).ptr = s.ptr := by
  induction n generalizing s with
  | zero => rfl
  | succ n ih => rw [Function.iterate_succ_apply, ih, readByte_ptr]

theorem readByte_iterate_output (n : ℕ) (s : Store) : (readByte^[n] s).output = s.output := by
  induction n generalizing s with
  | zero => rfl
  | succ n ih => rw [Function.iterate_succ_apply, ih, readByte_output]

theorem readByte_iterate_once {n : ℕ} (hn : 1 ≤ n) {s : Store}
    (h : n ≤ 1 ∨ s.input.length ≤ 1) : readByte^[n] s = s.readByte := by
  obtain ⟨k, rfl⟩ : ∃ k, n = k + 1 := ⟨n - 1, by omega⟩
  rw [Function.iterate_succ_apply]
  rcases h with hk | hlen
  · have hk0 : k = 0 := by omega
    rw [hk0]
    rfl
  · have hempty : s.readByte.input = [] := by
      unfold readByte
      split
      · assumption
      · next b rest heq =>
        rw [heq, List.length_cons] at hlen
        have hrest : rest.length = 0 := by omega
        exact List.eq_nil_of_length_eq_zero hrest
    have hfix : s.readByte.readByte = s.readByte := by
      rw [readByte.eq_def s.readByte, hempty]
    exact Function.iterate_fixed hfix k

theorem writeByte_iterate_ptr (n : ℕ) (s : Store) : (writeByte^[n] s).ptr = s.ptr := by
  induction n generalizing s with
  | zero => rfl
  | succ n ih => rw [Function.iterate_succ_apply, ih, writeByte_ptr]

theorem readByte_iterate_onTape {cap : ℕ} {s : Store} (h : s.OnTape cap) (n : ℕ) :
    (readByte^[n] s).OnTape cap := by
  unfold OnTape
  rwa [readByte_iterate_ptr]

theorem writeByte_iterate_onTape {cap : ℕ} {s : Store} (h : s.OnTape cap) (n : ℕ) :
    (writeByte^[n] s).OnTape cap := by
  unfold OnTape
  rwa [writeByte_iterate_ptr]

theorem writeByte_iterate_output (n : ℕ) (s : Store) :
    s.output <+: (writeByte^[n] s).output := by
  induction n generalizing s with
  | zero => exact List.prefix_rfl
  | succ n ih =>
    rw [Function.iterate_succ_apply]
    exact (List.prefix_append s.output [s.cell]).trans (ih s.writeByte)

end Store
end Bfcomp
