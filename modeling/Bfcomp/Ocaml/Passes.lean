import Bfcomp.Ocaml.Interpreter
import Mathlib.Data.List.Basic

/-! # Passes that keep the runs of a program

A pass is sound when the code it leaves may take the place of the code before it and of the
instruction it was given. Folding a sound pass forward keeps every run that ends, in loop bodies
too. `zeroLoop` and `deadCode` are sound whatever the code; `contraction` is sound as long as its
sums are exact, that is, on programs whose `Cell` arguments add up to less than `2^61`. -/

namespace Bfcomp.Ocaml
set_option autoImplicit false

open Interpreter

/-! ## Runs that end -/

/-- Every run of `p` that ends is also a run of `q`. -/
def Keeps (p q : List Ir) : Prop := ∀ n s t, execs n p s = .done t → execs n q s = .done t

theorem execs_append (n : ℕ) (p q : List Ir) (s : Store) :
    execs n (p ++ q) s = (execs n p s).bind (execs n q) := by
  induction p generalizing s with
  | nil => rfl
  | cons i p ih =>
    rw [List.cons_append, execs, execs, Outcome.bind_assoc]
    congr 1
    funext t
    exact ih t

theorem execs_append_done {n : ℕ} {p q : List Ir} {s t : Store} :
    execs n (p ++ q) s = .done t ↔ ∃ u, execs n p s = .done u ∧ execs n q u = .done t := by
  rw [execs_append]
  exact Outcome.bind_eq_done

theorem execs_cons_done {n : ℕ} {i : Ir} {p : List Ir} {s t : Store} :
    execs n (i :: p) s = .done t ↔ ∃ u, exec n i s = .done u ∧ execs n p u = .done t := by
  rw [execs]
  exact Outcome.bind_eq_done

@[simp] theorem execs_singleton (n : ℕ) (i : Ir) (s : Store) : execs n [i] s = exec n i s :=
  Outcome.bind_done_right _

theorem Keeps.refl (p : List Ir) : Keeps p p := fun _ _ _ h => h

theorem Keeps.trans {p q r : List Ir} (h : Keeps p q) (h' : Keeps q r) : Keeps p r :=
  fun n s t ht => h' n s t (h n s t ht)

theorem Keeps.append {p q r u : List Ir} (h : Keeps p q) (h' : Keeps r u) :
    Keeps (p ++ r) (q ++ u) := by
  intro n s t ht
  obtain ⟨v, hv, hr⟩ := execs_append_done.mp ht
  exact execs_append_done.mpr ⟨v, h n s v hv, h' n v t hr⟩

theorem Keeps.loop {b c : List Ir} (h : Keeps b c) : Keeps [.loop b] [.loop c] := by
  intro n s t ht
  rw [execs_singleton, exec] at ht ⊢
  exact iterate_done_mono (h n) ht

theorem execs_second_loop (n : ℕ) (b c : List Ir) :
    execs n [.loop b, .loop c] = execs n [.loop b] := by
  funext s
  rw [execs, execs_singleton]
  cases hb : exec n (.loop b) s with
  | raised e t => rfl
  | timeout t => rfl
  | done t =>
    rw [exec] at hb
    rw [Outcome.bind_done, execs_singleton, exec, iterate_exit (iterate_done hb)]

theorem keeps_second_loop (b c : List Ir) : Keeps [.loop b, .loop c] [.loop b] := by
  intro n s t ht
  rw [execs_second_loop] at ht
  exact ht

theorem execs_two_tapes (n : ℕ) (a b : ℤ) :
    execs n [.tape b, .tape a] = execs n [.tape (i63 (a + b))] := by
  funext s
  have hsum : i63 (s.ptr + i63 (a + b)) = i63 (i63 (s.ptr + b) + a) := by
    rw [i63_add_right, i63_add_left]
    congr 1
    omega
  simp only [execs_singleton, exec, act, hsum]
  rfl

theorem keeps_tape (a b : ℤ) : Keeps [.tape b, .tape a] [.tape (i63 (a + b))] := by
  intro n s t ht
  rw [execs_two_tapes] at ht
  exact ht

theorem keeps_cell {a b : ℤ} (h : a.natAbs + b.natAbs < 2^61) :
    Keeps [.cell b, .cell a] [.cell (i63 (a + b))] := by
  rw [i63_of_range (x := a + b) (by omega) (by omega)]
  intro n s t ht
  obtain ⟨u, hu, ht⟩ := execs_cons_done.mp ht
  rw [execs_singleton] at ht ⊢
  simp only [exec] at hu ht ⊢
  rw [act_cell (by omega)] at hu ht ⊢
  by_cases hs : s.OnTape tapeLength
  · rw [if_pos hs] at hu ⊢
    cases hu
    rw [if_pos (by exact hs)] at ht
    cases ht
    rw [Store.setCell_cell, Store.setCell_setCell, BitVec.ofInt_add, BitVec.add_assoc,
      BitVec.add_comm (BitVec.ofInt 8 a)]
    rfl
  · rw [if_neg hs] at hu
    cases hu

/-- A loop that only adds to its cell leaves zero there when it ends. -/
theorem keeps_zero (x : ℤ) : Keeps [.loop [.cell x]] [.set 0] := by
  intro n s t ht
  rw [execs_singleton, exec] at ht
  have hcell : ∃ c, t = s.setCell c := by
    refine iterate_preserves (I := fun u => ∃ c, u = s.setCell c) ?_ ⟨s.cell, by simp⟩ ht
    rintro _ v ⟨c, rfl⟩ hv
    rw [execs_singleton] at hv
    simp only [exec] at hv
    cases hact : act (.cell x) (s.setCell c) with
    | error e =>
      rw [hact] at hv
      cases hv
    | ok w =>
      rw [hact] at hv
      cases hv
      obtain ⟨c', hc'⟩ := act_cell_ok hact
      exact ⟨c', by rw [hc', Store.setCell_setCell]⟩
  obtain ⟨c, rfl⟩ := hcell
  obtain ⟨hs, hzero⟩ := test_false (iterate_done ht)
  rw [Store.setCell_cell] at hzero
  rw [execs_singleton, hzero]
  simp only [exec, act_set_zero (s := s) hs]
  rfl

/-! ## Sound passes -/

mutual

/-- The sum of the absolute values that are added to cells. -/
def weight1 : Ir → ℕ
  | .cell n => n.natAbs
  | .loop body => weight body
  | _ => 0

def weight : List Ir → ℕ
  | [] => 0
  | i :: p => weight1 i + weight p

end

theorem weight_append (p q : List Ir) : weight (p ++ q) = weight p + weight q := by
  induction p with
  | nil => exact (Nat.zero_add _).symm
  | cons i p ih =>
    rw [List.cons_append, weight, weight, ih]
    omega

theorem weight_reverse (p : List Ir) : weight p.reverse = weight p := by
  induction p with
  | nil => rfl
  | cons i p ih =>
    rw [List.reverse_cons, weight_append, ih, weight, weight, weight]
    omega

/-- On programs of weight at most `w` the pass leaves code that may take the place of what it was
given. -/
def Sound (w : ℕ) (pass : Pass.PassFn) : Prop :=
  ∀ code i, weight code + weight1 i ≤ w →
    Keeps (code.reverse ++ [i]) (pass code i).reverse ∧
      weight (pass code i) ≤ weight code + weight1 i

mutual

theorem Sound.step {w : ℕ} {pass : Pass.PassFn} (H : Sound w pass) :
    ∀ i code, weight code + weight1 i ≤ w →
      Keeps (code.reverse ++ [i]) (Pass.step pass code i).reverse ∧
        weight (Pass.step pass code i) ≤ weight code + weight1 i
  | .loop body, code, hw => by
    rw [weight1] at hw
    obtain ⟨hbody, hle⟩ := H.fold body [] (by rw [weight]; omega)
    rw [weight, Nat.zero_add] at hle
    have hle' : weight1 (.loop (Pass.fold pass [] body).reverse) ≤ weight body := by
      rw [weight1, weight_reverse]
      exact hle
    obtain ⟨hpass, hpassle⟩ := H code (.loop (Pass.fold pass [] body).reverse) (by omega)
    rw [Pass.step]
    refine ⟨((Keeps.refl code.reverse).append (Keeps.loop hbody)).trans hpass, ?_⟩
    rw [weight1]
    omega
  | .tape n, code, hw => H code (.tape n) hw
  | .cell n, code, hw => H code (.cell n) hw
  | .read, code, hw => H code .read hw
  | .write, code, hw => H code .write hw
  | .set n, code, hw => H code (.set n) hw

theorem Sound.fold {w : ℕ} {pass : Pass.PassFn} (H : Sound w pass) :
    ∀ p code, weight code + weight p ≤ w →
      Keeps (code.reverse ++ p) (Pass.fold pass code p).reverse ∧
        weight (Pass.fold pass code p) ≤ weight code + weight p
  | [], code, _ => by
    rw [List.append_nil]
    exact ⟨.refl _, Nat.le_add_right _ _⟩
  | i :: p, code, hw => by
    rw [weight] at hw
    obtain ⟨hi, hile⟩ := H.step i code (by omega)
    obtain ⟨hp, hple⟩ := H.fold p (Pass.step pass code i) (by omega)
    have hsplit : code.reverse ++ i :: p = code.reverse ++ [i] ++ p := by simp
    rw [hsplit, Pass.fold, weight]
    exact ⟨(hi.append (.refl p)).trans hp, by omega⟩

end

theorem sound_keep (code : List Ir) (i : Ir) :
    Keeps (code.reverse ++ [i]) (i :: code).reverse ∧
      weight (i :: code) ≤ weight code + weight1 i := by
  rw [List.reverse_cons, weight]
  exact ⟨.refl _, by omega⟩

theorem zeroLoop_sound (w : ℕ) : Sound w Pass.zeroLoop := by
  intro code i _
  unfold Pass.zeroLoop
  split
  · rw [List.reverse_cons]
    refine ⟨(Keeps.refl _).append (keeps_zero _), ?_⟩
    simp only [weight, weight1]
    omega
  · exact sound_keep code i

theorem deadCode_sound (w : ℕ) : Sound w Pass.deadCode := by
  intro code i _
  unfold Pass.deadCode
  split
  · split
    · rw [List.reverse_cons, List.append_assoc]
      exact ⟨(Keeps.refl _).append (keeps_second_loop _ _), Nat.le_add_right _ _⟩
    · exact sound_keep _ i
  · exact sound_keep code i

theorem contraction_sound : Sound (2^61 - 1) Pass.contraction := by
  intro code i hw
  unfold Pass.contraction
  split
  · exact sound_keep [] i
  · rename_i head tail
    split
    · rename_i a b
      rw [List.reverse_cons, List.reverse_cons, List.append_assoc]
      refine ⟨(Keeps.refl _).append (keeps_tape a b), ?_⟩
      simp only [weight, weight1]
      omega
    · rename_i a b
      simp only [weight, weight1] at hw
      rw [List.reverse_cons, List.reverse_cons, List.append_assoc]
      refine ⟨(Keeps.refl _).append (keeps_cell (by omega)), ?_⟩
      rw [i63_of_range (by omega) (by omega)]
      simp only [weight, weight1]
      omega
    · exact sound_keep (head :: tail) i

end Bfcomp.Ocaml
