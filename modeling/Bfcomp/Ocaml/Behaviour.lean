import Bfcomp.Foundations.Behaviour
import Bfcomp.Ocaml.Passes

/-! # Programs that behave the same

A run never takes back output, so runs with more fuel go further. A pass is exact when the code it
leaves does what the code before it and the instruction it was given do, whatever the fuel; folded
over a program, it then leaves a program that behaves the same. `deadCode` is exact. -/

namespace Bfcomp.Ocaml
set_option autoImplicit false

open Interpreter

/-! ## Behaviour of a program -/

theorem assign_output {s t : Store} {c : Byte} (h : assign s c = .ok t) : t.output = s.output := by
  rw [assign_ok h, Store.setCell_output]

theorem act_output {i : Ir} {s t : Store} (h : act i s = .ok t) : s.output <+: t.output := by
  have hput : ∀ n, (chr n).bind (assign s) = .ok t → s.output <+: t.output := by
    intro n hn
    cases hc : chr n with
    | error e =>
      rw [hc] at hn
      cases hn
    | ok c =>
      rw [hc] at hn
      rw [assign_output hn]
  cases i with
  | tape x =>
    cases h
    exact List.prefix_rfl
  | cell x =>
    obtain ⟨c, rfl⟩ := act_cell_ok h
    exact List.prefix_rfl
  | read =>
    rw [act] at h
    split at h
    · cases h
    · rw [assign_output h]
  | write =>
    rw [act, bounds] at h
    split at h <;> cases h
    exact List.prefix_append s.output [s.cell]
  | set x => exact hput x h
  | loop b =>
    cases h
    exact List.prefix_rfl

theorem run_growing (p : List Ir) (input : List Byte) :
    Growing Store.output fun n => Interpreter.run n p input := by
  simp only [Interpreter.run, execs_eq]
  exact Prog.exec_growing (fun _ _ _ h => act_output h) (toProg p) (.start input)

/-- On this input the programs end in the same store, raise the same exception after the same
output, diverge together and write the same. -/
abbrev SameRuns (p q : List Ir) (input : List Byte) : Prop :=
  SameBehaviour Store.output (fun n => Interpreter.run n p input)
    fun n => Interpreter.run n q input

/-! ## Exact passes -/

/-- The pass leaves code that does what it was given. -/
def Exact (pass : Pass.PassFn) : Prop :=
  ∀ code i n, execs n (pass code i).reverse = execs n (code.reverse ++ [i])

theorem execs_append_congr {n : ℕ} {p q r u : List Ir} (h : execs n p = execs n q)
    (h' : execs n r = execs n u) : execs n (p ++ r) = execs n (q ++ u) := by
  funext s
  rw [execs_append, execs_append, h, h']

theorem execs_loop_congr {n : ℕ} {b c : List Ir} (h : execs n b = execs n c) :
    execs n [.loop b] = execs n [.loop c] := by
  funext s
  rw [execs_singleton, execs_singleton, exec, exec, h]

mutual

theorem Exact.step {pass : Pass.PassFn} (H : Exact pass) (n : ℕ) : ∀ i code,
    execs n (Pass.step pass code i).reverse = execs n (code.reverse ++ [i])
  | .loop body, code => by
    have hbody := H.fold n body []
    rw [List.reverse_nil, List.nil_append] at hbody
    rw [Pass.step, H]
    exact execs_append_congr rfl (execs_loop_congr hbody)
  | .tape x, code => H code (.tape x) n
  | .cell x, code => H code (.cell x) n
  | .read, code => H code .read n
  | .write, code => H code .write n
  | .set x, code => H code (.set x) n

theorem Exact.fold {pass : Pass.PassFn} (H : Exact pass) (n : ℕ) : ∀ p code,
    execs n (Pass.fold pass code p).reverse = execs n (code.reverse ++ p)
  | [], code => by rw [List.append_nil, Pass.fold]
  | i :: p, code => by
    have hsplit : code.reverse ++ i :: p = code.reverse ++ [i] ++ p := by simp
    rw [hsplit, Pass.fold, H.fold n p (Pass.step pass code i)]
    exact execs_append_congr (H.step n i code) rfl

end

theorem Exact.run {pass : Pass.PassFn} (H : Exact pass) (n : ℕ) (p : List Ir) :
    execs n (Pass.run [pass] p) = execs n p := H.fold n p []

/-! ## Dead code -/

theorem deadCode_exact : Exact Pass.deadCode := by
  intro code i n
  unfold Pass.deadCode
  split
  · rename_i b past
    split
    · rename_i c
      rw [List.reverse_cons, List.append_assoc]
      exact execs_append_congr rfl (execs_second_loop n b c).symm
    · rw [List.reverse_cons]
  · rw [List.reverse_cons]

/-- Dead-code removal alone leaves a program with the same behaviour on every input. -/
theorem deadCode_same (p : List Ir) (input : List Byte) :
    SameRuns (Pass.run [Pass.deadCode] p) p input := by
  refine .of_alike (N := 0) (run_growing _ input) (run_growing p input) fun n _ => ?_
  rw [Interpreter.run, deadCode_exact.run, Interpreter.run]
  exact .refl _

end Bfcomp.Ocaml
