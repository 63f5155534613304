import Mathlib.Data.Int.Notation
import Mathlib.Data.List.Basic
import Mathlib.Tactic.Common
import Bfcomp.Foundations.Words

/-! # The OCaml IR and its passes (`lib/ir.ml`)

`Pass.run` folds each pass over the top level of the program that the pass before it left, without
reversing in between, and reverses once at the end. A fold leaves the top level reversed, so every
second pass sees the top level backwards; loop bodies are reversed back at once. -/

namespace Bfcomp.Ocaml
set_option autoImplicit false

/-- `Ir.t`. -/
inductive Ir where
  | tape (n : ℤ)
  | cell (n : ℤ)
  | read
  | write
  | set (n : ℤ)
  | loop (body : List Ir)

namespace Pass

/-- A pass puts one instruction in front of the reversed code before it. -/
abbrev PassFn := List Ir → Ir → List Ir

def finalize (l : List Ir) : List Ir := l.reverse

def zeroLoop (code : List Ir) : Ir → List Ir
  | .loop [.cell _] => .set 0 :: code
  | instr => instr :: code

def deadCode (code : List Ir) (instr : Ir) : List Ir :=
  match code with
  | .loop _ :: _ =>
    match instr with
    | .loop _ => code
    | _ => instr :: code
  | _ => instr :: code

def contraction (code : List Ir) (instr : Ir) : List Ir :=
  match code with
  | [] => [instr]
  | head :: tail =>
    match instr, head with
    | .tape a, .tape b => .tape (i63 (a + b)) :: tail
    | .cell a, .cell b => .cell (i63 (a + b)) :: tail
    | _, _ => instr :: head :: tail

mutual

/-- The step `f pass` of `run`: the body of a loop goes through the pass first. -/
def step (pass : PassFn) (code : List Ir) : Ir → List Ir
  | .loop body => pass code (.loop (fold pass [] body).reverse)
  | .tape n => pass code (.tape n)
  | .cell n => pass code (.cell n)
  | .read => pass code .read
  | .write => pass code .write
  | .set n => pass code (.set n)

/-- `List.fold_left (f pass)`. -/
def fold (pass : PassFn) (code : List Ir) : List Ir → List Ir
  | [] => code
  | i :: is => fold pass (step pass code i) is

end

/-- The function `g` of `run`. -/
def g (pass : PassFn) (code : List Ir) : List Ir := fold pass [] code

/-- `List.fold_left run_passes`. -/
def runPasses (passes : List PassFn) (code : List Ir) : List Ir :=
  passes.foldl (fun code pass => g pass code) code

def run (passes : List PassFn) (code : List Ir) : List Ir := finalize (runPasses passes code)

/-- The pass that keeps every instruction. -/
def keep (code : List Ir) (i : Ir) : List Ir := i :: code

/-! ## Composition -/

theorem fold_append (pass : PassFn) (code p q : List Ir) :
    fold pass code (p ++ q) = fold pass (fold pass code p) q := by
  induction p generalizing code with
  | nil => rfl
  | cons i p ih => rw [List.cons_append, fold, fold, ih]

theorem runPasses_append (ps qs : List PassFn) (p : List Ir) :
    runPasses (ps ++ qs) p = runPasses qs (runPasses ps p) := by
  unfold runPasses
  rw [List.foldl_append]

/-- What `run` does on an appended list of passes: the second part sees the first part's result
backwards. -/
theorem run_append (ps qs : List PassFn) (p : List Ir) :
    run (ps ++ qs) p = run qs (run ps p).reverse := by
  unfold run finalize
  rw [List.reverse_reverse, runPasses_append]

mutual

theorem step_keep (code : List Ir) : ∀ i, step keep code i = i :: code
  | .loop body => by rw [step, fold_keep, List.append_nil, List.reverse_reverse, keep]
  | .tape _ => rfl
  | .cell _ => rfl
  | .read => rfl
  | .write => rfl
  | .set _ => rfl

theorem fold_keep (code : List Ir) : ∀ p, fold keep code p = p.reverse ++ code
  | [] => rfl
  | i :: p => by rw [fold, step_keep, fold_keep, List.reverse_cons, List.append_assoc]; rfl

end

theorem g_keep (p : List Ir) : g keep p = p.reverse := by
  rw [g, fold_keep, List.append_nil]

theorem runPasses_keep (k : ℕ) (p : List Ir) :
    runPasses (List.replicate k keep) p = if k % 2 = 0 then p else p.reverse := by
  induction k generalizing p with
  | zero => rfl
  | succ k ih =>
    have hstep : runPasses (List.replicate (k + 1) keep) p =
        runPasses (List.replicate k keep) p.reverse := by
      rw [← g_keep]
      rfl
    rw [hstep, ih, List.reverse_reverse]
    split <;> split <;> first | rfl | omega

theorem run_keep (k : ℕ) (p : List Ir) :
    run (List.replicate k keep) p = if k % 2 = 0 then p.reverse else p := by
  unfold run finalize
  rw [runPasses_keep]
  split
  · rfl
  · rw [List.reverse_reverse]

theorem run_keep_reverse (k : ℕ) (p : List Ir) :
    run (List.replicate k keep) p.reverse = (run (List.replicate k keep) p).reverse := by
  rw [run_keep, run_keep]
  split <;> rfl

/-- A pass with one result, not its own reverse. -/
def constant (_ : List Ir) (_ : Ir) : List Ir := [.write, .read]

theorem fold_constant (code : List Ir) (i : Ir) (p : List Ir) :
    fold constant code (i :: p) = [.write, .read] := by
  induction p generalizing code i with
  | nil => cases i <;> rfl
  | cons j p ih => exact ih (step constant code i) j

theorem runPasses_constant (k : ℕ) (i : Ir) (p : List Ir) :
    runPasses (List.replicate (k + 1) constant) (i :: p) = [.write, .read] := by
  induction k generalizing i p with
  | zero => exact fold_constant [] i p
  | succ k ih =>
    have hstep : runPasses (List.replicate (k + 1 + 1) constant) (i :: p) =
        runPasses (List.replicate (k + 1) constant) (fold constant [] (i :: p)) := rfl
    rw [hstep, fold_constant]
    exact ih .write [.read]

theorem runPasses_nil (ps : List PassFn) : runPasses ps [] = [] := by
  induction ps with
  | nil => rfl
  | cons pass ps ih => exact ih

theorem run_nil (ps : List PassFn) : run ps [] = [] := by
  rw [run, runPasses_nil]
  rfl

/-- Composition at given lengths holds for all passes exactly when nothing can be seen backwards. -/
theorem composes_iff (m n : ℕ) (p : List Ir) :
    (∀ ps qs : List PassFn, ps.length = m → qs.length = n →
      run (ps ++ qs) p = run qs (run ps p)) ↔ p = [] ∨ (m = 0 ∧ p.reverse = p) := by
  constructor
  · intro h
    cases p with
    | nil => exact .inl rfl
    | cons i p =>
      refine .inr ?_
      cases m with
      | zero =>
        have hrev := h [] (List.replicate n keep) rfl List.length_replicate
        rw [run_append, run_keep_reverse] at hrev
        have hrun : run [] (i :: p) = (i :: p).reverse := rfl
        rw [hrun, run_keep] at hrev
        refine ⟨rfl, ?_⟩
        split at hrev
        · rw [List.reverse_reverse, List.reverse_reverse] at hrev
          exact hrev
        · rw [List.reverse_reverse] at hrev
          exact hrev.symm
      | succ m =>
        have hrev := h (List.replicate (m + 1) constant) (List.replicate n keep)
          List.length_replicate List.length_replicate
        have hrun : run (List.replicate (m + 1) constant) (i :: p) = [.read, .write] := by
          rw [run, runPasses_constant]
          rfl
        rw [run_append, run_keep_reverse, hrun, run_keep] at hrev
        split at hrev <;> cases hrev
  · rintro (rfl | ⟨rfl, hp⟩) ps qs hps _
    · rw [run_nil, run_nil, run_nil]
    · have hnil : ps = [] := List.eq_nil_of_length_eq_zero hps
      have hrun : run [] p = p := hp
      rw [hnil, List.nil_append, hrun]

/-- `run` composes, at given lengths and whatever the passes, exactly on a program that is empty or,
with no passes first, reads the same backwards; and copies of the keeping pass give the program
back exactly when their number is odd or the program reads the same backwards. -/
theorem run_composes (p : List Ir) :
    (∀ m n, (∀ ps qs : List PassFn, ps.length = m → qs.length = n →
      run (ps ++ qs) p = run qs (run ps p)) ↔ p = [] ∨ (m = 0 ∧ p.reverse = p)) ∧
    (∀ ps qs : List PassFn, run (ps ++ qs) p = run qs (run ps p) ↔
      run qs (run ps p).reverse = run qs (run ps p)) ∧
    ∀ k, run (List.replicate k keep) p = p ↔ k % 2 = 1 ∨ p.reverse = p := by
  refine ⟨fun m n => composes_iff m n p, ?_, ?_⟩
  · intro ps qs
    rw [run_append]
  · intro k
    rw [run_keep]
    split
    · rename_i hk
      constructor
      · exact .inr
      · exact fun h => h.resolve_left (by omega)
    · rename_i hk
      exact ⟨fun _ => .inl (by omega), fun _ => rfl⟩

/-- No pass, and then the keeping pass: the program comes out reversed. -/
theorem run_composes_not :
    run ([] ++ [keep]) [.read, .write] ≠ run [keep] (run [] [.read, .write]) ∧
      run (List.replicate 2 keep) [.read, .write] ≠ [.read, .write] := by
  constructor
  · intro h
    cases h
  · intro h
    cases h

end Pass
end Bfcomp.Ocaml
