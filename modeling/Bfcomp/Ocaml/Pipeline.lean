import Bfcomp.Ocaml.Parser
import Bfcomp.Ocaml.Passes

/-! # The pipeline of `bin/main.ml`

`contraction` sees the program forward, but `deadCode` then sees its top level backwards: of two
adjacent loops it meets the later one first and drops the earlier one. In loop bodies it drops the
later one, as meant. The pipeline therefore keeps a run that ends if no loop dropped at the top
level would have been entered. -/

namespace Bfcomp.Ocaml
set_option autoImplicit false

open Interpreter
open Pass hiding step run

/-! ## Contraction and loops -/

def Ir.IsLoop : Ir → Prop
  | .loop _ => True
  | _ => False

theorem Ir.loop_or (i : Ir) : (∃ b, i = .loop b) ∨ ¬ i.IsLoop := by
  cases i with
  | loop b => exact .inl ⟨b, rfl⟩
  | _ => exact .inr id

def NoLoop (p : List Ir) : Prop := ∀ i ∈ p, ¬ i.IsLoop

theorem noLoop_nil : NoLoop [] := fun _ h => (List.not_mem_nil h).elim

theorem noLoop_reverse {p : List Ir} (h : NoLoop p) : NoLoop p.reverse :=
  fun i hi => h i (List.mem_reverse.mp hi)

theorem step_of_not_loop {pass : PassFn} {code : List Ir} {i : Ir} (hi : ¬ i.IsLoop) :
    Pass.step pass code i = pass code i := by
  cases i with
  | loop b => exact (hi trivial).elim
  | _ => rfl

theorem contraction_noLoop {code : List Ir} {i : Ir} (hcode : NoLoop code) (hi : ¬ i.IsLoop) :
    NoLoop (contraction code i) ∧ contraction code i ≠ [] := by
  unfold contraction
  split
  · exact ⟨by simpa [NoLoop] using hi, by simp⟩
  · obtain ⟨_, htail⟩ : ¬ Ir.IsLoop _ ∧ NoLoop _ := by simpa [NoLoop] using hcode
    split
    · exact ⟨by simpa [NoLoop, Ir.IsLoop] using htail, by simp⟩
    · exact ⟨by simpa [NoLoop, Ir.IsLoop] using htail, by simp⟩
    · exact ⟨by simpa [NoLoop] using ⟨hi, by simpa [NoLoop] using hcode⟩, by simp⟩

theorem contraction_loop (code b : List Ir) : contraction code (.loop b) = .loop b :: code := by
  unfold contraction
  split
  · rfl
  · rfl

theorem contraction_over_loop (code b past : List Ir) (i : Ir) :
    contraction (code ++ .loop b :: past) i = contraction code i ++ .loop b :: past := by
  cases code with
  | nil => cases i <;> rfl
  | cons head tail => cases i <;> cases head <;> rfl

theorem fold_over_loop (p code b past : List Ir) :
    fold contraction (code ++ .loop b :: past) p = fold contraction code p ++ .loop b :: past := by
  induction p generalizing code with
  | nil => rfl
  | cons i p ih =>
    have hstep : Pass.step contraction (code ++ .loop b :: past) i =
        Pass.step contraction code i ++ .loop b :: past := by
      cases i with
      | loop body => exact contraction_over_loop code b past _
      | _ => exact contraction_over_loop code b past _
    rw [fold, fold, hstep, ih]

/-- What contraction makes of `p` behind the reversed code `code`. -/
def contract (code p : List Ir) : List Ir := (fold contraction code p).reverse

theorem contract_cons {code p : List Ir} {i : Ir} (hi : ¬ i.IsLoop) :
    contract code (i :: p) = contract (contraction code i) p := by
  rw [contract, fold, step_of_not_loop hi, contract]

theorem contract_loop (code b p : List Ir) :
    contract code (.loop b :: p) = code.reverse ++ .loop (contract [] b) :: contract [] p := by
  have hover := fold_over_loop p [] (contract [] b) code
  rw [List.nil_append] at hover
  rw [contract, fold, Pass.step, contraction_loop]
  simp only [contract] at hover ⊢
  rw [hover]
  simp

theorem reverse_head {code : List Ir} (hcode : NoLoop code) (hne : code ≠ []) (q : List Ir) :
    ∃ i r, code.reverse ++ q = i :: r ∧ ¬ i.IsLoop := by
  cases hc : code.reverse with
  | nil => exact (hne (by simpa using hc)).elim
  | cons i r =>
    have hmem : i ∈ code := by
      rw [← List.mem_reverse, hc]
      exact List.mem_cons_self
    exact ⟨i, r ++ q, rfl, hcode i hmem⟩

theorem contract_head {p code : List Ir} (hcode : NoLoop code) (hne : code ≠ []) :
    ∃ i r, contract code p = i :: r ∧ ¬ i.IsLoop := by
  induction p generalizing code with
  | nil =>
    obtain ⟨i, r, h, hi⟩ := reverse_head hcode hne []
    rw [List.append_nil] at h
    exact ⟨i, r, h, hi⟩
  | cons i p ih =>
    rcases i.loop_or with ⟨b, rfl⟩ | hi
    · rw [contract_loop]
      exact reverse_head hcode hne _
    · obtain ⟨hcode', hne'⟩ := contraction_noLoop hcode hi
      rw [contract_cons hi]
      exact ih hcode' hne'

theorem contract_nil_loop {p c r : List Ir} (h : contract [] p = .loop c :: r) :
    ∃ c' p', p = .loop c' :: p' := by
  cases p with
  | nil => cases h
  | cons i p =>
    rcases i.loop_or with ⟨b, rfl⟩ | hi
    · exact ⟨b, p, rfl⟩
    · obtain ⟨hcode, hne⟩ := contraction_noLoop noLoop_nil hi
      obtain ⟨j, r', hj, hloop⟩ := contract_head (p := p) hcode hne
      rw [contract_cons hi, hj] at h
      cases h
      exact (hloop trivial).elim

/-! ## Dead code, seen backwards -/

/-- What `deadCode` makes of a top level that it sees backwards. -/
def dead (q : List Ir) : List Ir := fold deadCode [] q.reverse

theorem dead_cons (i : Ir) (q : List Ir) : dead (i :: q) = Pass.step deadCode (dead q) i := by
  rw [dead, List.reverse_cons, fold_append, fold, fold, dead]

theorem deadCode_not_loop {code : List Ir} {i : Ir} (hi : ¬ i.IsLoop) :
    deadCode code i = i :: code := by
  unfold deadCode
  split
  · cases i with
    | loop b => exact (hi trivial).elim
    | _ => rfl
  · rfl

theorem dead_cons_not_loop {q : List Ir} {i : Ir} (hi : ¬ i.IsLoop) :
    dead (i :: q) = i :: dead q := by
  rw [dead_cons, step_of_not_loop hi, deadCode_not_loop hi]

theorem dead_append {u : List Ir} (hu : NoLoop u) (q : List Ir) : dead (u ++ q) = u ++ dead q := by
  induction u with
  | nil => rfl
  | cons i u ih =>
    obtain ⟨hi, hu⟩ : ¬ i.IsLoop ∧ NoLoop u := by simpa [NoLoop] using hu
    rw [List.cons_append, dead_cons_not_loop hi, ih hu, List.cons_append]

theorem deadCode_loop (code b : List Ir) :
    (deadCode code (.loop b) = code ∧ ∃ c r, code = .loop c :: r) ∨
    deadCode code (.loop b) = .loop b :: code := by
  unfold deadCode
  split
  · exact .inl ⟨rfl, _, _, rfl⟩
  · exact .inr rfl

/-- A loop that is dropped stands right before another loop. -/
theorem dead_loop (b q : List Ir) :
    (dead (.loop b :: q) = dead q ∧ ∃ c r, q = .loop c :: r) ∨
    dead (.loop b :: q) = .loop (fold deadCode [] b).reverse :: dead q := by
  rw [dead_cons, Pass.step]
  rcases deadCode_loop (dead q) (fold deadCode [] b).reverse with ⟨h, c, r, hq⟩ | h
  · refine .inl ⟨h, ?_⟩
    cases q with
    | nil => cases hq
    | cons i q =>
      rcases i.loop_or with ⟨d, rfl⟩ | hi
      · exact ⟨d, q, rfl⟩
      · rw [dead_cons_not_loop hi] at hq
        cases hq
        exact (hi trivial).elim
  · exact .inr h

/-! ## The pipeline keeps runs -/

/-- Along the top level, every loop that stands right before another loop is reached with a zero
cell. -/
def Guarded (n : ℕ) (p : List Ir) (s : Store) : Prop :=
  ∀ pre b c post u, p = pre ++ .loop b :: .loop c :: post → execs n pre s = .done u → u.cell = 0

theorem Guarded.tail {n : ℕ} {p : List Ir} {i : Ir} {s t : Store} (h : Guarded n (i :: p) s)
    (hi : exec n i s = .done t) : Guarded n p t := by
  intro pre b c post u hp hu
  refine h (i :: pre) b c post u (by rw [hp, List.cons_append]) ?_
  exact execs_cons_done.mpr ⟨t, hi, hu⟩

theorem exec_loop_zero {n : ℕ} {b : List Ir} {s t : Store} (h : exec n (.loop b) s = .done t)
    (hzero : s.cell = 0) : t = s := by
  rw [exec] at h
  cases ht : test s with
  | error e =>
    rw [iterate_error ht] at h
    cases h
  | ok v =>
    have hv := (test_ok ht).2
    rw [hzero] at hv
    rw [iterate_exit (by rw [ht, hv]; rfl)] at h
    cases h
    rfl

/-- Contraction forward and dead code backward, behind code that has been contracted so far. -/
theorem dead_contract {n : ℕ} {p code : List Ir} {s u t : Store} (hcode : NoLoop code)
    (hw : weight code + weight p ≤ 2^61 - 1) (hu : execs n code.reverse s = .done u)
    (ht : execs n p u = .done t) (hg : Guarded n p u) :
    execs n (dead (contract code p)) s = .done t := by
  induction p generalizing code s u with
  | nil =>
    cases ht
    have hdead := dead_append (noLoop_reverse hcode) []
    rw [List.append_nil] at hdead
    rw [contract, fold, hdead]
    exact execs_append_done.mpr ⟨_, hu, rfl⟩
  | cons i p ih =>
    rw [weight] at hw
    obtain ⟨v, hv, hp⟩ := execs_cons_done.mp ht
    have hg' := hg.tail hv
    rcases i.loop_or with ⟨b, rfl⟩ | hi
    · have hrest := ih (s := v) noLoop_nil (by rw [weight]; omega) rfl hp hg'
      rw [contract_loop, dead_append (noLoop_reverse hcode)]
      refine execs_append_done.mpr ⟨u, hu, ?_⟩
      rcases dead_loop (contract [] b) (contract [] p) with ⟨h, c, r, hq⟩ | h
      · -- the loop is dropped: the next instruction is a loop too, so this one was not entered
        obtain ⟨c', p', rfl⟩ := contract_nil_loop hq
        have hzero := hg [] b c' p' u rfl rfl
        rw [h]
        rw [exec_loop_zero hv hzero] at hrest
        exact hrest
      · rw [h]
        refine execs_cons_done.mpr ⟨v, ?_, hrest⟩
        have hb := contraction_sound.fold b [] (by rw [weight]; rw [weight1] at hw; omega)
        have hd := (deadCode_sound (weight (contract [] b))).fold (contract [] b) [] (by
          rw [weight, Nat.zero_add])
        have hkeep := Keeps.loop (hb.1.trans hd.1) n u v (by rw [execs_singleton]; exact hv)
        rw [execs_singleton] at hkeep
        exact hkeep
    · obtain ⟨hcode', _⟩ := contraction_noLoop hcode hi
      obtain ⟨hkeep, hle⟩ := contraction_sound code i (by omega)
      rw [contract_cons hi]
      refine ih hcode' (by omega) (hkeep n s v ?_) hp hg'
      exact execs_append_done.mpr ⟨u, hu, by rw [execs_singleton]; exact hv⟩

theorem passes_keep {n : ℕ} {p : List Ir} {s t : Store} (hw : weight p ≤ 2^61 - 1)
    (ht : execs n p s = .done t) (hg : Guarded n p s) :
    execs n (Pass.run [contraction, deadCode, zeroLoop] p) s = .done t := by
  have hdead := dead_contract noLoop_nil (by rw [weight]; omega) rfl ht hg
  have hzero := (zeroLoop_sound (weight (dead (contract [] p)))).fold (dead (contract [] p)) [] (by
    rw [weight, Nat.zero_add])
  have hrun : Pass.run [contraction, deadCode, zeroLoop] p =
      (fold zeroLoop [] (dead (contract [] p))).reverse := by
    rw [dead, contract, List.reverse_reverse]
    rfl
  rw [hrun]
  exact hzero.1 n s t hdead

/-! ## Parsed programs -/

/-- Every unit of weight comes from a character of the source. -/
theorem weight_parseStream {n : ℕ} {acc : List Ir} {s : List Byte} {r : List Ir × List Byte}
    (h : Parser.parseStream n acc s = some r) :
    weight r.1 + r.2.length ≤ weight acc + s.length := by
  refine Parser.parseStream_induct (P := fun acc s r =>
    weight r.1 + r.2.length ≤ weight acc + s.length) ?_ ?_ ?_ ?_ ?_ h
  · intro acc
    exact Nat.le_refl _
  · intro acc s b s' r hb hr
    rw [weight, weight1, weight_reverse] at hr
    simp only [weight] at hb
    rw [List.length_cons]
    omega
  · intro acc s
    simp
  · intro acc c i s r hi hr
    have hunit : weight1 i ≤ 1 := by
      rcases Parser.unitOf_cases hi with ⟨_, rfl⟩ | ⟨_, rfl⟩ | ⟨_, rfl⟩ | ⟨_, rfl⟩ | ⟨_, rfl⟩ |
        ⟨_, rfl⟩ <;> simp [weight1]
    rw [weight] at hr
    rw [List.length_cons]
    omega
  · intro acc c s r _ _ _ hr
    rw [List.length_cons]
    omega

theorem weight_parse (text : MlString) : weight (Parser.parse text) ≤ text.bytes.length := by
  obtain ⟨acc, rest, hs, hp⟩ := Parser.parse_total text
  have h := weight_parseStream hs
  rw [weight] at h
  rw [hp, weight_reverse]
  simp only at h
  omega

/-- A run that ends, of a parsed program whose adjacent top-level loops are reached with a zero
cell, is a run of the optimised program, with the same output, input left, tape and pointer. -/
theorem pipeline_keeps (text : MlString) (input : List Byte) (n : ℕ) (t : Store)
    (hguard : Guarded n (Parser.parse text) (.start input))
    (hrun : Interpreter.run n (Parser.parse text) input = .done t) :
    Interpreter.run n (Pass.run [contraction, deadCode, zeroLoop] (Parser.parse text)) input =
      .done t := by
  have hw := weight_parse text
  have hfits := text.fits
  exact passes_keep (by omega) hrun hguard

/-- `[.][-]`: the loop that is dropped is reached with a zero cell. -/
def skippedText : MlString := ⟨[91#8, 46#8, 93#8, 91#8, 45#8, 93#8], by decide⟩

theorem pipeline_keeps_skipped : Interpreter.run 1
    (Pass.run [contraction, deadCode, zeroLoop] (Parser.parse skippedText)) [] =
      .done (.start []) := by
  refine pipeline_keeps skippedText [] 1 (.start []) ?_ rfl
  intro pre b c post u hp hu
  have hparse : Parser.parse skippedText = [.loop [.write], .loop [.cell (-1)]] := rfl
  rw [hparse] at hp
  cases pre with
  | nil =>
    cases hu
    rfl
  | cons i pre => cases pre <;> simp at hp

/-- `+[.-][-]`: the first loop is entered, and prints. -/
def enteredText : MlString :=
  ⟨[43#8, 91#8, 46#8, 45#8, 93#8, 91#8, 45#8, 93#8], by decide⟩

/-- The optimised program drops the loop that prints. -/
theorem pipeline_loses_output :
    ¬ ∀ (text : MlString) (input : List Byte) (n : ℕ) (t : Store),
      Interpreter.run n (Parser.parse text) input = .done t →
      ∃ m, Interpreter.run m (Pass.run [contraction, deadCode, zeroLoop] (Parser.parse text))
        input = .done t := by
  intro h
  have hparse : Parser.parse enteredText =
      [.cell 1, .loop [.write, .cell (-1)], .loop [.cell (-1)]] := rfl
  have hpass : Pass.run [contraction, deadCode, zeroLoop] (Parser.parse enteredText) =
      [.cell 1, .set 0] := rfl
  have hout : (match Interpreter.run 1 (Parser.parse enteredText) [] with
      | .done t => t.output
      | _ => []) = [1#8] := by decide
  have hsilent : ∀ m t, Interpreter.run m [.cell 1, .set 0] [] = .done t → t.output = [] := by
    intro m t ht
    cases ht
    rfl
  cases hrun : Interpreter.run 1 (Parser.parse enteredText) [] with
  | done t =>
    obtain ⟨m, hm⟩ := h enteredText [] 1 t hrun
    rw [hrun] at hout
    simp only at hout
    rw [hpass] at hm
    rw [hsilent m t hm] at hout
    cases hout
  | raised e t =>
    rw [hrun] at hout
    cases hout
  | timeout t =>
    rw [hrun] at hout
    cases hout

end Bfcomp.Ocaml
