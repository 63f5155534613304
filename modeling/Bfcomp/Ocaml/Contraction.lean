import Bfcomp.Ocaml.Behaviour
import Bfcomp.Ocaml.Pipeline
import Bfcomp.Ocaml.Points

/-! # Contraction alone

`contraction` replaces each group of adjacent `Cell`s, and each group of adjacent `Tape`s, by one
instruction with the sum. Sums that wrap at 63 bits keep their low byte, so a group adds what its
sum adds, unless an addition overflows in the branch of `run` that takes the remainder with `mod`
and not with `imod`: it raises `Invalid_argument`. -/

namespace Bfcomp.Ocaml
set_option autoImplicit false

open Interpreter
open Pass hiding step run

/-! ## Groups -/

def tapes (xs : List ℤ) : List Ir := xs.map .tape

/-- The sum that contraction makes of a group. -/
def merged (x : ℤ) (xs : List ℤ) : ℤ := xs.foldl (fun b a => i63 (a + b)) x

theorem merged_snoc (x y : ℤ) (xs : List ℤ) : merged x (xs ++ [y]) = i63 (y + merged x xs) := by
  rw [merged, List.foldl_append]
  rfl

/-- What contraction makes of a program, group by group. -/
inductive Contracts : List Ir → List Ir → Prop
  | nil : Contracts [] []
  | tapes (x : ℤ) (xs : List ℤ) {p q : List Ir} (h : Contracts p q) :
      Contracts (tapes (x :: xs) ++ p) (.tape (merged x xs) :: q)
  | cells (x : ℤ) (xs : List ℤ) {p q : List Ir} (hp : cellRun p = []) (h : Contracts p q) :
      Contracts (cells (x :: xs) ++ p) (.cell (merged x xs) :: q)
  | loop {b c p q : List Ir} (hb : Contracts b c) (h : Contracts p q) :
      Contracts (.loop b :: p) (.loop c :: q)
  | other {i : Ir} {p q : List Ir} (hi : i = .read ∨ i = .write ∨ ∃ x, i = .set x)
      (h : Contracts p q) : Contracts (i :: p) (i :: q)

/-! ## Contraction finds the groups -/

theorem contraction_behind {code : List Ir} (hcode : code ≠ []) (past : List Ir) (i : Ir) :
    contraction (code ++ past) i = contraction code i ++ past ∧ contraction code i ≠ [] := by
  cases code with
  | nil => exact (hcode rfl).elim
  | cons head tail => cases i <;> cases head <;> exact ⟨rfl, List.cons_ne_nil _ _⟩

theorem fold_behind (p : List Ir) {code : List Ir} (hcode : code ≠ []) (past : List Ir) :
    fold contraction (code ++ past) p = fold contraction code p ++ past := by
  induction p generalizing code with
  | nil => rfl
  | cons i p ih =>
    have hstep : Pass.step contraction (code ++ past) i = Pass.step contraction code i ++ past ∧
        Pass.step contraction code i ≠ [] := by
      cases i with
      | loop b => exact contraction_behind hcode past _
      | _ => exact contraction_behind hcode past _
    rw [fold, fold, hstep.1, ih hstep.2]

theorem contract_apart {h : Ir} {p : List Ir}
    (hkeep : ∀ i, p.head? = some i → contraction [h] i = [i, h]) :
    contract [h] p = h :: contract [] p := by
  cases p with
  | nil => rfl
  | cons i p =>
    rcases i.loop_or with ⟨b, rfl⟩ | hi
    · rw [contract_loop, contract_loop]
      rfl
    · have hnil : contraction [] i = [i] := rfl
      have hfold := fold_behind p (List.cons_ne_nil i []) [h]
      rw [List.singleton_append] at hfold
      rw [contract_cons hi, contract_cons hi, hkeep i rfl, hnil, contract, contract, hfold,
        List.reverse_append]
      rfl

theorem tapes_end {i : Ir} {p : List Ir} (hi : ∀ a, i ≠ .tape a)
    (h : Contracts (i :: p) (contract [] (i :: p))) (x : ℤ) (xs : List ℤ) :
    Contracts (tapes (x :: xs) ++ i :: p) (contract [.tape (merged x xs)] (i :: p)) := by
  rw [contract_apart]
  · exact .tapes x xs h
  · intro j hj
    cases hj
    cases i with
    | tape a => exact (hi a rfl).elim
    | _ => rfl

theorem cells_end {i : Ir} {p : List Ir} (hi : ∀ a, i ≠ .cell a)
    (h : Contracts (i :: p) (contract [] (i :: p))) (x : ℤ) (xs : List ℤ) :
    Contracts (cells (x :: xs) ++ i :: p) (contract [.cell (merged x xs)] (i :: p)) := by
  rw [contract_apart]
  · exact .cells x xs (cellRun_other hi p) h
  · intro j hj
    cases hj
    cases i with
    | cell a => exact (hi a rfl).elim
    | _ => rfl

/-- The groups of a program, also when it stands behind a group that it may continue. -/
structure Grouped (p : List Ir) : Prop where
  alone : Contracts p (contract [] p)
  behindTapes : ∀ x xs, Contracts (tapes (x :: xs) ++ p) (contract [.tape (merged x xs)] p)
  behindCells : ∀ x xs, Contracts (cells (x :: xs) ++ p) (contract [.cell (merged x xs)] p)

theorem Grouped.tape (a : ℤ) {p : List Ir} (h : Grouped p) : Grouped (.tape a :: p) := by
  have hfirst : Contracts (.tape a :: p) (contract [] (.tape a :: p)) := h.behindTapes a []
  refine ⟨hfirst, fun x xs => ?_, cells_end (by simp) hfirst⟩
  have hmore := h.behindTapes x (xs ++ [a])
  have hlist : tapes (x :: (xs ++ [a])) ++ p = tapes (x :: xs) ++ .tape a :: p := by simp [tapes]
  rw [merged_snoc, hlist] at hmore
  exact hmore

theorem Grouped.cell (a : ℤ) {p : List Ir} (h : Grouped p) : Grouped (.cell a :: p) := by
  have hfirst : Contracts (.cell a :: p) (contract [] (.cell a :: p)) := h.behindCells a []
  refine ⟨hfirst, tapes_end (by simp) hfirst, fun x xs => ?_⟩
  have hmore := h.behindCells x (xs ++ [a])
  have hlist : cells (x :: (xs ++ [a])) ++ p = cells (x :: xs) ++ .cell a :: p := by simp [cells]
  rw [merged_snoc, hlist] at hmore
  exact hmore

theorem Grouped.loop {b p : List Ir} (hb : Grouped b) (h : Grouped p) :
    Grouped (.loop b :: p) := by
  have hfirst : Contracts (.loop b :: p) (contract [] (.loop b :: p)) := by
    rw [contract_loop]
    exact .loop hb.alone h.alone
  exact ⟨hfirst, tapes_end (by simp) hfirst, cells_end (by simp) hfirst⟩

theorem Grouped.other {i : Ir} {p : List Ir} (hi : i = .read ∨ i = .write ∨ ∃ x, i = .set x)
    (h : Grouped p) : Grouped (i :: p) := by
  have hfirst : Contracts (i :: p) (contract [] (i :: p)) := by
    have hcons : contract [] (i :: p) = contract [i] p := by
      rcases hi with rfl | rfl | ⟨x, rfl⟩ <;> rfl
    rw [hcons, contract_apart]
    · exact .other hi h.alone
    · intro j _
      rcases hi with rfl | rfl | ⟨x, rfl⟩ <;> cases j <;> rfl
  refine ⟨hfirst, tapes_end ?_ hfirst, cells_end ?_ hfirst⟩
  · rintro a rfl
    simp at hi
  · rintro a rfl
    simp at hi

theorem grouped : ∀ p : List Ir, Grouped p
  | [] => ⟨.nil, fun x xs => .tapes x xs .nil, fun x xs => .cells x xs rfl .nil⟩
  | .tape a :: p => (grouped p).tape a
  | .cell a :: p => (grouped p).cell a
  | .loop b :: p => (grouped b).loop (grouped p)
  | .read :: p => (grouped p).other (.inl rfl)
  | .write :: p => (grouped p).other (.inr (.inl rfl))
  | .set x :: p => (grouped p).other (.inr (.inr ⟨x, rfl⟩))

/-- `run` with contraction alone replaces the groups. -/
theorem contracts_run (p : List Ir) : Contracts p (Pass.run [contraction] p) := (grouped p).alone

/-! ## What a group does -/

/-- Some addition of the group, one after the other from `c`, overflows. -/
def Wrapping (c : Byte) : List ℤ → Prop
  | [] => False
  | x :: xs => Wraps c x ∨ Wrapping (c + BitVec.ofInt 8 x) xs

/-- The group overflows exactly when its sum does. -/
def Fits (c : Byte) : List ℤ → Prop
  | [] => True
  | x :: xs => Wrapping c (x :: xs) ↔ Wraps c (merged x xs)

theorem merged_byte (x : ℤ) (xs : List ℤ) :
    BitVec.ofInt 8 (merged x xs) = BitVec.ofInt 8 (x + xs.sum) := by
  induction xs generalizing x with
  | nil => rw [List.sum_nil, Int.add_zero]; rfl
  | cons y xs ih =>
    have hstep : merged x (y :: xs) = merged (i63 (y + x)) xs := rfl
    rw [hstep, ih, BitVec.ofInt_add, ofInt8_i63, ← BitVec.ofInt_add, List.sum_cons]
    congr 1
    omega

theorem execs_tapes (n : ℕ) (x : ℤ) (xs : List ℤ) :
    execs n (tapes (x :: xs)) = execs n [.tape (merged x xs)] := by
  induction xs generalizing x with
  | nil => rfl
  | cons y xs ih =>
    have hsplit : tapes (x :: y :: xs) = [.tape x, .tape y] ++ tapes xs := rfl
    rw [hsplit, execs_append_congr (execs_two_tapes n y x) rfl]
    exact ih (i63 (y + x))

theorem execs_cells_wrapping (n : ℕ) {xs : List ℤ} {s : Store} (hs : s.OnTape tapeLength)
    (h : Wrapping s.cell xs) :
    ∃ t, execs n (cells xs) s = .raised (.invalidArgument "Char.chr") t ∧ t.output = s.output := by
  induction xs generalizing s with
  | nil => exact h.elim
  | cons x xs ih =>
    have hcons : cells (x :: xs) = .cell x :: cells xs := rfl
    rw [hcons, execs, exec_cell n x hs]
    by_cases hx : Wraps s.cell x
    · rw [if_pos hx]
      exact ⟨s, rfl, rfl⟩
    · rw [if_neg hx]
      refine ih (s := s.setCell (s.cell + BitVec.ofInt 8 x)) hs ?_
      rw [Store.setCell_cell]
      exact h.resolve_left hx

theorem execs_cells (n : ℕ) {xs : List ℤ} {s : Store} (hs : s.OnTape tapeLength)
    (h : ¬ Wrapping s.cell xs) :
    execs n (cells xs) s = .done (s.setCell (s.cell + BitVec.ofInt 8 xs.sum)) := by
  induction xs generalizing s with
  | nil => simp [cells, execs]
  | cons x xs ih =>
    have hcons : cells (x :: xs) = .cell x :: cells xs := rfl
    have hx : ¬ Wraps s.cell x := fun hx => h (.inl hx)
    have hrest := ih (s := s.setCell (s.cell + BitVec.ofInt 8 x)) hs (by
      rw [Store.setCell_cell]
      exact fun hxs => h (.inr hxs))
    rw [Store.setCell_cell, Store.setCell_setCell, BitVec.add_assoc, ← BitVec.ofInt_add] at hrest
    rw [hcons, execs, exec_cell n x hs, if_neg hx, Outcome.bind_done, hrest, List.sum_cons]

/-- A group and its sum are alike exactly when both overflow or none does. -/
theorem group_alike_iff (n : ℕ) (x : ℤ) (xs : List ℤ) (s : Store) :
    Alike Store.output (execs n (cells (x :: xs)) s) (exec n (.cell (merged x xs)) s) ↔
      (s.OnTape tapeLength → Fits s.cell (x :: xs)) := by
  by_cases hs : s.OnTape tapeLength
  · rw [exec_cell n _ hs]
    by_cases hgroup : Wrapping s.cell (x :: xs)
    · obtain ⟨t, ht, hout⟩ := execs_cells_wrapping n hs hgroup
      rw [ht]
      by_cases hsum : Wraps s.cell (merged x xs)
      · rw [if_pos hsum]
        exact iff_of_true ⟨s, rfl, hout.symm⟩ fun _ => iff_of_true hgroup hsum
      · rw [if_neg hsum]
        refine iff_of_false ?_ fun h => hsum ((h hs).mp hgroup)
        rintro ⟨u, hu, _⟩
        cases hu
    · rw [execs_cells n hs hgroup, List.sum_cons, ← merged_byte]
      by_cases hsum : Wraps s.cell (merged x xs)
      · rw [if_pos hsum]
        refine iff_of_false ?_ fun h => hgroup ((h hs).mpr hsum)
        intro h
        cases h
      · rw [if_neg hsum]
        exact iff_of_true rfl fun _ => iff_of_false hgroup hsum
  · refine iff_of_true ?_ fun h => (hs h).elim
    have hoff : ∀ y, exec n (.cell y) s = .raised (.invalidArgument "index out of bounds") s := by
      intro y
      rw [exec, act_cell_eq, if_neg hs]
      · rfl
      · simp
    have hcons : cells (x :: xs) = .cell x :: cells xs := rfl
    rw [hcons, execs, hoff, hoff]
    exact .refl _

/-! ## What contraction does -/

/-- At every group that the run of `p` from `s` meets on the tape, the additions overflow exactly
when their sum does. -/
def GroupsFit (p : List Ir) (s : Store) : Prop :=
  ∀ q t, Meets p s q t → t.OnTape tapeLength → Fits t.cell (cellRun q)

theorem Meets.behind_tapes {n : ℕ} {xs : List ℤ} {p q : List Ir} {s t u : Store}
    (ht : execs n (tapes xs) s = .done t) (h : Meets p t q u) : Meets (tapes xs ++ p) s q u := by
  induction xs generalizing s with
  | nil =>
    cases ht
    exact h
  | cons x xs ih =>
    obtain ⟨v, hv, hrest⟩ := execs_cons_done.mp ht
    exact .next (by simp) hv (ih hrest)

theorem Contracts.alike {p q : List Ir} (h : Contracts p q) (n : ℕ) (s : Store)
    (hfit : GroupsFit p s) : Alike Store.output (execs n p s) (execs n q s) := by
  induction h generalizing s with
  | nil => exact .refl _
  | @tapes x xs p q _ ih =>
    rw [execs_append, execs_tapes, execs_singleton, execs]
    refine (Alike.refl _).bind fun t ht => ih t fun r u hr => hfit r u ?_
    rw [← execs_singleton, ← execs_tapes] at ht
    exact hr.behind_tapes ht
  | @cells x xs p q hp _ ih =>
    have hrun := cellRun_cells hp (x :: xs)
    have hgroup : Alike Store.output (execs n (Ocaml.cells (x :: xs)) s)
        (exec n (.cell (merged x xs)) s) := by
      refine (group_alike_iff n x xs s).mpr fun hs => ?_
      have hfirst := hfit _ s (.here _ s) hs
      rw [hrun] at hfirst
      exact hfirst
    rw [execs_append, execs]
    exact hgroup.bind fun t ht => ih t fun r u hr => hfit r u (hr.behind_cells hp ht)
  | @loop b c p q _ _ ihb ih =>
    rw [execs, execs, exec, exec]
    have hloop : Alike Store.output (iterate test (execs n b) n s)
        (iterate test (execs n c) n s) := by
      refine iterate_alike (I := GroupsFit (.loop b :: p)) (fun u hu ht => ?_) ?_ n s hfit
      · exact ihb u fun r v hr => hu r v (.body ht hr)
      · intro u v hu ht hv r w hr
        exact hu r w (.again ht hv hr)
    refine hloop.bind fun t ht => ih t fun r u hr => hfit r u ?_
    exact .next (n := n) (by simp) ht hr
  | @other i p q hi _ ih =>
    rw [execs, execs]
    refine (Alike.refl _).bind fun t ht => ih t fun r u hr => hfit r u ?_
    refine .next ?_ ht hr
    rintro x rfl
    simp at hi

theorem not_wrapping {xs : List ℤ} (h : (xs.map Int.natAbs).sum < 2^61) (c : Byte) :
    ¬ Wrapping c xs := by
  induction xs generalizing c with
  | nil => exact id
  | cons x xs ih =>
    rw [List.map_cons, List.sum_cons] at h
    rintro (hx | hxs)
    · exact not_wraps (by omega) hx
    · exact ih (by omega) _ hxs

theorem merged_le {x : ℤ} {xs : List ℤ} (h : ((x :: xs).map Int.natAbs).sum < 2^61) :
    (merged x xs).natAbs ≤ ((x :: xs).map Int.natAbs).sum := by
  induction xs generalizing x with
  | nil => simp [merged]
  | cons y xs ih =>
    simp only [List.map_cons, List.sum_cons] at h ih ⊢
    have hstep : merged x (y :: xs) = merged (i63 (y + x)) xs := rfl
    have hsum : i63 (y + x) = y + x := i63_of_range (by omega) (by omega)
    have hle := ih (x := y + x) (by omega)
    rw [hstep, hsum]
    omega

/-- In a program whose amounts are not huge every group fits; a parsed program is one. -/
theorem groupsFit_of_weight {p : List Ir} (hw : weight p < 2^61) (s : Store) : GroupsFit p s := by
  intro q t hq _
  have hle := hq.weight_le
  have hcells := cells_afterCells q
  have hq' := congrArg weight hcells
  rw [weight_append, weight_cells] at hq'
  cases hrun : cellRun q with
  | nil => trivial
  | cons x xs =>
    rw [hrun] at hq'
    have hm : (merged x xs).natAbs ≤ ((x :: xs).map Int.natAbs).sum := merged_le (by omega)
    exact iff_of_false (not_wrapping (by omega) _) (not_wraps (by omega))

/-- If at every group of additions that the run of the program meets, one of them overflows exactly
when their sum does, contraction alone leaves a program that behaves the same. -/
theorem contraction_same (p : List Ir) (input : List Byte) (h : GroupsFit p (.start input)) :
    SameRuns (Pass.run [contraction] p) p input :=
  .of_alike (N := 0) (run_growing _ input) (run_growing p input) fun n _ =>
    ((contracts_run p).alike n (.start input) h).symm

/-- `++[->>,.]`. -/
theorem contraction_same_groups :
    SameRuns
      (Pass.run [contraction]
        [.cell 1, .cell 1, .loop [.cell (-1), .tape 1, .tape 1, .read, .write]])
      [.cell 1, .cell 1, .loop [.cell (-1), .tape 1, .tape 1, .read, .write]] [7#8] :=
  contraction_same _ _ (groupsFit_of_weight (by decide) _)

/-- Two, and then the greatest integer: the second addition overflows, their sum does not. -/
theorem contraction_not_same :
    ¬ ∀ (p : List Ir) (input : List Byte), SameRuns (Pass.run [contraction] p) p input := by
  intro h
  have hstart : (Store.start []).OnTape tapeLength := Store.start_onTape (by decide) []
  have hsum : merged 2 [2^62 - 1] = 1 - 2^62 := by decide
  have hwraps : Wrapping 0 [2, 2^62 - 1] := .inr (.inl (by decide))
  have hnot : ¬ Wrapping 0 [merged 2 [2^62 - 1]] := by
    rw [hsum]
    exact fun hw => hw.elim (not_wraps (by norm_num)) id
  have hends := execs_cells 0 (s := Store.start []) hstart hnot
  have hpass : ∀ y, Pass.run [contraction] (cells [2, y]) = cells [merged 2 [y]] := fun y => rfl
  have hrun := (h (cells [2, 2^62 - 1]) []).ends
  rw [hpass] at hrun
  obtain ⟨n, hn⟩ := (hrun _).mp ⟨0, hends⟩
  obtain ⟨t, ht, _⟩ := execs_cells_wrapping n (s := Store.start []) hstart hwraps
  rw [Interpreter.run, ht] at hn
  cases hn

end Bfcomp.Ocaml
