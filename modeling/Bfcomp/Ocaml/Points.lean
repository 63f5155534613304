import Bfcomp.Ocaml.Passes

/-! # The points a run meets

A point of a run is what is left of a level of the program, with the store there. A group of
adjacent `Cell`s is met as a whole, before its first one. -/

namespace Bfcomp.Ocaml
set_option autoImplicit false

open Interpreter

def cells (xs : List ℤ) : List Ir := xs.map .cell

/-- The arguments of the `Cell`s that a program starts with. -/
def cellRun : List Ir → List ℤ
  | .cell x :: p => x :: cellRun p
  | _ => []

/-- The program behind the `Cell`s that it starts with. -/
def afterCells : List Ir → List Ir
  | .cell _ :: p => afterCells p
  | p => p

/-- A run of `p` from `s` meets what is left at `q`, in the store `t`. -/
inductive Meets : List Ir → Store → List Ir → Store → Prop
  | here (p : List Ir) (s : Store) : Meets p s p s
  | group {n : ℕ} {x : ℤ} {p q : List Ir} {s t u : Store}
      (ht : execs n (cells (x :: cellRun p)) s = .done t) (h : Meets (afterCells p) t q u) :
      Meets (.cell x :: p) s q u
  | next {n : ℕ} {i : Ir} {p q : List Ir} {s t u : Store} (hi : ∀ x, i ≠ .cell x)
      (ht : exec n i s = .done t) (h : Meets p t q u) : Meets (i :: p) s q u
  | body {b p q : List Ir} {s u : Store} (hs : test s = .ok true) (h : Meets b s q u) :
      Meets (.loop b :: p) s q u
  | again {n : ℕ} {b p q : List Ir} {s t u : Store} (hs : test s = .ok true)
      (ht : execs n b s = .done t) (h : Meets (.loop b :: p) t q u) : Meets (.loop b :: p) s q u

/-! ## Groups of additions -/

theorem cells_afterCells (p : List Ir) : cells (cellRun p) ++ afterCells p = p := by
  induction p with
  | nil => rfl
  | cons i p ih =>
    cases i with
    | cell x => exact congrArg (Ir.cell x :: ·) ih
    | _ => rfl

theorem cellRun_other {i : Ir} (hi : ∀ x, i ≠ .cell x) (p : List Ir) : cellRun (i :: p) = [] := by
  cases i with
  | cell x => exact (hi x rfl).elim
  | _ => rfl

theorem cellRun_cells {p : List Ir} (hp : cellRun p = []) (xs : List ℤ) :
    cellRun (cells xs ++ p) = xs := by
  induction xs with
  | nil => exact hp
  | cons x xs ih => exact congrArg (x :: ·) ih

theorem afterCells_cells {p : List Ir} (hp : cellRun p = []) (xs : List ℤ) :
    afterCells (cells xs ++ p) = p := by
  have h := cells_afterCells (cells xs ++ p)
  rw [cellRun_cells hp xs] at h
  exact List.append_cancel_left h

theorem Meets.behind_cells {n : ℕ} {x : ℤ} {xs : List ℤ} {p q : List Ir} {s t u : Store}
    (hp : cellRun p = []) (ht : execs n (cells (x :: xs)) s = .done t) (h : Meets p t q u) :
    Meets (cells (x :: xs) ++ p) s q u := by
  have hcons : cells (x :: xs) ++ p = .cell x :: (cells xs ++ p) := rfl
  rw [hcons]
  refine .group (n := n) (t := t) ?_ ?_
  · rw [cellRun_cells hp]
    exact ht
  · rw [afterCells_cells hp]
    exact h

/-- Behind any instruction the run meets what it meets from there, but no group midway. -/
theorem Meets.behind {n : ℕ} {i : Ir} {p q : List Ir} {s t u : Store} (hq : cellRun q = [])
    (ht : exec n i s = .done t) (h : Meets p t q u) : Meets (i :: p) s q u := by
  by_cases hi : ∃ x, i = .cell x
  · obtain ⟨x, rfl⟩ := hi
    by_cases hp : cellRun p = []
    · have hsplit := cells_afterCells p
      rw [hp] at hsplit
      have hone : execs n (cells [x]) s = .done t := by
        rw [← ht]
        exact execs_singleton n _ s
      exact Meets.behind_cells hp hone h
    · -- the group starts here and goes on in `p`
      cases h with
      | here => exact (hp hq).elim
      | @group m y p _ _ v _ hv h =>
        refine .group (n := m) (execs_cons_done.mpr ⟨t, ?_, hv⟩) h
        exact ht
      | next hi _ _ => exact (hp (cellRun_other hi _)).elim
      | body _ _ => exact (hp rfl).elim
      | again _ _ _ => exact (hp rfl).elim
  · exact .next (fun x hx => hi ⟨x, hx⟩) ht h

/-! ## Points and weights -/

theorem weight_cells (xs : List ℤ) : weight (cells xs) = (xs.map Int.natAbs).sum := by
  induction xs with
  | nil => rfl
  | cons x xs ih =>
    have hcons : cells (x :: xs) = .cell x :: cells xs := rfl
    rw [hcons, weight, ih, List.map_cons, List.sum_cons]
    rfl

theorem Meets.weight_le {p q : List Ir} {s t : Store} (h : Meets p s q t) :
    weight q ≤ weight p := by
  induction h with
  | here p s => exact Nat.le_refl _
  | @group n x p q s t u ht h ih =>
    have hp := cells_afterCells p
    have hw := congrArg weight hp
    rw [weight_append] at hw
    rw [weight]
    omega
  | next hi ht h ih =>
    rw [weight]
    omega
  | body hs h ih =>
    rw [weight, weight1]
    omega
  | again hs ht h ih => exact ih

/-! ## Points and loop bodies -/

mutual

def Bodies1 (P : List Ir → Prop) : Ir → Prop
  | .loop b => P b ∧ Bodies P b
  | _ => True

/-- Every loop body in the program, at any depth, satisfies `P`. -/
def Bodies (P : List Ir → Prop) : List Ir → Prop
  | [] => True
  | i :: p => Bodies1 P i ∧ Bodies P p

end

theorem bodies_append {P : List Ir → Prop} {p q : List Ir} :
    Bodies P (p ++ q) ↔ Bodies P p ∧ Bodies P q := by
  induction p with
  | nil => simp [Bodies]
  | cons i p ih => rw [List.cons_append, Bodies, Bodies, ih, and_assoc]

theorem Meets.bodies {P : List Ir → Prop} {p q : List Ir} {s t : Store} (h : Meets p s q t)
    (hp : Bodies P p) : Bodies P q := by
  induction h with
  | here p s => exact hp
  | @group n x p q s t u ht h ih =>
    have hsplit := cells_afterCells p
    rw [Bodies, ← hsplit, bodies_append] at hp
    exact ih hp.2.2
  | next hi ht h ih =>
    rw [Bodies] at hp
    exact ih hp.2
  | body hs h ih =>
    rw [Bodies, Bodies1] at hp
    exact ih hp.1.2
  | again hs ht h ih => exact ih hp

end Bfcomp.Ocaml
