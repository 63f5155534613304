import Bfcomp.Ocaml.Behaviour
import Bfcomp.Ocaml.Pipeline
import Bfcomp.Ocaml.Points
import Mathlib.Data.Int.GCD
import Mathlib.Tactic.Ring

/-! # Zero-loop replacement alone

`zeroLoop` takes every loop over a single `Cell` for one that leaves zero. From a cell `c`, a loop
that adds `x` meets zero exactly when the greatest common divisor of `x` and 256 divides `c`;
otherwise it never ends, or an addition overflows on the way. -/

namespace Bfcomp.Ocaml
set_option autoImplicit false

open Interpreter
open Pass hiding step run

/-! ## The loop over one `Cell` -/

/-- Adding `x` to the cell `c` again and again comes to zero, and overflows nowhere before. -/
def Clears (c : Byte) (x : ℤ) : Prop :=
  Int.gcd x 256 ∣ c.toNat ∧
    ∀ j : ℕ, (∀ i ≤ j, c + BitVec.ofInt 8 (i * x) ≠ 0) → ¬ Wraps (c + BitVec.ofInt 8 (j * x)) x

theorem byte_zero_iff (c : Byte) (y : ℤ) :
    c + BitVec.ofInt 8 y = 0 ↔ ((c.toNat : ℤ) + y) % 256 = 0 := by
  rw [← BitVec.toNat_inj]
  simp
  omega

/-- Which cells repeated addition brings to zero; a zero comes within 256 additions or never. -/
theorem reaches_zero_iff (c : Byte) (x : ℤ) :
    (∃ k : ℕ, c + BitVec.ofInt 8 (k * x) = 0) ↔ Int.gcd x 256 ∣ c.toNat := by
  simp only [byte_zero_iff]
  constructor
  · rintro ⟨k, hk⟩
    have h256 : (Int.gcd x 256 : ℤ) ∣ c.toNat + k * x :=
      (Int.gcd_dvd_right x 256).trans (Int.dvd_of_emod_eq_zero hk)
    have hx : (Int.gcd x 256 : ℤ) ∣ k * x := (Int.gcd_dvd_left x 256).mul_left k
    exact Int.natCast_dvd_natCast.mp ((Int.dvd_add_left hx).mp h256)
  · intro h
    obtain ⟨u, v, huv⟩ := Int.gcd_dvd_iff.mp h
    refine ⟨((-u) % 256).toNat, Int.emod_eq_zero_of_dvd ⟨v - (-u) / 256 * x, ?_⟩⟩
    have hnonneg : 0 ≤ (-u) % 256 := Int.emod_nonneg _ (by norm_num)
    have hmod : (-u) % 256 = -u - 256 * ((-u) / 256) := by omega
    rw [Int.toNat_of_nonneg hnonneg, huv, hmod]
    ring

theorem least_zero {c : Byte} {x : ℤ} (h : ∃ k : ℕ, c + BitVec.ofInt 8 (k * x) = 0) :
    ∃ k ≤ 255, c + BitVec.ofInt 8 ((k : ℕ) * x) = 0 ∧
      ∀ j < k, c + BitVec.ofInt 8 ((j : ℕ) * x) ≠ 0 := by
  classical
  refine ⟨Nat.find h, ?_, Nat.find_spec h, fun j hj => Nat.find_min h hj⟩
  have hspec := Nat.find_spec h
  have hsmall : c + BitVec.ofInt 8 (((Nat.find h % 256 : ℕ) : ℤ) * x) = 0 := by
    have hsplit : (c.toNat : ℤ) + (Nat.find h : ℕ) * x =
        c.toNat + ((Nat.find h % 256 : ℕ) : ℤ) * x + 256 * ((Nat.find h / 256 : ℕ) * x) := by
      have hmod : ((Nat.find h : ℕ) : ℤ) =
          ((Nat.find h % 256 : ℕ) : ℤ) + 256 * ((Nat.find h / 256 : ℕ) : ℤ) := by omega
      nth_rewrite 1 [hmod]
      ring
    rw [byte_zero_iff, hsplit, Int.add_mul_emod_self_left] at hspec
    exact (byte_zero_iff c _).mpr hspec
  have hle := Nat.find_min' h hsmall
  omega

theorem add_none (c : Byte) (x : ℤ) : c + BitVec.ofInt 8 ((0 : ℕ) * x) = c := by simp

theorem add_next (c : Byte) (x : ℤ) (j : ℕ) :
    c + BitVec.ofInt 8 x + BitVec.ofInt 8 (j * x) = c + BitVec.ofInt 8 ((j + 1 : ℕ) * x) := by
  rw [BitVec.add_assoc, ← BitVec.ofInt_add, Int.natCast_succ, Int.add_mul, Int.one_mul,
    Int.add_comm]

theorem iterate_cell {m n k : ℕ} {x : ℤ} {s : Store} (hs : s.OnTape tapeLength) (hle : k ≤ n)
    (hzero : s.cell + BitVec.ofInt 8 (k * x) = 0)
    (hnot : ∀ j : ℕ, j < k → s.cell + BitVec.ofInt 8 (j * x) ≠ 0 ∧
      ¬ Wraps (s.cell + BitVec.ofInt 8 (j * x)) x) :
    iterate test (execs m [.cell x]) n s = .done (s.setCell 0) := by
  induction k generalizing n s with
  | zero =>
    have hcell : s.cell = 0 := by rwa [add_none] at hzero
    rw [iterate_exit, ← hcell, Store.setCell_self]
    rw [test_of_onTape hs, hcell]
    rfl
  | succ k ih =>
    obtain ⟨n, rfl⟩ : ∃ n', n = n' + 1 := ⟨n - 1, by omega⟩
    obtain ⟨hne, hwraps⟩ := hnot 0 (Nat.succ_pos k)
    rw [add_none] at hne hwraps
    have hrest := ih (n := n) (s := s.setCell (s.cell + BitVec.ofInt 8 x)) hs (by omega)
    rw [Store.setCell_cell, add_next] at hrest
    rw [iterate_enter, execs_singleton, exec_cell m x hs, if_neg hwraps, Outcome.bind_done, hrest,
      Store.setCell_setCell]
    · exact hzero
    · intro j hj
      rw [add_next]
      exact hnot (j + 1) (by omega)
    · rw [test_of_onTape hs, decide_eq_true hne]

theorem iterate_cell_done {m n : ℕ} {x : ℤ} {s t : Store} (hs : s.OnTape tapeLength)
    (h : iterate test (execs m [.cell x]) n s = .done t) :
    ∃ k : ℕ, s.cell + BitVec.ofInt 8 (k * x) = 0 ∧
      ∀ j : ℕ, j < k → ¬ Wraps (s.cell + BitVec.ofInt 8 (j * x)) x := by
  have hexit : ∀ u : Store, u.cell = 0 → ∃ k : ℕ, u.cell + BitVec.ofInt 8 (k * x) = 0 ∧
      ∀ j : ℕ, j < k → ¬ Wraps (u.cell + BitVec.ofInt 8 (j * x)) x :=
    fun u hzero => ⟨0, by rw [add_none, hzero], fun j hj => by omega⟩
  induction n generalizing s with
  | zero =>
    by_cases hzero : s.cell = 0
    · exact hexit s hzero
    · rw [iterate_timeout (by rw [test_of_onTape hs, decide_eq_true hzero])] at h
      cases h
  | succ n ih =>
    by_cases hzero : s.cell = 0
    · exact hexit s hzero
    · rw [iterate_enter (by rw [test_of_onTape hs, decide_eq_true hzero]), execs_singleton,
        exec_cell m x hs] at h
      by_cases hwraps : Wraps s.cell x
      · rw [if_pos hwraps] at h
        cases h
      · rw [if_neg hwraps, Outcome.bind_done] at h
        obtain ⟨k, hk, hnot⟩ := ih (s := s.setCell (s.cell + BitVec.ofInt 8 x)) hs h
        rw [Store.setCell_cell, add_next] at hk
        refine ⟨k + 1, hk, fun j hj => ?_⟩
        cases j with
        | zero =>
          rw [add_none]
          exact hwraps
        | succ j =>
          have hj' := hnot j (by omega)
          rw [Store.setCell_cell, add_next] at hj'
          exact hj'

/-- On the tape, the loop over `Cell x` ends exactly when the cell clears, within 255 turns, and
leaves zero. -/
theorem exec_loop_cell {n : ℕ} (hn : 255 ≤ n) {x : ℤ} {s : Store} (hs : s.OnTape tapeLength)
    (h : Clears s.cell x) : exec n (.loop [.cell x]) s = .done (s.setCell 0) := by
  obtain ⟨hgcd, hwraps⟩ := h
  obtain ⟨k, hle, hzero, hne⟩ := least_zero ((reaches_zero_iff s.cell x).mpr hgcd)
  rw [exec]
  refine iterate_cell hs (by omega) hzero fun j hj => ⟨hne j hj, hwraps j fun i hi => ?_⟩
  exact hne i (by omega)

theorem exec_loop_cell_done {n : ℕ} {x : ℤ} {s t : Store} (hs : s.OnTape tapeLength)
    (h : exec n (.loop [.cell x]) s = .done t) : Clears s.cell x := by
  rw [exec] at h
  obtain ⟨k, hzero, hwraps⟩ := iterate_cell_done hs h
  refine ⟨(reaches_zero_iff s.cell x).mp ⟨k, hzero⟩, fun j hj => hwraps j ?_⟩
  by_contra hk
  exact hj k (by omega) hzero

/-! ## What the pass makes of a program -/

/-- What `zeroLoop` makes of one instruction. -/
def zeroOne : Ir → Ir
  | .loop [.cell _] => .set 0
  | i => i

theorem zeroLoop_eq (code : List Ir) (i : Ir) : zeroLoop code i = zeroOne i :: code := by
  by_cases hi : ∃ x, i = .loop [.cell x]
  · obtain ⟨x, rfl⟩ := hi
    rfl
  · have hne : ∀ x, i = .loop [.cell x] → False := fun x hx => hi ⟨x, hx⟩
    rw [zeroLoop, zeroOne]
    · exact hne
    · exact hne

theorem zeroOne_loop (b : List Ir) :
    (∃ x, b = [.cell x] ∧ zeroOne (.loop b) = .set 0) ∨
    ((∀ x, b ≠ [.cell x]) ∧ zeroOne (.loop b) = .loop b) := by
  unfold zeroOne
  split
  · rename_i x heq
    cases heq
    exact .inl ⟨x, rfl, rfl⟩
  · rename_i hne
    exact .inr ⟨fun x hx => hne x (by rw [hx]), rfl⟩

/-- What folding `zeroLoop` makes of a program, in its own order. -/
def zeroed (p : List Ir) : List Ir := (fold zeroLoop [] p).reverse

theorem step_zeroLoop (code : List Ir) (i : Ir) :
    Pass.step zeroLoop code i = Pass.step zeroLoop [] i ++ code := by
  cases i with
  | loop b => rw [Pass.step, Pass.step, zeroLoop_eq, zeroLoop_eq]; rfl
  | _ => rfl

theorem fold_zeroLoop (code p : List Ir) : fold zeroLoop code p = (zeroed p).reverse ++ code := by
  rw [zeroed, List.reverse_reverse]
  induction p generalizing code with
  | nil => rfl
  | cons i p ih => rw [fold, fold, ih, ih (Pass.step zeroLoop [] i), step_zeroLoop,
      List.append_assoc]

theorem zeroed_loop (b p : List Ir) :
    zeroed (.loop b :: p) = zeroOne (.loop (zeroed b)) :: zeroed p := by
  rw [zeroed, fold, Pass.step, zeroLoop_eq, fold_zeroLoop, List.reverse_append,
    List.reverse_reverse]
  rfl

theorem zeroed_cons {i : Ir} (hi : ¬ i.IsLoop) (p : List Ir) :
    zeroed (i :: p) = i :: zeroed p := by
  have hstep : Pass.step zeroLoop [] i = [i] := by
    cases i with
    | loop b => exact (hi trivial).elim
    | _ => rfl
  rw [zeroed, fold, hstep, fold_zeroLoop, List.reverse_append, List.reverse_reverse]
  rfl

theorem zeroed_eq_nil {p : List Ir} (h : zeroed p = []) : p = [] := by
  cases p with
  | nil => rfl
  | cons i p =>
    rcases i.loop_or with ⟨b, rfl⟩ | hi
    · rw [zeroed_loop] at h
      cases h
    · rw [zeroed_cons hi] at h
      cases h

theorem zeroed_eq_cell {b : List Ir} {x : ℤ} (h : zeroed b = [.cell x]) : b = [.cell x] := by
  cases b with
  | nil => cases h
  | cons i p =>
    rcases i.loop_or with ⟨c, rfl⟩ | hi
    · rw [zeroed_loop] at h
      rcases zeroOne_loop (zeroed c) with ⟨_, _, hone⟩ | ⟨_, hone⟩ <;> rw [hone] at h <;> cases h
    · rw [zeroed_cons hi] at h
      obtain ⟨rfl, hp⟩ := List.cons_eq_cons.mp h
      rw [zeroed_eq_nil hp]

/-! ## What zero-loop replacement does -/

/-- At every loop over a single `Cell` that the run of `p` from `s` meets on the tape, the cell
clears. -/
def LoopsClear (p : List Ir) (s : Store) : Prop :=
  ∀ x q t, Meets p s (.loop [.cell x] :: q) t → t.OnTape tapeLength → Clears t.cell x

theorem exec_zero_loop {n : ℕ} (hn : 255 ≤ n) {x : ℤ} {s : Store}
    (h : s.OnTape tapeLength → Clears s.cell x) :
    exec n (.loop [.cell x]) s = exec n (.set 0) s := by
  by_cases hs : s.OnTape tapeLength
  · rw [exec_loop_cell hn hs (h hs)]
    simp only [exec, act_set_zero hs]
    rfl
  · have hset : act (.set 0) s = .error (.invalidArgument "index out of bounds") := by
      have hchr : chr 0 = .ok 0 := rfl
      rw [act, hchr, Except.bind, assign, bounds, if_neg hs, Except.map]
    rw [exec, iterate_error (test_error hs)]
    simp only [exec, hset]
    rfl

theorem LoopsClear.behind {n : ℕ} {i : Ir} {p : List Ir} {s t : Store} (h : LoopsClear (i :: p) s)
    (ht : exec n i s = .done t) : LoopsClear p t :=
  fun x q u hu => h x q u (.behind rfl ht hu)

theorem zeroOne_alike {n : ℕ} (hn : 255 ≤ n) {b p : List Ir} {s : Store}
    (hb : ∀ t, LoopsClear b t → Alike Store.output (execs n b t) (execs n (zeroed b) t))
    (h : LoopsClear (.loop b :: p) s) :
    Alike Store.output (exec n (.loop b) s) (exec n (zeroOne (.loop (zeroed b))) s) := by
  rcases zeroOne_loop (zeroed b) with ⟨x, hx, hone⟩ | ⟨_, hone⟩
  · rw [hone, zeroed_eq_cell hx]
    rw [zeroed_eq_cell hx] at h
    rw [exec_zero_loop hn fun hs => h x p s (.here _ s) hs]
    exact .refl _
  · rw [hone, exec, exec]
    refine iterate_alike (I := LoopsClear (.loop b :: p)) (fun u hu ht => ?_) ?_ n s h
    · exact hb u fun x q v hv => hu x q v (.body ht hv)
    · intro u v hu ht hv x q w hw
      exact hu x q w (.again ht hv hw)

theorem zeroed_alike {n : ℕ} (hn : 255 ≤ n) : ∀ (p : List Ir) (s : Store), LoopsClear p s →
    Alike Store.output (execs n p s) (execs n (zeroed p) s)
  | [], s, _ => .refl _
  | i :: p, s, h => by
    have hrest : ∀ t, exec n i s = .done t →
        Alike Store.output (execs n p t) (execs n (zeroed p) t) :=
      fun t ht => zeroed_alike hn p t (h.behind ht)
    cases i with
    | loop b =>
      rw [zeroed_loop, execs, execs]
      exact (zeroOne_alike hn (fun t ht => zeroed_alike hn b t ht) h).bind hrest
    | _ =>
      rw [zeroed_cons id, execs, execs]
      exact (Alike.refl _).bind hrest

/-- If at every loop over a single `Cell` that the run of the program meets, the cell clears,
zero-loop replacement alone leaves a program that behaves the same. -/
theorem zeroLoop_same (p : List Ir) (input : List Byte) (h : LoopsClear p (.start input)) :
    SameRuns (Pass.run [zeroLoop] p) p input :=
  .of_alike (run_growing _ input) (run_growing p input) fun _ hn =>
    (zeroed_alike hn p (.start input) h).symm

theorem clears_of_odd {x : ℤ} (hodd : x % 2 = 1) (hx : x < 2^61) (c : Byte) : Clears c x := by
  refine ⟨?_, fun _ _ => not_wraps hx⟩
  have hcoprime : Nat.Coprime x.natAbs (2^8) := by
    have hmod : x.natAbs % 2 = 1 := by omega
    refine Nat.Coprime.pow_right 8 (Nat.Coprime.symm ?_)
    rw [Nat.Coprime, Nat.gcd_rec, hmod]
    rfl
  have hgcd : Int.gcd x 256 = 1 := hcoprime
  rw [hgcd]
  exact Nat.one_dvd _

/-- In a program whose zero loops have odd amounts every loop clears; a parsed program is one. -/
theorem loopsClear_of_odd {p : List Ir}
    (hp : Bodies (fun b => ∀ x, b = [.cell x] → x % 2 = 1 ∧ x < 2^61) p) (s : Store) :
    LoopsClear p s := by
  intro x q t hq _
  have hbody := hq.bodies hp
  obtain ⟨hodd, hx⟩ := hbody.1.1 x rfl
  exact clears_of_odd hodd hx t.cell

/-- `++++[---]`. -/
theorem zeroLoop_same_threes :
    SameRuns (Pass.run [zeroLoop] [.cell 4, .loop [.cell (-3)]]) [.cell 4, .loop [.cell (-3)]] [] := by
  refine zeroLoop_same _ _ (loopsClear_of_odd ?_ _)
  simp [Bodies, Bodies1]

/-- `+[++]` never ends. -/
theorem zeroLoop_not_same :
    ¬ ∀ (p : List Ir) (input : List Byte), SameRuns (Pass.run [zeroLoop] p) p input := by
  intro h
  have hpass : Pass.run [zeroLoop] [.cell 1, .loop [.cell 2]] = [.cell 1, .set 0] := rfl
  have hstart : (Store.start []).OnTape tapeLength := Store.start_onTape (by decide) []
  have hcell : ∀ n, exec n (.cell 1) (Store.start []) = .done ((Store.start []).setCell 1) := by
    intro n
    rw [exec_cell n 1 hstart, if_neg (not_wraps (by norm_num))]
    rfl
  have hset : exec 0 (.set 0) ((Store.start []).setCell 1) = .done ((Store.start []).setCell 0) := by
    simp only [exec, act_set_zero (s := (Store.start []).setCell 1) hstart, Store.setCell_setCell]
    rfl
  have hends : Interpreter.run 0 [.cell 1, .set 0] [] = .done ((Store.start []).setCell 0) :=
    execs_cons_done.mpr ⟨_, hcell 0, by rw [execs_singleton, hset]⟩
  have hruns := (h [.cell 1, .loop [.cell 2]] []).ends
  rw [hpass] at hruns
  obtain ⟨n, hn⟩ := (hruns _).mp ⟨0, hends⟩
  obtain ⟨u, hu, hloop⟩ := execs_cons_done.mp hn
  rw [hcell] at hu
  cases hu
  rw [execs_singleton] at hloop
  have hclears := exec_loop_cell_done (s := (Store.start []).setCell 1) hstart hloop
  rw [Store.setCell_cell] at hclears
  exact absurd hclears.1 (by decide)

end Bfcomp.Ocaml
