import Bfcomp.Ocaml.Points
import Bfcomp.Ocaml.ZeroLoop
import Mathlib.Data.List.Chain

/-! # The normal form of the pipeline

Each pass of the pipeline of `bin/main.ml` keeps what the passes before it brought about: of two
adjacent instructions of one kind, `contraction` leaves no moves and no additions, `deadCode` no
loops, and `zeroLoop` turns loops into something that is none. A program in this form goes through
the pipeline unchanged. -/

namespace Bfcomp.Ocaml
set_option autoImplicit false

open Pass hiding step run

inductive Kind where
  | tape
  | cell
  | loop
  | other
  deriving DecidableEq

def Ir.kind : Ir → Kind
  | .tape _ => .tape
  | .cell _ => .cell
  | .loop _ => .loop
  | _ => .other

/-- The instructions are not both of one of these kinds. -/
def Differ (ks : List Kind) (i j : Ir) : Prop := i.kind = j.kind → i.kind ∉ ks

/-- No two adjacent instructions are both of one of these kinds. -/
def Apart (ks : List Kind) (p : List Ir) : Prop := p.IsChain (Differ ks)

/-! ## Apart -/

section
variable {ks : List Kind}

theorem differ_comm {i j : Ir} : Differ ks i j ↔ Differ ks j i := by
  unfold Differ
  constructor
  · intro h heq
    rw [heq]
    exact h heq.symm
  · intro h heq
    rw [heq]
    exact h heq.symm

theorem apart_nil : Apart ks [] := .nil

theorem apart_cons {i : Ir} {p : List Ir} :
    Apart ks (i :: p) ↔ (∀ j ∈ p.head?, Differ ks i j) ∧ Apart ks p := List.isChain_cons

theorem apart_reverse {p : List Ir} : Apart ks p.reverse ↔ Apart ks p := by
  unfold Apart
  rw [List.isChain_reverse]
  exact List.IsChain.iff fun _ _ => differ_comm

theorem Apart.mono {ks' : List Kind} (hks : ∀ k ∈ ks', k ∈ ks) {p : List Ir} (h : Apart ks p) :
    Apart ks' p :=
  List.IsChain.imp (fun _ _ hd heq hk => hd heq (hks _ hk)) h

theorem apart_none (p : List Ir) : Apart [] p := by
  induction p with
  | nil => exact apart_nil
  | cons i p ih => exact apart_cons.mpr ⟨fun _ _ _ => List.not_mem_nil, ih⟩

end

section
variable {P Q : List Ir → Prop}

theorem bodies_reverse {p : List Ir} : Bodies P p.reverse ↔ Bodies P p := by
  induction p with
  | nil => rfl
  | cons i p ih =>
    rw [List.reverse_cons, bodies_append, ih, Bodies, Bodies, Bodies]
    simp [and_comm]

theorem Bodies.mono (h : ∀ b, P b → Q b) : ∀ {p : List Ir}, Bodies P p → Bodies Q p
  | [], _ => trivial
  | i :: p, hp => by
    rw [Bodies] at hp ⊢
    refine ⟨?_, Bodies.mono h hp.2⟩
    cases i with
    | loop b =>
      have hb := hp.1
      rw [Bodies1] at hb ⊢
      exact ⟨h b hb.1, Bodies.mono h hb.2⟩
    | _ => trivial

theorem bodies_of_forall (h : ∀ b, P b) (p : List Ir) : Bodies P p := by
  induction hn : sizeOf p using Nat.strong_induction_on generalizing p with
  | h n ih =>
    subst hn
    cases p with
    | nil => trivial
    | cons i p =>
      rw [Bodies]
      refine ⟨?_, ih (sizeOf p) (by simp) p rfl⟩
      cases i with
      | loop b =>
        rw [Bodies1]
        exact ⟨h b, ih (sizeOf b) (by simp; omega) b rfl⟩
      | _ => trivial

end

/-! ## Passes that tidy -/

/-- From a program with no neighbours of the kinds `ks`, the pass leaves one with none of `ks'`. -/
structure Tidies (pass : PassFn) (ks ks' : List Kind) : Prop where
  next : ∀ code i, Apart ks' code → (∀ j ∈ code.head?, Differ ks j i) → Apart ks' (pass code i)
  head : ∀ code i, ∀ j ∈ (pass code i).head?, j.kind = i.kind
  bodies : ∀ P code i, Bodies P code → Bodies1 P i → Bodies P (pass code i)

theorem step_eq (pass : PassFn) (code : List Ir) (i : Ir) {P : List Ir → Prop}
    (hb : ∀ b, i = .loop b → P (fold pass [] b).reverse ∧ Bodies P (fold pass [] b).reverse) :
    ∃ i', Pass.step pass code i = pass code i' ∧ i'.kind = i.kind ∧ Bodies1 P i' := by
  cases i with
  | loop b => exact ⟨.loop (fold pass [] b).reverse, rfl, rfl, hb b rfl⟩
  | _ => exact ⟨_, rfl, rfl, trivial⟩

/-- Behind code that is tidy and may stand before the program, folding leaves tidy code. -/
theorem Tidies.fold {pass : PassFn} {ks ks' : List Kind} (H : Tidies pass ks ks') :
    ∀ p code : List Ir, Apart ks p → Bodies (Apart ks) p → Apart ks' code →
      Bodies (Apart ks') code → (∀ j ∈ code.head?, ∀ i ∈ p.head?, Differ ks j i) →
      Apart ks' (Pass.fold pass code p) ∧ Bodies (Apart ks') (Pass.fold pass code p)
  | [], code, _, _, hcode, hbodies, _ => ⟨hcode, hbodies⟩
  | i :: p, code, hp, hpb, hcode, hbodies, hlink => by
    obtain ⟨hip, hp⟩ := apart_cons.mp hp
    rw [Bodies] at hpb
    obtain ⟨i', hstep, hkind, hi'⟩ := step_eq pass code i (P := Apart ks') (by
      rintro b rfl
      have hb := hpb.1
      rw [Bodies1] at hb
      obtain ⟨hap, hbo⟩ := H.fold b [] hb.1 hb.2 apart_nil trivial (by simp)
      exact ⟨apart_reverse.mpr hap, bodies_reverse.mpr hbo⟩)
    rw [Pass.fold, hstep]
    refine H.fold p (pass code i') hp hpb.2 (H.next code i' hcode ?_) (H.bodies _ code i' hbodies hi')
      ?_
    · intro j hj
      have hd := hlink j hj i rfl
      unfold Differ at hd ⊢
      rwa [hkind]
    · intro j hj k hk
      have hd := hip k hk
      unfold Differ at hd ⊢
      rwa [H.head code i' j hj, hkind]

theorem contraction_cases (code : List Ir) (i : Ir) :
    (∃ a b past, i = .tape a ∧ code = .tape b :: past ∧
      contraction code i = .tape (i63 (a + b)) :: past) ∨
    (∃ a b past, i = .cell a ∧ code = .cell b :: past ∧
      contraction code i = .cell (i63 (a + b)) :: past) ∨
    ((∀ j ∈ code.head?, Differ [.tape, .cell] j i) ∧ contraction code i = i :: code) := by
  unfold contraction
  split
  · exact .inr (.inr ⟨by simp, rfl⟩)
  · rename_i head past
    split
    · exact .inl ⟨_, _, _, rfl, rfl, rfl⟩
    · exact .inr (.inl ⟨_, _, _, rfl, rfl, rfl⟩)
    · rename_i htape hcell
      refine .inr (.inr ⟨?_, rfl⟩)
      intro j hj
      cases hj
      unfold Differ
      cases head <;> cases i <;> simp_all [Ir.kind]

theorem deadCode_cases (code : List Ir) (i : Ir) :
    (∃ b c past, i = .loop c ∧ code = .loop b :: past ∧ deadCode code i = code) ∨
    ((∀ j ∈ code.head?, Differ [.loop] j i) ∧ deadCode code i = i :: code) := by
  unfold deadCode
  split
  · split
    · exact .inl ⟨_, _, _, rfl, rfl, rfl⟩
    · rename_i hi
      refine .inr ⟨?_, rfl⟩
      intro j hj
      cases hj
      unfold Differ
      cases i <;> simp_all [Ir.kind]
  · rename_i hcode
    refine .inr ⟨?_, rfl⟩
    intro j hj
    unfold Differ
    cases code with
    | nil => cases hj
    | cons h past =>
      cases hj
      cases j with
      | loop b => exact (hcode b past rfl).elim
      | _ => exact fun _ => by simp [Ir.kind]

theorem apart_kind {ks : List Kind} {i j : Ir} {p : List Ir} (hkind : i.kind = j.kind)
    (h : Apart ks (i :: p)) : Apart ks (j :: p) := by
  obtain ⟨hi, hp⟩ := apart_cons.mp h
  refine apart_cons.mpr ⟨fun k hk => ?_, hp⟩
  have hd := hi k hk
  unfold Differ at hd ⊢
  rwa [← hkind]

theorem apart_push {ks : List Kind} {code : List Ir} {i : Ir} (hcode : Apart ks code)
    (h : ∀ j ∈ code.head?, Differ ks j i) : Apart ks (i :: code) :=
  apart_cons.mpr ⟨fun j hj => differ_comm.mp (h j hj), hcode⟩

theorem contraction_tidies : Tidies contraction [] [.tape, .cell] := by
  refine ⟨?_, ?_, ?_⟩
  · intro code i hcode _
    rcases contraction_cases code i with ⟨a, b, past, rfl, rfl, h⟩ | ⟨a, b, past, rfl, rfl, h⟩ |
      ⟨hd, h⟩
    · rw [h]
      exact apart_kind (i := .tape b) rfl hcode
    · rw [h]
      exact apart_kind (i := .cell b) rfl hcode
    · rw [h]
      exact apart_push hcode hd
  · intro code i j hj
    rcases contraction_cases code i with ⟨a, b, past, rfl, rfl, h⟩ | ⟨a, b, past, rfl, rfl, h⟩ |
      ⟨_, h⟩ <;> rw [h] at hj <;> cases hj <;> rfl
  · intro P code i hcode hi
    rcases contraction_cases code i with ⟨a, b, past, rfl, rfl, h⟩ | ⟨a, b, past, rfl, rfl, h⟩ |
      ⟨_, h⟩
    · rw [h]
      exact hcode
    · rw [h]
      exact hcode
    · rw [h]
      exact ⟨hi, hcode⟩

theorem deadCode_tidies : Tidies deadCode [.tape, .cell] [.tape, .cell, .loop] := by
  refine ⟨?_, ?_, ?_⟩
  · intro code i hcode hlink
    rcases deadCode_cases code i with ⟨b, c, past, rfl, rfl, h⟩ | ⟨hd, h⟩
    · rw [h]
      exact hcode
    · rw [h]
      refine apart_push hcode fun j hj heq => ?_
      have h1 := hlink j hj heq
      have h2 := hd j hj heq
      simp_all
  · intro code i j hj
    rcases deadCode_cases code i with ⟨b, c, past, rfl, rfl, h⟩ | ⟨_, h⟩ <;> rw [h] at hj <;>
      cases hj <;> rfl
  · intro P code i hcode hi
    rcases deadCode_cases code i with ⟨b, c, past, rfl, rfl, h⟩ | ⟨_, h⟩
    · rw [h]
      exact hcode
    · rw [h]
      exact ⟨hi, hcode⟩

/-! ## Zero loops -/

theorem zeroed_head {p : List Ir} :
    ∀ j ∈ (zeroed p).head?, ∃ i ∈ p.head?, j.kind = i.kind ∨ j.kind = .other := by
  intro j hj
  cases p with
  | nil => cases hj
  | cons i p =>
    refine ⟨i, rfl, ?_⟩
    rcases i.loop_or with ⟨b, rfl⟩ | hi
    · rw [zeroed_loop] at hj
      cases hj
      rcases zeroOne_loop (zeroed b) with ⟨_, _, h⟩ | ⟨_, h⟩
      · exact .inr (by rw [h]; rfl)
      · exact .inl (by rw [h]; rfl)
    · rw [zeroed_cons hi] at hj
      cases hj
      exact .inl rfl

/-- Zero-loop replacement puts no neighbours of a kind together, and leaves no loop over a single
`Cell`. -/
theorem zeroed_apart {ks : List Kind} (hks : .other ∉ ks) : ∀ p : List Ir, Apart ks p →
    Bodies (Apart ks) p →
    Apart ks (zeroed p) ∧ Bodies (fun b => Apart ks b ∧ ∀ x, b ≠ [.cell x]) (zeroed p)
  | [], _, _ => ⟨apart_nil, trivial⟩
  | i :: p, hp, hb => by
    obtain ⟨hip, hp⟩ := apart_cons.mp hp
    rw [Bodies] at hb
    obtain ⟨hrest, hrestb⟩ := zeroed_apart hks p hp hb.2
    have hpush : ∀ i' : Ir, i'.kind = i.kind ∨ i'.kind = .other →
        Apart ks (i' :: zeroed p) := by
      intro i' hi'
      refine apart_cons.mpr ⟨fun j hj heq => ?_, hrest⟩
      obtain ⟨k, hk, hkind⟩ := zeroed_head j hj
      rcases hi' with hi' | hi'
      · rcases hkind with hkind | hkind
        · rw [hi']
          exact hip k hk (by rw [← hi', heq, hkind])
        · rw [heq, hkind]
          exact hks
      · rw [hi']
        exact hks
    cases i with
    | loop b =>
      have hbody := hb.1
      rw [Bodies1] at hbody
      obtain ⟨hin, hinb⟩ := zeroed_apart hks b hbody.1 hbody.2
      rw [zeroed_loop]
      rcases zeroOne_loop (zeroed b) with ⟨_, _, h⟩ | ⟨hne, h⟩
      · rw [h]
        exact ⟨hpush _ (.inr rfl), trivial, hrestb⟩
      · rw [h]
        exact ⟨hpush _ (.inl rfl), ⟨⟨hin, hne⟩, hinb⟩, hrestb⟩
    | _ =>
      rw [zeroed_cons id]
      exact ⟨hpush _ (.inl rfl), trivial, hrestb⟩

/-! ## Fixed points -/

theorem fold_fixed {pass : PassFn} {ks : List Kind}
    (h : ∀ code i, (∀ j ∈ code.head?, Differ ks j i) → pass code i = i :: code) :
    ∀ p code : List Ir, Apart ks p → Bodies (Apart ks) p →
      (∀ j ∈ code.head?, ∀ i ∈ p.head?, Differ ks j i) → Pass.fold pass code p = p.reverse ++ code
  | [], code, _, _, _ => rfl
  | i :: p, code, hp, hb, hlink => by
    obtain ⟨hip, hp⟩ := apart_cons.mp hp
    rw [Bodies] at hb
    have hstep : Pass.step pass code i = pass code i := by
      cases i with
      | loop b =>
        have hbody := hb.1
        rw [Bodies1] at hbody
        rw [Pass.step, fold_fixed h b [] hbody.1 hbody.2 (by simp), List.append_nil,
          List.reverse_reverse]
      | _ => rfl
    rw [Pass.fold, hstep, h code i fun j hj => hlink j hj i rfl, fold_fixed h p _ hp hb.2]
    · simp
    · intro j hj k hk
      cases hj
      exact hip k hk

theorem contraction_fixed (code : List Ir) (i : Ir)
    (h : ∀ j ∈ code.head?, Differ [.tape, .cell] j i) : contraction code i = i :: code := by
  rcases contraction_cases code i with ⟨a, b, past, rfl, rfl, _⟩ | ⟨a, b, past, rfl, rfl, _⟩ |
    ⟨_, heq⟩
  · exact (h (.tape b) rfl rfl (by simp [Ir.kind])).elim
  · exact (h (.cell b) rfl rfl (by simp [Ir.kind])).elim
  · exact heq

theorem deadCode_fixed (code : List Ir) (i : Ir) (h : ∀ j ∈ code.head?, Differ [.loop] j i) :
    deadCode code i = i :: code := by
  rcases deadCode_cases code i with ⟨b, c, past, rfl, rfl, _⟩ | ⟨_, heq⟩
  · exact (h (.loop b) rfl rfl (by simp [Ir.kind])).elim
  · exact heq

theorem zeroed_fixed : ∀ p : List Ir, Bodies (fun b => ∀ x, b ≠ [.cell x]) p → zeroed p = p
  | [], _ => rfl
  | i :: p, hb => by
    rw [Bodies] at hb
    cases i with
    | loop b =>
      have hbody := hb.1
      rw [Bodies1] at hbody
      rw [zeroed_loop, zeroed_fixed b hbody.2, zeroed_fixed p hb.2]
      rcases zeroOne_loop b with ⟨x, hx, _⟩ | ⟨_, h⟩
      · exact (hbody.1 x hx).elim
      · rw [h]
    | _ => rw [zeroed_cons id, zeroed_fixed p hb.2]

/-! ## The pipeline -/

/-- No two adjacent moves, additions or loops at any level, and no loop over a single `Cell`. -/
structure Normal (p : List Ir) : Prop where
  top : Apart [.tape, .cell, .loop] p
  bodies : Bodies (fun b => Apart [.tape, .cell, .loop] b ∧ ∀ x, b ≠ [.cell x]) p

theorem run_pipeline (p : List Ir) : Pass.run [contraction, deadCode, zeroLoop] p =
    zeroed (fold deadCode [] (fold contraction [] p)) := rfl

theorem pipeline_normal_of (p : List Ir) :
    Normal (Pass.run [contraction, deadCode, zeroLoop] p) := by
  obtain ⟨hc, hcb⟩ := contraction_tidies.fold p [] (apart_none p) (bodies_of_forall apart_none p)
    apart_nil trivial (by simp)
  obtain ⟨hd, hdb⟩ := deadCode_tidies.fold _ [] hc hcb apart_nil trivial (by simp)
  obtain ⟨hz, hzb⟩ := zeroed_apart (by decide) _ hd hdb
  exact ⟨hz, hzb⟩

theorem Normal.fixed {p : List Ir} (h : Normal p) :
    Pass.run [contraction, deadCode, zeroLoop] p = p := by
  have hbodies : ∀ ks : List Kind, (∀ k ∈ ks, k ∈ [.tape, .cell, .loop]) → Bodies (Apart ks) p :=
    fun ks hks => h.bodies.mono fun _ hb => hb.1.mono hks
  have hc : fold contraction [] p = p.reverse := by
    rw [fold_fixed contraction_fixed p [] (h.top.mono (by simp)) (hbodies _ (by simp)) (by simp),
      List.append_nil]
  have hd : fold deadCode [] p.reverse = p := by
    rw [fold_fixed deadCode_fixed p.reverse [] (apart_reverse.mpr (h.top.mono (by simp)))
      (bodies_reverse.mpr (hbodies _ (by simp))) (by simp), List.append_nil, List.reverse_reverse]
  rw [run_pipeline, hc, hd]
  exact zeroed_fixed p (h.bodies.mono fun _ hb => hb.2)

/-- What the pipeline leaves is in normal form, and the pipeline leaves it as it is. -/
theorem pipeline_normal (p : List Ir) :
    Normal (Pass.run [contraction, deadCode, zeroLoop] p) ∧
      Pass.run [contraction, deadCode, zeroLoop] (Pass.run [contraction, deadCode, zeroLoop] p) =
        Pass.run [contraction, deadCode, zeroLoop] p :=
  ⟨pipeline_normal_of p, (pipeline_normal_of p).fixed⟩

end Bfcomp.Ocaml
