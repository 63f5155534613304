import Bfcomp.Foundations.Structured
import Bfcomp.Frontend.IrGen

/-! # The structured program behind an IR

A context always holds a structured program cut open at its pending loops: the segments before
each pending `[`, and the segment after the last one. `flat` writes a structured program as ops
with relative offsets; `Represents` says which segments a context holds. -/

namespace Bfcomp
set_option autoImplicit false

/-- The ops of the parser other than brackets. -/
inductive Prim where
  | tape (n : ℤ)
  | cell (n : ℤ)
  | write (n : ℤ)
  | read (n : ℤ)
  deriving DecidableEq

def Prim.op : Prim → IrOp
  | tape n => ⟨.tape, n⟩
  | cell n => ⟨.cell, n⟩
  | write n => ⟨.write, n⟩
  | read n => ⟨.read, n⟩

/-- An op for input or output does at least one transfer. -/
def Prim.Valid : Prim → Prop
  | write n => 1 ≤ n
  | read n => 1 ≤ n
  | _ => True

theorem Prim.op_injective : ∀ {i j : Prim}, i.op = j.op → i = j
  | tape _, tape _, h => by cases h; rfl
  | cell _, cell _, h => by cases h; rfl
  | write _, write _, h => by cases h; rfl
  | read _, read _, h => by cases h; rfl
  | tape _, cell _, h => by cases h
  | tape _, write _, h => by cases h
  | tape _, read _, h => by cases h
  | cell _, tape _, h => by cases h
  | cell _, write _, h => by cases h
  | cell _, read _, h => by cases h
  | write _, tape _, h => by cases h
  | write _, cell _, h => by cases h
  | write _, read _, h => by cases h
  | read _, tape _, h => by cases h
  | read _, cell _, h => by cases h
  | read _, write _, h => by cases h

theorem Prim.op_ne_bracket (i : Prim) : i.op.kind ≠ .loopStart ∧ i.op.kind ≠ .loopEnd := by
  cases i <;> exact ⟨nofun, nofun⟩

/-! ## Flattening -/

/-- The ops of a program, loop offsets included. -/
def flat : Prog Prim → List IrOp
  | .nil => []
  | .prim i k => i.op :: flat k
  | .loop b k =>
    ⟨.loopStart, (flat b).length + 1⟩ :: flat b ++ ⟨.loopEnd, -((flat b).length + 1 : ℤ)⟩ :: flat k

@[simp] theorem flat_nil : flat .nil = [] := rfl

theorem flat_append (p q : Prog Prim) : flat (p ++ q) = flat p ++ flat q := by
  induction p with
  | nil => rfl
  | prim i k ih => rw [Prog.prim_append, flat, flat, ih, List.cons_append]
  | loop b k _ ih => simp [flat, ih]

theorem all_flat {P : IrOp → Prop} {p : Prog Prim} :
    (∀ op ∈ flat p, op.kind ≠ .loopStart → op.kind ≠ .loopEnd → P op) ↔ p.All fun i => P i.op := by
  induction p with
  | nil => simp [Prog.All]
  | prim i k ih =>
    rw [flat, List.forall_mem_cons, ih]
    exact and_congr_left fun _ =>
      ⟨fun h => h i.op_ne_bracket.1 i.op_ne_bracket.2, fun h _ _ => h⟩
  | loop b k ihb ihk =>
    rw [flat, List.cons_append, List.forall_mem_cons, List.forall_mem_append,
      List.forall_mem_cons, ihb, ihk]
    exact ⟨fun h => ⟨h.2.1, h.2.2.2⟩,
      fun h => ⟨fun hs => (hs rfl).elim, h.1, fun _ he => (he rfl).elim, h.2⟩⟩

/-- The ops of the segments before the pending loops, innermost segment first in the list. -/
def opened : List (Prog Prim) → List IrOp
  | [] => []
  | p :: ps => opened ps ++ flat p ++ [⟨.loopStart, 0⟩]

/-- The addresses of the pending loops. -/
def addrs : List (Prog Prim) → List ℕ
  | [] => []
  | p :: ps => (opened ps ++ flat p).length :: addrs ps

@[simp] theorem addrs_length (ps : List (Prog Prim)) : (addrs ps).length = ps.length := by
  induction ps with
  | nil => rfl
  | cons p ps ih => simp [addrs, ih]

/-- The context holds the segments `outer`, each followed by a pending loop, and then `cur`. -/
structure Represents (ctx : IrCtx) (cur : Prog Prim) (outer : List (Prog Prim)) : Prop where
  data : ctx.data = opened outer ++ flat cur
  patch : ctx.patch = addrs outer

/-! ## What one step does to the segments -/

section Steps
variable {ctx : IrCtx} {cur : Prog Prim} {outer : List (Prog Prim)}

theorem represents_init : Represents {} .nil [] := ⟨rfl, rfl⟩

theorem Represents.outer_nil (H : Represents ctx cur outer) (hpatch : ctx.patch = []) :
    outer = [] := by
  have hlen := addrs_length outer
  rw [← H.patch, hpatch] at hlen
  exact List.eq_nil_of_length_eq_zero hlen.symm

theorem Represents.push (H : Represents ctx cur outer) {kind : IrOpKind} {v : ℤ} {i : Prim}
    (hi : i.op = ⟨kind, i64 v⟩) : Represents (pushOp ctx kind v) (cur ++ .prim i .nil) outer where
  data := by simp [pushOp, H.data, flat_append, flat, hi]
  patch := H.patch

/-- The last op of a context is a `CELL` or `TAPE` only if it ends the current segment. -/
theorem Represents.last_prim (H : Represents ctx cur outer) {init : List IrOp} {i : Prim}
    (hdata : ctx.data = init ++ [i.op]) :
    ∃ q, cur = q ++ .prim i .nil ∧ init = opened outer ++ flat q := by
  have hflat := H.data.symm.trans hdata
  rcases cur.last_cases with rfl | ⟨q, j, rfl⟩ | ⟨q, b, rfl⟩
  · -- nothing after the last pending loop: the last op is that loop's start, or there is none
    cases outer with
    | nil => simp [opened] at hflat
    | cons p ps =>
      rw [flat_nil, List.append_nil, opened] at hflat
      have hop := (List.append_inj' hflat rfl).2
      simp only [List.cons.injEq, and_true] at hop
      exact (i.op_ne_bracket.1 (by rw [← hop])).elim
  · rw [flat_append, ← List.append_assoc] at hflat
    obtain ⟨hinit, hops⟩ := List.append_inj' hflat rfl
    have hop : j.op = i.op := by simpa [flat] using hops
    exact ⟨q, by rw [Prim.op_injective hop], hinit.symm⟩
  · have hloop : flat (q ++ .loop b .nil) =
        flat q ++ ⟨.loopStart, (flat b).length + 1⟩ :: flat b ++
          [⟨.loopEnd, -((flat b).length + 1 : ℤ)⟩] := by
      simp [flat_append, flat]
    rw [hloop, ← List.append_assoc] at hflat
    have hop := (List.append_inj' hflat rfl).2
    simp only [List.cons.injEq, and_true] at hop
    exact (i.op_ne_bracket.2 (by rw [← hop])).elim

theorem Represents.coalesce (H : Represents ctx cur outer) {kind : IrOpKind} {v : ℤ}
    {mk : ℤ → Prim} (hmk : ∀ a, (mk a).op = ⟨kind, a⟩) :
    (∃ q a, cur = q ++ .prim (mk a) .nil ∧
      Represents (coalesce ctx kind v) (q ++ .prim (mk (i64 (a + v))) .nil) outer) ∨
    Represents (coalesce ctx kind v) (cur ++ .prim (mk (i64 v)) .nil) outer := by
  rcases coalesce_cases ctx kind v with ⟨init, a, hdata, he⟩ | ⟨_, he⟩
  · rw [← hmk a] at hdata
    obtain ⟨q, hcur, hinit⟩ := H.last_prim hdata
    refine .inl ⟨q, a, hcur, ?_⟩
    rw [he]
    exact ⟨by simp [hinit, flat_append, flat, hmk], H.patch⟩
  · rw [he]
    exact .inr (H.push (hmk _))

theorem Represents.openLoop (H : Represents ctx cur outer) :
    Represents (openLoop ctx) .nil (cur :: outer) where
  data := by simp [Bfcomp.openLoop, opened, H.data]
  patch := by simp [Bfcomp.openLoop, addrs, H.data, H.patch]

theorem Represents.closeLoop {p : Prog Prim} (H : Represents ctx cur (p :: outer)) :
    Represents (closeLoop ctx (opened outer ++ flat p).length (addrs outer))
      (p ++ .loop cur .nil) outer where
  data := by
    have hdelta : ((opened (p :: outer) ++ flat cur).length : ℤ) -
        (opened outer ++ flat p).length = (flat cur).length + 1 := by
      simp only [opened, List.length_append, List.length_cons, List.length_nil]
      omega
    have hset : (opened (p :: outer) ++ flat cur).set (opened outer ++ flat p).length
        ⟨.loopStart, (flat cur).length + 1⟩ =
        opened outer ++ flat p ++ ⟨.loopStart, (flat cur).length + 1⟩ :: flat cur := by
      rw [opened, List.append_assoc _ [_], List.set_append_right _ _ (Nat.le_refl _), Nat.sub_self]
      rfl
    simp only [Bfcomp.closeLoop, H.data, hdelta, hset, flat_append, flat]
    simp
  patch := rfl

end Steps

/-! ## Every context holds a structured program -/

/-- The context holds segments whose ops are all valid. -/
def Shaped (ctx : IrCtx) : Prop :=
  ∃ cur outer, Represents ctx cur outer ∧ cur.All Prim.Valid ∧ ∀ p ∈ outer, p.All Prim.Valid

theorem Shaped.parseSwitch {ctx ctx' : IrCtx} {c : Byte} {count advance : ℕ} (H : Shaped ctx)
    (hpos : 1 ≤ count) (hfits : count < 2^63)
    (h : parseSwitch ctx c count = some (ctx', advance)) : Shaped ctx' := by
  obtain ⟨cur, outer, hrep, hcur, houter⟩ := H
  have hcount : i64 count = count := i64_of_range (by omega) (by omega)
  rcases parseSwitch_cases h with ⟨kind, hk, rfl, _⟩ | ⟨kind, v, hk, _, rfl, _⟩ | ⟨rfl, _⟩ |
    ⟨addr, prev, hpatch, rfl, _⟩ | ⟨rfl, _⟩
  · have hvalid : (1 : ℤ) ≤ i64 count := by rw [hcount]; omega
    rcases hk with rfl | rfl
    · exact ⟨_, _, hrep.push (i := .read _) rfl, Prog.all_append.mpr ⟨hcur, hvalid, trivial⟩, houter⟩
    · exact ⟨_, _, hrep.push (i := .write _) rfl, Prog.all_append.mpr ⟨hcur, hvalid, trivial⟩,
        houter⟩
  · -- `CELL` and `TAPE` ops are valid whatever their argument
    have hmk : ∀ mk : ℤ → Prim, (∀ a, (mk a).op = ⟨kind, a⟩) → (∀ a, (mk a).Valid) →
        Shaped (coalesce ctx kind v) := by
      intro mk hop hvalid
      rcases hrep.coalesce hop (v := v) with ⟨q, a, rfl, hrep'⟩ | hrep'
      · exact ⟨_, _, hrep',
          Prog.all_append.mpr ⟨(Prog.all_append.mp hcur).1, hvalid _, trivial⟩, houter⟩
      · exact ⟨_, _, hrep', Prog.all_append.mpr ⟨hcur, hvalid _, trivial⟩, houter⟩
    rcases hk with rfl | rfl
    · exact hmk .cell (fun _ => rfl) (fun _ => trivial)
    · exact hmk .tape (fun _ => rfl) (fun _ => trivial)
  · refine ⟨_, _, hrep.openLoop, trivial, ?_⟩
    simpa using ⟨hcur, houter⟩
  · cases outer with
    | nil => rw [hrep.patch] at hpatch; cases hpatch
    | cons p ps =>
      rw [hrep.patch, addrs] at hpatch
      cases hpatch
      exact ⟨_, _, hrep.closeLoop, Prog.all_append.mpr
        ⟨houter p (by simp), hcur, trivial⟩, fun q hq => houter q (by simp [hq])⟩
  · exact ⟨cur, outer, hrep, hcur, houter⟩

theorem shaped_init : Shaped {} := ⟨_, _, represents_init, trivial, by simp⟩

theorem shaped_parseCalls (calls : List CString) : Shaped (parseCalls calls) :=
  parseCalls_invariant shaped_init (fun _ _ _ _ _ H hpos hfits h => H.parseSwitch hpos hfits h)
    calls

end Bfcomp
