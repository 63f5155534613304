import Bfcomp.Driver.Main
import Bfcomp.Frontend.Ownership
import Bfcomp.Rxi.Sequences
import Mathlib.Data.Fintype.EquivFin

/-! # A source in memory

`main` reserves room for `BUFLEN` ops, reads the source into it, and frees the context on every way
out. Whatever the allocators answer, a run that does not fail in an access returns and prints what it
would with all the memory there is, and no node is freed twice or left. While they grant what they
are asked for, no access fails, and the ops are those of the source. -/

namespace Bfcomp
set_option autoImplicit false

/-- The `do … while` loop, as `readLoop` is. -/
def IrMemory.readLoop (turns : ℕ → Turn) (m : IrMemory) : ℕ → List Chunk → Option MemoryResult
  | pos, [] => m.parseLoop turns pos 0 []
  | pos, chunk :: chunks => do
    let r ← m.parseLoop turns pos 0 (bufferString chunk.bytes chunk.fits).bytes
    if r.status ≠ 0 then some r
    else IrMemory.readLoop turns r.mem (pos + chunk.bytes.length) chunks

/-- From `vec_reserve` to the end of the loop. -/
def readSource (start : Answer) (turns : ℕ → Turn) (chunks : List Chunk) : Option MemoryResult := do
  let (vec, _) ← vecReserve sizeofOp buflen start {}
  IrMemory.readLoop turns { vec := vec } 0 chunks

section
variable {m : IrMemory} {ctx : IrCtx} {turns : ℕ → Turn}

/-! ## Freeing -/

theorem IrMemory.Deep.free (H : m.Deep ctx.patch.length) :
    m.free ctx.patch.length = some (fun _ => none, irCtxFree ctx) := by
  obtain ⟨addrs, hnodes, hlen⟩ := H
  have hopen : m.patch = none ↔ ctx.patch = [] := by
    rw [hnodes.none_iff, ← List.length_eq_zero_iff, hlen, List.length_eq_zero_iff]
  rw [IrMemory.free, hnodes.freed (Nat.le_of_eq hlen), irCtxFree]
  simp only [Option.map_some, ne_eq, hopen]

theorem IrMemory.Mirrors.deep (H : m.Mirrors ctx) : m.Deep ctx.patch.length := ⟨_, H.nodes, rfl⟩

/-! ## Whatever the allocators answer -/

theorem IrMemory.Deep.readLoop (H : m.Deep ctx.patch.length) {pos : ℕ} {chunks : List Chunk}
    {r : MemoryResult} (h : m.readLoop turns pos chunks = some r) :
    r.status = (Bfcomp.readLoop ctx chunks).status ∧
      r.stderr = (Bfcomp.readLoop ctx chunks).stderr ∧
      r.mem.Deep (Bfcomp.readLoop ctx chunks).ctx.patch.length := by
  induction chunks generalizing m ctx pos with
  | nil => exact H.parseLoop turns h
  | cons chunk chunks ih =>
    obtain ⟨r₁, hfirst, h⟩ := Option.bind_eq_some_iff.mp h
    have htold := H.parseLoop turns hfirst
    rw [Bfcomp.readLoop, irCtxParse]
    by_cases hstatus : r₁.status = 0
    · rw [if_neg (not_not_intro hstatus)] at h
      rw [htold.1] at hstatus
      simp only [hstatus, ne_eq, not_true_eq_false, if_false]
      exact ih htold.2.2 h
    · rw [if_pos hstatus] at h
      cases h
      rw [htold.1] at hstatus
      simp only [ne_eq, hstatus, not_false_eq_true, if_true]
      exact htold

/-- Whatever the allocators answer and whatever memory holds, a run that makes no access outside of
what is allocated returns the status and prints the messages that are those of the source, and frees
each node that it got once: nobody is told of a refusal. -/
theorem readSource_told {start : Answer} {turns : ℕ → Turn} {chunks : List Chunk} {r : MemoryResult}
    (h : readSource start turns chunks = some r) :
    r.status = (readLoop {} chunks).status ∧ r.stderr = (readLoop {} chunks).stderr ∧
      r.mem.free (readLoop {} chunks).ctx.patch.length =
        some (fun _ => none, irCtxFree (readLoop {} chunks).ctx) := by
  obtain ⟨⟨vec, err⟩, _, h⟩ := Option.bind_eq_some_iff.mp h
  have hstart : IrMemory.Deep { vec := vec } (IrCtx.patch {}).length := ⟨[], openLoops_init, rfl⟩
  obtain ⟨hstatus, hstderr, hdeep⟩ := hstart.readLoop h
  exact ⟨hstatus, hstderr, hdeep.free⟩

/-- One node, and no room for an op. -/
def oneNode : Calloc where
  pick heap :=
    match heap 0 with
    | none => some 0
    | some _ => none
  fresh heap a h := by
    cases hnode : heap 0 with
    | none =>
      rw [hnode] at h
      cases h
      exact hnode
    | some node =>
      rw [hnode] at h
      cases h

def noRoom : Turn := ⟨none, oneNode, fun _ => ⟨[0, 0, 0, 0], rfl⟩⟩

/-- The op of the loop is lost; what is told is that the loop is open. -/
theorem readSource_told_open :
    0 = (readLoop {} [openChunk]).status ∧ [] = (readLoop {} [openChunk]).stderr ∧
      (IrMemory.mk {} (Function.update (fun _ => none) 0 (some ⟨0, none⟩)) (some 0)).free
        (readLoop {} [openChunk]).ctx.patch.length =
          some (fun _ => none, irCtxFree (readLoop {} [openChunk]).ctx) := by
  have hread : readSource none (fun _ => noRoom) [openChunk] =
      some ⟨0, ⟨{}, Function.update (fun _ => none) 0 (some ⟨0, none⟩), some 0⟩, []⟩ := rfl
  exact readSource_told hread

/-! ## While memory is granted -/

theorem parseLoop_length (ctx : IrCtx) (skip : ℕ) (src : List Byte) :
    (parseLoop ctx skip src).ctx.data.length ≤ ctx.data.length + src.length := by
  induction src generalizing ctx skip with
  | nil => cases skip <;> exact Nat.le_refl _
  | cons c src ih =>
    rw [List.length_cons]
    cases skip with
    | succ skip =>
      have hrest := ih ctx skip
      rw [parseLoop]
      omega
    | zero =>
      rw [parseLoop]
      cases hsw : parseSwitch ctx c (countChar (c :: src) c) with
      | none => exact Nat.le_add_right _ _
      | some turn =>
        obtain ⟨ctx', advance⟩ := turn
        have hgrown := parseSwitch_length hsw
        have hrest := ih ctx' (advance - 1)
        simp only
        omega

theorem IrMemory.Mirrors.readLoop (hg : ∀ i, (turns i).Grants) (H : m.Mirrors ctx)
    (chunks : List Chunk) (hfit : 32 * (ctx.data.length + (visible chunks).length + 1) < 2^63)
    (pos : ℕ) :
    ∃ m', m.readLoop turns pos chunks = some ⟨(Bfcomp.readLoop ctx chunks).status, m',
        (Bfcomp.readLoop ctx chunks).stderr⟩ ∧ m'.Mirrors (Bfcomp.readLoop ctx chunks).ctx := by
  induction chunks generalizing m ctx pos with
  | nil => exact H.parseLoop hg [] hfit pos 0
  | cons chunk chunks ih =>
    have hvisible : visible (chunk :: chunks) =
        chunk.bytes.takeWhile (· ≠ 0) ++ visible chunks := rfl
    rw [hvisible, List.length_append] at hfit
    obtain ⟨m₁, hfirst, H₁⟩ := H.parseLoop hg (chunk.bytes.takeWhile (· ≠ 0)) (by omega) pos 0
    have hgrown := parseLoop_length ctx 0 (chunk.bytes.takeWhile (· ≠ 0))
    have hmem : m.readLoop turns pos (chunk :: chunks) =
        if (Bfcomp.parseLoop ctx 0 (chunk.bytes.takeWhile (· ≠ 0))).status ≠ 0 then
          some ⟨(Bfcomp.parseLoop ctx 0 (chunk.bytes.takeWhile (· ≠ 0))).status, m₁,
            (Bfcomp.parseLoop ctx 0 (chunk.bytes.takeWhile (· ≠ 0))).stderr⟩
        else m₁.readLoop turns (pos + chunk.bytes.length) chunks := by
      rw [IrMemory.readLoop, bufferString, hfirst]
      rfl
    rw [hmem]
    by_cases hstatus : (Bfcomp.parseLoop ctx 0 (chunk.bytes.takeWhile (· ≠ 0))).status = 0
    · rw [readLoop_more chunks hstatus, if_neg (not_not_intro hstatus)]
      exact ih H₁ (by omega) _
    · rw [readLoop_stop chunks hstatus, if_pos hstatus]
      exact ⟨m₁, rfl, H₁⟩

/-- As long as the allocators grant what they are asked for, the source is read without an access
outside of what is allocated, wherever the nodes lie and whatever new memory and padding hold: the
vector comes to hold the ops of the source, the nodes are its open loops, and all of them are freed. -/
theorem readSource_mirrors (start : Answer) {turns : ℕ → Turn} (hg : ∀ i, (turns i).Grants)
    {chunks : List Chunk} (hfit : 32 * ((visible chunks).length + 1) < 2^63) :
    ∃ m, readSource start turns chunks =
        some ⟨(readLoop {} chunks).status, m, (readLoop {} chunks).stderr⟩ ∧
      m.Mirrors (readLoop {} chunks).ctx ∧
      m.free (readLoop {} chunks).ctx.patch.length =
        some (fun _ => none, irCtxFree (readLoop {} chunks).ctx) := by
  have hstart : ∃ vec err, vecReserve sizeofOp buflen start {} = some (vec, err) ∧ vec.HasOps [] := by
    have hempty : VecBase.Valid {} ([] : List (Elem sizeofOp)) := valid_empty
    have hreserve : Done start {} [] _ _ (vecReserve sizeofOp buflen start {}) :=
      vecReserve_granted (by decide) hempty (by decide)
    rcases hreserve with ⟨vec, hvec, hvalid, _⟩ | ⟨hvec, _⟩
    · exact ⟨vec, 0, hvec, [], hvalid, rfl⟩
    · exact ⟨{}, -1, hvec, [], hempty, rfl⟩
  obtain ⟨vec, err, hreserve, hops⟩ := hstart
  have H : IrMemory.Mirrors { vec := vec } {} :=
    ⟨hops, openLoops_init, fun addr hmem => absurd hmem List.not_mem_nil⟩
  obtain ⟨m, hread, H'⟩ := H.readLoop hg chunks (by rw [List.length_nil, Nat.zero_add]; exact hfit) 0
  refine ⟨m, ?_, H', H'.deep.free⟩
  rw [readSource, hreserve]
  exact hread

open Classical in
/-- Some place that is free, if there is one. -/
noncomputable def freePlace : Calloc where
  pick heap := if h : ∃ a, heap a = none then some h.choose else none
  fresh heap a h := by
    split at h
    · rename_i hfree
      cases h
      exact hfree.choose_spec
    · cases h

noncomputable def granting : Turn := ⟨some fun _ => 0, freePlace, fun _ => ⟨[0, 0, 0, 0], rfl⟩⟩

theorem granting_grants : granting.Grants where
  answer := fun h => by cases h
  calloc := by
    intro heap l hall
    obtain ⟨a, ha⟩ := Infinite.exists_notMem_finset l.toFinset
    have hfree : ∃ a, heap a = none :=
      ⟨a, by_contra fun hne => ha (List.mem_toFinset.mpr (hall a hne))⟩
    simp only [granting, freePlace, dif_pos hfree, ne_eq, reduceCtorEq, not_false_eq_true]

/-- `++[--]>[.`, cut inside the loop that is closed. -/
def mixedChunks : List Chunk :=
  [⟨['+', '+', '[', '-'].map ascii, by decide, by decide⟩,
    ⟨['-', ']', '>', '[', '.'].map ascii, by decide, by decide⟩]

def mixedCtx : IrCtx where
  data := [⟨.cell, 2⟩, ⟨.loopStart, 2⟩, ⟨.cell, -2⟩, ⟨.loopEnd, -2⟩, ⟨.tape, 1⟩, ⟨.loopStart, 0⟩,
    ⟨.write, 1⟩]
  patch := [5]

theorem readSource_mirrors_mixed : ∃ m,
    readSource none (fun _ => granting) mixedChunks = some ⟨0, m, []⟩ ∧ m.Mirrors mixedCtx ∧
      m.free 1 = some (fun _ => none, irCtxFree mixedCtx) := by
  have hread : readLoop {} mixedChunks = ⟨0, mixedCtx, []⟩ := by decide +kernel
  have hfit : 32 * ((visible mixedChunks).length + 1) < 2^63 := by decide
  have H := readSource_mirrors none (fun _ => granting_grants) hfit
  rw [hread] at H
  exact H

end
end Bfcomp
