import Bfcomp.Foundations.Runs
import Bfcomp.Frontend.IrGen
import Bfcomp.Interpret.Store

/-! # The C interpreter (`ir_interpret.c`)

A step machine over the op vector, whose dispatch is `opcode(++ip)`. A step that would read the
op vector or the tape out of bounds has no defined result, so the machine has no successor there.
The pointer arithmetic follows C: `sp` is an `ssize_t`, `capacity` a `size_t`. -/

namespace Bfcomp
set_option autoImplicit false

structure Config where
  ip : ℕ
  store : Store

/-- `sp += arg` and the wrap-around. Comparing `sp` with `capacity` converts `sp` to `size_t`. -/
def movePtr (cap : ℕ) (sp arg : ℤ) : ℤ :=
  let sp := i64 (sp + arg)
  if u64 sp ≥ cap then i64 (u64 sp - cap)
  else if sp < 0 then i64 (u64 sp + cap)
  else sp

/-- `ip += delta`, then `++ip` and dispatch. -/
def jump (c : Config) (delta : ℤ) : Option Config :=
  if 0 ≤ c.ip + delta then some { c with ip := (c.ip + delta).toNat + 1 } else none

def next (c : Config) (s : Store) : Config := ⟨c.ip + 1, s⟩

/-- One dispatched op. -/
def interpretStep (code : List IrOp) (cap : ℕ) (c : Config) : Option Config :=
  match code[c.ip]? with
  | none => none
  | some op =>
    match op.kind with
    | .tape => some (next c { c.store with ptr := movePtr cap c.store.ptr op.arg })
    | .cell =>
      if c.store.OnTape cap then
        some (next c (c.store.setCell (c.store.cell + BitVec.ofInt 8 op.arg)))
      else none
    | .loopStart =>
      if c.store.OnTape cap then
        if c.store.cell = 0 then jump c op.arg else some (next c c.store)
      else none
    | .loopEnd =>
      if c.store.OnTape cap then
        if c.store.cell ≠ 0 then jump c op.arg else some (next c c.store)
      else none
    | .write =>
      if op.arg ≤ 0 ∨ c.store.OnTape cap then
        some (next c (Store.writeByte^[op.arg.toNat] c.store))
      else none
    | .read =>
      if op.arg ≤ 0 ∨ c.store.OnTape cap then
        some (next c (Store.readByte^[op.arg.toNat] c.store))
      else none
    | .set =>
      if c.store.OnTape cap then some (next c (c.store.setCell (BitVec.ofInt 8 op.arg))) else none
    | .max => none

/-- The machine has dispatched the halt op. -/
def Halted (code : List IrOp) (c : Config) : Prop := ∃ a, code[c.ip]? = some ⟨.max, a⟩

theorem Halted.step_none {code : List IrOp} {cap : ℕ} {c : Config} (h : Halted code c) :
    interpretStep code cap c = none := by
  obtain ⟨a, ha⟩ := h
  simp [interpretStep, ha]

theorem jump_store {c c' : Config} {delta : ℤ} (h : jump c delta = some c') :
    c'.store = c.store := by
  unfold jump at h
  split at h
  · cases h
    rfl
  · cases h

/-- What a step can do: an op acts on the store and goes on, or a bracket op goes on or jumps. -/
inductive InterpretStep (code : List IrOp) (cap : ℕ) (c : Config) : Config → Prop
  | tape {arg : ℤ} (hop : code[c.ip]? = some ⟨.tape, arg⟩) :
      InterpretStep code cap c (next c { c.store with ptr := movePtr cap c.store.ptr arg })
  | cell {arg : ℤ} (hop : code[c.ip]? = some ⟨.cell, arg⟩) (hon : c.store.OnTape cap) :
      InterpretStep code cap c (next c (c.store.setCell (c.store.cell + BitVec.ofInt 8 arg)))
  | set {arg : ℤ} (hop : code[c.ip]? = some ⟨.set, arg⟩) (hon : c.store.OnTape cap) :
      InterpretStep code cap c (next c (c.store.setCell (BitVec.ofInt 8 arg)))
  | write {arg : ℤ} (hop : code[c.ip]? = some ⟨.write, arg⟩) (hon : arg ≤ 0 ∨ c.store.OnTape cap) :
      InterpretStep code cap c (next c (Store.writeByte^[arg.toNat] c.store))
  | read {arg : ℤ} (hop : code[c.ip]? = some ⟨.read, arg⟩) (hon : arg ≤ 0 ∨ c.store.OnTape cap) :
      InterpretStep code cap c (next c (Store.readByte^[arg.toNat] c.store))
  | enter {arg : ℤ} (hop : code[c.ip]? = some ⟨.loopStart, arg⟩) (hon : c.store.OnTape cap)
      (hcell : c.store.cell ≠ 0) : InterpretStep code cap c (next c c.store)
  | skip {arg : ℤ} {c' : Config} (hop : code[c.ip]? = some ⟨.loopStart, arg⟩)
      (hon : c.store.OnTape cap) (hcell : c.store.cell = 0) (hjump : jump c arg = some c') :
      InterpretStep code cap c c'
  | leave {arg : ℤ} (hop : code[c.ip]? = some ⟨.loopEnd, arg⟩) (hon : c.store.OnTape cap)
      (hcell : c.store.cell = 0) : InterpretStep code cap c (next c c.store)
  | again {arg : ℤ} {c' : Config} (hop : code[c.ip]? = some ⟨.loopEnd, arg⟩)
      (hon : c.store.OnTape cap) (hcell : c.store.cell ≠ 0) (hjump : jump c arg = some c') :
      InterpretStep code cap c c'

section
variable {code : List IrOp} {cap : ℕ} {c c' : Config}

theorem interpretStep_cases (h : interpretStep code cap c = some c') :
    InterpretStep code cap c c' := by
  unfold interpretStep at h
  cases hop : code[c.ip]? with
  | none => simp [hop] at h
  | some op =>
    rw [hop] at h
    obtain ⟨kind, arg⟩ := op
    cases kind <;> simp only at h
    case tape =>
      cases h
      exact .tape hop
    case cell =>
      split at h
      · cases h
        exact .cell hop ‹_›
      · cases h
    case loopStart =>
      split at h
      · split at h
        · exact .skip hop ‹_› ‹_› h
        · cases h
          exact .enter hop ‹_› ‹_›
      · cases h
    case loopEnd =>
      split at h
      · split at h
        · exact .again hop ‹_› ‹_› h
        · cases h
          exact .leave hop ‹_› (not_not.mp ‹_›)
      · cases h
    case write =>
      split at h
      · cases h
        exact .write hop ‹_›
      · cases h
    case read =>
      split at h
      · cases h
        exact .read hop ‹_›
      · cases h
    case set =>
      split at h
      · cases h
        exact .set hop ‹_›
      · cases h
    case max => cases h

theorem interpretStep_ptr {op : IrOp} (hop : code[c.ip]? = some op)
    (h : interpretStep code cap c = some c') :
    c'.store.ptr = if op.kind = .tape then movePtr cap c.store.ptr op.arg else c.store.ptr := by
  cases interpretStep_cases h with
  | tape hat =>
    cases hop.symm.trans hat
    rfl
  | cell hat | set hat =>
    cases hop.symm.trans hat
    rfl
  | write hat =>
    cases hop.symm.trans hat
    exact Store.writeByte_iterate_ptr _ _
  | read hat =>
    cases hop.symm.trans hat
    exact Store.readByte_iterate_ptr _ _
  | enter hat | leave hat =>
    cases hop.symm.trans hat
    rfl
  | skip hat _ _ hjump | again hat _ _ hjump =>
    cases hop.symm.trans hat
    rw [jump_store hjump]
    rfl

theorem interpretStep_output (h : interpretStep code cap c = some c') :
    c.store.output <+: c'.store.output := by
  cases interpretStep_cases h with
  | tape | cell | set | enter | leave => exact List.prefix_rfl
  | write => exact Store.writeByte_iterate_output _ _
  | read => simp [next, Store.readByte_iterate_output]
  | skip _ _ _ hjump | again _ _ _ hjump =>
    exact ⟨[], by rw [List.append_nil, jump_store hjump]⟩

end

theorem interpret_output_mono {code : List IrOp} {cap n : ℕ} {c c' : Config}
    (h : Runs (interpretStep code cap) n c c') : c.store.output <+: c'.store.output :=
  h.monotone (fun c => c.store.output) (fun _ => List.prefix_rfl) (fun _ _ _ => List.IsPrefix.trans)
    (fun _ _ => interpretStep_output)

/-- The ops of `,[--.]`, which counts down by twos what it reads. -/
def countdownCode : List IrOp :=
  [⟨.read, 1⟩, ⟨.loopStart, 3⟩, ⟨.cell, -2⟩, ⟨.write, 1⟩, ⟨.loopEnd, -3⟩, ⟨.max, 0⟩]

theorem countdown_halts : ∃ k c, Runs (interpretStep countdownCode 30000) k ⟨0, .start [4]⟩ c ∧
    Halted countdownCode c ∧ c.store.output = [2, 0] := by
  have H : StopsAlong (interpretStep countdownCode 30000) (fun c =>
      (interpretStep countdownCode 30000 c).isNone → c.ip = 5 ∧ c.store.output = [2, 0]) 9
      ⟨0, .start [4]⟩ := by
    decide +kernel
  obtain ⟨k, c, hr, hstop⟩ := H.stops
  obtain ⟨hip, hout⟩ := H.of_runs hr (Option.isNone_iff_eq_none.mpr hstop)
  exact ⟨k, c, hr, ⟨0, by rw [hip]; rfl⟩, hout⟩

end Bfcomp
