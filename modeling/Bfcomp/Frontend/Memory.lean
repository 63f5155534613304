import Bfcomp.Foundations.Chains
import Bfcomp.Foundations.Digits
import Bfcomp.Frontend.IrGen
import Bfcomp.Rxi.Elements
import Bfcomp.Rxi.Map

/-! # The parser in memory

An `ir_ctx` as it lies in memory: the ops are records of sixteen bytes in a vector, and the loops that
are open are nodes that `calloc` gives, each linked to the one around it, and `free` takes back. Here
are the accesses as the code makes them; `none` stands for one outside of what is allocated. What the
allocators answer in a turn of the loop is an argument, and so is what lies between the fields of an
op. -/

namespace Bfcomp
set_option autoImplicit false

/-- `ir_patch_t`. -/
structure IrPatch where
  addr : ℕ
  prev : Option Addr

/-- What `calloc` answers, given what is allocated: nothing, or a place that is free. -/
structure Calloc where
  pick : (Addr → Option IrPatch) → Option Addr
  fresh : ∀ heap a, pick heap = some a → heap a = none

/-- What the allocators answer in one turn, and what the padding of an op holds. -/
structure Turn where
  answer : Answer
  calloc : Calloc
  pad : IrOpKind → Record Byte 4

/-- `ir_ctx`, with the nodes that are allocated. -/
structure IrMemory where
  vec : VecBase := {}
  heap : Addr → Option IrPatch := fun _ => none
  patch : Option Addr := none

/-! ## Ops -/

def IrOpKind.num : IrOpKind → ℕ
  | tape => 0
  | cell => 1
  | loopStart => 2
  | loopEnd => 3
  | write => 4
  | read => 5
  | set => 6
  | max => 7

/-- `sizeof(ir_op_t)`. -/
def sizeofOp : ℕ := 16

/-- An `ir_op_t`: its kind in four bytes, the padding, and its argument in eight. -/
def opBytes (pad : Record Byte 4) (kind : IrOpKind) (arg : ℤ) : List Byte :=
  leBytes 4 kind.num ++ pad.val ++ i64Bytes arg

namespace IrMemory
variable (m : IrMemory) (turn : Turn)

/-- `vec_push`, whose result nobody looks at. -/
def pushOp (kind : IrOpKind) (v : ℤ) : Option IrMemory :=
  (vecPush sizeofOp (opBytes (turn.pad kind) kind v) turn.answer m.vec).map fun r =>
    { m with vec := r.1 }

/-- The cases `+ - > <`, which look at the last op. -/
def coalesce (kind : IrOpKind) (v : ℤ) : Option IrMemory :=
  let last := (m.vec.length - 1) * sizeofOp
  if m.vec.length > 0 then do
    let stored ← readWindow m.vec.block last 4
    if ofLeBytes stored = kind.num then
      let arg ← readWindow m.vec.block (last + 8) 8
      let vec ← m.vec.onBlock fun b => writeWindow b (last + 8) (i64Bytes (ofLeBytes arg + v))
      some { m with vec := vec }
    else m.pushOp turn kind v
  else m.pushOp turn kind v

/-- The case `[`, which does not look at what `calloc` returns. -/
def openLoop : Option IrMemory := do
  let next ← turn.calloc.pick m.heap
  let heap := Function.update m.heap next (some ⟨m.vec.length, m.patch⟩)
  pushOp { m with heap := heap, patch := some next } turn .loopStart 0

/-- The case `]`, with the innermost open loop at `a`. -/
def closeLoop (a : Addr) : Option IrMemory := do
  let patch ← m.heap a
  let delta : ℤ := (m.vec.length : ℤ) - patch.addr
  let vec ← m.vec.onBlock fun b =>
    writeWindow b (patch.addr * sizeofOp) (opBytes (turn.pad .loopStart) .loopStart delta)
  let m ← pushOp { m with vec := vec } turn .loopEnd (-delta)
  some { m with heap := Function.update m.heap a none, patch := patch.prev }

/-- The `switch`, as `parseSwitch` is. -/
def parseSwitch (c : Byte) (count : ℕ) : Option (Option (IrMemory × ℕ)) :=
  if c = ascii ',' then (m.pushOp turn .read count).map fun m => some (m, count)
  else if c = ascii '.' then (m.pushOp turn .write count).map fun m => some (m, count)
  else if c = ascii '+' then (m.coalesce turn .cell count).map fun m => some (m, count)
  else if c = ascii '-' then (m.coalesce turn .cell (-count)).map fun m => some (m, count)
  else if c = ascii '>' then (m.coalesce turn .tape count).map fun m => some (m, count)
  else if c = ascii '<' then (m.coalesce turn .tape (-count)).map fun m => some (m, count)
  else if c = ascii '[' then (m.openLoop turn).map fun m => some (m, 1)
  else if c = ascii ']' then
    match m.patch with
    | some a => (m.closeLoop turn a).map fun m => some (m, 1)
    | none => some none
  else some (some (m, count))

end IrMemory

/-- What a call returns, the memory it leaves, and what it prints to `stderr`. -/
structure MemoryResult where
  status : ℕ
  mem : IrMemory
  stderr : List String

/-- The `while (*ptr)` loop from the character at `pos` on, with `skip` characters of the current run
still to step over. -/
def IrMemory.parseLoop (turns : ℕ → Turn) (m : IrMemory) : ℕ → ℕ → List Byte → Option MemoryResult
  | _, _, [] => some ⟨0, m, []⟩
  | pos, skip + 1, _ :: src => parseLoop turns m (pos + 1) skip src
  | pos, 0, c :: src => do
    match ← m.parseSwitch (turns pos) c (countChar (c :: src) c) with
    | some (m', advance) => parseLoop turns m' (pos + 1) (advance - 1) src
    | none => some ⟨1, m, ["unmatched ']'"]⟩

/-! ## The end of a context -/

/-- The loop of `ir_ctx_free`. -/
def freePatches : ℕ → (Addr → Option IrPatch) → Option Addr → Option (Addr → Option IrPatch)
  | _, heap, none => some heap
  | 0, _, some _ => none
  | fuel + 1, heap, some a => do
    let patch ← heap a
    freePatches fuel (Function.update heap a none) patch.prev

/-- `ir_ctx_free`: what it leaves of the nodes, and what it prints. -/
def IrMemory.free (m : IrMemory) (fuel : ℕ) : Option ((Addr → Option IrPatch) × List String) :=
  (freePatches fuel m.heap m.patch).map fun heap =>
    (heap, if m.patch ≠ none then ["unmatched '['"] else [])

end Bfcomp
