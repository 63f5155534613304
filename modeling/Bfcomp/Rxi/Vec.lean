import Bfcomp.Foundations.Records
import Bfcomp.Foundations.Words

/-! # The vector (`rxi/vec.h`)

The functions move bytes and know of an element only its size `memsz`; the macros around them load
and store elements. `none` stands for an access outside the memory that `data` points to. What the
allocator answers is an argument. -/

namespace Bfcomp
set_option autoImplicit false

/-- What `VEC_ALLOC` comes back with: nothing, or memory, in which the bytes that it does not copy are
anything. -/
abbrev Answer := Option (ℕ → Byte)

/-- `vec_t(T)`, with the memory that `data` points to; nothing is the null pointer. -/
structure VecBase where
  borrowed : Bool := false
  length : ℕ := 0
  capacity : ℕ := 0
  data : Option (List Byte) := none

/-- A `size_t`. -/
def sizeT (n : ℕ) : ℕ := n % 2^64

/-- A difference of sizes; one that wraps is larger than any object. -/
def sizeSub (n k : ℕ) : Option ℕ := if k ≤ n then some (n - k) else none

/-- New memory of `size` bytes, which starts with what it has room for of the old one. -/
def vecMoved (old : List Byte) (size : ℕ) (fresh : ℕ → Byte) : List Byte :=
  (List.range size).map fun i => old.getD i (fresh i)

/-- `realloc`. A request of zero bytes for memory that is there is not defined; one of more than half
of the address space is refused. -/
def vecAlloc (ptr : Option (List Byte)) (size : ℕ) (answer : Answer) : Option (Option (List Byte)) :=
  if size = 0 ∧ ptr ≠ none then none
  else if 2^63 ≤ size then some none
  else some (answer.map (vecMoved (ptr.getD []) size))

namespace VecBase

/-- The memory that can be accessed. -/
def block (v : VecBase) : List Byte := v.data.getD []

def onBlock (v : VecBase) (f : List Byte → Option (List Byte)) : Option VecBase :=
  (f v.block).map fun b => { v with data := v.data.map fun _ => b }

end VecBase

section
variable (memsz : ℕ)

/-! ## Room -/

/-- The common part of `vec_expand_` and `vec_reserve_`. What is copied from borrowed memory is
`*length` bytes, whatever the size of an element. -/
def vecGrow (n : ℕ) (answer : Answer) (v : VecBase) : Option (VecBase × BitVec 64) := do
  match ← vecAlloc (if v.borrowed then none else v.data) (sizeT (n * memsz)) answer with
  | none => some (v, -1)
  | some ptr =>
    let copied := if v.borrowed then memcpy ptr v.block v.length else some ptr
    let ptr ← copied
    some ({ borrowed := false, length := v.length, capacity := n, data := some ptr }, 0)

/-- `vec_expand_`. -/
def vecExpand (answer : Answer) (v : VecBase) : Option (VecBase × BitVec 64) :=
  if sizeT (v.length + 1) > v.capacity then
    vecGrow memsz (if v.capacity = 0 then 1 else sizeT (v.capacity * 2)) answer v
  else some (v, 0)

/-- `vec_reserve_`. -/
def vecReserve (n : ℕ) (answer : Answer) (v : VecBase) : Option (VecBase × BitVec 64) :=
  if n > v.capacity then vecGrow memsz n answer v else some (v, 0)

/-- The loop of `vec_reserve_po2_`; past 64 turns it does not end. -/
def vecPo2 : ℕ → ℕ → ℕ → Option ℕ
  | 0, _, _ => none
  | fuel + 1, n, n2 => if n2 < n then vecPo2 fuel n (sizeT (n2 * 2)) else some n2

/-- `vec_reserve_po2_`. -/
def vecReservePo2 (n : ℕ) (answer : Answer) (v : VecBase) : Option (VecBase × BitVec 64) :=
  if n = 0 then some (v, 0)
  else (vecPo2 64 n 1).bind fun n2 => vecReserve memsz n2 answer v

/-- `vec_compact_`. Borrowed memory is given back too, and the pointer to it is kept. -/
def vecCompact (answer : Answer) (v : VecBase) : Option (VecBase × BitVec 64) :=
  if v.length = 0 then
    some ({ v with capacity := 0, data := if v.borrowed then v.data.map fun _ => [] else none }, 0)
  else if v.borrowed then some ({ v with capacity := v.length }, 0)
  else do
    match ← vecAlloc v.data (sizeT (v.length * memsz)) answer with
    | none => some (v, -1)
    | some ptr => some ({ v with capacity := v.length, data := some ptr }, 0)

/-! ## The end of the vector -/

def vecPush (e : List Byte) (answer : Answer) (v : VecBase) : Option (VecBase × BitVec 64) := do
  let (v, err) ← vecExpand memsz answer v
  if err ≠ 0 then some (v, -1)
  else
    let v ← v.onBlock fun b => writeWindow b (v.length * memsz) e
    some ({ v with length := v.length + 1 }, 0)

def vecPop (v : VecBase) : Option (VecBase × List Byte) := do
  let n ← sizeSub v.length 1
  let e ← readWindow v.block (n * memsz) memsz
  some ({ v with length := n }, e)

/-- The loop of `vec_pusharr`. -/
def vecStoreEnd : List (List Byte) → VecBase → Option VecBase
  | [], v => some v
  | e :: arr, v => do
    let v ← v.onBlock fun b => writeWindow b (v.length * memsz) e
    vecStoreEnd arr { v with length := v.length + 1 }

/-- `vec_pusharr`: when there is no room, nobody is told. -/
def vecPusharr (arr : List (List Byte)) (answer : Answer) (v : VecBase) : Option VecBase := do
  let (v, err) ← vecReservePo2 memsz (sizeT (v.length + arr.length)) answer v
  if err ≠ 0 then some v else vecStoreEnd memsz arr v

/-- `vec_fill`: the loop of `vec_pusharr`, on one value. -/
def vecFill (e : List Byte) (count : ℕ) (answer : Answer) (v : VecBase) : Option VecBase :=
  vecPusharr memsz (List.replicate count e) answer v

def vecTruncate (len : ℕ) (v : VecBase) : VecBase :=
  { v with length := if len < v.length then len else v.length }

def vecClear (v : VecBase) : VecBase := { v with length := 0 }

/-! ## The middle of the vector -/

/-- `vec_insert_`, which asks for room for one element of `memsz * count` bytes. -/
def vecInsertGap (idx count : ℕ) (answer : Answer) (v : VecBase) :
    Option (VecBase × BitVec 64) := do
  let (v, err) ← vecExpand (sizeT (memsz * count)) answer v
  if err ≠ 0 then some (v, err)
  else
    let rest ← sizeSub v.length idx
    let v ← v.onBlock fun b => memmove b ((idx + count) * memsz) (idx * memsz) (rest * memsz)
    some (v, 0)

def vecInsert (idx : ℕ) (e : List Byte) (answer : Answer) (v : VecBase) :
    Option (VecBase × BitVec 64) := do
  let (v, err) ← vecInsertGap memsz idx 1 answer v
  if err ≠ 0 then some (v, -1)
  else
    let v ← v.onBlock fun b => writeWindow b (idx * memsz) e
    some ({ v with length := v.length + 1 }, 0)

/-- The loop of `vec_insertarr`. -/
def vecStoreAt : ℕ → List (List Byte) → VecBase → Option VecBase
  | _, [], v => some v
  | idx, e :: arr, v => do
    let v ← v.onBlock fun b => writeWindow b (idx * memsz) e
    vecStoreAt (idx + 1) arr v

def vecInsertarr (idx : ℕ) (arr : List (List Byte)) (answer : Answer) (v : VecBase) :
    Option VecBase := do
  let (v, err) ← vecInsertGap memsz idx arr.length answer v
  if err ≠ 0 then some v
  else vecStoreAt memsz idx arr { v with length := v.length + arr.length }

def vecSplice (start count : ℕ) (v : VecBase) : Option VecBase := do
  let rest ← sizeSub v.length (start + count)
  let v ← v.onBlock fun b => memmove b (start * memsz) ((start + count) * memsz) (rest * memsz)
  some { v with length := v.length - count }

def vecSwapsplice (start count : ℕ) (v : VecBase) : Option VecBase := do
  let rest ← sizeSub v.length count
  let v ← v.onBlock fun b => memmove b (start * memsz) (rest * memsz) (count * memsz)
  some { v with length := rest }

/-- `vec_swap_`. -/
def vecSwap (idx1 idx2 : ℕ) (v : VecBase) : Option VecBase :=
  if idx1 = idx2 then some v
  else v.onBlock fun b => exchange memsz b (idx1 * memsz) (idx2 * memsz)

/-- The loop of `vec_find`, with so many elements left. Values are compared by their bytes. -/
def vecFindFrom (val : List Byte) (v : VecBase) : ℕ → ℕ → Option (Option ℕ)
  | 0, _ => some none
  | left + 1, idx => do
    let e ← readWindow v.block (idx * memsz) memsz
    if e = val then some (some idx) else vecFindFrom val v left (idx + 1)

def vecFind (val : List Byte) (v : VecBase) : Option (Option ℕ) :=
  vecFindFrom memsz val v v.length 0

def vecRemove (val : List Byte) (v : VecBase) : Option VecBase := do
  match ← vecFind memsz val v with
  | none => some v
  | some idx => vecSplice memsz idx 1 v

/-- The loop of `vec_reverse`. -/
def vecReverseFrom : ℕ → VecBase → Option VecBase
  | 0, v => some v
  | i + 1, v => do
    let j ← sizeSub v.length (i + 1)
    let v ← vecSwap memsz i j v
    vecReverseFrom i v

/-- `vec_reverse`, which counts in an `int`; one that starts below zero leads out of the memory. -/
def vecReverse (v : VecBase) : Option VecBase :=
  let i := ((v.length / 2 : ℕ) : ℤ).bmod (2^32)
  if i < 0 then none else vecReverseFrom memsz i.toNat v

end

/-! ## Vectors as a whole -/

/-- `vec_deinit`, which leaves what `vec_init` makes. -/
def vecDeinit (_ : VecBase) : VecBase := {}

/-- `vec_copy`, which does not look whether there is memory for it. -/
def vecCopy (memsz : ℕ) (answer : Answer) (v : VecBase) : Option VecBase := do
  let ptr ← (← vecAlloc none (sizeT (v.capacity * memsz)) answer)
  let ptr ← memcpy ptr v.block (v.length * memsz)
  some { borrowed := false, length := v.length, capacity := v.capacity, data := some ptr }

end Bfcomp
