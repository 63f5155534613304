import Bfcomp.Foundations.Words
import Mathlib.Logic.Function.Basic

/-! # The hash table (`rxi/map.h`)

Nodes are allocated one by one and linked into the lists that the buckets start; the number of
buckets is a power of two that doubles when there are as many nodes. Here are the pointers as the
code follows and changes them. A walk along a list is given fuel, and `none` stands for a pointer
that leads nowhere or fuel that runs out. What the allocator answers is an argument. -/

namespace Bfcomp
set_option autoImplicit false

abbrev Addr := ℕ

/-- `map_node_t`, with the key that is stored behind it. -/
structure MapNode (V : Type) where
  hash : BitVec 64
  key : CString
  value : V
  next : Option Addr

/-- `map_base_t`, with the nodes that are allocated. -/
structure MapBase (V : Type) where
  heap : Addr → Option (MapNode V) := fun _ => none
  buckets : List (Option Addr) := []
  nnodes : ℕ := 0

/-- A `map_node_t **`: an element of the array of buckets, or the link of a node. -/
inductive MapRef where
  | bucket (n : ℕ)
  | next (a : Addr)

def mapHash (bytes : List Byte) : BitVec 64 :=
  bytes.foldl (fun hash b => ((hash <<< 5) + hash) ^^^ b.setWidth 64) 5381

/-- The hash of a key, whose size counts its NUL. -/
def keyHash (key : CString) : BitVec 64 := mapHash (key.bytes ++ [0])

def mapBucketidx (nbuckets : ℕ) (hash : BitVec 64) : ℕ :=
  (hash &&& (BitVec.ofNat 64 nbuckets - 1)).toNat

section
variable {V : Type}

def MapBase.nbuckets (m : MapBase V) : ℕ := m.buckets.length

/-- What the reference points at. -/
def MapBase.load (m : MapBase V) : MapRef → Option (Option Addr)
  | .bucket n => m.buckets[n]?
  | .next a => (m.heap a).map MapNode.next

def MapBase.setNode (m : MapBase V) (a : Addr) (node : Option (MapNode V)) : MapBase V :=
  { m with heap := Function.update m.heap a node }

def MapBase.store (m : MapBase V) (p : Option Addr) : MapRef → Option (MapBase V)
  | .bucket n => if n < m.nbuckets then some { m with buckets := m.buckets.set n p } else none
  | .next a => (m.heap a).map fun node => m.setNode a (some { node with next := p })

/-! ## Growing -/

def mapAddnode (m : MapBase V) (a : Addr) : Option (MapBase V) := do
  let node ← m.heap a
  let n := mapBucketidx m.nbuckets node.hash
  let head ← m.buckets[n]?
  (m.setNode a (some { node with next := head })).store (some a) (.bucket n)

/-- The inner loop of `map_resize`, which moves the list at `node` to the front of `nodes`. -/
def mapUnlink : ℕ → MapBase V → Option Addr → Option Addr → Option (MapBase V × Option Addr)
  | _, m, nodes, none => some (m, nodes)
  | 0, _, _, some _ => none
  | fuel + 1, m, nodes, some a => do
    let node ← m.heap a
    mapUnlink fuel (m.setNode a (some { node with next := nodes })) (some a) node.next

/-- The first loop, over the buckets below `i`. -/
def mapUnlinkAll (fuel : ℕ) : ℕ → MapBase V → Option Addr → Option (MapBase V × Option Addr)
  | 0, m, nodes => some (m, nodes)
  | i + 1, m, nodes => do
    let node ← m.buckets[i]?
    let (m, nodes) ← mapUnlink fuel m nodes node
    mapUnlinkAll fuel i m nodes

/-- The second loop. -/
def mapReadd : ℕ → MapBase V → Option Addr → Option (MapBase V)
  | _, m, none => some m
  | 0, _, some _ => none
  | fuel + 1, m, some a => do
    let node ← m.heap a
    let m ← mapAddnode m a
    mapReadd fuel m node.next

/-- `map_resize`. `grown`: whether `MAP_ALLOC` gives it the new array. -/
def mapResize (fuel : ℕ) (m : MapBase V) (nbuckets : ℕ) (grown : Bool) :
    Option (MapBase V × BitVec 64) := do
  let (m, nodes) ← mapUnlinkAll fuel m.nbuckets m none
  let nbuckets := if grown then nbuckets else m.nbuckets
  let m := { m with buckets := List.replicate nbuckets none }
  let readded := if nbuckets = 0 then some m else mapReadd fuel m nodes
  let m ← readded
  some (m, if grown then 0 else -1)

/-! ## Looking up, setting and removing -/

/-- The loop of `map_getref`, from the reference `next` on. -/
def mapGetrefLoop (m : MapBase V) (hash : BitVec 64) (key : CString) :
    ℕ → MapRef → Option (Option MapRef)
  | 0, _ => none
  | fuel + 1, next => do
    match ← m.load next with
    | none => some none
    | some a =>
      let node ← m.heap a
      if node.hash = hash ∧ node.key = key then some (some next)
      else mapGetrefLoop m hash key fuel (.next a)

def mapGetref (fuel : ℕ) (m : MapBase V) (key : CString) : Option (Option MapRef) :=
  if m.nbuckets > 0 then
    mapGetrefLoop m (keyHash key) key fuel (.bucket (mapBucketidx m.nbuckets (keyHash key)))
  else some none

/-- `map_get_`: the node whose value it returns a pointer to. -/
def mapGet (fuel : ℕ) (m : MapBase V) (key : CString) : Option (Option Addr) := do
  match ← mapGetref fuel m key with
  | none => some none
  | some next =>
    let a ← (← m.load next)
    let _ ← m.heap a
    some (some a)

/-- The last part of `map_set_`, with the new node at `a`. -/
def mapInsert (fuel : ℕ) (m : MapBase V) (a : Addr) (grown : Bool) :
    Option (MapBase V × BitVec 64) := do
  let resized := if m.nnodes ≥ m.nbuckets then
      mapResize fuel m (if m.nbuckets > 0 then m.nbuckets * 2 else 1) grown
    else some (m, 0)
  let (m, err) ← resized
  if err ≠ 0 then some (m.setNode a none, -1)
  else
    let m ← mapAddnode m a
    some ({ m with nnodes := m.nnodes + 1 }, 0)

/-- `map_set_`. `node`: where `MAP_ALLOC` puts the node that `map_newnode` asks for. -/
def mapSet (fuel : ℕ) (m : MapBase V) (key : CString) (value : V) (node : Option Addr)
    (grown : Bool) : Option (MapBase V × BitVec 64) := do
  match ← mapGetref fuel m key with
  | some next =>
    let a ← (← m.load next)
    let old ← m.heap a
    some (m.setNode a (some { old with value := value }), 0)
  | none =>
    match node with
    | none => some (m, -1)
    | some a =>
      mapInsert fuel (m.setNode a (some ⟨keyHash key, key, value, none⟩)) a grown

def mapRemove (fuel : ℕ) (m : MapBase V) (key : CString) : Option (MapBase V) := do
  match ← mapGetref fuel m key with
  | none => some m
  | some next =>
    let a ← (← m.load next)
    let node ← m.heap a
    let m ← m.store node.next next
    some { m.setNode a none with nnodes := m.nnodes - 1 }

/-! ## The end of a map -/

/-- The inner loop of `map_deinit_`. -/
def mapFreeList : ℕ → MapBase V → Option Addr → Option (MapBase V)
  | _, m, none => some m
  | 0, _, some _ => none
  | fuel + 1, m, some a => do
    let node ← m.heap a
    mapFreeList fuel (m.setNode a none) node.next

def mapFreeAll (fuel : ℕ) : ℕ → MapBase V → Option (MapBase V)
  | 0, m => some m
  | i + 1, m => do
    let node ← m.buckets[i]?
    let m ← mapFreeList fuel m node
    mapFreeAll fuel i m

/-- `map_deinit_`: what is left of the nodes. -/
def mapDeinit (fuel : ℕ) (m : MapBase V) : Option (Addr → Option (MapNode V)) :=
  (mapFreeAll fuel m.nbuckets m).map MapBase.heap

/-! ## Iterating -/

/-- `map_iter_t`. -/
structure MapIter where
  bucketidx : BitVec 64
  node : Option Addr

def mapIter : MapIter := ⟨-1, none⟩

/-- The `do … while` loop of `map_next_`. -/
def mapNextBucket (m : MapBase V) : ℕ → BitVec 64 → Option (MapIter × Option CString)
  | 0, _ => none
  | fuel + 1, bucketidx =>
    if m.nbuckets ≤ (bucketidx + 1).toNat then some (⟨bucketidx + 1, none⟩, none)
    else do
      match ← m.buckets[(bucketidx + 1).toNat]? with
      | none => mapNextBucket m fuel (bucketidx + 1)
      | some a =>
        let node ← m.heap a
        some (⟨bucketidx + 1, some a⟩, some node.key)

def mapNext (fuel : ℕ) (m : MapBase V) (iter : MapIter) : Option (MapIter × Option CString) :=
  match iter.node with
  | none => mapNextBucket m fuel iter.bucketidx
  | some a => do
    let node ← m.heap a
    match node.next with
    | none => mapNextBucket m fuel iter.bucketidx
    | some b =>
      let node ← m.heap b
      some (⟨iter.bucketidx, some b⟩, some node.key)

/-- The loop `while ((key = map_next(m, &iter)))`: the keys that it sees. -/
def mapKeys (fuel : ℕ) (m : MapBase V) : ℕ → MapIter → Option (List CString)
  | 0, _ => none
  | turns + 1, iter => do
    let (iter, key) ← mapNext fuel m iter
    match key with
    | none => some []
    | some key => (mapKeys fuel m turns iter).map (key :: ·)

end
end Bfcomp
