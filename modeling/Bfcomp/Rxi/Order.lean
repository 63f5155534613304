import Bfcomp.Elf.Format
import Bfcomp.Rxi.Iterate

/-! # The order of a hash table

The writer of ELF files is modelled over maps whose order is a parameter. Here is the order that the
hash table has, as a function of the entries alone: what `map_next` yields after any history of
`map_set` and of changes through `map_get` is the order of the model with this parameter. -/

namespace Bfcomp
set_option autoImplicit false

section
variable {V : Type}

/-! ## The order, from the entries alone -/

/-- The number of buckets of a table to which `k` entries were added. -/
def hashedSize : ℕ → ℕ
  | 0 => 0
  | k + 1 => if k ≥ hashedSize k then grownSize (hashedSize k) else hashedSize k

/-- The bucket of an entry, of `n` buckets. -/
def entrySlot (n : ℕ) (e : CString × V) : ℕ := mapBucketidx n (keyHash e.1)

/-- The buckets with room for one more entry, when the entries `l` are visited in this order. -/
def nextBuckets (l : List (CString × V)) : ℕ → List (CString × V) :=
  let n := hashedSize l.length
  let buckets := bucketsOf (entrySlot n) l
  if l.length ≥ n then addAll (entrySlot (grownSize n)) (fun _ => []) (gathered n buckets)
  else buckets

/-- The order after the last entry of the list is added. -/
def hashedVisit (l : List (CString × V)) : List (CString × V) :=
  match l.getLast? with
  | none => []
  | some e =>
    let n := hashedSize l.length
    listed n (addTo (entrySlot n) (nextBuckets l.dropLast) e)

theorem hashedSize_spec (k : ℕ) :
    (hashedSize k = 0 ∨ (hashedSize k).isPowerOfTwo) ∧ k ≤ hashedSize k := by
  induction k with
  | zero => exact ⟨.inl rfl, Nat.le_refl _⟩
  | succ k ih =>
    obtain ⟨hpow, hlt⟩ := grownSize_isPowerOfTwo ih.1
    rw [hashedSize]
    split
    · exact ⟨.inr hpow, by omega⟩
    · exact ⟨ih.1, by omega⟩

theorem hashedSize_succ_isPowerOfTwo (k : ℕ) : (hashedSize (k + 1)).isPowerOfTwo := by
  have hspec := hashedSize_spec (k + 1)
  exact hspec.1.resolve_left (by omega)

theorem entrySlot_lt (k : ℕ) (e : CString × V) :
    entrySlot (hashedSize (k + 1)) e < hashedSize (k + 1) :=
  mapBucketidx_lt (hashedSize_succ_isPowerOfTwo k) _

theorem listed_nextBuckets (l : List (CString × V)) :
    (listed (hashedSize (l.length + 1)) (nextBuckets l)).Perm l := by
  have hslots : ∀ e ∈ l, entrySlot (hashedSize l.length) e < hashedSize l.length := by
    intro e he
    obtain ⟨k, hk⟩ := Nat.exists_eq_succ_of_ne_zero (List.length_pos_of_mem he).ne'
    rw [hk]
    exact entrySlot_lt k e
  have hbuckets := listed_bucketsOf hslots
  by_cases hfull : l.length ≥ hashedSize l.length
  · have hsize : hashedSize (l.length + 1) = grownSize (hashedSize l.length) := if_pos hfull
    have hnext : nextBuckets l = addAll (entrySlot (grownSize (hashedSize l.length))) (fun _ => [])
        (gathered (hashedSize l.length) (bucketsOf (entrySlot (hashedSize l.length)) l)) :=
      if_pos hfull
    have hadded : (listed (hashedSize (l.length + 1)) (nextBuckets l)).Perm
        (gathered (hashedSize l.length) (bucketsOf (entrySlot (hashedSize l.length)) l) ++
          listed (hashedSize (l.length + 1)) fun _ => []) := by
      rw [hnext, ← hsize]
      exact listed_addAll _ fun e _ => entrySlot_lt l.length e
    rw [listed_nil, List.append_nil] at hadded
    exact hadded.trans ((gathered_perm _ _).trans hbuckets)
  · have hsize : hashedSize (l.length + 1) = hashedSize l.length := if_neg hfull
    have hnext : nextBuckets l = bucketsOf (entrySlot (hashedSize l.length)) l := if_neg hfull
    rw [hsize, hnext]
    exact hbuckets

theorem hashedVisit_append (l : List (CString × V)) (e : CString × V) :
    hashedVisit (l ++ [e]) = listed (hashedSize (l.length + 1))
      (addTo (entrySlot (hashedSize (l.length + 1))) (nextBuckets l) e) := by
  rw [hashedVisit, List.getLast?_concat, List.dropLast_concat, List.length_append]
  rfl

theorem hashedVisit_perm (l : List (CString × V)) : (hashedVisit l).Perm l := by
  rcases List.eq_nil_or_concat l with rfl | ⟨l, e, rfl⟩
  · exact .refl _
  · rw [List.concat_eq_append, hashedVisit_append]
    refine (listed_addTo _ (entrySlot_lt l.length e)).trans ?_
    exact ((listed_nextBuckets l).cons e).trans (List.perm_append_singleton e l).symm

/-- The order in which `map_next` visits the entries of a hash table. -/
def Order.hashed (V : Type) : Order V := ⟨hashedVisit, hashedVisit_perm⟩

theorem hashedSize_le (k : ℕ) : hashedSize k ≤ 2 * k := by
  induction k with
  | zero => exact Nat.le_refl _
  | succ k ih =>
    rw [hashedSize]
    split
    · unfold grownSize
      split <;> omega
    · omega

/-! ## The nodes, in that order -/

/-- The key and the value of a node. -/
def MapBase.entry (m : MapBase V) (a : Addr) : Option (CString × V) := (m.content a).map Prod.snd

/-- The bucket of what is at an address. -/
def slotOf (n : ℕ) (e : Option (CString × V)) : ℕ := (e.map (entrySlot n)).getD 0

theorem MapBase.entry_of_heap {m : MapBase V} {a : Addr} {node : MapNode V}
    (h : m.heap a = some node) : m.entry a = some (node.key, node.value) := by
  rw [entry, content_of_heap h]
  rfl

theorem MapBase.heap_of_entry {m : MapBase V} {a : Addr} {e : CString × V}
    (h : m.entry a = some e) : ∃ node, m.heap a = some node ∧ node.key = e.1 ∧ node.value = e.2 := by
  obtain ⟨c, hc, rfl⟩ := Option.map_eq_some_iff.mp h
  obtain ⟨next, ha⟩ := heap_of_content hc
  exact ⟨_, ha, rfl, rfl⟩

theorem Valid.slotOf_entry {m : MapBase V} {lists : ℕ → List Addr} (h : Valid m lists) (n : ℕ)
    (a : Addr) : slotOf n (m.entry a) = m.slotIn n a := by
  cases ha : m.heap a with
  | none =>
    have hc : m.content a = none := by
      rw [MapBase.content, ha]
      rfl
    rw [MapBase.entry, MapBase.slotIn, hc]
    rfl
  | some node =>
    rw [MapBase.entry_of_heap ha, MapBase.slotIn_of_heap ha, h.hashed a node ha]
    rfl

/-- The nodes of the lists are the entries of the map, in its order. -/
structure Visits (m : MapBase V) (lists : ℕ → List Addr) (entries : List (CString × V)) : Prop
    extends Valid m lists where
  visited : (listed m.nbuckets lists).map m.entry = entries.map some
  sized : m.nbuckets = hashedSize m.nnodes

namespace Visits
variable {m : MapBase V} {lists : ℕ → List Addr} {entries : List (CString × V)} {fuel : ℕ}

theorem length_eq (h : Visits m lists entries) : entries.length = m.nnodes := by
  rw [h.count, ← List.length_map (f := some), ← h.visited, List.length_map]

theorem mem_iff (h : Visits m lists entries) {e : CString × V} :
    e ∈ entries ↔ ∃ a, m.entry a = some e := by
  have hmap : e ∈ entries ↔ some e ∈ entries.map some := by
    rw [List.mem_map_of_injective (Option.some_injective _)]
  rw [hmap, ← h.visited, List.mem_map]
  constructor
  · rintro ⟨a, _, ha⟩
    exact ⟨a, ha⟩
  · rintro ⟨a, ha⟩
    obtain ⟨node, hnode, _⟩ := MapBase.heap_of_entry ha
    exact ⟨a, h.owned a node hnode, ha⟩

theorem mem_names (h : Visits m lists entries) {key : CString} :
    key ∈ entries.map Prod.fst ↔ ∃ a, m.At key a := by
  rw [List.mem_map]
  constructor
  · rintro ⟨e, he, rfl⟩
    obtain ⟨a, ha⟩ := h.mem_iff.mp he
    obtain ⟨node, hnode, hkey, _⟩ := MapBase.heap_of_entry ha
    exact ⟨a, node, hnode, hkey⟩
  · rintro ⟨a, node, ha, rfl⟩
    exact ⟨_, h.mem_iff.mpr ⟨a, MapBase.entry_of_heap ha⟩, rfl⟩

/-- A value that is changed in its node changes in its place. -/
theorem setValue (h : Visits m lists entries) {a : Addr} {node : MapNode V}
    (ha : m.heap a = some node) (f : V → V) :
    Visits (m.setNode a (some { node with value := f node.value })) lists
      (entries.map fun e => if e.1 = node.key then (e.1, f e.2) else e) := by
  refine ⟨h.toValid.setValue ha _, ?_, h.sized⟩
  have hentry : ∀ b ∈ listed m.nbuckets lists,
      (m.setNode a (some { node with value := f node.value })).entry b =
        (m.entry b).map fun e => if e.1 = node.key then (e.1, f e.2) else e := by
    intro b hb
    by_cases hab : b = a
    · subst hab
      rw [MapBase.entry_of_heap (MapBase.setNode_heap _ _ _), MapBase.entry_of_heap ha,
        Option.map_some, if_pos rfl]
    · obtain ⟨i, hi⟩ := h.mem_listed.mp hb
      obtain ⟨node', hnode'⟩ := h.live hi
      have hkey : node'.key ≠ node.key := fun hkey => hab (h.keys b a _ _ hnode' ha hkey)
      have hsame : (m.setNode a (some { node with value := f node.value })).heap b = some node' := by
        rw [MapBase.setNode_heap_ne _ hab, hnode']
      rw [MapBase.entry_of_heap hsame, MapBase.entry_of_heap hnode', Option.map_some, if_neg hkey]
  have hn : (m.setNode a (some { node with value := f node.value })).nbuckets = m.nbuckets := rfl
  rw [hn, List.map_congr_left hentry, ← Function.comp_def (Option.map _), ← List.map_map, h.visited,
    List.map_map, List.map_map]
  rfl

/-- The buckets of the entries, when a node has the entry that the new one has in `m'`. -/
theorem nextLists_map (h : Visits m lists entries) {m' : MapBase V} {lists' : ℕ → List Addr}
    (h' : Valid m' lists') (hentry : ∀ a ∈ listed m.nbuckets lists, m'.entry a = m.entry a) :
    (fun i => (nextLists m m'.slotIn lists i).map m'.entry) =
      fun i => (nextBuckets entries i).map some := by
  have hslot := h'.slotOf_entry
  have hsome : ∀ n (e : CString × V), slotOf n (some e) = entrySlot n e := fun _ _ => rfl
  have hn : hashedSize entries.length = m.nbuckets := by rw [h.length_eq, h.sized]
  have hlists : bucketsOf (m'.slotIn m.nbuckets) (listed m.nbuckets lists) = lists := by
    refine bucketsOf_listed (fun i a ha => ?_) h.inside
    have hmem := h.mem_listed.mpr ⟨i, ha⟩
    rw [← h.placed i a ha, ← hslot, hentry a hmem]
    exact h.slotOf_entry m.nbuckets a
  have hold : (fun i => (lists i).map m'.entry) =
      fun i => (bucketsOf (entrySlot m.nbuckets) entries i).map some := by
    rw [map_bucketsOf (hsome m.nbuckets), ← h.visited, ← List.map_congr_left hentry,
      ← map_bucketsOf (hslot m.nbuckets), hlists]
  by_cases hfull : m.nnodes ≥ m.nbuckets
  · have hnext : nextLists m m'.slotIn lists = addAll (m'.slotIn (grownSize m.nbuckets))
        (fun _ => []) (gathered m.nbuckets lists) := if_pos hfull
    have hnext' : nextBuckets entries = addAll (entrySlot (grownSize m.nbuckets)) (fun _ => [])
        (gathered m.nbuckets (bucketsOf (entrySlot m.nbuckets) entries)) := by
      rw [nextBuckets, hn, h.length_eq]
      exact if_pos hfull
    rw [hnext, hnext', map_addAll (hslot _), map_addAll (hsome _), map_gathered, map_gathered, hold]
    rfl
  · have hnext : nextLists m m'.slotIn lists = lists := if_neg hfull
    have hnext' : nextBuckets entries = bucketsOf (entrySlot m.nbuckets) entries := by
      rw [nextBuckets, hn, h.length_eq]
      exact if_neg hfull
    rw [hnext, hnext', hold]

/-- A new entry takes its place in the order. -/
theorem insert (h : Visits m lists entries) (hfuel : m.nnodes < fuel) {a : Addr}
    (ha : m.heap a = none) {key : CString} (hkey : ∀ b, ¬ m.At key b) (value : V) :
    ∃ m' lists', mapInsert fuel (m.setNode a (some ⟨keyHash key, key, value, none⟩)) a true =
        some (m', 0) ∧ Visits m' lists' (hashedVisit (entries ++ [(key, value)])) ∧
      m'.nnodes = m.nnodes + 1 := by
  obtain ⟨m', err, lists', hrun, hvalid, _, hresult⟩ := h.toValid.insert hfuel ha hkey value true
  rcases hresult with ⟨rfl, hcontent, hcount, hsize, hlists⟩ | ⟨_, hfalse, _⟩
  · refine ⟨m', lists', hrun, ⟨hvalid, ?_, ?_⟩, hcount⟩
    · have hnew : m'.entry a = some (key, value) := by
        rw [MapBase.entry, hcontent, Function.update_self]
        rfl
      have hentry : ∀ b ∈ listed m.nbuckets lists, m'.entry b = m.entry b := by
        intro b hb
        have hne : b ≠ a := by
          rintro rfl
          obtain ⟨i, hi⟩ := h.mem_listed.mp hb
          obtain ⟨node, hnode⟩ := h.live hi
          rw [ha] at hnode
          cases hnode
        rw [MapBase.entry, hcontent, Function.update_of_ne hne, MapBase.entry]
      have hnext := h.nextLists_map hvalid hentry
      have hn : hashedSize (entries.length + 1) = m'.nbuckets := by
        rw [hsize, h.length_eq, hashedSize, ← h.sized]
        rfl
      have hsome : ∀ e : CString × V, slotOf m'.nbuckets (some e) = entrySlot m'.nbuckets e :=
        fun _ => rfl
      have hslot : ∀ b, slotOf m'.nbuckets (m'.entry b) = m'.slot b := hvalid.slotOf_entry _
      rw [hashedVisit_append, hn, hlists, map_listed, map_listed, map_addTo hsome, ← hnext, ← hnew,
        map_addTo hslot]
    · rw [hsize, hcount, hashedSize, ← h.sized]
      rfl
  · cases hfalse

end Visits

/-! ## Every history -/

/-- What is done to a map of which nothing is removed: `map_set`, for which the allocator has a node
and grants a larger array, and a change through the pointer that `map_get` returns. -/
inductive MapEdit (V : Type) where
  | set (key : CString) (value : V) (a : Addr)
  | update (key : CString) (f : V → V)

def MapEdit.run (fuel : ℕ) (m : MapBase V) : MapEdit V → Option (MapBase V)
  | set key value a => (mapSet fuel m key value (some a) true).map Prod.fst
  | update key f => do
    match ← mapGet fuel m key with
    | none => some m
    | some a =>
      let node ← m.heap a
      some (m.setNode a (some { node with value := f node.value }))

/-- The same on the map of the writer of ELF files. -/
def MapEdit.apply (order : Order V) (em : Map V) : MapEdit V → Map V
  | set key value _ => em.set order key value
  | update key f => em.update key f

/-- The allocator gives no address that is in use. -/
def MapEdit.fresh (m : MapBase V) : MapEdit V → Bool
  | set _ _ a => (m.heap a).isNone
  | update _ _ => true

def mapEdits (fuel : ℕ) : MapBase V → List (MapEdit V) → Option (MapBase V)
  | m, [] => some m
  | m, edit :: edits => (edit.run fuel m).bind fun m => mapEdits fuel m edits

def freshEdits (fuel : ℕ) : MapBase V → List (MapEdit V) → Bool
  | _, [] => true
  | m, edit :: edits => edit.fresh m &&
    match edit.run fuel m with
    | none => true
    | some m => freshEdits fuel m edits

theorem Map.update_entries (em : Map V) (key : CString) (f : V → V) :
    (em.update key f).entries = em.entries.map fun e => if e.1 = key then (e.1, f e.2) else e := rfl

theorem Map.set_of_mem {order : Order V} {em : Map V} {key : CString} (h : key ∈ em.names)
    (value : V) : (em.set order key value).entries =
      em.entries.map fun e => if e.1 = key then (e.1, value) else e := by
  rw [set, dif_pos h]
  rfl

theorem Map.set_of_not_mem {order : Order V} {em : Map V} {key : CString} (h : key ∉ em.names)
    (value : V) : (em.set order key value).entries = order.visit (em.entries ++ [(key, value)]) := by
  rw [set, dif_neg h]

/-- One edit of the table is one edit of the map. -/
theorem MapEdit.visits {m : MapBase V} {lists : ℕ → List Addr} {em : Map V} {fuel : ℕ}
    (h : Visits m lists em.entries) (hfuel : m.nnodes < fuel) (edit : MapEdit V)
    (hfresh : edit.fresh m = true) :
    ∃ m' lists', edit.run fuel m = some m' ∧
      Visits m' lists' (edit.apply (Order.hashed V) em).entries ∧ m'.nnodes ≤ m.nnodes + 1 := by
  cases edit with
  | set key value a =>
    have ha : m.heap a = none := Option.isNone_iff_eq_none.mp hfresh
    rcases h.getref hfuel key with ⟨i, pre, b, post, old, hlist, hb, rfl, hrun⟩ | ⟨hrun, hnone⟩
    · obtain ⟨_, _, _, hload⟩ := h.load_ref hlist
      have hmem : old.key ∈ em.names := h.mem_names.mpr ⟨b, old, hb, rfl⟩
      have hset := h.setValue hb fun _ => value
      rw [← Map.set_of_mem hmem] at hset
      refine ⟨_, lists, ?_, hset, Nat.le_succ _⟩
      rw [run, mapSet, hrun]
      simp only [Option.bind_eq_bind, Option.bind_some, hload, hb, Option.map_some]
    · have hmem : key ∉ em.names := fun hmem =>
        (h.mem_names.mp hmem).elim fun b hb => hnone b hb
      obtain ⟨m', lists', hinsert, hvisits, hcount⟩ := h.insert hfuel ha hnone value
      refine ⟨m', lists', ?_, ?_, hcount.le⟩
      · rw [run, mapSet, hrun]
        exact congrArg (Option.map Prod.fst) hinsert
      · rw [apply, Map.set_of_not_mem hmem]
        exact hvisits
  | update key f =>
    rcases h.get hfuel key with ⟨a, ⟨node, ha, rfl⟩, hrun⟩ | ⟨hrun, hnone⟩
    · have hset := h.setValue ha f
      rw [← Map.update_entries] at hset
      refine ⟨_, lists, ?_, hset, Nat.le_succ _⟩
      rw [run, hrun]
      simp only [Option.bind_eq_bind, Option.bind_some, ha]
    · refine ⟨m, lists, ?_, ?_, Nat.le_succ _⟩
      · rw [run, hrun]
        rfl
      · have hsame : (em.update key f).entries = em.entries := by
          rw [Map.update_entries]
          refine (List.map_congr_left fun e he => ?_).trans em.entries.map_id
          refine if_neg fun hkey => ?_
          obtain ⟨a, ha⟩ := h.mem_names.mp (List.mem_map.mpr ⟨e, he, hkey⟩)
          exact hnone a ha
        rw [apply, hsame]
        exact h

theorem mapEdits_of_visits {m : MapBase V} {lists : ℕ → List Addr} {em : Map V} {fuel : ℕ}
    (h : Visits m lists em.entries) (edits : List (MapEdit V))
    (hfuel : m.nnodes + edits.length < fuel) (hfresh : freshEdits fuel m edits = true) :
    ∃ m' lists', mapEdits fuel m edits = some m' ∧
      Visits m' lists' (edits.foldl (MapEdit.apply (Order.hashed V)) em).entries ∧
      m'.nnodes ≤ m.nnodes + edits.length := by
  induction edits generalizing m lists em with
  | nil => exact ⟨m, lists, rfl, h, Nat.le_refl _⟩
  | cons edit edits ih =>
    rw [List.length_cons] at hfuel
    have hfuel₀ : m.nnodes < fuel := by omega
    rw [freshEdits, Bool.and_eq_true] at hfresh
    obtain ⟨m₁, lists₁, hrun₁, hvisits₁, hle⟩ := edit.visits h hfuel₀ hfresh.1
    rw [hrun₁] at hfresh
    have hfuel₁ : m₁.nnodes + edits.length < fuel := by omega
    obtain ⟨m', lists', hrun, hvisits, hle'⟩ := ih hvisits₁ hfuel₁ hfresh.2
    refine ⟨m', lists', ?_, hvisits, ?_⟩
    · rw [mapEdits, hrun₁]
      exact hrun
    · rw [List.length_cons]
      omega

theorem visits_init : Visits ({} : MapBase V) (fun _ => []) ({} : Map V).entries where
  toValid := valid_init
  visited := rfl
  sized := rfl

/-- After any edits of a new table `map_next` yields the names of the map in its order, and
`map_get` the value that the map has. -/
theorem mapEdits_keys (edits : List (MapEdit V)) {fuel : ℕ} (hfuel : 2 * edits.length < fuel)
    (hsmall : edits.length < 2^63) (hfresh : freshEdits fuel {} edits = true) :
    ∃ m, mapEdits fuel {} edits = some m ∧
      mapKeys fuel m fuel mapIter = some (edits.foldl (MapEdit.apply (Order.hashed V)) {}).names ∧
      ∀ key, ∃ p, mapGet fuel m key = some p ∧ (p.bind m.heap).map MapNode.value =
        (edits.foldl (MapEdit.apply (Order.hashed V)) {}).get key := by
  have hinit : ({} : MapBase V).nnodes = 0 := rfl
  obtain ⟨m, lists, hrun, h, hle⟩ := mapEdits_of_visits visits_init edits (by omega) hfresh
  have hsize := hashedSize_le m.nnodes
  rw [← h.sized] at hsize
  refine ⟨m, hrun, ?_, fun key => ?_⟩
  · have hlen : (listed m.nbuckets lists).length < fuel := by
      rw [← h.count]
      omega
    have hkeys : m.keysOf (listed m.nbuckets lists) =
        (edits.foldl (MapEdit.apply (Order.hashed V)) {}).names := by
      have hkey : ∀ a, (m.heap a).map MapNode.key = (m.entry a).map Prod.fst := by
        intro a
        rw [MapBase.entry, MapBase.content, Option.map_map, Option.map_map]
        rfl
      have hmap := congrArg (List.filterMap fun e => e.map Prod.fst) h.visited
      rw [List.filterMap_map, List.filterMap_map] at hmap
      rw [MapBase.keysOf, List.filterMap_congr fun a _ => hkey a, Map.names,
        ← List.filterMap_eq_map]
      exact hmap
    have hidx : m.nbuckets < 2^64 := by omega
    have hbuckets : m.nbuckets < fuel := by omega
    rw [← hkeys]
    exact mapKeys_spec h.toLinked hidx hbuckets (.inl ⟨rfl, rfl⟩) hlen
  · have hnodes : m.nnodes < fuel := by omega
    rcases h.get hnodes key with ⟨a, ⟨node, ha, hkey⟩, hget⟩ | ⟨hget, hnone⟩
    · refine ⟨_, hget, ?_⟩
      have hmem := h.mem_iff.mpr ⟨a, MapBase.entry_of_heap ha⟩
      rw [hkey] at hmem
      rw [Map.get_of_mem hmem, Option.bind_some, ha]
      rfl
    · refine ⟨_, hget, ?_⟩
      have hmem : key ∉ (edits.foldl (MapEdit.apply (Order.hashed V)) {}).names := by
        intro hmem
        obtain ⟨a, ha⟩ := h.mem_names.mp hmem
        exact hnone a ha
      rw [Map.get_eq_none.mpr hmem]
      rfl

end

/-- Two sections, a size that is set later, and a section that makes the table grow. -/
def someEdits : List (MapEdit ℕ) :=
  [.set ⟨[46, 116], by decide, by decide⟩ 1 7, .set ⟨[46, 98], by decide, by decide⟩ 2 3,
    .update ⟨[46, 116], by decide, by decide⟩ (· + 10), .set ⟨[46, 115], by decide, by decide⟩ 3 5]

theorem mapEdits_keys_someEdits : ∃ m, mapEdits 9 {} someEdits = some m ∧
    mapKeys 9 m 9 mapIter = some (someEdits.foldl (MapEdit.apply (Order.hashed ℕ)) {}).names ∧
    ∀ key, ∃ p, mapGet 9 m key = some p ∧ (p.bind m.heap).map MapNode.value =
      (someEdits.foldl (MapEdit.apply (Order.hashed ℕ)) {}).get key :=
  mapEdits_keys someEdits (by decide) (by decide) (by decide)

end Bfcomp
