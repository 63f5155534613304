import Bfcomp.Foundations.Buckets
import Bfcomp.Foundations.Chains
import Bfcomp.Rxi.Map
import Mathlib.Algebra.Order.BigOperators.Group.List
import Mathlib.Data.List.Flatten

/-! # The lists of a hash table

Every bucket starts a list of nodes whose hashes choose that bucket. Growing moves the links of all
nodes and nothing else: each node keeps its address, its hash, its key and its value. -/

namespace Bfcomp
set_option autoImplicit false

/-! ## Bucket indices -/

theorem mapBucketidx_two_pow (k : ℕ) (hash : BitVec 64) :
    mapBucketidx (2^k) hash = hash.toNat % 2^k := by
  rw [mapBucketidx, BitVec.toNat_and]
  by_cases hk : k < 64
  · have hlt : 2^k < 2^64 := Nat.pow_lt_pow_right (by decide) hk
    have hpos : 0 < 2^k := Nat.two_pow_pos k
    have hmask : (BitVec.ofNat 64 (2^k) - 1).toNat = 2^k - 1 := by
      have hone : (1 : BitVec 64).toNat = 1 := rfl
      rw [BitVec.toNat_sub, BitVec.toNat_ofNat, Nat.mod_eq_of_lt hlt, hone]
      omega
    rw [hmask, Nat.and_two_pow_sub_one_eq_mod]
  · have hle : 2^64 ≤ 2^k := Nat.pow_le_pow_right (by decide) (by omega)
    have hzero : BitVec.ofNat 64 (2^k) = 0 := by
      have hdvd : 2^64 ∣ 2^k := Nat.pow_dvd_pow 2 (by omega)
      exact BitVec.eq_of_toNat_eq
        ((BitVec.toNat_ofNat _ _).trans (Nat.mod_eq_zero_of_dvd hdvd))
    have hmask : ((0 : BitVec 64) - 1).toNat = 2^64 - 1 := rfl
    rw [hzero, hmask, Nat.and_two_pow_sub_one_eq_mod, Nat.mod_eq_of_lt hash.isLt,
      Nat.mod_eq_of_lt (by have := hash.isLt; omega)]

theorem mapBucketidx_lt {nbuckets : ℕ} (h : nbuckets.isPowerOfTwo) (hash : BitVec 64) :
    mapBucketidx nbuckets hash < nbuckets := by
  obtain ⟨k, rfl⟩ := h
  rw [mapBucketidx_two_pow]
  exact Nat.mod_lt _ (Nat.two_pow_pos k)

section
variable {V : Type}

/-! ## Nodes and links -/

namespace MapBase

/-- The link of a node. -/
def next (m : MapBase V) (a : Addr) : Option (Option Addr) := (m.heap a).map MapNode.next

/-- A node without its link. -/
def content (m : MapBase V) (a : Addr) : Option (BitVec 64 × CString × V) :=
  (m.heap a).map fun node => (node.hash, node.key, node.value)

/-- The bucket that a node belongs to, of `n` buckets. -/
def slotIn (m : MapBase V) (n : ℕ) (a : Addr) : ℕ :=
  ((m.content a).map fun c => mapBucketidx n c.1).getD 0

/-- The bucket that a node belongs to. -/
def slot (m : MapBase V) (a : Addr) : ℕ := m.slotIn m.nbuckets a

theorem slotIn_of_heap {m : MapBase V} {a : Addr} {node : MapNode V} (h : m.heap a = some node)
    (n : ℕ) : m.slotIn n a = mapBucketidx n node.hash := by
  rw [slotIn, content, h]
  rfl

theorem slotIn_congr {m m' : MapBase V} (hcontent : m'.content = m.content) (n : ℕ) :
    m'.slotIn n = m.slotIn n := by
  funext a
  rw [slotIn, slotIn, hcontent]

theorem slot_congr {m m' : MapBase V} (hcontent : m'.content = m.content)
    (hn : m'.nbuckets = m.nbuckets) (a : Addr) : m'.slot a = m.slot a := by
  rw [slot, slot, slotIn_congr hcontent, hn]

theorem heap_of_next {m : MapBase V} {a : Addr} {r : Option Addr} (h : m.next a = some r) :
    ∃ node, m.heap a = some node ∧ node.next = r := Option.map_eq_some_iff.mp h

theorem next_of_heap {m : MapBase V} {a : Addr} {node : MapNode V} (h : m.heap a = some node) :
    m.next a = some node.next := by
  rw [next, h]
  rfl

theorem setNode_heap (m : MapBase V) (a : Addr) (node : Option (MapNode V)) :
    (m.setNode a node).heap a = node := Function.update_self _ _ _

theorem setNode_heap_ne {m : MapBase V} {a b : Addr} (node : Option (MapNode V)) (h : b ≠ a) :
    (m.setNode a node).heap b = m.heap b := Function.update_of_ne h _ _

theorem content_of_heap {m : MapBase V} {a : Addr} {node : MapNode V} (h : m.heap a = some node) :
    m.content a = some (node.hash, node.key, node.value) := by
  rw [content, h]
  rfl

theorem heap_of_content {m : MapBase V} {a : Addr} {c : BitVec 64 × CString × V}
    (h : m.content a = some c) : ∃ next, m.heap a = some ⟨c.1, c.2.1, c.2.2, next⟩ := by
  obtain ⟨node, hnode, rfl⟩ := Option.map_eq_some_iff.mp h
  exact ⟨node.next, hnode⟩

theorem setNode_content (m : MapBase V) (a : Addr) (node : Option (MapNode V)) :
    (m.setNode a node).content =
      Function.update m.content a (node.map fun node => (node.hash, node.key, node.value)) := by
  funext b
  by_cases hb : b = a
  · subst hb
    rw [content, setNode_heap, Function.update_self]
  · rw [content, setNode_heap_ne _ hb, Function.update_of_ne hb, content]

/-- Changing a link changes no content. -/
theorem relink_content {m : MapBase V} {a : Addr} {node : MapNode V} (h : m.heap a = some node)
    (p : Option Addr) : (m.setNode a (some { node with next := p })).content = m.content := by
  rw [setNode_content, Option.map_some, ← content_of_heap h, Function.update_eq_self]

theorem relink_next {m : MapBase V} {a : Addr} {node : MapNode V} (p : Option Addr) :
    (m.setNode a (some { node with next := p })).next a = some p := by
  rw [next, setNode_heap]
  rfl

theorem relink_next_eq {m : MapBase V} {a : Addr} {node : MapNode V} (p : Option Addr) :
    (m.setNode a (some { node with next := p })).next = Function.update m.next a (some p) := by
  funext b
  by_cases hb : b = a
  · subst hb
    rw [relink_next, Function.update_self]
  · rw [Function.update_of_ne hb, next, setNode_heap_ne _ hb, next]

theorem setNode_next_ne {m : MapBase V} {a b : Addr} (node : Option (MapNode V)) (h : b ≠ a) :
    (m.setNode a node).next b = m.next b := by
  rw [next, setNode_heap_ne _ h, next]

end MapBase

/-- Every bucket starts its list, and the nodes on it belong there. -/
structure Linked (m : MapBase V) (lists : ℕ → List Addr) : Prop where
  chain : ∀ (i : ℕ) p, m.buckets[i]? = some p → Chain m.next p (lists i)
  placed : ∀ i, ∀ a ∈ lists i, m.slot a = i
  inside : ∀ i, m.nbuckets ≤ i → lists i = []

namespace Linked
variable {m m' : MapBase V} {lists : ℕ → List Addr}

theorem index_lt (h : Linked m lists) {i : ℕ} {a : Addr} (ha : a ∈ lists i) : i < m.nbuckets := by
  by_contra hi
  rw [h.inside i (by omega)] at ha
  cases ha

theorem bucket (h : Linked m lists) {i : ℕ} (hi : i < m.nbuckets) :
    ∃ p, m.buckets[i]? = some p ∧ Chain m.next p (lists i) :=
  ⟨_, List.getElem?_eq_getElem hi, h.chain i _ (List.getElem?_eq_getElem hi)⟩

theorem live (h : Linked m lists) {i : ℕ} {a : Addr} (ha : a ∈ lists i) :
    ∃ node, m.heap a = some node := by
  obtain ⟨p, _, hchain⟩ := h.bucket (h.index_lt ha)
  obtain ⟨r, hr⟩ := hchain.live ha
  obtain ⟨node, hnode, _⟩ := MapBase.heap_of_next hr
  exact ⟨node, hnode⟩

theorem mem_listed (h : Linked m lists) {a : Addr} :
    a ∈ listed m.nbuckets lists ↔ ∃ i, a ∈ lists i := by
  rw [listed, List.mem_flatMap]
  constructor
  · rintro ⟨i, _, ha⟩
    exact ⟨i, ha⟩
  · rintro ⟨i, ha⟩
    exact ⟨i, List.mem_range.mpr (h.index_lt ha), ha⟩

theorem listed_nodup (h : Linked m lists) : (listed m.nbuckets lists).Nodup := by
  refine List.nodup_flatMap.mpr ⟨fun i hi => ?_, List.nodup_range.imp ?_⟩
  · obtain ⟨_, _, hchain⟩ := h.bucket (List.mem_range.mp hi)
    exact hchain.nodup
  · intro i j hij a hi hj
    exact hij ((h.placed i a hi).symm.trans (h.placed j a hj))

theorem length_le (h : Linked m lists) (i : ℕ) :
    (lists i).length ≤ (listed m.nbuckets lists).length := by
  by_cases hi : i < m.nbuckets
  · rw [listed, List.length_flatMap]
    exact List.single_le_sum (fun _ _ => Nat.zero_le _) _
      (List.mem_map.mpr ⟨i, List.mem_range.mpr hi, rfl⟩)
  · rw [h.inside i (by omega)]
    exact Nat.zero_le _

/-- What keeps the buckets, and the links and the hashes on the lists, keeps the lists. -/
theorem congr (h : Linked m lists) (hbuckets : m'.buckets = m.buckets)
    (hnext : ∀ i, ∀ a ∈ lists i, m'.next a = m.next a)
    (hslot : ∀ i, ∀ a ∈ lists i, m'.slot a = m.slot a) : Linked m' lists where
  chain := by
    intro i p hp
    rw [hbuckets] at hp
    exact (h.chain i p hp).congr (hnext i)
  placed := by
    intro i a ha
    rw [hslot i a ha]
    exact h.placed i a ha
  inside := by
    intro i hi
    rw [MapBase.nbuckets, hbuckets] at hi
    exact h.inside i hi

/-- A node that is on no list can be set, or freed. -/
theorem setNode (h : Linked m lists) {a : Addr} (ha : ∀ i, a ∉ lists i)
    (node : Option (MapNode V)) : Linked (m.setNode a node) lists := by
  have hne : ∀ i, ∀ b ∈ lists i, b ≠ a := by
    rintro i b hb rfl
    exact ha i hb
  refine h.congr rfl (fun i b hb => MapBase.setNode_next_ne node (hne i b hb)) fun i b hb => ?_
  have hcontent : (m.setNode a node).content b = m.content b := by
    rw [MapBase.content, MapBase.setNode_heap_ne node (hne i b hb), MapBase.content]
  rw [MapBase.slot, MapBase.slot, MapBase.slotIn, MapBase.slotIn, hcontent]
  rfl

end Linked

end
end Bfcomp
