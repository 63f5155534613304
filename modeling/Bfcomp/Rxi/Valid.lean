import Bfcomp.Rxi.Resize

/-! # What the operations of a hash table keep

Every node that is allocated is on the list of the bucket its key chooses, no key has two nodes, and
there are never more nodes than buckets. Each operation is described by what it does to the contents
of the nodes. -/

namespace Bfcomp
set_option autoImplicit false

section
variable {V : Type}

structure Valid (m : MapBase V) (lists : ℕ → List Addr) : Prop extends Linked m lists where
  owned : ∀ a node, m.heap a = some node → a ∈ listed m.nbuckets lists
  hashed : ∀ a node, m.heap a = some node → node.hash = keyHash node.key
  keys : ∀ a b node node', m.heap a = some node → m.heap b = some node' → node.key = node'.key →
    a = b
  count : m.nnodes = (listed m.nbuckets lists).length
  size : m.nbuckets = 0 ∨ m.nbuckets.isPowerOfTwo
  room : m.nnodes ≤ m.nbuckets

/-- The node at `a` has this key. -/
def MapBase.At (m : MapBase V) (key : CString) (a : Addr) : Prop :=
  ∃ node, m.heap a = some node ∧ node.key = key

/-! ## Looking up -/

/-- The reference that leads to the node behind `pre` on the list of bucket `i`. -/
def refTo (i : ℕ) (pre : List Addr) : MapRef :=
  match pre.getLast? with
  | none => .bucket i
  | some b => .next b

theorem refTo_concat (i : ℕ) (pre : List Addr) (b : Addr) : refTo i (pre ++ [b]) = .next b := by
  rw [refTo, List.getLast?_concat]

theorem load_refTo {m : MapBase V} {i : ℕ} {p : Option Addr} {pre rest : List Addr}
    (hp : m.buckets[i]? = some p) (h : Chain m.next p (pre ++ rest)) :
    m.load (refTo i pre) = some rest.head? := by
  rcases List.eq_nil_or_concat pre with rfl | ⟨pre, b, rfl⟩
  · have hload : m.load (refTo i []) = m.buckets[i]? := rfl
    rw [hload, hp, Chain.head h]
    rfl
  · rw [List.concat_eq_append] at h ⊢
    obtain ⟨r, hpre, hrest⟩ := segment_append.mp h
    obtain ⟨_, _, _, r', hr', hr⟩ := segment_append.mp hpre
    have heq : r' = r := hr
    rw [refTo_concat, ← Chain.head hrest, ← heq]
    exact hr'

/-- From the reference behind `pre` on, the loop stops at the first node that matches. -/
theorem mapGetrefLoop_spec {m : MapBase V} {i : ℕ} {p : Option Addr} {pre rest : List Addr}
    (hp : m.buckets[i]? = some p) (h : Chain m.next p (pre ++ rest)) (hash : BitVec 64)
    (key : CString) {fuel : ℕ} (hfuel : rest.length < fuel) :
    (∃ mid a post node, rest = mid ++ a :: post ∧ m.heap a = some node ∧ node.key = key ∧
      mapGetrefLoop m hash key fuel (refTo i pre) = some (some (refTo i (pre ++ mid)))) ∨
    (mapGetrefLoop m hash key fuel (refTo i pre) = some none ∧
      ∀ a ∈ rest, ∀ node, m.heap a = some node → ¬ (node.hash = hash ∧ node.key = key)) := by
  induction rest generalizing pre fuel with
  | nil =>
    cases fuel with
    | zero => cases hfuel
    | succ fuel =>
      refine .inr ⟨?_, fun a ha => (List.not_mem_nil ha).elim⟩
      rw [mapGetrefLoop, load_refTo hp h]
      rfl
  | cons a rest ih =>
    cases fuel with
    | zero => cases hfuel
    | succ fuel =>
      obtain ⟨_, _, _, r, hr, _⟩ := segment_append.mp h
      obtain ⟨node, hnode, _⟩ := MapBase.heap_of_next hr
      have hloop : mapGetrefLoop m hash key (fuel + 1) (refTo i pre) =
          if node.hash = hash ∧ node.key = key then some (some (refTo i pre))
          else mapGetrefLoop m hash key fuel (refTo i (pre ++ [a])) := by
        rw [mapGetrefLoop, load_refTo hp h, refTo_concat]
        simp only [Option.bind_eq_bind, Option.bind_some, List.head?_cons, hnode]
      by_cases hmatch : node.hash = hash ∧ node.key = key
      · refine .inl ⟨[], a, rest, node, rfl, hnode, hmatch.2, ?_⟩
        rw [hloop, if_pos hmatch, List.append_nil]
      · rw [hloop, if_neg hmatch]
        have hchain : Chain m.next p ((pre ++ [a]) ++ rest) := by
          rw [List.append_assoc]
          exact h
        rcases ih hchain (Nat.lt_of_succ_lt_succ hfuel) with
          ⟨mid, b, post, node', hrest, hb, hkey, hrun⟩ | ⟨hrun, hnone⟩
        · refine .inl ⟨a :: mid, b, post, node', by rw [hrest]; rfl, hb, hkey, ?_⟩
          rw [hrun, List.append_assoc]
          rfl
        · refine .inr ⟨hrun, fun b hb node' hnode' => ?_⟩
          rcases List.mem_cons.mp hb with rfl | hb
          · rw [hnode, Option.some.injEq] at hnode'
            rwa [← hnode']
          · exact hnone b hb node' hnode'

namespace Valid
variable {m : MapBase V} {lists : ℕ → List Addr} {fuel : ℕ}

theorem slot_lt (h : Valid m lists) {a : Addr} {node : MapNode V} (ha : m.heap a = some node) :
    m.slot a < m.nbuckets ∧ a ∈ lists (m.slot a) := by
  obtain ⟨i, hi⟩ := h.mem_listed.mp (h.owned a node ha)
  rw [h.placed i a hi]
  exact ⟨h.index_lt hi, hi⟩

theorem length_lt (h : Valid m lists) (hfuel : m.nnodes < fuel) (i : ℕ) :
    (lists i).length < fuel := by
  have hle := h.length_le i
  have hcount := h.count
  omega

theorem getref (h : Valid m lists) (hfuel : m.nnodes < fuel) (key : CString) :
    (∃ i pre a post node, lists i = pre ++ a :: post ∧ m.heap a = some node ∧ node.key = key ∧
      mapGetref fuel m key = some (some (refTo i pre))) ∨
    (mapGetref fuel m key = some none ∧ ∀ a, ¬ m.At key a) := by
  by_cases hn : m.nbuckets > 0
  · have hpow := h.size.resolve_left (by omega)
    have hlt := mapBucketidx_lt hpow (keyHash key)
    obtain ⟨p, hp, hchain⟩ := h.bucket hlt
    have hchain' : Chain m.next p ([] ++ lists (mapBucketidx m.nbuckets (keyHash key))) := hchain
    have hloop := mapGetrefLoop_spec hp hchain' (keyHash key) key
      (h.length_lt hfuel (mapBucketidx m.nbuckets (keyHash key)))
    have hrun : mapGetref fuel m key = mapGetrefLoop m (keyHash key) key fuel
        (refTo (mapBucketidx m.nbuckets (keyHash key)) []) := if_pos hn
    rw [hrun]
    rcases hloop with ⟨mid, a, post, node, hrest, ha, hkey, hfound⟩ | ⟨hnone, hall⟩
    · exact .inl ⟨_, mid, a, post, node, hrest, ha, hkey, hfound⟩
    · refine .inr ⟨hnone, ?_⟩
      rintro a ⟨node, ha, rfl⟩
      have hhash := h.hashed a node ha
      have hslot : m.slot a = mapBucketidx m.nbuckets (keyHash node.key) :=
        (MapBase.slotIn_of_heap ha m.nbuckets).trans (congrArg (mapBucketidx m.nbuckets) hhash)
      have hmem := (h.slot_lt ha).2
      rw [hslot] at hmem
      exact hall a hmem node ha ⟨hhash, rfl⟩
  · refine .inr ⟨if_neg hn, ?_⟩
    rintro a ⟨node, ha, _⟩
    have hlt := (h.slot_lt ha).1
    omega

theorem load_ref (h : Valid m lists) {i : ℕ} {pre post : List Addr} {a : Addr}
    (hlist : lists i = pre ++ a :: post) :
    ∃ p, m.buckets[i]? = some p ∧ Chain m.next p (pre ++ a :: post) ∧
      m.load (refTo i pre) = some (some a) := by
  have hi : i < m.nbuckets := h.index_lt (hlist ▸ List.mem_append_right _ List.mem_cons_self)
  obtain ⟨p, hp, hchain⟩ := h.bucket hi
  rw [hlist] at hchain
  exact ⟨p, hp, hchain, load_refTo hp hchain⟩

/-- `map_get_` finds the node of the key, if there is one. -/
theorem get (h : Valid m lists) (hfuel : m.nnodes < fuel) (key : CString) :
    (∃ a, m.At key a ∧ mapGet fuel m key = some (some a)) ∨
    (mapGet fuel m key = some none ∧ ∀ a, ¬ m.At key a) := by
  rcases h.getref hfuel key with ⟨i, pre, a, post, node, hlist, ha, hkey, hrun⟩ | ⟨hrun, hnone⟩
  · refine .inl ⟨a, ⟨node, ha, hkey⟩, ?_⟩
    obtain ⟨_, _, _, hload⟩ := h.load_ref hlist
    rw [mapGet, hrun]
    simp only [Option.bind_eq_bind, Option.bind_some, hload, ha]
  · refine .inr ⟨?_, hnone⟩
    rw [mapGet, hrun]
    rfl

/-- Nodes that keep their hashes and keys, or go, leave the table valid if the lists say so. -/
theorem transfer (h : Valid m lists) {m' : MapBase V} {lists' : ℕ → List Addr}
    (hlinked : Linked m' lists')
    (hkept : ∀ a c', m'.content a = some c' → ∃ v, m.content a = some (c'.1, c'.2.1, v))
    (hlisted : ∀ a node, m'.heap a = some node → a ∈ listed m'.nbuckets lists')
    (hcount : m'.nnodes = (listed m'.nbuckets lists').length)
    (hn : m'.nbuckets = m.nbuckets) (hroom : m'.nnodes ≤ m.nnodes) : Valid m' lists' where
  toLinked := hlinked
  owned := hlisted
  hashed := by
    intro a node ha
    obtain ⟨v, hv⟩ := hkept a _ (MapBase.content_of_heap ha)
    obtain ⟨next, hold⟩ := MapBase.heap_of_content hv
    have hhash := h.hashed a _ hold
    exact hhash
  keys := by
    intro a b node node' ha hb hkey
    obtain ⟨v, hv⟩ := hkept a _ (MapBase.content_of_heap ha)
    obtain ⟨v', hv'⟩ := hkept b _ (MapBase.content_of_heap hb)
    obtain ⟨next, hold⟩ := MapBase.heap_of_content hv
    obtain ⟨next', hold'⟩ := MapBase.heap_of_content hv'
    exact h.keys a b _ _ hold hold' hkey
  count := hcount
  size := by
    rw [hn]
    exact h.size
  room := by
    rw [hn]
    exact hroom.trans h.room

/-! ## Setting -/

/-- A node whose value is replaced stays where it is. -/
theorem setValue (h : Valid m lists) {a : Addr} {old : MapNode V} (ha : m.heap a = some old)
    (value : V) : Valid (m.setNode a (some { old with value := value })) lists := by
  have hnext : ∀ b, (m.setNode a (some { old with value := value })).next b = m.next b := by
    intro b
    by_cases hb : b = a
    · subst hb
      rw [MapBase.next, MapBase.setNode_heap, MapBase.next_of_heap ha]
      rfl
    · exact MapBase.setNode_next_ne _ hb
  have hkept : ∀ b c', (m.setNode a (some { old with value := value })).content b = some c' →
      ∃ v, m.content b = some (c'.1, c'.2.1, v) := by
    intro b c' hc
    rw [MapBase.setNode_content] at hc
    by_cases hb : b = a
    · subst hb
      rw [Function.update_self] at hc
      cases hc
      exact ⟨old.value, MapBase.content_of_heap ha⟩
    · rw [Function.update_of_ne hb] at hc
      exact ⟨c'.2.2, hc⟩
  have hlive : ∀ b node, (m.setNode a (some { old with value := value })).heap b = some node →
      ∃ node', m.heap b = some node' := by
    intro b node hb
    obtain ⟨v, hv⟩ := hkept b _ (MapBase.content_of_heap hb)
    obtain ⟨next, hold⟩ := MapBase.heap_of_content hv
    exact ⟨_, hold⟩
  refine h.transfer (h.toLinked.congr rfl (fun _ b _ => hnext b) fun i b hb => ?_) hkept ?_ h.count
    rfl (Nat.le_refl _)
  · by_cases hb' : b = a
    · subst hb'
      exact (MapBase.slotIn_of_heap (MapBase.setNode_heap _ _ _) _).trans
        (MapBase.slotIn_of_heap ha _).symm
    · have hcontent : (m.setNode a (some { old with value := value })).content b = m.content b := by
        rw [MapBase.setNode_content, Function.update_of_ne hb']
      rw [MapBase.slot, MapBase.slot, MapBase.slotIn, MapBase.slotIn, hcontent]
      rfl
  · intro b node hb
    obtain ⟨node', hold⟩ := hlive b node hb
    exact h.owned b node' hold

/-- A node with a key that no other node has. -/
theorem extend (h : Valid m lists) {m' : MapBase V} {lists' : ℕ → List Addr} {a : Addr}
    {key : CString} {value : V} (hkey : ∀ b, ¬ m.At key b) (hlinked : Linked m' lists')
    (hcontent : m'.content = Function.update m.content a (some (keyHash key, key, value)))
    (hlisted : (listed m'.nbuckets lists').Perm (a :: listed m.nbuckets lists))
    (hcount : m'.nnodes = m.nnodes + 1) (hpow : m'.nbuckets.isPowerOfTwo)
    (hroom : m'.nnodes ≤ m'.nbuckets) : Valid m' lists' := by
  have hcases : ∀ b node, m'.heap b = some node → b = a ∧ node.hash = keyHash key ∧ node.key = key ∨
      b ≠ a ∧ ∃ next, m.heap b = some { node with next := next } := by
    intro b node hb
    have hc := MapBase.content_of_heap hb
    rw [hcontent] at hc
    by_cases hab : b = a
    · subst hab
      rw [Function.update_self, Option.some.injEq, Prod.mk.injEq, Prod.mk.injEq] at hc
      exact .inl ⟨rfl, hc.1.symm, hc.2.1.symm⟩
    · rw [Function.update_of_ne hab] at hc
      obtain ⟨next, hold⟩ := MapBase.heap_of_content hc
      exact .inr ⟨hab, next, hold⟩
  refine ⟨hlinked, ?_, ?_, ?_, ?_, .inr hpow, hroom⟩
  · intro b node hb
    rw [hlisted.mem_iff, List.mem_cons]
    rcases hcases b node hb with ⟨rfl, _⟩ | ⟨_, next, hold⟩
    · exact .inl rfl
    · exact .inr (h.owned b _ hold)
  · intro b node hb
    rcases hcases b node hb with ⟨_, hhash, hk⟩ | ⟨_, next, hold⟩
    · rw [hhash, hk]
    · have hhash := h.hashed b _ hold
      exact hhash
  · intro b c node node' hb hc hsame
    rcases hcases b node hb with ⟨rfl, _, hk⟩ | ⟨_, next, hold⟩
    · rcases hcases c node' hc with ⟨rfl, _⟩ | ⟨_, next', hold'⟩
      · rfl
      · exact (hkey c ⟨_, hold', hsame.symm.trans hk⟩).elim
    · rcases hcases c node' hc with ⟨rfl, _, hk⟩ | ⟨_, next', hold'⟩
      · exact (hkey b ⟨_, hold, hsame.trans hk⟩).elim
      · exact h.keys b c _ _ hold hold' hsame
  · rw [hcount, hlisted.length_eq, List.length_cons, h.count]

/-- A new key: the node is added, or freed again when the table has to grow and is refused. -/
theorem insert (h : Valid m lists) (hfuel : m.nnodes < fuel) {a : Addr} (ha : m.heap a = none)
    {key : CString} (hkey : ∀ b, ¬ m.At key b) (value : V) (grown : Bool) :
    ∃ m' err lists',
      mapInsert fuel (m.setNode a (some ⟨keyHash key, key, value, none⟩)) a grown = some (m', err) ∧
      Valid m' lists' ∧ m'.nnodes ≤ m.nnodes + 1 ∧
      (err = 0 ∧ m'.content = Function.update m.content a (some (keyHash key, key, value)) ∧
          m'.nnodes = m.nnodes + 1 ∧ m'.nbuckets = m.nextSize ∧
          lists' = addTo m'.slot (nextLists m m'.slotIn lists) a ∨
        err = -1 ∧ grown = false ∧ m'.content = m.content) := by
  have hfresh : ∀ i, a ∉ lists i := by
    intro i hi
    obtain ⟨node, hnode⟩ := h.live hi
    rw [ha] at hnode
    cases hnode
  have hnone : m.content a = none := by
    rw [MapBase.content, ha]
    rfl
  have hcontent := MapBase.setNode_content m a (some ⟨keyHash key, key, value, none⟩)
  rw [Option.map_some] at hcontent
  generalize hm₁ : m.setNode a (some ⟨keyHash key, key, value, none⟩) = m₁ at hcontent ⊢
  have hlinked₁ : Linked m₁ lists := hm₁ ▸ h.toLinked.setNode hfresh _
  have hn₁ : m₁.nbuckets = m.nbuckets := by rw [← hm₁]; rfl
  have hnnodes₁ : m₁.nnodes = m.nnodes := by rw [← hm₁]; rfl
  obtain ⟨m₂, err, lists₂, hrun₂, hlinked₂, hrel₂, hperm₂, hgrow⟩ := grow_spec fuel hlinked₁
    (by rw [hnnodes₁, hn₁]; exact h.count) (by rw [hn₁]; exact h.size)
    (by rw [hnnodes₁, hn₁]; exact h.room) (by rw [hnnodes₁]; exact hfuel) grown
  have hcontent₂ := hrel₂.content.trans hcontent
  have hcount₂ : m₂.nnodes = (listed m₂.nbuckets lists₂).length := by
    rw [hrel₂.nnodes, hperm₂.length_eq, hnnodes₁, hn₁]
    exact h.count
  have hfresh₂ : ∀ i, a ∉ lists₂ i := by
    intro i hi
    have hmem := hperm₂.mem_iff.mp (hlinked₂.mem_listed.mpr ⟨i, hi⟩)
    obtain ⟨j, hj⟩ := hlinked₁.mem_listed.mp hmem
    exact hfresh j hj
  have hrun (next : MapBase V × BitVec 64 → Option (MapBase V × BitVec 64)) :
      (if m₁.nnodes ≥ m₁.nbuckets then
        mapResize fuel m₁ (if m₁.nbuckets > 0 then m₁.nbuckets * 2 else 1) grown
        else some (m₁, 0)).bind next = next (m₂, err) := congrArg (Option.bind · next) hrun₂
  rcases hgrow with ⟨rfl, hroom₂, hpow₂, hsize₂, hlists₂⟩ | ⟨rfl, hgrown, hn₂⟩
  · obtain ⟨next, hnode⟩ := MapBase.heap_of_content (m := m₂) (a := a)
      (c := (keyHash key, key, value)) (by rw [hcontent₂, Function.update_self])
    have hslot : m₂.slot a < m₂.nbuckets := by
      rw [MapBase.slot, MapBase.slotIn_of_heap hnode]
      exact mapBucketidx_lt hpow₂ _
    obtain ⟨m₃, hrun₃, hlinked₃, hn₃, hrel₃⟩ := mapAddnode_spec hlinked₂ hnode hslot hfresh₂
    have hcontent₃ := hrel₃.content.trans hcontent₂
    have hlisted₃ := (listed_addTo lists₂ hslot).trans (hperm₂.cons a)
    rw [hn₁, ← hn₃] at hlisted₃
    have hcount₃ : m₃.nnodes + 1 = m.nnodes + 1 := by rw [hrel₃.nnodes, hrel₂.nnodes, hnnodes₁]
    have hvalid : Valid { m₃ with nnodes := m₃.nnodes + 1 } (addTo m₂.slot lists₂ a) := by
      refine h.extend hkey (hlinked₃.congr rfl (fun _ _ _ => rfl) fun _ _ _ => rfl) hcontent₃
        hlisted₃ hcount₃ ?_ ?_
      · exact hn₃ ▸ hpow₂
      · have hlt : m₃.nnodes + 1 ≤ m₃.nbuckets := by
          rw [hrel₃.nnodes, hn₃]
          exact hroom₂
        exact hlt
    have hslot₃ : MapBase.slot { m₃ with nnodes := m₃.nnodes + 1 } = m₂.slot :=
      funext fun b => MapBase.slot_congr hrel₃.content hn₃ b
    have hin : MapBase.slotIn { m₃ with nnodes := m₃.nnodes + 1 } = m₁.slotIn :=
      funext fun n => MapBase.slotIn_congr hrel₃.content n |>.trans
        (MapBase.slotIn_congr hrel₂.content n)
    refine ⟨_, 0, _, ?_, hvalid, hcount₃.le, .inl ⟨rfl, hcontent₃, hcount₃, ?_, ?_⟩⟩
    · rw [mapInsert]
      simp only [Option.bind_eq_bind]
      rw [hrun]
      simp only [ne_eq, not_true_eq_false, if_false, hrun₃, Option.bind_some]
    · have hsize₁ : m₁.nextSize = m.nextSize := by
        rw [MapBase.nextSize, MapBase.nextSize, hn₁, hnnodes₁]
      exact hn₃.trans (hsize₂.trans hsize₁)
    · rw [hslot₃, hin, hlists₂, nextLists, nextLists, hn₁, hnnodes₁]
  · have hback : (m₂.setNode a none).content = m.content := by
      rw [MapBase.setNode_content, hcontent₂, Option.map_none, Function.update_idem, ← hnone,
        Function.update_eq_self]
    have hvalid : Valid (m₂.setNode a none) lists₂ := by
      refine h.transfer (hlinked₂.setNode hfresh₂ none) ?_ ?_ hcount₂ (hn₂.trans hn₁) ?_
      · intro b c' hc
        rw [hback] at hc
        exact ⟨c'.2.2, hc⟩
      · intro b node hb
        have hc := MapBase.content_of_heap hb
        rw [hback] at hc
        obtain ⟨next, hold⟩ := MapBase.heap_of_content hc
        have hmem := h.owned b _ hold
        rw [← hn₁] at hmem
        exact hperm₂.mem_iff.mpr hmem
      · exact (hrel₂.nnodes.trans hnnodes₁).le
    refine ⟨_, -1, lists₂, ?_, hvalid, (hrel₂.nnodes.trans hnnodes₁).le.trans (Nat.le_succ _),
      .inr ⟨rfl, hgrown, hback⟩⟩
    rw [mapInsert]
    simp only [Option.bind_eq_bind]
    rw [hrun]
    have hne : (-1 : BitVec 64) ≠ 0 := by decide
    exact if_pos hne

/-- `map_set_`: the node of the key gets the value, or a new node; or an allocation was refused and
the contents are what they were. -/
theorem set (h : Valid m lists) (hfuel : m.nnodes < fuel) (key : CString) (value : V)
    (node : Option Addr) (grown : Bool) (hfresh : ∀ a, node = some a → m.heap a = none) :
    ∃ m' err lists', mapSet fuel m key value node grown = some (m', err) ∧ Valid m' lists' ∧
      m'.nnodes ≤ m.nnodes + 1 ∧ ((err = 0 ∧ ∃ a, (m.At key a ∨ node = some a ∧ ∀ b, ¬ m.At key b) ∧
          m'.content = Function.update m.content a (some (keyHash key, key, value))) ∨
        err = -1 ∧ (node = none ∨ grown = false) ∧ (∀ b, ¬ m.At key b) ∧ m'.content = m.content) := by
  rcases h.getref hfuel key with ⟨i, pre, a, post, old, hlist, ha, hkey, hrun⟩ | ⟨hrun, hnone⟩
  · obtain ⟨_, _, _, hload⟩ := h.load_ref hlist
    refine ⟨_, 0, lists, ?_, h.setValue ha value, Nat.le_succ _,
      .inl ⟨rfl, a, .inl ⟨old, ha, hkey⟩, ?_⟩⟩
    · unfold mapSet
      rw [hrun]
      simp only [Option.bind_eq_bind, Option.bind_some, hload, ha]
    · have hhash := h.hashed a old ha
      rw [MapBase.setNode_content, Option.map_some, hhash, hkey]
  · cases node with
    | none =>
      refine ⟨m, -1, lists, ?_, h, Nat.le_succ _, .inr ⟨rfl, .inl rfl, hnone, rfl⟩⟩
      rw [mapSet, hrun]
      rfl
    | some a =>
      obtain ⟨m', err, lists', hinsert, hvalid, hle, hresult⟩ :=
        h.insert hfuel (hfresh a rfl) hnone value grown
      refine ⟨m', err, lists', ?_, hvalid, hle, ?_⟩
      · rw [mapSet, hrun]
        exact hinsert
      · rcases hresult with ⟨rfl, hcontent, _⟩ | ⟨rfl, hgrown, hcontent⟩
        · exact .inl ⟨rfl, a, .inr ⟨rfl, hnone⟩, hcontent⟩
        · exact .inr ⟨rfl, .inr hgrown, hnone, hcontent⟩

end Valid

/-! ## Removing -/

/-- Storing the link of a node in the reference that leads to it takes the node off its list. -/
theorem store_refTo {m : MapBase V} {i : ℕ} {p : Option Addr} {pre post : List Addr} {a : Addr}
    {node : MapNode V} (hp : m.buckets[i]? = some p) (h : Chain m.next p (pre ++ a :: post))
    (ha : m.heap a = some node) :
    ∃ m' p', m.store node.next (refTo i pre) = some m' ∧ m'.buckets[i]? = some p' ∧
      (∀ j, j ≠ i → m'.buckets[j]? = m.buckets[j]?) ∧ Chain m'.next p' (pre ++ post) ∧
      m'.nbuckets = m.nbuckets ∧ Relinked pre m m' := by
  have hlink : m.next a = some node.next := MapBase.next_of_heap ha
  have hi : i < m.buckets.length := (List.getElem?_eq_some_iff.mp hp).1
  obtain ⟨s, hpre, _, r, hr, hpost⟩ := segment_append.mp h
  rw [hlink, Option.some.injEq] at hr
  subst hr
  have hnodup := h.nodup
  rcases List.eq_nil_or_concat pre with rfl | ⟨pre, b, rfl⟩
  · refine ⟨{ m with buckets := m.buckets.set i node.next }, node.next, if_pos hi, ?_, ?_, hpost,
      List.length_set, ⟨rfl, rfl, fun _ _ => rfl⟩⟩
    · rw [List.getElem?_set, if_pos rfl, if_pos hi]
    · intro j hj
      rw [List.getElem?_set, if_neg fun heq => hj heq.symm]
  · rw [List.concat_eq_append] at hpre hnodup ⊢
    obtain ⟨_, _, _, t, ht, _⟩ := segment_append.mp hpre
    obtain ⟨last, hlast, _⟩ := MapBase.heap_of_next ht
    have hb : b ∉ pre ++ post := by
      have hperm : ((pre ++ [b]) ++ a :: post).Perm (b :: (pre ++ a :: post)) := by
        rw [List.append_assoc]
        exact List.perm_middle
      have hout := (List.nodup_cons.mp (hperm.nodup_iff.mp hnodup)).1
      intro hmem
      refine hout ((List.mem_append.mp hmem).elim (fun h => List.mem_append_left _ h) fun h => ?_)
      exact List.mem_append_right _ (List.mem_cons_of_mem a h)
    refine ⟨m.setNode b (some { last with next := node.next }), p, ?_, hp, fun _ _ => rfl, ?_, rfl,
      (Relinked.of_setNode hlast node.next).mono fun c hc => List.mem_append_right _ hc⟩
    · rw [refTo_concat, MapBase.store, hlast]
      rfl
    · rw [MapBase.relink_next_eq]
      refine segment_append.mpr ⟨node.next,
        hpre.redirect (fun hmem => hb (List.mem_append_left _ hmem)) node.next, ?_⟩
      refine Chain.congr hpost fun c hc => Function.update_of_ne ?_ _ _
      rintro rfl
      exact hb (List.mem_append_right _ hc)

namespace Valid
variable {m : MapBase V} {lists : ℕ → List Addr} {fuel : ℕ}

/-- The table without a node that has been taken off its list and freed. -/
theorem drop (h : Valid m lists) {i : ℕ} {pre post : List Addr} {a : Addr} {m' : MapBase V}
    {p' : Option Addr} (hlist : lists i = pre ++ a :: post) (hp' : m'.buckets[i]? = some p')
    (hother : ∀ j, j ≠ i → m'.buckets[j]? = m.buckets[j]?)
    (hchain : Chain m'.next p' (pre ++ post)) (hn : m'.nbuckets = m.nbuckets)
    (hrel : Relinked pre m m') :
    Valid { m'.setNode a none with nnodes := m'.nnodes - 1 }
        (Function.update lists i (pre ++ post)) ∧
      (m'.setNode a none).content = Function.update m.content a none := by
  have hi : i < m.nbuckets := h.index_lt (hlist ▸ List.mem_append_right _ List.mem_cons_self)
  obtain ⟨p, hp, hold⟩ := h.bucket hi
  have hnodup := hold.nodup
  rw [hlist] at hnodup
  have hmiddle : (pre ++ a :: post).Perm (a :: (pre ++ post)) := List.perm_middle
  have ha : a ∉ pre ++ post := (List.nodup_cons.mp (hmiddle.nodup_iff.mp hnodup)).1
  have hcontent : (m'.setNode a none).content = Function.update m.content a none := by
    rw [MapBase.setNode_content, hrel.content, Option.map_none]
  have hapart : ∀ j, j ≠ i → ∀ b ∈ lists j, b ≠ a ∧ b ∉ pre := by
    intro j hj b hb
    have hslot := h.placed j b hb
    have hout : b ∉ lists i := fun hb' => hj (hslot.symm.trans (h.placed i b hb'))
    rw [hlist] at hout
    constructor
    · rintro rfl
      exact hout (List.mem_append_right _ List.mem_cons_self)
    · exact fun hpre => hout (List.mem_append_left _ hpre)
  have hmem : ∀ j b, b ∈ Function.update lists i (pre ++ post) j ↔ b ∈ lists j ∧ b ≠ a := by
    intro j b
    by_cases hj : j = i
    · subst hj
      rw [Function.update_self, hlist, List.mem_append, List.mem_append, List.mem_cons]
      constructor
      · intro hb
        refine ⟨hb.imp_right .inr, ?_⟩
        rintro rfl
        exact ha (List.mem_append.mpr hb)
      · rintro ⟨hb | hb | hb, hne⟩
        · exact .inl hb
        · exact (hne hb).elim
        · exact .inr hb
    · rw [Function.update_of_ne hj]
      exact ⟨fun hb => ⟨hb, (hapart j hj b hb).1⟩, And.left⟩
  have hlinked : Linked { m'.setNode a none with nnodes := m'.nnodes - 1 }
      (Function.update lists i (pre ++ post)) := by
    refine ⟨fun j q hq => ?_, fun j b hb => ?_, fun j hj => ?_⟩
    · have hq' : m'.buckets[j]? = some q := hq
      by_cases hj : j = i
      · subst hj
        rw [hp', Option.some.injEq] at hq'
        subst hq'
        rw [Function.update_self]
        refine hchain.congr fun b hb => MapBase.setNode_next_ne _ ?_
        rintro rfl
        exact ha hb
      · rw [hother j hj] at hq'
        rw [Function.update_of_ne hj]
        refine (h.chain j q hq').congr fun b hb => ?_
        obtain ⟨hne, hpre⟩ := hapart j hj b hb
        exact (MapBase.setNode_next_ne _ hne).trans (hrel.next hpre)
    · obtain ⟨hb, hne⟩ := (hmem j b).mp hb
      have hsame : (m'.setNode a none).content b = m.content b := by
        rw [hcontent, Function.update_of_ne hne]
      rw [← h.placed j b hb, MapBase.slot, MapBase.slot, MapBase.slotIn, MapBase.slotIn]
      have hn' : MapBase.nbuckets { m'.setNode a none with nnodes := m'.nnodes - 1 } = m.nbuckets := hn
      rw [hn']
      exact congrArg (fun c => (Option.map (fun c => mapBucketidx m.nbuckets c.1) c).getD 0) hsame
    · have hj' : m.nbuckets ≤ j := hn ▸ hj
      rw [Function.update_of_ne (by omega)]
      exact h.inside j hj'
  have hperm : (listed m.nbuckets lists).Perm (a :: listed m'.nbuckets
      (Function.update lists i (pre ++ post))) := by
    have hgone : a ∉ listed m'.nbuckets (Function.update lists i (pre ++ post)) := by
      intro hin
      obtain ⟨j, hj⟩ := hlinked.mem_listed.mp hin
      exact ((hmem j a).mp hj).2 rfl
    refine (List.perm_ext_iff_of_nodup h.listed_nodup
      (List.nodup_cons.mpr ⟨hgone, hlinked.listed_nodup⟩)).mpr fun b => ?_
    rw [h.mem_listed, List.mem_cons]
    constructor
    · rintro ⟨j, hj⟩
      by_cases hb : b = a
      · exact .inl hb
      · exact .inr (hlinked.mem_listed.mpr ⟨j, (hmem j b).mpr ⟨hj, hb⟩⟩)
    · rintro (rfl | hb)
      · exact ⟨i, hlist ▸ List.mem_append_right _ List.mem_cons_self⟩
      · obtain ⟨j, hj⟩ := hlinked.mem_listed.mp hb
        exact ⟨j, ((hmem j b).mp hj).1⟩
  have hcount : m'.nnodes - 1 =
      (listed m'.nbuckets (Function.update lists i (pre ++ post))).length := by
    rw [hrel.nnodes, h.count, hperm.length_eq, List.length_cons, Nat.add_sub_cancel]
  refine ⟨h.transfer hlinked ?_ ?_ hcount hn ?_, hcontent⟩
  · intro b c' hc
    have hc' : (m'.setNode a none).content b = some c' := hc
    rw [hcontent] at hc'
    by_cases hb : b = a
    · subst hb
      rw [Function.update_self] at hc'
      cases hc'
    · rw [Function.update_of_ne hb] at hc'
      exact ⟨c'.2.2, hc'⟩
  · intro b node' hb
    have hc : (m'.setNode a none).content b = _ := MapBase.content_of_heap hb
    rw [hcontent] at hc
    by_cases hne : b = a
    · subst hne
      rw [Function.update_self] at hc
      cases hc
    · rw [Function.update_of_ne hne] at hc
      obtain ⟨next, hold⟩ := MapBase.heap_of_content hc
      have hin := hperm.mem_iff.mp (h.owned b _ hold)
      exact (List.mem_cons.mp hin).resolve_left hne
  · have hle : m'.nnodes - 1 ≤ m.nnodes := by
      rw [hrel.nnodes]
      exact Nat.sub_le _ _
    exact hle

/-- `map_remove_` frees the node of the key, if there is one. -/
theorem remove (h : Valid m lists) (hfuel : m.nnodes < fuel) (key : CString) :
    ∃ m' lists', mapRemove fuel m key = some m' ∧ Valid m' lists' ∧ m'.nnodes ≤ m.nnodes ∧
      ((∃ a, m.At key a ∧ m'.content = Function.update m.content a none) ∨
        (∀ b, ¬ m.At key b) ∧ m' = m) := by
  rcases h.getref hfuel key with ⟨i, pre, a, post, node, hlist, ha, hkey, hrun⟩ | ⟨hrun, hnone⟩
  · obtain ⟨p, hp, hchain, hload⟩ := h.load_ref hlist
    obtain ⟨m', p', hstore, hp', hother, hchain', hn, hrel⟩ := store_refTo hp hchain ha
    obtain ⟨hvalid, hcontent⟩ := h.drop hlist hp' hother hchain' hn hrel
    refine ⟨_, _, ?_, hvalid, (Nat.sub_le _ _).trans hrel.nnodes.le,
      .inl ⟨a, ⟨node, ha, hkey⟩, hcontent⟩⟩
    rw [mapRemove, hrun]
    simp only [Option.bind_eq_bind, Option.bind_some, hload, ha, hstore]
  · refine ⟨m, lists, ?_, h, Nat.le_refl _, .inr ⟨hnone, rfl⟩⟩
    rw [mapRemove, hrun]
    rfl

end Valid

end
end Bfcomp
