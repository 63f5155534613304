import Bfcomp.Rxi.Linked

/-! # Growing a hash table (`map_resize`)

The nodes are first chained into one list, then added to the new buckets one by one. The walk of the
second loop reads the link of a node before `map_addnode` changes it. When the allocator refuses,
the old buckets are filled again: the order of the nodes may change, what the table holds does
not. -/

namespace Bfcomp
set_option autoImplicit false

section
variable {V : Type}

/-- Only links changed, and only those of the nodes `l`. -/
structure Relinked (l : List Addr) (m m' : MapBase V) : Prop where
  content : m'.content = m.content
  nnodes : m'.nnodes = m.nnodes
  frame : ∀ a, a ∉ l → m'.heap a = m.heap a

namespace Relinked
variable {m m' m'' : MapBase V} {l l' : List Addr}

theorem refl (l : List Addr) (m : MapBase V) : Relinked l m m := ⟨rfl, rfl, fun _ _ => rfl⟩

theorem trans (h : Relinked l m m') (h' : Relinked l' m' m'') : Relinked (l ++ l') m m'' where
  content := h'.content.trans h.content
  nnodes := h'.nnodes.trans h.nnodes
  frame := by
    intro a ha
    rw [List.mem_append, not_or] at ha
    exact (h'.frame a ha.2).trans (h.frame a ha.1)

theorem mono (h : Relinked l m m') (hsub : ∀ a ∈ l, a ∈ l') : Relinked l' m m' :=
  ⟨h.content, h.nnodes, fun a ha => h.frame a fun hmem => ha (hsub a hmem)⟩

theorem next (h : Relinked l m m') {a : Addr} (ha : a ∉ l) : m'.next a = m.next a := by
  rw [MapBase.next, h.frame a ha, MapBase.next]

theorem of_setNode {a : Addr} {node : MapNode V} (ha : m.heap a = some node) (p : Option Addr) :
    Relinked [a] m (m.setNode a (some { node with next := p })) where
  content := MapBase.relink_content ha p
  nnodes := rfl
  frame := by
    intro b hb
    exact MapBase.setNode_heap_ne _ fun heq => hb (heq ▸ List.mem_singleton_self _)

end Relinked

/-! ## The first loop -/

theorem mapUnlink_spec {fuel : ℕ} {m : MapBase V} {p nodes : Option Addr} {l c : List Addr}
    (hl : Chain m.next p l) (hc : Chain m.next nodes c) (hdisj : ∀ a ∈ l, a ∉ c)
    (hfuel : l.length ≤ fuel) :
    ∃ m' q, mapUnlink fuel m nodes p = some (m', q) ∧ Chain m'.next q (l.reverse ++ c) ∧
      m'.buckets = m.buckets ∧ Relinked l m m' := by
  induction l generalizing fuel m p nodes c with
  | nil =>
    cases hl
    exact ⟨m, nodes, by rw [mapUnlink], hc, rfl, .refl _ _⟩
  | cons a l ih =>
    obtain ⟨rfl, r, hr, hrest⟩ := hl
    obtain ⟨node, hnode, rfl⟩ := MapBase.heap_of_next hr
    cases fuel with
    | zero => cases hfuel
    | succ fuel =>
      have ha : a ∉ l := (List.nodup_cons.mp (Chain.nodup (.cons hr hrest))).1
      have hac : a ∉ c := hdisj a List.mem_cons_self
      have hset := Relinked.of_setNode hnode nodes
      have hrest' : Chain (m.setNode a (some { node with next := nodes })).next node.next l := by
        refine Chain.congr hrest fun b hb => MapBase.setNode_next_ne _ ?_
        rintro rfl
        exact ha hb
      have hc' : Chain (m.setNode a (some { node with next := nodes })).next (some a) (a :: c) := by
        refine .cons (MapBase.relink_next nodes) (hc.congr fun b hb => MapBase.setNode_next_ne _ ?_)
        rintro rfl
        exact hac hb
      have hdisj' : ∀ b ∈ l, b ∉ a :: c := by
        intro b hb hmem
        rcases List.mem_cons.mp hmem with rfl | hmem
        · exact ha hb
        · exact hdisj b (List.mem_cons_of_mem a hb) hmem
      obtain ⟨m', q, hrun, hq, hbuckets, hrel⟩ := ih hrest' hc' hdisj' (Nat.le_of_succ_le_succ hfuel)
      refine ⟨m', q, ?_, ?_, hbuckets, hset.trans hrel⟩
      · rw [mapUnlink, hnode]
        exact hrun
      · rw [List.reverse_cons, List.append_assoc]
        exact hq

/-- The first loop takes the last bucket first, and turns every list around. -/
theorem mapUnlinkAll_spec (fuel : ℕ) {n : ℕ} {m : MapBase V} {nodes : Option Addr} {lists : ℕ → List Addr}
    {c : List Addr} (hn : n ≤ m.nbuckets)
    (hl : ∀ i < n, ∀ p, m.buckets[i]? = some p → Chain m.next p (lists i))
    (hapart : ∀ i < n, ∀ j < n, i ≠ j → ∀ a ∈ lists i, a ∉ lists j)
    (hc : Chain m.next nodes c) (hdisj : ∀ i < n, ∀ a ∈ lists i, a ∉ c)
    (hfuel : ∀ i < n, (lists i).length ≤ fuel) :
    ∃ m' q, mapUnlinkAll fuel n m nodes = some (m', q) ∧
      Chain m'.next q (gathered n lists ++ c) ∧ m'.buckets = m.buckets ∧
      Relinked (gathered n lists) m m' := by
  induction n generalizing m nodes c with
  | zero => exact ⟨m, nodes, rfl, hc, rfl, .refl _ _⟩
  | succ n ih =>
    have hbucket : m.buckets[n]? = some (m.buckets.get ⟨n, hn⟩) := List.getElem?_eq_getElem hn
    obtain ⟨m₁, q₁, hrun₁, hq₁, hbuckets₁, hrel₁⟩ := mapUnlink_spec
      (hl n (Nat.lt_succ_self n) _ hbucket) hc (hdisj n (Nat.lt_succ_self n))
      (hfuel n (Nat.lt_succ_self n))
    have hother : ∀ i < n, ∀ a ∈ lists i, a ∉ lists n := fun i hi a ha =>
      hapart i (by omega) n (Nat.lt_succ_self n) (by omega) a ha
    obtain ⟨m', q, hrun, hq, hbuckets, hrel⟩ := ih (m := m₁)
      (by rw [MapBase.nbuckets, hbuckets₁]; exact Nat.le_of_succ_le hn)
      (by
        intro i hi p hp
        rw [hbuckets₁] at hp
        exact (hl i (by omega) p hp).congr fun a ha => hrel₁.next (hother i hi a ha))
      (fun i hi j hj => hapart i (by omega) j (by omega)) hq₁
      (by
        intro i hi a ha hmem
        rcases List.mem_append.mp hmem with hmem | hmem
        · exact hother i hi a ha (List.mem_reverse.mp hmem)
        · exact hdisj i (by omega) a ha hmem)
      (fun i hi => hfuel i (by omega))
    refine ⟨m', q, ?_, ?_, hbuckets.trans hbuckets₁, ?_⟩
    · rw [mapUnlinkAll, hbucket]
      simp only [Option.bind_eq_bind, Option.bind_some, hrun₁]
      exact hrun
    · rw [gathered_succ, List.append_assoc]
      exact hq
    · refine (hrel₁.trans hrel).mono fun a ha => ?_
      rw [gathered_succ, List.mem_append, List.mem_reverse]
      exact (List.mem_append.mp ha).symm

/-! ## The second loop -/

theorem mapAddnode_spec {m : MapBase V} {lists : ℕ → List Addr} (h : Linked m lists) {a : Addr}
    {node : MapNode V} (ha : m.heap a = some node) (hslot : m.slot a < m.nbuckets)
    (hfresh : ∀ i, a ∉ lists i) :
    ∃ m', mapAddnode m a = some m' ∧ Linked m' (addTo m.slot lists a) ∧
      m'.nbuckets = m.nbuckets ∧ Relinked [a] m m' := by
  have hindex := MapBase.slotIn_of_heap ha m.nbuckets
  obtain ⟨p, hp, _⟩ := h.bucket hslot
  have hset := Relinked.of_setNode ha p
  have hn : (m.buckets.set (m.slot a) (some a)).length = m.nbuckets := List.length_set
  have hold : ∀ (i : ℕ) r, m.buckets[i]? = some r →
      Chain (m.setNode a (some { node with next := p })).next r (lists i) := by
    intro i r hr
    refine (h.chain i r hr).congr fun b hb => MapBase.setNode_next_ne _ ?_
    rintro rfl
    exact hfresh i hb
  refine ⟨⟨(m.setNode a (some { node with next := p })).heap, m.buckets.set (m.slot a) (some a),
    m.nnodes⟩, ?_, ⟨?_, ?_, ?_⟩, hn, ⟨hset.content, rfl, hset.frame⟩⟩
  · rw [mapAddnode, ha]
    simp only [Option.bind_eq_bind, Option.bind_some]
    rw [← hindex]
    rw [MapBase.slot] at hp
    rw [hp]
    simp only [Option.bind_some, MapBase.store]
    exact if_pos hslot
  · intro i q hq
    rw [List.getElem?_set] at hq
    by_cases hi : m.slot a = i
    · subst hi
      have hlt : m.slot a < m.buckets.length := hslot
      rw [if_pos rfl, if_pos hlt, Option.some.injEq] at hq
      subst hq
      rw [addTo_self]
      exact .cons (MapBase.relink_next p) (hold _ p hp)
    · rw [if_neg hi] at hq
      rw [addTo_of_ne fun heq => hi heq.symm]
      exact hold i q hq
  · intro i b hb
    have hslot : MapBase.slot ⟨(m.setNode a (some { node with next := p })).heap,
        m.buckets.set (m.slot a) (some a), m.nnodes⟩ b = m.slot b := by
      refine MapBase.slot_congr ?_ ?_ b
      · exact hset.content
      · exact hn
    rw [hslot]
    rcases mem_addTo.mp hb with ⟨rfl, rfl⟩ | hb
    · rfl
    · exact h.placed i b hb
  · intro i hi
    have hi' : m.nbuckets ≤ i := hn ▸ hi
    rw [addTo_of_ne (by omega)]
    exact h.inside i hi'

theorem mapReadd_spec (fuel : ℕ) {m : MapBase V} {lists : ℕ → List Addr} (h : Linked m lists)
    {p : Option Addr} {l : List Addr} (hl : Chain m.next p l)
    (hslots : ∀ a ∈ l, m.slot a < m.nbuckets) (hdisj : ∀ a ∈ l, ∀ i, a ∉ lists i)
    (hfuel : l.length ≤ fuel) :
    ∃ m', mapReadd fuel m p = some m' ∧ Linked m' (addAll m.slot lists l) ∧
      m'.nbuckets = m.nbuckets ∧ Relinked l m m' := by
  induction l generalizing fuel m lists p with
  | nil =>
    cases hl
    exact ⟨m, by rw [mapReadd], h, rfl, .refl _ _⟩
  | cons a l ih =>
    obtain ⟨rfl, r, hr, hrest⟩ := hl
    obtain ⟨node, hnode, rfl⟩ := MapBase.heap_of_next hr
    cases fuel with
    | zero => cases hfuel
    | succ fuel =>
      have ha : a ∉ l := (List.nodup_cons.mp (Chain.nodup (.cons hr hrest))).1
      obtain ⟨m₁, hrun₁, hlinked₁, hn₁, hrel₁⟩ := mapAddnode_spec h hnode
        (hslots a List.mem_cons_self) (hdisj a List.mem_cons_self)
      have hslot : m₁.slot = m.slot := funext fun b => MapBase.slot_congr hrel₁.content hn₁ b
      have hrest₁ : Chain m₁.next node.next l := by
        refine Chain.congr hrest fun b hb => hrel₁.next ?_
        rw [List.mem_singleton]
        rintro rfl
        exact ha hb
      obtain ⟨m', hrun, hlinked, hn, hrel⟩ := ih fuel hlinked₁ hrest₁
        (fun b hb => by rw [hslot, hn₁]; exact hslots b (List.mem_cons_of_mem a hb))
        (by
          intro b hb i hmem
          rcases mem_addTo.mp hmem with ⟨rfl, _⟩ | hmem
          · exact ha hb
          · exact hdisj b (List.mem_cons_of_mem a hb) i hmem)
        (Nat.le_of_succ_le_succ hfuel)
      refine ⟨m', ?_, ?_, hn.trans hn₁, hrel₁.trans hrel⟩
      · rw [mapReadd, hnode]
        simp only [Option.bind_eq_bind, Option.bind_some, hrun₁]
        exact hrun
      · rw [hslot] at hlinked
        exact hlinked

/-! ## The whole of it -/

theorem linked_empty (m : MapBase V) (n : ℕ) :
    Linked { m with buckets := List.replicate n none } fun _ => [] where
  chain := by
    intro i p hp
    obtain ⟨_, hp⟩ := List.getElem?_eq_some_iff.mp hp
    rw [List.getElem_replicate] at hp
    subst hp
    exact .nil
  placed := by
    intro i a ha
    cases ha
  inside := fun _ _ => rfl

/-- The lists that growing to `n` buckets leaves. -/
def rehashed (n : ℕ) (m : MapBase V) (lists : ℕ → List Addr) : ℕ → List Addr :=
  addAll (m.slotIn n) (fun _ => []) (gathered m.nbuckets lists)

/-- `map_resize` puts the nodes of the lists into the new buckets, or back into the old number of
buckets if it is refused. -/
theorem mapResize_spec (fuel : ℕ) {n : ℕ} {m : MapBase V} {lists : ℕ → List Addr} (h : Linked m lists)
    {grown : Bool}
    (hslots : ∀ a ∈ listed m.nbuckets lists,
      m.slotIn (if grown then n else m.nbuckets) a < if grown then n else m.nbuckets)
    (hfuel : (listed m.nbuckets lists).length ≤ fuel) :
    ∃ m', mapResize fuel m n grown = some (m', if grown then 0 else -1) ∧
      Linked m' (rehashed (if grown then n else m.nbuckets) m lists) ∧
      m'.nbuckets = (if grown then n else m.nbuckets) ∧
      Relinked (listed m.nbuckets lists) m m' := by
  obtain ⟨m₁, q, hrun₁, hq, hbuckets, hrel₁⟩ := mapUnlinkAll_spec fuel (Nat.le_refl _)
    (fun i _ => h.chain i)
    (fun i _ j _ hij a hi hj => hij ((h.placed i a hi).symm.trans (h.placed j a hj)))
    (.nil : Chain m.next none []) (fun _ _ _ _ => List.not_mem_nil)
    (fun i _ => (h.length_le i).trans hfuel)
  rw [List.append_nil] at hq
  have hn₁ : m₁.nbuckets = m.nbuckets := congrArg List.length hbuckets
  generalize hnew : (if grown then n else m.nbuckets) = k at hslots ⊢
  have hlen : (List.replicate k (none : Option Addr)).length = k := List.length_replicate
  have hslot : MapBase.slot { m₁ with buckets := List.replicate k none } = m.slotIn k := by
    funext a
    have hn : MapBase.nbuckets { m₁ with buckets := List.replicate k none } = k := hlen
    rw [MapBase.slot, hn]
    exact congrFun (MapBase.slotIn_congr hrel₁.content k) a
  obtain ⟨m₂, hrun₂, hlinked₂, hn₂, hrel₂⟩ := mapReadd_spec fuel (linked_empty m₁ k) hq
    (fun a ha => by
      rw [hslot]
      exact (hslots a (mem_gathered.mp ha)).trans_eq hlen.symm)
    (fun _ _ _ => List.not_mem_nil)
    (by rw [(gathered_perm _ _).length_eq]; exact hfuel)
  have hreadd : (if k = 0 then some { m₁ with buckets := List.replicate k none }
      else mapReadd fuel { m₁ with buckets := List.replicate k none } q) = some m₂ := by
    split
    next hzero =>
      -- without buckets there are no nodes to put anywhere
      have hnone : gathered m.nbuckets lists = [] := by
        refine List.eq_nil_iff_forall_not_mem.mpr fun a ha => ?_
        have hlt := hslots a (mem_gathered.mp ha)
        omega
      rw [hnone] at hq
      cases hq
      rw [← hrun₂, mapReadd]
    next => exact hrun₂
  refine ⟨m₂, ?_, ?_, hn₂.trans hlen, ?_⟩
  · rw [mapResize, hrun₁]
    simp only [Option.bind_eq_bind, Option.bind_some, hn₁, hnew, hreadd]
  · rw [rehashed, ← hslot]
    exact hlinked₂
  · exact ⟨hrel₂.content.trans hrel₁.content, hrel₂.nnodes.trans hrel₁.nnodes, fun a ha =>
      (hrel₂.frame a fun hmem => ha (mem_gathered.mp hmem)).trans
        (hrel₁.frame a fun hmem => ha (mem_gathered.mp hmem))⟩

/-- The size that `map_set_` asks for. -/
def grownSize (nbuckets : ℕ) : ℕ := if nbuckets > 0 then nbuckets * 2 else 1

theorem grownSize_isPowerOfTwo {n : ℕ} (h : n = 0 ∨ n.isPowerOfTwo) :
    (grownSize n).isPowerOfTwo ∧ n < grownSize n := by
  unfold grownSize
  split
  · exact ⟨Nat.isPowerOfTwo_mul_two_of_isPowerOfTwo (h.resolve_left (by omega)), by omega⟩
  · exact ⟨Nat.isPowerOfTwo_one, by omega⟩

/-- The size of a table that has room for one more node. -/
def MapBase.nextSize (m : MapBase V) : ℕ :=
  if m.nnodes ≥ m.nbuckets then grownSize m.nbuckets else m.nbuckets

/-- The lists of such a table, where `slotIn` says which bucket a node belongs to. -/
def nextLists (m : MapBase V) (slotIn : ℕ → Addr → ℕ) (lists : ℕ → List Addr) : ℕ → List Addr :=
  if m.nnodes ≥ m.nbuckets then
    addAll (slotIn (grownSize m.nbuckets)) (fun _ => []) (gathered m.nbuckets lists)
  else lists

/-- `map_set_` grows a table that is full, and then has room, or was refused. -/
theorem grow_spec (fuel : ℕ) {m : MapBase V} {lists : ℕ → List Addr} (h : Linked m lists)
    (hcount : m.nnodes = (listed m.nbuckets lists).length)
    (hsize : m.nbuckets = 0 ∨ m.nbuckets.isPowerOfTwo) (hroom : m.nnodes ≤ m.nbuckets)
    (hfuel : m.nnodes < fuel) (grown : Bool) :
    ∃ m' err lists', (if m.nnodes ≥ m.nbuckets then mapResize fuel m (grownSize m.nbuckets) grown
        else some (m, 0)) = some (m', err) ∧ Linked m' lists' ∧
      Relinked (listed m.nbuckets lists) m m' ∧
      (listed m'.nbuckets lists').Perm (listed m.nbuckets lists) ∧
      (err = 0 ∧ m'.nnodes < m'.nbuckets ∧ m'.nbuckets.isPowerOfTwo ∧
          m'.nbuckets = m.nextSize ∧ lists' = nextLists m m.slotIn lists ∨
        err = -1 ∧ grown = false ∧ m'.nbuckets = m.nbuckets) := by
  by_cases hfull : m.nnodes ≥ m.nbuckets
  · obtain ⟨hpow, hlt⟩ := grownSize_isPowerOfTwo hsize
    have hslots : ∀ a ∈ listed m.nbuckets lists,
        m.slotIn (if grown then grownSize m.nbuckets else m.nbuckets) a <
          if grown then grownSize m.nbuckets else m.nbuckets := by
      intro a ha
      obtain ⟨i, hi⟩ := h.mem_listed.mp ha
      obtain ⟨node, hnode⟩ := h.live hi
      rw [MapBase.slotIn_of_heap hnode]
      split
      · exact mapBucketidx_lt hpow _
      · have hne : m.nbuckets ≠ 0 := by
          have hin := h.index_lt hi
          omega
        exact mapBucketidx_lt (hsize.resolve_left hne) _
    obtain ⟨m', hrun, hlinked, hn, hrel⟩ := mapResize_spec fuel h hslots (by omega)
    have hperm : (listed m'.nbuckets (rehashed (if grown then grownSize m.nbuckets else m.nbuckets)
        m lists)).Perm (gathered m.nbuckets lists) := by
      have hadded := listed_addAll (fun _ => []) (l := gathered m.nbuckets lists) fun a ha => hslots a (mem_gathered.mp ha)
      rw [listed_nil, List.append_nil] at hadded
      rw [hn]
      exact hadded
    refine ⟨m', _, _, (if_pos hfull).trans hrun, hlinked, hrel, hperm.trans (gathered_perm _ _), ?_⟩
    cases grown with
    | true =>
      have hsize' : m.nextSize = grownSize m.nbuckets := if_pos hfull
      have hlists' : nextLists m m.slotIn lists = rehashed (grownSize m.nbuckets) m lists :=
        if_pos hfull
      refine .inl ⟨rfl, ?_, ?_, ?_, ?_⟩
      · rw [hrel.nnodes, hn]
        exact hroom.trans_lt hlt
      · rw [hn]
        exact hpow
      · rw [hn, hsize']
        rfl
      · rw [hlists']
        rfl
    | false => exact .inr ⟨rfl, rfl, hn⟩
  · refine ⟨m, 0, lists, if_neg hfull, h, .refl _ _, .refl _, .inl ⟨rfl, by omega, ?_, ?_, ?_⟩⟩
    · exact hsize.resolve_left (by omega)
    · exact (if_neg hfull).symm
    · exact (if_neg hfull).symm

end
end Bfcomp
