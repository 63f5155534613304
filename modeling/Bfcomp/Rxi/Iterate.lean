import Bfcomp.Rxi.Calls

/-! # Going over a hash table, and freeing it

`map_next_` goes along the list of a bucket and then on to the next bucket that has one; the bucket
index starts at `-1` and wraps to zero. `map_deinit_` frees the nodes in the same way from the last
bucket down, and touches none twice. -/

namespace Bfcomp
set_option autoImplicit false

section
variable {V : Type}

/-! ## The iterator -/

/-- The nodes of the buckets from `k` on. -/
def listedFrom (n : ℕ) (lists : ℕ → List Addr) (k : ℕ) : List Addr :=
  (List.range' k (n - k)).flatMap lists

theorem listedFrom_zero (n : ℕ) (lists : ℕ → List Addr) :
    listedFrom n lists 0 = listed n lists := by
  rw [listedFrom, listed, List.range_eq_range', Nat.sub_zero]

theorem listedFrom_end {n k : ℕ} (h : n ≤ k) (lists : ℕ → List Addr) :
    listedFrom n lists k = [] := by
  rw [listedFrom, Nat.sub_eq_zero_of_le h]
  rfl

theorem listedFrom_step {n k : ℕ} (h : k < n) (lists : ℕ → List Addr) :
    listedFrom n lists k = lists k ++ listedFrom n lists (k + 1) := by
  have hlen : n - k = n - (k + 1) + 1 := by omega
  rw [listedFrom, hlen, List.range'_succ, List.flatMap_cons, listedFrom]

/-- The next bucket with a list. -/
theorem mapNextBucket_spec {m : MapBase V} {lists : ℕ → List Addr} (h : Linked m lists)
    (hsmall : m.nbuckets < 2^64) {fuel k : ℕ} {bucketidx : BitVec 64}
    (hidx : (bucketidx + 1).toNat = k) (hfuel : m.nbuckets - k < fuel) :
    (listedFrom m.nbuckets lists k = [] ∧
      ∃ iter, mapNextBucket m fuel bucketidx = some (iter, none)) ∨
    ∃ i a post node, i < m.nbuckets ∧ lists i = a :: post ∧ m.heap a = some node ∧
      listedFrom m.nbuckets lists k = a :: (post ++ listedFrom m.nbuckets lists (i + 1)) ∧
      mapNextBucket m fuel bucketidx = some (⟨BitVec.ofNat 64 i, some a⟩, some node.key) := by
  induction fuel generalizing k bucketidx with
  | zero => cases hfuel
  | succ fuel ih =>
    by_cases hk : m.nbuckets ≤ k
    · refine .inl ⟨listedFrom_end hk lists, ⟨bucketidx + 1, none⟩, ?_⟩
      rw [mapNextBucket, if_pos (by rw [hidx]; exact hk)]
    · obtain ⟨p, hp, hchain⟩ := h.bucket (Nat.lt_of_not_le hk)
      have hself : bucketidx + 1 = BitVec.ofNat 64 k := by
        rw [← hidx, BitVec.ofNat_toNat, BitVec.setWidth_eq]
      rw [mapNextBucket, if_neg (by rw [hidx]; exact hk), hidx, hp,
        listedFrom_step (Nat.lt_of_not_le hk)]
      cases hl : lists k with
      | nil =>
        rw [hl] at hchain
        cases hchain
        have hnext : (bucketidx + 1 + 1).toNat = k + 1 := by
          rw [BitVec.toNat_add, hidx]
          have hone : (1 : BitVec 64).toNat = 1 := rfl
          rw [hone, Nat.mod_eq_of_lt (by omega)]
        exact ih hnext (by omega)
      | cons a post =>
        rw [hl] at hchain
        obtain ⟨rfl, r, hr, _⟩ := hchain
        obtain ⟨node, hnode, _⟩ := MapBase.heap_of_next hr
        refine .inr ⟨k, a, post, node, Nat.lt_of_not_le hk, hl, hnode, rfl, ?_⟩
        simp only [Option.bind_eq_bind, Option.bind_some, hnode, hself]

/-- The nodes that the iterator has still to visit. -/
def Remaining (m : MapBase V) (lists : ℕ → List Addr) (iter : MapIter) (rest : List Addr) : Prop :=
  (iter = mapIter ∧ rest = listed m.nbuckets lists) ∨
    ∃ i pre a post, iter = ⟨BitVec.ofNat 64 i, some a⟩ ∧ i < m.nbuckets ∧
      lists i = pre ++ a :: post ∧ rest = post ++ listedFrom m.nbuckets lists (i + 1)

theorem mapNext_spec {m : MapBase V} {lists : ℕ → List Addr} (h : Linked m lists)
    (hsmall : m.nbuckets < 2^64) {fuel : ℕ} (hfuel : m.nbuckets < fuel) {iter : MapIter}
    {rest : List Addr} (H : Remaining m lists iter rest) :
    (rest = [] ∧ ∃ iter', mapNext fuel m iter = some (iter', none)) ∨
    ∃ a node iter' rest', rest = a :: rest' ∧ m.heap a = some node ∧
      mapNext fuel m iter = some (iter', some node.key) ∧ Remaining m lists iter' rest' := by
  -- both branches of `map_next_` that leave a list go on to the bucket `k`
  have hbucket (bucketidx : BitVec 64) (k : ℕ) (hidx : (bucketidx + 1).toNat = k)
      (hnext : mapNext fuel m iter = mapNextBucket m fuel bucketidx)
      (hrest : rest = listedFrom m.nbuckets lists k) :
      (rest = [] ∧ ∃ iter', mapNext fuel m iter = some (iter', none)) ∨
      ∃ a node iter' rest', rest = a :: rest' ∧ m.heap a = some node ∧
        mapNext fuel m iter = some (iter', some node.key) ∧ Remaining m lists iter' rest' := by
    have hleft : m.nbuckets - k < fuel := by omega
    rw [hnext, hrest]
    rcases mapNextBucket_spec h hsmall hidx hleft with
      hnone | ⟨i, a, post, node, hi, hlist, hnode, hfrom, hrun⟩
    · exact .inl hnone
    · exact .inr ⟨a, node, _, _, hfrom, hnode, hrun, .inr ⟨i, [], a, post, rfl, hi, hlist, rfl⟩⟩
  rcases H with ⟨rfl, rfl⟩ | ⟨i, pre, a, post, rfl, hi, hlist, rfl⟩
  · exact hbucket (-1) 0 rfl rfl (listedFrom_zero _ _).symm
  · obtain ⟨p, _, hchain⟩ := h.bucket hi
    rw [hlist] at hchain
    obtain ⟨_, _, _, r, hr, hpost⟩ := segment_append.mp hchain
    obtain ⟨node, hnode, rfl⟩ := MapBase.heap_of_next hr
    cases post with
    | nil =>
      have hlink : node.next = none := hpost
      refine hbucket (BitVec.ofNat 64 i) (i + 1) ?_ ?_ rfl
      · have hone : (1 : BitVec 64).toNat = 1 := rfl
        rw [BitVec.toNat_add, BitVec.toNat_ofNat, hone]
        omega
      · rw [mapNext]
        simp only [hnode, Option.bind_eq_bind, Option.bind_some, hlink]
    | cons b post =>
      obtain ⟨hlink, s, hs, _⟩ := hpost
      obtain ⟨node', hnode', _⟩ := MapBase.heap_of_next hs
      refine .inr ⟨b, node', _, _, rfl, hnode', ?_, .inr ⟨i, pre ++ [a], b, post, rfl, hi, ?_, rfl⟩⟩
      · rw [mapNext]
        simp only [hnode, Option.bind_eq_bind, Option.bind_some, hlink, hnode']
      · rw [hlist, List.append_assoc]
        rfl

/-- The keys of the nodes. -/
def MapBase.keysOf (m : MapBase V) (l : List Addr) : List CString :=
  l.filterMap fun a => (m.heap a).map MapNode.key

theorem mapKeys_spec {m : MapBase V} {lists : ℕ → List Addr} (h : Linked m lists)
    (hsmall : m.nbuckets < 2^64) {fuel turns : ℕ} (hfuel : m.nbuckets < fuel) {iter : MapIter}
    {rest : List Addr} (H : Remaining m lists iter rest) (hturns : rest.length < turns) :
    mapKeys fuel m turns iter = some (m.keysOf rest) := by
  induction turns generalizing iter rest with
  | zero => cases hturns
  | succ turns ih =>
    rcases mapNext_spec h hsmall hfuel H with
      ⟨rfl, iter', hrun⟩ | ⟨a, node, iter', rest', rfl, hnode, hrun, H'⟩
    · rw [mapKeys, hrun]
      rfl
    · have hrest := ih H' (Nat.lt_of_succ_lt_succ hturns)
      rw [mapKeys, hrun]
      simp only [Option.bind_eq_bind, Option.bind_some, hrest, Option.map_some]
      rw [MapBase.keysOf, MapBase.keysOf, List.filterMap_cons, hnode]
      rfl

/-- Going over a valid table: every key once. -/
theorem Valid.iterates {m : MapBase V} {lists : ℕ → List Addr} {d : Dict V} (h : Valid m lists)
    (H : m.Models d) (hsmall : m.nbuckets < 2^64) {fuel turns : ℕ} (hfuel : m.nbuckets < fuel)
    (hturns : m.nnodes < turns) :
    ∃ keys, mapKeys fuel m turns mapIter = some keys ∧ keys.Nodup ∧
      ∀ key, key ∈ keys ↔ d key ≠ none := by
  refine ⟨_, mapKeys_spec h.toLinked hsmall hfuel (.inl ⟨rfl, rfl⟩) (by rw [← h.count]; exact hturns),
    ?_, fun key => ?_⟩
  · refine h.listed_nodup.filterMap fun a b key ha hb => ?_
    obtain ⟨node, hnode, rfl⟩ := Option.map_eq_some_iff.mp ha
    obtain ⟨node', hnode', hkey⟩ := Option.map_eq_some_iff.mp hb
    exact h.keys a b node node' hnode hnode' hkey.symm
  · rw [MapBase.keysOf, List.mem_filterMap, ne_eq, H.none_iff h]
    push Not
    constructor
    · rintro ⟨a, _, ha⟩
      obtain ⟨node, hnode, hkey⟩ := Option.map_eq_some_iff.mp ha
      exact ⟨a, node, hnode, hkey⟩
    · rintro ⟨a, node, hnode, hkey⟩
      refine ⟨a, h.owned a node hnode, ?_⟩
      rw [hnode, Option.map_some, hkey]

/-! ## Freeing -/

theorem mapFreeList_spec {fuel : ℕ} {m : MapBase V} {p : Option Addr} {l : List Addr}
    (hl : Chain m.next p l) (hfuel : l.length ≤ fuel) :
    ∃ m', mapFreeList fuel m p = some m' ∧ m'.buckets = m.buckets ∧
      (∀ a ∈ l, m'.heap a = none) ∧ ∀ a, a ∉ l → m'.heap a = m.heap a := by
  induction l generalizing fuel m p with
  | nil =>
    cases hl
    exact ⟨m, by rw [mapFreeList], rfl, fun _ ha => (List.not_mem_nil ha).elim, fun _ _ => rfl⟩
  | cons a l ih =>
    obtain ⟨rfl, r, hr, hrest⟩ := hl
    obtain ⟨node, hnode, rfl⟩ := MapBase.heap_of_next hr
    cases fuel with
    | zero => cases hfuel
    | succ fuel =>
      have ha : a ∉ l := (List.nodup_cons.mp (Chain.nodup (.cons hr hrest))).1
      have hrest' : Chain (m.setNode a none).next node.next l := by
        refine Chain.congr hrest fun b hb => MapBase.setNode_next_ne _ ?_
        rintro rfl
        exact ha hb
      obtain ⟨m', hrun, hbuckets, hfreed, hframe⟩ := ih hrest' (Nat.le_of_succ_le_succ hfuel)
      refine ⟨m', ?_, hbuckets, fun b hb => ?_, fun b hb => ?_⟩
      · rw [mapFreeList, hnode]
        exact hrun
      · rcases List.mem_cons.mp hb with rfl | hb
        · rw [hframe b ha, MapBase.setNode_heap]
        · exact hfreed b hb
      · rw [List.mem_cons, not_or] at hb
        rw [hframe b hb.2, MapBase.setNode_heap_ne _ hb.1]

theorem mapFreeAll_spec (fuel : ℕ) {n : ℕ} {m : MapBase V} {lists : ℕ → List Addr}
    (hn : n ≤ m.nbuckets) (hl : ∀ i < n, ∀ p, m.buckets[i]? = some p → Chain m.next p (lists i))
    (hapart : ∀ i < n, ∀ j < n, i ≠ j → ∀ a ∈ lists i, a ∉ lists j)
    (hfuel : ∀ i < n, (lists i).length ≤ fuel) :
    ∃ m', mapFreeAll fuel n m = some m' ∧ (∀ a ∈ listed n lists, m'.heap a = none) ∧
      ∀ a, a ∉ listed n lists → m'.heap a = m.heap a := by
  induction n generalizing m with
  | zero => exact ⟨m, rfl, fun _ ha => (List.not_mem_nil ha).elim, fun _ _ => rfl⟩
  | succ n ih =>
    have hbucket : m.buckets[n]? = some (m.buckets.get ⟨n, hn⟩) := List.getElem?_eq_getElem hn
    obtain ⟨m₁, hrun₁, hbuckets₁, hfreed₁, hframe₁⟩ := mapFreeList_spec
      (hl n (Nat.lt_succ_self n) _ hbucket) (hfuel n (Nat.lt_succ_self n))
    obtain ⟨m', hrun, hfreed, hframe⟩ := ih (m := m₁)
      (by rw [MapBase.nbuckets, hbuckets₁]; exact Nat.le_of_succ_le hn)
      (by
        intro i hi p hp
        rw [hbuckets₁] at hp
        refine (hl i (by omega) p hp).congr fun a ha => ?_
        rw [MapBase.next, hframe₁ a (hapart i (by omega) n (Nat.lt_succ_self n) (by omega) a ha),
          MapBase.next])
      (fun i hi j hj => hapart i (by omega) j (by omega)) (fun i hi => hfuel i (by omega))
    refine ⟨m', ?_, fun a ha => ?_, fun a ha => ?_⟩
    · rw [mapFreeAll, hbucket]
      simp only [Option.bind_eq_bind, Option.bind_some, hrun₁]
      exact hrun
    · by_cases hin : a ∈ listed n lists
      · exact hfreed a hin
      · rw [listed_succ, List.mem_append] at ha
        rw [hframe a hin]
        exact hfreed₁ a (ha.resolve_left hin)
    · rw [listed_succ, List.mem_append, not_or] at ha
      rw [hframe a ha.1, hframe₁ a ha.2]

/-- Freeing a valid table leaves no node. -/
theorem Valid.deinit {m : MapBase V} {lists : ℕ → List Addr} (h : Valid m lists) {fuel : ℕ}
    (hfuel : m.nnodes < fuel) : mapDeinit fuel m = some fun _ => none := by
  obtain ⟨m', hrun, hfreed, hframe⟩ := mapFreeAll_spec fuel (Nat.le_refl _)
    (fun i _ => h.chain i)
    (fun i _ j _ hij a hi hj => hij ((h.placed i a hi).symm.trans (h.placed j a hj)))
    (fun i _ => (h.length_lt hfuel i).le)
  rw [mapDeinit, hrun, Option.map_some, Option.some.injEq]
  funext a
  by_cases ha : a ∈ listed m.nbuckets lists
  · exact hfreed a ha
  · rw [hframe a ha, Option.eq_none_iff_forall_ne_some]
    exact fun node hnode => ha (h.owned a node hnode)

/-! ## Every history -/

/-- Any history of calls on a new table, whatever the allocator grants: no pointer is followed that
leads nowhere, every answer is that of the dictionary, the table stays valid, and freeing it frees
every node once. -/
theorem mapRun_refines (calls : List (MapCall V)) {fuel : ℕ} (hfuel : calls.length < fuel)
    (hfresh : freshRun fuel {} calls = true) :
    ∃ m answers d, mapRun fuel {} calls = some (m, answers) ∧
      DictRun (fun _ => none) calls answers d ∧ m.Models d ∧ (∃ lists, Valid m lists) ∧
      mapDeinit fuel m = some fun _ => none := by
  have hinit : ({} : MapBase V).nnodes = 0 := rfl
  obtain ⟨m, answers, d, lists, hrun, hvalid, H, hle, hdict⟩ :=
    mapRun_of_valid valid_init models_init calls (by omega) hfresh
  exact ⟨m, answers, d, hrun, hdict, H, ⟨lists, hvalid⟩, hvalid.deinit (by omega)⟩

/-- After any history the iterator sees the keys of the dictionary, each of them once, if the array
of buckets is no larger than an index can tell. -/
theorem mapRun_iterates (calls : List (MapCall V)) {fuel : ℕ} (hfuel : calls.length < fuel)
    (hfresh : freshRun fuel {} calls = true) :
    ∃ m answers d, mapRun fuel {} calls = some (m, answers) ∧
      DictRun (fun _ => none) calls answers d ∧
      (m.nbuckets < 2^64 → ∀ fuel' turns, m.nbuckets < fuel' → m.nnodes < turns →
        ∃ keys, mapKeys fuel' m turns mapIter = some keys ∧ keys.Nodup ∧
          ∀ key, key ∈ keys ↔ d key ≠ none) := by
  have hinit : ({} : MapBase V).nnodes = 0 := rfl
  obtain ⟨m, answers, d, lists, hrun, hvalid, H, _, hdict⟩ :=
    mapRun_of_valid valid_init models_init calls (by omega) hfresh
  exact ⟨m, answers, d, hrun, hdict, fun hsmall fuel' turns hfuel' hturns =>
    hvalid.iterates H hsmall hfuel' hturns⟩

end

theorem mapRun_refines_calls : ∃ m answers d,
    mapRun 9 {} (someCalls ++ moreCalls) = some (m, answers) ∧
      DictRun (fun _ => none) (someCalls ++ moreCalls) answers d ∧ m.Models d ∧
      (∃ lists, Valid m lists) ∧ mapDeinit 9 m = some fun _ => none :=
  mapRun_refines (someCalls ++ moreCalls) (by decide) (by decide)

theorem mapRun_iterates_calls : ∃ m answers d,
    mapRun 9 {} (someCalls ++ moreCalls) = some (m, answers) ∧
      DictRun (fun _ => none) (someCalls ++ moreCalls) answers d ∧
      (m.nbuckets < 2^64 → ∀ fuel' turns, m.nbuckets < fuel' → m.nnodes < turns →
        ∃ keys, mapKeys fuel' m turns mapIter = some keys ∧ keys.Nodup ∧
          ∀ key, key ∈ keys ↔ d key ≠ none) :=
  mapRun_iterates (someCalls ++ moreCalls) (by decide) (by decide)

end Bfcomp
