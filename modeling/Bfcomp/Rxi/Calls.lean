import Bfcomp.Rxi.Valid

/-! # Histories of a hash table

Seen from outside the table is a dictionary that also fixes where each value lies: a value that is
set again stays at its place, and a pointer that `map_get_` returned is good until its key is
removed, however often the table grows. A call whose allocation is refused changes nothing. -/

namespace Bfcomp
set_option autoImplicit false

section
variable {V : Type}

/-- A call, with what the allocator answers to it: the address of a node, and whether a new array
of buckets is granted. -/
inductive MapCall (V : Type) where
  | set (key : CString) (value : V) (node : Option Addr) (grown : Bool)
  | remove (key : CString)
  | get (key : CString)

/-- What a call returns: an error code, nothing, or a pointer to a value. -/
inductive MapAnswer where
  | err (code : BitVec 64)
  | done
  | found (a : Option Addr)

def MapCall.run (fuel : ℕ) (m : MapBase V) : MapCall V → Option (MapBase V × MapAnswer)
  | set key value node grown => (mapSet fuel m key value node grown).map fun r => (r.1, .err r.2)
  | remove key => (mapRemove fuel m key).map fun m => (m, .done)
  | get key => (mapGet fuel m key).map fun a => (m, .found a)

/-- The allocator gives no address that is in use. -/
def MapCall.fresh (m : MapBase V) : MapCall V → Bool
  | set _ _ (some a) _ => (m.heap a).isNone
  | _ => true

def mapRun (fuel : ℕ) : MapBase V → List (MapCall V) → Option (MapBase V × List MapAnswer)
  | m, [] => some (m, [])
  | m, call :: calls => do
    let (m, answer) ← call.run fuel m
    (mapRun fuel m calls).map fun r => (r.1, answer :: r.2)

/-- In the whole history the allocator gives no address that is in use at the time. -/
def freshRun (fuel : ℕ) : MapBase V → List (MapCall V) → Bool
  | _, [] => true
  | m, call :: calls => call.fresh m &&
    match call.run fuel m with
    | none => true
    | some r => freshRun fuel r.1 calls

theorem MapCall.fresh_set {m : MapBase V} {key : CString} {value : V} {node : Option Addr}
    {grown : Bool} (h : (MapCall.set key value node grown).fresh m = true) :
    ∀ a, node = some a → m.heap a = none := by
  rintro a rfl
  exact Option.isNone_iff_eq_none.mp h

theorem freshRun_cons {fuel : ℕ} {m m' : MapBase V} {call : MapCall V} {calls : List (MapCall V)}
    {answer : MapAnswer} (hrun : call.run fuel m = some (m', answer))
    (h : freshRun fuel m (call :: calls) = true) :
    call.fresh m = true ∧ freshRun fuel m' calls = true := by
  rw [freshRun, hrun, Bool.and_eq_true] at h
  exact h

theorem freshRun_front {fuel : ℕ} {m : MapBase V} {calls calls' : List (MapCall V)}
    (h : freshRun fuel m (calls ++ calls') = true) : freshRun fuel m calls = true := by
  induction calls generalizing m with
  | nil => rfl
  | cons call calls ih =>
    rw [List.cons_append, freshRun, Bool.and_eq_true] at h
    rw [freshRun, Bool.and_eq_true]
    refine ⟨h.1, ?_⟩
    cases hrun : call.run fuel m with
    | none => rfl
    | some r =>
      rw [hrun] at h
      exact ih h.2

theorem freshRun_rest {fuel : ℕ} {m m' : MapBase V} {calls calls' : List (MapCall V)}
    {answers : List MapAnswer} (hrun : mapRun fuel m calls = some (m', answers))
    (h : freshRun fuel m (calls ++ calls') = true) : freshRun fuel m' calls' = true := by
  induction calls generalizing m answers with
  | nil =>
    cases hrun
    exact h
  | cons call calls ih =>
    rw [mapRun] at hrun
    obtain ⟨⟨m₁, answer⟩, hrun₁, hrest⟩ := Option.bind_eq_some_iff.mp hrun
    obtain ⟨⟨m₂, answers₂⟩, hrun₂, heq⟩ := Option.map_eq_some_iff.mp hrest
    cases heq
    exact ih hrun₂ (freshRun_cons hrun₁ h).2

/-! ## The dictionary -/

/-- The value of a key, and the address of the node that holds it. -/
abbrev Dict (V : Type) := CString → Option (Addr × V)

inductive DictStep : Dict V → MapCall V → MapAnswer → Dict V → Prop
  | replaced {d : Dict V} {key : CString} {a : Addr} {old value : V} {node : Option Addr}
      {grown : Bool} (h : d key = some (a, old)) :
      DictStep d (.set key value node grown) (.err 0) (Function.update d key (some (a, value)))
  | added {d : Dict V} {key : CString} {a : Addr} {value : V} {grown : Bool} (h : d key = none) :
      DictStep d (.set key value (some a) grown) (.err 0) (Function.update d key (some (a, value)))
  | refused {d : Dict V} {key : CString} {value : V} {node : Option Addr} {grown : Bool}
      (h : d key = none) (hrefused : node = none ∨ grown = false) :
      DictStep d (.set key value node grown) (.err (-1)) d
  | removed {d : Dict V} {key : CString} :
      DictStep d (.remove key) .done (Function.update d key none)
  | got {d : Dict V} {key : CString} :
      DictStep d (.get key) (.found ((d key).map Prod.fst)) d

inductive DictRun : Dict V → List (MapCall V) → List MapAnswer → Dict V → Prop
  | nil {d : Dict V} : DictRun d [] [] d
  | cons {d d' d'' : Dict V} {call : MapCall V} {calls : List (MapCall V)} {answer : MapAnswer}
      {answers : List MapAnswer} (h : DictStep d call answer d') (hs : DictRun d' calls answers d'') :
      DictRun d (call :: calls) (answer :: answers) d''

/-- The nodes of the table hold the dictionary. -/
def MapBase.Models (m : MapBase V) (d : Dict V) : Prop :=
  ∀ key a v, d key = some (a, v) ↔ m.content a = some (keyHash key, key, v)

namespace MapBase.Models
variable {m m' : MapBase V} {d : Dict V} {lists : ℕ → List Addr} {key : CString} {a : Addr}

theorem none_iff (H : m.Models d) (h : Valid m lists) : d key = none ↔ ∀ a, ¬ m.At key a := by
  constructor
  · rintro hnone a ⟨node, ha, rfl⟩
    have hc := content_of_heap ha
    rw [h.hashed a node ha, ← H, hnone] at hc
    cases hc
  · intro hnone
    rw [Option.eq_none_iff_forall_ne_some]
    rintro ⟨a, v⟩ hsome
    obtain ⟨next, ha⟩ := heap_of_content ((H key a v).mp hsome)
    exact hnone a ⟨_, ha, rfl⟩

theorem some_of_at (H : m.Models d) (h : Valid m lists) (ha : m.At key a) :
    ∃ v, d key = some (a, v) := by
  obtain ⟨node, ha, rfl⟩ := ha
  have hc := content_of_heap ha
  rw [h.hashed a node ha] at hc
  exact ⟨node.value, (H node.key a node.value).mpr hc⟩

/-- The node at `a` is that of `key`, or a new one. -/
theorem update (H : m.Models d) (ha : m.At key a ∨ m.heap a = none)
    (hkey : ∀ b, m.At key b → b = a) (value : V)
    (hcontent : m'.content = Function.update m.content a (some (keyHash key, key, value))) :
    m'.Models (Function.update d key (some (a, value))) := by
  intro key' b v
  rw [hcontent]
  by_cases hk : key' = key
  · subst hk
    rw [Function.update_self]
    by_cases hb : b = a
    · subst hb
      rw [Function.update_self, Option.some.injEq, Prod.mk.injEq, Option.some.injEq,
        Prod.mk.injEq, Prod.mk.injEq]
      exact ⟨fun heq => ⟨rfl, rfl, heq.2⟩, fun heq => ⟨rfl, heq.2.2⟩⟩
    · rw [Function.update_of_ne hb]
      constructor
      · intro heq
        cases heq
        exact (hb rfl).elim
      · intro hc
        obtain ⟨next, hb'⟩ := heap_of_content hc
        exact (hb (hkey b ⟨_, hb', rfl⟩)).elim
  · rw [Function.update_of_ne hk, H]
    by_cases hb : b = a
    · subst hb
      rw [Function.update_self]
      constructor
      · intro hc
        obtain ⟨next, hb'⟩ := heap_of_content hc
        rcases ha with ⟨node, ha, hnode⟩ | ha
        · rw [ha, Option.some.injEq] at hb'
          rw [hb'] at hnode
          exact (hk hnode).elim
        · rw [ha] at hb'
          cases hb'
      · intro heq
        rw [Option.some.injEq, Prod.mk.injEq, Prod.mk.injEq] at heq
        exact (hk heq.2.1.symm).elim
    · rw [Function.update_of_ne hb]

theorem erase (H : m.Models d) (h : Valid m lists) (ha : m.At key a)
    (hcontent : m'.content = Function.update m.content a none) :
    m'.Models (Function.update d key none) := by
  obtain ⟨node, ha, rfl⟩ := ha
  intro key' b v
  rw [hcontent]
  by_cases hk : key' = node.key
  · subst hk
    rw [Function.update_self]
    by_cases hb : b = a
    · subst hb
      rw [Function.update_self]
      simp
    · rw [Function.update_of_ne hb]
      constructor
      · intro heq
        cases heq
      · intro hc
        obtain ⟨next, hb'⟩ := heap_of_content hc
        exact (hb (h.keys b a _ _ hb' ha rfl)).elim
  · rw [Function.update_of_ne hk, H]
    by_cases hb : b = a
    · subst hb
      rw [Function.update_self, content_of_heap ha]
      constructor
      · intro heq
        rw [Option.some.injEq, Prod.mk.injEq, Prod.mk.injEq] at heq
        exact (hk heq.2.1.symm).elim
      · intro heq
        cases heq
    · rw [Function.update_of_ne hb]

end MapBase.Models

theorem Valid.get_eq {m : MapBase V} {lists : ℕ → List Addr} {d : Dict V} {fuel : ℕ}
    (h : Valid m lists) (H : m.Models d) (hfuel : m.nnodes < fuel) (key : CString) :
    mapGet fuel m key = some ((d key).map Prod.fst) := by
  rcases h.get hfuel key with ⟨a, hat, hrun⟩ | ⟨hrun, hnone⟩
  · obtain ⟨v, hv⟩ := H.some_of_at h hat
    rw [hrun, hv]
    rfl
  · rw [hrun, (H.none_iff h).mpr hnone]
    rfl

/-! ## Every history -/

/-- One call: it runs to its end, keeps the table valid and answers as the dictionary does. -/
theorem MapCall.refines {m : MapBase V} {lists : ℕ → List Addr} {d : Dict V} {fuel : ℕ}
    (h : Valid m lists) (H : m.Models d) (hfuel : m.nnodes < fuel) (call : MapCall V)
    (hfresh : call.fresh m = true) :
    ∃ m' answer d' lists', call.run fuel m = some (m', answer) ∧ Valid m' lists' ∧ m'.Models d' ∧
      m'.nnodes ≤ m.nnodes + 1 ∧ DictStep d call answer d' := by
  cases call with
  | set key value node grown =>
    obtain ⟨m', err, lists', hrun, hvalid, hle, hresult⟩ := h.set hfuel key value node grown
      (fresh_set hfresh)
    have hcall : MapCall.run fuel m (.set key value node grown) = some (m', .err err) := by
      rw [MapCall.run, hrun]
      rfl
    rcases hresult with ⟨rfl, a, hat | ⟨rfl, hnone⟩, hcontent⟩ | ⟨rfl, hrefused, hnone, hcontent⟩
    · obtain ⟨old, hold⟩ := H.some_of_at h hat
      refine ⟨m', _, _, lists', hcall, hvalid, H.update (.inl hat) ?_ value hcontent, hle,
        .replaced hold⟩
      rintro b ⟨node', hb, hkey'⟩
      obtain ⟨node, ha, hkey⟩ := hat
      exact h.keys b a _ _ hb ha (hkey'.trans hkey.symm)
    · exact ⟨m', _, _, lists', hcall, hvalid,
        H.update (.inr (fresh_set hfresh a rfl)) (fun b hb => (hnone b hb).elim) value hcontent, hle,
        .added ((H.none_iff h).mpr hnone)⟩
    · refine ⟨m', _, d, lists', hcall, hvalid, ?_, hle, .refused ((H.none_iff h).mpr hnone) hrefused⟩
      intro key' b v
      rw [hcontent]
      exact H key' b v
  | remove key =>
    obtain ⟨m', lists', hrun, hvalid, hle, hresult⟩ := h.remove hfuel key
    have hcall : MapCall.run fuel m (.remove key) = some (m', .done) := by
      rw [MapCall.run, hrun]
      rfl
    refine ⟨m', _, _, lists', hcall, hvalid, ?_, hle.trans (Nat.le_succ _), .removed⟩
    rcases hresult with ⟨a, hat, hcontent⟩ | ⟨hnone, rfl⟩
    · exact H.erase h hat hcontent
    · rw [← (H.none_iff h).mpr hnone, Function.update_eq_self]
      exact H
  | get key =>
    refine ⟨m, _, d, lists, ?_, h, H, Nat.le_succ _, .got⟩
    rw [MapCall.run, h.get_eq H hfuel key]
    rfl

/-- Any history of calls, however the allocator answers. -/
theorem mapRun_of_valid {m : MapBase V} {lists : ℕ → List Addr} {d : Dict V} {fuel : ℕ}
    (h : Valid m lists) (H : m.Models d) (calls : List (MapCall V))
    (hfuel : m.nnodes + calls.length < fuel) (hfresh : freshRun fuel m calls = true) :
    ∃ m' answers d' lists', mapRun fuel m calls = some (m', answers) ∧ Valid m' lists' ∧
      m'.Models d' ∧ m'.nnodes ≤ m.nnodes + calls.length ∧ DictRun d calls answers d' := by
  induction calls generalizing m lists d with
  | nil => exact ⟨m, [], d, lists, rfl, h, H, Nat.le_refl _, .nil⟩
  | cons call calls ih =>
    rw [List.length_cons] at hfuel
    have hfuel₀ : m.nnodes < fuel := by omega
    have hfirst : call.fresh m = true := by
      rw [freshRun, Bool.and_eq_true] at hfresh
      exact hfresh.1
    obtain ⟨m₁, answer, d₁, lists₁, hrun₁, hvalid₁, H₁, hle, hstep⟩ :=
      call.refines h H hfuel₀ hfirst
    have hfuel₁ : m₁.nnodes + calls.length < fuel := by omega
    obtain ⟨m', answers, d', lists', hrun, hvalid, H', hle', hrest⟩ :=
      ih hvalid₁ H₁ hfuel₁ (freshRun_cons hrun₁ hfresh).2
    refine ⟨m', answer :: answers, d', lists', ?_, hvalid, H', ?_, .cons hstep hrest⟩
    · rw [mapRun, hrun₁]
      simp only [Option.bind_eq_bind, Option.bind_some, hrun, Option.map_some]
    · rw [List.length_cons]
      omega

theorem valid_init : Valid ({} : MapBase V) fun _ => [] where
  chain := by
    intro i p hp
    cases hp
  placed := by
    intro i a ha
    cases ha
  inside := fun _ _ => rfl
  owned := by
    intro a node ha
    cases ha
  hashed := by
    intro a node ha
    cases ha
  keys := by
    intro a b node node' ha
    cases ha
  count := rfl
  size := .inl rfl
  room := Nat.le_refl _

theorem models_init : ({} : MapBase V).Models fun _ => none := by
  intro key a v
  constructor
  · intro h
    cases h
  · intro h
    cases h

/-! ## Pointers -/

/-- The value that the last call that sets the key gives it. -/
def lastSet (key : CString) (v : V) : List (MapCall V) → V
  | [] => v
  | .set key' value _ _ :: calls => lastSet key (if key' = key then value else v) calls
  | _ :: calls => lastSet key v calls

/-- A key that is in the dictionary stays there at its address until it is removed. -/
theorem DictRun.keeps {d d' : Dict V} {calls : List (MapCall V)} {answers : List MapAnswer}
    (h : DictRun d calls answers d') {key : CString} {a : Addr} {v : V} (hkey : d key = some (a, v))
    (hkept : .remove key ∉ calls) : d' key = some (a, lastSet key v calls) := by
  induction h generalizing v with
  | nil => exact hkey
  | cons hstep _ ih =>
    rw [List.mem_cons, not_or] at hkept
    cases hstep with
    | @replaced key' b old value node grown hold =>
      refine ih ?_ hkept.2
      by_cases hk : key' = key
      · subst hk
        rw [hold, Option.some.injEq, Prod.mk.injEq] at hkey
        rw [Function.update_self, if_pos rfl, hkey.1]
      · rw [Function.update_of_ne (fun heq => hk heq.symm), if_neg hk]
        exact hkey
    | @added key' b value grown hnone =>
      have hk : key' ≠ key := by
        rintro rfl
        rw [hnone] at hkey
        cases hkey
      refine ih ?_ hkept.2
      rw [Function.update_of_ne (fun heq => hk heq.symm), if_neg hk]
      exact hkey
    | @refused key' value node grown hnone _ =>
      have hk : key' ≠ key := by
        rintro rfl
        rw [hnone] at hkey
        cases hkey
      refine ih ?_ hkept.2
      rw [if_neg hk]
      exact hkey
    | @removed key' =>
      have hk : key ≠ key' := by
        rintro rfl
        exact hkept.1 rfl
      refine ih ?_ hkept.2
      rw [Function.update_of_ne hk]
      exact hkey
    | got => exact ih hkey hkept.2

/-- A pointer that `map_get_` returned is returned again, and leads to the last value set, after
any calls that do not remove its key. -/
theorem mapRun_pointer (calls calls' : List (MapCall V)) {fuel : ℕ}
    (hfuel : (calls ++ calls').length < fuel) (hfresh : freshRun fuel {} (calls ++ calls') = true) :
    ∃ m answers m' answers', mapRun fuel {} calls = some (m, answers) ∧
      mapRun fuel m calls' = some (m', answers') ∧
      ∀ key a, mapGet fuel m key = some (some a) → .remove key ∉ calls' →
        mapGet fuel m' key = some (some a) ∧ ∃ node node', m.heap a = some node ∧
          m'.heap a = some node' ∧ node'.key = key ∧ node'.value = lastSet key node.value calls' := by
  rw [List.length_append] at hfuel
  have hinit : ({} : MapBase V).nnodes = 0 := rfl
  have hfuel₀ : ({} : MapBase V).nnodes + calls.length < fuel := by omega
  obtain ⟨m, answers, d, lists, hrun, hvalid, H, hle, _⟩ :=
    mapRun_of_valid valid_init models_init calls hfuel₀ (freshRun_front hfresh)
  have hfuel₁ : m.nnodes + calls'.length < fuel := by omega
  obtain ⟨m', answers', d', lists', hrun', hvalid', H', hle', hdict⟩ :=
    mapRun_of_valid hvalid H calls' hfuel₁ (freshRun_rest hrun hfresh)
  refine ⟨m, answers, m', answers', hrun, hrun', ?_⟩
  intro key a hget hkept
  have hfuel₂ : m.nnodes < fuel := by omega
  have hfuel₃ : m'.nnodes < fuel := by omega
  rw [hvalid.get_eq H hfuel₂, Option.some.injEq, Option.map_eq_some_iff] at hget
  obtain ⟨⟨b, v⟩, hv, rfl⟩ := hget
  have hv' := hdict.keeps hv hkept
  obtain ⟨next, hnode⟩ := MapBase.heap_of_content ((H key b v).mp hv)
  obtain ⟨next', hnode'⟩ := MapBase.heap_of_content ((H' key b _).mp hv')
  refine ⟨?_, _, _, hnode, hnode', rfl, rfl⟩
  rw [hvalid'.get_eq H' hfuel₃, hv']
  rfl

end

/-- Three keys, one of which is refused a node and one a larger array, and a value that is set
twice. -/
def someCalls : List (MapCall ℕ) :=
  [.set ⟨[1], by decide, by decide⟩ 10 (some 3) true, .set ⟨[2], by decide, by decide⟩ 20 none true,
    .set ⟨[2], by decide, by decide⟩ 21 (some 4) false, .set ⟨[1], by decide, by decide⟩ 11 none true]

/-- A key that makes the table grow, and another that is removed. -/
def moreCalls : List (MapCall ℕ) :=
  [.set ⟨[2], by decide, by decide⟩ 22 (some 4) true, .set ⟨[3], by decide, by decide⟩ 30 (some 5) true,
    .remove ⟨[2], by decide, by decide⟩]

theorem mapRun_pointer_calls :
    ∃ m answers m' answers', mapRun 9 {} someCalls = some (m, answers) ∧
      mapRun 9 m moreCalls = some (m', answers') ∧
      ∀ key a, mapGet 9 m key = some (some a) → .remove key ∉ moreCalls →
        mapGet 9 m' key = some (some a) ∧ ∃ node node', m.heap a = some node ∧
          m'.heap a = some node' ∧ node'.key = key ∧
          node'.value = lastSet key node.value moreCalls :=
  mapRun_pointer someCalls moreCalls (by decide) (by decide)

end Bfcomp
