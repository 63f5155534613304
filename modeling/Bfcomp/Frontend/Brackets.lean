import Bfcomp.Frontend.IrGen

/-! # The bracket invariant of the IR builder

The interpreter and the compiler follow the offsets of the loop ops blindly. `BracketInv` is what
the builder keeps after every call, also after one that reports an unmatched `]`. -/

namespace Bfcomp
set_option autoImplicit false

/-- The op at `i` opens a loop that the op at `j` closes. -/
def Matched (data : List IrOp) (i j : ℕ) : Prop :=
  ∃ d : ℤ, 1 ≤ d ∧ data[i]? = some ⟨.loopStart, d⟩ ∧ (j : ℤ) = i + d ∧
    data[j]? = some ⟨.loopEnd, -d⟩

structure BracketInv (ctx : IrCtx) : Prop where
  /-- Pending addresses strictly decrease from the top of the stack. -/
  decreasing : ctx.patch.Pairwise (· > ·)
  pending : ∀ a ∈ ctx.patch, ctx.data[a]? = some ⟨.loopStart, 0⟩
  start_matched : ∀ (i : ℕ) (d : ℤ), ctx.data[i]? = some ⟨.loopStart, d⟩ → i ∉ ctx.patch →
    ∃ j : ℕ, 1 ≤ d ∧ (j : ℤ) = i + d ∧ ctx.data[j]? = some ⟨.loopEnd, -d⟩
  end_matched : ∀ (j : ℕ) (d : ℤ), ctx.data[j]? = some ⟨.loopEnd, d⟩ → ∃! i, Matched ctx.data i j
  nested : ∀ i j i' j', Matched ctx.data i j → Matched ctx.data i' j' → i < i' → j < i' ∨ j' < j
  outside : ∀ a ∈ ctx.patch, ∀ i j, Matched ctx.data i j → ¬ (i < a ∧ a < j)
  /-- No two adjacent ops are both `CELL` or both `TAPE`. -/
  merged : ∀ (i : ℕ) (op op' : IrOp), ctx.data[i]? = some op → ctx.data[i + 1]? = some op' →
    op.kind = .cell ∨ op.kind = .tape → op.kind ≠ op'.kind

/-! ## Lookups after each kind of step -/

section Lookup
variable {data : List IrOp} {i : ℕ} {k : IrOpKind} {d : ℤ}

theorem lookup_snoc (op : IrOp) :
    (data ++ [op])[i]? = some ⟨k, d⟩ ↔
      data[i]? = some ⟨k, d⟩ ∨ i = data.length ∧ op = ⟨k, d⟩ := by
  rcases Nat.lt_trichotomy i data.length with h | h | h
  · rw [List.getElem?_append_left h]
    constructor
    · exact .inl
    · rintro (h' | ⟨h', _⟩)
      · exact h'
      · omega
  · subst h
    simp
  · rw [List.getElem?_eq_none (by simp; omega), List.getElem?_eq_none (by omega)]
    constructor
    · intro h'
      cases h'
    · rintro (h' | ⟨h', _⟩)
      · exact h'
      · omega

theorem lookup_set_snoc {addr : ℕ} (haddr : addr < data.length) (op op' : IrOp) :
    (data.set addr op ++ [op'])[i]? = some ⟨k, d⟩ ↔
      i ≠ addr ∧ data[i]? = some ⟨k, d⟩ ∨ i = addr ∧ op = ⟨k, d⟩ ∨
        i = data.length ∧ op' = ⟨k, d⟩ := by
  rw [lookup_snoc, List.length_set]
  by_cases hi : i = addr
  · subst hi
    have hlt : i ≠ data.length := by omega
    simp [List.getElem?_set_self haddr, hlt]
  · rw [List.getElem?_set_ne (Ne.symm hi)]
    simp [hi]

theorem lookup_lt (h : data[i]? = some ⟨k, d⟩) : i < data.length :=
  (List.getElem?_eq_some_iff.mp h).1

end Lookup

/-! ## Steps that touch no bracket -/

/-- Two op vectors with the same loop ops at the same places. -/
def SameLoops (data data' : List IrOp) : Prop :=
  ∀ (i : ℕ) (k : IrOpKind) (d : ℤ), k = .loopStart ∨ k = .loopEnd →
    (data'[i]? = some ⟨k, d⟩ ↔ data[i]? = some ⟨k, d⟩)

theorem SameLoops.matched {data data' : List IrOp} (h : SameLoops data data') (i j : ℕ) :
    Matched data' i j ↔ Matched data i j := by
  unfold Matched
  simp only [h _ _ _ (.inl rfl), h _ _ _ (.inr rfl)]

theorem BracketInv.same_loops {ctx : IrCtx} (H : BracketInv ctx) {data : List IrOp}
    (h : SameLoops ctx.data data)
    (hmerged : ∀ (i : ℕ) (op op' : IrOp), data[i]? = some op → data[i + 1]? = some op' →
      op.kind = .cell ∨ op.kind = .tape → op.kind ≠ op'.kind) :
    BracketInv { ctx with data := data } where
  decreasing := H.decreasing
  pending := fun a ha => (h a _ _ (.inl rfl)).mpr (H.pending a ha)
  start_matched := by
    intro i d hi hp
    obtain ⟨j, hd, hj, he⟩ := H.start_matched i d ((h i _ _ (.inl rfl)).mp hi) hp
    exact ⟨j, hd, hj, (h j _ _ (.inr rfl)).mpr he⟩
  end_matched := by
    intro j d hj
    simp only [h.matched]
    exact H.end_matched j d ((h j _ _ (.inr rfl)).mp hj)
  nested := by
    simp only [h.matched]
    exact H.nested
  outside := by
    simp only [h.matched]
    exact H.outside
  merged := hmerged

theorem merged_snoc {data : List IrOp} {op : IrOp}
    (H : ∀ (i : ℕ) (op op' : IrOp), data[i]? = some op → data[i + 1]? = some op' →
      op.kind = .cell ∨ op.kind = .tape → op.kind ≠ op'.kind)
    (hlast : op.kind = .cell ∨ op.kind = .tape →
      ∀ op', data.getLast? = some op' → op'.kind ≠ op.kind) :
    ∀ (i : ℕ) (op₁ op₂ : IrOp), (data ++ [op])[i]? = some op₁ → (data ++ [op])[i + 1]? = some op₂ →
      op₁.kind = .cell ∨ op₁.kind = .tape → op₁.kind ≠ op₂.kind := by
  intro i op₁ op₂ h₁ h₂ hk
  rw [lookup_snoc] at h₁ h₂
  rcases h₂ with h₂ | ⟨hi, rfl⟩
  · have hlt := lookup_lt h₂
    rcases h₁ with h₁ | ⟨hi, _⟩
    · exact H i op₁ op₂ h₁ h₂ hk
    · omega
  · rcases h₁ with h₁ | ⟨hi', _⟩
    · have hgl : data.getLast? = some op₁ := by
        rw [List.getLast?_eq_getElem?, ← hi, Nat.add_sub_cancel]
        exact h₁
      intro he
      exact hlast (he ▸ hk) op₁ hgl he
    · omega

theorem BracketInv.pushOp {ctx : IrCtx} (H : BracketInv ctx) {kind : IrOpKind} {v : ℤ}
    (hk : kind ≠ .loopStart ∧ kind ≠ .loopEnd)
    (hlast : kind = .cell ∨ kind = .tape →
      ∀ op, ctx.data.getLast? = some op → op.kind ≠ kind) :
    BracketInv (pushOp ctx kind v) := by
  refine H.same_loops ?_ (merged_snoc H.merged hlast)
  intro i k d hkd
  rw [lookup_snoc]
  constructor
  · rintro (h | ⟨_, h⟩)
    · exact h
    · cases h
      rcases hkd with rfl | rfl
      · exact (hk.1 rfl).elim
      · exact (hk.2 rfl).elim
  · exact .inl

theorem BracketInv.set_last {ctx : IrCtx} (H : BracketInv ctx) {init : List IrOp} {kind : IrOpKind}
    {a b : ℤ} (hk : kind ≠ .loopStart ∧ kind ≠ .loopEnd) (hdata : ctx.data = init ++ [⟨kind, a⟩]) :
    BracketInv { ctx with data := init ++ [⟨kind, b⟩] } := by
  refine H.same_loops ?_ ?_
  · intro i k d hkd
    rw [hdata, lookup_snoc, lookup_snoc]
    have hne : ∀ c : ℤ, (⟨kind, c⟩ : IrOp) ≠ ⟨k, d⟩ := by
      rintro c h
      cases h
      rcases hkd with rfl | rfl
      · exact hk.1 rfl
      · exact hk.2 rfl
    simp [hne]
  · -- the kinds at every index are those of the old vector
    intro i op₁ op₂ h₁ h₂
    have hkind : ∀ (j : ℕ) (op : IrOp), (init ++ [⟨kind, b⟩])[j]? = some op →
        ∃ op', ctx.data[j]? = some op' ∧ op'.kind = op.kind := by
      intro j op hop
      rw [lookup_snoc] at hop
      rw [hdata]
      rcases hop with hop | ⟨rfl, hop⟩
      · exact ⟨op, lookup_snoc _ |>.mpr (.inl hop), rfl⟩
      · exact ⟨⟨kind, a⟩, by simp, congrArg (·.kind) hop⟩
    obtain ⟨op₁', h₁', e₁⟩ := hkind i op₁ h₁
    obtain ⟨op₂', h₂', e₂⟩ := hkind (i + 1) op₂ h₂
    rw [← e₁, ← e₂]
    exact H.merged i op₁' op₂' h₁' h₂'

theorem BracketInv.coalesce {ctx : IrCtx} (H : BracketInv ctx) {kind : IrOpKind} {v : ℤ}
    (hk : kind = .cell ∨ kind = .tape) : BracketInv (coalesce ctx kind v) := by
  have hne : kind ≠ .loopStart ∧ kind ≠ .loopEnd := by
    rcases hk with rfl | rfl <;> exact ⟨nofun, nofun⟩
  rcases coalesce_cases ctx kind v with ⟨init, a, hdata, he⟩ | ⟨hlast, he⟩
  · rw [he]
    exact H.set_last hne hdata
  · rw [he]
    exact H.pushOp hne fun _ => hlast

/-! ## Brackets -/

theorem BracketInv.lt_length {ctx : IrCtx} (H : BracketInv ctx) {a : ℕ} (ha : a ∈ ctx.patch) :
    a < ctx.data.length := lookup_lt (H.pending a ha)

theorem matched_openLoop (ctx : IrCtx) (i j : ℕ) :
    Matched (openLoop ctx).data i j ↔ Matched ctx.data i j := by
  simp only [Matched, openLoop, lookup_snoc, IrOp.mk.injEq]
  constructor
  · rintro ⟨d, hd, hi | ⟨_, _, rfl⟩, hj, he | ⟨_, h, _⟩⟩
    · exact ⟨d, hd, hi, hj, he⟩
    · cases h
    · omega
    · omega
  · rintro ⟨d, hd, hi, hj, he⟩
    exact ⟨d, hd, .inl hi, hj, .inl he⟩

theorem BracketInv.openLoop {ctx : IrCtx} (H : BracketInv ctx) : BracketInv (openLoop ctx) where
  decreasing := List.pairwise_cons.mpr ⟨fun _ ha => H.lt_length ha, H.decreasing⟩
  pending := by
    intro a ha
    simp only [Bfcomp.openLoop, lookup_snoc]
    rcases List.mem_cons.mp ha with rfl | ha
    · exact .inr ⟨rfl, trivial⟩
    · exact .inl (H.pending a ha)
  start_matched := by
    intro i d hi hp
    simp only [Bfcomp.openLoop, lookup_snoc, List.mem_cons, not_or] at hi hp ⊢
    rcases hi with hi | ⟨hi, _⟩
    · obtain ⟨j, hd, hj, he⟩ := H.start_matched i d hi hp.2
      exact ⟨j, hd, hj, .inl he⟩
    · exact (hp.1 hi).elim
  end_matched := by
    intro j d hj
    simp only [matched_openLoop]
    simp only [Bfcomp.openLoop, lookup_snoc] at hj
    rcases hj with hj | ⟨_, h⟩
    · exact H.end_matched j d hj
    · cases h
  nested := by
    simp only [matched_openLoop]
    exact H.nested
  outside := by
    intro a ha i j hij
    rw [matched_openLoop] at hij
    rcases List.mem_cons.mp ha with rfl | ha
    · obtain ⟨d, _, _, _, he⟩ := hij
      have hlt := lookup_lt he
      omega
    · exact H.outside a ha i j hij
  merged := by
    refine merged_snoc H.merged ?_
    rintro (h | h) <;> cases h

section Close
variable {ctx : IrCtx} {addr : ℕ} {prev : List ℕ}

/-- Closing the innermost pending loop matches its two ends, and nothing else changes. -/
theorem matched_closeLoop (H : BracketInv ctx) (hpatch : ctx.patch = addr :: prev) (i j : ℕ) :
    Matched (closeLoop ctx addr prev).data i j ↔
      Matched ctx.data i j ∨ i = addr ∧ j = ctx.data.length := by
  have htop : addr ∈ ctx.patch := by simp [hpatch]
  have hlt := H.lt_length htop
  have hpend := H.pending addr htop
  simp only [Matched, closeLoop, lookup_set_snoc hlt, IrOp.mk.injEq]
  constructor
  · rintro ⟨d, hd, ⟨hi, hs⟩ | ⟨rfl, _, hdel⟩ | ⟨_, h, _⟩, hj, ⟨hja, he⟩ | ⟨_, h', _⟩ | ⟨rfl, _, hdel'⟩⟩
    · exact .inl ⟨d, hd, hs, hj, he⟩
    · cases h'
    · -- an old start cannot have the new end as its partner
      have hnot : i ∉ ctx.patch := by
        intro hmem
        have h0 := H.pending i hmem
        rw [hs] at h0
        cases h0
        omega
      obtain ⟨j', _, hj', he'⟩ := H.start_matched i d hs hnot
      have hlt' := lookup_lt he'
      omega
    · have hlt' := lookup_lt he
      omega
    · cases h'
    · exact .inr ⟨rfl, rfl⟩
    all_goals cases h
  · rintro (⟨d, hd, hs, hj, he⟩ | ⟨rfl, rfl⟩)
    · have hi : i ≠ addr := by
        rintro rfl
        rw [hpend] at hs
        cases hs
        omega
      have hja : j ≠ addr := by
        rintro rfl
        rw [hpend] at he
        cases he
      exact ⟨d, hd, .inl ⟨hi, hs⟩, hj, .inl ⟨hja, he⟩⟩
    · exact ⟨ctx.data.length - i, by omega, .inr (.inl ⟨rfl, trivial, rfl⟩), by omega,
        .inr (.inr ⟨rfl, trivial, rfl⟩)⟩

theorem BracketInv.before_pending (H : BracketInv ctx) {a i j : ℕ} (ha : a ∈ ctx.patch)
    (hij : Matched ctx.data i j) (hi : i < a) : j < a := by
  have hout := H.outside a ha i j hij
  obtain ⟨d, _, _, _, he⟩ := hij
  have hne : j ≠ a := by
    rintro rfl
    rw [H.pending j ha] at he
    cases he
  omega

theorem kind_set {data : List IrOp} {a j : ℕ} {k : IrOpKind} {d d' : ℤ} {op : IrOp}
    (ha : data[a]? = some ⟨k, d⟩) (hop : (data.set a ⟨k, d'⟩)[j]? = some op) :
    ∃ op', data[j]? = some op' ∧ op'.kind = op.kind := by
  by_cases hja : j = a
  · subst hja
    rw [List.getElem?_set_self (lookup_lt ha)] at hop
    cases hop
    exact ⟨_, ha, rfl⟩
  · rw [List.getElem?_set_ne (Ne.symm hja)] at hop
    exact ⟨op, hop, rfl⟩

theorem BracketInv.closeLoop (H : BracketInv ctx) (hpatch : ctx.patch = addr :: prev) :
    BracketInv (closeLoop ctx addr prev) := by
  have htop : addr ∈ ctx.patch := by simp [hpatch]
  have hlt := H.lt_length htop
  have hpend := H.pending addr htop
  have hdec := H.decreasing
  rw [hpatch, List.pairwise_cons] at hdec
  have hprev : ∀ a ∈ prev, a ∈ ctx.patch := fun a ha => by simp [hpatch, ha]
  refine ⟨hdec.2, ?_, ?_, ?_, ?_, ?_, ?_⟩
  · intro a ha
    have hgt := hdec.1 a ha
    exact (lookup_set_snoc hlt _ _).mpr (.inl ⟨by omega, H.pending a (hprev a ha)⟩)
  · intro i d hi hp
    rcases (lookup_set_snoc hlt _ _).mp hi with ⟨hia, hi⟩ | ⟨rfl, h⟩ | ⟨_, h⟩
    · have hnot : i ∉ ctx.patch := by
        rw [hpatch, List.mem_cons, not_or]
        exact ⟨hia, hp⟩
      obtain ⟨j, hd, hj, he⟩ := H.start_matched i d hi hnot
      have hja : j ≠ addr := by
        rintro rfl
        rw [hpend] at he
        cases he
      exact ⟨j, hd, hj, (lookup_set_snoc hlt _ _).mpr (.inl ⟨hja, he⟩)⟩
    · cases h
      exact ⟨ctx.data.length, by omega, by omega,
        (lookup_set_snoc hlt _ _).mpr (.inr (.inr ⟨rfl, rfl⟩))⟩
    · cases h
  · intro j d hj
    simp only [matched_closeLoop H hpatch]
    rcases (lookup_set_snoc hlt _ _).mp hj with ⟨_, hj⟩ | ⟨_, h⟩ | ⟨rfl, _⟩
    · obtain ⟨i, hi, huniq⟩ := H.end_matched j d hj
      have hjlt := lookup_lt hj
      refine ⟨i, .inl hi, ?_⟩
      rintro i' (hi' | ⟨_, rfl⟩)
      · exact huniq i' hi'
      · omega
    · cases h
    · refine ⟨addr, .inr ⟨rfl, rfl⟩, ?_⟩
      rintro i' (⟨d', _, _, _, he⟩ | ⟨rfl, _⟩)
      · have hjlt := lookup_lt he
        omega
      · rfl
  · intro i j i' j' hij hij' hii
    rw [matched_closeLoop H hpatch] at hij hij'
    rcases hij with hij | ⟨rfl, rfl⟩
    · rcases hij' with hij' | ⟨rfl, rfl⟩
      · exact H.nested i j i' j' hij hij' hii
      · exact .inl (H.before_pending htop hij hii)
    · rcases hij' with ⟨d, _, _, _, he⟩ | ⟨rfl, rfl⟩
      · exact .inr (lookup_lt he)
      · omega
  · intro a ha i j hij
    rw [matched_closeLoop H hpatch] at hij
    rcases hij with hij | ⟨rfl, rfl⟩
    · exact H.outside a (hprev a ha) i j hij
    · have hgt := hdec.1 a ha
      omega
  · refine merged_snoc ?_ (by rintro (h | h) <;> cases h)
    intro i op₁ op₂ h₁ h₂
    obtain ⟨op₁', h₁', e₁⟩ := kind_set hpend h₁
    obtain ⟨op₂', h₂', e₂⟩ := kind_set hpend h₂
    rw [← e₁, ← e₂]
    exact H.merged i op₁' op₂' h₁' h₂'

end Close

/-! ## The invariant over whole runs -/

theorem bracketInv_init : BracketInv {} := by
  constructor <;> simp [Matched]

/-- One accepted turn of the parse loop keeps the invariant. -/
theorem BracketInv.parseSwitch {ctx ctx' : IrCtx} {c : Byte} {count advance : ℕ}
    (H : BracketInv ctx) (h : parseSwitch ctx c count = some (ctx', advance)) :
    BracketInv ctx' := by
  rcases parseSwitch_cases h with ⟨kind, hk, rfl, _⟩ | ⟨kind, v, hk, _, rfl, _⟩ | ⟨rfl, _⟩ |
    ⟨addr, prev, hpatch, rfl, _⟩ | ⟨rfl, _⟩
  · refine H.pushOp ?_ ?_
    · rcases hk with rfl | rfl <;> exact ⟨nofun, nofun⟩
    · rcases hk with rfl | rfl <;> rintro (h | h) <;> cases h
  · exact H.coalesce hk
  · exact H.openLoop
  · exact H.closeLoop hpatch
  · exact H

/-- After any sequence of calls on any strings, whatever they returned, the bracket invariant
holds. -/
theorem parseCalls_bracketInv (calls : List CString) : BracketInv (parseCalls calls) :=
  parseCalls_invariant bracketInv_init (fun _ _ _ _ _ H _ _ h => H.parseSwitch h) calls

end Bfcomp
