import Bfcomp.Foundations.Realise
import Bfcomp.Frontend.Shape
import Bfcomp.Interpret.Machine

/-! # What the ops mean, and that the interpreter realises it

While the pointer stays on the tape, an IR means a structured program over the store: its pending
loops are no-ops, so the meaning of the context with segments `p₀ … pₖ` is that of
`p₀ ++ … ++ pₖ`. -/

namespace Bfcomp
set_option autoImplicit false

/-- The meaning of an op on a tape of `cap` cells; a move that leaves the tape is an error. -/
def Prim.act (cap : ℕ) : Prim → Store → Except Unit Store
  | tape n, s =>
    if 0 ≤ s.ptr + n ∧ s.ptr + n < cap then .ok { s with ptr := s.ptr + n } else .error ()
  | cell n, s => .ok (s.setCell (s.cell + BitVec.ofInt 8 n))
  | write n, s => .ok (Store.writeByte^[n.toNat] s)
  | read n, s => .ok (Store.readByte^[n.toNat] s)

def cellTest (s : Store) : Except Unit Bool := .ok (decide (s.cell ≠ 0))

theorem Prim.act_tape {cap : ℕ} {n : ℤ} {s t : Store} (h : (tape n).act cap s = .ok t) :
    (0 ≤ s.ptr + n ∧ s.ptr + n < cap) ∧ t = { s with ptr := s.ptr + n } := by
  simp only [act] at h
  split at h
  · cases h
    exact ⟨‹_›, rfl⟩
  · cases h

theorem Prim.act_onTape {cap : ℕ} {i : Prim} {s t : Store} (h : i.act cap s = .ok t)
    (hs : s.OnTape cap) : t.OnTape cap := by
  cases i with
  | tape n =>
    obtain ⟨hn, rfl⟩ := act_tape h
    exact hn
  | cell n =>
    cases h
    exact hs
  | write n =>
    cases h
    exact Store.writeByte_iterate_onTape hs _
  | read n =>
    cases h
    exact Store.readByte_iterate_onTape hs _

/-! ## Where the ops of a program lie -/

def OpAt (code : List IrOp) (i : Prim) (a b : ℕ) : Prop := code[a]? = some i.op ∧ b = a + 1

def LoopOpsAt (code : List IrOp) (a b c d : ℕ) : Prop :=
  a ≤ c ∧ code[a]? = some ⟨.loopStart, (c : ℤ) - a⟩ ∧ b = a + 1 ∧
    code[c]? = some ⟨.loopEnd, -((c : ℤ) - a)⟩ ∧ d = c + 1

def PendingAt (code : List IrOp) (a b b' : ℕ) : Prop :=
  code[a]? = some ⟨.loopStart, 0⟩ ∧ b = a + 1 ∧ b' = a + 1

/-- The interpreter is at op `a` with its pointer on the tape. -/
def AtOp (cap : ℕ) (a : ℕ) (s : Store) (c : Config) : Prop := c = ⟨a, s⟩ ∧ s.OnTape cap

/-- The op about to be dispatched moves the pointer off the tape. -/
def LeavesTape (code : List IrOp) (cap : ℕ) (c : Config) : Prop :=
  ∃ n, code[c.ip]? = some ⟨.tape, n⟩ ∧ ¬ (0 ≤ c.store.ptr + n ∧ c.store.ptr + n < cap)

section
variable {code : List IrOp} {cap : ℕ} {s t : Store}

theorem movePtr_of_onTape {sp n : ℤ} (hcap : cap < 2^63) (h : 0 ≤ sp + n ∧ sp + n < cap) :
    movePtr cap sp n = sp + n := by
  have hi : i64 (sp + n) = sp + n := i64_of_range (by omega) (by omega)
  have hu : u64 (sp + n) = sp + n := u64_of_range (by omega) (by omega)
  simp only [movePtr, hi, hu]
  rw [if_neg (by omega), if_neg (by omega)]

theorem interpretStep_prim (hcap : cap < 2^63) {i : Prim} {a : ℕ} (hop : code[a]? = some i.op)
    (hs : s.OnTape cap) (hact : i.act cap s = .ok t) :
    interpretStep code cap ⟨a, s⟩ = some ⟨a + 1, t⟩ := by
  cases i with
  | tape n =>
    obtain ⟨hn, rfl⟩ := Prim.act_tape hact
    simp only [interpretStep, hop, Prim.op, next]
    rw [movePtr_of_onTape hcap hn]
  | cell n =>
    cases hact
    simp [interpretStep, hop, Prim.op, next, hs]
  | write n =>
    cases hact
    simp [interpretStep, hop, Prim.op, next, hs]
  | read n =>
    cases hact
    simp [interpretStep, hop, Prim.op, next, hs]

theorem interpretStep_loopStart {a c : ℕ} (hac : a ≤ c)
    (hop : code[a]? = some ⟨.loopStart, (c : ℤ) - a⟩) (hs : s.OnTape cap) :
    interpretStep code cap ⟨a, s⟩ = some ⟨if s.cell = 0 then c + 1 else a + 1, s⟩ := by
  have hto : ((a : ℤ) + (c - a)).toNat = c := by omega
  simp only [interpretStep, hop, hs, if_true]
  split
  · rw [jump, if_pos (by simp), hto]
  · rfl

theorem interpretStep_loopEnd {a c : ℕ} (hop : code[c]? = some ⟨.loopEnd, -((c : ℤ) - a)⟩)
    (hs : s.OnTape cap) :
    interpretStep code cap ⟨c, s⟩ = some ⟨if s.cell = 0 then c + 1 else a + 1, s⟩ := by
  have hto : ((c : ℤ) + -(c - a)).toNat = a := by omega
  simp only [interpretStep, hop, hs, if_true]
  by_cases hz : s.cell = 0
  · rw [if_neg (not_not_intro hz), if_pos hz]
    rfl
  · rw [if_pos hz, if_neg hz, jump, if_pos (by simp), hto]

theorem cellTest_true (h : cellTest s = .ok true) : s.cell ≠ 0 := by
  simpa [cellTest] using h

theorem cellTest_false (h : cellTest s = .ok false) : s.cell = 0 := by
  simpa [cellTest] using h

/-- The interpreter realises the meaning of its ops. -/
theorem interpret_realises (code : List IrOp) {cap : ℕ} (hcap : cap < 2^63) :
    Realises (interpretStep code cap) (Prim.act cap) cellTest (OpAt code) (LoopOpsAt code)
      (PendingAt code) (AtOp cap) (LeavesTape code cap) where
  prim_ok := by
    rintro i a b s t m ⟨hop, rfl⟩ ⟨rfl, hs⟩ hact
    exact ⟨1, _, .single (interpretStep_prim hcap hop hs hact), rfl, Prim.act_onTape hact hs⟩
  prim_error := by
    rintro i a b s e m ⟨hop, rfl⟩ ⟨rfl, hs⟩ hact
    cases i with
    | tape n =>
      simp only [Prim.act] at hact
      split at hact
      · cases hact
      · exact ⟨n, hop, ‹_›⟩
    | cell n => cases hact
    | write n => cases hact
    | read n => cases hact
  open_error := fun _ _ h => by cases h
  close_error := fun _ _ h => by cases h
  enter := by
    rintro a b c d s m ⟨hac, hop, rfl, _, _⟩ ⟨rfl, hs⟩ ht
    refine ⟨1, _, Nat.le_refl 1, .single (interpretStep_loopStart hac hop hs), ?_, hs⟩
    rw [if_neg (cellTest_true ht)]
  skip := by
    rintro a b c d s m ⟨hac, hop, _, _, rfl⟩ ⟨rfl, hs⟩ ht
    refine ⟨1, _, .single (interpretStep_loopStart hac hop hs), ?_, hs⟩
    rw [if_pos (cellTest_false ht)]
  again := by
    rintro a b c d s m ⟨_, _, rfl, hop, _⟩ ⟨rfl, hs⟩ ht
    refine ⟨1, _, Nat.le_refl 1, .single (interpretStep_loopEnd hop hs), ?_, hs⟩
    rw [if_neg (cellTest_true ht)]
  leave := by
    rintro a b c d s m ⟨_, _, _, hop, rfl⟩ ⟨rfl, hs⟩ ht
    refine ⟨1, _, .single (interpretStep_loopEnd hop hs), ?_, hs⟩
    rw [if_pos (cellTest_false ht)]
  fork := by
    rintro a b b' s m ⟨hop, rfl, rfl⟩ ⟨rfl, hs⟩
    have hop' : code[a]? = some ⟨.loopStart, (a : ℤ) - a⟩ := by rw [hop, Int.sub_self]
    refine ⟨1, _, .single (interpretStep_loopStart (Nat.le_refl a) hop' hs), .inl ⟨?_, hs⟩⟩
    rw [ite_self]

end

/-! ## The layout of a whole context -/

theorem layout_flat (code : List IrOp) {p : Prog Prim} (pre post : List IrOp)
    (h : code = pre ++ flat p ++ post) :
    Layout (OpAt code) (LoopOpsAt code) (PendingAt code) p pre.length
      (· = pre.length + (flat p).length) := by
  induction p generalizing pre post with
  | nil => exact .nil (by simp)
  | prim i k ih =>
    have hk := ih (pre ++ [i.op]) post (by simp [h, flat])
    refine .prim (b := pre.length + 1) ⟨by simp [h, flat], rfl⟩ ?_
    have e : pre.length + (flat (.prim i k)).length = (pre ++ [i.op]).length + (flat k).length := by
      simp only [flat, List.length_append, List.length_cons, List.length_nil]
      omega
    rw [e]
    simpa using hk
  | loop b k ihb ihk =>
    have hb := ihb (pre ++ [⟨.loopStart, (flat b).length + 1⟩])
      (⟨.loopEnd, -((flat b).length + 1 : ℤ)⟩ :: flat k ++ post) (by simp [h, flat])
    have hk := ihk (pre ++ ⟨.loopStart, (flat b).length + 1⟩ :: flat b ++
      [⟨.loopEnd, -((flat b).length + 1 : ℤ)⟩]) post (by simp [h, flat])
    have ek : (pre ++ ⟨.loopStart, (flat b).length + 1⟩ :: flat b ++
        [⟨.loopEnd, -((flat b).length + 1 : ℤ)⟩] : List IrOp).length =
        pre.length + 1 + (flat b).length + 1 := by
      simp only [List.length_append, List.length_cons, List.length_nil]
      omega
    have e : pre.length + (flat (.loop b k)).length =
        pre.length + 1 + (flat b).length + 1 + (flat k).length := by
      simp only [flat, List.length_append, List.length_cons]
      omega
    have hdelta : ((pre.length + 1 + (flat b).length : ℕ) : ℤ) - pre.length =
        (flat b).length + 1 := by omega
    refine .loop (b := pre.length + 1) (c := pre.length + 1 + (flat b).length)
      (d := pre.length + 1 + (flat b).length + 1) ⟨by omega, ?_, rfl, ?_, rfl⟩ ?_ ?_
    · rw [hdelta]
      simp [h, flat]
    · rw [hdelta, h, flat]
      have hpos : pre.length + 1 + (flat b).length =
          (pre ++ ⟨.loopStart, (flat b).length + 1⟩ :: flat b).length := by
        simp only [List.length_append, List.length_cons]
        omega
      rw [hpos]
      simp
    · simpa using hb
    · rw [ek] at hk
      rw [e]
      exact hk

/-- The program that a context means: its pending loops do nothing. -/
def meaning (cur : Prog Prim) : List (Prog Prim) → Prog Prim
  | [] => cur
  | p :: ps => meaning p ps ++ cur

theorem layout_opened (code : List IrOp) (cur : Prog Prim) (outer : List (Prog Prim))
    (post : List IrOp) (h : code = opened outer ++ flat cur ++ post) :
    Layout (OpAt code) (LoopOpsAt code) (PendingAt code) (meaning cur outer) 0
      (· = (opened outer ++ flat cur).length) := by
  induction outer generalizing cur post with
  | nil =>
    have hflat := layout_flat code (p := cur) [] post (by simpa [opened] using h)
    simpa [opened, meaning] using hflat
  | cons p ps ih =>
    have hp := ih p (⟨.loopStart, 0⟩ :: flat cur ++ post) (by
      simp [h, opened])
    have hcur := layout_flat code (p := cur) (opened (p :: ps)) post h
    refine hp.append ?_
    rintro _ rfl
    have hlen : (opened (p :: ps)).length = (opened ps ++ flat p).length + 1 := by
      rw [opened, List.length_append, List.length_singleton]
    rw [hlen] at hcur
    have hat : code[(opened ps ++ flat p).length]? = some ⟨.loopStart, 0⟩ := by
      simp [h, opened]
    have hend : (opened (p :: ps) ++ flat cur).length =
        (opened ps ++ flat p).length + 1 + (flat cur).length := by
      rw [List.length_append, hlen]
    rw [hend]
    exact .fork ⟨hat, rfl, rfl⟩ hcur hcur

/-- The interpreter, started on a context, follows the context's meaning to the halt op. -/
theorem interpret_tracks {ctx : IrCtx} {cur : Prog Prim} {outer : List (Prog Prim)}
    (H : Represents ctx cur outer) {act : Prim → Store → Except Unit Store} {cap : ℕ}
    {Bad : Config → Prop}
    (R : Realises (interpretStep (patchHalt ctx) cap) act cellTest (OpAt (patchHalt ctx))
      (LoopOpsAt (patchHalt ctx)) (PendingAt (patchHalt ctx)) (AtOp cap) Bad) (n : ℕ)
    {s : Store} (hs : s.OnTape cap) :
    Tracks (interpretStep (patchHalt ctx) cap) (AtOp cap) Bad n ⟨0, s⟩
      (· = ctx.data.length) ((meaning cur outer).exec act cellTest n s) := by
  have hl := layout_opened (patchHalt ctx) cur outer [⟨.max, 0⟩] (by rw [patchHalt, H.data])
  rw [← H.data] at hl
  exact R.run hl n s ⟨0, s⟩ ⟨rfl, hs⟩

theorem halted_length (ctx : IrCtx) (s : Store) :
    Halted (patchHalt ctx) ⟨ctx.data.length, s⟩ := ⟨0, by simp [patchHalt]⟩

/-- The interpreter mirrors any executions, raising nothing, that the context's meaning refines. -/
theorem interpret_mirrors_of {ctx : IrCtx} {cur : Prog Prim} {outer : List (Prog Prim)}
    (H : Represents ctx cur outer) {act : Prim → Store → Except Unit Store} {cap : ℕ}
    {Bad : Config → Prop}
    (R : Realises (interpretStep (patchHalt ctx) cap) act cellTest (OpAt (patchHalt ctx))
      (LoopOpsAt (patchHalt ctx)) (PendingAt (patchHalt ctx)) (AtOp cap) Bad)
    {s : Store} (hs : s.OnTape cap) {ε : Type} {run : ℕ → Outcome ε Store}
    (hsafe : ∀ n, ¬ (run n).Raised)
    (hbelow : ∀ n, Below (run n) ((meaning cur outer).exec act cellTest n s)) :
    Mirrors (interpretStep (patchHalt ctx) cap) ⟨0, s⟩
      (fun s c => c.store = s ∧ Halted (patchHalt ctx) c) (fun s c => c.store = s) run := by
  have htracks : ∀ n, Tracks (interpretStep (patchHalt ctx) cap) (AtOp cap) Bad n ⟨0, s⟩
      (· = ctx.data.length) (run n) :=
    fun n => (interpret_tracks H R n hs).of_below (hsafe n) (hbelow n)
  refine .of_tracks htracks hsafe ?_ ?_
  · rintro a s c ⟨rfl, _⟩
    rfl
  · rintro a s c rfl ⟨rfl, _⟩
    exact ⟨0, _, .refl _, (halted_length ctx s).step_none, rfl, halted_length ctx s⟩

end Bfcomp
