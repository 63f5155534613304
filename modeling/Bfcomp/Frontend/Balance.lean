import Bfcomp.Frontend.IrGen

/-! # Balanced sources

The brackets of a source by themselves: how many are open after it, and that `irCtxParse` fails
exactly where a `]` closes nothing. -/

namespace Bfcomp
set_option autoImplicit false

/-- The number of loops open after a text, `d` being open before it; `none` where a `]` closes
nothing. -/
def openAfter : ℕ → List Byte → Option ℕ
  | d, [] => some d
  | d, c :: s =>
    if c = ascii '[' then openAfter (d + 1) s
    else if c = ascii ']' then
      if d = 0 then none else openAfter (d - 1) s
    else openAfter d s

/-- Every `]` closes an earlier `[` and every `[` is closed. -/
def Balanced (s : List Byte) : Prop := openAfter 0 s = some 0

instance (s : List Byte) : Decidable (Balanced s) := inferInstanceAs (Decidable (openAfter 0 s = some 0))

@[simp] theorem openAfter_nil (d : ℕ) : openAfter d [] = some d := rfl

@[simp] theorem openAfter_open (d : ℕ) (s : List Byte) :
    openAfter d (ascii '[' :: s) = openAfter (d + 1) s := by
  rw [openAfter, if_pos rfl]

@[simp] theorem openAfter_close_succ (d : ℕ) (s : List Byte) :
    openAfter (d + 1) (ascii ']' :: s) = openAfter d s := by
  rw [openAfter, if_neg (by decide), if_pos rfl, if_neg (Nat.succ_ne_zero d),
    Nat.add_sub_cancel]

@[simp] theorem openAfter_close_zero (s : List Byte) : openAfter 0 (ascii ']' :: s) = none := by
  rw [openAfter, if_neg (by decide), if_pos rfl, if_pos rfl]

theorem openAfter_other {c : Byte} (ho : c ≠ ascii '[') (hc : c ≠ ascii ']') (d : ℕ)
    (s : List Byte) : openAfter d (c :: s) = openAfter d s := by
  rw [openAfter, if_neg ho, if_neg hc]

theorem openAfter_replicate {c : Byte} (ho : c ≠ ascii '[') (hc : c ≠ ascii ']') (d n : ℕ)
    (s : List Byte) : openAfter d (List.replicate n c ++ s) = openAfter d s := by
  induction n with
  | zero => rfl
  | succ n ih => rw [List.replicate_succ, List.cons_append, openAfter_other ho hc, ih]

theorem openAfter_append (d : ℕ) (s t : List Byte) :
    openAfter d (s ++ t) = (openAfter d s).bind fun e => openAfter e t := by
  induction s generalizing d with
  | nil => rfl
  | cons c s ih =>
    rw [List.cons_append, openAfter, openAfter]
    split
    · exact ih (d + 1)
    split
    · split
      · rfl
      · exact ih (d - 1)
    · exact ih d

theorem openAfter_add {d e : ℕ} (k : ℕ) {s : List Byte} (h : openAfter d s = some e) :
    openAfter (d + k) s = some (e + k) := by
  induction s generalizing d with
  | nil =>
    cases h
    rfl
  | cons c s ih =>
    rw [openAfter] at h ⊢
    split
    · rw [if_pos ‹_›] at h
      have h' := ih h
      rwa [Nat.add_right_comm] at h'
    · rw [if_neg ‹_›] at h
      split
      · rw [if_pos ‹_›] at h
        split at h
        · cases h
        · have hpos : d + k - 1 = d - 1 + k := by omega
          rw [if_neg (by omega), hpos]
          exact ih h
      · rw [if_neg ‹_›] at h
        exact ih h

/-! ## The parser counts the same -/

/-- A turn of the parse loop consumes `advance` copies of its character. -/
theorem parseSwitch_advance {ctx ctx' : IrCtx} {c : Byte} {src : List Byte} {advance : ℕ}
    (h : parseSwitch ctx c (countChar (c :: src) c) = some (ctx', advance)) :
    1 ≤ advance ∧ c :: src = List.replicate advance c ++ src.drop (advance - 1) := by
  have hadvance : advance = countChar (c :: src) c ∨ advance = 1 := by
    rcases parseSwitch_cases h with ⟨_, _, _, ha⟩ | ⟨_, _, _, _, _, ha⟩ | ⟨_, ha⟩ |
      ⟨_, _, _, _, ha⟩ | ⟨_, ha⟩
    · exact .inl ha
    · exact .inl ha
    · exact .inr ha
    · exact .inr ha
    · exact .inl ha
  rcases hadvance with rfl | rfl
  · exact ⟨countChar_pos c src c, countChar_run c src⟩
  · exact ⟨Nat.le_refl 1, rfl⟩

theorem parseLoop_induct {P : IrCtx → List Byte → Prop} (hnil : ∀ ctx, P ctx [])
    (hturn : ∀ ctx c src ctx' advance,
      parseSwitch ctx c (countChar (c :: src) c) = some (ctx', advance) →
      P ctx' (src.drop (advance - 1)) → P ctx (c :: src))
    (hfail : ∀ ctx c src, parseSwitch ctx c (countChar (c :: src) c) = none → P ctx (c :: src))
    (ctx : IrCtx) (src : List Byte) : P ctx src := by
  induction hn : src.length using Nat.strong_induction_on generalizing ctx src with
  | _ n ih =>
    cases src with
    | nil => exact hnil ctx
    | cons c src =>
      cases hsw : parseSwitch ctx c (countChar (c :: src) c) with
      | none => exact hfail ctx c src hsw
      | some r =>
        rw [List.length_cons] at hn
        refine hturn ctx c src r.1 r.2 hsw (ih _ ?_ r.1 (src.drop (r.2 - 1)) rfl)
        rw [List.length_drop]
        omega

theorem parseSwitch_open (ctx : IrCtx) (n : ℕ) :
    parseSwitch ctx (ascii '[') n = some (openLoop ctx, 1) := by
  simp [parseSwitch, ascii]

theorem parseSwitch_close (ctx : IrCtx) (n : ℕ) :
    parseSwitch ctx (ascii ']') n =
      match ctx.patch with
      | addr :: prev => some (closeLoop ctx addr prev, 1)
      | [] => none := by
  simp only [parseSwitch, ascii]
  rfl

theorem coalesce_patch (ctx : IrCtx) (kind : IrOpKind) (v : ℤ) :
    (coalesce ctx kind v).patch = ctx.patch := by
  unfold coalesce
  split
  · split <;> rfl
  · rfl

theorem parseSwitch_other {c : Byte} (ho : c ≠ ascii '[') (hc : c ≠ ascii ']') (ctx : IrCtx)
    (n : ℕ) : ∃ ctx', parseSwitch ctx c n = some (ctx', n) ∧ ctx'.patch = ctx.patch := by
  unfold parseSwitch
  rw [if_neg ho, if_neg hc]
  split
  · exact ⟨_, rfl, rfl⟩
  split
  · exact ⟨_, rfl, rfl⟩
  split
  · exact ⟨_, rfl, coalesce_patch _ _ _⟩
  split
  · exact ⟨_, rfl, coalesce_patch _ _ _⟩
  split
  · exact ⟨_, rfl, coalesce_patch _ _ _⟩
  split
  · exact ⟨_, rfl, coalesce_patch _ _ _⟩
  exact ⟨ctx, rfl, rfl⟩

/-- What the parse loop reports, and the number of loops it leaves open. -/
theorem parseLoop_openAfter (ctx : IrCtx) (src : List Byte) :
    match openAfter ctx.patch.length src with
    | some d => (parseLoop ctx 0 src).status = 0 ∧ (parseLoop ctx 0 src).stderr = [] ∧
        (parseLoop ctx 0 src).ctx.patch.length = d
    | none => (parseLoop ctx 0 src).status = 1 ∧
        (parseLoop ctx 0 src).stderr = ["unmatched ']'"] := by
  induction ctx, src using parseLoop_induct with
  | hnil ctx => exact ⟨rfl, rfl, rfl⟩
  | hfail ctx c src hsw =>
    rw [parseLoop_unmatched hsw]
    by_cases ho : c = ascii '['
    · subst ho
      rw [parseSwitch_open] at hsw
      cases hsw
    by_cases hc : c = ascii ']'
    · subst hc
      rw [parseSwitch_close] at hsw
      split at hsw
      · cases hsw
      · rename_i hpatch
        rw [hpatch, List.length_nil, openAfter_close_zero]
        exact ⟨rfl, rfl⟩
    · obtain ⟨ctx', h, _⟩ := parseSwitch_other ho hc ctx (countChar (c :: src) c)
      rw [h] at hsw
      cases hsw
  | hturn ctx c src ctx' advance hsw ih =>
    rw [parseLoop_cons hsw]
    have hcount : openAfter ctx.patch.length (c :: src) =
        openAfter ctx'.patch.length (src.drop (advance - 1)) := by
      obtain ⟨_, hrun⟩ := parseSwitch_advance hsw
      by_cases ho : c = ascii '['
      · subst ho
        rw [parseSwitch_open] at hsw
        cases hsw
        exact openAfter_open _ _
      by_cases hc : c = ascii ']'
      · subst hc
        rw [parseSwitch_close] at hsw
        split at hsw
        · rename_i hpatch
          cases hsw
          rw [hpatch]
          exact openAfter_close_succ _ _
        · cases hsw
      · obtain ⟨ctx'', h, hpatch⟩ := parseSwitch_other ho hc ctx (countChar (c :: src) c)
        rw [h] at hsw
        cases hsw
        have hsame := openAfter_replicate ho hc ctx.patch.length (countChar (c :: src) c)
          (src.drop (countChar (c :: src) c - 1))
        rw [← hrun] at hsame
        rw [hsame, hpatch]
    rw [hcount]
    exact ih

/-- A balanced text is parsed without a report, and leaves no loop open. -/
theorem irCtxParse_balanced (src : CString) (h : Balanced src.bytes) :
    ∃ ctx, irCtxParse {} src = ⟨0, ctx, []⟩ ∧ ctx.patch = [] := by
  have hopen := parseLoop_openAfter {} src.bytes
  rw [List.length_nil, h] at hopen
  obtain ⟨hstatus, hstderr, hpatch⟩ := hopen
  refine ⟨(irCtxParse {} src).ctx, ?_, List.eq_nil_of_length_eq_zero hpatch⟩
  have hresult : irCtxParse {} src =
      ⟨(irCtxParse {} src).status, (irCtxParse {} src).ctx, (irCtxParse {} src).stderr⟩ := rfl
  have hstatus' : (irCtxParse {} src).status = 0 := hstatus
  have hstderr' : (irCtxParse {} src).stderr = [] := hstderr
  rwa [hstatus', hstderr'] at hresult

end Bfcomp
