import Bfcomp.Interpret.Machine
import Mathlib.Tactic.Linarith

/-! # The interpreter's tape pointer

`sp >= ctx->capacity` compares as `size_t`, so a negative `sp` takes the first branch and the
branch meant for it never runs; and one subtraction does not bring back a pointer that is two
tapes too far. The wrap-around works exactly for moves that end at most one tape to the right. -/

namespace Bfcomp
set_option autoImplicit false

/-- The moves that the wrap-around brings back to the tape. -/
def MoveFits (cap : ℕ) (sp arg : ℤ) : Prop := 0 ≤ sp + arg ∧ sp + arg < 2 * cap ∧ sp + arg < 2^63

instance (cap : ℕ) (sp arg : ℤ) : Decidable (MoveFits cap sp arg) := instDecidableAnd

theorem movePtr_fits {cap : ℕ} {sp arg : ℤ} (h : MoveFits cap sp arg) :
    movePtr cap sp arg = (sp + arg) % cap := by
  obtain ⟨h0, h2, h63⟩ := h
  have hi : i64 (sp + arg) = sp + arg := i64_of_range (by omega) h63
  have hu : u64 (sp + arg) = sp + arg := u64_of_range h0 (by omega)
  simp only [movePtr, hi, hu]
  by_cases hc : (cap : ℤ) ≤ sp + arg
  · rw [if_pos hc, i64_of_range (by omega) (by omega)]
    have hsub : (sp + arg) % cap = (sp + arg - cap) % cap := by rw [Int.sub_emod_right]
    rw [hsub, Int.emod_eq_of_lt (by omega) (by omega)]
  · rw [if_neg hc, if_neg (by omega), Int.emod_eq_of_lt h0 (by omega)]

/-- A move of any other length takes the pointer off the tape. -/
theorem movePtr_onTape_iff {cap : ℕ} (hcap : (cap : ℤ) ≤ 2^62) {sp arg : ℤ} (hsp : 0 ≤ sp)
    (hsp' : sp < cap) (harg : -2^63 ≤ arg) (harg' : arg < 2^63) :
    0 ≤ movePtr cap sp arg ∧ movePtr cap sp arg < cap ↔ MoveFits cap sp arg := by
  constructor
  · intro h
    -- the sum wraps above `2^63`, and a negative one is compared as a `size_t`
    simp only [movePtr, i64_eq, u64] at h
    unfold MoveFits
    split at h
    · omega
    · split at h <;> omega
  · intro h
    rw [movePtr_fits h]
    exact ⟨Int.emod_nonneg _ (by omega), Int.emod_lt_of_pos _ (by omega)⟩

/-- The op dispatched in `c`, if it is a `TAPE`, makes a move that the wrap-around brings back. -/
def TapeFits (code : List IrOp) (cap : ℕ) (c : Config) : Prop :=
  ∀ arg, code[c.ip]? = some ⟨.tape, arg⟩ → MoveFits cap c.store.ptr arg

theorem onTape_step {code : List IrOp} {cap : ℕ} {c c' : Config} (hfit : TapeFits code cap c)
    (hon : c.store.OnTape cap) (h : interpretStep code cap c = some c') : c'.store.OnTape cap := by
  cases hop : code[c.ip]? with
  | none => simp [interpretStep, hop] at h
  | some op =>
    have hp := interpretStep_ptr hop h
    obtain ⟨h0, hlt⟩ := hon
    unfold Store.OnTape
    rw [hp]
    split
    · have hk : op = ⟨.tape, op.arg⟩ := by
        obtain ⟨kind, arg⟩ := op
        simp_all
      rw [movePtr_fits (hfit op.arg (by rw [hop, ← hk]))]
      exact ⟨Int.emod_nonneg _ (by omega), Int.emod_lt_of_pos _ (by omega)⟩
    · exact ⟨h0, hlt⟩

theorem onTape_run {code : List IrOp} {cap n : ℕ} {c c' : Config}
    (hr : Runs (interpretStep code cap) n c c')
    (hfit : ∀ j d, j < n → Runs (interpretStep code cap) j c d → TapeFits code cap d)
    (hon : c.store.OnTape cap) : c'.store.OnTape cap := by
  induction n generalizing c with
  | zero =>
    have hcc : c = c' := hr
    rwa [← hcc]
  | succ n ih =>
    obtain ⟨d, hd, hr'⟩ := hr
    refine ih hr' (fun j e hj he => hfit (j + 1) e (by omega) (.head hd he)) ?_
    exact onTape_step (hfit 0 c (by omega) (.refl c)) hon hd

/-- Along a run of the interpreter on a parsed source whose `TAPE` ops have all made moves that the
wrap-around brings back, the pointer is on the tape. The next `TAPE` moves it by its argument
modulo the capacity if its move fits too, and takes it off the tape otherwise. -/
theorem interpret_pointer (src : CString) (cap : ℕ) (hcap : 0 < cap) (s : Store)
    (hs : s.ptr = 0) (n : ℕ) (c : Config)
    (hr : Runs (interpretStep (patchHalt (irCtxParse {} src).ctx) cap) n ⟨0, s⟩ c)
    (hfit : ∀ j d, j < n →
      Runs (interpretStep (patchHalt (irCtxParse {} src).ctx) cap) j ⟨0, s⟩ d →
      TapeFits (patchHalt (irCtxParse {} src).ctx) cap d) :
    (0 ≤ c.store.ptr ∧ c.store.ptr < cap) ∧
      ∀ arg c', (patchHalt (irCtxParse {} src).ctx)[c.ip]? = some ⟨.tape, arg⟩ →
        interpretStep (patchHalt (irCtxParse {} src).ctx) cap c = some c' →
        (MoveFits cap c.store.ptr arg → c'.store.ptr = (c.store.ptr + arg) % cap) ∧
        ((cap : ℤ) ≤ 2^62 → -2^63 ≤ arg → arg < 2^63 →
          (0 ≤ c'.store.ptr ∧ c'.store.ptr < cap ↔ MoveFits cap c.store.ptr arg)) := by
  have hstart : s.OnTape cap := by
    unfold Store.OnTape
    omega
  have hon := onTape_run hr hfit hstart
  refine ⟨hon, ?_⟩
  intro arg c' hop hstep
  rw [interpretStep_ptr hop hstep, if_pos rfl]
  exact ⟨movePtr_fits, fun hcap' harg harg' => movePtr_onTape_iff hcap' hon.1 hon.2 harg harg'⟩

def rightText : CString := ⟨[ascii '>'], by decide, by decide⟩

def leftText : CString := ⟨[ascii '<'], by decide, by decide⟩

/-- One step to the right from the first cell. -/
theorem interpret_pointer_right : ∃ c,
    Runs (interpretStep (patchHalt (irCtxParse {} rightText).ctx) 30000) 1
      ⟨0, .start []⟩ c ∧ (0 ≤ c.store.ptr ∧ c.store.ptr < (30000 : ℕ)) := by
  refine ⟨_, ⟨_, rfl, rfl⟩, (interpret_pointer rightText 30000 (by decide) (.start []) rfl 1 _
    ⟨_, rfl, rfl⟩ ?_).1⟩
  intro j d hj hd arg hop
  have hj0 : j = 0 := by omega
  subst hj0
  have hstart : ⟨0, .start []⟩ = d := hd
  subst hstart
  have harg : arg = 1 := by
    have hcode : (patchHalt (irCtxParse {} rightText).ctx)[0]? = some ⟨.tape, 1⟩ := by decide
    rw [hcode] at hop
    cases hop
    rfl
  subst harg
  decide

/-- One step to the left from the first cell lands 30001 cells before the tape. -/
theorem interpret_pointer_left : (irCtxParse {} leftText).status = 0 ∧ ∃ c,
    Runs (interpretStep (patchHalt (irCtxParse {} leftText).ctx) 30000) 1
      ⟨0, .start []⟩ c ∧ c.store.ptr = -30001 ∧
      ¬ (0 ≤ c.store.ptr ∧ c.store.ptr < (30000 : ℕ)) ∧ c.store.ptr ≠ (0 + -1) % (30000 : ℕ) :=
  ⟨by decide, _, ⟨_, rfl, rfl⟩, by decide, by decide, by decide⟩

end Bfcomp
