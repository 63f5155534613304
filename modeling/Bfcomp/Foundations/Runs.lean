import Mathlib.Data.Nat.Notation
import Mathlib.Tactic.Common

/-! # Exact step counts of a deterministic machine

A machine is a partial step function `step : μ → Option μ`; a state without a successor has
stopped. `Runs step n s t`: `t` is reached from `s` in exactly `n` steps. -/

namespace Bfcomp
set_option autoImplicit false

section
variable {μ : Type} {step : μ → Option μ}

/-- Exactly `n` executed steps lead from `s` to `t`. -/
def Runs (step : μ → Option μ) : ℕ → μ → μ → Prop
  | 0, s, t => s = t
  | n + 1, s, t => ∃ u, step s = some u ∧ Runs step n u t

theorem Runs.refl (s : μ) : Runs step 0 s s := rfl

theorem Runs.single {s t : μ} (h : step s = some t) : Runs step 1 s t := ⟨t, h, rfl⟩

theorem Runs.head {n : ℕ} {s u t : μ} (h : step s = some u) (hr : Runs step n u t) :
    Runs step (n + 1) s t := ⟨u, h, hr⟩

theorem Runs.trans {m n : ℕ} {s u t : μ} (h : Runs step m s u) (h' : Runs step n u t) :
    Runs step (m + n) s t := by
  induction m generalizing s with
  | zero =>
    have hsu : s = u := h
    subst hsu
    simpa using h'
  | succ m ih =>
    obtain ⟨v, hv, hr⟩ := h
    have e : m + 1 + n = m + n + 1 := by omega
    rw [e]
    exact ⟨v, hv, ih hr⟩

theorem Runs.split {m n : ℕ} {s t : μ} (h : Runs step (m + n) s t) :
    ∃ u, Runs step m s u ∧ Runs step n u t := by
  induction m generalizing s with
  | zero => exact ⟨s, rfl, by simpa using h⟩
  | succ m ih =>
    have e : m + 1 + n = m + n + 1 := by omega
    rw [e] at h
    obtain ⟨v, hv, hr⟩ := h
    obtain ⟨u, hu, hn⟩ := ih hr
    exact ⟨u, ⟨v, hv, hu⟩, hn⟩

theorem Runs.tail {n : ℕ} {s u t : μ} (h : Runs step n s u) (h' : step u = some t) :
    Runs step (n + 1) s t := h.trans (.single h')

theorem Runs.deterministic {n : ℕ} {s t t' : μ} (h : Runs step n s t) (h' : Runs step n s t') :
    t = t' := by
  induction n generalizing s with
  | zero => exact h.symm.trans h'
  | succ n ih =>
    obtain ⟨u, hu, hr⟩ := h
    obtain ⟨u', hu', hr'⟩ := h'
    have huu : u = u' := Option.some.inj (hu.symm.trans hu')
    subst huu
    exact ih hr hr'

theorem Runs.le_of_stopped {n k : ℕ} {s t u : μ} (h : Runs step n s t) (hstop : step t = none)
    (h' : Runs step k s u) : k ≤ n := by
  by_contra hlt
  obtain ⟨d, rfl⟩ : ∃ d, k = n + (d + 1) := ⟨k - n - 1, by omega⟩
  obtain ⟨v, hv, hr⟩ := h'.split
  obtain ⟨w, hw, _⟩ := hr
  have htv : t = v := h.deterministic hv
  subst htv
  rw [hstop] at hw
  cases hw

theorem Runs.stopped_unique {n k : ℕ} {s t u : μ} (h : Runs step n s t) (ht : step t = none)
    (h' : Runs step k s u) (hu : step u = none) : t = u := by
  have hnk : n = k := Nat.le_antisymm (h'.le_of_stopped hu h) (h.le_of_stopped ht h')
  subst hnk
  exact h.deterministic h'

/-- The shorter of two runs from one state is a prefix of the longer. -/
theorem Runs.cut {n k : ℕ} {s t u : μ} (hkn : k ≤ n) (h : Runs step n s t)
    (h' : Runs step k s u) : Runs step (n - k) u t := by
  have e : n = k + (n - k) := by omega
  rw [e] at h
  obtain ⟨v, hv, hr⟩ := h.split
  rwa [h'.deterministic hv]

theorem Runs.invariant {P : μ → Prop} (hstep : ∀ s t, P s → step s = some t → P t) {n : ℕ}
    {s t : μ} (h : Runs step n s t) (hs : P s) : P t := by
  induction n generalizing s with
  | zero =>
    have hst : s = t := h
    rwa [← hst]
  | succ n ih =>
    obtain ⟨u, hu, hr⟩ := h
    exact ih hr (hstep s u hs hu)

/-- What every step extends in a reflexive and transitive relation, every run extends. -/
theorem Runs.monotone {α : Type} {r : α → α → Prop} (f : μ → α) (hrefl : ∀ a, r a a)
    (htrans : ∀ a b c, r a b → r b c → r a c) (hstep : ∀ s t, step s = some t → r (f s) (f t))
    {n : ℕ} {s t : μ} (h : Runs step n s t) : r (f s) (f t) := by
  induction n generalizing s with
  | zero =>
    have hst : s = t := h
    rw [hst]
    exact hrefl _
  | succ n ih =>
    obtain ⟨u, hu, hr⟩ := h
    exact htrans _ _ _ (hstep s u hu) (ih hr)

/-- The machine stops within `n` steps, and `P` holds of every state on the way. -/
def StopsAlong (step : μ → Option μ) (P : μ → Prop) : ℕ → μ → Prop
  | 0, _ => False
  | n + 1, s => P s ∧ ∀ t ∈ step s, StopsAlong step P n t

instance StopsAlong.decidable {P : μ → Prop} [DecidablePred P] :
    ∀ n s, Decidable (StopsAlong step P n s)
  | 0, _ => inferInstanceAs (Decidable False)
  | n + 1, s =>
    have (t : μ) : Decidable (StopsAlong step P n t) := StopsAlong.decidable n t
    inferInstanceAs (Decidable (P s ∧ ∀ t ∈ step s, StopsAlong step P n t))

/-- Such a machine is in a state with `P` wherever a run has come to. -/
theorem StopsAlong.of_runs {P : μ → Prop} {n k : ℕ} {s t : μ} (h : StopsAlong step P n s)
    (hr : Runs step k s t) : P t := by
  induction n generalizing k s with
  | zero => exact h.elim
  | succ n ih =>
    cases k with
    | zero =>
      have hst : s = t := hr
      rw [← hst]
      exact h.1
    | succ k =>
      obtain ⟨u, hu, hrest⟩ := hr
      exact ih (h.2 u hu) hrest

theorem StopsAlong.stops {P : μ → Prop} {n : ℕ} {s : μ} (h : StopsAlong step P n s) :
    ∃ k t, Runs step k s t ∧ step t = none := by
  induction n generalizing s with
  | zero => exact h.elim
  | succ n ih =>
    cases hs : step s with
    | none => exact ⟨0, s, rfl, hs⟩
    | some u =>
      obtain ⟨k, t, hr, ht⟩ := ih (h.2 u hs)
      exact ⟨k + 1, t, hr.head hs, ht⟩

end
end Bfcomp
