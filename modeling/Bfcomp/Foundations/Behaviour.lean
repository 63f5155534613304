import Bfcomp.Foundations.Structured
import Mathlib.Data.List.Infix
import Mathlib.Order.Lattice
import Mathlib.Order.Nat

/-! # What is seen of a run

`o n` is a run with fuel `n`, and `out` reads off a state what has been written so far. More fuel
carries a run further: a run that ended or stopped stays as it is, and what was written stays
written. Two runs behave the same when they end in the same states, stop with the same errors after
the same output, diverge together, and write the same. -/

namespace Bfcomp
set_option autoImplicit false

section
variable {ε σ β : Type}

/-- The state an outcome carries. -/
def Outcome.state : Outcome ε σ → σ
  | .done s => s
  | .raised _ s => s
  | .timeout s => s

variable (out : σ → List β)

/-- The second outcome is the first one, or one that a run out of fuel goes on to. -/
def Extends : Outcome ε σ → Outcome ε σ → Prop
  | .done s, o' => o' = .done s
  | .raised e s, o' => o' = .raised e s
  | .timeout s, o' => out s <+: out o'.state

/-- The same outcome, as far as it is seen. -/
def Alike : Outcome ε σ → Outcome ε σ → Prop
  | .done s, o' => o' = .done s
  | .raised e s, o' => ∃ t, o' = .raised e t ∧ out t = out s
  | .timeout s, o' => ∃ t, o' = .timeout t ∧ out t = out s

/-- With one unit of fuel more, the run goes further. -/
def Growing (o : ℕ → Outcome ε σ) : Prop := ∀ n, Extends out (o n) (o (n + 1))

structure SameBehaviour (o o' : ℕ → Outcome ε σ) : Prop where
  ends : ∀ t, (∃ n, o n = .done t) ↔ ∃ n, o' n = .done t
  raises : ∀ e w, (∃ n s, o n = .raised e s ∧ out s = w) ↔ ∃ n s, o' n = .raised e s ∧ out s = w
  diverges : (∀ n, ∃ s, o n = .timeout s) ↔ ∀ n, ∃ s, o' n = .timeout s
  writes : ∀ w, (∃ n, w <+: out (o n).state) ↔ ∃ n, w <+: out (o' n).state

variable {out}

/-! ## Going further -/

theorem Extends.refl (o : Outcome ε σ) : Extends out o o := by
  cases o with
  | done s => rfl
  | raised e s => rfl
  | timeout s => exact List.prefix_rfl

theorem Extends.written {o o' : Outcome ε σ} (h : Extends out o o') :
    out o.state <+: out o'.state := by
  cases o with
  | done s =>
    have e : o' = .done s := h
    rw [e]
  | raised e s =>
    have e : o' = .raised e s := h
    rw [e]
  | timeout s => exact h

theorem Extends.trans {o o' o'' : Outcome ε σ} (h : Extends out o o') (h' : Extends out o' o'') :
    Extends out o o'' := by
  cases o with
  | done s =>
    have e : o' = .done s := h
    rw [e] at h'
    exact h'
  | raised e s =>
    have e : o' = .raised e s := h
    rw [e] at h'
    exact h'
  | timeout s => exact List.IsPrefix.trans h h'.written

theorem bind_grows {w : List β} {o : Outcome ε σ} {f : σ → Outcome ε σ} (ho : w <+: out o.state)
    (hf : ∀ t, out t <+: out (f t).state) : w <+: out (o.bind f).state := by
  cases o with
  | done s => exact ho.trans (hf s)
  | raised e s => exact ho
  | timeout s => exact ho

theorem Extends.bind {o o' : Outcome ε σ} {f g : σ → Outcome ε σ} (h : Extends out o o')
    (hfg : ∀ s, Extends out (f s) (g s)) (hg : ∀ t, out t <+: out (g t).state) :
    Extends out (o.bind f) (o'.bind g) := by
  cases o with
  | done s =>
    have e : o' = .done s := h
    rw [e]
    exact hfg s
  | raised e s =>
    have e : o' = .raised e s := h
    rw [e]
    exact .refl _
  | timeout s => exact bind_grows h.written hg

theorem Growing.le {o : ℕ → Outcome ε σ} (h : Growing out o) {n m : ℕ} (hle : n ≤ m) :
    Extends out (o n) (o m) := by
  induction m, hle using Nat.le_induction with
  | base => exact .refl _
  | succ m _ ih => exact ih.trans (h m)

section
variable {test : σ → Except ε Bool} {body body' : σ → Outcome ε σ}

theorem iterate_grows (hb : ∀ s, out s <+: out (body s).state) (n : ℕ) (s : σ) :
    out s <+: out (iterate test body n s).state := by
  induction n generalizing s with
  | zero =>
    unfold iterate
    split <;> exact List.prefix_rfl
  | succ n ih =>
    unfold iterate
    split
    · exact List.prefix_rfl
    · exact List.prefix_rfl
    · exact bind_grows (hb s) ih

theorem iterate_extends (hbody : ∀ s, Extends out (body s) (body' s))
    (hb : ∀ s, out s <+: out (body' s).state) (n : ℕ) (s : σ) :
    Extends out (iterate test body n s) (iterate test body' (n + 1) s) := by
  induction n generalizing s with
  | zero =>
    cases ht : test s with
    | error e => rw [iterate_error ht, iterate_error ht]; exact .refl _
    | ok v =>
      cases v with
      | false => rw [iterate_exit ht, iterate_exit ht]; exact .refl _
      | true =>
        rw [iterate_timeout ht, iterate_enter ht]
        exact bind_grows (hb s) (iterate_grows hb 0)
  | succ n ih =>
    cases ht : test s with
    | error e => rw [iterate_error ht, iterate_error ht]; exact .refl _
    | ok v =>
      cases v with
      | false => rw [iterate_exit ht, iterate_exit ht]; exact .refl _
      | true =>
        rw [iterate_enter ht, iterate_enter ht]
        exact (hbody s).bind ih (iterate_grows hb (n + 1))

end

section
variable {ι : Type} {act : ι → σ → Except ε σ} {test : σ → Except ε Bool}

theorem Prog.exec_grows (hact : ∀ i s t, act i s = .ok t → out s <+: out t) (n : ℕ) (p : Prog ι)
    (s : σ) : out s <+: out (p.exec act test n s).state := by
  induction p generalizing s with
  | nil => exact List.prefix_rfl
  | prim i k ih =>
    rw [Prog.exec]
    cases hi : act i s with
    | error e => exact List.prefix_rfl
    | ok t => exact (hact i s t hi).trans (ih t)
  | loop b k ihb ihk =>
    rw [Prog.exec]
    exact bind_grows (iterate_grows ihb n s) ihk

/-- A program whose primitives take back no output goes further with more fuel. -/
theorem Prog.exec_growing (hact : ∀ i s t, act i s = .ok t → out s <+: out t) (p : Prog ι)
    (s : σ) : Growing out fun n => p.exec act test n s := by
  intro n
  simp only
  induction p generalizing s with
  | nil => exact .refl _
  | prim i k ih =>
    rw [Prog.exec, Prog.exec]
    cases act i s with
    | error e => exact .refl _
    | ok t => exact ih t
  | loop b k ihb ihk =>
    rw [Prog.exec, Prog.exec]
    exact (iterate_extends ihb (Prog.exec_grows hact (n + 1) b) n s).bind ihk
      (Prog.exec_grows hact (n + 1) k)

end

/-! ## Alike -/

theorem Alike.refl (o : Outcome ε σ) : Alike out o o := by
  cases o with
  | done s => rfl
  | raised e s => exact ⟨s, rfl, rfl⟩
  | timeout s => exact ⟨s, rfl, rfl⟩

theorem Alike.symm {o o' : Outcome ε σ} (h : Alike out o o') : Alike out o' o := by
  cases o with
  | done s =>
    have e : o' = .done s := h
    rw [e]
    rfl
  | raised e s =>
    obtain ⟨t, rfl, ht⟩ := h
    exact ⟨s, rfl, ht.symm⟩
  | timeout s =>
    obtain ⟨t, rfl, ht⟩ := h
    exact ⟨s, rfl, ht.symm⟩

theorem Alike.out_eq {o o' : Outcome ε σ} (h : Alike out o o') : out o'.state = out o.state := by
  cases o with
  | done s =>
    have e : o' = .done s := h
    rw [e]
  | raised e s =>
    obtain ⟨t, rfl, ht⟩ := h
    exact ht
  | timeout s =>
    obtain ⟨t, rfl, ht⟩ := h
    exact ht

theorem Alike.bind {o o' : Outcome ε σ} {f g : σ → Outcome ε σ} (h : Alike out o o')
    (hfg : ∀ s, o = .done s → Alike out (f s) (g s)) : Alike out (o.bind f) (o'.bind g) := by
  cases o with
  | done s =>
    have e : o' = .done s := h
    rw [e]
    exact hfg s rfl
  | raised e s =>
    obtain ⟨t, rfl, ht⟩ := h
    exact ⟨t, rfl, ht⟩
  | timeout s =>
    obtain ⟨t, rfl, ht⟩ := h
    exact ⟨t, rfl, ht⟩

theorem iterate_alike {test : σ → Except ε Bool} {body body' : σ → Outcome ε σ} {I : σ → Prop}
    (hb : ∀ s, I s → test s = .ok true → Alike out (body s) (body' s))
    (hI : ∀ s t, I s → test s = .ok true → body s = .done t → I t) (n : ℕ) (s : σ) (hs : I s) :
    Alike out (iterate test body n s) (iterate test body' n s) := by
  induction n generalizing s with
  | zero =>
    unfold iterate
    exact .refl _
  | succ n ih =>
    cases ht : test s with
    | error e => rw [iterate_error ht, iterate_error ht]; exact .refl _
    | ok v =>
      cases v with
      | false => rw [iterate_exit ht, iterate_exit ht]; exact .refl _
      | true =>
        rw [iterate_enter ht, iterate_enter ht]
        exact (hb s hs ht).bind fun t hbt => ih t (hI s t hs ht hbt)

/-! ## The same behaviour -/

section
variable {o o' : ℕ → Outcome ε σ} {N : ℕ}

/-- Any fuel may be raised to one from which the runs are alike. -/
theorem Growing.later (h : Growing out o) (ha : ∀ n, N ≤ n → Alike out (o n) (o' n)) (n : ℕ) :
    ∃ m, Extends out (o n) (o m) ∧ Alike out (o m) (o' m) :=
  ⟨max n N, h.le (Nat.le_max_left n N), ha _ (Nat.le_max_right n N)⟩

theorem Growing.done_alike (h : Growing out o) (ha : ∀ n, N ≤ n → Alike out (o n) (o' n)) {t : σ} :
    (∃ n, o n = .done t) → ∃ n, o' n = .done t := by
  rintro ⟨n, hn⟩
  obtain ⟨m, hext, halike⟩ := h.later ha n
  rw [hn] at hext
  have hm : o m = .done t := hext
  rw [hm] at halike
  exact ⟨m, halike⟩

theorem Growing.raised_alike (h : Growing out o) (ha : ∀ n, N ≤ n → Alike out (o n) (o' n)) {e : ε}
    {w : List β} : (∃ n s, o n = .raised e s ∧ out s = w) →
      ∃ n s, o' n = .raised e s ∧ out s = w := by
  rintro ⟨n, s, hn, hw⟩
  obtain ⟨m, hext, halike⟩ := h.later ha n
  rw [hn] at hext
  have hm : o m = .raised e s := hext
  rw [hm] at halike
  obtain ⟨t, ht, hout⟩ := halike
  exact ⟨m, t, ht, hout.trans hw⟩

theorem Growing.written_alike (h : Growing out o) (ha : ∀ n, N ≤ n → Alike out (o n) (o' n))
    {w : List β} : (∃ n, w <+: out (o n).state) → ∃ n, w <+: out (o' n).state := by
  rintro ⟨n, hn⟩
  obtain ⟨m, hext, halike⟩ := h.later ha n
  refine ⟨m, ?_⟩
  rw [halike.out_eq]
  exact hn.trans hext.written

theorem diverges_iff (out : σ → List β) : (∀ n, ∃ s, o n = .timeout s) ↔
    (¬ ∃ t n, o n = .done t) ∧ ¬ ∃ e w n s, o n = .raised e s ∧ out s = w := by
  constructor
  · intro h
    constructor
    · rintro ⟨t, n, hn⟩
      obtain ⟨s, hs⟩ := h n
      rw [hs] at hn
      cases hn
    · rintro ⟨e, w, n, t, hn, _⟩
      obtain ⟨s, hs⟩ := h n
      rw [hs] at hn
      cases hn
  · rintro ⟨hdone, hraised⟩ n
    cases hn : o n with
    | done t => exact (hdone ⟨t, n, hn⟩).elim
    | raised e t => exact (hraised ⟨e, out t, n, t, hn, rfl⟩).elim
    | timeout s => exact ⟨s, rfl⟩

/-- Two growing runs that are alike from some fuel on behave the same. -/
theorem SameBehaviour.of_alike (h : Growing out o) (h' : Growing out o')
    (ha : ∀ n, N ≤ n → Alike out (o n) (o' n)) : SameBehaviour out o o' := by
  have ha' : ∀ n, N ≤ n → Alike out (o' n) (o n) := fun n hn => (ha n hn).symm
  have hends : ∀ t, (∃ n, o n = .done t) ↔ ∃ n, o' n = .done t :=
    fun t => ⟨h.done_alike ha, h'.done_alike ha'⟩
  have hraises : ∀ e w, (∃ n s, o n = .raised e s ∧ out s = w) ↔
      ∃ n s, o' n = .raised e s ∧ out s = w :=
    fun e w => ⟨h.raised_alike ha, h'.raised_alike ha'⟩
  refine ⟨hends, hraises, ?_, fun w => ⟨h.written_alike ha, h'.written_alike ha'⟩⟩
  rw [diverges_iff out, diverges_iff out]
  simp only [hends, hraises]

end
end
end Bfcomp
