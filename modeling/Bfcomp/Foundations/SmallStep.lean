import Bfcomp.Foundations.Realise

/-! # Structured programs one step at a time

The machine that holds what is left to run; a loop whose test holds puts its body in front of
itself. Every program is its own code for this machine, so the machine realises it: the runs of the
machine that end are the executions that end (`exec_done_iff`). -/

namespace Bfcomp
namespace Prog
set_option autoImplicit false

variable {ι ε σ : Type}

/-- What is left to run, and the state to run it in. -/
structure Left (ι σ : Type) where
  code : Prog ι
  state : σ

section
variable (act : ι → σ → Except ε σ) (test : σ → Except ε Bool)

/-- One primitive or one test. -/
def step (c : Left ι σ) : Option (Left ι σ) :=
  match c.code with
  | nil => none
  | prim i k =>
    match act i c.state with
    | .ok t => some ⟨k, t⟩
    | .error _ => none
  | loop b k =>
    match test c.state with
    | .ok true => some ⟨b ++ loop b k, c.state⟩
    | .ok false => some ⟨k, c.state⟩
    | .error _ => none

/-- The next step is an error. -/
def Fails (c : Left ι σ) : Prop :=
  match c.code with
  | nil => False
  | prim i _ => ∃ e, act i c.state = .error e
  | loop _ _ => ∃ e, test c.state = .error e

end

/-! ## A program is its own code -/

def PrimCode (i : ι) (a b : Prog ι) : Prop := a = prim i b

def LoopCode (a b c d : Prog ι) : Prop := ∃ p, a = loop p d ∧ b = p ++ a ∧ c = a

def NoFork (_ _ _ : Prog ι) : Prop := False

def Holds (a : Prog ι) (s : σ) (c : Left ι σ) : Prop := c = ⟨a, s⟩

theorem layout_append (p k : Prog ι) :
    Layout PrimCode LoopCode NoFork p (p ++ k) (· = k) := by
  induction p generalizing k with
  | nil => exact .nil rfl
  | prim i p ih => exact .prim (b := p ++ k) rfl (ih k)
  | loop b p ihb ihp =>
    exact .loop (b := b ++ loop b (p ++ k)) ⟨b, rfl, rfl, rfl⟩ (ihb (loop b (p ++ k))) (ihp k)

variable {act : ι → σ → Except ε σ} {test : σ → Except ε Bool}

theorem Fails.step_none {c : Left ι σ} (h : Fails act test c) : step act test c = none := by
  obtain ⟨code, s⟩ := c
  cases code with
  | nil => rfl
  | prim i k =>
    obtain ⟨e, he⟩ := h
    have he' : act i s = .error e := he
    simp [step, he']
  | loop b k =>
    obtain ⟨e, he⟩ := h
    have he' : test s = .error e := he
    simp [step, he']

theorem step_prim {i : ι} {k : Prog ι} {s t : σ} (h : act i s = .ok t) :
    step act test ⟨prim i k, s⟩ = some ⟨k, t⟩ := by
  simp [step, h]

theorem step_enter {b k : Prog ι} {s : σ} (h : test s = .ok true) :
    step act test ⟨loop b k, s⟩ = some ⟨b ++ loop b k, s⟩ := by
  simp [step, h]

theorem step_exit {b k : Prog ι} {s : σ} (h : test s = .ok false) :
    step act test ⟨loop b k, s⟩ = some ⟨k, s⟩ := by
  simp [step, h]

theorem step_realises (act : ι → σ → Except ε σ) (test : σ → Except ε Bool) :
    Realises (step act test) act test PrimCode LoopCode NoFork Holds (Fails act test) where
  prim_ok := by
    rintro i a b s t m rfl rfl h
    exact ⟨1, _, .single (step_prim h), rfl⟩
  prim_error := by
    rintro i a b s e m rfl rfl h
    exact ⟨e, h⟩
  open_error := by
    rintro a b c d s e m ⟨p, rfl, _, _⟩ rfl h
    exact ⟨e, h⟩
  close_error := by
    rintro a b c d s e m ⟨p, rfl, _, rfl⟩ rfl h
    exact ⟨e, h⟩
  enter := by
    rintro a b c d s m ⟨p, rfl, rfl, _⟩ rfl h
    exact ⟨1, _, Nat.le_refl 1, .single (step_enter h), rfl⟩
  skip := by
    rintro a b c d s m ⟨p, rfl, _, _⟩ rfl h
    exact ⟨1, _, .single (step_exit h), rfl⟩
  again := by
    rintro a b c d s m ⟨p, rfl, rfl, rfl⟩ rfl h
    exact ⟨1, _, Nat.le_refl 1, .single (step_enter h), rfl⟩
  leave := by
    rintro a b c d s m ⟨p, rfl, _, rfl⟩ rfl h
    exact ⟨1, _, .single (step_exit h), rfl⟩
  fork := fun hf _ => hf.elim

theorem step_tracks (act : ι → σ → Except ε σ) (test : σ → Except ε Bool) (p : Prog ι) (n : ℕ)
    (s : σ) : Tracks (step act test) Holds (Fails act test) n ⟨p, s⟩ (· = nil) (exec act test n p s) := by
  have hp := layout_append p nil
  rw [append_nil] at hp
  exact (step_realises act test).run hp n s ⟨p, s⟩ rfl

/-- An execution ends, with enough fuel, exactly where the machine does. -/
theorem exec_done_iff (p : Prog ι) (s t : σ) :
    (∃ n, exec act test n p s = .done t) ↔ ∃ k, Runs (step act test) k ⟨p, s⟩ ⟨nil, t⟩ := by
  constructor
  · rintro ⟨n, h⟩
    have ht := step_tracks act test p n s
    rw [h] at ht
    obtain ⟨k, m, c, rfl, hr, rfl⟩ := ht
    exact ⟨k, hr⟩
  · rintro ⟨k, hr⟩
    refine ⟨k + 1, ?_⟩
    have ht := step_tracks act test p (k + 1) s
    cases ho : exec act test (k + 1) p s with
    | done u =>
      rw [ho] at ht
      obtain ⟨j, m, c, rfl, hj, rfl⟩ := ht
      have hend := hr.stopped_unique rfl hj rfl
      injection hend with _ hut
      rw [hut]
    | raised e u =>
      rw [ho] at ht
      obtain ⟨j, m, hj, hfail⟩ := ht
      rw [← hr.stopped_unique rfl hj hfail.step_none] at hfail
      exact hfail.elim
    | timeout u =>
      rw [ho] at ht
      obtain ⟨j, m, c, hle, hj, _⟩ := ht
      have hmax := hr.le_of_stopped rfl hj
      omega

theorem runs_of_done {p : Prog ι} (k : Prog ι) {n : ℕ} {s t : σ}
    (h : exec act test n p s = .done t) : ∃ j, Runs (step act test) j ⟨p ++ k, s⟩ ⟨k, t⟩ := by
  have ht := (step_realises act test).run (layout_append p k) n s ⟨p ++ k, s⟩ rfl
  rw [h] at ht
  obtain ⟨j, m, c, rfl, hr, rfl⟩ := ht
  exact ⟨j, hr⟩

/-- Primitives may be replaced by programs that do the same in every state the machine comes to. -/
theorem exec_subst {ι' : Type} {act' : ι' → σ → Except ε σ} {f : ι → Prog ι'} {n : ℕ}
    {I : Left ι σ → Prop} (hstep : ∀ c c', I c → step act test c = some c' → I c')
    (hf : ∀ i k s, I ⟨prim i k, s⟩ →
      exec act' test n (f i) s = Outcome.ofExcept s (act i s)) (p k : Prog ι) (s : σ)
    (hs : I ⟨p ++ k, s⟩) : exec act' test n (p.subst f) s = exec act test n p s := by
  have hruns : ∀ {j c c'}, Runs (step act test) j c c' → I c → I c' :=
    fun hr hc => hr.invariant hstep hc
  induction p generalizing k s with
  | nil => rfl
  | prim i p ih =>
    rw [subst, exec_append, hf i (p ++ k) s hs, ← ofExcept_bind_exec]
    cases hi : act i s with
    | error e => rfl
    | ok t => exact ih k t (hstep _ _ hs (step_prim hi))
  | loop b p ihb ihp =>
    have hiter : ∀ m u, I ⟨loop b p ++ k, u⟩ →
        iterate test (exec act' test n (b.subst f)) m u = iterate test (exec act test n b) m u := by
      intro m
      induction m with
      | zero =>
        intro u _
        unfold iterate
        rfl
      | succ m ihm =>
        intro u hu
        cases ht : test u with
        | error e => rw [iterate_error ht, iterate_error ht]
        | ok v =>
          cases v with
          | false => rw [iterate_exit ht, iterate_exit ht]
          | true =>
            have hbody : I ⟨b ++ (loop b p ++ k), u⟩ := hstep _ _ hu (step_enter ht)
            rw [iterate_enter ht, iterate_enter ht, ihb (loop b p ++ k) u hbody]
            cases ho : exec act test n b u with
            | done t =>
              obtain ⟨j, hr⟩ := runs_of_done (loop b p ++ k) ho
              exact ihm t (hruns hr hbody)
            | raised e t => rfl
            | timeout t => rfl
    rw [subst, exec, exec, hiter n s hs]
    cases ho : iterate test (exec act test n b) n s with
    | done t =>
      have hloop : exec act test n (loop b .nil) s = .done t := by
        rw [exec, ho]
        rfl
      obtain ⟨j, hr⟩ := runs_of_done (p ++ k) hloop
      exact ihp k t (hruns hr hs)
    | raised e t => rfl
    | timeout t => rfl

/-- Instructions that are left to run were in the program from the start. -/
theorem step_all {P : ι → Prop} {c c' : Left ι σ} (h : c.code.All P)
    (hstep : step act test c = some c') : c'.code.All P := by
  obtain ⟨code, s⟩ := c
  cases code with
  | nil => cases hstep
  | prim i k =>
    unfold step at hstep
    simp only at hstep
    split at hstep
    · cases hstep
      exact h.2
    · cases hstep
  | loop b k =>
    unfold step at hstep
    simp only at hstep
    split at hstep
    · cases hstep
      exact all_append.mpr ⟨h.1, h⟩
    · cases hstep
      exact h.2
    · cases hstep

end Prog
end Bfcomp
