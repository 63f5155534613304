import Mathlib.Data.Nat.Notation
import Mathlib.Logic.Function.Iterate
import Mathlib.Tactic.Common

/-! # Structured programs: primitives and test loops

A program is a sequence of primitives and of loops `while test do body`. Its meaning is given by a
primitive step and a test, both of which may stop the run with an error. The fuel of `exec`
bounds the number of times each loop enters its body, and nothing else: a run that times out has
entered some loop body that many times. -/

namespace Bfcomp
set_option autoImplicit false

/-! ## Outcomes -/

/-- How an execution ends, with the state it ends in; for an error, the state it was raised in. -/
inductive Outcome (ε σ : Type) where
  | done (s : σ)
  | raised (e : ε) (s : σ)
  | timeout (s : σ)
  deriving DecidableEq

section
variable {ε σ : Type}

def Outcome.bind (o : Outcome ε σ) (f : σ → Outcome ε σ) : Outcome ε σ :=
  match o with
  | .done s => f s
  | .raised e s => .raised e s
  | .timeout s => .timeout s

@[simp] theorem Outcome.bind_done (s : σ) (f : σ → Outcome ε σ) : (done s).bind f = f s := rfl
@[simp] theorem Outcome.bind_raised (e : ε) (s : σ) (f : σ → Outcome ε σ) :
    (raised e s).bind f = .raised e s := rfl
@[simp] theorem Outcome.bind_timeout (s : σ) (f : σ → Outcome ε σ) :
    (timeout s : Outcome ε σ).bind f = .timeout s := rfl

theorem Outcome.bind_assoc (o : Outcome ε σ) (f g : σ → Outcome ε σ) :
    (o.bind f).bind g = o.bind fun s => (f s).bind g := by
  cases o <;> rfl

@[simp] theorem Outcome.bind_done_right (o : Outcome ε σ) : o.bind .done = o := by
  cases o <;> rfl

theorem Outcome.bind_eq_done {o : Outcome ε σ} {f : σ → Outcome ε σ} {t : σ} :
    o.bind f = .done t ↔ ∃ s, o = .done s ∧ f s = .done t := by
  cases o <;> simp

/-- The outcome of a step from `s` that may raise an error. -/
def Outcome.ofExcept (s : σ) : Except ε σ → Outcome ε σ
  | .ok t => .done t
  | .error e => .raised e s

/-- The outcome is an error. -/
def Outcome.Raised : Outcome ε σ → Prop
  | .raised _ _ => True
  | _ => False

@[simp] theorem Outcome.raised_done (s : σ) : ¬ (done s : Outcome ε σ).Raised := id
@[simp] theorem Outcome.raised_timeout (s : σ) : ¬ (timeout s : Outcome ε σ).Raised := id
@[simp] theorem Outcome.raised_raised (e : ε) (s : σ) : (raised e s).Raised := trivial

theorem Outcome.bind_not_raised {o : Outcome ε σ} {f : σ → Outcome ε σ} (ho : ¬ o.Raised)
    (hf : ∀ s, ¬ (f s).Raised) : ¬ (o.bind f).Raised := by
  cases o with
  | done s => exact hf s
  | raised e s => exact ho
  | timeout s => exact ho

/-- A computation refines another, possibly with other errors, when it has the same outcome
wherever the other raises nothing. -/
def Below {ε' : Type} : Outcome ε σ → Outcome ε' σ → Prop
  | .done s, o' => o' = .done s
  | .timeout s, o' => o' = .timeout s
  | .raised _ _, _ => True

theorem Below.refl (o : Outcome ε σ) : Below o o := by
  cases o <;> trivial

theorem Below.trans {ε' ε'' : Type} {o : Outcome ε σ} {o' : Outcome ε' σ} {o'' : Outcome ε'' σ}
    (h : Below o o') (h' : Below o' o'') : Below o o'' := by
  cases o with
  | done s =>
    have e : o' = .done s := h
    rw [e] at h'
    exact h'
  | raised e s => trivial
  | timeout s =>
    have e : o' = .timeout s := h
    rw [e] at h'
    exact h'

theorem Below.eq {o o' : Outcome ε σ} (h : Below o o') (hsafe : ¬ o.Raised) : o' = o := by
  cases o with
  | done s => exact h
  | raised e s => exact (hsafe trivial).elim
  | timeout s => exact h

theorem Below.symm {ε' : Type} {o : Outcome ε σ} {o' : Outcome ε' σ} (h : Below o o')
    (hsafe : ¬ o.Raised) : Below o' o := by
  cases o with
  | done s =>
    have e : o' = .done s := h
    rw [e]
    rfl
  | raised e s => exact (hsafe trivial).elim
  | timeout s =>
    have e : o' = .timeout s := h
    rw [e]
    rfl

theorem Below.not_raised {ε' : Type} {o : Outcome ε σ} {o' : Outcome ε' σ} (h : Below o o')
    (hsafe : ¬ o.Raised) : ¬ o'.Raised := by
  cases o with
  | done s =>
    have e : o' = .done s := h
    rw [e]
    exact Outcome.raised_done s
  | raised e s => exact (hsafe trivial).elim
  | timeout s =>
    have e : o' = .timeout s := h
    rw [e]
    exact Outcome.raised_timeout s

theorem Below.bind {ε' : Type} {o : Outcome ε σ} {o' : Outcome ε' σ} {f : σ → Outcome ε σ}
    {g : σ → Outcome ε' σ} (h : Below o o') (hfg : ∀ s, o = .done s → Below (f s) (g s)) :
    Below (o.bind f) (o'.bind g) := by
  cases o with
  | done s =>
    have e : o' = .done s := h
    rw [e]
    exact hfg s rfl
  | raised e s => trivial
  | timeout s =>
    have e : o' = .timeout s := h
    rw [e]
    rfl

/-! ## Loops -/

/-- Repeat `body` while `test` holds, entering it at most `n` times. -/
def iterate (test : σ → Except ε Bool) (body : σ → Outcome ε σ) (n : ℕ) (s : σ) : Outcome ε σ :=
  match test s with
  | .error e => .raised e s
  | .ok false => .done s
  | .ok true =>
    match n with
    | 0 => .timeout s
    | n + 1 => (body s).bind (iterate test body n)

variable {test : σ → Except ε Bool}

theorem iterate_exit {body : σ → Outcome ε σ} {n : ℕ} {s : σ} (h : test s = .ok false) :
    iterate test body n s = .done s := by
  cases n <;> simp [iterate, h]

theorem iterate_error {body : σ → Outcome ε σ} {n : ℕ} {s : σ} {e : ε} (h : test s = .error e) :
    iterate test body n s = .raised e s := by
  cases n <;> simp [iterate, h]

theorem iterate_timeout {body : σ → Outcome ε σ} {s : σ} (h : test s = .ok true) :
    iterate test body 0 s = .timeout s := by
  simp [iterate, h]

theorem iterate_enter {body : σ → Outcome ε σ} {n : ℕ} {s : σ} (h : test s = .ok true) :
    iterate test body (n + 1) s = (body s).bind (iterate test body n) := by
  simp [iterate, h]

/-- A loop that ends leaves at once, or runs its body and ends from there with less fuel. -/
theorem iterate_done_induct {body : σ → Outcome ε σ} {t : σ} {P : ℕ → σ → Prop}
    (hexit : test t = .ok false → ∀ n, P n t)
    (henter : ∀ n s u, test s = .ok true → body s = .done u → P n u → P (n + 1) s) {n : ℕ} {s : σ}
    (h : iterate test body n s = .done t) : P n s := by
  induction n generalizing s with
  | zero =>
    unfold iterate at h
    split at h
    · cases h
    · cases h
      exact hexit ‹_› 0
    · cases h
  | succ n ih =>
    unfold iterate at h
    split at h
    · cases h
    · cases h
      exact hexit ‹_› (n + 1)
    · obtain ⟨u, hu, ht⟩ := Outcome.bind_eq_done.mp h
      exact henter n s u ‹_› hu (ih ht)

theorem iterate_done {body : σ → Outcome ε σ} {n : ℕ} {s t : σ}
    (h : iterate test body n s = .done t) : test t = .ok false :=
  iterate_done_induct (P := fun _ _ => test t = .ok false) (fun ht _ => ht)
    (fun _ _ _ _ _ ih => ih) h

/-- A body that ends wherever another one does may take its place in a loop that ends. -/
theorem iterate_done_mono {body body' : σ → Outcome ε σ}
    (hb : ∀ s t, body s = .done t → body' s = .done t) {n : ℕ} {s t : σ}
    (h : iterate test body n s = .done t) : iterate test body' n s = .done t := by
  refine iterate_done_induct (P := fun n s => iterate test body' n s = .done t) ?_ ?_ h
  · intro ht n
    exact iterate_exit ht
  · intro n s u hs hu ih
    rw [iterate_enter hs, hb s u hu]
    exact ih

theorem iterate_preserves {I : σ → Prop} {body : σ → Outcome ε σ}
    (hb : ∀ s t, I s → body s = .done t → I t) {n : ℕ} {s t : σ} (hs : I s)
    (h : iterate test body n s = .done t) : I t := by
  refine iterate_done_induct (P := fun _ s => I s → I t) ?_ ?_ h hs
  · intro _ _ hs
    exact hs
  · intro n s u _ hu ih hs
    exact ih (hb s u hs hu)

theorem iterate_not_raised (htest : ∀ s, ∃ b, test s = .ok b) {body : σ → Outcome ε σ}
    (hb : ∀ s, ¬ (body s).Raised) (n : ℕ) (s : σ) : ¬ (iterate test body n s).Raised := by
  induction n generalizing s with
  | zero =>
    obtain ⟨b, hv⟩ := htest s
    unfold iterate
    rw [hv]
    cases b <;> exact id
  | succ n ih =>
    obtain ⟨b, hv⟩ := htest s
    cases b with
    | false =>
      rw [iterate_exit hv]
      exact Outcome.raised_done s
    | true =>
      rw [iterate_enter hv]
      exact Outcome.bind_not_raised (hb s) ih

theorem iterate_below {ε' : Type} {test' : σ → Except ε' Bool} {I : σ → Prop}
    (htest : ∀ s b, I s → test s = .ok b → test' s = .ok b) {body : σ → Outcome ε σ}
    {body' : σ → Outcome ε' σ} (hb : ∀ s, I s → Below (body s) (body' s))
    (hI : ∀ s t, I s → body s = .done t → I t) (n : ℕ) (s : σ) (hs : I s) :
    Below (iterate test body n s) (iterate test' body' n s) := by
  induction n generalizing s with
  | zero =>
    cases hv : test s with
    | error e =>
      unfold iterate
      rw [hv]
      trivial
    | ok v =>
      unfold iterate
      rw [hv, htest s v hs hv]
      cases v <;> rfl
  | succ n ih =>
    cases hv : test s with
    | error e =>
      unfold iterate
      rw [hv]
      trivial
    | ok v =>
      cases v with
      | false => rw [iterate_exit hv, iterate_exit (htest s _ hs hv)]; rfl
      | true =>
        rw [iterate_enter hv, iterate_enter (htest s _ hs hv)]
        exact (hb s hs).bind fun t ht => ih t (hI s t hs ht)

end

/-! ## Programs -/

/-- A sequence of primitives and loops. -/
inductive Prog (ι : Type) where
  | nil
  | prim (i : ι) (rest : Prog ι)
  | loop (body rest : Prog ι)

namespace Prog
section
variable {ι : Type}

def append : Prog ι → Prog ι → Prog ι
  | nil, q => q
  | prim i k, q => prim i (k.append q)
  | loop b k, q => loop b (k.append q)

instance instAppend : Append (Prog ι) := ⟨append⟩

@[simp] theorem nil_append (q : Prog ι) : nil ++ q = q := rfl
@[simp] theorem prim_append (i : ι) (k q : Prog ι) : prim i k ++ q = prim i (k ++ q) := rfl
@[simp] theorem loop_append (b k q : Prog ι) : loop b k ++ q = loop b (k ++ q) := rfl

@[simp] theorem append_nil (p : Prog ι) : p ++ nil = p := by
  induction p with
  | nil => rfl
  | prim i k ih => rw [prim_append, ih]
  | loop b k _ ih => rw [loop_append, ih]

theorem append_assoc (p q r : Prog ι) : p ++ q ++ r = p ++ (q ++ r) := by
  induction p with
  | nil => rfl
  | prim i k ih => rw [prim_append, prim_append, prim_append, ih]
  | loop b k _ ih => rw [loop_append, loop_append, loop_append, ih]

theorem last_cases (p : Prog ι) :
    p = nil ∨ (∃ q i, p = q ++ prim i nil) ∨ ∃ q b, p = q ++ loop b nil := by
  induction p with
  | nil => exact .inl rfl
  | prim i k ih =>
    rcases ih with rfl | ⟨q, j, rfl⟩ | ⟨q, b, rfl⟩
    · exact .inr (.inl ⟨nil, i, rfl⟩)
    · exact .inr (.inl ⟨prim i q, j, rfl⟩)
    · exact .inr (.inr ⟨prim i q, b, rfl⟩)
  | loop c k _ ih =>
    rcases ih with rfl | ⟨q, j, rfl⟩ | ⟨q, b, rfl⟩
    · exact .inr (.inr ⟨nil, c, rfl⟩)
    · exact .inr (.inl ⟨loop c q, j, rfl⟩)
    · exact .inr (.inr ⟨loop c q, b, rfl⟩)

/-- Every primitive of the program, at any depth, satisfies `P`. -/
def All (P : ι → Prop) : Prog ι → Prop
  | nil => True
  | prim i k => P i ∧ k.All P
  | loop b k => b.All P ∧ k.All P

theorem all_of_forall {P : ι → Prop} (h : ∀ i, P i) (p : Prog ι) : p.All P := by
  induction p with
  | nil => trivial
  | prim i k ih => exact ⟨h i, ih⟩
  | loop b k ihb ihk => exact ⟨ihb, ihk⟩

theorem All.imp {P Q : ι → Prop} (h : ∀ i, P i → Q i) {p : Prog ι} (hp : p.All P) : p.All Q := by
  induction p with
  | nil => trivial
  | prim i k ih => exact ⟨h i hp.1, ih hp.2⟩
  | loop b k ihb ihk => exact ⟨ihb hp.1, ihk hp.2⟩

theorem all_append {P : ι → Prop} {p q : Prog ι} : (p ++ q).All P ↔ p.All P ∧ q.All P := by
  induction p with
  | nil => simp [All]
  | prim i k ih => simp [All, ih, and_assoc]
  | loop b k _ ih => simp [All, ih, and_assoc]

end

section
variable {ι ε σ : Type} (act : ι → σ → Except ε σ) (test : σ → Except ε Bool)

/-- Run a program, each loop entering its body at most `n` times. -/
def exec (n : ℕ) : Prog ι → σ → Outcome ε σ
  | nil, s => .done s
  | prim i k, s =>
    match act i s with
    | .ok t => k.exec n t
    | .error e => .raised e s
  | loop b k, s => (iterate test (b.exec n) n s).bind (k.exec n)

variable {act test}

@[simp] theorem exec_nil (n : ℕ) (s : σ) : exec act test n nil s = .done s := rfl

theorem ofExcept_bind_exec (n : ℕ) (i : ι) (k : Prog ι) (s : σ) :
    (Outcome.ofExcept s (act i s)).bind (exec act test n k) = exec act test n (prim i k) s := by
  rw [exec]
  cases act i s <;> rfl

theorem exec_prim_ok {i : ι} {k : Prog ι} {n : ℕ} {s t : σ} (h : act i s = .ok t) :
    exec act test n (prim i k) s = exec act test n k t := by
  simp [exec, h]

theorem exec_append (n : ℕ) (p q : Prog ι) (s : σ) :
    exec act test n (p ++ q) s = (exec act test n p s).bind (exec act test n q) := by
  induction p generalizing s with
  | nil => rfl
  | prim i k ih =>
    rw [prim_append, exec, exec]
    cases act i s with
    | ok t => exact ih t
    | error e => rfl
  | loop b k _ ih =>
    rw [loop_append, exec, exec, Outcome.bind_assoc]
    congr 1
    funext t
    exact ih t

theorem exec_preserves {I : σ → Prop} (hact : ∀ i s t, I s → act i s = .ok t → I t) {n : ℕ}
    {p : Prog ι} {s t : σ} (hs : I s) (h : exec act test n p s = .done t) : I t := by
  induction p generalizing s t with
  | nil =>
    cases h
    exact hs
  | prim i k ih =>
    rw [exec] at h
    cases hi : act i s with
    | ok u =>
      rw [hi] at h
      exact ih (hact i s u hs hi) h
    | error e =>
      rw [hi] at h
      cases h
  | loop b k ihb ihk =>
    rw [exec] at h
    obtain ⟨u, hu, hk⟩ := Outcome.bind_eq_done.mp h
    exact ihk (iterate_preserves (fun _ _ hv => ihb hv) hs hu) hk

theorem exec_not_raised (hact : ∀ i s, ∃ t, act i s = .ok t) (htest : ∀ s, ∃ b, test s = .ok b)
    (n : ℕ) (p : Prog ι) (s : σ) : ¬ (exec act test n p s).Raised := by
  induction p generalizing s with
  | nil => exact Outcome.raised_done s
  | prim i k ih =>
    obtain ⟨t, ht⟩ := hact i s
    rw [exec_prim_ok ht]
    exact ih t
  | loop b k ihb ihk =>
    rw [exec]
    exact Outcome.bind_not_raised (iterate_not_raised htest ihb n s) ihk

/-- Primitives that act the same may take each other's place. -/
theorem exec_congr_act {act' : ι → σ → Except ε σ} {p : Prog ι}
    (h : p.All fun i => ∀ s, act i s = act' i s) (n : ℕ) :
    exec act test n p = exec act' test n p := by
  induction p with
  | nil => rfl
  | prim i k ih =>
    funext s
    rw [exec, exec, h.1 s, ih h.2]
  | loop b k ihb ihk =>
    funext s
    rw [exec, exec, ihb h.1, ihk h.2]

/-! ## Restriction -/

/-- The primitive step with a precondition: outside `ok` it raises `e`. -/
def restrict (ok : ι → σ → Bool) (e : ε) (act : ι → σ → Except ε σ) (i : ι) (s : σ) :
    Except ε σ :=
  if ok i s then act i s else .error e

end

/-! ## Repeated primitives -/

section
variable {ι : Type}

/-- `m` copies of a primitive. -/
def copies (i : ι) : ℕ → Prog ι
  | 0 => nil
  | m + 1 => prim i (copies i m)

end

/-! ## Replaced primitives -/

section
variable {ι ι' : Type}

/-- The program with each primitive replaced by a program. -/
def subst (f : ι → Prog ι') : Prog ι → Prog ι'
  | nil => nil
  | prim i k => f i ++ subst f k
  | loop b k => loop (subst f b) (subst f k)

end

/-! ## Refinement between programs -/

section
variable {ι ι' ε ε' σ : Type}

/-- From every state in `I`, `q` has every outcome of `p` that is not an error, with the same
fuel. -/
def Refines (I : σ → Prop) (act : ι → σ → Except ε σ) (test : σ → Except ε Bool)
    (act' : ι' → σ → Except ε' σ) (test' : σ → Except ε' Bool) (p : Prog ι) (q : Prog ι') : Prop :=
  ∀ n s, I s → Below (exec act test n p s) (exec act' test' n q s)

variable {I : σ → Prop} {act : ι → σ → Except ε σ} {test : σ → Except ε Bool}
  {act' : ι' → σ → Except ε' σ} {test' : σ → Except ε' Bool}

theorem Refines.nil : Refines I act test act' test' nil nil := fun _ _ _ => rfl

theorem Refines.refl (p : Prog ι) : Refines I act test act test p p := fun _ _ _ => .refl _

theorem Refines.trans {ι'' ε'' : Type} {act'' : ι'' → σ → Except ε'' σ}
    {test'' : σ → Except ε'' Bool} {p : Prog ι} {q : Prog ι'} {r : Prog ι''}
    (h : Refines I act test act' test' p q) (h' : Refines I act' test' act'' test'' q r) :
    Refines I act test act'' test'' p r :=
  fun n s hs => (h n s hs).trans (h' n s hs)

theorem Refines.append (hact : ∀ i s t, I s → act i s = .ok t → I t) {p r : Prog ι}
    {q t : Prog ι'} (h : Refines I act test act' test' p q)
    (h' : Refines I act test act' test' r t) :
    Refines I act test act' test' (p ++ r) (q ++ t) := by
  intro n s hs
  rw [exec_append, exec_append]
  exact (h n s hs).bind fun u hu => h' n u (exec_preserves hact hs hu)

theorem Refines.of_act {act' : ι → σ → Except ε' σ} (hact : ∀ i s t, I s → act i s = .ok t → I t)
    (htest : ∀ s b, I s → test s = .ok b → test' s = .ok b)
    (h : ∀ i s t, I s → act i s = .ok t → act' i s = .ok t) (p : Prog ι) :
    Refines I act test act' test' p p := by
  induction p with
  | nil => exact .nil
  | prim i k ih =>
    intro n s hs
    rw [exec, exec]
    cases hi : act i s with
    | error e => trivial
    | ok t =>
      rw [h i s t hs hi]
      exact ih n t (hact i s t hs hi)
  | loop b k ihb ihk =>
    intro n s hs
    rw [exec, exec]
    exact (iterate_below htest (ihb n) (fun _ _ hv => exec_preserves hact hv) n s hs).bind
      fun u hu => ihk n u (iterate_preserves (fun _ _ hv => exec_preserves hact hv) hs hu)

/-- Where nothing raises, refinement goes both ways. -/
theorem Refines.symm {p : Prog ι} {q : Prog ι'} (h : Refines I act test act' test' p q)
    (hsafe : ∀ n s, I s → ¬ (exec act test n p s).Raised) : Refines I act' test' act test q p :=
  fun n s hs => (h n s hs).symm (hsafe n s hs)

/-- A run of one primitive refines a primitive that can be built up one step at a time. -/
theorem Refines.copies (mk : ℕ → ι') (hact : ∀ i s t, I s → act i s = .ok t → I t) {i : ι}
    (hzero : ∀ s, I s → act' (mk 0) s = .ok s)
    (hsucc : ∀ m s t u, I s → act i s = .ok t → act' (mk m) t = .ok u →
      act' (mk (m + 1)) s = .ok u) (m : ℕ) :
    Refines I act test act' test' (copies i m) (prim (mk m) .nil) := by
  have hrun : ∀ m s, I s → ∀ n,
      (∃ t, exec act test n (Prog.copies i m) s = .done t ∧ act' (mk m) s = .ok t) ∨
      (exec act test n (Prog.copies i m) s).Raised := by
    intro m
    induction m with
    | zero => exact fun s hs n => .inl ⟨s, rfl, hzero s hs⟩
    | succ m ih =>
      intro s hs n
      rw [Prog.copies, exec]
      cases hi : act i s with
      | error e => exact .inr trivial
      | ok t =>
        rcases ih t (hact i s t hs hi) n with ⟨u, hu, hmk⟩ | hraised
        · exact .inl ⟨u, hu, hsucc m s t u hs hi hmk⟩
        · exact .inr hraised
  intro n s hs
  rcases hrun m s hs n with ⟨t, ht, hmk⟩ | hraised
  · rw [ht, exec_prim_ok hmk]
    rfl
  · cases ho : exec act test n (Prog.copies i m) s with
    | raised e t => trivial
    | done t => simp [ho] at hraised
    | timeout t => simp [ho] at hraised

/-- A run of a primitive that does `f` refines the one that does `f` as many times. -/
theorem Refines.copies_iterate (mk : ℕ → ι') (hact : ∀ i s t, I s → act i s = .ok t → I t) {i : ι}
    {f : σ → σ} (hi : ∀ s t, act i s = .ok t → t = f s) (hmk : ∀ m s, act' (mk m) s = .ok (f^[m] s))
    (m : ℕ) : Refines I act test act' test' (Prog.copies i m) (prim (mk m) .nil) := by
  refine Refines.copies mk hact (fun s _ => hmk 0 s) ?_ m
  intro m s t u _ ht hu
  obtain rfl := hi s t ht
  rw [hmk] at hu
  rw [hmk, Function.iterate_succ_apply]
  exact hu

theorem Refines.merge {i j : ι} {k : ι'}
    (h : ∀ s t u, I s → act i s = .ok t → act j t = .ok u → act' k s = .ok u) :
    Refines I act test act' test' (prim i (prim j .nil)) (prim k .nil) := by
  intro n s hs
  rw [exec]
  cases hi : act i s with
  | error e => trivial
  | ok t =>
    simp only
    rw [exec]
    cases hj : act j t with
    | error e => trivial
    | ok u =>
      rw [exec_prim_ok (h s t u hs hi hj)]
      rfl

theorem Refines.loop (hact : ∀ i s t, I s → act i s = .ok t → I t)
    (htest : ∀ s b, I s → test s = .ok b → test' s = .ok b) {b : Prog ι} {c : Prog ι'}
    (h : Refines I act test act' test' b c) :
    Refines I act test act' test' (loop b .nil) (loop c .nil) := by
  intro n s hs
  rw [exec, exec]
  exact (iterate_below htest (h n) (fun _ _ hv => exec_preserves hact hv) n s hs).bind
    fun _ _ => rfl

theorem Refines.subst (hact : ∀ i s t, I s → act i s = .ok t → I t)
    (htest : ∀ s b, I s → test s = .ok b → test' s = .ok b) {f : ι → Prog ι'} {p : Prog ι}
    (h : p.All fun i => Refines I act test act' test' (prim i .nil) (f i)) :
    Refines I act test act' test' p (p.subst f) := by
  induction p with
  | nil => exact .nil
  | prim i k ih => exact Refines.append hact h.1 (ih h.2)
  | loop b k ihb ihk => exact Refines.append hact (Refines.loop hact htest (ihb h.1)) (ihk h.2)

end
end Prog
end Bfcomp
