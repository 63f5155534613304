import Bfcomp.Foundations.Runs
import Bfcomp.Foundations.Structured

/-! # Machines that realise structured programs

A step machine realises a structured language when the code of every primitive takes it across
that primitive, and the two ends of every loop jump as the loop's test says. `Realises.run` lifts
this from primitives to whole programs laid out in the machine's code: the machine follows every
execution, and a run that times out with fuel `n` has cost it at least `n` steps. Two machines
that realise one program therefore halt together (`Mirrors.agree`). -/

namespace Bfcomp
set_option autoImplicit false

section
variable {μ ι ε σ π : Type}

/-- The program's code starts at a position, and every way through it ends at a position in `E`.
`LoopAt a b c d`: the opening test of a loop is at `a`, its body lies from `b` to `c`, its closing
test is at `c` and the loop's code ends at `d`. `ForkAt a b b'`: the code at `a` does nothing but
go on at `b` or at `b'`, so what follows it is there twice. -/
inductive Layout (PrimAt : ι → π → π → Prop) (LoopAt : π → π → π → π → Prop)
    (ForkAt : π → π → π → Prop) : Prog ι → π → (π → Prop) → Prop
  | nil {a : π} {E : π → Prop} (h : E a) : Layout PrimAt LoopAt ForkAt .nil a E
  | prim {i : ι} {k : Prog ι} {a b : π} {E : π → Prop} (hi : PrimAt i a b)
      (hk : Layout PrimAt LoopAt ForkAt k b E) : Layout PrimAt LoopAt ForkAt (.prim i k) a E
  | loop {p k : Prog ι} {a b c d : π} {E : π → Prop} (hl : LoopAt a b c d)
      (hp : Layout PrimAt LoopAt ForkAt p b (· = c)) (hk : Layout PrimAt LoopAt ForkAt k d E) :
      Layout PrimAt LoopAt ForkAt (.loop p k) a E
  | fork {k : Prog ι} {a b b' : π} {E : π → Prop} (hf : ForkAt a b b')
      (hk : Layout PrimAt LoopAt ForkAt k b E) (hk' : Layout PrimAt LoopAt ForkAt k b' E) :
      Layout PrimAt LoopAt ForkAt k a E

/-- What a machine must do for primitives and tests. `Rel a s m`: the machine state `m` is at code
position `a` and holds the program state `s`. `Bad`: where an error of the language takes the
machine. -/
structure Realises (step : μ → Option μ) (act : ι → σ → Except ε σ) (test : σ → Except ε Bool)
    (PrimAt : ι → π → π → Prop) (LoopAt : π → π → π → π → Prop) (ForkAt : π → π → π → Prop)
    (Rel : π → σ → μ → Prop) (Bad : μ → Prop) : Prop where
  prim_ok : ∀ {i a b s t m}, PrimAt i a b → Rel a s m → act i s = .ok t →
    ∃ k m', Runs step k m m' ∧ Rel b t m'
  prim_error : ∀ {i a b s e m}, PrimAt i a b → Rel a s m → act i s = .error e → Bad m
  open_error : ∀ {a b c d s e m}, LoopAt a b c d → Rel a s m → test s = .error e → Bad m
  close_error : ∀ {a b c d s e m}, LoopAt a b c d → Rel c s m → test s = .error e → Bad m
  enter : ∀ {a b c d s m}, LoopAt a b c d → Rel a s m → test s = .ok true →
    ∃ k m', 1 ≤ k ∧ Runs step k m m' ∧ Rel b s m'
  skip : ∀ {a b c d s m}, LoopAt a b c d → Rel a s m → test s = .ok false →
    ∃ k m', Runs step k m m' ∧ Rel d s m'
  again : ∀ {a b c d s m}, LoopAt a b c d → Rel c s m → test s = .ok true →
    ∃ k m', 1 ≤ k ∧ Runs step k m m' ∧ Rel b s m'
  leave : ∀ {a b c d s m}, LoopAt a b c d → Rel c s m → test s = .ok false →
    ∃ k m', Runs step k m m' ∧ Rel d s m'
  fork : ∀ {a b b' s m}, ForkAt a b b' → Rel a s m →
    ∃ k m', Runs step k m m' ∧ (Rel b s m' ∨ Rel b' s m')

/-- The machine, started in `m`, follows an outcome to a code position in `E`; a timeout has cost
it at least `n` steps. -/
def Tracks (step : μ → Option μ) (Rel : π → σ → μ → Prop) (Bad : μ → Prop) (n : ℕ) (m : μ)
    (E : π → Prop) : Outcome ε σ → Prop
  | .done t => ∃ k m' c, E c ∧ Runs step k m m' ∧ Rel c t m'
  | .raised _ _ => ∃ k m', Runs step k m m' ∧ Bad m'
  | .timeout t => ∃ k m' c, n ≤ k ∧ Runs step k m m' ∧ Rel c t m'

variable {step : μ → Option μ} {act : ι → σ → Except ε σ} {test : σ → Except ε Bool}
  {PrimAt : ι → π → π → Prop} {LoopAt : π → π → π → π → Prop} {ForkAt : π → π → π → Prop}
  {Rel : π → σ → μ → Prop} {Bad : μ → Prop}

theorem Layout.append {p q : Prog ι} {a : π} {E F : π → Prop}
    (hp : Layout PrimAt LoopAt ForkAt p a E)
    (hq : ∀ b, E b → Layout PrimAt LoopAt ForkAt q b F) :
    Layout PrimAt LoopAt ForkAt (p ++ q) a F := by
  induction hp with
  | nil h => exact hq _ h
  | prim hi _ ih => exact .prim hi (ih hq)
  | loop hl hb _ _ ih => exact .loop hl hb (ih hq)
  | fork hf _ _ ih ih' => exact .fork hf (ih hq) (ih' hq)

/-- A realising machine also realises the restricted language, if the forbidden primitives are
where it goes bad. -/
theorem Realises.restrict
    (H : Realises step act test PrimAt LoopAt ForkAt Rel Bad) {ok : ι → σ → Bool} {e : ε}
    (hbad : ∀ {i a b s m}, PrimAt i a b → Rel a s m → ok i s = false → Bad m) :
    Realises step (Prog.restrict ok e act) test PrimAt LoopAt ForkAt Rel Bad :=
  { H with
    prim_ok := by
      intro i a b s t m hi hrel hact
      unfold Prog.restrict at hact
      split at hact
      · exact H.prim_ok hi hrel hact
      · cases hact
    prim_error := by
      intro i a b s e' m hi hrel hact
      cases hok : ok i s with
      | true =>
        rw [Prog.restrict, hok] at hact
        exact H.prim_error hi hrel hact
      | false => exact hbad hi hrel hok }

theorem Realises.weaken (H : Realises step act test PrimAt LoopAt ForkAt Rel Bad)
    (Bad' : μ → Prop) (h : ∀ m, Bad m → Bad' m) :
    Realises step act test PrimAt LoopAt ForkAt Rel Bad' :=
  { H with
    prim_error := fun hi hrel hact => h _ (H.prim_error hi hrel hact)
    open_error := fun hl hrel htest => h _ (H.open_error hl hrel htest)
    close_error := fun hl hrel htest => h _ (H.close_error hl hrel htest) }

theorem Tracks.prepend {n j : ℕ} {m m' : μ} {E : π → Prop} {o : Outcome ε σ}
    (hr : Runs step j m m') (h : Tracks step Rel Bad n m' E o) :
    Tracks step Rel Bad (j + n) m E o := by
  cases o with
  | done t =>
    obtain ⟨k, m'', c, hc, hk, hrel⟩ := h
    exact ⟨j + k, m'', c, hc, hr.trans hk, hrel⟩
  | raised e t =>
    obtain ⟨k, m'', hk, hbad⟩ := h
    exact ⟨j + k, m'', hr.trans hk, hbad⟩
  | timeout t =>
    obtain ⟨k, m'', c, hn, hk, hrel⟩ := h
    exact ⟨j + k, m'', c, by omega, hr.trans hk, hrel⟩

theorem Tracks.weaken {n n' : ℕ} {m : μ} {E : π → Prop} {o : Outcome ε σ} (hn : n' ≤ n)
    (h : Tracks step Rel Bad n m E o) : Tracks step Rel Bad n' m E o := by
  cases o with
  | done t => exact h
  | raised e t => exact h
  | timeout t =>
    obtain ⟨k, m', c, hk, hr, hrel⟩ := h
    exact ⟨k, m', c, by omega, hr, hrel⟩

/-- A machine that follows an outcome follows what refines to it, errors aside. -/
theorem Tracks.of_below {ε' : Type} {n : ℕ} {m : μ} {E : π → Prop} {o : Outcome ε σ}
    {o' : Outcome ε' σ} (hsafe : ¬ o.Raised) (hbelow : Below o o')
    (h : Tracks step Rel Bad n m E o') : Tracks step Rel Bad n m E o := by
  cases o with
  | done t =>
    have e : o' = .done t := hbelow
    rw [e] at h
    exact h
  | raised e t => exact (hsafe trivial).elim
  | timeout t =>
    have e : o' = .timeout t := hbelow
    rw [e] at h
    exact h

theorem Tracks.bind {n : ℕ} {m : μ} {E F : π → Prop} {o : Outcome ε σ} {f : σ → Outcome ε σ}
    (h : Tracks step Rel Bad n m E o)
    (hf : ∀ c t m', E c → Rel c t m' → Tracks step Rel Bad n m' F (f t)) :
    Tracks step Rel Bad n m F (o.bind f) := by
  cases o with
  | done t =>
    obtain ⟨k, m', c, hc, hr, hrel⟩ := h
    exact ((hf c t m' hc hrel).prepend hr).weaken (by omega)
  | raised e t => exact h
  | timeout t => exact h

theorem Realises.loop_close (H : Realises step act test PrimAt LoopAt ForkAt Rel Bad)
    {a b c d : π} {n : ℕ} {body : σ → Outcome ε σ} (hl : LoopAt a b c d)
    (hbody : ∀ s m, Rel b s m → Tracks step Rel Bad n m (· = c) (body s)) :
    ∀ j ≤ n, ∀ s m, Rel c s m → Tracks step Rel Bad j m (· = d) (iterate test body j s) := by
  intro j
  induction j with
  | zero =>
    intro _ s m hrel
    cases hv : test s with
    | error e =>
      rw [iterate_error hv]
      exact ⟨0, m, .refl m, H.close_error hl hrel hv⟩
    | ok v =>
      cases v with
      | false =>
        rw [iterate_exit hv]
        obtain ⟨k, m', hr, hrel'⟩ := H.leave hl hrel hv
        exact ⟨k, m', d, rfl, hr, hrel'⟩
      | true =>
        rw [iterate_timeout hv]
        exact ⟨0, m, c, Nat.le_refl 0, .refl m, hrel⟩
  | succ j ih =>
    intro hj s m hrel
    cases hv : test s with
    | error e =>
      rw [iterate_error hv]
      exact ⟨0, m, .refl m, H.close_error hl hrel hv⟩
    | ok v =>
      cases v with
      | false =>
        rw [iterate_exit hv]
        obtain ⟨k, m', hr, hrel'⟩ := H.leave hl hrel hv
        exact ⟨k, m', d, rfl, hr, hrel'⟩
      | true =>
        rw [iterate_enter hv]
        obtain ⟨k, m', hk, hr, hrel'⟩ := H.again hl hrel hv
        have hrest : Tracks step Rel Bad j m' (· = d) ((body s).bind (iterate test body j)) := by
          refine ((hbody s m' hrel').weaken (by omega)).bind ?_
          rintro _ t m'' rfl ht
          exact ih (by omega) t m'' ht
        exact (hrest.prepend hr).weaken (by omega)

theorem Realises.loop_open (H : Realises step act test PrimAt LoopAt ForkAt Rel Bad)
    {a b c d : π} {n : ℕ} {body : σ → Outcome ε σ} (hl : LoopAt a b c d)
    (hbody : ∀ s m, Rel b s m → Tracks step Rel Bad n m (· = c) (body s)) (s : σ) (m : μ)
    (hrel : Rel a s m) : Tracks step Rel Bad n m (· = d) (iterate test body n s) := by
  cases hv : test s with
  | error e =>
    rw [iterate_error hv]
    exact ⟨0, m, .refl m, H.open_error hl hrel hv⟩
  | ok v =>
    cases v with
    | false =>
      rw [iterate_exit hv]
      obtain ⟨k, m', hr, hrel'⟩ := H.skip hl hrel hv
      exact ⟨k, m', d, rfl, hr, hrel'⟩
    | true =>
      obtain ⟨k, m', hk, hr, hrel'⟩ := H.enter hl hrel hv
      cases n with
      | zero =>
        rw [iterate_timeout hv]
        exact ⟨0, m, a, Nat.le_refl 0, .refl m, hrel⟩
      | succ n =>
        rw [iterate_enter hv]
        have hrest : Tracks step Rel Bad n m' (· = d) ((body s).bind (iterate test body n)) := by
          refine ((hbody s m' hrel').weaken (by omega)).bind ?_
          rintro _ t m'' rfl ht
          exact H.loop_close hl hbody n (by omega) t m'' ht
        exact (hrest.prepend hr).weaken (by omega)

/-- A realising machine follows the execution of every program laid out in its code. -/
theorem Realises.run (H : Realises step act test PrimAt LoopAt ForkAt Rel Bad) {p : Prog ι} {a : π}
    {E : π → Prop} (hp : Layout PrimAt LoopAt ForkAt p a E) (n : ℕ) :
    ∀ s m, Rel a s m → Tracks step Rel Bad n m E (p.exec act test n s) := by
  induction hp with
  | @nil a E h => exact fun s m hrel => ⟨0, m, a, h, .refl m, hrel⟩
  | @prim i k a b E hi _ ih =>
    intro s m hrel
    rw [Prog.exec]
    cases hact : act i s with
    | ok t =>
      obtain ⟨j, m', hr, hrel'⟩ := H.prim_ok hi hrel hact
      exact ((ih t m' hrel').prepend hr).weaken (by omega)
    | error e => exact ⟨0, m, .refl m, H.prim_error hi hrel hact⟩
  | @loop p k a b c d E hl _ _ ihp ihk =>
    intro s m hrel
    rw [Prog.exec]
    refine (H.loop_open hl ihp s m hrel).bind ?_
    rintro _ t m' rfl ht
    exact ihk t m' ht
  | @fork k a b b' E hf _ _ ih ih' =>
    intro s m hrel
    obtain ⟨j, m', hr, hrel' | hrel'⟩ := H.fork hf hrel
    · exact ((ih s m' hrel').prepend hr).weaken (by omega)
    · exact ((ih' s m' hrel').prepend hr).weaken (by omega)

/-! ## Two machines over one family of executions -/

/-- A machine mirrors a family of executions: none raises, an execution that ends takes the
machine to a stopped state that shows the final state, and one that times out has cost the machine
at least its fuel. -/
structure Mirrors (step : μ → Option μ) (start : μ) (Final View : σ → μ → Prop)
    (run : ℕ → Outcome ε σ) : Prop where
  safe : ∀ n, ¬ (run n).Raised
  done : ∀ n s, run n = .done s → ∃ k m, Runs step k start m ∧ step m = none ∧ Final s m
  timeout : ∀ n s, run n = .timeout s → ∃ k m, n ≤ k ∧ Runs step k start m ∧ View s m

variable {start : μ} {Final View : σ → μ → Prop} {run : ℕ → Outcome ε σ}

theorem not_raised_of_tracks {E : π → Prop} (H : ∀ n, Tracks step Rel Bad n start E (run n))
    (hgood : ∀ k m, Runs step k start m → ¬ Bad m) (n : ℕ) : ¬ (run n).Raised := by
  have h := H n
  intro hraised
  cases ho : run n with
  | done s => simp [ho] at hraised
  | raised e s =>
    rw [ho] at h
    obtain ⟨k, m, hr, hbad⟩ := h
    exact hgood k m hr hbad
  | timeout s => simp [ho] at hraised

/-- A machine that follows executions raising nothing, and stops at their end, mirrors them. -/
theorem Mirrors.of_tracks {E : π → Prop} (H : ∀ n, Tracks step Rel Bad n start E (run n))
    (hsafe : ∀ n, ¬ (run n).Raised) (hview : ∀ c s m, Rel c s m → View s m)
    (hfinal : ∀ c s m, E c → Rel c s m → ∃ k m', Runs step k m m' ∧ step m' = none ∧ Final s m') :
    Mirrors step start Final View run where
  safe := hsafe
  done := by
    intro n s ho
    have h := H n
    rw [ho] at h
    obtain ⟨k, m, c, hc, hr, hrel⟩ := h
    obtain ⟨j, m', hj, hstop, hf⟩ := hfinal c s m hc hrel
    exact ⟨k + j, m', hr.trans hj, hstop, hf⟩
  timeout := by
    intro n s ho
    have h := H n
    rw [ho] at h
    obtain ⟨k, m, c, hn, hr, hrel⟩ := h
    exact ⟨k, m, hn, hr, hview c s m hrel⟩

/-- Past the length of a stopping machine run, the execution ends. -/
theorem Mirrors.done_of_stops (H : Mirrors step start Final View run) {k : ℕ} {m : μ}
    (hr : Runs step k start m) (hstop : step m = none) {n : ℕ} (hn : k < n) :
    ∃ s, run n = .done s ∧ Final s m := by
  cases ho : run n with
  | done s =>
    obtain ⟨k', m', hr', hstop', hfinal⟩ := H.done n s ho
    rw [hr.stopped_unique hstop hr' hstop']
    exact ⟨s, rfl, hfinal⟩
  | raised e s => exact (H.safe n (by rw [ho]; trivial)).elim
  | timeout s =>
    obtain ⟨k', m', hk', hr', _⟩ := H.timeout n s ho
    have hle := hr.le_of_stopped hstop hr'
    omega

/-- What a machine that only ever adds to what it puts out has put out, an execution comes to show. -/
theorem Mirrors.shown {α : Type} {r : α → α → Prop} (f : μ → α) (o : σ → α)
    (H : Mirrors step start Final View run) (hmono : ∀ k m m', Runs step k m m' → r (f m) (f m'))
    (hfinal : ∀ s m, Final s m → f m = o s) (hview : ∀ s m, View s m → f m = o s) {k : ℕ} {m : μ}
    (hr : Runs step k start m) : ∃ s, (run k = .done s ∨ run k = .timeout s) ∧ r (f m) (o s) := by
  cases ho : run k with
  | done s =>
    obtain ⟨j, m', hj, hstop, hf⟩ := H.done k s ho
    have hrest := hj.cut (hj.le_of_stopped hstop hr) hr
    exact ⟨s, .inl rfl, hfinal s m' hf ▸ hmono _ m m' hrest⟩
  | raised e s => exact (H.safe k (by rw [ho]; trivial)).elim
  | timeout s =>
    obtain ⟨j, m', hle, hj, hv⟩ := H.timeout k s ho
    exact ⟨s, .inr rfl, hview s m' hv ▸ hmono _ m m' (hj.cut hle hr)⟩

/-- Steps before the start do not count. -/
theorem Mirrors.prepend {j : ℕ} {m₀ : μ} (hr₀ : Runs step j m₀ start)
    (H : Mirrors step start Final View run) : Mirrors step m₀ Final View run where
  safe := H.safe
  done := by
    intro n s ho
    obtain ⟨k, m, hr, hstop, hf⟩ := H.done n s ho
    exact ⟨j + k, m, hr₀.trans hr, hstop, hf⟩
  timeout := by
    intro n s ho
    obtain ⟨k, m, hn, hr, hv⟩ := H.timeout n s ho
    exact ⟨j + k, m, by omega, hr₀.trans hr, hv⟩

/-- Executions that raise nothing and have the outcomes of others are mirrored with them. -/
theorem Mirrors.of_below {ε' : Type} {run' : ℕ → Outcome ε' σ}
    (H : Mirrors step start Final View run) (hsafe : ∀ n, ¬ (run' n).Raised)
    (hbelow : ∀ n, Below (run' n) (run n)) : Mirrors step start Final View run' where
  safe := hsafe
  done := by
    intro n s ho
    have hn := hbelow n
    rw [ho] at hn
    exact H.done n s hn
  timeout := by
    intro n s ho
    have hn := hbelow n
    rw [ho] at hn
    exact H.timeout n s hn

section
variable {μ' : Type} {step' : μ' → Option μ'} {start' : μ'} {Final' View' : σ → μ' → Prop}

/-- If one of two machines that mirror the same executions stops, so does the other. -/
theorem Mirrors.stops (H : Mirrors step start Final View run)
    (H' : Mirrors step' start' Final' View' run) {k : ℕ} {m : μ} (hr : Runs step k start m)
    (hstop : step m = none) :
    ∃ k' m' s, Runs step' k' start' m' ∧ step' m' = none ∧ Final' s m' := by
  obtain ⟨s, hs, _⟩ := H.done_of_stops hr hstop (Nat.lt_succ_self k)
  obtain ⟨k', m', hr', hstop', hf'⟩ := H'.done _ s hs
  exact ⟨k', m', s, hr', hstop', hf'⟩

/-- Machines that mirror the same executions stop with the same final state. -/
theorem Mirrors.agree (H : Mirrors step start Final View run)
    (H' : Mirrors step' start' Final' View' run) {k k' : ℕ} {m : μ} {m' : μ'}
    (hr : Runs step k start m) (hstop : step m = none) (hr' : Runs step' k' start' m')
    (hstop' : step' m' = none) : ∃ s, Final s m ∧ Final' s m' := by
  have hk : k < k + k' + 1 := by omega
  have hk' : k' < k + k' + 1 := by omega
  obtain ⟨s, hs, hf⟩ := H.done_of_stops hr hstop hk
  obtain ⟨s', hs', hf'⟩ := H'.done_of_stops hr' hstop' hk'
  have e : s = s' := by
    rw [hs] at hs'
    injection hs'
  exact ⟨s, hf, e ▸ hf'⟩

/-- Whatever one machine has shown, the other comes to show: from any state reached by the first
there is a later one that shows the same program state as some state of the second. -/
theorem Mirrors.catch_up (H : Mirrors step start Final View run)
    (H' : Mirrors step' start' Final' View' run) {k : ℕ} {m : μ} (hr : Runs step k start m) :
    ∃ j m₂ k' m' s, Runs step j m m₂ ∧ Runs step' k' start' m' ∧
      (Final s m₂ ∧ Final' s m' ∨ View s m₂ ∧ View' s m') := by
  cases ho : run k with
  | done s =>
    obtain ⟨j, m₂, hj, hstop, hf⟩ := H.done k s ho
    obtain ⟨k', m', hk', _, hf'⟩ := H'.done k s ho
    exact ⟨j - k, m₂, k', m', s, hj.cut (hj.le_of_stopped hstop hr) hr, hk', .inl ⟨hf, hf'⟩⟩
  | raised e s => exact (H.safe k (by rw [ho]; trivial)).elim
  | timeout s =>
    obtain ⟨j, m₂, hle, hj, hv⟩ := H.timeout k s ho
    obtain ⟨k', m', _, hk', hv'⟩ := H'.timeout k s ho
    exact ⟨j - k, m₂, k', m', s, hj.cut hle hr, hk', .inr ⟨hv, hv'⟩⟩

/-- What a machine has put out, the other comes to put out, if machine states put out what the
program states they show do, and the first machine only ever adds to it. -/
theorem Mirrors.puts_out {α : Type} {r : α → α → Prop} (f : μ → α) (f' : μ' → α) (o : σ → α)
    (H : Mirrors step start Final View run) (H' : Mirrors step' start' Final' View' run)
    (hmono : ∀ k m m', Runs step k m m' → r (f m) (f m'))
    (hfinal : ∀ s m, Final s m → f m = o s) (hview : ∀ s m, View s m → f m = o s)
    (hfinal' : ∀ s m, Final' s m → f' m = o s) (hview' : ∀ s m, View' s m → f' m = o s) {k : ℕ}
    {m : μ} (hr : Runs step k start m) :
    ∃ k' m', Runs step' k' start' m' ∧ r (f m) (f' m') := by
  obtain ⟨j, m₂, k', m', s, hj, hr', hshow⟩ := H.catch_up H' hr
  have hsame : f m₂ = f' m' := by
    rcases hshow with ⟨h, h'⟩ | ⟨h, h'⟩
    · rw [hfinal s m₂ h, hfinal' s m' h']
    · rw [hview s m₂ h, hview' s m' h']
  exact ⟨k', m', hr', hsame ▸ hmono j m m₂ hj⟩

end
end
end Bfcomp
