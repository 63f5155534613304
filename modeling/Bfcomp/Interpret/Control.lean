import Bfcomp.Frontend.Brackets
import Bfcomp.Interpret.Machine
import Mathlib.Logic.Relation

/-! # Where the interpreter's dispatch goes

The dispatch reads the op at `++ip` without a check. `controlStep` is the way of `ip` alone, for
either outcome of a test; the offsets that the parser patched in keep it inside the op vector, and
it ends only at the halt op. Nothing about the tape is needed for this: `Dispatch` is the
interpreter where an access outside the tape may read and leave anything. -/

namespace Bfcomp
set_option autoImplicit false

/-- `ip += delta; ++ip`. -/
def jumpTo (ip : ℕ) (delta : ℤ) : Option ℕ :=
  if 0 ≤ ip + delta then some ((ip + delta).toNat + 1) else none

/-- The next `ip`, where `zero` says whether the byte at the pointer is zero. -/
def controlStep (code : List IrOp) (zero : Bool) (ip : ℕ) : Option ℕ :=
  match code[ip]? with
  | none => none
  | some op =>
    match op.kind with
    | .loopStart => if zero then jumpTo ip op.arg else some (ip + 1)
    | .loopEnd => if zero then some (ip + 1) else jumpTo ip op.arg
    | .max => none
    | _ => some (ip + 1)

/-- One dispatched op, and whether it saw a zero byte. A step that the C code leaves undefined
goes on in any store. -/
inductive Dispatch (code : List IrOp) (cap : ℕ) : Config → Bool → Config → Prop
  | defined {c c' : Config} (h : interpretStep code cap c = some c') :
      Dispatch code cap c (decide (c.store.cell = 0)) c'
  | undefined {c : Config} {zero : Bool} {ip : ℕ} (h : interpretStep code cap c = none)
      (hip : controlStep code zero c.ip = some ip) (s : Store) : Dispatch code cap c zero ⟨ip, s⟩

/-- Some run from the first op leads to `c`. -/
def Reached (code : List IrOp) (cap : ℕ) (s : Store) (c : Config) : Prop :=
  Relation.ReflTransGen (fun c c' => ∃ zero, Dispatch code cap c zero c') ⟨0, s⟩ c

/-! ## The interpreter follows its control -/

section
variable {code : List IrOp} {cap : ℕ}

theorem jumpTo_eq {ip target : ℕ} {delta : ℤ} (h : (target : ℤ) = ip + delta) :
    jumpTo ip delta = some (target + 1) := by
  rw [jumpTo, ← h, if_pos (Int.natCast_nonneg target), Int.toNat_natCast]

theorem jumpTo_of_jump {c c' : Config} {delta : ℤ} (h : jump c delta = some c') :
    jumpTo c.ip delta = some c'.ip := by
  unfold jump at h
  unfold jumpTo
  split at h
  · next hle =>
    rw [if_pos hle]
    cases h
    rfl
  · cases h

theorem interpretStep_control {c c' : Config} (h : interpretStep code cap c = some c') :
    controlStep code (decide (c.store.cell = 0)) c.ip = some c'.ip := by
  unfold controlStep
  cases interpretStep_cases h with
  | tape hop | cell hop | set hop | write hop | read hop =>
    rw [hop]
    rfl
  | enter hop _ hcell | leave hop _ hcell =>
    rw [hop]
    simp only [hcell, decide_true, decide_false]
    rfl
  | skip hop _ hcell hjump | again hop _ hcell hjump =>
    rw [hop]
    simp only [hcell, decide_true, decide_false]
    exact jumpTo_of_jump hjump

theorem Dispatch.control {c c' : Config} {zero : Bool} (h : Dispatch code cap c zero c') :
    controlStep code zero c.ip = some c'.ip := by
  cases h with
  | defined h => exact interpretStep_control h
  | undefined h hip s => exact hip

/-- A state from which control goes on is not stuck. -/
theorem Dispatch.progress {c : Config} {ip : ℕ}
    (h : controlStep code (decide (c.store.cell = 0)) c.ip = some ip) :
    ∃ c', Dispatch code cap c (decide (c.store.cell = 0)) c' := by
  cases hstep : interpretStep code cap c with
  | some c' => exact ⟨c', .defined hstep⟩
  | none => exact ⟨_, .undefined hstep h c.store⟩

end

/-! ## Control stays inside the op vector -/

/-- No op is of a kind that the parser does not emit. -/
def Emitted (data : List IrOp) : Prop := ∀ op ∈ data, op.kind ≠ .set ∧ op.kind ≠ .max

theorem Emitted.parseSwitch {ctx ctx' : IrCtx} {c : Byte} {count advance : ℕ}
    (H : Emitted ctx.data) (h : parseSwitch ctx c count = some (ctx', advance)) :
    Emitted ctx'.data := by
  refine parseSwitch_forall ?_ (fun _ => ⟨nofun, nofun⟩) (fun _ => ⟨nofun, nofun⟩) H h
  rintro kind v (rfl | rfl | rfl | rfl) <;> exact ⟨nofun, nofun⟩

theorem parseCalls_emitted (calls : List CString) : Emitted (parseCalls calls).data :=
  parseCalls_invariant (P := fun ctx => Emitted ctx.data) (fun _ h => (List.not_mem_nil h).elim)
    (fun _ _ _ _ _ H _ _ h => H.parseSwitch h) calls

section
variable {ctx : IrCtx}

theorem patchHalt_lookup {i : ℕ} (h : i < ctx.data.length) : (patchHalt ctx)[i]? = ctx.data[i]? :=
  List.getElem?_append_left h

theorem matched_patchHalt (i j : ℕ) : Matched (patchHalt ctx) i j ↔ Matched ctx.data i j := by
  simp only [Matched, patchHalt, lookup_snoc, IrOp.mk.injEq]
  simp

/-- A pair of brackets, seen from its start: behind the pair on zero, into it otherwise. -/
theorem controlStep_start {i j : ℕ} (h : Matched (patchHalt ctx) i j) (zero : Bool) :
    controlStep (patchHalt ctx) zero i = some (if zero then j + 1 else i + 1) := by
  obtain ⟨d, _, hstart, hj, _⟩ := h
  rw [controlStep, hstart]
  simp only
  cases zero with
  | true => exact jumpTo_eq hj
  | false => rfl

theorem controlStep_end {i j : ℕ} (h : Matched (patchHalt ctx) i j) (zero : Bool) :
    controlStep (patchHalt ctx) zero j = some (if zero then j + 1 else i + 1) := by
  obtain ⟨d, _, _, hj, hend⟩ := h
  rw [controlStep, hend]
  simp only
  cases zero with
  | true => rfl
  | false => exact jumpTo_eq (by omega)

/-- At an op of the parser control goes on, to another op or to the halt op. -/
theorem controlStep_valid (H : BracketInv ctx) (hkinds : Emitted ctx.data) {ip : ℕ}
    (hip : ip < ctx.data.length) (zero : Bool) :
    ∃ ip', controlStep (patchHalt ctx) zero ip = some ip' ∧ ip' < (patchHalt ctx).length := by
  have hlen : (patchHalt ctx).length = ctx.data.length + 1 := List.length_append
  have hop : ctx.data[ip]? = some ctx.data[ip] := List.getElem?_eq_getElem hip
  have hnext : ip + 1 < (patchHalt ctx).length := by omega
  -- the target of a jump is in the vector because the other bracket is
  have hpair {i j : ℕ} (h : Matched ctx.data i j) :
      (if zero then j + 1 else i + 1) < (patchHalt ctx).length := by
    obtain ⟨d, _, hstart, _, hend⟩ := h
    have hi := lookup_lt hstart
    have hj := lookup_lt hend
    split <;> omega
  obtain ⟨hset, hmax⟩ := hkinds _ (List.getElem_mem hip)
  generalize ctx.data[ip] = op at hop hset hmax
  obtain ⟨kind, arg⟩ := op
  have hcode : (patchHalt ctx)[ip]? = some ⟨kind, arg⟩ := (patchHalt_lookup hip).trans hop
  cases kind with
  | loopStart =>
    by_cases hpending : ip ∈ ctx.patch
    · have hzero : arg = 0 := by
        have hpatched := (H.pending ip hpending).symm.trans hop
        cases hpatched
        rfl
      refine ⟨ip + 1, ?_, hnext⟩
      rw [controlStep, hcode, hzero]
      simp only
      cases zero with
      | true => exact jumpTo_eq (Int.add_zero _).symm
      | false => rfl
    · obtain ⟨j, hd, hj, hend⟩ := H.start_matched ip arg hop hpending
      have hmatched : Matched ctx.data ip j := ⟨arg, hd, hop, hj, hend⟩
      exact ⟨_, controlStep_start ((matched_patchHalt ip j).mpr hmatched) zero, hpair hmatched⟩
  | loopEnd =>
    obtain ⟨i, hmatched, _⟩ := H.end_matched ip arg hop
    exact ⟨_, controlStep_end ((matched_patchHalt i ip).mpr hmatched) zero, hpair hmatched⟩
  | set => exact (hset rfl).elim
  | max => exact (hmax rfl).elim
  | tape => exact ⟨ip + 1, by rw [controlStep, hcode], hnext⟩
  | cell => exact ⟨ip + 1, by rw [controlStep, hcode], hnext⟩
  | write => exact ⟨ip + 1, by rw [controlStep, hcode], hnext⟩
  | read => exact ⟨ip + 1, by rw [controlStep, hcode], hnext⟩

theorem controlStep_halt (zero : Bool) :
    controlStep (patchHalt ctx) zero ctx.data.length = none := by
  have hop : (patchHalt ctx)[ctx.data.length]? = some ⟨.max, 0⟩ := List.getElem?_concat_length
  rw [controlStep, hop]

theorem Reached.valid (H : BracketInv ctx) (hkinds : Emitted ctx.data) {cap : ℕ} {s : Store}
    {c : Config} (h : Reached (patchHalt ctx) cap s c) : c.ip < (patchHalt ctx).length := by
  have hlen : (patchHalt ctx).length = ctx.data.length + 1 := List.length_append
  induction h with
  | refl => rw [hlen]; exact Nat.succ_pos _
  | tail _ hstep ih =>
    obtain ⟨zero, hstep⟩ := hstep
    have hcontrol := hstep.control
    next c c' _ =>
    by_cases hip : c.ip < ctx.data.length
    · obtain ⟨ip, hnext, hlt⟩ := controlStep_valid H hkinds hip zero
      rw [hnext, Option.some.injEq] at hcontrol
      rw [← hcontrol]
      exact hlt
    · have hhalt : c.ip = ctx.data.length := by omega
      rw [hhalt, controlStep_halt] at hcontrol
      cases hcontrol

end

/-- Control-flow safety: in every state that a run from any store reaches, `ip` is at an op, the
brackets lead where they should, `SET` is not there, and only the halt op ends the run. -/
theorem interpret_control_safe (calls : List CString) (cap : ℕ) (s : Store) {c : Config}
    (h : Reached (patchHalt (parseCalls calls)) cap s c) :
    c.ip < (patchHalt (parseCalls calls)).length ∧
      (∀ j, Matched (patchHalt (parseCalls calls)) c.ip j → ∀ c',
        Dispatch (patchHalt (parseCalls calls)) cap c true c' → c'.ip = j + 1) ∧
      (∀ d, (patchHalt (parseCalls calls))[c.ip]? = some ⟨.loopEnd, d⟩ →
        ∃! i, Matched (patchHalt (parseCalls calls)) i c.ip ∧ ∀ c',
          Dispatch (patchHalt (parseCalls calls)) cap c false c' → c'.ip = i + 1) ∧
      (∀ d, (patchHalt (parseCalls calls))[c.ip]? ≠ some ⟨.set, d⟩) ∧
      ((∀ zero c', ¬ Dispatch (patchHalt (parseCalls calls)) cap c zero c') →
        c.ip + 1 = (patchHalt (parseCalls calls)).length ∧
          (patchHalt (parseCalls calls))[c.ip]? = some ⟨.max, 0⟩) := by
  have H := parseCalls_bracketInv calls
  have hkinds := parseCalls_emitted calls
  have hlen : (patchHalt (parseCalls calls)).length = (parseCalls calls).data.length + 1 :=
    List.length_append
  have hvalid := h.valid H hkinds
  refine ⟨hvalid, ?_, ?_, ?_, ?_⟩
  · intro j hmatched c' hstep
    have hcontrol := hstep.control
    rw [controlStep_start hmatched] at hcontrol
    exact (Option.some.inj hcontrol).symm
  · intro d hop
    have hdata : (parseCalls calls).data[c.ip]? = some ⟨.loopEnd, d⟩ := by
      simpa [patchHalt, lookup_snoc] using hop
    obtain ⟨i, hmatched, hunique⟩ := H.end_matched c.ip d hdata
    have hcode := (matched_patchHalt i c.ip).mpr hmatched
    refine ⟨i, ⟨hcode, fun c' hstep => ?_⟩, fun i' h' => hunique i' ?_⟩
    · have hcontrol := hstep.control
      rw [controlStep_end hcode] at hcontrol
      exact (Option.some.inj hcontrol).symm
    · exact (matched_patchHalt i' c.ip).mp h'.1
  · intro d hop
    have hset : (parseCalls calls).data[c.ip]? = some ⟨.set, d⟩ := by
      simpa [patchHalt, lookup_snoc] using hop
    exact (hkinds _ (List.mem_of_getElem? hset)).1 rfl
  · intro hstuck
    by_cases hip : c.ip < (parseCalls calls).data.length
    · obtain ⟨ip, hnext, _⟩ := controlStep_valid H hkinds hip (decide (c.store.cell = 0))
      have hprogress : ∃ c', Dispatch (patchHalt (parseCalls calls)) cap c
          (decide (c.store.cell = 0)) c' := Dispatch.progress hnext
      obtain ⟨c', hstep⟩ := hprogress
      exact (hstuck _ c' hstep).elim
    · have hhalt : c.ip = (parseCalls calls).data.length := by omega
      rw [hhalt]
      exact ⟨hlen.symm, List.getElem?_concat_length⟩

def echoText : CString := ⟨[',', '[', '.', ',', ']'].map ascii, by decide, by decide⟩

/-- In `,[.,]` a zero byte leads from the first bracket behind the loop, another one from the second
back into it. -/
theorem interpret_control_safe_echo : ∃ c c' : Config, c.ip = 1 ∧ c'.ip = 4 ∧
    Reached (patchHalt (parseCalls [echoText])) 1 (.start [7]) c ∧
    Reached (patchHalt (parseCalls [echoText])) 1 (.start [7]) c' ∧
    (∀ d, Dispatch (patchHalt (parseCalls [echoText])) 1 c true d → d.ip = 5) ∧
    ∀ d, Dispatch (patchHalt (parseCalls [echoText])) 1 c' false d → d.ip = 2 := by
  have hcode : patchHalt (parseCalls [echoText]) =
      [⟨.read, 1⟩, ⟨.loopStart, 3⟩, ⟨.write, 1⟩, ⟨.read, 1⟩, ⟨.loopEnd, -3⟩, ⟨.max, 0⟩] := by decide
  have hstart : Reached (patchHalt (parseCalls [echoText])) 1 (.start [7])
      ⟨1, (Store.start [7]).readByte⟩ := by
    rw [hcode]
    exact .single ⟨_, .defined rfl⟩
  have hend : Reached (patchHalt (parseCalls [echoText])) 1 (.start [7])
      ⟨4, (Store.start [7]).readByte.writeByte.readByte⟩ := by
    rw [hcode] at hstart ⊢
    exact ((hstart.tail ⟨_, .defined rfl⟩).tail ⟨_, .defined rfl⟩).tail ⟨_, .defined rfl⟩
  obtain ⟨_, hskip, _⟩ := interpret_control_safe [echoText] 1 (.start [7]) hstart
  obtain ⟨_, _, hback, _⟩ := interpret_control_safe [echoText] 1 (.start [7]) hend
  refine ⟨_, _, rfl, rfl, hstart, hend, hskip 4 ⟨3, ?_⟩, fun d hd => ?_⟩
  · rw [hcode]
    exact ⟨by decide, rfl, rfl, rfl⟩
  · obtain ⟨i, ⟨⟨arg, _, _, hj, hop⟩, hjump⟩, _⟩ := hback (-3) (by rw [hcode]; rfl)
    rw [hcode] at hop
    have harg : (-3 : ℤ) = -arg := congrArg IrOp.arg (Option.some.inj hop)
    have hi : i = 1 := by
      simp only at hj
      omega
    rw [hjump d hd, hi]

end Bfcomp
