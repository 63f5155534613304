import Bfcomp.Foundations.Words
import Mathlib.Data.List.Basic
import Mathlib.Data.List.TakeWhile

/-! # The IR and its builder (`ir_gen.h`, `ir_gen.c`)

`ir_ctx` is a vector of ops and a stack of the addresses of the loops that are still open (the
linked list `patch`, top first). `irCtxParse` reads one NUL-terminated buffer into it. The pointer
arithmetic `ptr += count` becomes the number of characters still to step over. -/

namespace Bfcomp
set_option autoImplicit false

inductive IrOpKind where
  | tape
  | cell
  | loopStart
  | loopEnd
  | write
  | read
  | set
  | max
  deriving DecidableEq

structure IrOp where
  kind : IrOpKind
  arg : ℤ
  deriving DecidableEq

structure IrCtx where
  data : List IrOp := []
  patch : List ℕ := []
  deriving DecidableEq

/-- What a call returns, the context it leaves, and what it prints to `stderr`. -/
structure ParseResult where
  status : ℕ
  ctx : IrCtx
  stderr : List String
  deriving DecidableEq

/-- `ir_ctx_free` reports a loop that is still open. -/
def irCtxFree (ctx : IrCtx) : List String :=
  if ctx.patch ≠ [] then ["unmatched '['"] else []

/-- The length of the run of `c` that starts at the head of `src`. -/
def countChar : List Byte → Byte → ℕ
  | [], _ => 0
  | _ :: src, c => 1 + (src.takeWhile (· = c)).length

def pushOp (ctx : IrCtx) (kind : IrOpKind) (v : ℤ) : IrCtx :=
  { ctx with data := ctx.data ++ [⟨kind, i64 v⟩] }

/-- The four cases `+ - > <`: add to the last op when it has the same kind, else push an op. -/
def coalesce (ctx : IrCtx) (kind : IrOpKind) (v : ℤ) : IrCtx :=
  match ctx.data.getLast? with
  | some op =>
    if op.kind = kind then
      { ctx with data := ctx.data.dropLast ++ [⟨kind, i64 (op.arg + v)⟩] }
    else pushOp ctx kind v
  | none => pushOp ctx kind v

def openLoop (ctx : IrCtx) : IrCtx where
  data := ctx.data ++ [⟨.loopStart, 0⟩]
  patch := ctx.data.length :: ctx.patch

/-- Back-patch the innermost open loop, at `addr`. -/
def closeLoop (ctx : IrCtx) (addr : ℕ) (prev : List ℕ) : IrCtx :=
  let delta : ℤ := (ctx.data.length : ℤ) - addr
  { data := ctx.data.set addr ⟨.loopStart, delta⟩ ++ [⟨.loopEnd, -delta⟩]
    patch := prev }

/-- The `switch` of `ir_ctx_parse` at a run of `count` characters `c`: the new context and the
distance `ptr` advances; `none` for an unmatched `]`. -/
def parseSwitch (ctx : IrCtx) (c : Byte) (count : ℕ) : Option (IrCtx × ℕ) :=
  if c = ascii ',' then some (pushOp ctx .read count, count)
  else if c = ascii '.' then some (pushOp ctx .write count, count)
  else if c = ascii '+' then some (coalesce ctx .cell count, count)
  else if c = ascii '-' then some (coalesce ctx .cell (-count), count)
  else if c = ascii '>' then some (coalesce ctx .tape count, count)
  else if c = ascii '<' then some (coalesce ctx .tape (-count), count)
  else if c = ascii '[' then some (openLoop ctx, 1)
  else if c = ascii ']' then
    match ctx.patch with
    | addr :: prev => some (closeLoop ctx addr prev, 1)
    | [] => none
  else some (ctx, count)

/-- The `while (*ptr)` loop, with `skip` characters of the current run still to step over. -/
def parseLoop (ctx : IrCtx) : ℕ → List Byte → ParseResult
  | _, [] => ⟨0, ctx, []⟩
  | skip + 1, _ :: src => parseLoop ctx skip src
  | 0, c :: src =>
    match parseSwitch ctx c (countChar (c :: src) c) with
    | some (ctx', advance) => parseLoop ctx' (advance - 1) src
    | none => ⟨1, ctx, ["unmatched ']'"]⟩

def irCtxParse (ctx : IrCtx) (src : CString) : ParseResult := parseLoop ctx 0 src.bytes

/-- Successive calls on one context, whatever each returns. -/
def parseCalls (calls : List CString) : IrCtx :=
  calls.foldl (fun ctx src => (irCtxParse ctx src).ctx) {}

/-- The op vector that is interpreted or compiled: the halt op is pushed first. -/
def patchHalt (ctx : IrCtx) : List IrOp := ctx.data ++ [⟨.max, 0⟩]

/-- `ir_fmt_op`. -/
def irFmtOp (op : IrOp) : String :=
  let abs := if op.arg < 0 then i64 (-op.arg) else op.arg
  let addSub := if op.arg < 0 then "sub" else "add"
  match op.kind with
  | .read => "read " ++ toString op.arg
  | .write => "write " ++ toString op.arg
  | .cell => addSub ++ " [$tape] " ++ toString abs
  | .tape => addSub ++ " $tape " ++ toString abs
  | .loopStart => "jz " ++ toString op.arg
  | .loopEnd => "jnz " ++ toString op.arg
  | .max => "halt"
  | .set => "invalid * " ++ toString op.arg

/-! ## The loop, run by run -/

theorem countChar_pos (c : Byte) (src : List Byte) (d : Byte) : 1 ≤ countChar (c :: src) d := by
  simp [countChar]

theorem countChar_le (c : Byte) (src : List Byte) (d : Byte) :
    countChar (c :: src) d ≤ (c :: src).length := by
  have h := (List.takeWhile_prefix (l := src) (· = d)).length_le
  simp only [countChar, List.length_cons]
  omega

theorem parseLoop_skip (ctx : IrCtx) (skip : ℕ) (src : List Byte) :
    parseLoop ctx skip src = parseLoop ctx 0 (src.drop skip) := by
  induction src generalizing skip with
  | nil => cases skip <;> simp [parseLoop]
  | cons c src ih =>
    cases skip with
    | zero => rfl
    | succ skip =>
      rw [parseLoop, List.drop_succ_cons]
      exact ih skip

theorem countChar_run (c : Byte) (src : List Byte) :
    c :: src = List.replicate (countChar (c :: src) c) c ++
      src.drop (countChar (c :: src) c - 1) := by
  have htake : src.takeWhile (· = c) = List.replicate (src.takeWhile (· = c)).length c := by
    rw [List.eq_replicate_iff]
    refine ⟨rfl, fun b hb => ?_⟩
    simpa using List.mem_takeWhile_imp hb
  have hdrop : src.drop (src.takeWhile (· = c)).length = src.dropWhile (· = c) := by
    have happ := List.takeWhile_append_dropWhile (p := (· = c)) (l := src)
    calc src.drop (src.takeWhile (· = c)).length
        = (src.takeWhile (· = c) ++ src.dropWhile (· = c)).drop (src.takeWhile (· = c)).length := by
          rw [happ]
      _ = src.dropWhile (· = c) := List.drop_left
  rw [countChar, Nat.add_sub_cancel_left, hdrop, Nat.add_comm, List.replicate_succ,
    List.cons_append, ← htake, List.takeWhile_append_dropWhile]

theorem parseLoop_cons {ctx ctx' : IrCtx} {c : Byte} {src : List Byte} {advance : ℕ}
    (h : parseSwitch ctx c (countChar (c :: src) c) = some (ctx', advance)) :
    parseLoop ctx 0 (c :: src) = parseLoop ctx' 0 (src.drop (advance - 1)) := by
  rw [parseLoop, h]
  exact parseLoop_skip ctx' (advance - 1) src

theorem parseLoop_unmatched {ctx : IrCtx} {c : Byte} {src : List Byte}
    (h : parseSwitch ctx c (countChar (c :: src) c) = none) :
    parseLoop ctx 0 (c :: src) = ⟨1, ctx, ["unmatched ']'"]⟩ := by
  rw [parseLoop, h]

/-- What every accepted turn of the loop preserves, the whole loop preserves, on success and on
failure. -/
theorem parseLoop_invariant {P : IrCtx → Prop}
    (hstep : ∀ ctx c count ctx' advance, P ctx → 1 ≤ count → count < 2^63 →
      parseSwitch ctx c count = some (ctx', advance) → P ctx') (ctx : IrCtx) (hctx : P ctx)
    (skip : ℕ) (src : List Byte) (hfits : src.length < 2^63) :
    P (parseLoop ctx skip src).ctx := by
  induction src generalizing ctx skip with
  | nil =>
    cases skip <;> exact hctx
  | cons c src ih =>
    have hrest : src.length < 2^63 := by
      rw [List.length_cons] at hfits
      omega
    cases skip with
    | succ skip => exact ih ctx hctx skip hrest
    | zero =>
      rw [parseLoop]
      cases hsw : parseSwitch ctx c (countChar (c :: src) c) with
      | none => exact hctx
      | some r =>
        obtain ⟨ctx', advance⟩ := r
        have hcount := Nat.lt_of_le_of_lt (countChar_le c src c) hfits
        exact ih ctx' (hstep ctx c _ ctx' advance hctx (countChar_pos c src c) hcount hsw) _ hrest

theorem irCtxParse_invariant {P : IrCtx → Prop}
    (hstep : ∀ ctx c count ctx' advance, P ctx → 1 ≤ count → count < 2^63 →
      parseSwitch ctx c count = some (ctx', advance) → P ctx') (ctx : IrCtx) (hctx : P ctx)
    (src : CString) : P (irCtxParse ctx src).ctx :=
  parseLoop_invariant hstep ctx hctx 0 src.bytes src.fits

theorem parseCalls_invariant {P : IrCtx → Prop} (hinit : P {})
    (hstep : ∀ ctx c count ctx' advance, P ctx → 1 ≤ count → count < 2^63 →
      parseSwitch ctx c count = some (ctx', advance) → P ctx') (calls : List CString) :
    P (parseCalls calls) := by
  unfold parseCalls
  generalize ({} : IrCtx) = ctx at hinit
  induction calls generalizing ctx with
  | nil => exact hinit
  | cons src calls ih => exact ih _ (irCtxParse_invariant hstep ctx hinit src)

/-- Everything an accepted turn of the switch can do. -/
theorem parseSwitch_cases {ctx ctx' : IrCtx} {c : Byte} {count advance : ℕ}
    (h : parseSwitch ctx c count = some (ctx', advance)) :
    (∃ kind, (kind = .read ∨ kind = .write) ∧ ctx' = pushOp ctx kind count ∧ advance = count) ∨
    (∃ kind v, (kind = .cell ∨ kind = .tape) ∧ (v = (count : ℤ) ∨ v = -(count : ℤ)) ∧
      ctx' = coalesce ctx kind v ∧ advance = count) ∨
    (ctx' = openLoop ctx ∧ advance = 1) ∨
    (∃ addr prev, ctx.patch = addr :: prev ∧ ctx' = closeLoop ctx addr prev ∧ advance = 1) ∨
    (ctx' = ctx ∧ advance = count) := by
  unfold parseSwitch at h
  split at h
  · cases h
    exact .inl ⟨.read, .inl rfl, rfl, rfl⟩
  split at h
  · cases h
    exact .inl ⟨.write, .inr rfl, rfl, rfl⟩
  split at h
  · cases h
    exact .inr (.inl ⟨.cell, _, .inl rfl, .inl rfl, rfl, rfl⟩)
  split at h
  · cases h
    exact .inr (.inl ⟨.cell, _, .inl rfl, .inr rfl, rfl, rfl⟩)
  split at h
  · cases h
    exact .inr (.inl ⟨.tape, _, .inr rfl, .inl rfl, rfl, rfl⟩)
  split at h
  · cases h
    exact .inr (.inl ⟨.tape, _, .inr rfl, .inr rfl, rfl, rfl⟩)
  split at h
  · cases h
    exact .inr (.inr (.inl ⟨rfl, rfl⟩))
  split at h
  · split at h
    · cases h
      exact .inr (.inr (.inr (.inl ⟨_, _, ‹_›, rfl, rfl⟩)))
    · cases h
  · cases h
    exact .inr (.inr (.inr (.inr ⟨rfl, rfl⟩)))

theorem coalesce_cases (ctx : IrCtx) (kind : IrOpKind) (v : ℤ) :
    (∃ init a, ctx.data = init ++ [⟨kind, a⟩] ∧
      coalesce ctx kind v = { ctx with data := init ++ [⟨kind, i64 (a + v)⟩] }) ∨
    ((∀ op, ctx.data.getLast? = some op → op.kind ≠ kind) ∧
      coalesce ctx kind v = pushOp ctx kind v) := by
  unfold coalesce
  cases hlast : ctx.data.getLast? with
  | none => exact .inr ⟨by simp, rfl⟩
  | some op =>
    by_cases hk : op.kind = kind
    · refine .inl ⟨ctx.data.dropLast, op.arg, ?_, by simp [hk]⟩
      have hmem : op ∈ ctx.data.getLast? := hlast
      rw [← hk]
      exact (List.dropLast_append_getLast? op hmem).symm
    · exact .inr ⟨by simpa using hk, by simp [hk]⟩

/-- What holds of an argument that is wrapped and of any offset holds of every op. -/
theorem parseSwitch_forall {P : IrOp → Prop}
    (hpush : ∀ kind v, kind = .read ∨ kind = .write ∨ kind = .cell ∨ kind = .tape → P ⟨kind, i64 v⟩)
    (hstart : ∀ d, P ⟨.loopStart, d⟩) (hend : ∀ d, P ⟨.loopEnd, d⟩) {ctx ctx' : IrCtx} {c : Byte}
    {count advance : ℕ} (H : ∀ op ∈ ctx.data, P op)
    (h : parseSwitch ctx c count = some (ctx', advance)) : ∀ op ∈ ctx'.data, P op := by
  have hsnoc : ∀ {data : List IrOp} {op : IrOp}, (∀ op ∈ data, P op) → P op →
      ∀ op' ∈ data ++ [op], P op' :=
    fun hdata hop => List.forall_mem_append.mpr ⟨hdata, List.forall_mem_singleton.mpr hop⟩
  rcases parseSwitch_cases h with ⟨kind, hk, rfl, _⟩ | ⟨kind, v, hk, _, rfl, _⟩ | ⟨rfl, _⟩ |
    ⟨addr, prev, _, rfl, _⟩ | ⟨rfl, _⟩
  · exact hsnoc H (hpush kind _ (hk.imp_right .inl))
  · rcases coalesce_cases ctx kind v with ⟨init, a, hdata, he⟩ | ⟨_, he⟩
    · rw [he]
      exact hsnoc (fun op hop => H op (hdata ▸ List.mem_append_left _ hop))
        (hpush kind _ (.inr (.inr hk)))
    · rw [he]
      exact hsnoc H (hpush kind _ (.inr (.inr hk)))
  · exact hsnoc H (hstart 0)
  · refine hsnoc (fun op hop => ?_) (hend _)
    rcases List.mem_or_eq_of_mem_set hop with hop | rfl
    · exact H op hop
    · exact hstart _
  · exact H

end Bfcomp
