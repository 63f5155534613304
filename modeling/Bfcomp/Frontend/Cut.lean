import Bfcomp.Frontend.Balance
import Bfcomp.Frontend.Brackets
import Mathlib.Data.List.Induction

/-! # Sources that come in pieces

A cut may fall inside a run of one character. The parser then joins the two parts of a run of
`+ - < >` by coalescing, but leaves two ops for a run of `,` or of `.`; open loops are carried over
on the patch stack. `normalOps` merges adjacent ops for input or output and computes the loop
offsets anew; up to it a context is what the characters, fed one at a time, leave (`feedAll`), and
these do not see the cuts. -/

namespace Bfcomp
set_option autoImplicit false

/-- Calls on one context, up to the first that fails. -/
def parsePieces (ctx : IrCtx) : List CString → ParseResult
  | [] => ⟨0, ctx, []⟩
  | src :: pieces =>
    if (irCtxParse ctx src).status ≠ 0 then irCtxParse ctx src
    else parsePieces (irCtxParse ctx src).ctx pieces

/-! ## Merged ops and their offsets -/

/-- Add to the last op when it has the same kind, else append. -/
def pushMerged (add : ℤ → ℤ → ℤ) (ops : List IrOp) (op : IrOp) : List IrOp :=
  match ops.getLast? with
  | some last =>
    if last.kind = op.kind then ops.dropLast ++ [⟨op.kind, add last.arg op.arg⟩] else ops ++ [op]
  | none => ops ++ [op]

def mergeOp (ops : List IrOp) (op : IrOp) : List IrOp :=
  if op.kind = .read ∨ op.kind = .write then pushMerged (· + ·) ops op else ops ++ [op]

/-- Every group of adjacent reads, and every group of adjacent writes, as one op. -/
def mergeIo (ops : List IrOp) : List IrOp := ops.foldl mergeOp []

/-- Push an op, with the offsets that its bracket gives. -/
def relinkOp (ctx : IrCtx) (op : IrOp) : IrCtx :=
  match op.kind with
  | .loopStart => openLoop ctx
  | .loopEnd =>
    match ctx.patch with
    | addr :: prev => closeLoop ctx addr prev
    | [] => { ctx with data := ctx.data ++ [⟨.loopEnd, 0⟩] }
  | _ => { ctx with data := ctx.data ++ [op] }

/-- The ops with all loop offsets computed anew. -/
def relink (ops : List IrOp) : IrCtx := ops.foldl relinkOp {}

def normalOps (ops : List IrOp) : List IrOp := (relink (mergeIo ops)).data

theorem pushMerged_same (add : ℤ → ℤ → ℤ) (ops : List IrOp) (kind : IrOpKind) (a b : ℤ) :
    pushMerged add (ops ++ [⟨kind, a⟩]) ⟨kind, b⟩ = ops ++ [⟨kind, add a b⟩] := by
  simp [pushMerged]

theorem pushMerged_cases (add : ℤ → ℤ → ℤ) (ops : List IrOp) (op : IrOp) :
    (∃ init a, ops = init ++ [⟨op.kind, a⟩] ∧
      pushMerged add ops op = init ++ [⟨op.kind, add a op.arg⟩]) ∨
    ((∀ last, ops.getLast? = some last → last.kind ≠ op.kind) ∧
      pushMerged add ops op = ops ++ [op]) := by
  unfold pushMerged
  cases hlast : ops.getLast? with
  | none => exact .inr ⟨nofun, rfl⟩
  | some last =>
    by_cases hk : last.kind = op.kind
    · refine .inl ⟨ops.dropLast, last.arg, ?_, by simp [hk]⟩
      have hmem : last ∈ ops.getLast? := hlast
      rw [← hk]
      exact (List.dropLast_append_getLast? last hmem).symm
    · exact .inr ⟨by simpa using hk, by simp [hk]⟩

theorem pushMerged_pushMerged {add : ℤ → ℤ → ℤ}
    (hassoc : ∀ x y z, add (add x y) z = add x (add y z)) (ops : List IrOp) (kind : IrOpKind)
    (a b : ℤ) : pushMerged add (pushMerged add ops ⟨kind, a⟩) ⟨kind, b⟩ =
      pushMerged add ops ⟨kind, add a b⟩ := by
  rcases pushMerged_cases add ops ⟨kind, a⟩ with ⟨init, x, hops, heq⟩ | ⟨hne, heq⟩
  · rw [heq, hops, pushMerged_same, pushMerged_same, hassoc]
  · rw [heq, pushMerged_same]
    rcases pushMerged_cases add ops ⟨kind, add a b⟩ with ⟨init, x, hops, _⟩ | ⟨_, heq'⟩
    · exact (hne ⟨kind, x⟩ (by rw [hops]; exact List.getLast?_concat) rfl).elim
    · exact heq'.symm

theorem mergeIo_snoc (ops : List IrOp) (op : IrOp) :
    mergeIo (ops ++ [op]) = mergeOp (mergeIo ops) op := by
  rw [mergeIo, List.foldl_append]
  rfl

theorem relink_snoc (ops : List IrOp) (op : IrOp) :
    relink (ops ++ [op]) = relinkOp (relink ops) op := by
  rw [relink, List.foldl_append]
  rfl

theorem mergeIo_last (ops : List IrOp) :
    (mergeIo ops).getLast?.map IrOp.kind = ops.getLast?.map IrOp.kind := by
  induction ops using List.reverseRecOn with
  | nil => rfl
  | append_singleton ops op _ =>
    rw [mergeIo_snoc, mergeOp]
    split
    · rcases pushMerged_cases (· + ·) (mergeIo ops) op with ⟨init, a, _, heq⟩ | ⟨_, heq⟩
      · rw [heq, List.getLast?_concat, List.getLast?_concat]
        rfl
      · rw [heq, List.getLast?_concat, List.getLast?_concat]
    · rw [List.getLast?_concat, List.getLast?_concat]

/-! ## Ops without their offsets -/

def eraseOffset (op : IrOp) : IrOp :=
  if op.kind = .loopStart ∨ op.kind = .loopEnd then ⟨op.kind, 0⟩ else op

theorem eraseOffset_kind (op : IrOp) : (eraseOffset op).kind = op.kind := by
  unfold eraseOffset
  split <;> rfl

theorem relinkOp_eraseOffset (ctx : IrCtx) (op : IrOp) :
    relinkOp ctx (eraseOffset op) = relinkOp ctx op := by
  obtain ⟨kind, arg⟩ := op
  cases kind <;> rfl

theorem relink_eraseOffset (ops : List IrOp) : relink (ops.map eraseOffset) = relink ops := by
  induction ops using List.reverseRecOn with
  | nil => rfl
  | append_singleton ops op ih =>
    rw [List.map_append, List.map_singleton, relink_snoc, relink_snoc, ih, relinkOp_eraseOffset]

/-- An op that no jump follows. -/
def IrOp.Plain (op : IrOp) : Prop := op.kind ≠ .loopStart ∧ op.kind ≠ .loopEnd

theorem IrOp.Plain.eraseOffset {op : IrOp} (h : op.Plain) : Bfcomp.eraseOffset op = op :=
  if_neg fun hk => hk.elim h.1 h.2

theorem pushMerged_eraseOffset {op : IrOp} (h : op.Plain) (add : ℤ → ℤ → ℤ) (ops : List IrOp) :
    pushMerged add (ops.map eraseOffset) op = (pushMerged add ops op).map eraseOffset := by
  rcases pushMerged_cases add ops op with ⟨init, a, rfl, heq⟩ | ⟨hne, heq⟩
  · have hplain (b : ℤ) : eraseOffset ⟨op.kind, b⟩ = ⟨op.kind, b⟩ :=
      (show IrOp.Plain ⟨op.kind, b⟩ from h).eraseOffset
    rw [heq, List.map_append, List.map_append, List.map_singleton, List.map_singleton, hplain,
      hplain]
    exact pushMerged_same add _ op.kind a op.arg
  · rw [heq, List.map_append, List.map_singleton, h.eraseOffset]
    rcases pushMerged_cases add (ops.map eraseOffset) op with ⟨init, a, hops, _⟩ | ⟨_, heq'⟩
    · have hlast : ops.getLast?.map IrOp.kind = some op.kind := by
        have hmap := congrArg (fun l : List IrOp => l.getLast?.map IrOp.kind) hops
        simp only [List.getLast?_map, List.getLast?_concat, Option.map_map, Option.map_some] at hmap
        rw [← hmap]
        exact congrArg (fun f => Option.map f ops.getLast?) (funext fun x => (eraseOffset_kind x).symm)
      obtain ⟨last, hmem, hkind⟩ := Option.map_eq_some_iff.mp hlast
      exact (hne last hmem hkind).elim
    · exact heq'

theorem mergeIo_eraseOffset (ops : List IrOp) :
    mergeIo (ops.map eraseOffset) = (mergeIo ops).map eraseOffset := by
  induction ops using List.reverseRecOn with
  | nil => rfl
  | append_singleton ops op ih =>
    rw [List.map_append, List.map_singleton, mergeIo_snoc, mergeIo_snoc, ih, mergeOp, mergeOp,
      eraseOffset_kind]
    split
    · next hio =>
      have hplain : op.Plain := by rcases hio with h | h <;> exact ⟨by rw [h]; nofun, by rw [h]; nofun⟩
      rw [hplain.eraseOffset, pushMerged_eraseOffset hplain]
    · rw [List.map_append, List.map_singleton]

/-! ## Character by character -/

/-- A context up to offsets and merging: its merged ops, and the number of its pending loops. -/
def summary (ctx : IrCtx) : List IrOp × ℕ :=
  (mergeIo (ctx.data.map eraseOffset), ctx.patch.length)

/-- The sum of two counts of a coalesced op. -/
def wrapAdd (x y : ℤ) : ℤ := i64 (x + y)

theorem wrapAdd_assoc (x y z : ℤ) : wrapAdd (wrapAdd x y) z = wrapAdd x (wrapAdd y z) := by
  unfold wrapAdd
  rw [i64_add_right, Int.add_comm (i64 (x + y)) z, i64_add_right]
  congr 1
  omega

/-- What one character does to a summary; `none` for an unmatched `]`. -/
def feedChar (c : Byte) (s : List IrOp × ℕ) : Option (List IrOp × ℕ) :=
  if c = ascii ',' then some (pushMerged (· + ·) s.1 ⟨.read, 1⟩, s.2)
  else if c = ascii '.' then some (pushMerged (· + ·) s.1 ⟨.write, 1⟩, s.2)
  else if c = ascii '+' then some (pushMerged wrapAdd s.1 ⟨.cell, i64 1⟩, s.2)
  else if c = ascii '-' then some (pushMerged wrapAdd s.1 ⟨.cell, i64 (-1)⟩, s.2)
  else if c = ascii '>' then some (pushMerged wrapAdd s.1 ⟨.tape, i64 1⟩, s.2)
  else if c = ascii '<' then some (pushMerged wrapAdd s.1 ⟨.tape, i64 (-1)⟩, s.2)
  else if c = ascii '[' then some (s.1 ++ [⟨.loopStart, 0⟩], s.2 + 1)
  else if c = ascii ']' then
    if s.2 = 0 then none else some (s.1 ++ [⟨.loopEnd, 0⟩], s.2 - 1)
  else some s

/-- The status, and the summary, after a text. -/
def feedAll : List Byte → List IrOp × ℕ → ℕ × (List IrOp × ℕ)
  | [], s => (0, s)
  | c :: src, s =>
    match feedChar c s with
    | some s' => feedAll src s'
    | none => (1, s)

theorem feedAll_append (src src' : List Byte) (s : List IrOp × ℕ) :
    feedAll (src ++ src') s =
      if (feedAll src s).1 ≠ 0 then feedAll src s else feedAll src' (feedAll src s).2 := by
  induction src generalizing s with
  | nil => rfl
  | cons c src ih =>
    rw [List.cons_append, feedAll, feedAll]
    split
    · exact ih _
    · rfl

theorem feedAll_run {c : Byte} {add : ℤ → ℤ → ℤ} {kind : IrOpKind} (count : ℕ → ℤ)
    (hassoc : ∀ x y z, add (add x y) z = add x (add y z))
    (hcount : ∀ n, 1 ≤ n → add (count n) (count 1) = count (n + 1))
    (hc : ∀ s, feedChar c s = some (pushMerged add s.1 ⟨kind, count 1⟩, s.2)) {n : ℕ} (hn : 1 ≤ n)
    (src : List Byte) (s : List IrOp × ℕ) :
    feedAll (List.replicate n c ++ src) s =
      feedAll src (pushMerged add s.1 ⟨kind, count n⟩, s.2) := by
  induction n, hn using Nat.le_induction generalizing src with
  | base =>
    rw [List.replicate_one, List.singleton_append, feedAll, hc]
  | succ n hn ih =>
    rw [List.replicate_succ', List.append_assoc, ih, List.singleton_append, feedAll, hc]
    simp only
    rw [pushMerged_pushMerged hassoc, hcount n hn]

/-! ## The parser's turns -/

theorem summary_pushOp {ctx : IrCtx} {kind : IrOpKind} (hk : kind = .read ∨ kind = .write) {n : ℕ}
    (hn : n < 2^63) :
    summary (pushOp ctx kind n) =
      (pushMerged (· + ·) (summary ctx).1 ⟨kind, n⟩, (summary ctx).2) := by
  have hplain : IrOp.Plain ⟨kind, (n : ℤ)⟩ := by rcases hk with rfl | rfl <;> exact ⟨nofun, nofun⟩
  have hcount : i64 n = n := i64_of_range (by omega) (by omega)
  simp only [summary, pushOp, hcount]
  rw [List.map_append, List.map_singleton, hplain.eraseOffset, mergeIo_snoc, mergeOp, if_pos hk]

theorem summary_coalesce {kind : IrOpKind} (hk : kind = .cell ∨ kind = .tape) (ctx : IrCtx)
    (v : ℤ) :
    summary (coalesce ctx kind v) =
      (pushMerged wrapAdd (summary ctx).1 ⟨kind, i64 v⟩, (summary ctx).2) := by
  have hsnoc (ops : List IrOp) (a : ℤ) : mergeIo ((ops ++ [(⟨kind, a⟩ : IrOp)]).map eraseOffset) =
      mergeIo (ops.map eraseOffset) ++ [⟨kind, a⟩] := by
    have hplain : IrOp.Plain ⟨kind, a⟩ := by rcases hk with rfl | rfl <;> exact ⟨nofun, nofun⟩
    have hio : ¬ (kind = .read ∨ kind = .write) := by
      rcases hk with rfl | rfl <;> exact fun h => h.elim nofun nofun
    rw [List.map_append, List.map_singleton, hplain.eraseOffset, mergeIo_snoc, mergeOp, if_neg hio]
  rcases coalesce_cases ctx kind v with ⟨init, a, hdata, heq⟩ | ⟨hne, heq⟩
  · rw [heq]
    simp only [summary, hdata, hsnoc]
    rw [pushMerged_same, wrapAdd, i64_add_right]
  · rw [heq]
    simp only [summary, pushOp, hsnoc]
    rcases pushMerged_cases wrapAdd (mergeIo (ctx.data.map eraseOffset)) ⟨kind, i64 v⟩ with
      ⟨init, a, hops, _⟩ | ⟨_, heq'⟩
    · have hlast := mergeIo_last (ctx.data.map eraseOffset)
      rw [hops, List.getLast?_concat, List.getLast?_map, Option.map_map] at hlast
      obtain ⟨last, hmem, hkind⟩ := Option.map_eq_some_iff.mp hlast.symm
      exact (hne last hmem ((eraseOffset_kind last).symm.trans hkind)).elim
    · rw [heq']

theorem summary_openLoop (ctx : IrCtx) :
    summary (openLoop ctx) = ((summary ctx).1 ++ [⟨.loopStart, 0⟩], (summary ctx).2 + 1) := by
  simp only [summary, openLoop]
  rw [List.map_append, List.map_singleton, mergeIo_snoc]
  rfl

theorem eraseOffset_set {ctx : IrCtx} (H : BracketInv ctx) {addr : ℕ} (h : addr ∈ ctx.patch)
    (d : ℤ) : (ctx.data.set addr ⟨.loopStart, d⟩).map eraseOffset = ctx.data.map eraseOffset := by
  have hpending := H.pending addr h
  refine List.ext_getElem? fun i => ?_
  rw [List.getElem?_map, List.getElem?_map, List.getElem?_set]
  split
  · next hi =>
    rw [← hi, hpending, if_pos (lookup_lt hpending)]
    rfl
  · rfl

theorem summary_closeLoop {ctx : IrCtx} (H : BracketInv ctx) {addr : ℕ} {prev : List ℕ}
    (hpatch : ctx.patch = addr :: prev) :
    summary (closeLoop ctx addr prev) =
      ((summary ctx).1 ++ [⟨.loopEnd, 0⟩], (summary ctx).2 - 1) := by
  have hmem : addr ∈ ctx.patch := hpatch ▸ List.mem_cons_self
  simp only [summary, closeLoop]
  rw [List.map_append, List.map_singleton, eraseOffset_set H hmem, mergeIo_snoc, hpatch]
  rfl

section
variable {ctx ctx' : IrCtx} {c : Byte} {count advance : ℕ}

/-- A run of `,` or `.` is one merged operation. -/
theorem feedAll_pushOp {kind : IrOpKind} (hk : kind = .read ∨ kind = .write) (hpos : 1 ≤ count)
    (hfits : count < 2^63)
    (hc : ∀ s, feedChar c s = some (pushMerged (· + ·) s.1 ⟨kind, (1 : ℕ)⟩, s.2))
    (src : List Byte) :
    feedAll (List.replicate count c ++ src) (summary ctx) =
      feedAll src (summary (pushOp ctx kind count)) := by
  rw [summary_pushOp hk hfits]
  exact feedAll_run (fun n => n) Int.add_assoc (fun n _ => rfl) hc hpos src _

/-- A run of `+`, `-`, `>` or `<` is coalesced with what is before it. -/
theorem feedAll_coalesce {kind : IrOpKind} (hk : kind = .cell ∨ kind = .tape) (hpos : 1 ≤ count)
    (sign : ℤ) {v : ℤ} (hv : sign * count = v)
    (hc : ∀ s, feedChar c s =
      some (pushMerged wrapAdd s.1 ⟨kind, i64 (sign * (1 : ℕ))⟩, s.2)) (src : List Byte) :
    feedAll (List.replicate count c ++ src) (summary ctx) =
      feedAll src (summary (coalesce ctx kind v)) := by
  rw [summary_coalesce hk, ← hv]
  refine feedAll_run (fun n => i64 (sign * n)) wrapAdd_assoc (fun n _ => ?_) hc hpos src _
  rw [wrapAdd, i64_add_right, Int.add_comm, i64_add_right, Int.add_comm, ← Int.mul_add]
  rfl

theorem feedAll_closeLoop (H : BracketInv ctx) {addr : ℕ} {prev : List ℕ}
    (hpatch : ctx.patch = addr :: prev) (src : List Byte) :
    feedAll (ascii ']' :: src) (summary ctx) =
      feedAll src (summary (closeLoop ctx addr prev)) := by
  have hdepth : (summary ctx).2 ≠ 0 := by
    simp only [summary, hpatch, List.length_cons]
    omega
  have hclose : feedChar (ascii ']') (summary ctx) =
      some ((summary ctx).1 ++ [⟨.loopEnd, 0⟩], (summary ctx).2 - 1) := if_neg hdepth
  rw [summary_closeLoop H hpatch, feedAll, hclose]

theorem feedAll_skip (hskip : ∀ s, feedChar c s = some s) (src : List Byte)
    (s : List IrOp × ℕ) :
    feedAll (List.replicate count c ++ src) s = feedAll src s := by
  induction count with
  | zero => rfl
  | succ n ih =>
    rw [List.replicate_succ, List.cons_append, feedAll, hskip]
    exact ih

theorem parseSwitch_feedAll (H : BracketInv ctx) (hpos : 1 ≤ count) (hfits : count < 2^63)
    (h : parseSwitch ctx c count = some (ctx', advance)) (src : List Byte) :
    feedAll (List.replicate advance c ++ src) (summary ctx) = feedAll src (summary ctx') := by
  unfold parseSwitch at h
  split at h
  · next hc =>
    cases h
    exact feedAll_pushOp (.inl rfl) hpos hfits (fun s => by rw [hc]; rfl) src
  split at h
  · next hc =>
    cases h
    exact feedAll_pushOp (.inr rfl) hpos hfits (fun s => by rw [hc]; rfl) src
  split at h
  · next hc =>
    cases h
    exact feedAll_coalesce (.inl rfl) hpos 1 (Int.one_mul _) (fun s => by rw [hc]; rfl) src
  split at h
  · next hc =>
    cases h
    exact feedAll_coalesce (.inl rfl) hpos (-1) (by omega) (fun s => by rw [hc]; rfl) src
  split at h
  · next hc =>
    cases h
    exact feedAll_coalesce (.inr rfl) hpos 1 (Int.one_mul _) (fun s => by rw [hc]; rfl) src
  split at h
  · next hc =>
    cases h
    exact feedAll_coalesce (.inr rfl) hpos (-1) (by omega) (fun s => by rw [hc]; rfl) src
  split at h
  · next hc =>
    cases h
    rw [summary_openLoop, hc]
    rfl
  split at h
  · next hc =>
    split at h
    · next addr prev hpatch =>
      cases h
      rw [hc]
      exact feedAll_closeLoop H hpatch src
    · cases h
  · next h1 h2 h3 h4 h5 h6 h7 h8 =>
    cases h
    refine feedAll_skip (fun s => ?_) src _
    unfold feedChar
    rw [if_neg h1, if_neg h2, if_neg h3, if_neg h4, if_neg h5, if_neg h6, if_neg h7, if_neg h8]

end

theorem parseLoop_feedAll (ctx : IrCtx) (src : List Byte) (H : BracketInv ctx)
    (hfits : src.length < 2^63) :
    feedAll src (summary ctx) =
      ((parseLoop ctx 0 src).status, summary (parseLoop ctx 0 src).ctx) := by
  induction ctx, src using parseLoop_induct with
  | hnil ctx => rfl
  | hfail ctx c src hsw =>
    rw [parseLoop_unmatched hsw]
    have hclose : c = ascii ']' ∧ ctx.patch = [] := by
      by_cases ho : c = ascii '['
      · rw [ho, parseSwitch_open] at hsw
        cases hsw
      by_cases hc : c = ascii ']'
      · rw [hc, parseSwitch_close] at hsw
        split at hsw
        · cases hsw
        · exact ⟨hc, ‹_›⟩
      · obtain ⟨ctx', h, _⟩ := parseSwitch_other ho hc ctx (countChar (c :: src) c)
        rw [h] at hsw
        cases hsw
    have hdepth : (summary ctx).2 = 0 := by
      simp only [summary, hclose.2, List.length_nil]
    have hnone : feedChar c (summary ctx) = none := by
      rw [hclose.1]
      exact if_pos hdepth
    rw [feedAll, hnone]
  | hturn ctx c src ctx' advance hsw ih =>
    have hcount := Nat.lt_of_le_of_lt (countChar_le c src c) hfits
    have hturn := parseSwitch_feedAll H (countChar_pos c src c) hcount hsw (src.drop (advance - 1))
    rw [← (parseSwitch_advance hsw).2] at hturn
    have hlen : (src.drop (advance - 1)).length < 2^63 := by
      rw [List.length_drop]
      rw [List.length_cons] at hfits
      omega
    rw [parseLoop_cons hsw, hturn]
    exact ih (H.parseSwitch hsw) hlen

theorem parsePieces_feedAll (ctx : IrCtx) (pieces : List CString) (H : BracketInv ctx) :
    feedAll (pieces.map CString.bytes).flatten (summary ctx) =
      ((parsePieces ctx pieces).status, summary (parsePieces ctx pieces).ctx) := by
  induction pieces generalizing ctx with
  | nil => rfl
  | cons src pieces ih =>
    have hfirst : feedAll src.bytes (summary ctx) =
        ((irCtxParse ctx src).status, summary (irCtxParse ctx src).ctx) :=
      parseLoop_feedAll ctx src.bytes H src.fits
    rw [List.map_cons, List.flatten_cons, feedAll_append, hfirst, parsePieces]
    simp only
    split
    · rfl
    · exact ih _ (irCtxParse_invariant (fun _ _ _ _ _ H _ _ h => H.parseSwitch h) ctx H src)

theorem normalOps_summary (ctx : IrCtx) : normalOps ctx.data = (relink (summary ctx).1).data := by
  rw [normalOps, summary, mergeIo_eraseOffset, relink_eraseOffset]

/-- An accepted turn keeps a context whose offsets are the ones that its brackets give. -/
theorem relink_parseSwitch {ctx ctx' : IrCtx} {c : Byte} {count advance : ℕ} (H : BracketInv ctx)
    (hctx : relink ctx.data = ctx) (h : parseSwitch ctx c count = some (ctx', advance)) :
    relink ctx'.data = ctx' := by
  rcases parseSwitch_cases h with ⟨kind, hk, rfl, _⟩ | ⟨kind, v, hk, _, rfl, _⟩ | ⟨rfl, _⟩ |
    ⟨addr, prev, hpatch, rfl, _⟩ | ⟨rfl, _⟩
  · rw [pushOp, relink_snoc, hctx]
    rcases hk with rfl | rfl <;> rfl
  · have hplain (ctx : IrCtx) (a : ℤ) :
        relinkOp ctx ⟨kind, a⟩ = { ctx with data := ctx.data ++ [⟨kind, a⟩] } := by
      rcases hk with rfl | rfl <;> rfl
    rcases coalesce_cases ctx kind v with ⟨init, a, hdata, heq⟩ | ⟨_, heq⟩
    · rw [hdata, relink_snoc, hplain] at hctx
      have hinit : (relink init).data = init :=
        (List.append_inj' ((congrArg IrCtx.data hctx).trans hdata) rfl).1
      have hpatch := congrArg IrCtx.patch hctx
      simp only at hpatch
      rw [heq, relink_snoc, hplain, hinit, hpatch]
    · rw [heq, pushOp, relink_snoc, hctx, hplain]
  · rw [openLoop, relink_snoc, hctx]
    rfl
  · have hmem : addr ∈ ctx.patch := hpatch ▸ List.mem_cons_self
    rw [closeLoop, relink_snoc, ← relink_eraseOffset, eraseOffset_set H hmem, relink_eraseOffset,
      hctx]
    simp only [relinkOp, hpatch]
    rfl
  · exact hctx

theorem relink_parseCalls (calls : List CString) :
    relink (parseCalls calls).data = parseCalls calls :=
  (parseCalls_invariant (P := fun ctx => BracketInv ctx ∧ relink ctx.data = ctx)
    ⟨bracketInv_init, rfl⟩
    (fun _ _ _ _ _ H _ _ h => ⟨H.1.parseSwitch h, relink_parseSwitch H.1 H.2 h⟩) calls).2

/-- However a text is cut, the calls succeed or fail as one call on the text does, leave as many
loops pending and, up to merging, the same ops. -/
theorem parsePieces_cut (text : CString) (pieces : List CString)
    (hcut : text.bytes = (pieces.map CString.bytes).flatten) :
    (parsePieces {} pieces).status = (irCtxParse {} text).status ∧
      (parsePieces {} pieces).ctx.patch.length = (irCtxParse {} text).ctx.patch.length ∧
      normalOps (parsePieces {} pieces).ctx.data = normalOps (irCtxParse {} text).ctx.data := by
  have hwhole : feedAll text.bytes (summary {}) =
      ((irCtxParse {} text).status, summary (irCtxParse {} text).ctx) :=
    parseLoop_feedAll {} text.bytes bracketInv_init text.fits
  rw [hcut, parsePieces_feedAll {} pieces bracketInv_init] at hwhole
  obtain ⟨hstatus, hsummary⟩ := Prod.mk.inj hwhole
  refine ⟨hstatus, congrArg Prod.snd hsummary, ?_⟩
  rw [normalOps_summary, normalOps_summary, hsummary]

/-- Two reads in one text, and cut between them. -/
theorem parsePieces_cut_reads :
    let text : CString := ⟨[ascii ',', ascii ','], by decide, by decide⟩
    let piece : CString := ⟨[ascii ','], by decide, by decide⟩
    normalOps (parsePieces {} [piece, piece]).ctx.data = normalOps (irCtxParse {} text).ctx.data :=
  (parsePieces_cut ⟨[ascii ',', ascii ','], by decide, by decide⟩
    [⟨[ascii ','], by decide, by decide⟩, ⟨[ascii ','], by decide, by decide⟩] rfl).2.2

end Bfcomp
