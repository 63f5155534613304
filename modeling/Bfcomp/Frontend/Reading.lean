import Mathlib.Data.List.Forall2
import Bfcomp.Frontend.Balance
import Bfcomp.Frontend.Shape

/-! # A text read one character at a time

Whatever the instructions of single characters are, reading a text puts them into a structured
program: the program of the innermost open loop so far, and those of the loops around it. If runs of
them may be coalesced, as `R` says, the context that the C parser leaves after a text spells what is
read of it. -/

namespace Bfcomp
set_option autoImplicit false

structure Reading (ι : Type) where
  cur : Prog ι
  outer : List (Prog ι)

section
variable {ι : Type} (unit : Byte → Option ι)

def Reading.next (z : Reading ι) (c : Byte) : Reading ι :=
  if c = ascii '[' then ⟨.nil, z.cur :: z.outer⟩
  else if c = ascii ']' then
    match z.outer with
    | p :: ps => ⟨p ++ .loop z.cur .nil, ps⟩
    | [] => z
  else
    match unit c with
    | some i => ⟨z.cur ++ .prim i .nil, z.outer⟩
    | none => z

def Reading.text (z : Reading ι) (s : List Byte) : Reading ι := s.foldl (Reading.next unit) z

variable {unit}

theorem Reading.text_append (z : Reading ι) (s t : List Byte) :
    z.text unit (s ++ t) = (z.text unit s).text unit t := List.foldl_append

theorem Reading.next_open (z : Reading ι) : z.next unit (ascii '[') = ⟨.nil, z.cur :: z.outer⟩ :=
  if_pos rfl

theorem Reading.next_close (cur p : Prog ι) (ps : List (Prog ι)) :
    Reading.next unit ⟨cur, p :: ps⟩ (ascii ']') = ⟨p ++ .loop cur .nil, ps⟩ := by
  rw [Reading.next, if_neg (by decide), if_pos rfl]

theorem Reading.next_other {c : Byte} (ho : c ≠ ascii '[') (hc : c ≠ ascii ']') (z : Reading ι) :
    z.next unit c =
      match unit c with
      | some i => ⟨z.cur ++ .prim i .nil, z.outer⟩
      | none => z := by
  rw [Reading.next, if_neg ho, if_neg hc]

theorem Reading.text_run {c : Byte} {i : ι} (ho : c ≠ ascii '[') (hc : c ≠ ascii ']')
    (h : unit c = some i) (m : ℕ) (z : Reading ι) :
    z.text unit (List.replicate m c) = ⟨z.cur ++ Prog.copies i m, z.outer⟩ := by
  induction m generalizing z with
  | zero => rw [Prog.copies, Prog.append_nil]; rfl
  | succ m ih =>
    have hstep : z.text unit (List.replicate (m + 1) c) =
        (z.next unit c).text unit (List.replicate m c) := rfl
    rw [hstep, Reading.next_other ho hc, h, ih, Prog.copies, Prog.append_assoc]
    rfl

theorem Reading.text_skip {c : Byte} (ho : c ≠ ascii '[') (hc : c ≠ ascii ']') (h : unit c = none)
    (m : ℕ) (z : Reading ι) : z.text unit (List.replicate m c) = z := by
  induction m with
  | zero => rfl
  | succ m ih =>
    have hstep : z.text unit (List.replicate (m + 1) c) =
        (z.next unit c).text unit (List.replicate m c) := rfl
    rw [hstep, Reading.next_other ho hc, h, ih]

end

/-! ## The op of a run -/

/-- The op that the C parser makes of a run of `m` characters `c`, as long as it stands alone. -/
def runOp (c : Byte) (m : ℕ) : Option Prim :=
  if c = ascii ',' then some (.read (i64 m))
  else if c = ascii '.' then some (.write (i64 m))
  else if c = ascii '+' then some (.cell (i64 m))
  else if c = ascii '-' then some (.cell (i64 (-m)))
  else if c = ascii '>' then some (.tape (i64 m))
  else if c = ascii '<' then some (.tape (i64 (-m)))
  else none

theorem runOp_cases {c : Byte} {m : ℕ} {j : Prim} (h : runOp c m = some j) :
    (c = ascii ',' ∧ j = .read (i64 m)) ∨ (c = ascii '.' ∧ j = .write (i64 m)) ∨
    (c = ascii '+' ∧ j = .cell (i64 m)) ∨ (c = ascii '-' ∧ j = .cell (i64 (-m))) ∨
    (c = ascii '>' ∧ j = .tape (i64 m)) ∨ (c = ascii '<' ∧ j = .tape (i64 (-m))) := by
  unfold runOp at h
  split at h
  · exact .inl ⟨‹_›, (Option.some.inj h).symm⟩
  split at h
  · exact .inr (.inl ⟨‹_›, (Option.some.inj h).symm⟩)
  split at h
  · exact .inr (.inr (.inl ⟨‹_›, (Option.some.inj h).symm⟩))
  split at h
  · exact .inr (.inr (.inr (.inl ⟨‹_›, (Option.some.inj h).symm⟩)))
  split at h
  · exact .inr (.inr (.inr (.inr (.inl ⟨‹_›, (Option.some.inj h).symm⟩))))
  split at h
  · exact .inr (.inr (.inr (.inr (.inr ⟨‹_›, (Option.some.inj h).symm⟩))))
  cases h

/-- The two kinds of ops that the parser coalesces. -/
inductive Coalesces : (ℤ → Prim) → IrOpKind → Prop
  | cell : Coalesces .cell .cell
  | tape : Coalesces .tape .tape

theorem Coalesces.op {mk : ℤ → Prim} {kind : IrOpKind} (h : Coalesces mk kind) (a : ℤ) :
    (mk a).op = ⟨kind, a⟩ := by
  cases h <;> rfl

/-- What a turn of the parse loop does away from brackets. -/
theorem parseSwitch_run {c : Byte} (ho : c ≠ ascii '[') (hc : c ≠ ascii ']') (ctx : IrCtx)
    (m : ℕ) :
    (∃ kind j, runOp c m = some j ∧ j.op = ⟨kind, i64 m⟩ ∧
      parseSwitch ctx c m = some (pushOp ctx kind m, m)) ∨
    (∃ mk kind v, Coalesces mk kind ∧ runOp c m = some (mk (i64 v)) ∧
      parseSwitch ctx c m = some (coalesce ctx kind v, m)) ∨
    (runOp c m = none ∧ parseSwitch ctx c m = some (ctx, m)) := by
  by_cases hread : c = ascii ','
  · subst hread
    exact .inl ⟨_, _, rfl, rfl, rfl⟩
  by_cases hwrite : c = ascii '.'
  · subst hwrite
    exact .inl ⟨_, _, rfl, rfl, rfl⟩
  by_cases hplus : c = ascii '+'
  · subst hplus
    exact .inr (.inl ⟨_, _, _, .cell, rfl, rfl⟩)
  by_cases hminus : c = ascii '-'
  · subst hminus
    exact .inr (.inl ⟨_, _, _, .cell, rfl, rfl⟩)
  by_cases hright : c = ascii '>'
  · subst hright
    exact .inr (.inl ⟨_, _, _, .tape, rfl, rfl⟩)
  by_cases hleft : c = ascii '<'
  · subst hleft
    exact .inr (.inl ⟨_, _, _, .tape, rfl, rfl⟩)
  refine .inr (.inr ⟨?_, ?_⟩)
  · rw [runOp, if_neg hread, if_neg hwrite, if_neg hplus, if_neg hminus, if_neg hright, if_neg hleft]
  · rw [parseSwitch, if_neg hread, if_neg hwrite, if_neg hplus, if_neg hminus, if_neg hright,
      if_neg hleft, if_neg ho, if_neg hc]

/-! ## The context spells what is read -/

section
variable {ι : Type}

/-- What the parser needs of a relation between programs of unit instructions and of ops. -/
structure Spells (R : Prog ι → Prog Prim → Prop) (unit : Byte → Option ι) : Prop where
  nil : R .nil .nil
  append : ∀ {p r q t}, R p q → R r t → R (p ++ r) (q ++ t)
  loop : ∀ {b c}, R b c → R (.loop b .nil) (.loop c .nil)
  merge : ∀ {p q mk kind a b}, Coalesces mk kind →
    R p (q ++ .prim (mk a) (.prim (mk b) .nil)) → R p (q ++ .prim (mk (i64 (a + b))) .nil)
  run : ∀ {c m j}, m < 2^63 → runOp c m = some j →
    ∃ i, unit c = some i ∧ R (Prog.copies i m) (.prim j .nil)
  skip : ∀ {c m}, runOp c m = none → unit c = none

/-- The context holds, segment by segment, what is read. -/
def ReadAs (R : Prog ι → Prog Prim → Prop) (ctx : IrCtx) (z : Reading ι) : Prop :=
  ∃ cur outer, Represents ctx cur outer ∧ R z.cur cur ∧ List.Forall₂ R z.outer outer

variable {R : Prog ι → Prog Prim → Prop} {unit : Byte → Option ι} {ctx ctx' : IrCtx}
  {z : Reading ι}

theorem ReadAs.init (S : Spells R unit) : ReadAs R {} ⟨.nil, []⟩ :=
  ⟨.nil, [], represents_init, S.nil, .nil⟩

theorem ReadAs.push (S : Spells R unit) (H : ReadAs R ctx z) {kind : IrOpKind} {v : ℤ} {j : Prim}
    {p : Prog ι} (hj : j.op = ⟨kind, i64 v⟩) (hp : R p (.prim j .nil)) :
    ReadAs R (pushOp ctx kind v) ⟨z.cur ++ p, z.outer⟩ := by
  obtain ⟨cur, outer, hrep, hcur, houter⟩ := H
  exact ⟨_, outer, hrep.push hj, S.append hcur hp, houter⟩

theorem ReadAs.coalesce (S : Spells R unit) (H : ReadAs R ctx z) {mk : ℤ → Prim}
    {kind : IrOpKind} {v : ℤ} {p : Prog ι} (hmk : Coalesces mk kind)
    (hp : R p (.prim (mk (i64 v)) .nil)) :
    ReadAs R (coalesce ctx kind v) ⟨z.cur ++ p, z.outer⟩ := by
  obtain ⟨cur, outer, hrep, hcur, houter⟩ := H
  have happ := S.append hcur hp
  rcases hrep.coalesce hmk.op (v := v) with ⟨q, a, rfl, hrep'⟩ | hrep'
  · rw [Prog.append_assoc] at happ
    have hmerged := S.merge hmk happ
    rw [i64_add_right] at hmerged
    exact ⟨_, outer, hrep', hmerged, houter⟩
  · exact ⟨_, outer, hrep', happ, houter⟩

theorem ReadAs.openLoop (S : Spells R unit) (H : ReadAs R ctx z) :
    ReadAs R (openLoop ctx) ⟨.nil, z.cur :: z.outer⟩ := by
  obtain ⟨cur, outer, hrep, hcur, houter⟩ := H
  exact ⟨.nil, cur :: outer, hrep.openLoop, S.nil, .cons hcur houter⟩

theorem ReadAs.closeLoop (S : Spells R unit) {addr : ℕ} {prev : List ℕ} (H : ReadAs R ctx z)
    (hpatch : ctx.patch = addr :: prev) :
    ReadAs R (closeLoop ctx addr prev) (z.next unit (ascii ']')) := by
  obtain ⟨cur, outer, hrep, hcur, houter⟩ := H
  obtain ⟨zcur, zouter⟩ := z
  rw [hrep.patch] at hpatch
  cases houter with
  | nil => cases hpatch
  | cons hp hps =>
    rw [addrs] at hpatch
    cases hpatch
    rw [Reading.next_close]
    exact ⟨_, _, hrep.closeLoop, S.append hp (S.loop hcur), hps⟩

theorem ReadAs.turn (S : Spells R unit) (H : ReadAs R ctx z) {c : Byte} {count advance : ℕ}
    (hfits : count < 2^63) (h : parseSwitch ctx c count = some (ctx', advance)) :
    ReadAs R ctx' (z.text unit (List.replicate advance c)) := by
  by_cases ho : c = ascii '['
  · subst ho
    rw [parseSwitch_open] at h
    cases h
    have hopen : z.text unit (List.replicate 1 (ascii '[')) = z.next unit (ascii '[') := rfl
    rw [hopen, Reading.next_open]
    exact H.openLoop S
  by_cases hc : c = ascii ']'
  · subst hc
    rw [parseSwitch_close] at h
    split at h
    · cases h
      exact H.closeLoop S ‹_›
    · cases h
  rcases parseSwitch_run ho hc ctx count with ⟨kind, j, hrun, hj, hsw⟩ |
    ⟨mk, kind, v, hmk, hrun, hsw⟩ | ⟨hrun, hsw⟩
  · rw [hsw] at h
    cases h
    obtain ⟨i, hi, hR⟩ := S.run hfits hrun
    rw [Reading.text_run ho hc hi]
    exact H.push S hj hR
  · rw [hsw] at h
    cases h
    obtain ⟨i, hi, hR⟩ := S.run hfits hrun
    rw [Reading.text_run ho hc hi]
    exact H.coalesce S hmk hR
  · rw [hsw] at h
    cases h
    rw [Reading.text_skip ho hc (S.skip hrun)]
    exact H

/-- On a text without an unmatched `]` the parser ends with a context that spells the text. -/
theorem parseLoop_readAs (S : Spells R unit) (ctx : IrCtx) (src : List Byte)
    (hfits : src.length < 2^63) (hok : (parseLoop ctx 0 src).status = 0) (z : Reading ι)
    (H : ReadAs R ctx z) : ReadAs R (parseLoop ctx 0 src).ctx (z.text unit src) := by
  induction ctx, src using parseLoop_induct generalizing z with
  | hnil ctx => exact H
  | hfail ctx c src hsw =>
    rw [parseLoop_unmatched hsw] at hok
    cases hok
  | hturn ctx c src ctx' advance hsw ih =>
    have hcount := Nat.lt_of_le_of_lt (countChar_le c src c) hfits
    have hturn := H.turn S hcount hsw
    obtain ⟨_, hrun⟩ := parseSwitch_advance hsw
    have hlen : (src.drop (advance - 1)).length < 2^63 := by
      rw [List.length_cons] at hfits
      rw [List.length_drop]
      omega
    rw [parseLoop_cons hsw] at hok ⊢
    rw [hrun, Reading.text_append]
    exact ih hlen hok _ hturn

/-- The context of a balanced text spells the text, and no loop of it is open. -/
theorem irCtxParse_readAs (S : Spells R unit) (src : CString) (h : Balanced src.bytes) :
    ∃ ctx cur, irCtxParse {} src = ⟨0, ctx, []⟩ ∧ Represents ctx cur [] ∧
      (Reading.text unit ⟨.nil, []⟩ src.bytes).outer = [] ∧
      R (Reading.text unit ⟨.nil, []⟩ src.bytes).cur cur := by
  obtain ⟨ctx, hparse, hpatch⟩ := irCtxParse_balanced src h
  have hctx : (parseLoop {} 0 src.bytes).ctx = ctx := congrArg ParseResult.ctx hparse
  obtain ⟨cur, outer, hrep, hcur, houter⟩ := parseLoop_readAs S {} src.bytes src.fits
    (congrArg ParseResult.status hparse) _ (ReadAs.init S)
  rw [hctx] at hrep
  cases hrep.outer_nil hpatch
  exact ⟨ctx, cur, hparse, hrep, List.forall₂_nil_right_iff.mp houter, hcur⟩

end
end Bfcomp
