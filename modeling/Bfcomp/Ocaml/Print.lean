import Bfcomp.Frontend.Balance
import Bfcomp.Ocaml.Interpreter
import Bfcomp.Ocaml.Parser

/-! # The parser on every string, printed back (`show_t` of `bin/main.ml`)

The parser takes a `]` that closes nothing for the end of the program, and the end of the string for
the end of every open loop. What it reads is therefore the commands of the string, cut before the
first unmatched `]`, with the missing `]`s added. -/

namespace Bfcomp.Ocaml
set_option autoImplicit false

open Interpreter

/-! ## Printing -/

/-- `abs`. -/
def absInt (x : ℤ) : ℤ := if x ≥ 0 then x else i63 (-x)

/-- `String.make`. -/
def stringMake (n : ℤ) (c : Byte) : Except Exn (List Byte) :=
  if 0 ≤ n ∧ n ≤ 144115188075855863 then .ok (List.replicate n.toNat c)
  else .error (.invalidArgument "Bytes.create")

mutual

/-- `show_t`; the texts that are put together may have any length. -/
def showT : Ir → Except Exn (List Byte)
  | .tape x => stringMake (absInt x) (if x < 0 then ascii '<' else ascii '>')
  | .cell x => stringMake (absInt x) (if x < 0 then ascii '-' else ascii '+')
  | .set _ => .ok [ascii '[', ascii '-', ascii ']']
  | .read => .ok [ascii ',']
  | .write => .ok [ascii '.']
  | .loop x => (showAll x).map fun w => ascii '[' :: w ++ [ascii ']']

/-- `List.map show_t` and `String.concat ""`. -/
def showAll : List Ir → Except Exn (List Byte)
  | [] => .ok []
  | i :: p => (showT i).bind fun w => (showAll p).map fun v => w ++ v

end

/-- A `Tape` or a `Cell` by one, a `Read` or a `Write`. -/
def ByOne : Ir → Prop
  | .tape n => n = 1 ∨ n = -1
  | .cell n => n = 1 ∨ n = -1
  | .read => True
  | .write => True
  | .set _ => False
  | .loop _ => False

theorem showAll_cons {i : Ir} {p : List Ir} {w v : List Byte} (hi : showT i = .ok w)
    (hp : showAll p = .ok v) : showAll (i :: p) = .ok (w ++ v) := by
  rw [showAll, hi, hp]
  rfl

theorem showT_loop {b : List Ir} {w : List Byte} (h : showAll b = .ok w) :
    showT (.loop b) = .ok (ascii '[' :: w ++ [ascii ']']) := by
  rw [showT, h]
  rfl

theorem showT_unit {c : Byte} {i : Ir} (h : Parser.unitOf c = some i) :
    showT i = .ok [c] ∧ ByOne i := by
  rcases Parser.unitOf_cases h with ⟨rfl, rfl⟩ | ⟨rfl, rfl⟩ | ⟨rfl, rfl⟩ | ⟨rfl, rfl⟩ |
    ⟨rfl, rfl⟩ | ⟨rfl, rfl⟩
  · exact ⟨rfl, .inl rfl⟩
  · exact ⟨rfl, .inr rfl⟩
  · exact ⟨rfl, .inl rfl⟩
  · exact ⟨rfl, .inr rfl⟩
  · exact ⟨rfl, trivial⟩
  · exact ⟨rfl, trivial⟩

/-! ## What of a string is read -/

/-- The eight commands. -/
def isCommand (c : Byte) : Bool :=
  decide (c ∈ [ascii '+', ascii '-', ascii '>', ascii '<', ascii ',', ascii '.', ascii '[',
    ascii ']'])

/-- The text before the first `]` that closes nothing, `d` loops being open before it. -/
def cutUnmatched : ℕ → List Byte → List Byte
  | _, [] => []
  | d, c :: s =>
    if c = ascii '[' then c :: cutUnmatched (d + 1) s
    else if c = ascii ']' then
      if d = 0 then [] else c :: cutUnmatched (d - 1) s
    else c :: cutUnmatched d s

/-- The commands of a string, cut before the first unmatched `]`, and a `]` for each `[` left
open. -/
def completed (s : List Byte) : List Byte :=
  cutUnmatched 0 (s.filter isCommand) ++
    List.replicate ((openAfter 0 (cutUnmatched 0 (s.filter isCommand))).getD 0) (ascii ']')

theorem isCommand_unit {c : Byte} {i : Ir} (h : Parser.unitOf c = some i) :
    isCommand c = true := by
  rcases Parser.unitOf_cases h with ⟨rfl, _⟩ | ⟨rfl, _⟩ | ⟨rfl, _⟩ | ⟨rfl, _⟩ | ⟨rfl, _⟩ |
    ⟨rfl, _⟩ <;> decide

theorem isCommand_skip {c : Byte} (ho : c ≠ ascii '[') (hc : c ≠ ascii ']')
    (h : Parser.unitOf c = none) : isCommand c = false := by
  obtain ⟨h1, h2, h3, h4, h5, h6⟩ := Parser.unitOf_none h
  simp [isCommand, *]

theorem cutUnmatched_append {d e : ℕ} {w : List Byte} (h : openAfter d w = some e)
    (v : List Byte) : cutUnmatched d (w ++ v) = w ++ cutUnmatched e v := by
  induction w generalizing d with
  | nil =>
    cases h
    rfl
  | cons c w ih =>
    rw [openAfter] at h
    rw [List.cons_append, cutUnmatched]
    split
    · rw [if_pos ‹_›] at h
      rw [ih h, List.cons_append]
    · rw [if_neg ‹_›] at h
      split
      · rw [if_pos ‹_›] at h
        split
        · rw [if_pos ‹_›] at h
          cases h
        · rw [if_neg ‹_›] at h
          rw [ih h, List.cons_append]
      · rw [if_neg ‹_›] at h
        rw [ih h, List.cons_append]

/-- Comments open and close nothing. -/
theorem openAfter_filter (d : ℕ) (s : List Byte) :
    openAfter d (s.filter isCommand) = openAfter d s := by
  induction s generalizing d with
  | nil => rfl
  | cons c s ih =>
    rw [List.filter_cons]
    split
    · rw [openAfter, openAfter, ih, ih, ih]
    · rename_i hc
      have ho : c ≠ ascii '[' := by
        rintro rfl
        exact hc (by decide)
      have hcl : c ≠ ascii ']' := by
        rintro rfl
        exact hc (by decide)
      rw [openAfter_other ho hcl, ih]

theorem completed_cut {w : List Byte} (h : Balanced w) (v : List Byte) :
    completed (w ++ ascii ']' :: v) = w.filter isCommand := by
  have hopen : openAfter 0 (w.filter isCommand) = some 0 := by rw [openAfter_filter, h]
  have hclose : isCommand (ascii ']') = true := by decide
  have hcut : cutUnmatched 0 ((w ++ ascii ']' :: v).filter isCommand) = w.filter isCommand := by
    rw [List.filter_append, List.filter_cons, if_pos hclose, cutUnmatched_append hopen,
      cutUnmatched, if_neg (by decide), if_pos rfl, if_pos rfl, List.append_nil]
  rw [completed, hcut, hopen]
  simp

theorem completed_open {s : List Byte} {d : ℕ} (h : openAfter 0 s = some d) :
    completed s = s.filter isCommand ++ List.replicate d (ascii ']') := by
  have hopen : openAfter 0 (s.filter isCommand) = some d := by rw [openAfter_filter, h]
  have hcut := cutUnmatched_append hopen []
  rw [cutUnmatched, List.append_nil] at hcut
  rw [completed, hcut, hopen]
  rfl

/-! ## What the parser reads -/

/-- The instructions `p`, parsed from the front of `s` up to `rest`: a `]` ended them, or the end of
the string did, which then also ended `d` loops inside. -/
inductive Level (s rest : List Byte) (p : List Ir) : Prop
  | closed (w : List Byte) (hs : s = w ++ ascii ']' :: rest) (hw : Balanced w)
      (hshow : showAll p = .ok (w.filter isCommand))
  | ended (d : ℕ) (hrest : rest = []) (hd : openAfter 0 s = some d)
      (hshow : showAll p = .ok (s.filter isCommand ++ List.replicate d (ascii ']')))

theorem Level.unit {c : Byte} {i : Ir} {s rest : List Byte} {p : List Ir}
    (h : Parser.unitOf c = some i) (hl : Level s rest p) : Level (c :: s) rest (i :: p) := by
  have hcommand := isCommand_unit h
  have hne : c ≠ ascii '[' ∧ c ≠ ascii ']' := by
    constructor <;> rintro rfl <;> simp [Parser.unitOf, ascii] at h
  cases hl with
  | closed w hs hw hshow =>
    refine .closed (c :: w) (by rw [hs, List.cons_append]) ?_ ?_
    · rw [Balanced, openAfter_other hne.1 hne.2]
      exact hw
    · rw [List.filter_cons, if_pos hcommand]
      exact showAll_cons (showT_unit h).1 hshow
  | ended d hrest hd hshow =>
    refine .ended d hrest ?_ ?_
    · rw [openAfter_other hne.1 hne.2]
      exact hd
    · rw [List.filter_cons, if_pos hcommand]
      exact showAll_cons (w := [c]) (showT_unit h).1 hshow

theorem Level.skip {c : Byte} {s rest : List Byte} {p : List Ir} (ho : c ≠ ascii '[')
    (hc : c ≠ ascii ']') (h : Parser.unitOf c = none) (hl : Level s rest p) :
    Level (c :: s) rest p := by
  have hcommand := isCommand_skip ho hc h
  cases hl with
  | closed w hs hw hshow =>
    refine .closed (c :: w) (by rw [hs, List.cons_append]) ?_ ?_
    · rw [Balanced, openAfter_other ho hc]
      exact hw
    · rw [List.filter_cons, hcommand]
      exact hshow
  | ended d hrest hd hshow =>
    refine .ended d hrest ?_ ?_
    · rw [openAfter_other ho hc]
      exact hd
    · rw [List.filter_cons, hcommand]
      exact hshow

theorem Level.loop {s mid rest : List Byte} {b p : List Ir} (hb : Level s mid b)
    (hp : Level mid rest p) : Level (ascii '[' :: s) rest (.loop b :: p) := by
  have hopen : isCommand (ascii '[') = true := by decide
  have hclose : isCommand (ascii ']') = true := by decide
  cases hb with
  | closed w hs hw hshow =>
    have hloop := showT_loop hshow
    have hafter : ∀ v, openAfter 0 (ascii '[' :: (w ++ ascii ']' :: v)) = openAfter 0 v := by
      intro v
      have hin := openAfter_add 1 hw
      rw [openAfter_open, openAfter_append, hin, Option.bind_some, openAfter_close_succ]
    cases hp with
    | closed v hmid hv hshow' =>
      refine .closed (ascii '[' :: (w ++ ascii ']' :: v)) (by rw [hs, hmid]; simp) ?_ ?_
      · rw [Balanced, hafter]
        exact hv
      · rw [showAll_cons hloop hshow']
        simp [hopen, hclose]
    | ended d hrest hd hshow' =>
      refine .ended d hrest ?_ ?_
      · rw [hs, hafter]
        exact hd
      · rw [showAll_cons hloop hshow', hs]
        simp [hopen, hclose]
  | ended d hmid hd hshow =>
    have hloop := showT_loop hshow
    cases hp with
    | closed v hmid' _ _ =>
      rw [hmid] at hmid'
      simp at hmid'
    | ended e hrest he hshow' =>
      rw [hmid] at he hshow'
      cases he
      refine .ended (d + 1) hrest ?_ ?_
      · rw [openAfter_open]
        exact openAfter_add 1 hd
      · rw [showAll_cons hloop hshow', List.replicate_succ']
        simp [hopen]

theorem toProg_unit {i : Ir} (hi : ByOne i) (p : List Ir) : toProg (i :: p) = .prim i (toProg p) := by
  cases i with
  | loop b => exact hi.elim
  | _ => rfl

theorem parseStream_level {n : ℕ} {acc : List Ir} {s : List Byte} {r : List Ir × List Byte}
    (h : Parser.parseStream n acc s = some r) :
    ∃ p, r.1 = p.reverse ++ acc ∧ (toProg p).All ByOne ∧ Level s r.2 p := by
  refine Parser.parseStream_induct (P := fun acc s r =>
    ∃ p, r.1 = p.reverse ++ acc ∧ (toProg p).All ByOne ∧ Level s r.2 p) ?_ ?_ ?_ ?_ ?_ h
  · intro acc
    exact ⟨[], rfl, trivial, .ended 0 rfl rfl rfl⟩
  · rintro acc s b s' r ⟨body, hb, hunits, hlevel⟩ ⟨p, hp, hunits', hlevel'⟩
    have hbody : b.reverse = body := by
      have hb' : b = body.reverse ++ [] := hb
      rw [hb', List.append_nil, List.reverse_reverse]
    rw [hbody] at hp
    exact ⟨.loop body :: p, by rw [hp]; simp, ⟨hunits, hunits'⟩, hlevel.loop hlevel'⟩
  · intro acc s
    exact ⟨[], rfl, trivial, .closed [] rfl rfl rfl⟩
  · rintro acc c i s r hi ⟨p, hp, hunits, hlevel⟩
    have hone := (showT_unit hi).2
    refine ⟨i :: p, by rw [hp]; simp, ?_, hlevel.unit hi⟩
    rw [toProg_unit hone]
    exact ⟨hone, hunits⟩
  · rintro acc c s r ho hc hi ⟨p, hp, hunits, hlevel⟩
    exact ⟨p, hp, hunits, hlevel.skip ho hc hi⟩

/-- On every string the parser returns; its program is printed as the completed commands of the
string, and moves and adds by one only. -/
theorem parse_prints (s : MlString) :
    (Parser.parseStream (s.bytes.length + 1) [] s.bytes).isSome ∧
      showAll (Parser.parse s) = .ok (completed s.bytes) ∧
      (toProg (Parser.parse s)).All ByOne := by
  obtain ⟨acc, rest, hs, hparse⟩ := Parser.parse_total s
  obtain ⟨p, hp, hunits, hlevel⟩ := parseStream_level hs
  have hprog : Parser.parse s = p := by
    rw [hparse, show acc = p.reverse ++ [] from hp]
    simp
  rw [hprog]
  refine ⟨by rw [hs]; rfl, ?_, hunits⟩
  cases hlevel with
  | closed w hw hbal hshow => rw [hw, completed_cut hbal, hshow]
  | ended d _ hd hshow => rw [completed_open hd, hshow]

end Bfcomp.Ocaml
