import Bfcomp.Frontend.Balance
import Bfcomp.Frontend.Shape
import Bfcomp.Ocaml.Coalesce
import Bfcomp.Ocaml.Parser

/-! # The two parsers side by side

`scan` reads a text one character at a time: the program of the innermost open loop so far, and
those of the loops around it. The OCaml tree of a balanced text is what `scan` ends with
(`scan_parse`); the C context follows it turn by turn, up to coalescing (`parseLoop_follows`). -/

namespace Bfcomp.Ocaml
set_option autoImplicit false

open Interpreter

structure Scan where
  cur : Prog Ir
  outer : List (Prog Ir)

def Scan.next (z : Scan) (c : Byte) : Scan :=
  if c = ascii '[' then ⟨.nil, z.cur :: z.outer⟩
  else if c = ascii ']' then
    match z.outer with
    | p :: ps => ⟨p ++ .loop z.cur .nil, ps⟩
    | [] => z
  else
    match Parser.unitOf c with
    | some i => ⟨z.cur ++ .prim i .nil, z.outer⟩
    | none => z

def scan (z : Scan) (s : List Byte) : Scan := s.foldl Scan.next z

theorem scan_append (z : Scan) (s t : List Byte) : scan z (s ++ t) = scan (scan z s) t :=
  List.foldl_append

@[simp] theorem next_open (z : Scan) : z.next (ascii '[') = ⟨.nil, z.cur :: z.outer⟩ := if_pos rfl

@[simp] theorem next_close (cur p : Prog Ir) (ps : List (Prog Ir)) :
    Scan.next ⟨cur, p :: ps⟩ (ascii ']') = ⟨p ++ .loop cur .nil, ps⟩ := by
  rw [Scan.next, if_neg (by decide), if_pos rfl]

theorem next_unit {c : Byte} {i : Ir} (h : Parser.unitOf c = some i) (z : Scan) :
    z.next c = ⟨z.cur ++ .prim i .nil, z.outer⟩ := by
  have hne : c ≠ ascii '[' ∧ c ≠ ascii ']' := by
    constructor <;> rintro rfl <;> simp [Parser.unitOf, ascii] at h
  rw [Scan.next, if_neg hne.1, if_neg hne.2, h]

theorem next_skip {c : Byte} (ho : c ≠ ascii '[') (hc : c ≠ ascii ']')
    (h : Parser.unitOf c = none) (z : Scan) : z.next c = z := by
  rw [Scan.next, if_neg ho, if_neg hc, h]

/-! ## Balanced texts and their trees -/

/-- A balanced text and the instructions it is parsed to. -/
inductive Tree : List Byte → List Ir → Prop
  | nil : Tree [] []
  | unit {c : Byte} {i : Ir} {w : List Byte} {p : List Ir} (h : Parser.unitOf c = some i)
      (hw : Tree w p) : Tree (c :: w) (i :: p)
  | skip {c : Byte} {w : List Byte} {p : List Ir} (ho : c ≠ ascii '[') (hc : c ≠ ascii ']')
      (h : Parser.unitOf c = none) (hw : Tree w p) : Tree (c :: w) p
  | loop {w v : List Byte} {b p : List Ir} (hw : Tree w b) (hv : Tree v p) :
      Tree (ascii '[' :: w ++ ascii ']' :: v) (.loop b :: p)

/-- With `d + 1` loops open, a text that closes them all closes the innermost one first; with none
open it is balanced. -/
theorem tree_of_openAfter (w : List Byte) :
    (∀ d, openAfter (d + 1) w = some 0 →
      ∃ u p v, w = u ++ ascii ']' :: v ∧ Tree u p ∧ openAfter d v = some 0) ∧
    (openAfter 0 w = some 0 → ∃ p, Tree w p) := by
  induction hn : w.length using Nat.strong_induction_on generalizing w with
  | _ n ih =>
    cases w with
    | nil => exact ⟨fun d h => (by cases h), fun _ => ⟨[], .nil⟩⟩
    | cons c w =>
      rw [List.length_cons] at hn
      have ihw := ih w.length (by omega) w rfl
      rcases Parser.byte_cases c with rfl | rfl | ⟨i, hi⟩ | ⟨ho, hc, hi⟩
      · -- the loop opened here is closed first, and then the rest goes on
        have hrest : ∀ d, openAfter (d + 1) w = some 0 → ∃ u p v,
            w = u ++ ascii ']' :: v ∧ Tree u p ∧ openAfter d v = some 0 ∧ v.length < n := by
          intro d h
          obtain ⟨u, p, v, rfl, hu, hv⟩ := ihw.1 d h
          rw [List.length_append, List.length_cons] at hn
          exact ⟨u, p, v, rfl, hu, hv, by omega⟩
        constructor
        · intro d h
          rw [openAfter_open] at h
          obtain ⟨u, p, v, rfl, hu, hv, hlen⟩ := hrest (d + 1) h
          obtain ⟨u', p', v', rfl, hu', hv'⟩ := (ih v.length hlen v rfl).1 d hv
          exact ⟨_, _, v', by simp, .loop hu hu', hv'⟩
        · intro h
          rw [openAfter_open] at h
          obtain ⟨u, p, v, rfl, hu, hv, hlen⟩ := hrest 0 h
          obtain ⟨p', hp'⟩ := (ih v.length hlen v rfl).2 hv
          exact ⟨_, .loop hu hp'⟩
      · constructor
        · intro d h
          rw [openAfter_close_succ] at h
          exact ⟨[], [], w, rfl, .nil, h⟩
        · intro h
          rw [openAfter_close_zero] at h
          cases h
      · have hne : c ≠ ascii '[' ∧ c ≠ ascii ']' := by
          constructor <;> rintro rfl <;> simp [Parser.unitOf, ascii] at hi
        simp only [openAfter_other hne.1 hne.2]
        constructor
        · intro d h
          obtain ⟨u, p, v, rfl, hu, hv⟩ := ihw.1 d h
          exact ⟨c :: u, i :: p, v, rfl, .unit hi hu, hv⟩
        · intro h
          obtain ⟨p, hp⟩ := ihw.2 h
          exact ⟨i :: p, .unit hi hp⟩
      · simp only [openAfter_other ho hc]
        constructor
        · intro d h
          obtain ⟨u, p, v, rfl, hu, hv⟩ := ihw.1 d h
          exact ⟨c :: u, p, v, rfl, .skip ho hc hi hu, hv⟩
        · intro h
          obtain ⟨p, hp⟩ := ihw.2 h
          exact ⟨p, .skip ho hc hi hp⟩

theorem Tree.parseStream {w : List Byte} {p : List Ir} (h : Tree w p) (rest : List Byte)
    (r : List Ir × List Byte) (acc : List Ir)
    (hrest : ∀ n, rest.length < n → Parser.parseStream n (p.reverse ++ acc) rest = some r) (n : ℕ)
    (hn : (w ++ rest).length < n) : Parser.parseStream n acc (w ++ rest) = some r := by
  induction h generalizing rest r acc n with
  | nil => exact hrest n hn
  | @unit c i w p hi _ ih =>
    obtain ⟨n, rfl⟩ : ∃ m, n = m + 1 := ⟨n - 1, by omega⟩
    rw [List.cons_append, List.length_cons] at hn
    rw [List.cons_append, Parser.parseStream, Parser.parseChar_unit _ _ hi]
    refine ih rest r (i :: acc) (fun m hm => ?_) n (by omega)
    have h := hrest m hm
    rwa [List.reverse_cons, List.append_assoc] at h
  | @skip c w p ho hc hi _ ih =>
    obtain ⟨n, rfl⟩ : ∃ m, n = m + 1 := ⟨n - 1, by omega⟩
    rw [List.cons_append, List.length_cons] at hn
    rw [List.cons_append, Parser.parseStream, Parser.parseChar_skip _ _ ho hc hi]
    exact ih rest r acc hrest n (by omega)
  | @loop w v b p _ _ ihw ihv =>
    obtain ⟨n, rfl⟩ : ∃ m, n = m + 1 := ⟨n - 1, by omega⟩
    have hsplit : ascii '[' :: w ++ ascii ']' :: v ++ rest =
        ascii '[' :: (w ++ ascii ']' :: (v ++ rest)) := by simp
    rw [hsplit, List.length_cons] at hn
    have hbody : Parser.parseStream n [] (w ++ ascii ']' :: (v ++ rest)) =
        some (b.reverse, v ++ rest) := by
      refine ihw (ascii ']' :: (v ++ rest)) _ [] (fun m hm => ?_) n (by omega)
      obtain ⟨m, rfl⟩ : ∃ k, m = k + 1 := ⟨m - 1, by omega⟩
      rw [Parser.parseStream, Parser.parseChar_close, List.append_nil]
    rw [hsplit, Parser.parseStream, Parser.parseChar_open, hbody]
    simp only [Option.map_some, List.reverse_reverse]
    rw [List.length_append, List.length_cons] at hn
    refine ihv rest r (.loop b :: acc) (fun m hm => ?_) n (by omega)
    have h := hrest m hm
    rwa [List.reverse_cons, List.append_assoc] at h

theorem Tree.parse {text : MlString} {p : List Ir} (h : Tree text.bytes p) :
    Parser.parse text = p := by
  have hs := h.parseStream [] (p.reverse, []) [] (by
    intro n hn
    obtain ⟨m, rfl⟩ : ∃ m, n = m + 1 := ⟨n - 1, by omega⟩
    rw [List.append_nil, Parser.parseStream]) (text.bytes.length + 1) (by simp)
  rw [List.append_nil] at hs
  rw [Parser.parse, hs]
  exact List.reverse_reverse p

theorem Tree.scan {w : List Byte} {p : List Ir} (h : Tree w p) (z : Scan) :
    scan z w = ⟨z.cur ++ toProg p, z.outer⟩ := by
  induction h generalizing z with
  | nil => rw [toProg, Prog.append_nil]; rfl
  | @unit c i w p hi _ ih =>
    have hstep : Ocaml.scan z (c :: w) = Ocaml.scan (z.next c) w := rfl
    have hprog : toProg (i :: p) = .prim i (toProg p) := by
      rcases Parser.unitOf_cases hi with ⟨_, rfl⟩ | ⟨_, rfl⟩ | ⟨_, rfl⟩ | ⟨_, rfl⟩ | ⟨_, rfl⟩ |
        ⟨_, rfl⟩ <;> rfl
    rw [hstep, next_unit hi, ih, Prog.append_assoc, hprog]
    rfl
  | @skip c w p ho hc hi _ ih =>
    have hstep : Ocaml.scan z (c :: w) = Ocaml.scan (z.next c) w := rfl
    rw [hstep, next_skip ho hc hi, ih]
  | @loop w v b p _ _ ihw ihv =>
    have hstep : Ocaml.scan z (ascii '[' :: w ++ ascii ']' :: v) =
        Ocaml.scan ((Ocaml.scan (z.next (ascii '[')) w).next (ascii ']')) v := by
      rw [scan_append]
      rfl
    rw [hstep, next_open, ihw, next_close, ihv, Prog.append_assoc]
    rfl

/-- The OCaml parser's tree of a balanced text is what the scan ends with. -/
theorem scan_parse {text : MlString} (h : Balanced text.bytes) :
    scan ⟨.nil, []⟩ text.bytes = ⟨toProg (Parser.parse text), []⟩ := by
  obtain ⟨p, hp⟩ := (tree_of_openAfter text.bytes).2 h
  rw [hp.parse, hp.scan]
  rfl

end Bfcomp.Ocaml
