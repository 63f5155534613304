import Bfcomp.Ocaml.Ir

/-! # The OCaml parser (`lib/parser.ml`)

A recursive descent over a stream of characters, here the list of those not yet read. Each call of
`do_rec` costs one unit of fuel; more fuel than characters is always enough. -/

namespace Bfcomp.Ocaml
set_option autoImplicit false

/-- A `string`; it is no longer than `Sys.max_string_length`. -/
structure MlString where
  bytes : List Byte
  fits : bytes.length ≤ 144115188075855863

namespace Parser

/-- `parsed`, with `ends` for its constructor `End`. -/
inductive Parsed (α : Type) where
  | more (x : α)
  | skip
  | ends

/-- `parse_char` up to the call of its continuation: the item, and the stream after it. `nested` is
`parse_stream`. -/
def parseChar (nested : List Byte → Option (List Ir × List Byte)) (s : List Byte) (c : Byte) :
    Option (Parsed Ir × List Byte) :=
  if c = ascii '+' then some (.more (.cell 1), s)
  else if c = ascii '-' then some (.more (.cell (-1)), s)
  else if c = ascii '>' then some (.more (.tape 1), s)
  else if c = ascii '<' then some (.more (.tape (-1)), s)
  else if c = ascii ',' then some (.more .read, s)
  else if c = ascii '.' then some (.more .write, s)
  else if c = ascii '[' then (nested s).map fun r => (.more (.loop r.1.reverse), r.2)
  else if c = ascii ']' then some (.ends, s)
  else some (.skip, s)

/-- `do_rec acc`: the accumulated code, last instruction first, and the rest of the stream. -/
def parseStream : ℕ → List Ir → List Byte → Option (List Ir × List Byte)
  | 0, _, _ => none
  | _ + 1, acc, [] => some (acc, [])
  | n + 1, acc, c :: s =>
    match parseChar (parseStream n []) s c with
    | some (.more i, s') => parseStream n (i :: acc) s'
    | some (.skip, s') => parseStream n acc s'
    | some (.ends, s') => some (acc, s')
    | none => none

def parse (s : MlString) : List Ir :=
  match parseStream (s.bytes.length + 1) [] s.bytes with
  | some (acc, _) => acc.reverse
  | none => []

/-! ## One character -/

/-- The instruction of a character, brackets aside. -/
def unitOf (c : Byte) : Option Ir :=
  if c = ascii '+' then some (.cell 1)
  else if c = ascii '-' then some (.cell (-1))
  else if c = ascii '>' then some (.tape 1)
  else if c = ascii '<' then some (.tape (-1))
  else if c = ascii ',' then some .read
  else if c = ascii '.' then some .write
  else none

theorem unitOf_cases {c : Byte} {i : Ir} (h : unitOf c = some i) :
    (c = ascii '+' ∧ i = .cell 1) ∨ (c = ascii '-' ∧ i = .cell (-1)) ∨
    (c = ascii '>' ∧ i = .tape 1) ∨ (c = ascii '<' ∧ i = .tape (-1)) ∨
    (c = ascii ',' ∧ i = .read) ∨ (c = ascii '.' ∧ i = .write) := by
  unfold unitOf at h
  split at h
  · exact .inl ⟨‹_›, (Option.some.inj h).symm⟩
  split at h
  · exact .inr (.inl ⟨‹_›, (Option.some.inj h).symm⟩)
  split at h
  · exact .inr (.inr (.inl ⟨‹_›, (Option.some.inj h).symm⟩))
  split at h
  · exact .inr (.inr (.inr (.inl ⟨‹_›, (Option.some.inj h).symm⟩)))
  split at h
  · exact .inr (.inr (.inr (.inr (.inl ⟨‹_›, (Option.some.inj h).symm⟩))))
  split at h
  · exact .inr (.inr (.inr (.inr (.inr ⟨‹_›, (Option.some.inj h).symm⟩))))
  · cases h

theorem unitOf_none {c : Byte} (h : unitOf c = none) :
    c ≠ ascii '+' ∧ c ≠ ascii '-' ∧ c ≠ ascii '>' ∧ c ≠ ascii '<' ∧ c ≠ ascii ',' ∧
      c ≠ ascii '.' := by
  refine ⟨?_, ?_, ?_, ?_, ?_, ?_⟩ <;> rintro rfl <;> simp [unitOf, ascii] at h

section
variable (nested : List Byte → Option (List Ir × List Byte)) (s : List Byte)

theorem parseChar_open :
    parseChar nested s (ascii '[') = (nested s).map fun r => (.more (.loop r.1.reverse), r.2) := by
  simp [parseChar, ascii]

theorem parseChar_close : parseChar nested s (ascii ']') = some (.ends, s) := by
  simp [parseChar, ascii]

theorem parseChar_unit {c : Byte} {i : Ir} (h : unitOf c = some i) :
    parseChar nested s c = some (.more i, s) := by
  rcases unitOf_cases h with ⟨rfl, rfl⟩ | ⟨rfl, rfl⟩ | ⟨rfl, rfl⟩ | ⟨rfl, rfl⟩ | ⟨rfl, rfl⟩ |
    ⟨rfl, rfl⟩ <;> simp [parseChar, ascii]

theorem parseChar_skip {c : Byte} (hopen : c ≠ ascii '[') (hclose : c ≠ ascii ']')
    (h : unitOf c = none) : parseChar nested s c = some (.skip, s) := by
  obtain ⟨h1, h2, h3, h4, h5, h6⟩ := unitOf_none h
  simp [parseChar, *]

end

theorem byte_cases (c : Byte) : c = ascii '[' ∨ c = ascii ']' ∨ (∃ i, unitOf c = some i) ∨
    (c ≠ ascii '[' ∧ c ≠ ascii ']' ∧ unitOf c = none) := by
  by_cases ho : c = ascii '['
  · exact .inl ho
  by_cases hc : c = ascii ']'
  · exact .inr (.inl hc)
  cases unitOf c with
  | some i => exact .inr (.inr (.inl ⟨i, rfl⟩))
  | none => exact .inr (.inr (.inr ⟨ho, hc, rfl⟩))

/-! ## The whole stream -/

/-- A call that returns has reached the end, or reads one character and goes on: behind a `[` it has
first returned from the call for the loop. -/
theorem parseStream_induct {P : List Ir → List Byte → List Ir × List Byte → Prop}
    (hnil : ∀ acc, P acc [] (acc, []))
    (hopen : ∀ acc s b s' r, P [] s (b, s') → P (.loop b.reverse :: acc) s' r →
      P acc (ascii '[' :: s) r)
    (hclose : ∀ acc s, P acc (ascii ']' :: s) (acc, s))
    (hunit : ∀ acc c i s r, unitOf c = some i → P (i :: acc) s r → P acc (c :: s) r)
    (hskip : ∀ acc c s r, c ≠ ascii '[' → c ≠ ascii ']' → unitOf c = none → P acc s r →
      P acc (c :: s) r)
    {n : ℕ} {acc : List Ir} {s : List Byte} {r : List Ir × List Byte}
    (h : parseStream n acc s = some r) : P acc s r := by
  induction n generalizing acc s r with
  | zero => cases h
  | succ n ih =>
    cases s with
    | nil =>
      cases h
      exact hnil acc
    | cons c s =>
      rw [parseStream] at h
      rcases byte_cases c with rfl | rfl | ⟨i, hi⟩ | ⟨ho, hc, hi⟩
      · rw [parseChar_open] at h
        cases hn : parseStream n [] s with
        | none =>
          rw [hn] at h
          cases h
        | some q =>
          rw [hn] at h
          exact hopen acc s q.1 q.2 r (ih hn) (ih h)
      · rw [parseChar_close] at h
        cases h
        exact hclose acc s
      · rw [parseChar_unit _ _ hi] at h
        exact hunit acc c i s r hi (ih h)
      · rw [parseChar_skip _ _ ho hc hi] at h
        exact hskip acc c s r ho hc hi (ih h)

theorem parseStream_total {n : ℕ} (acc : List Ir) (s : List Byte) (h : s.length < n) :
    ∃ r, parseStream n acc s = some r ∧ r.2.length ≤ s.length := by
  induction n generalizing acc s with
  | zero => omega
  | succ n ih =>
    cases s with
    | nil => exact ⟨(acc, []), rfl, Nat.le_refl 0⟩
    | cons c s =>
      rw [List.length_cons] at h
      rw [parseStream]
      rcases byte_cases c with rfl | rfl | ⟨i, hi⟩ | ⟨ho, hc, hi⟩
      · obtain ⟨r, hr, hle⟩ := ih [] s (by omega)
        obtain ⟨r', hr', hle'⟩ := ih (.loop r.1.reverse :: acc) r.2 (by omega)
        rw [parseChar_open, hr]
        exact ⟨r', hr', by rw [List.length_cons]; omega⟩
      · rw [parseChar_close]
        exact ⟨(acc, s), rfl, by simp⟩
      · obtain ⟨r, hr, hle⟩ := ih (i :: acc) s (by omega)
        rw [parseChar_unit _ _ hi]
        exact ⟨r, hr, by rw [List.length_cons]; omega⟩
      · obtain ⟨r, hr, hle⟩ := ih acc s (by omega)
        rw [parseChar_skip _ _ ho hc hi]
        exact ⟨r, hr, by rw [List.length_cons]; omega⟩

theorem parse_total (s : MlString) :
    ∃ acc rest, parseStream (s.bytes.length + 1) [] s.bytes = some (acc, rest) ∧
      parse s = acc.reverse := by
  obtain ⟨r, hr, _⟩ := parseStream_total [] s.bytes (Nat.lt_succ_self s.bytes.length)
  exact ⟨r.1, r.2, hr, by rw [parse, hr]⟩

end Parser
end Bfcomp.Ocaml
