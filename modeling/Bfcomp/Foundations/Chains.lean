import Mathlib.Data.List.Nodup
import Mathlib.Logic.Function.Basic

/-! # Singly linked lists in a heap

`next a` is what the link of the node at `a` holds: `none` if there is no node at `a`, else the
address of the next node or `some none` at the end. A chain is the list of nodes that a pointer
leads to; it is determined by the pointer and never meets itself, and what does not touch its nodes
leaves it alone. -/

namespace Bfcomp
set_option autoImplicit false

section
variable {α : Type}

/-- From the pointer `p` the links lead over the nodes `l` to the pointer `q`. -/
def Segment (next : α → Option (Option α)) : Option α → List α → Option α → Prop
  | p, [], q => p = q
  | p, a :: l, q => p = some a ∧ ∃ r, next a = some r ∧ Segment next r l q

/-- The nodes of a list that ends. -/
def Chain (next : α → Option (Option α)) (p : Option α) (l : List α) : Prop := Segment next p l none

variable {next next' : α → Option (Option α)} {p q r : Option α} {a : α} {l l' : List α}

theorem segment_append :
    Segment next p (l ++ l') q ↔ ∃ r, Segment next p l r ∧ Segment next r l' q := by
  induction l generalizing p with
  | nil =>
    constructor
    · exact fun h => ⟨p, rfl, h⟩
    · rintro ⟨r, rfl, h⟩
      exact h
  | cons a l ih =>
    constructor
    · rintro ⟨hp, s, hs, h⟩
      obtain ⟨r, hl, hl'⟩ := ih.mp h
      exact ⟨r, ⟨hp, s, hs, hl⟩, hl'⟩
    · rintro ⟨r, ⟨hp, s, hs, hl⟩, hl'⟩
      exact ⟨hp, s, hs, ih.mpr ⟨r, hl, hl'⟩⟩

theorem Segment.congr (h : Segment next p l q) (heq : ∀ a ∈ l, next' a = next a) :
    Segment next' p l q := by
  induction l generalizing p with
  | nil => exact h
  | cons a l ih =>
    obtain ⟨hp, r, hr, hl⟩ := h
    refine ⟨hp, r, ?_, ih hl fun b hb => heq b (List.mem_cons_of_mem a hb)⟩
    rw [heq a List.mem_cons_self]
    exact hr

/-- A segment that ends in a node can be led elsewhere by changing the link of that node. -/
theorem Segment.redirect [DecidableEq α] (h : Segment next p (l ++ [a]) q) (ha : a ∉ l) (r : Option α) :
    Segment (Function.update next a (some r)) p (l ++ [a]) r := by
  obtain ⟨s, hl, hs, t, _, _⟩ := segment_append.mp h
  refine segment_append.mpr ⟨s, hl.congr fun b hb => ?_, hs, r, Function.update_self _ _ _, rfl⟩
  refine Function.update_of_ne ?_ _ _
  rintro rfl
  exact ha hb

theorem Chain.nil : Chain next none [] := rfl

theorem Chain.cons (ha : next a = some p) (h : Chain next p l) : Chain next (some a) (a :: l) :=
  ⟨rfl, p, ha, h⟩

theorem Chain.congr (h : Chain next p l) (heq : ∀ a ∈ l, next' a = next a) : Chain next' p l :=
  Segment.congr h heq

theorem Chain.of_none (h : Chain next none l) : l = [] := by
  cases l with
  | nil => rfl
  | cons a l =>
    have hnone : none = some a := h.1
    cases hnone

theorem Chain.of_some (h : Chain next (some a) l) :
    ∃ r l', l = a :: l' ∧ next a = some r ∧ Chain next r l' := by
  cases l with
  | nil => cases h
  | cons b l =>
    obtain ⟨hb, r, hr, hl⟩ := h
    cases hb
    exact ⟨r, l, rfl, hr, hl⟩

theorem Chain.head (h : Chain next p l) : p = l.head? := by
  cases l with
  | nil => exact h
  | cons a l => exact h.1

theorem Chain.unique (h : Chain next p l) (h' : Chain next p l') : l = l' := by
  induction l generalizing p l' with
  | nil =>
    cases h
    exact h'.of_none.symm
  | cons a l ih =>
    obtain ⟨rfl, r, hr, hl⟩ := h
    obtain ⟨r', l'', rfl, hr', hl'⟩ := h'.of_some
    rw [hr, Option.some.injEq] at hr'
    subst hr'
    rw [ih hl hl']

/-- A list that ends has no node twice: its tail from either place would be the same list. -/
theorem Chain.nodup (h : Chain next p l) : l.Nodup := by
  induction l generalizing p with
  | nil => exact List.nodup_nil
  | cons a l ih =>
    obtain ⟨_, r, hr, hl⟩ := h
    refine List.nodup_cons.mpr ⟨fun hmem => ?_, ih hl⟩
    obtain ⟨pre, post, rfl⟩ := List.append_of_mem hmem
    obtain ⟨s, _, hs, t, ht, hpost⟩ := segment_append.mp hl
    rw [hr, Option.some.injEq] at ht
    subst ht
    have hlen := congrArg List.length (Chain.unique hl hpost)
    rw [List.length_append, List.length_cons] at hlen
    omega

theorem Chain.live (h : Chain next p l) (ha : a ∈ l) : ∃ r, next a = some r := by
  obtain ⟨pre, post, rfl⟩ := List.append_of_mem ha
  obtain ⟨_, _, _, r, hr, _⟩ := segment_append.mp h
  exact ⟨r, hr⟩

end
end Bfcomp
