import Mathlib.Data.List.Nodup
import Mathlib.Data.List.Perm.Basic
import Mathlib.Logic.Function.Basic

/-! # Lists distributed over buckets

`lists i` is the list of bucket `i`, `slot x` the bucket that `x` belongs to. Adding puts an element
at the front of its bucket; going over all buckets, in order or with every list turned around, loses
none and repeats none. All of it commutes with maps that keep the slots. -/

namespace Bfcomp
set_option autoImplicit false

section
variable {α β : Type}

/-- The elements of the buckets below `n`, bucket by bucket. -/
def listed (n : ℕ) (lists : ℕ → List α) : List α := (List.range n).flatMap lists

/-- The same, with each list turned around. -/
def gathered (n : ℕ) (lists : ℕ → List α) : List α :=
  (List.range n).flatMap fun i => (lists i).reverse

/-- An element at the front of its bucket. -/
def addTo (slot : α → ℕ) (lists : ℕ → List α) (x : α) : ℕ → List α :=
  Function.update lists (slot x) (x :: lists (slot x))

/-- The elements of a list, added one after the other. -/
def addAll (slot : α → ℕ) (lists : ℕ → List α) (l : List α) : ℕ → List α :=
  l.foldl (addTo slot) lists

/-- A list taken apart by slots. -/
def bucketsOf (slot : α → ℕ) (l : List α) (i : ℕ) : List α := l.filter fun x => slot x = i

variable {slot : α → ℕ} {lists lists' : ℕ → List α} {l : List α} {x y : α} {n i : ℕ}

theorem listed_succ (n : ℕ) (lists : ℕ → List α) :
    listed (n + 1) lists = listed n lists ++ lists n := by
  rw [listed, List.range_succ, List.flatMap_append, List.flatMap_singleton, listed]

theorem gathered_succ (n : ℕ) (lists : ℕ → List α) :
    gathered (n + 1) lists = gathered n lists ++ (lists n).reverse := by
  rw [gathered, List.range_succ, List.flatMap_append, List.flatMap_singleton, gathered]

theorem listed_congr (h : ∀ i < n, lists i = lists' i) : listed n lists = listed n lists' := by
  induction n with
  | zero => rfl
  | succ n ih =>
    rw [listed_succ, listed_succ, ih fun i hi => h i (Nat.lt_succ_of_lt hi),
      h n (Nat.lt_succ_self n)]

theorem gathered_perm (n : ℕ) (lists : ℕ → List α) : (gathered n lists).Perm (listed n lists) :=
  List.Perm.flatMap_left _ fun _ _ => List.reverse_perm _

theorem mem_gathered : x ∈ gathered n lists ↔ x ∈ listed n lists := (gathered_perm n lists).mem_iff

theorem addTo_self (slot : α → ℕ) (lists : ℕ → List α) (x : α) :
    addTo slot lists x (slot x) = x :: lists (slot x) := Function.update_self _ _ _

theorem addTo_of_ne (h : i ≠ slot x) : addTo slot lists x i = lists i :=
  Function.update_of_ne h _ _

theorem mem_addTo : y ∈ addTo slot lists x i ↔ (y = x ∧ i = slot x) ∨ y ∈ lists i := by
  by_cases hi : i = slot x
  · subst hi
    rw [addTo_self, List.mem_cons, and_iff_left rfl]
  · rw [addTo_of_ne hi]
    exact ⟨.inr, fun h => h.resolve_left fun h => hi h.2⟩

theorem listed_addTo (lists : ℕ → List α) (h : slot x < n) :
    (listed n (addTo slot lists x)).Perm (x :: listed n lists) := by
  induction n with
  | zero => cases h
  | succ n ih =>
    rw [listed_succ, listed_succ]
    by_cases hn : slot x = n
    · have hbelow : listed n (addTo slot lists x) = listed n lists :=
        listed_congr fun i hi => addTo_of_ne (by omega)
      rw [hbelow, ← hn, addTo_self]
      exact List.perm_middle
    · rw [addTo_of_ne fun h => hn h.symm]
      exact (ih (by omega)).append_right (lists n)

theorem listed_addAll (lists : ℕ → List α) (h : ∀ x ∈ l, slot x < n) :
    (listed n (addAll slot lists l)).Perm (l ++ listed n lists) := by
  induction l generalizing lists with
  | nil => exact .refl _
  | cons x l ih =>
    have hrest := ih (addTo slot lists x) fun y hy => h y (List.mem_cons_of_mem x hy)
    refine hrest.trans (((listed_addTo lists (h x List.mem_cons_self)).append_left l).trans ?_)
    exact List.perm_middle

theorem listed_nil (n : ℕ) : listed n (fun _ => ([] : List α)) = [] := by
  induction n with
  | zero => rfl
  | succ n ih => rw [listed_succ, ih, List.append_nil]

theorem bucketsOf_cons (slot : α → ℕ) (x : α) (l : List α) :
    bucketsOf slot (x :: l) = addTo slot (bucketsOf slot l) x := by
  funext i
  by_cases hi : i = slot x
  · subst hi
    rw [addTo_self, bucketsOf, List.filter_cons_of_pos (by simp), bucketsOf]
  · rw [addTo_of_ne hi, bucketsOf, List.filter_cons_of_neg (by simpa using fun h => hi h.symm),
      bucketsOf]

theorem listed_bucketsOf (h : ∀ x ∈ l, slot x < n) : (listed n (bucketsOf slot l)).Perm l := by
  induction l with
  | nil => exact (listed_nil n).symm ▸ .refl _
  | cons x l ih =>
    rw [bucketsOf_cons]
    refine (listed_addTo _ (h x List.mem_cons_self)).trans (List.Perm.cons x ?_)
    exact ih fun y hy => h y (List.mem_cons_of_mem x hy)

/-- Buckets whose elements belong there are what taking their elements apart gives. -/
theorem bucketsOf_listed (hplaced : ∀ i, ∀ x ∈ lists i, slot x = i)
    (hinside : ∀ i, n ≤ i → lists i = []) : bucketsOf slot (listed n lists) = lists := by
  have hbelow : ∀ k i, bucketsOf slot (listed k lists) i = if i < k then lists i else [] := by
    intro k i
    induction k with
    | zero => rfl
    | succ k ih =>
      rw [bucketsOf] at ih ⊢
      rw [listed_succ, List.filter_append, ih]
      by_cases hik : i = k
      · subst hik
        have hall : (lists i).filter (fun x => slot x = i) = lists i :=
          List.filter_eq_self.mpr fun x hx => decide_eq_true (hplaced i x hx)
        rw [hall, if_neg (Nat.lt_irrefl i), if_pos (Nat.lt_succ_self i), List.nil_append]
      · have hnone : (lists k).filter (fun x => slot x = i) = [] := by
          refine List.filter_eq_nil_iff.mpr fun x hx => ?_
          rw [decide_eq_true_eq, hplaced k x hx]
          exact fun h => hik h.symm
        rw [hnone, List.append_nil]
        by_cases hlt : i < k
        · rw [if_pos hlt, if_pos (by omega)]
        · rw [if_neg hlt, if_neg (by omega)]
  funext i
  rw [hbelow]
  split
  · rfl
  · exact (hinside i (by omega)).symm

/-! ## Maps -/

variable {slot' : β → ℕ} {f : α → β}

theorem map_listed (f : α → β) (n : ℕ) (lists : ℕ → List α) :
    (listed n lists).map f = listed n fun i => (lists i).map f := List.map_flatMap

theorem map_gathered (f : α → β) (n : ℕ) (lists : ℕ → List α) :
    (gathered n lists).map f = gathered n fun i => (lists i).map f := by
  rw [gathered, List.map_flatMap, gathered]
  simp only [List.map_reverse]

theorem map_addTo (h : ∀ x, slot' (f x) = slot x) (lists : ℕ → List α) (x : α) :
    (fun i => (addTo slot lists x i).map f) = addTo slot' (fun i => (lists i).map f) (f x) := by
  funext i
  by_cases hi : i = slot x
  · subst hi
    rw [addTo_self, ← h, addTo_self, h, List.map_cons]
  · rw [addTo_of_ne hi, addTo_of_ne (by rw [h]; exact hi)]

theorem map_addAll (h : ∀ x, slot' (f x) = slot x) (lists : ℕ → List α) (l : List α) :
    (fun i => (addAll slot lists l i).map f) =
      addAll slot' (fun i => (lists i).map f) (l.map f) := by
  induction l generalizing lists with
  | nil => rfl
  | cons x l ih =>
    have hrest := ih (addTo slot lists x)
    rw [map_addTo h] at hrest
    exact hrest

theorem map_bucketsOf (h : ∀ x, slot' (f x) = slot x) (l : List α) :
    (fun i => (bucketsOf slot l i).map f) = bucketsOf slot' (l.map f) := by
  funext i
  rw [bucketsOf, bucketsOf, List.filter_map]
  simp only [Function.comp_def, h]

end
end Bfcomp
