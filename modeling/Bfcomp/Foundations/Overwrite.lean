import Mathlib.Data.List.Basic
import Mathlib.Data.Nat.Notation
import Mathlib.Tactic.Common

/-! # Overwriting part of a list

A buffer of fixed length, a window of which is replaced. What lies outside the window stays; what
later windows leave alone is still there. -/

namespace Bfcomp
set_option autoImplicit false

section
variable {α : Type}

/-- The list `b` with `w` in place of what was at `i`. -/
def overwrite (b : List α) (i : ℕ) (w : List α) : List α := b.take i ++ w ++ b.drop (i + w.length)

/-- Of the same length, and the same everywhere but in the `n` places from `i` on. -/
def SameOutside (b b' : List α) (i n : ℕ) : Prop :=
  b'.length = b.length ∧ ∀ j, j < i ∨ i + n ≤ j → b'[j]? = b[j]?

/-- The same in the `n` places from `i` on. -/
def SameWithin (b b' : List α) (i n : ℕ) : Prop := ∀ j, i ≤ j → j < i + n → b'[j]? = b[j]?

variable {b b' b'' w v : List α} {i n k m : ℕ}

theorem overwrite_length (h : i + w.length ≤ b.length) : (overwrite b i w).length = b.length := by
  simp only [overwrite, List.length_append, List.length_take, List.length_drop]
  omega

theorem overwrite_take (h : i + w.length ≤ b.length) :
    (overwrite b i w).take (i + w.length) = b.take i ++ w := by
  have hlen : (b.take i ++ w).length = i + w.length := by
    rw [List.length_append, List.length_take]
    omega
  exact List.take_left' hlen

theorem overwrite_nil (b : List α) (i : ℕ) : overwrite b i [] = b := by
  simp [overwrite]

theorem overwrite_overwrite (h : i + (w ++ v).length ≤ b.length) :
    overwrite (overwrite b i w) (i + w.length) v = overwrite b i (w ++ v) := by
  rw [List.length_append] at h
  have hdrop : (overwrite b i w).drop (i + w.length + v.length) =
      b.drop (i + (w.length + v.length)) := by
    have hlen : (b.take i ++ w).length = i + w.length := by
      rw [List.length_append, List.length_take]
      omega
    rw [overwrite, ← List.drop_drop, List.drop_left' hlen, List.drop_drop, Nat.add_assoc]
  rw [overwrite, overwrite_take (by omega), hdrop, overwrite, List.length_append,
    List.append_assoc (b.take i)]

/-- What is overwritten by as much as was written there is lost. -/
theorem overwrite_again (h : i + w.length ≤ b.length) (hv : v.length = w.length) :
    overwrite (overwrite b i w) i v = overwrite b i v := by
  have hlen : (b.take i).length = i := by
    rw [List.length_take]
    omega
  have hfront : (b.take i ++ w).length = i + v.length := by
    rw [List.length_append, hlen, hv]
  have htake : (overwrite b i w).take i = b.take i := by
    rw [overwrite, List.append_assoc, List.take_left' hlen]
  have hdrop : (overwrite b i w).drop (i + v.length) = b.drop (i + v.length) := by
    rw [overwrite, List.drop_left' hfront, hv]
  rw [overwrite, htake, hdrop, overwrite]

theorem overwrite_outside (h : i + w.length ≤ b.length) :
    SameOutside b (overwrite b i w) i w.length := by
  refine ⟨overwrite_length h, fun j hj => ?_⟩
  have hlen : (b.take i).length = i := by
    rw [List.length_take]
    omega
  unfold overwrite
  rcases hj with hj | hj
  · rw [List.append_assoc, List.getElem?_append_left (by omega), List.getElem?_take_of_lt hj]
  · rw [List.getElem?_append_right (by rw [List.length_append]; omega), List.length_append,
      List.getElem?_drop, hlen, Nat.add_sub_cancel' hj]

theorem overwrite_getElem? (h : i + w.length ≤ b.length) (hk : k < w.length) :
    (overwrite b i w)[i + k]? = w[k]? := by
  have hlen : (b.take i).length = i := by
    rw [List.length_take]
    omega
  rw [overwrite, List.append_assoc, List.getElem?_append_right (by omega), hlen,
    Nat.add_sub_cancel_left, List.getElem?_append_left hk]

/-! ## Windows -/

theorem SameOutside.refl (b : List α) (i n : ℕ) : SameOutside b b i n := ⟨rfl, fun _ _ => rfl⟩

theorem SameOutside.trans (h : SameOutside b b' i n) (h' : SameOutside b' b'' i n) :
    SameOutside b b'' i n :=
  ⟨h'.1.trans h.1, fun j hj => (h'.2 j hj).trans (h.2 j hj)⟩

theorem SameOutside.mono (h : SameOutside b b' i n) (hlo : k ≤ i) (hhi : i + n ≤ k + m) :
    SameOutside b b' k m :=
  ⟨h.1, fun j hj => h.2 j (by omega)⟩

theorem SameWithin.trans (h : SameWithin b b' i n) (h' : SameWithin b' b'' i n) :
    SameWithin b b'' i n :=
  fun j hlo hhi => (h' j hlo hhi).trans (h j hlo hhi)

end
end Bfcomp
