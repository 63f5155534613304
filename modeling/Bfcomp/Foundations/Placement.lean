import Bfcomp.Foundations.Words
import Mathlib.Data.List.Basic

/-! # Writing byte strings to a file

A file is written in pieces, each at its own offset; a later piece replaces what it covers of the
earlier ones, and bytes that no piece covers are zero. Pieces that do not meet are all read back
(`read_image`). -/

namespace Bfcomp
set_option autoImplicit false

structure Write where
  offset : ℕ
  bytes : List Byte

namespace Write

/-- The piece writes the byte at `a`. -/
def Covers (w : Write) (a : ℕ) : Prop := w.offset ≤ a ∧ a < w.offset + w.bytes.length

instance (w : Write) (a : ℕ) : Decidable (w.Covers a) := instDecidableAnd

/-- No byte is written by both. -/
def Apart (v w : Write) : Prop := ∀ a, v.Covers a → ¬ w.Covers a

theorem Apart.symm {v w : Write} (h : Apart v w) : Apart w v := fun a hw hv => h a hv hw

theorem apart_of_le {v w : Write} (h : v.offset + v.bytes.length ≤ w.offset) : Apart v w := by
  intro a hv hw
  have h1 := hv.2
  have h2 := hw.1
  omega

theorem apart_of_empty {v w : Write} (h : v.bytes = []) : Apart v w := by
  intro a hv
  have h2 := hv.2
  have h1 := hv.1
  rw [h, List.length_nil] at h2
  omega

/-- The piece lies between two offsets, if it writes anything. -/
def Within (lo hi : ℕ) (w : Write) : Prop :=
  w.bytes = [] ∨ (lo ≤ w.offset ∧ w.offset + w.bytes.length ≤ hi)

theorem Within.mono {lo hi lo' hi' : ℕ} {w : Write} (h : w.Within lo hi) (hlo : lo' ≤ lo)
    (hhi : hi ≤ hi') : w.Within lo' hi' := by
  rcases h with h | ⟨h1, h2⟩
  · exact .inl h
  · exact .inr ⟨by omega, by omega⟩

theorem Within.apart {lo mid hi : ℕ} {v w : Write} (hv : v.Within lo mid) (hw : w.Within mid hi) :
    Apart v w := by
  rcases hv with hv | ⟨_, hv⟩
  · exact apart_of_empty hv
  · rcases hw with hw | ⟨hw, _⟩
    · exact (apart_of_empty hw).symm
    · exact apart_of_le (by omega)

/-- The file after the piece is written. -/
def apply (f : ℕ → Byte) (w : Write) (a : ℕ) : Byte :=
  if w.Covers a then w.bytes.getD (a - w.offset) 0 else f a

end Write

/-- The file that the pieces leave, written in order. -/
def image (ws : List Write) : ℕ → Byte := ws.foldl Write.apply fun _ => 0

/-- `n` bytes of a file. -/
def readAt (f : ℕ → Byte) (offset n : ℕ) : List Byte := (List.range n).map fun i => f (offset + i)

theorem foldl_apply_uncovered {ws : List Write} {a : ℕ} (h : ∀ w ∈ ws, ¬ w.Covers a)
    (f : ℕ → Byte) : ws.foldl Write.apply f a = f a := by
  induction ws generalizing f with
  | nil => rfl
  | cons w ws ih =>
    rw [List.foldl_cons, ih fun v hv => h v (List.mem_cons_of_mem _ hv)]
    exact if_neg (h w List.mem_cons_self)

theorem read_image {ws : List Write} (h : ws.Pairwise Write.Apart) {w : Write} (hw : w ∈ ws) :
    readAt (image ws) w.offset w.bytes.length = w.bytes := by
  obtain ⟨pre, post, rfl⟩ := List.append_of_mem hw
  have hpost : ∀ v ∈ post, Write.Apart w v :=
    (List.pairwise_cons.mp (List.pairwise_append.mp h).2.1).1
  refine List.ext_getElem (by simp [readAt]) fun i hi hi' => ?_
  have hcovers : w.Covers (w.offset + i) := ⟨Nat.le_add_right _ _, by omega⟩
  simp only [readAt, List.getElem_map, List.getElem_range]
  rw [image, List.foldl_append, List.foldl_cons,
    foldl_apply_uncovered fun v hv => hpost v hv _ hcovers, Write.apply, if_pos hcovers,
    Nat.add_sub_cancel_left, List.getD_eq_getElem?_getD, List.getElem?_eq_getElem hi',
    Option.getD_some]

/-! ## Bytes in a file -/

/-- The bytes stand in the file from `a` on. -/
def Stored (f : ℕ → Byte) (a : ℕ) (bs : List Byte) : Prop :=
  ∀ k b, bs[k]? = some b → f (a + k) = b

section
variable {f : ℕ → Byte} {a : ℕ}

theorem readAt_length (f : ℕ → Byte) (a n : ℕ) : (readAt f a n).length = n := by
  rw [readAt, List.length_map, List.length_range]

theorem stored_readAt (f : ℕ → Byte) (a n : ℕ) : Stored f a (readAt f a n) := by
  intro k b hk
  rw [readAt, List.getElem?_map] at hk
  obtain ⟨i, hi, rfl⟩ := Option.map_eq_some_iff.mp hk
  obtain ⟨hlt, hget⟩ := List.getElem?_eq_some_iff.mp hi
  rw [List.getElem_range] at hget
  rw [hget]

theorem stored_iff_readAt {bs : List Byte} : Stored f a bs ↔ readAt f a bs.length = bs := by
  constructor
  · intro h
    refine List.ext_getElem (readAt_length _ _ _) fun k hk hk' => ?_
    rw [← h k _ (List.getElem?_eq_getElem hk')]
    simp only [readAt, List.getElem_map, List.getElem_range]
  · intro h
    rw [← h]
    exact stored_readAt f a _

theorem stored_nil : Stored f a [] := by
  intro k b hk
  cases hk

theorem stored_cons {b : Byte} {bs : List Byte} :
    Stored f a (b :: bs) ↔ f a = b ∧ Stored f (a + 1) bs := by
  constructor
  · intro h
    refine ⟨h 0 b rfl, fun k c hk => ?_⟩
    have hat := h (k + 1) c hk
    rwa [Nat.add_comm k, ← Nat.add_assoc] at hat
  · rintro ⟨h0, h⟩ k c hk
    cases k with
    | zero =>
      cases hk
      exact h0
    | succ k =>
      rw [Nat.add_comm k, ← Nat.add_assoc]
      exact h k c hk

theorem stored_append {bs cs : List Byte} :
    Stored f a (bs ++ cs) ↔ Stored f a bs ∧ Stored f (a + bs.length) cs := by
  induction bs generalizing a with
  | nil => exact ⟨fun h => ⟨stored_nil, h⟩, And.right⟩
  | cons b bs ih =>
    rw [List.cons_append, stored_cons, stored_cons, ih, List.length_cons, Nat.add_comm bs.length,
      Nat.add_assoc, and_assoc]

/-- Strings of one length, one after the other. -/
theorem stored_flatten {bs : List (List Byte)} {n : ℕ} (hlen : ∀ b ∈ bs, b.length = n)
    (h : Stored f a bs.flatten) {i : ℕ} {b : List Byte} (hi : bs[i]? = some b) :
    Stored f (a + i * n) b := by
  induction bs generalizing a i with
  | nil => cases hi
  | cons c bs ih =>
    rw [List.flatten_cons, stored_append, hlen c List.mem_cons_self] at h
    cases i with
    | zero =>
      cases hi
      rw [Nat.zero_mul]
      exact h.1
    | succ i =>
      have hrest := ih (fun b hb => hlen b (List.mem_cons_of_mem c hb)) h.2 hi
      rwa [Nat.add_assoc, Nat.add_comm n, ← Nat.succ_mul] at hrest

end

/-- One piece after the other, from `pos` on. -/
def consecutive (pos : ℕ) : List (List Byte) → List Write
  | [] => []
  | b :: bs => ⟨pos, b⟩ :: consecutive (pos + b.length) bs

theorem consecutive_within (pos : ℕ) (bs : List (List Byte)) :
    ∀ w ∈ consecutive pos bs, w.Within pos (pos + bs.flatten.length) := by
  induction bs generalizing pos with
  | nil => exact fun _ h => (List.not_mem_nil h).elim
  | cons b bs ih =>
    intro w hw
    rw [List.flatten_cons, List.length_append]
    rcases List.mem_cons.mp hw with rfl | hw
    · exact .inr ⟨Nat.le_refl _, by simp only; omega⟩
    · exact (ih _ w hw).mono (by omega) (by omega)

theorem consecutive_apart (pos : ℕ) (bs : List (List Byte)) :
    (consecutive pos bs).Pairwise Write.Apart := by
  induction bs generalizing pos with
  | nil => exact .nil
  | cons b bs ih =>
    refine List.pairwise_cons.mpr ⟨fun w hw => ?_, ih _⟩
    have hb : Write.Within pos (pos + b.length) ⟨pos, b⟩ := .inr ⟨Nat.le_refl _, Nat.le_refl _⟩
    exact hb.apart (consecutive_within _ bs w hw)

theorem consecutive_covers {pos a : ℕ} {bs : List (List Byte)} (h : pos ≤ a)
    (h' : a < pos + bs.flatten.length) : ∃ w ∈ consecutive pos bs, w.Covers a := by
  induction bs generalizing pos with
  | nil =>
    rw [List.flatten_nil, List.length_nil] at h'
    omega
  | cons b bs ih =>
    rw [List.flatten_cons, List.length_append] at h'
    by_cases hb : a < pos + b.length
    · exact ⟨⟨pos, b⟩, List.mem_cons_self, h, hb⟩
    · have hnext : pos + b.length ≤ a := by omega
      obtain ⟨w, hw, hcov⟩ := ih hnext (by omega)
      exact ⟨w, List.mem_cons_of_mem _ hw, hcov⟩

/-- Consecutive pieces that nothing else meets are read back as one string. -/
theorem stored_consecutive {ws : List Write} (h : ws.Pairwise Write.Apart) (pos : ℕ)
    (bs : List (List Byte)) (hmem : ∀ w ∈ consecutive pos bs, w ∈ ws) :
    Stored (image ws) pos bs.flatten := by
  induction bs generalizing pos with
  | nil => exact stored_nil
  | cons b bs ih =>
    rw [List.flatten_cons, stored_append]
    refine ⟨stored_iff_readAt.mpr ?_, ih _ fun w hw => hmem w (List.mem_cons_of_mem _ hw)⟩
    exact read_image h (hmem _ List.mem_cons_self)

/-- Two pieces, the first before the second in the list, that write one byte. -/
theorem not_apart_append {us vs : List Write} {a : ℕ} (hu : ∃ w ∈ us, w.Covers a)
    (hv : ∃ w ∈ vs, w.Covers a) : ¬ (us ++ vs).Pairwise Write.Apart := by
  obtain ⟨u, hu, hua⟩ := hu
  obtain ⟨v, hv, hva⟩ := hv
  intro h
  exact (List.pairwise_append.mp h).2.2 u hu v hv a hua hva

theorem pairwise_apart_perm {us vs : List Write} (h : us.Perm vs) :
    us.Pairwise Write.Apart ↔ vs.Pairwise Write.Apart :=
  h.pairwise_iff fun h => h.symm

/-! ## A stream with a position -/

/-- An output stream: what has been written, and where it writes next. -/
structure File where
  writes : List Write := []
  pos : ℕ := 0

def fwrite (f : File) (bytes : List Byte) : File where
  writes := f.writes ++ [⟨f.pos, bytes⟩]
  pos := f.pos + bytes.length

def fseek (f : File) (offset : ℕ) : File := { f with pos := offset }

theorem fwrite_writes (f : File) (bytes : List Byte) :
    (fwrite f bytes).writes = f.writes ++ [⟨f.pos, bytes⟩] := rfl

theorem fwrite_pos (f : File) (bytes : List Byte) :
    (fwrite f bytes).pos = f.pos + bytes.length := rfl

theorem foldl_fwrite_writes {α : Type} (enc : α → List Byte) (l : List α) (f : File) :
    (l.foldl (fun f x => fwrite f (enc x)) f).writes =
      f.writes ++ consecutive f.pos (l.map enc) := by
  induction l generalizing f with
  | nil => exact (List.append_nil _).symm
  | cons x l ih =>
    rw [List.foldl_cons, ih, List.map_cons, consecutive, fwrite, List.append_assoc]
    rfl

theorem foldl_fwrite_pos {α : Type} (enc : α → List Byte) (l : List α) (f : File) :
    (l.foldl (fun f x => fwrite f (enc x)) f).pos = f.pos + (l.map enc).flatten.length := by
  induction l generalizing f with
  | nil => rfl
  | cons x l ih =>
    rw [List.foldl_cons, ih, List.map_cons, List.flatten_cons, List.length_append]
    exact Nat.add_assoc _ _ _

theorem consecutive_append (pos : ℕ) (bs cs : List (List Byte)) :
    consecutive pos (bs ++ cs) =
      consecutive pos bs ++ consecutive (pos + bs.flatten.length) cs := by
  induction bs generalizing pos with
  | nil => rfl
  | cons b bs ih =>
    rw [List.cons_append, consecutive, ih, consecutive, List.flatten_cons, List.length_append,
      Nat.add_assoc, List.cons_append]

end Bfcomp
