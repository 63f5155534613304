import Bfcomp.Foundations.Overwrite

/-! # Records of one size in a block of memory

An array of values is a block of bytes, of which each value takes `n`. Bytes are copied and stored
in a block, and `none` stands for an access outside it. Where the copied window covers whole records,
what happens to the bytes happens to the records. -/

namespace Bfcomp
set_option autoImplicit false

section
variable {α : Type}

/-- A value that takes `n` places. -/
abbrev Record (α : Type) (n : ℕ) := { w : List α // w.length = n }

/-! ## Access to a block -/

/-- `n` places from `i` on. -/
def readWindow (b : List α) (i n : ℕ) : Option (List α) :=
  if i + n ≤ b.length then some ((b.drop i).take n) else none

def writeWindow (b : List α) (i : ℕ) (w : List α) : Option (List α) :=
  if i + w.length ≤ b.length then some (overwrite b i w) else none

/-- Within one block, where the source and the destination may overlap. -/
def memmove (b : List α) (dst src n : ℕ) : Option (List α) := (readWindow b src n).bind (writeWindow b dst)

/-- From one block to the start of another. -/
def memcpy (b : List α) (src : List α) (n : ℕ) : Option (List α) := (readWindow src 0 n).bind (writeWindow b 0)

/-- The loop that exchanges `n` places from `i` on with those from `j` on, one by one. -/
def exchange : ℕ → List α → ℕ → ℕ → Option (List α)
  | 0, b, _, _ => some b
  | n + 1, b, i, j => do
    let x ← b[i]?
    let y ← b[j]?
    exchange n ((b.set i y).set j x) (i + 1) (j + 1)

variable {b w : List α} {i j m n : ℕ}

theorem readWindow_eq (h : i + n ≤ b.length) : readWindow b i n = some ((b.drop i).take n) := if_pos h

theorem readWindow_length (h : readWindow b i n = some w) : w.length = n ∧ i + n ≤ b.length := by
  unfold readWindow at h
  split at h
  · cases h
    rw [List.length_take, List.length_drop]
    omega
  · cases h

theorem writeWindow_eq (h : i + w.length ≤ b.length) : writeWindow b i w = some (overwrite b i w) := if_pos h

theorem memmove_eq (hsrc : j + n ≤ b.length) (hdst : i + n ≤ b.length) :
    memmove b i j n = some (overwrite b i ((b.drop j).take n)) := by
  have hlen : ((b.drop j).take n).length = n := by
    rw [List.length_take, List.length_drop]
    omega
  rw [memmove, readWindow_eq hsrc, Option.bind_some, writeWindow_eq (by omega)]

/-! ## Overwriting, record by record -/

theorem set_eq_overwrite {x : α} (h : i < b.length) : b.set i x = overwrite b i [x] := by
  rw [List.set_eq_take_append_cons_drop, if_pos h, overwrite, List.length_singleton,
    List.append_assoc, List.singleton_append]

theorem overwrite_behind (b v w : List α) :
    overwrite (b ++ v) b.length w = b ++ w ++ v.drop w.length := by
  rw [overwrite, List.take_left, List.drop_length_add_append]

theorem overwrite_append (h : i + w.length ≤ b.length) (v : List α) :
    overwrite (b ++ v) i w = overwrite b i w ++ v := by
  rw [overwrite, overwrite, List.take_append_of_le_length (by omega),
    List.drop_append_of_le_length h]
  simp only [List.append_assoc]

theorem overwrite_getElem?_eq (h : i + w.length ≤ b.length) (k : ℕ) :
    (overwrite b i w)[k]? = if i ≤ k ∧ k < i + w.length then w[k - i]? else b[k]? := by
  split
  · have hk : k = i + (k - i) := by omega
    rw [hk, overwrite_getElem? h (by omega), Nat.add_sub_cancel_left]
  · exact (overwrite_outside h).2 k (by omega)

/-- A gap is opened by moving what lies behind it, and filled. -/
theorem overwrite_gap (hi : i ≤ b.length) {v : List α} (hv : w.length ≤ v.length) :
    overwrite (overwrite (b ++ v) (i + w.length) (b.drop i)) i w =
      b.take i ++ w ++ b.drop i ++ v.drop w.length := by
  have hfront : ((b ++ v).take (i + w.length)).length = i + w.length := by
    rw [List.length_take, List.length_append]
    omega
  have hback : i + w.length + (b.drop i).length = b.length + w.length := by
    rw [List.length_drop]
    omega
  have hgap : overwrite (b ++ v) (i + w.length) (b.drop i) =
      (b ++ v).take (i + w.length) ++ (b.drop i ++ v.drop w.length) := by
    rw [overwrite, hback, List.drop_length_add_append, List.append_assoc]
  rw [hgap, overwrite, List.take_append_of_le_length (by omega), List.take_take,
    Nat.min_eq_left (Nat.le_add_right _ _), List.take_append_of_le_length hi, List.drop_left' hfront]
  simp only [List.append_assoc]

/-- What a window is overwritten by may be itself, overwritten in part. -/
theorem overwrite_window_part (hi : i + n ≤ b.length) (hj : j + w.length ≤ n) :
    overwrite b i (overwrite ((b.drop i).take n) j w) = overwrite b (i + j) w := by
  have hwin : ((b.drop i).take n).length = n := by
    rw [List.length_take, List.length_drop]
    omega
  have hkept : (overwrite ((b.drop i).take n) j w).length = n := by
    rw [overwrite_length (by omega), hwin]
  have hfront : ((b.drop i).take n).take j = (b.drop i).take j := by
    rw [List.take_take, Nat.min_eq_left (by omega)]
  have hback : ((b.drop i).take n).drop (j + w.length) ++ b.drop (i + n) =
      b.drop (i + j + w.length) := by
    have hsplit := List.take_append_drop (n - (j + w.length)) (b.drop (i + (j + w.length)))
    have hrest : i + (j + w.length) + (n - (j + w.length)) = i + n := by omega
    rw [List.drop_drop, hrest] at hsplit
    rw [List.drop_take, List.drop_drop, hsplit, Nat.add_assoc]
  rw [overwrite, hkept, overwrite, hfront, List.append_assoc, List.append_assoc, hback,
    ← List.append_assoc (b.take i), ← List.append_assoc, ← List.take_add, overwrite]

/-! ## Exchanging two windows -/

theorem overwrite_window {d : List α} (hi : i + n ≤ b.length) (hj : j + n ≤ d.length) (k : ℕ) :
    (overwrite b i ((d.drop j).take n))[k]? =
      if i ≤ k ∧ k < i + n then d[j + (k - i)]? else b[k]? := by
  have hlen : ((d.drop j).take n).length = n := by
    rw [List.length_take, List.length_drop]
    omega
  rw [overwrite_getElem?_eq (by omega), hlen]
  split
  · rw [List.getElem?_take_of_lt (by omega), List.getElem?_drop]
  · rfl

/-- Windows that do not meet come to stand where the other stood. -/
theorem exchange_spec (hi : i + n ≤ b.length) (hj : j + n ≤ b.length)
    (hapart : i + n ≤ j ∨ j + n ≤ i) : exchange n b i j =
      some (overwrite (overwrite b i ((b.drop j).take n)) j ((b.drop i).take n)) := by
  have hfirst {c : List α} {a d m : ℕ} (ha : a + m ≤ c.length) (hd : d + m ≤ c.length) :
      (overwrite c a ((c.drop d).take m)).length = c.length :=
    overwrite_length (by rw [List.length_take, List.length_drop]; omega)
  induction n generalizing b i j with
  | zero => rw [exchange, List.take_zero, List.take_zero, overwrite_nil, overwrite_nil]
  | succ n ih =>
    have hx : b[i]? = some b[i] := List.getElem?_eq_getElem (by omega)
    have hy : b[j]? = some b[j] := List.getElem?_eq_getElem (by omega)
    have hlen : ((b.set i b[j]).set j b[i]).length = b.length := by
      rw [List.length_set, List.length_set]
    rw [exchange, hx, hy]
    simp only [Option.bind_eq_bind, Option.bind_some]
    rw [ih (by omega) (by omega) (by omega), Option.some.injEq]
    refine List.ext_getElem? fun k => ?_
    rw [overwrite_window (by rw [hfirst] <;> omega) (by omega),
      overwrite_window (by omega) (by omega), overwrite_window (by rw [hfirst] <;> omega) hi,
      overwrite_window hi hj]
    have hother {l : ℕ} (hli : i ≠ l) (hlj : j ≠ l) :
        ((b.set i b[j]).set j b[i])[l]? = b[l]? := by
      rw [List.getElem?_set_ne hlj, List.getElem?_set_ne hli]
    by_cases hkj : j ≤ k ∧ k < j + (n + 1)
    · rw [if_pos hkj]
      by_cases hk : k = j
      · subst hk
        rw [if_neg (by omega), if_neg (by omega), Nat.sub_self, Nat.add_zero, hx,
          List.getElem?_set_self (by rw [List.length_set]; omega)]
      · have hshift : i + 1 + (k - (j + 1)) = i + (k - j) := by omega
        rw [if_pos (by omega), hshift, hother (by omega) (by omega)]
    rw [if_neg hkj, if_neg (by omega)]
    by_cases hki : i ≤ k ∧ k < i + (n + 1)
    · rw [if_pos hki]
      by_cases hk : k = i
      · subst hk
        rw [if_neg (by omega), Nat.sub_self, Nat.add_zero, hy, List.getElem?_set_ne (by omega),
          List.getElem?_set_self (by omega)]
      · have hshift : j + 1 + (k - (i + 1)) = j + (k - i) := by omega
        rw [if_pos (by omega), hshift, hother (by omega) (by omega)]
    · rw [if_neg hki, if_neg (by omega), hother (by omega) (by omega)]

end

namespace Record

section
variable {α : Type} {n : ℕ}

/-- The records, one after the other. -/
def bytes (es : List (Record α n)) : List α := (es.map Subtype.val).flatten

variable {es fs : List (Record α n)} {b : List α} {i j k : ℕ}

@[simp] theorem bytes_nil : bytes ([] : List (Record α n)) = [] := rfl

@[simp] theorem bytes_cons (e : Record α n) (es : List (Record α n)) :
    bytes (e :: es) = e.val ++ bytes es := rfl

theorem bytes_append (es fs : List (Record α n)) : bytes (es ++ fs) = bytes es ++ bytes fs := by
  rw [bytes, List.map_append, List.flatten_append]
  rfl

theorem bytes_length (es : List (Record α n)) : (bytes es).length = es.length * n := by
  induction es with
  | nil => exact (Nat.zero_mul n).symm
  | cons e es ih =>
    rw [bytes_cons, List.length_append, ih, e.property, List.length_cons, Nat.succ_mul, Nat.add_comm]

theorem bytes_take (es : List (Record α n)) (i : ℕ) : (bytes es).take (i * n) = bytes (es.take i) := by
  induction es generalizing i with
  | nil => rw [List.take_nil, bytes_nil, List.take_nil]
  | cons e es ih =>
    cases i with
    | zero => rw [Nat.zero_mul, List.take_zero, List.take_zero, bytes_nil]
    | succ i =>
      have hsize : (i + 1) * n = e.val.length + i * n := by
        rw [e.property, Nat.succ_mul, Nat.add_comm]
      rw [List.take_succ_cons, bytes_cons, bytes_cons, hsize, List.take_length_add_append, ih]

theorem bytes_drop (es : List (Record α n)) (i : ℕ) : (bytes es).drop (i * n) = bytes (es.drop i) := by
  induction es generalizing i with
  | nil => rw [List.drop_nil, bytes_nil, List.drop_nil]
  | cons e es ih =>
    cases i with
    | zero => rw [Nat.zero_mul, List.drop_zero, List.drop_zero]
    | succ i =>
      have hsize : (i + 1) * n = e.val.length + i * n := by
        rw [e.property, Nat.succ_mul, Nat.add_comm]
      rw [List.drop_succ_cons, bytes_cons, hsize, List.drop_length_add_append, ih]

theorem bytes_overwrite (es fs : List (Record α n)) (i : ℕ) :
    overwrite (bytes es) (i * n) (bytes fs) = bytes (overwrite es i fs) := by
  rw [overwrite, bytes_length, ← Nat.add_mul, bytes_take, bytes_drop, overwrite, bytes_append,
    bytes_append]

/-- Records of a positive size can be told apart. -/
theorem bytes_injective (hn : 0 < n) (h : bytes es = bytes fs) : es = fs := by
  induction es generalizing fs with
  | nil =>
    have hlen := congrArg List.length h
    rw [bytes_length, bytes_length, List.length_nil, Nat.zero_mul] at hlen
    have hzero : fs.length = 0 := (Nat.mul_eq_zero.mp hlen.symm).resolve_right (by omega)
    exact (List.eq_nil_of_length_eq_zero hzero).symm
  | cons e es ih =>
    cases fs with
    | nil =>
      have hlen := congrArg List.length h
      rw [bytes_length, bytes_length, List.length_nil, Nat.zero_mul, List.length_cons] at hlen
      have hpos := Nat.mul_pos (Nat.succ_pos es.length) hn
      exact absurd hlen (Nat.ne_of_gt hpos)
    | cons f fs =>
      obtain ⟨hhead, htail⟩ := List.append_inj h (e.property.trans f.property.symm)
      rw [Subtype.ext hhead, ih htail]

/-! ## Blocks that start with records -/

/-- The block starts with the records. -/
def Starts (b : List α) (es : List (Record α n)) : Prop := bytes es <+: b

theorem Starts.nil (b : List α) : Starts b ([] : List (Record α n)) := List.nil_prefix

theorem Starts.length_le (h : Starts b es) : es.length * n ≤ b.length := by
  rw [← bytes_length]
  exact List.IsPrefix.length_le h

theorem Starts.front (h : Starts b (es ++ fs)) : Starts b es := by
  rw [Starts, bytes_append] at h
  exact (List.prefix_append _ _).trans h

/-- Whatever is in a block can be seen as records. -/
theorem Starts.extend (h : Starts b es) (hk : k * n ≤ b.length) (hle : es.length ≤ k) :
    ∃ fs, (es ++ fs).length = k ∧ Starts b (es ++ fs) := by
  obtain ⟨d, rfl⟩ := Nat.exists_eq_add_of_le hle
  clear hle
  induction d with
  | zero => exact ⟨[], by rw [List.append_nil]; rfl, by rwa [List.append_nil]⟩
  | succ d ih =>
    rw [← Nat.add_assoc, Nat.succ_mul] at hk
    obtain ⟨fs, hlen, hstarts⟩ := ih (by omega)
    obtain ⟨rest, rfl⟩ := hstarts
    rw [List.length_append, bytes_length, hlen] at hk
    have hlast : (rest.take n).length = n := by
      rw [List.length_take]
      omega
    refine ⟨fs ++ [⟨rest.take n, hlast⟩], ?_, ?_⟩
    · rw [← List.append_assoc, List.length_append, hlen, List.length_singleton, Nat.add_assoc]
    · rw [Starts, ← List.append_assoc, bytes_append, bytes_cons, bytes_nil, List.append_nil,
        List.prefix_append_right_inj]
      exact List.take_prefix _ _

/-- Two lists of as many records that one block starts with are the same. -/
theorem Starts.unique (hn : 0 < n) (h : Starts b es) (h' : Starts b fs)
    (hlen : es.length = fs.length) : es = fs := by
  have hbytes : (bytes es).length = (bytes fs).length := by
    rw [bytes_length, bytes_length, hlen]
  exact bytes_injective hn ((List.prefix_of_prefix_length_le h h' (Nat.le_of_eq hbytes)).eq_of_length hbytes)

theorem Starts.window (h : Starts b es) (hwin : i + k ≤ es.length) :
    (b.drop (i * n)).take (k * n) = bytes ((es.drop i).take k) := by
  obtain ⟨rest, rfl⟩ := h
  have hle : i * n ≤ (bytes es).length := by
    rw [bytes_length]
    exact Nat.mul_le_mul_right _ (by omega)
  have hlen : k * n ≤ (bytes (es.drop i)).length := by
    rw [bytes_length, List.length_drop]
    exact Nat.mul_le_mul_right _ (by omega)
  rw [List.drop_append_of_le_length hle, bytes_drop, List.take_append_of_le_length hlen, bytes_take]

theorem Starts.load (h : Starts b es) (hi : i < es.length) :
    readWindow b (i * n) n = some (es[i]).val := by
  have hle := h.length_le
  have hfit : (i + 1) * n ≤ es.length * n := Nat.mul_le_mul_right _ hi
  have hwin := h.window (i := i) (k := 1) hi
  rw [Nat.one_mul, List.drop_eq_getElem_cons hi, List.take_succ_cons, List.take_zero, bytes_cons,
    bytes_nil, List.append_nil] at hwin
  rw [readWindow_eq (by rw [Nat.succ_mul] at hfit; omega), hwin]

theorem Starts.overwrite (h : Starts b es) (fs : List (Record α n))
    (hi : i + fs.length ≤ es.length) :
    Starts (overwrite b (i * n) (bytes fs)) (Bfcomp.overwrite es i fs) ∧
      (Bfcomp.overwrite b (i * n) (bytes fs)).length = b.length := by
  have hfit : (i + fs.length) * n ≤ es.length * n := Nat.mul_le_mul_right _ hi
  rw [Nat.add_mul, ← bytes_length fs, ← bytes_length es] at hfit
  obtain ⟨rest, rfl⟩ := h
  constructor
  · rw [overwrite_append hfit, bytes_overwrite]
    exact List.prefix_append _ _
  · exact overwrite_length (Nat.le_trans hfit (by rw [List.length_append]; omega))

/-- Storing one record. -/
theorem Starts.store (h : Starts b es) (hi : i < es.length) (e : Record α n) :
    ∃ b', writeWindow b (i * n) e.val = some b' ∧ b'.length = b.length ∧
      Starts b' (Bfcomp.overwrite es i [e]) := by
  have hle := h.length_le
  have hfit : (i + 1) * n ≤ es.length * n := Nat.mul_le_mul_right _ hi
  rw [Nat.succ_mul] at hfit
  obtain ⟨hstarts, hlen⟩ := h.overwrite [e] hi
  rw [bytes_cons, bytes_nil, List.append_nil] at hstarts hlen
  exact ⟨_, writeWindow_eq (by rw [e.property]; omega), hlen, hstarts⟩

theorem Starts.window_one (h : Starts b es) (hi : i < es.length) :
    (b.drop (i * n)).take n = (es[i]).val ∧ i * n + n ≤ b.length := by
  obtain ⟨_, hfit⟩ := readWindow_length (h.load hi)
  have hload := h.load hi
  rw [readWindow_eq hfit, Option.some.injEq] at hload
  exact ⟨hload, hfit⟩

/-- Loading a part of a record. -/
theorem Starts.loadField (h : Starts b es) (hi : i < es.length) (hfit : j + k ≤ n) :
    readWindow b (i * n + j) k = some (((es[i]).val.drop j).take k) := by
  obtain ⟨hwin, hlen⟩ := h.window_one hi
  rw [readWindow_eq (by omega), ← hwin, List.drop_take, List.take_take, List.drop_drop,
    Nat.min_eq_left (by omega)]

/-- Storing a part of a record. -/
theorem Starts.storeField (h : Starts b es) (hi : i < es.length) {w : List α} (e : Record α n)
    (he : e.val = Bfcomp.overwrite (es[i]).val j w) (hfit : j + w.length ≤ n) :
    ∃ b', writeWindow b (i * n + j) w = some b' ∧ b'.length = b.length ∧
      Starts b' (Bfcomp.overwrite es i [e]) := by
  obtain ⟨hwin, hlen⟩ := h.window_one hi
  obtain ⟨b', hstore, hlen', hstarts⟩ := h.store hi e
  rw [writeWindow_eq (by rw [e.property]; exact hlen), he, ← hwin,
    overwrite_window_part hlen hfit] at hstore
  exact ⟨b', (writeWindow_eq (by omega)).trans hstore, hlen', hstarts⟩

/-- Moving `k` records. -/
theorem Starts.memmove (h : Starts b es) (hsrc : j + k ≤ es.length) (hdst : i + k ≤ es.length) :
    ∃ b', Bfcomp.memmove b (i * n) (j * n) (k * n) = some b' ∧ b'.length = b.length ∧
      Starts b' (Bfcomp.overwrite es i ((es.drop j).take k)) := by
  have hle := h.length_le
  have hsrc' : (j + k) * n ≤ es.length * n := Nat.mul_le_mul_right _ hsrc
  have hdst' : (i + k) * n ≤ es.length * n := Nat.mul_le_mul_right _ hdst
  rw [Nat.add_mul] at hsrc' hdst'
  have hlen : ((es.drop j).take k).length = k := by
    rw [List.length_take, List.length_drop]
    omega
  obtain ⟨hstarts, hblock⟩ := h.overwrite ((es.drop j).take k) (by rw [hlen]; exact hdst)
  rw [← h.window hsrc] at hstarts hblock
  exact ⟨_, memmove_eq (by omega) (by omega), hblock, hstarts⟩

/-- Exchanging two records, byte by byte. -/
theorem Starts.exchange (h : Starts b es) (hi : i < es.length) (hj : j < es.length)
    (hne : i ≠ j) : ∃ b', Bfcomp.exchange n b (i * n) (j * n) = some b' ∧ b'.length = b.length ∧
      Starts b' ((es.set i es[j]).set j es[i]) := by
  have hle := h.length_le
  have hrecord {k : ℕ} (hk : k < es.length) : k * n + n ≤ es.length * n ∧
      (b.drop (k * n)).take n = bytes [es[k]] := by
    have hfit : (k + 1) * n ≤ es.length * n := Nat.mul_le_mul_right _ hk
    rw [Nat.succ_mul] at hfit
    refine ⟨hfit, ?_⟩
    have hload := h.load hk
    rw [readWindow_eq (by omega), Option.some.injEq] at hload
    rw [hload, bytes_cons, bytes_nil, List.append_nil]
  have hapart : i * n + n ≤ j * n ∨ j * n + n ≤ i * n := by
    rw [← Nat.succ_mul, ← Nat.succ_mul]
    exact (Nat.lt_or_gt_of_ne hne).imp (Nat.mul_le_mul_right n ·) (Nat.mul_le_mul_right n ·)
  obtain ⟨hfiti, hbytesi⟩ := hrecord hi
  obtain ⟨hfitj, hbytesj⟩ := hrecord hj
  have hset : es.set i es[j] = Bfcomp.overwrite es i [es[j]] := set_eq_overwrite hi
  obtain ⟨hfirst, hlen⟩ := h.overwrite [es[j]] hi
  have hj' : j < (Bfcomp.overwrite es i [es[j]]).length := by
    rw [← hset, List.length_set]
    exact hj
  obtain ⟨hsecond, hlen'⟩ := hfirst.overwrite [es[i]] hj'
  refine ⟨_, exchange_spec (by omega) (by omega) hapart, ?_, ?_⟩
  · rw [hbytesi, hbytesj, hlen', hlen]
  · rw [hbytesi, hbytesj, hset, set_eq_overwrite hj']
    exact hsecond

end
end Record

end Bfcomp
