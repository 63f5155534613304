import Bfcomp.Rxi.Vec
import Mathlib.Data.Nat.Log

/-! # What a vector holds

The memory of a vector has room for `capacity` elements, of which the first `length` ones are its
own. Here is what each function does to them; `rest` is whatever lies behind. -/

namespace Bfcomp
set_option autoImplicit false

open Record (Starts)

section
variable {memsz : ℕ}

/-- An element: its bytes. -/
abbrev Elem (memsz : ℕ) := Record Byte memsz

/-- Memory of an object, with room for so many elements, which it starts with. -/
structure HasRoom (capacity : ℕ) (data : Option (List Byte)) (rs : List (Elem memsz)) : Prop where
  count : rs.length = capacity
  starts : Starts (data.getD []) rs
  object : (data.getD []).length < 2^63

/-- The elements of a vector. -/
structure VecBase.Holds (v : VecBase) (es : List (Elem memsz)) : Prop where
  length : v.length = es.length
  room : ∃ rest, HasRoom v.capacity v.data (es ++ rest)

/-! ## Memory -/

namespace HasRoom
variable {v : VecBase} {rs : List (Elem memsz)} {i j k : ℕ}

theorem le_block (H : HasRoom v.capacity v.data rs) : v.capacity * memsz ≤ v.block.length := by
  rw [← H.count]
  exact H.starts.length_le

theorem onBlock {f : List Byte → Option (List Byte)} {b : List Byte} {rs' : List (Elem memsz)}
    (H : HasRoom v.capacity v.data rs) (hf : f v.block = some b)
    (hlen : b.length = v.block.length) (hstarts : Starts b rs') (hcount : rs'.length = rs.length) :
    ∃ d, v.onBlock f = some { v with data := d } ∧ HasRoom v.capacity d rs' := by
  refine ⟨_, by rw [VecBase.onBlock, hf]; rfl, hcount.trans H.count, ?_, ?_⟩
  · cases hdata : v.data with
    | some block => exact hstarts
    | none =>
      rw [VecBase.block, hdata] at hlen
      have hnil : b = [] := List.eq_nil_of_length_eq_zero hlen
      rw [hnil] at hstarts
      exact hstarts
  · have hobject := H.object
    cases hdata : v.data with
    | some block =>
      rw [VecBase.block, hdata] at hlen
      rw [hdata] at hobject
      exact hlen.trans_lt hobject
    | none => exact Nat.two_pow_pos 63

theorem store (H : HasRoom v.capacity v.data rs) (hi : i < rs.length) (e : Elem memsz) :
    ∃ d, v.onBlock (fun b => writeWindow b (i * memsz) e.val) = some { v with data := d } ∧
      HasRoom v.capacity d (overwrite rs i [e]) := by
  obtain ⟨b, hb, hlen, hstarts⟩ := H.starts.store hi e
  exact H.onBlock hb hlen hstarts (overwrite_length hi)

theorem memmove (H : HasRoom v.capacity v.data rs) (hsrc : j + k ≤ rs.length)
    (hdst : i + k ≤ rs.length) :
    ∃ d, v.onBlock (fun b => Bfcomp.memmove b (i * memsz) (j * memsz) (k * memsz)) =
      some { v with data := d } ∧ HasRoom v.capacity d (overwrite rs i ((rs.drop j).take k)) := by
  obtain ⟨b, hb, hlen, hstarts⟩ := H.starts.memmove hsrc hdst
  refine H.onBlock hb hlen hstarts (overwrite_length ?_)
  rw [List.length_take, List.length_drop]
  omega

theorem swap (H : HasRoom v.capacity v.data rs) (hi : i < rs.length) (hj : j < rs.length) :
    ∃ d, vecSwap memsz i j v = some { v with data := d } ∧
      HasRoom v.capacity d ((rs.set i rs[j]).set j rs[i]) := by
  unfold vecSwap
  by_cases hne : i = j
  · subst hne
    refine ⟨v.data, if_pos rfl, ?_⟩
    rw [List.set_getElem_self, List.set_getElem_self]
    exact H
  · rw [if_neg hne]
    obtain ⟨b, hb, hlen, hstarts⟩ := H.starts.exchange hi hj hne
    exact H.onBlock hb hlen hstarts (by rw [List.length_set, List.length_set])

theorem storeEnd (H : HasRoom v.capacity v.data rs) (arr : List (Elem memsz))
    (hfit : v.length + arr.length ≤ rs.length) :
    ∃ d, vecStoreEnd memsz (arr.map Subtype.val) v =
      some { v with length := v.length + arr.length, data := d } ∧
      HasRoom v.capacity d (overwrite rs v.length arr) := by
  induction arr generalizing v rs with
  | nil => exact ⟨v.data, rfl, by rw [overwrite_nil]; exact H⟩
  | cons e arr ih =>
    rw [List.length_cons] at hfit
    obtain ⟨d, hstore, H₁⟩ := H.store (i := v.length) (by omega) e
    have hlen : (overwrite rs v.length [e]).length = rs.length :=
      overwrite_length (by rw [List.length_singleton]; omega)
    obtain ⟨d', hrest, H₂⟩ := ih (v := { v with length := v.length + 1, data := d }) H₁
      (by simp only; omega)
    refine ⟨d', ?_, ?_⟩
    · rw [List.map_cons, vecStoreEnd, hstore, Option.bind_eq_bind, Option.bind_some, hrest,
        List.length_cons, Nat.add_assoc, Nat.add_comm 1]
    · have hsplit := overwrite_overwrite (b := rs) (i := v.length) (w := [e]) (v := arr)
        (by simp only [List.length_append, List.length_singleton]; omega)
      rw [List.length_singleton, List.singleton_append] at hsplit
      rw [← hsplit]
      exact H₂

theorem storeAt (H : HasRoom v.capacity v.data rs) (arr : List (Elem memsz))
    (hfit : i + arr.length ≤ rs.length) :
    ∃ d, vecStoreAt memsz i (arr.map Subtype.val) v = some { v with data := d } ∧
      HasRoom v.capacity d (overwrite rs i arr) := by
  induction arr generalizing i v rs with
  | nil => exact ⟨v.data, rfl, by rw [overwrite_nil]; exact H⟩
  | cons e arr ih =>
    rw [List.length_cons] at hfit
    obtain ⟨d, hstore, H₁⟩ := H.store (i := i) (by omega) e
    have hlen : (overwrite rs i [e]).length = rs.length :=
      overwrite_length (by rw [List.length_singleton]; omega)
    obtain ⟨d', hrest, H₂⟩ := ih (i := i + 1) (v := { v with data := d }) H₁ (by omega)
    refine ⟨d', ?_, ?_⟩
    · rw [List.map_cons, vecStoreAt, hstore, Option.bind_eq_bind, Option.bind_some, hrest]
    · have hsplit := overwrite_overwrite (b := rs) (i := i) (w := [e]) (v := arr)
        (by simp only [List.length_append, List.length_singleton]; omega)
      rw [List.length_singleton, List.singleton_append] at hsplit
      rw [← hsplit]
      exact H₂

end HasRoom

/-! ## Growing -/

theorem vecAlloc_refused {ptr : Option (List Byte)} {size : ℕ} {answer : Answer} (hpos : 0 < size)
    (hno : answer = none ∨ 2^63 ≤ size) : vecAlloc ptr size answer = some none := by
  rw [vecAlloc, if_neg (fun h => by omega)]
  rcases hno with rfl | hbig
  · rw [Option.map_none, ite_self]
  · rw [if_pos hbig]

theorem vecMoved_length (old : List Byte) (size : ℕ) (fresh : ℕ → Byte) :
    (vecMoved old size fresh).length = size := by
  rw [vecMoved, List.length_map, List.length_range]

theorem vecMoved_front (old : List Byte) (size : ℕ) (fresh : ℕ → Byte) :
    old.take size <+: vecMoved old size fresh := by
  rw [List.prefix_iff_eq_take]
  refine List.ext_getElem? fun k => ?_
  rw [List.length_take, List.getElem?_take, List.getElem?_take]
  by_cases hk : k < size
  · rw [if_pos hk, vecMoved, List.getElem?_map, List.getElem?_range hk, Option.map_some,
      List.getD_eq_getElem?_getD]
    cases hget : old[k]? with
    | none =>
      have hlen := List.getElem?_eq_none_iff.mp hget
      rw [if_neg (by omega)]
    | some x =>
      have hlen := (List.getElem?_eq_some_iff.mp hget).1
      rw [if_pos (by omega), Option.getD_some]
  · rw [if_neg hk, if_neg (by omega)]

theorem vecAlloc_granted {ptr : Option (List Byte)} {size : ℕ} {fresh : ℕ → Byte} (hpos : 0 < size)
    (hsize : size < 2^63) :
    vecAlloc ptr size (some fresh) = some (some (vecMoved (ptr.getD []) size fresh)) := by
  rw [vecAlloc, if_neg (fun h => by omega), if_neg (by omega), Option.map_some]

theorem starts_vecMoved {old : List Byte} {size : ℕ} {fresh : ℕ → Byte} {es : List (Elem memsz)}
    (hstarts : Starts old es) (hle : es.length * memsz ≤ size) :
    Starts (vecMoved old size fresh) es := by
  refine List.IsPrefix.trans ?_ (vecMoved_front old size fresh)
  rw [List.prefix_take_iff, Record.bytes_length]
  exact ⟨hstarts, hle⟩

/-- Bytes that are taken for their elements: those of borrowed memory survive a move only if an
element is one byte. -/
structure VecBase.Valid (v : VecBase) (es : List (Elem memsz)) : Prop extends v.Holds es where
  lent : v.borrowed = true → memsz = 1

/-- What comes of a call that may ask for memory: the vector has the elements `es` and the capacity
`cap`, or it is as it was, if the allocator refused, or could not but refuse, `m` elements. -/
def Done (answer : Answer) (v : VecBase) (es : List (Elem memsz)) (cap m : ℕ)
    (r : Option (VecBase × BitVec 64)) : Prop :=
  (∃ v', r = some (v', 0) ∧ v'.Valid es ∧ v'.capacity = cap) ∨
    r = some (v, -1) ∧ (answer = none ∨ 2^63 ≤ m * memsz)

variable {answer : Answer} {v : VecBase} {es : List (Elem memsz)} {n : ℕ}

theorem Done.weaken {cap m m' : ℕ} {r : Option (VecBase × BitVec 64)} (hm : m ≤ m')
    (h : Done answer v es cap m r) : Done answer v es cap m' r :=
  h.imp_right fun h => ⟨h.1, h.2.imp_right fun h => h.trans (Nat.mul_le_mul_right _ hm)⟩

theorem VecBase.Holds.le_capacity (H : v.Holds es) : es.length ≤ v.capacity := by
  obtain ⟨rest, hroom⟩ := H.room
  rw [← hroom.count, List.length_append]
  exact Nat.le_add_right _ _

theorem VecBase.Holds.capacity_lt (H : v.Holds es) : v.capacity * memsz < 2^63 := by
  obtain ⟨rest, hroom⟩ := H.room
  exact hroom.le_block.trans_lt hroom.object

/-- Memory of `n` elements that starts with those of the vector. -/
theorem holds_of_starts {b : List Byte} (hlen : b.length = n * memsz) (hobject : n * memsz < 2^63)
    (hn : es.length ≤ n) (hstarts : Starts b es) :
    (VecBase.mk false es.length n (some b)).Holds es := by
  obtain ⟨rest, hcount, hrest⟩ := hstarts.extend (Nat.le_of_eq hlen.symm) hn
  exact ⟨rfl, rest, hcount, hrest, by rw [Option.getD_some, hlen]; exact hobject⟩

/-- A move of borrowed memory takes as many bytes along as there are elements. -/
theorem memcpy_block {block b : List Byte} (hblock : n ≤ block.length) (hb : n ≤ b.length) :
    memcpy b block n = some (block.take n ++ b.drop n) := by
  have hlen : (block.take n).length = n := by
    rw [List.length_take]
    omega
  rw [memcpy, readWindow_eq (by omega), Option.bind_some, List.drop_zero,
    writeWindow_eq (by omega), overwrite, List.take_zero, List.nil_append, hlen, Nat.zero_add]

theorem vecGrow_lent {fresh : ℕ → Byte} (hpos : 0 < memsz) (H : v.Holds es)
    (hlent : v.borrowed = true) (hn : v.capacity < n) (hsize : n * memsz < 2^63) :
    vecGrow memsz n (some fresh) v = some (⟨false, es.length, n,
      some (v.block.take es.length ++ (vecMoved [] (n * memsz) fresh).drop es.length)⟩, 0) := by
  have hle := H.le_capacity
  obtain ⟨rest, hroom⟩ := H.room
  have hblock : es.length ≤ v.block.length :=
    (Nat.le_mul_of_pos_right _ hpos).trans hroom.starts.front.length_le
  have hmoved : es.length ≤ (vecMoved [] (n * memsz) fresh).length := by
    rw [vecMoved_length]
    exact (by omega : es.length ≤ n).trans (Nat.le_mul_of_pos_right _ hpos)
  have hsizeT : sizeT (n * memsz) = n * memsz := Nat.mod_eq_of_lt (by omega)
  rw [vecGrow, if_pos hlent, hsizeT,
    vecAlloc_granted (Nat.mul_pos (by omega) hpos) hsize, H.length]
  simp only [Option.bind_eq_bind, Option.bind_some, if_pos hlent, Option.getD_none,
    memcpy_block hblock hmoved]

theorem vecGrow_granted (hpos : 0 < memsz) (H : v.Valid es) (hn : v.capacity < n)
    (hfit : n * memsz < 2^64) : Done answer v es n n (vecGrow memsz n answer v) := by
  have hn0 : 0 < n := by omega
  have hsize : 0 < n * memsz := Nat.mul_pos hn0 hpos
  have hsizeT : sizeT (n * memsz) = n * memsz := Nat.mod_eq_of_lt hfit
  have hle := H.le_capacity
  have hmul : es.length * memsz ≤ n * memsz := Nat.mul_le_mul_right _ (by omega)
  obtain ⟨rest, hroom⟩ := H.room
  by_cases hno : answer = none ∨ 2^63 ≤ n * memsz
  · refine .inr ⟨?_, hno⟩
    rw [vecGrow, hsizeT, vecAlloc_refused hsize hno]
    rfl
  · rw [not_or, not_le] at hno
    obtain ⟨fresh, rfl⟩ := Option.ne_none_iff_exists'.mp hno.1
    by_cases hlent : v.borrowed = true
    · obtain rfl := H.lent hlent
      rw [vecGrow_lent hpos H.toHolds hlent hn hno.2]
      have hbytes : v.block.take es.length = Record.bytes es := by
        have hwin := hroom.starts.front.window (i := 0) (k := es.length) (by omega)
        rwa [Nat.zero_mul, List.drop_zero, Nat.mul_one, List.drop_zero, List.take_length] at hwin
      refine .inl ⟨_, rfl, ⟨holds_of_starts ?_ hno.2 (by omega) ?_, fun h => by cases h⟩, rfl⟩
      · rw [hbytes, List.length_append, Record.bytes_length, List.length_drop, vecMoved_length]
        omega
      · rw [hbytes]
        exact List.prefix_append _ _
    · rw [vecGrow, hsizeT, if_neg hlent, vecAlloc_granted hsize hno.2]
      simp only [Option.bind_eq_bind, Option.bind_some, if_neg hlent, H.length]
      have hstarts : Starts (vecMoved (v.data.getD []) (n * memsz) fresh) es :=
        starts_vecMoved hroom.starts.front hmul
      exact .inl ⟨_, rfl, ⟨holds_of_starts (vecMoved_length _ _ _) hno.2 (by omega) hstarts,
        fun h => by cases h⟩, rfl⟩

/-! ## Requests -/

/-- The capacity after `vec_expand_`. -/
def expanded (length capacity : ℕ) : ℕ :=
  if length + 1 > capacity then if capacity = 0 then 1 else capacity * 2 else capacity

/-- The capacity after `vec_reserve_po2_`: the least power of two that is enough. -/
def reservedPo2 (capacity n : ℕ) : ℕ := if n = 0 then capacity else max capacity (2^Nat.clog 2 n)

theorem lt_expanded {length capacity : ℕ} (h : length ≤ capacity) :
    length < expanded length capacity := by
  unfold expanded
  split
  · split <;> omega
  · omega

theorem vecExpand_granted (hpos : 0 < memsz) (hmemsz : memsz < 2^63) (H : v.Valid es) :
    Done answer v es (expanded es.length v.capacity) (2 * (es.length + 1))
      (vecExpand memsz answer v) := by
  have hle := H.le_capacity
  have hcap := H.capacity_lt
  have hcap' := Nat.le_mul_of_pos_right v.capacity hpos
  have hlen : sizeT (v.length + 1) = es.length + 1 := by
    rw [H.length]
    exact Nat.mod_eq_of_lt (by omega)
  unfold vecExpand expanded
  rw [hlen]
  by_cases hfull : es.length + 1 > v.capacity
  · rw [if_pos hfull, if_pos hfull]
    have hn : (if v.capacity = 0 then 1 else sizeT (v.capacity * 2)) =
        if v.capacity = 0 then 1 else v.capacity * 2 := by
      rw [sizeT, Nat.mod_eq_of_lt (by omega)]
    rw [hn]
    have hnew : v.capacity < (if v.capacity = 0 then 1 else v.capacity * 2) ∧
        (if v.capacity = 0 then 1 else v.capacity * 2) * memsz < 2^64 := by
      split
      · omega
      · rw [Nat.mul_right_comm]
        omega
    refine (vecGrow_granted hpos H hnew.1 hnew.2).weaken ?_
    split <;> omega
  · rw [if_neg hfull, if_neg hfull]
    exact .inl ⟨v, rfl, H, rfl⟩

/-- The loop ends with the next power of two. -/
theorem vecPo2_spec (k fuel : ℕ) (hn : n ≤ 2^(k + fuel)) (hfit : k + fuel ≤ 63) :
    vecPo2 (fuel + 1) n (2^k) = some (2^(max k (Nat.clog 2 n))) := by
  induction fuel generalizing k with
  | zero =>
    rw [Nat.add_zero] at hn
    have hle : Nat.clog 2 n ≤ k := Nat.clog_le_of_le_pow hn
    rw [Nat.max_eq_left hle, vecPo2, if_neg (Nat.not_lt.mpr hn)]
  | succ fuel ih =>
    rw [vecPo2]
    by_cases hlt : 2^k < n
    · have hk : k < Nat.clog 2 n := (Nat.lt_clog_iff_pow_lt (by decide)).mpr hlt
      have hsize : 2^(k + 1) < 2^64 := Nat.pow_lt_pow_right (by decide) (by omega)
      have hsizeT : sizeT (2^k * 2) = 2^(k + 1) := by
        rw [← Nat.pow_succ]
        exact Nat.mod_eq_of_lt hsize
      rw [if_pos hlt, hsizeT, ih (k + 1) (by rw [Nat.add_right_comm]; exact hn) (by omega),
        Nat.max_eq_right hk, Nat.max_eq_right (by omega)]
    · have hk : ¬ k < Nat.clog 2 n := fun h => hlt ((Nat.lt_clog_iff_pow_lt (by decide)).mp h)
      rw [if_neg hlt, Nat.max_eq_left (by omega)]

theorem pow_clog_lt (hn : 0 < n) : 2^Nat.clog 2 n < 2 * n := by
  rcases Nat.lt_or_ge 1 n with h | h
  · have hpred := Nat.pow_pred_clog_lt_self (b := 2) (by decide) h
    have hpos := Nat.clog_pos (b := 2) (by decide) h
    obtain ⟨k, hk⟩ := Nat.exists_eq_succ_of_ne_zero hpos.ne'
    rw [hk, Nat.pred_succ] at hpred
    rw [hk, Nat.pow_succ]
    omega
  · rw [Nat.clog_of_right_le_one h, pow_zero]
    omega

theorem vecReserve_granted (hpos : 0 < memsz) (H : v.Valid es) (hfit : n * memsz < 2^64) :
    Done answer v es (max v.capacity n) n (vecReserve memsz n answer v) := by
  unfold vecReserve
  by_cases hfull : n > v.capacity
  · rw [if_pos hfull, Nat.max_eq_right (by omega)]
    exact vecGrow_granted hpos H hfull hfit
  · rw [if_neg hfull, Nat.max_eq_left (by omega)]
    exact .inl ⟨v, rfl, H, rfl⟩

theorem le_reservedPo2 (capacity n : ℕ) : n ≤ reservedPo2 capacity n := by
  unfold reservedPo2
  split
  · omega
  · exact (Nat.le_pow_clog (by decide) n).trans (Nat.le_max_right _ _)

theorem vecReservePo2_granted (hpos : 0 < memsz) (H : v.Valid es) (hfit : n * memsz ≤ 2^63) :
    Done answer v es (reservedPo2 v.capacity n) (2 * n) (vecReservePo2 memsz n answer v) := by
  unfold vecReservePo2 reservedPo2
  by_cases hn : n = 0
  · rw [if_pos hn, if_pos hn]
    exact .inl ⟨v, rfl, H, rfl⟩
  · have hle := Nat.le_mul_of_pos_right n hpos
    have hlt : 2^Nat.clog 2 n * memsz < 2 * n * memsz :=
      Nat.mul_lt_mul_of_pos_right (pow_clog_lt (by omega)) hpos
    have hlt' : 2^Nat.clog 2 n * memsz < 2^64 := by
      rw [Nat.mul_assoc] at hlt
      omega
    have hpo2 := vecPo2_spec 0 63 (by omega : n ≤ 2^(0 + 63)) (Nat.le_refl _)
    rw [pow_zero, Nat.max_eq_right (Nat.zero_le _)] at hpo2
    rw [if_neg hn, if_neg hn, hpo2, Option.bind_some]
    exact (vecReserve_granted hpos H hlt').weaken (pow_clog_lt (by omega)).le

/-! ## Operations -/

theorem VecBase.Valid.update (H : v.Valid es) {d : Option (List Byte)} {es' rest : List (Elem memsz)}
    (hroom : HasRoom v.capacity d (es' ++ rest)) :
    (VecBase.mk v.borrowed es'.length v.capacity d).Valid es' :=
  ⟨⟨rfl, rest, hroom⟩, H.lent⟩

theorem vecPush_spec (hpos : 0 < memsz) (hmemsz : memsz < 2^63) (H : v.Valid es)
    (e : Elem memsz) :
    Done answer v (es ++ [e]) (expanded es.length v.capacity) (2 * (es.length + 1))
      (vecPush memsz e.val answer v) := by
  have hmore := lt_expanded H.le_capacity
  unfold vecPush
  rcases vecExpand_granted hpos hmemsz H with ⟨v', hv', hvalid, hcap⟩ | ⟨hv', hno⟩
  · obtain ⟨rest, hroom⟩ := hvalid.room
    have hcount := hroom.count
    rw [List.length_append] at hcount
    obtain ⟨d, hstore, hroom'⟩ := hroom.store (i := es.length)
      (by rw [List.length_append]; omega) e
    rw [overwrite_behind] at hroom'
    rw [hv']
    simp only [Option.bind_eq_bind, Option.bind_some, ne_eq, not_true_eq_false, if_false,
      hvalid.length, hstore]
    refine .inl ⟨_, rfl, ?_, hcap⟩
    have hlen : (es ++ [e]).length = es.length + 1 := List.length_append
    rw [← hlen]
    exact hvalid.update hroom'
  · rw [hv']
    exact .inr ⟨rfl, hno⟩

/-- The same of an operation that does not tell. -/
def DoneSilently (answer : Answer) (v : VecBase) (es : List (Elem memsz)) (cap m : ℕ)
    (r : Option VecBase) : Prop :=
  (∃ v', r = some v' ∧ v'.Valid es ∧ v'.capacity = cap) ∨
    r = some v ∧ (answer = none ∨ 2^63 ≤ m * memsz)

theorem vecPusharr_spec (hpos : 0 < memsz) (H : v.Valid es) (arr : List (Elem memsz))
    (hfit : (es.length + arr.length) * memsz ≤ 2^63) :
    DoneSilently answer v (es ++ arr) (reservedPo2 v.capacity (es.length + arr.length))
      (2 * (es.length + arr.length)) (vecPusharr memsz (arr.map Subtype.val) answer v) := by
  have hle := Nat.le_mul_of_pos_right (es.length + arr.length) hpos
  have hsizeT : sizeT (v.length + (arr.map Subtype.val).length) = es.length + arr.length := by
    rw [H.length, List.length_map]
    exact Nat.mod_eq_of_lt (by omega)
  unfold vecPusharr
  rw [hsizeT]
  have hmore := le_reservedPo2 v.capacity (es.length + arr.length)
  rcases vecReservePo2_granted hpos H hfit with ⟨v', hv', hvalid, hcap⟩ | ⟨hv', hno⟩
  · obtain ⟨rest, hroom⟩ := hvalid.room
    have hlen := hvalid.length
    obtain ⟨d, hstore, hroom'⟩ := hroom.storeEnd arr (by rw [hroom.count, hlen, hcap]; exact hmore)
    rw [hlen, overwrite_behind] at hroom'
    rw [hv']
    simp only [Option.bind_eq_bind, Option.bind_some, ne_eq, not_true_eq_false, if_false, hstore, hlen]
    refine .inl ⟨_, rfl, ?_, hcap⟩
    rw [← List.length_append]
    exact hvalid.update hroom'
  · rw [hv']
    exact .inr ⟨rfl, hno⟩

theorem vecPop_spec (H : v.Valid es) (hne : es ≠ []) :
    ∃ v', vecPop memsz v = some (v', (es.getLast hne).val) ∧ v'.Valid es.dropLast := by
  obtain ⟨rest, hroom⟩ := H.room
  have hlen := List.length_pos_of_ne_nil hne
  have hlast := hroom.starts.front.load (i := es.length - 1) (by omega)
  refine ⟨{ v with length := es.length - 1 }, ?_, ?_⟩
  · rw [vecPop, H.length, sizeSub, if_pos (by omega : 1 ≤ es.length)]
    simp only [Option.bind_eq_bind, Option.bind_some, VecBase.block, hlast, List.getLast_eq_getElem]
  · have hsplit : es ++ rest = es.dropLast ++ ([es.getLast hne] ++ rest) := by
      rw [← List.append_assoc, List.dropLast_append_getLast]
    rw [hsplit] at hroom
    rw [← List.length_dropLast]
    exact H.update hroom

theorem vecTruncate_spec (H : v.Valid es) (len : ℕ) : (vecTruncate len v).Valid (es.take len) := by
  obtain ⟨rest, hroom⟩ := H.room
  have hlen : (if len < v.length then len else v.length) = (es.take len).length := by
    rw [List.length_take, H.length]
    split <;> omega
  have hsplit : es ++ rest = es.take len ++ (es.drop len ++ rest) := by
    rw [← List.append_assoc, List.take_append_drop]
  rw [hsplit] at hroom
  rw [vecTruncate, hlen]
  exact H.update hroom

theorem vecSplice_spec (H : v.Valid es) {start count : ℕ} (hle : start + count ≤ es.length) :
    ∃ v', vecSplice memsz start count v = some v' ∧
      v'.Valid (es.take start ++ es.drop (start + count)) := by
  obtain ⟨rest, hroom⟩ := H.room
  have hlen : (es ++ rest).length = es.length + rest.length := List.length_append
  obtain ⟨d, hmove, hroom'⟩ := hroom.memmove (i := start) (j := start + count)
    (k := es.length - (start + count)) (by omega) (by omega)
  have htail : ((es ++ rest).drop (start + count)).take (es.length - (start + count)) =
      es.drop (start + count) := by
    rw [List.drop_append_of_le_length hle]
    exact List.take_left' List.length_drop
  have hkept : (es.take start ++ es.drop (start + count)).length = es.length - count := by
    rw [List.length_append, List.length_take, List.length_drop]
    omega
  rw [htail, overwrite, List.take_append_of_le_length (by omega)] at hroom'
  refine ⟨_, ?_, H.update hroom'⟩
  rw [vecSplice, H.length, sizeSub, if_pos hle, hkept]
  simp only [Option.bind_eq_bind, Option.bind_some, hmove, H.length]

/-- What `vec_swapsplice` leaves: the last elements in the place of the removed ones. -/
def swapspliced {α : Type} (es : List α) (start count : ℕ) : List α :=
  (overwrite es start (es.drop (es.length - count))).take (es.length - count)

theorem vecSwapsplice_spec (H : v.Valid es) {start count : ℕ} (hle : start + count ≤ es.length) :
    ∃ v', vecSwapsplice memsz start count v = some v' ∧ v'.Valid (swapspliced es start count) := by
  obtain ⟨rest, hroom⟩ := H.room
  have hlen : (es ++ rest).length = es.length + rest.length := List.length_append
  obtain ⟨d, hmove, hroom'⟩ := hroom.memmove (i := start) (j := es.length - count) (k := count)
    (by omega) (by omega)
  have hdrop : (es.drop (es.length - count)).length = count := by
    rw [List.length_drop]
    omega
  have htail : ((es ++ rest).drop (es.length - count)).take count = es.drop (es.length - count) := by
    rw [List.drop_append_of_le_length (by omega)]
    exact List.take_left' hdrop
  have hkept : (overwrite es start (es.drop (es.length - count))).length = es.length :=
    overwrite_length (by omega)
  have hspliced : (swapspliced es start count).length = es.length - count := by
    rw [swapspliced, List.length_take, hkept]
    omega
  rw [htail, overwrite_append (by omega),
    ← List.take_append_drop (es.length - count) (overwrite es start _), List.append_assoc] at hroom'
  refine ⟨_, ?_, H.update hroom'⟩
  rw [vecSwapsplice, H.length, sizeSub, if_pos (by omega)]
  simp only [Option.bind_eq_bind, Option.bind_some, hmove]
  rw [← hspliced, swapspliced]

theorem vecInsert_spec (hpos : 0 < memsz) (hmemsz : memsz < 2^63) (H : v.Valid es) {idx : ℕ}
    (hidx : idx ≤ es.length) (e : Elem memsz) :
    Done answer v (es.take idx ++ [e] ++ es.drop idx) (expanded es.length v.capacity)
      (2 * (es.length + 1)) (vecInsert memsz idx e.val answer v) := by
  have hmore := lt_expanded H.le_capacity
  have hsizeT : sizeT (memsz * 1) = memsz := by
    rw [sizeT, Nat.mul_one]
    exact Nat.mod_eq_of_lt (by omega)
  unfold vecInsert vecInsertGap
  rw [hsizeT]
  rcases vecExpand_granted hpos hmemsz H with ⟨v', hv', hvalid, hcap⟩ | ⟨hv', hno⟩
  · obtain ⟨rest, hroom⟩ := hvalid.room
    have hcount := hroom.count
    have hlen : (es ++ rest).length = es.length + rest.length := List.length_append
    obtain ⟨d, hmove, hroom₁⟩ := hroom.memmove (i := idx + 1) (j := idx) (k := es.length - idx)
      (by omega) (by omega)
    have htail : ((es ++ rest).drop idx).take (es.length - idx) = es.drop idx := by
      rw [List.drop_append_of_le_length hidx]
      exact List.take_left' List.length_drop
    have hkept : (overwrite (es ++ rest) (idx + 1) (es.drop idx)).length = (es ++ rest).length :=
      overwrite_length (by rw [List.length_drop]; omega)
    rw [htail] at hroom₁
    obtain ⟨d', hstore, hroom₂⟩ := HasRoom.store
      (v := { v' with length := es.length, data := d }) hroom₁ (i := idx) (by omega) e
    have hgap := overwrite_gap (w := [e]) hidx (v := rest) (by rw [List.length_singleton]; omega)
    rw [List.length_singleton] at hgap
    rw [hgap] at hroom₂
    have hnew : (es.take idx ++ [e] ++ es.drop idx).length = es.length + 1 := by
      simp only [List.length_append, List.length_take, List.length_singleton, List.length_drop]
      omega
    rw [hv']
    simp only [Option.bind_eq_bind, Option.bind_some, ne_eq, not_true_eq_false, if_false,
      hvalid.length, sizeSub, hidx, if_true, hmove, hstore]
    refine .inl ⟨_, rfl, ?_, hcap⟩
    rw [← hnew]
    exact hvalid.update hroom₂
  · rw [hv']
    exact .inr ⟨rfl, hno⟩

/-- Borrowed memory is not given back as long as there is an element in it. -/
theorem vecCompact_spec (hpos : 0 < memsz) (H : v.Valid es) (hlent : v.borrowed = true → es ≠ []) :
    Done answer v es es.length es.length (vecCompact memsz answer v) := by
  obtain ⟨rest, hroom⟩ := H.room
  have hcap := H.capacity_lt
  have hmul : es.length * memsz ≤ v.capacity * memsz := Nat.mul_le_mul_right _ H.le_capacity
  have hnil : es = [] ↔ v.length = 0 := by
    rw [H.length, List.length_eq_zero_iff]
  unfold vecCompact
  by_cases hempty : v.length = 0
  · rw [if_pos hempty]
    have hes := hnil.mpr hempty
    subst hes
    refine .inl ⟨_, rfl, ⟨⟨hempty, [], rfl, ?_, ?_⟩, H.lent⟩, rfl⟩
    · exact Record.Starts.nil _
    · split
      · exact absurd rfl (hlent ‹_›)
      · exact Nat.two_pow_pos 63
  · have hsize : 0 < es.length * memsz := by
      rw [← H.length]
      exact Nat.mul_pos (by omega) hpos
    have hsizeT : sizeT (es.length * memsz) = es.length * memsz := Nat.mod_eq_of_lt (by omega)
    rw [if_neg hempty]
    by_cases hown : v.borrowed = true
    · rw [if_pos hown, H.length]
      refine .inl ⟨_, rfl, ⟨⟨rfl, [], ?_⟩, H.lent⟩, rfl⟩
      rw [List.append_nil]
      exact ⟨rfl, hroom.starts.front, hroom.object⟩
    · rw [if_neg hown, H.length, hsizeT]
      cases answer with
      | none =>
        rw [vecAlloc_refused hsize (.inl rfl)]
        exact .inr ⟨rfl, .inl rfl⟩
      | some fresh =>
        rw [vecAlloc_granted hsize (by omega)]
        refine .inl ⟨_, rfl, ⟨⟨rfl, [], ?_⟩, H.lent⟩, rfl⟩
        rw [List.append_nil]
        exact ⟨rfl, starts_vecMoved hroom.starts.front (Nat.le_refl _),
          by rw [Option.getD_some, vecMoved_length]; omega⟩

/-! ## Searching -/

theorem vecFindFrom_spec (H : v.Valid es) (val : Elem memsz) (left idx : ℕ)
    (hleft : idx + left = es.length) : vecFindFrom memsz val.val v left idx =
      some (((es.drop idx).findIdx? (· == val)).map (· + idx)) := by
  obtain ⟨rest, hroom⟩ := H.room
  induction left generalizing idx with
  | zero =>
    rw [vecFindFrom, List.drop_eq_nil_of_le (by omega)]
    rfl
  | succ left ih =>
    have hidx : idx < es.length := by omega
    have hload := hroom.starts.front.load hidx
    rw [vecFindFrom, List.drop_eq_getElem_cons hidx, List.findIdx?_cons]
    simp only [Option.bind_eq_bind, VecBase.block, hload, Option.bind_some]
    by_cases heq : es[idx] = val
    · rw [if_pos (congrArg _ heq), if_pos (beq_iff_eq.mpr heq), Option.map_some, Nat.zero_add]
    · rw [if_neg (fun h => heq (Subtype.ext h)), if_neg (fun h => heq (beq_iff_eq.mp h)),
        ih _ (by omega), Option.map_map]
      congr 2
      funext i
      exact (Nat.add_right_comm i 1 idx).symm

theorem vecRemove_spec (H : v.Valid es) (val : Elem memsz) :
    ∃ v', vecRemove memsz val.val v = some v' ∧ v'.Valid (es.erase val) := by
  have hfind := vecFindFrom_spec H val es.length 0 (Nat.zero_add _)
  rw [List.drop_zero] at hfind
  unfold vecRemove vecFind
  rw [H.length, hfind, List.erase_eq_eraseP', List.eraseP_eq_eraseIdx]
  cases hidx : es.findIdx? (· == val) with
  | none => exact ⟨v, rfl, H⟩
  | some idx =>
    obtain ⟨hlt, _⟩ := List.findIdx?_eq_some_iff_getElem.mp hidx
    obtain ⟨v', hv', hvalid⟩ := vecSplice_spec H (by omega : idx + 1 ≤ es.length)
    rw [← List.eraseIdx_eq_take_drop_succ] at hvalid
    exact ⟨v', hv', hvalid⟩

/-! ## Exchanging -/

theorem vecSwap_spec (H : v.Valid es) {i j : ℕ} (hi : i < es.length) (hj : j < es.length) :
    ∃ v', vecSwap memsz i j v = some v' ∧ v'.Valid ((es.set i es[j]).set j es[i]) := by
  obtain ⟨rest, hroom⟩ := H.room
  have hlen : (es ++ rest).length = es.length + rest.length := List.length_append
  obtain ⟨d, hswap, hroom'⟩ := hroom.swap (i := i) (j := j) (by omega) (by omega)
  rw [List.getElem_append_left hi, List.getElem_append_left hj, List.set_append_left _ _ hi,
    List.set_append_left _ _ (by rw [List.length_set]; exact hj)] at hroom'
  refine ⟨_, hswap, ?_⟩
  have hkept : ((es.set i es[j]).set j es[i]).length = v.length := by
    rw [List.length_set, List.length_set, H.length]
  have hvalid := H.update hroom'
  rw [hkept] at hvalid
  exact hvalid

/-- After the last `i` turns of the loop, the outermost `i` elements of each side have changed
places. -/
theorem vecReverseFrom_spec (H : v.Valid es) (i : ℕ) (hi : 2 * i ≤ es.length) :
    ∃ v' es', vecReverseFrom memsz i v = some v' ∧ v'.Valid es' ∧ es'.length = es.length ∧
      ∀ m < es.length, es'[m]? =
        if m < i ∨ es.length - i ≤ m then es[es.length - 1 - m]? else es[m]? := by
  induction i generalizing v es with
  | zero =>
    refine ⟨v, es, rfl, H, rfl, fun m hm => ?_⟩
    rw [if_neg (by omega)]
  | succ i ih =>
    have hfirst : i < es.length := by omega
    have hlast : es.length - (i + 1) < es.length := by omega
    obtain ⟨v₁, hv₁, H₁⟩ := vecSwap_spec H hfirst hlast
    have hlen : ((es.set i es[es.length - (i + 1)]).set (es.length - (i + 1)) es[i]).length =
        es.length := by
      rw [List.length_set, List.length_set]
    obtain ⟨v', es', hv', H', hlen', hget⟩ := ih H₁ (by omega)
    refine ⟨v', es', ?_, H', hlen'.trans hlen, fun m hm => ?_⟩
    · rw [vecReverseFrom, H.length, sizeSub, if_pos (by omega)]
      simp only [Option.bind_eq_bind, Option.bind_some, hv₁, hv']
    · rw [hget m (by omega), hlen]
      have hother {k : ℕ} (hki : i ≠ k) (hkj : es.length - (i + 1) ≠ k) :
          ((es.set i es[es.length - (i + 1)]).set (es.length - (i + 1)) es[i])[k]? = es[k]? := by
        rw [List.getElem?_set_ne hkj, List.getElem?_set_ne hki]
      by_cases houter : m < i ∨ es.length - i ≤ m
      · rw [if_pos houter, if_pos (by omega), hother (by omega) (by omega)]
      rw [if_neg houter]
      by_cases hmi : m = i
      · subst hmi
        rw [if_pos (by omega), List.getElem?_set_ne (by omega), List.getElem?_set_self hfirst,
          Nat.sub_sub, Nat.add_comm 1, List.getElem?_eq_getElem hlast]
      by_cases hmj : m = es.length - (i + 1)
      · subst hmj
        have hmirror : es.length - 1 - (es.length - (i + 1)) = i := by omega
        rw [if_pos (by omega), List.getElem?_set_self (by rw [List.length_set]; exact hlast),
          hmirror, List.getElem?_eq_getElem hfirst]
      · rw [if_neg (by omega), hother (Ne.symm hmi) (Ne.symm hmj)]


theorem vecReverse_eq (memsz : ℕ) {v : VecBase} (hlen : v.length < 2^32) :
    vecReverse memsz v = vecReverseFrom memsz (v.length / 2) v := by
  have hint : ((v.length / 2 : ℕ) : ℤ).bmod (2^32) = (v.length / 2 : ℕ) := by
    refine Int.bmod_eq_of_le ?_ ?_ <;> omega
  have hpos : ¬ (((v.length / 2 : ℕ) : ℤ) < 0) := by omega
  unfold vecReverse
  rw [hint]
  simp only [hpos, if_false, Int.toNat_natCast]

theorem vecReverse_spec (H : v.Valid es) (hlen : es.length < 2^32) :
    ∃ v', vecReverse memsz v = some v' ∧ v'.Valid es.reverse := by
  rw [vecReverse_eq memsz (by rw [H.length]; exact hlen), H.length]
  obtain ⟨v', es', hv', H', hlen', hget⟩ := vecReverseFrom_spec H (es.length / 2) (by omega)
  have hreverse : es' = es.reverse := by
    refine List.ext_getElem? fun m => ?_
    by_cases hm : m < es.length
    · rw [hget m hm, List.getElem?_reverse hm]
      split
      · rfl
      · have hmiddle : es.length - 1 - m = m := by omega
        rw [hmiddle]
    · rw [List.getElem?_eq_none (by omega),
        List.getElem?_eq_none (by rw [List.length_reverse]; omega)]
  rw [hreverse] at H'
  exact ⟨v', hv', H'⟩

end
end Bfcomp
