import Bfcomp.Rxi.Sequences

/-! # Where the vector loses elements

Borrowed memory is copied by the number of its elements instead of the number of its bytes;
`vec_insertarr` asks for room for one element, however many it inserts; and `vec_swapsplice` moves the
last elements to the front of the removed ones, also where both are the same. Here is when each of
these does no harm. -/

namespace Bfcomp
set_option autoImplicit false

open Record (Starts)

section
variable {memsz : ℕ} {v : VecBase} {es : List (Elem memsz)} {n : ℕ}

/-! ## Borrowed memory -/

/-- Borrowed memory that has to be left for more is copied whole exactly if an element is one byte or
there is none. -/
theorem vecReserve_lent_iff (hpos : 0 < memsz) (H : v.Holds es) (hlent : v.borrowed = true)
    (hn : v.capacity < n) (hsize : n * memsz < 2^63) :
    (∀ fresh, ∃ v', vecReserve memsz n (some fresh) v = some (v', 0) ∧ v'.Holds es) ↔
      memsz = 1 ∨ es = [] := by
  have hle := H.le_capacity
  have hreserve (fresh : ℕ → Byte) : vecReserve memsz n (some fresh) v =
      some (⟨false, es.length, n, some (v.block.take es.length ++
        (vecMoved [] (n * memsz) fresh).drop es.length)⟩, 0) := by
    rw [vecReserve, if_pos hn]
    exact vecGrow_lent hpos H hlent hn hsize
  obtain ⟨rest, hroom⟩ := H.room
  have hblock : es.length ≤ v.block.length :=
    (Nat.le_mul_of_pos_right _ hpos).trans hroom.starts.front.length_le
  constructor
  · intro h
    by_contra hno
    rw [not_or] at hno
    have hlen := List.length_pos_of_ne_nil hno.2
    -- the first byte that is not copied is anything
    have hbytes : es.length < (Record.bytes es).length := by
      rw [Record.bytes_length]
      exact (Nat.lt_mul_iff_one_lt_right hlen).mpr (by omega)
    obtain ⟨v', hv', H'⟩ := h fun _ => (Record.bytes es)[es.length] + 1
    rw [hreserve, Option.some.injEq, Prod.mk.injEq] at hv'
    obtain ⟨rfl, _⟩ := hv'
    obtain ⟨rest', hroom'⟩ := H'.room
    obtain ⟨behind, hdata⟩ := hroom'.starts.front
    have hcopied : (v.block.take es.length).length = es.length := by
      rw [List.length_take]
      omega
    have hfit : es.length < n * memsz :=
      (by omega : es.length < n).trans_le (Nat.le_mul_of_pos_right n hpos)
    have hread := congrArg (fun b : List Byte => b[es.length]?) hdata
    simp only [Option.getD_some] at hread
    rw [List.getElem?_append_left hbytes, List.getElem?_append_right (by omega), hcopied,
      Nat.sub_self, List.getElem?_drop, Nat.add_zero, vecMoved, List.getElem?_map,
      List.getElem?_range (by omega), List.getElem?_eq_getElem hbytes, Option.map_some,
      List.getD_nil, Option.some.injEq] at hread
    bv_omega
  · intro h fresh
    refine ⟨_, hreserve fresh, holds_of_starts ?_ hsize (by omega) ?_⟩
    · rw [List.length_append, List.length_take, List.length_drop, vecMoved_length]
      have hmoved := Nat.le_mul_of_pos_right n hpos
      omega
    · rcases h with rfl | rfl
      · have hwin := hroom.starts.front.window (i := 0) (k := es.length) (by omega)
        rw [Nat.zero_mul, List.drop_zero, Nat.mul_one, List.drop_zero, List.take_length] at hwin
        rw [VecBase.block, hwin]
        exact List.prefix_append _ _
      · exact .nil _

/-- Two elements of two bytes are not copied whole, whatever asks for more room. -/
def lentPairs : List (Elem 2) := [⟨[1, 2], rfl⟩, ⟨[3, 4], rfl⟩]

theorem vecReserve_lent_pairs :
    (∀ fresh, ∃ v', vecReserve 2 4 (some fresh) ⟨true, 2, 2, some [1, 2, 3, 4]⟩ = some (v', 0) ∧
      v'.Holds lentPairs) ↔ 2 = 1 ∨ lentPairs = [] := by
  have hstarts : Starts [1, 2, 3, 4] lentPairs := List.prefix_rfl
  have hlent : (VecBase.mk true 2 2 (some [1, 2, 3, 4])).Holds lentPairs :=
    holds_borrowed (by decide) (by decide) (by decide) hstarts
  exact vecReserve_lent_iff (by decide) hlent rfl (by decide) (by decide)

/-- A copy takes all of them along, also from borrowed memory, into memory of its own; if there is none,
it is made through a null pointer. -/
theorem vecCopy_spec (H : v.Holds es) : vecCopy memsz none v = none ∧
    ∀ fresh, ∃ v', vecCopy memsz (some fresh) v = some v' ∧ v'.Valid es ∧
      v'.capacity = v.capacity := by
  have hcap := H.capacity_lt
  have hsizeT : sizeT (v.capacity * memsz) = v.capacity * memsz := Nat.mod_eq_of_lt (by omega)
  have halloc (answer : Answer) : vecAlloc none (sizeT (v.capacity * memsz)) answer =
      some (answer.map (vecMoved [] (v.capacity * memsz))) := by
    rw [hsizeT, vecAlloc, if_neg (fun h => h.2 rfl), if_neg (by omega)]
    rfl
  obtain ⟨rest, hroom⟩ := H.room
  have hstarts : Starts v.block es := hroom.starts.front
  have hbytes : v.block.take (es.length * memsz) = Record.bytes es := by
    obtain ⟨behind, hblock⟩ := hstarts
    rw [← hblock, List.take_left' (Record.bytes_length es)]
  have hle : es.length * memsz ≤ v.capacity * memsz := Nat.mul_le_mul_right _ H.le_capacity
  constructor
  · rw [vecCopy, halloc]
    rfl
  · intro fresh
    have hcopy := memcpy_block hstarts.length_le
      (b := vecMoved [] (v.capacity * memsz) fresh) (by rw [vecMoved_length]; exact hle)
    rw [hbytes] at hcopy
    have hcopied : vecCopy memsz (some fresh) v = some ⟨false, es.length, v.capacity,
        some (Record.bytes es ++ (vecMoved [] (v.capacity * memsz) fresh).drop
          (es.length * memsz))⟩ := by
      rw [vecCopy, halloc, H.length]
      simp only [Option.bind_eq_bind, Option.bind_some, Option.map_some, hcopy]
    refine ⟨_, hcopied, ⟨holds_of_starts ?_ hcap H.le_capacity (List.prefix_append _ _),
      fun h => by cases h⟩, rfl⟩
    rw [List.length_append, Record.bytes_length, List.length_drop, vecMoved_length]
    omega

/-! ## Inserting an array -/

theorem vecGrow_owned {m : ℕ} {fresh : ℕ → Byte} (hown : v.borrowed = false) (hpos : 0 < n * m)
    (hsize : n * m < 2^63) : vecGrow m n (some fresh) v =
      some (⟨false, v.length, n, some (vecMoved v.block (n * m) fresh)⟩, 0) := by
  have hsizeT : sizeT (n * m) = n * m := Nat.mod_eq_of_lt (by omega)
  have hlent : ¬ v.borrowed = true := by rw [hown]; exact Bool.false_ne_true
  rw [vecGrow, hsizeT, if_neg hlent, vecAlloc_granted hpos hsize]
  simp only [Option.bind_eq_bind, Option.bind_some, if_neg hlent]
  rfl

/-- Room for one element that is as large as `count` of them. -/
theorem vecExpand_array {count : ℕ} (fresh : ℕ → Byte) (hpos : 0 < memsz) (hcount : 0 < count)
    (H : v.Holds es) (hown : v.borrowed = false)
    (hsize : expanded es.length v.capacity * (memsz * count) < 2^63) :
    ∃ d rest, vecExpand (sizeT (memsz * count)) (some fresh) v =
        some (⟨false, es.length, expanded es.length v.capacity, d⟩, 0) ∧
      HasRoom (expanded es.length v.capacity) d (es ++ rest) := by
  have hle := H.le_capacity
  have hmore := lt_expanded hle
  have harray : 0 < memsz * count := Nat.mul_pos hpos hcount
  have hone : memsz * count ≤ expanded es.length v.capacity * (memsz * count) :=
    Nat.le_mul_of_pos_left _ (by omega)
  have hsizeT : sizeT (memsz * count) = memsz * count := Nat.mod_eq_of_lt (by omega)
  have hcap := H.capacity_lt
  have hcap' := Nat.le_mul_of_pos_right v.capacity hpos
  have hlen : sizeT (v.length + 1) = es.length + 1 := by
    rw [H.length]
    exact Nat.mod_eq_of_lt (by omega)
  obtain ⟨rest, hroom⟩ := H.room
  rw [hsizeT, vecExpand, hlen]
  by_cases hfull : es.length + 1 > v.capacity
  · have hn : (if v.capacity = 0 then 1 else sizeT (v.capacity * 2)) =
        expanded es.length v.capacity := by
      rw [expanded, if_pos hfull, sizeT, Nat.mod_eq_of_lt (by omega)]
    have hmem : expanded es.length v.capacity * memsz ≤
        expanded es.length v.capacity * (memsz * count) :=
      Nat.mul_le_mul_left _ (Nat.le_mul_of_pos_right _ hcount)
    have hmul : es.length * memsz ≤ expanded es.length v.capacity * memsz :=
      Nat.mul_le_mul_right _ hmore.le
    have hstarts : Starts (vecMoved v.block (expanded es.length v.capacity * (memsz * count)) fresh)
        es := starts_vecMoved hroom.starts.front (hmul.trans hmem)
    obtain ⟨rest', hcount', hrest'⟩ := hstarts.extend (k := expanded es.length v.capacity)
      (by rw [vecMoved_length]; exact hmem) hmore.le
    rw [if_pos hfull, hn, vecGrow_owned hown (Nat.mul_pos (by omega) harray) hsize, H.length]
    exact ⟨_, rest', rfl, hcount', hrest', by rw [Option.getD_some, vecMoved_length]; exact hsize⟩
  · have hsame : expanded es.length v.capacity = v.capacity := if_neg hfull
    rw [if_neg hfull, hsame, ← H.length, ← hown]
    exact ⟨v.data, rest, rfl, hroom⟩

theorem onBlock_capacity {v v' : VecBase} {f : List Byte → Option (List Byte)}
    (h : v.onBlock f = some v') : v'.capacity = v.capacity := by
  obtain ⟨b, _, rfl⟩ := Option.map_eq_some_iff.mp h
  rfl

theorem vecStoreAt_capacity {v v' : VecBase} {idx : ℕ} {arr : List (List Byte)}
    (h : vecStoreAt memsz idx arr v = some v') : v'.capacity = v.capacity := by
  induction arr generalizing v idx with
  | nil =>
    cases h
    rfl
  | cons e arr ih =>
    obtain ⟨v₁, hstore, hrest⟩ := Option.bind_eq_some_iff.mp h
    rw [ih hrest, onBlock_capacity hstore]

/-- An array is inserted exactly if it fits into the memory that is asked for one element. -/
theorem vecInsertarr_iff (hpos : 0 < memsz) (H : v.Holds es) (hown : v.borrowed = false) {idx : ℕ}
    (hidx : idx ≤ es.length) {arr : List (Elem memsz)} (harr : arr ≠ []) {fresh : ℕ → Byte}
    (hsize : expanded es.length v.capacity * (memsz * arr.length) < 2^63) :
    (∃ v', vecInsertarr memsz idx (arr.map Subtype.val) (some fresh) v = some v' ∧
        v'.Holds (es.take idx ++ arr ++ es.drop idx)) ↔
      es.length + arr.length ≤ expanded es.length v.capacity := by
  obtain ⟨d, rest, hexpand, hroom⟩ :=
    vecExpand_array fresh hpos (List.length_pos_of_ne_nil harr) H hown hsize
  have hnew : (es.take idx ++ arr ++ es.drop idx).length = es.length + arr.length := by
    simp only [List.length_append, List.length_take, List.length_drop]
    omega
  have hcount := hroom.count
  have hlen : (es ++ rest).length = es.length + rest.length := List.length_append
  have hrun : vecInsertarr memsz idx (arr.map Subtype.val) (some fresh) v =
      ((VecBase.mk false es.length (expanded es.length v.capacity) d).onBlock fun b =>
        memmove b ((idx + arr.length) * memsz) (idx * memsz) ((es.length - idx) * memsz)).bind
        fun v => vecStoreAt memsz idx (arr.map Subtype.val)
          { v with length := v.length + arr.length } := by
    simp only [vecInsertarr, vecInsertGap, List.length_map, hexpand, Option.bind_eq_bind,
      Option.bind_some, ne_eq, not_true_eq_false, if_false, sizeSub, hidx, if_true, Option.bind_assoc]
  rw [hrun]
  constructor
  · rintro ⟨v', hv', H'⟩
    obtain ⟨v₁, hmove, hstore⟩ := Option.bind_eq_some_iff.mp hv'
    have hmoved := onBlock_capacity hmove
    have hcap := (vecStoreAt_capacity hstore).trans hmoved
    rw [← hnew]
    exact H'.le_capacity.trans (Nat.le_of_eq hcap)
  · intro hfit
    obtain ⟨d₁, hmove, hroom₁⟩ := HasRoom.memmove
      (v := ⟨false, es.length, expanded es.length v.capacity, d⟩) hroom (i := idx + arr.length)
      (j := idx) (k := es.length - idx) (by omega) (by omega)
    have htail : ((es ++ rest).drop idx).take (es.length - idx) = es.drop idx := by
      rw [List.drop_append_of_le_length hidx]
      exact List.take_left' List.length_drop
    have hkept : (overwrite (es ++ rest) (idx + arr.length) (es.drop idx)).length =
        (es ++ rest).length := overwrite_length (by rw [List.length_drop]; omega)
    rw [htail] at hroom₁
    obtain ⟨d₂, hstore, hroom₂⟩ := HasRoom.storeAt
      (v := ⟨false, es.length + arr.length, expanded es.length v.capacity, d₁⟩) hroom₁ arr
      (i := idx) (by omega)
    rw [overwrite_gap hidx (by omega)] at hroom₂
    refine ⟨⟨false, es.length + arr.length, expanded es.length v.capacity, d₂⟩, ?_, hnew.symm, _,
      hroom₂⟩
    rw [hmove]
    exact hstore

/-- Two more elements fit into the room that three of them get when they need room for one. -/
def ownedPairs : List (Elem 2) := [⟨[1, 2], rfl⟩, ⟨[3, 4], rfl⟩, ⟨[5, 6], rfl⟩]

theorem ownedPairs_held : (VecBase.mk false 3 3 (some [1, 2, 3, 4, 5, 6])).Holds ownedPairs := by
  have hstarts : Starts [1, 2, 3, 4, 5, 6] ownedPairs := List.prefix_rfl
  exact holds_of_starts (by decide) (by decide) (by decide) hstarts

theorem vecInsertarr_pairs :
    (∃ v', vecInsertarr 2 1 (lentPairs.map Subtype.val) (some fun _ => 0)
        ⟨false, 3, 3, some [1, 2, 3, 4, 5, 6]⟩ = some v' ∧
      v'.Holds (ownedPairs.take 1 ++ lentPairs ++ ownedPairs.drop 1)) ↔
      ownedPairs.length + lentPairs.length ≤ expanded ownedPairs.length 3 :=
  vecInsertarr_iff (by decide) ownedPairs_held rfl (by decide) (by decide) (by decide)

/-! ## Removing by exchange -/

section
variable {α : Type} {es : List α} {start count : ℕ}

theorem swapspliced_apart (h : start + 2 * count ≤ es.length) :
    (swapspliced es start count).Perm (es.take start ++ es.drop (start + count)) := by
  have hdrop : (es.drop (es.length - count)).length = count := by
    rw [List.length_drop]
    omega
  have hfront : (es.take start ++ es.drop (es.length - count)).length = start + count := by
    rw [List.length_append, List.length_take, hdrop]
    omega
  have hkept : swapspliced es start count = es.take start ++ es.drop (es.length - count) ++
      (es.drop (start + count)).take (es.length - count - (start + count)) := by
    rw [swapspliced, overwrite, hdrop, List.take_append, hfront,
      List.take_of_length_le (by omega)]
  have hsplit : es.drop (start + count) =
      (es.drop (start + count)).take (es.length - count - (start + count)) ++
        es.drop (es.length - count) := by
    have hjoin := List.take_append_drop (es.length - count - (start + count))
      (es.drop (start + count))
    rw [List.drop_drop] at hjoin
    have hsum : start + count + (es.length - count - (start + count)) = es.length - count := by omega
    rw [hsum] at hjoin
    exact hjoin.symm
  rw [hkept, List.append_assoc]
  refine List.Perm.append_left _ ?_
  conv_rhs => rw [hsplit]
  exact List.perm_append_comm

theorem swapspliced_end (h : start + count = es.length) :
    swapspliced es start count = es.take start ++ es.drop (start + count) := by
  have hstart : es.length - count = start := by omega
  have htake : (es.take start).length = start := by
    rw [List.length_take]
    omega
  rw [swapspliced, hstart, overwrite, h, List.drop_length, List.append_assoc,
    List.take_left' htake, List.append_nil]

/-- Between the two, the last element is kept by one and lost by the other. -/
theorem swapspliced_last (hover : es.length < start + 2 * count) (hle : start + count < es.length)
    (hnodup : es.Nodup) : ¬ (swapspliced es start count).Perm
      (es.take start ++ es.drop (start + count)) := by
  intro hperm
  have hlast : es.length - 1 < es.length := by omega
  have hmem : es[es.length - 1] ∈ es.take start ++ es.drop (start + count) := by
    refine List.mem_append_right _ (List.mem_drop_iff_getElem.mpr
      ⟨es.length - 1 - (start + count), by omega, ?_⟩)
    congr 1
    omega
  have hwhole : es.drop (es.length - count) = (es.drop (es.length - count)).take count := by
    rw [List.take_of_length_le (by rw [List.length_drop]; omega)]
  obtain ⟨k, hk⟩ := List.mem_iff_getElem?.mp (hperm.mem_iff.mpr hmem)
  rw [swapspliced, hwhole, List.getElem?_take, ← List.getElem?_eq_getElem hlast] at hk
  split at hk
  · rw [overwrite_window (by omega) (by omega)] at hk
    split at hk
    · have hindex := (List.getElem?_inj hlast hnodup).mp hk.symm
      omega
    · have hindex := (List.getElem?_inj hlast hnodup).mp hk.symm
      omega
  · rw [List.getElem?_eq_getElem hlast] at hk
    cases hk

end

theorem VecBase.Holds.unique (hpos : 0 < memsz) {es' : List (Elem memsz)} (H : v.Holds es)
    (H' : v.Holds es') : es = es' := by
  obtain ⟨rest, hroom⟩ := H.room
  obtain ⟨rest', hroom'⟩ := H'.room
  exact hroom.starts.front.unique hpos hroom'.starts.front (H.length.symm.trans H'.length)

/-- Splicing by exchange leaves the elements that splicing leaves exactly if the last ones are none
of the removed ones, or just these. -/
theorem vecSwapsplice_iff (hpos : 0 < memsz) (H : v.Valid es) (hnodup : es.Nodup) {start count : ℕ}
    (hle : start + count ≤ es.length) :
    (∃ v₁ v₂, ∃ es₁ es₂ : List (Elem memsz), vecSplice memsz start count v = some v₁ ∧
        v₁.Valid es₁ ∧ vecSwapsplice memsz start count v = some v₂ ∧ v₂.Valid es₂ ∧
        es₂.Perm es₁) ↔ start + 2 * count ≤ es.length ∨ start + count = es.length := by
  obtain ⟨v₁, hv₁, H₁⟩ := vecSplice_spec H hle
  obtain ⟨v₂, hv₂, H₂⟩ := vecSwapsplice_spec H hle
  constructor
  · rintro ⟨w₁, w₂, es₁, es₂, hw₁, hes₁, hw₂, hes₂, hperm⟩
    rw [hv₁, Option.some.injEq] at hw₁
    rw [hv₂, Option.some.injEq] at hw₂
    subst hw₁ hw₂
    rw [hes₁.toHolds.unique hpos H₁.toHolds, hes₂.toHolds.unique hpos H₂.toHolds] at hperm
    by_contra hno
    rw [not_or] at hno
    exact swapspliced_last (by omega) (by omega) hnodup hperm
  · intro h
    refine ⟨v₁, v₂, _, _, hv₁, H₁, hv₂, H₂, ?_⟩
    rcases h with hapart | hend
    · exact swapspliced_apart hapart
    · rw [swapspliced_end hend]

theorem vecSwapsplice_pairs :
    (∃ v₁ v₂, ∃ es₁ es₂ : List (Elem 2),
        vecSplice 2 0 2 ⟨false, 3, 3, some [1, 2, 3, 4, 5, 6]⟩ = some v₁ ∧ v₁.Valid es₁ ∧
        vecSwapsplice 2 0 2 ⟨false, 3, 3, some [1, 2, 3, 4, 5, 6]⟩ = some v₂ ∧ v₂.Valid es₂ ∧
        es₂.Perm es₁) ↔ 0 + 2 * 2 ≤ ownedPairs.length ∨ 0 + 2 = ownedPairs.length :=
  vecSwapsplice_iff (by decide) ⟨ownedPairs_held, fun h => by cases h⟩ (by decide) (by decide)

end
end Bfcomp
