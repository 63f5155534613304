import Bfcomp.Elf.Image
import Bfcomp.Rxi.Sequences

/-! # The vectors of the ELF writer

The writer of ELF files is modelled over vectors of bytes of which only the bytes, the length, and
whether there is a buffer matter. Here is that the vectors of `rxi/vec.h` are such vectors, while
memory is granted, and that the text segment is what the memory of its vector starts with. -/

namespace Bfcomp
set_option autoImplicit false

open Record (Starts)

/-- A change of a vector of bytes, with what new memory holds: `vec_push`, `vec_pusharr`, and a store
through `data`. -/
inductive VecEdit where
  | push (b : Byte) (fresh : ℕ → Byte)
  | pushArr (arr : List Byte) (fresh : ℕ → Byte)
  | store (i : ℕ) (w : List Byte)

namespace VecEdit

def run (v : VecBase) : VecEdit → Option VecBase
  | push b fresh => (vecPush 1 [b] (some fresh) v).map Prod.fst
  | pushArr arr fresh => vecPusharr 1 (arr.map fun b => [b]) (some fresh) v
  | store i w => v.onBlock fun b => writeWindow b i w

/-- The same on the vector of the writer of ELF files. -/
def apply (ev : Vec) : VecEdit → Vec
  | push b _ => ev.push b
  | pushArr arr _ => ev.pushArr arr
  | store i w => if h : i + w.length ≤ ev.data.length then ev.patch i w h else ev

/-- What is stored is stored over bytes of the vector. -/
def inside (ev : Vec) : VecEdit → Bool
  | store i w => i + w.length ≤ ev.data.length
  | _ => true

def size : VecEdit → ℕ
  | push _ _ => 1
  | pushArr arr _ => arr.length
  | store _ _ => 0

end VecEdit

def vecEdits : VecBase → List VecEdit → Option VecBase
  | v, [] => some v
  | v, edit :: edits => (edit.run v).bind fun v => vecEdits v edits

def insideEdits : Vec → List VecEdit → Bool
  | _, [] => true
  | ev, edit :: edits => edit.inside ev && insideEdits (edit.apply ev) edits

/-! ## Bytes as elements -/

def byteElems (bs : List Byte) : List (Elem 1) := bs.map fun b => ⟨[b], rfl⟩

theorem byteElems_length (bs : List Byte) : (byteElems bs).length = bs.length := List.length_map _

theorem byteElems_append (bs bs' : List Byte) :
    byteElems (bs ++ bs') = byteElems bs ++ byteElems bs' := List.map_append

theorem byteElems_overwrite (bs : List Byte) (i : ℕ) (w : List Byte) :
    byteElems (overwrite bs i w) = overwrite (byteElems bs) i (byteElems w) := by
  rw [overwrite, overwrite, byteElems_append, byteElems_append, byteElems_length]
  simp only [byteElems, List.map_take, List.map_drop]

theorem bytes_byteElems (bs : List Byte) : Record.bytes (byteElems bs) = bs := by
  induction bs with
  | nil => rfl
  | cons b bs ih => rw [byteElems, List.map_cons, Record.bytes_cons, ← byteElems, ih]; rfl

/-! ## Refinement -/

section
variable {v : VecBase} {ev : Vec}

/-- The bytes, and whether there is a buffer, are those of the writer's vector. -/
structure VecBase.Mirrors (v : VecBase) (ev : Vec) : Prop where
  valid : v.Valid (byteElems ev.data)
  length : ev.data.length = ev.length
  buffer : v.capacity = 0 ↔ ev.capacity = 0

theorem reservedPo2_eq_zero {capacity capacity' : ℕ} (h : capacity = 0 ↔ capacity' = 0) (n : ℕ) :
    reservedPo2 capacity n = 0 ↔ Vec.reservePo2 capacity' n = 0 := by
  have hpow := Nat.two_pow_pos (Nat.clog 2 n)
  have hnext := Nat.pos_of_isPowerOfTwo (Nat.isPowerOfTwo_nextPowerOfTwo n)
  unfold reservedPo2 Vec.reservePo2
  split
  · exact h
  · omega

theorem VecBase.Mirrors.push (H : v.Mirrors ev) (b : Byte) (fresh : ℕ → Byte)
    (hfit : ev.length + 1 < 2^62) :
    ∃ v', (VecEdit.push b fresh).run v = some v' ∧ v'.Mirrors (ev.push b) := by
  have hlen := byteElems_length ev.data
  have hdata := H.length
  have hmore := lt_expanded H.valid.le_capacity
  have hspec : Done (some fresh) v _ _ _ _ := vecPush_spec (by decide) (by decide) H.valid ⟨[b], rfl⟩
  rcases hspec with ⟨v', hpush, hvalid, hcap⟩ | ⟨_, hno⟩
  · refine ⟨v', congrArg (Option.map Prod.fst) hpush, ?_, rfl, ?_⟩
    · rw [Vec.push, byteElems_append]
      exact hvalid
    · have hpos : (Vec.push ev b).capacity ≠ 0 := by
        unfold Vec.push
        simp only
        split
        · split <;> omega
        · omega
      exact iff_of_false (by omega) hpos
  · rcases hno with hnone | hbig
    · cases hnone
    · omega

theorem VecBase.Mirrors.pushArr (H : v.Mirrors ev) (arr : List Byte) (fresh : ℕ → Byte)
    (hfit : ev.length + arr.length < 2^62) :
    ∃ v', (VecEdit.pushArr arr fresh).run v = some v' ∧ v'.Mirrors (ev.pushArr arr) := by
  have hlen := byteElems_length ev.data
  have harr := byteElems_length arr
  have hdata := H.length
  have hspec : DoneSilently (some fresh) v _ _ _ _ :=
    vecPusharr_spec (by decide) H.valid (byteElems arr) (by omega)
  have hbytes : (byteElems arr).map Subtype.val = arr.map fun b => [b] := List.map_map
  rw [hbytes] at hspec
  rcases hspec with ⟨v', hpush, hvalid, hcap⟩ | ⟨_, hno⟩
  · refine ⟨v', hpush, ?_, rfl, ?_⟩
    · rw [Vec.pushArr, byteElems_append]
      exact hvalid
    · rw [hcap, hlen, harr, hdata]
      exact reservedPo2_eq_zero H.buffer _
  · rcases hno with hnone | hbig
    · cases hnone
    · omega

theorem VecBase.Mirrors.store (H : v.Mirrors ev) {i : ℕ} {w : List Byte}
    (h : i + w.length ≤ ev.data.length) :
    ∃ v', (VecEdit.store i w).run v = some v' ∧ v'.Mirrors (ev.patch i w h) := by
  obtain ⟨rest, hroom⟩ := H.valid.room
  have hlen := byteElems_length ev.data
  have hw := byteElems_length w
  have hinside : i + (byteElems w).length ≤ (byteElems ev.data).length := by omega
  have hblock := hroom.le_block
  obtain ⟨hstarts, hkept⟩ := hroom.starts.overwrite (i := i) (byteElems w)
    (by rw [List.length_append]; omega)
  rw [bytes_byteElems, Nat.mul_one] at hstarts hkept
  have hstore : writeWindow v.block i w = some (overwrite v.block i w) := by
    refine writeWindow_eq ?_
    have hle := H.valid.le_capacity
    omega
  rw [overwrite_append hinside] at hstarts
  obtain ⟨d, hrun, hroom'⟩ := hroom.onBlock (f := fun b => writeWindow b i w) hstore hkept hstarts
    (by rw [List.length_append, List.length_append, overwrite_length hinside])
  refine ⟨_, hrun, ⟨?_, ?_, H.buffer⟩⟩
  · rw [← byteElems_overwrite] at hroom'
    have hvalid := H.valid.update hroom'
    rw [byteElems_length, overwrite_length h, H.length] at hvalid
    have hlength : v.length = ev.length := by
      rw [H.valid.length, hlen, H.length]
    rw [← hlength] at hvalid
    exact hvalid
  · have hsame := overwrite_length h
    rw [overwrite] at hsame
    rw [Vec.patch]
    simp only
    rw [hsame, H.length]

theorem VecBase.Mirrors.run (H : v.Mirrors ev) (edit : VecEdit) (hinside : edit.inside ev = true)
    (hfit : ev.length + edit.size < 2^62) :
    ∃ v', edit.run v = some v' ∧ v'.Mirrors (edit.apply ev) ∧
      (edit.apply ev).length = ev.length + edit.size := by
  have hdata := H.length
  cases edit with
  | push b fresh =>
    obtain ⟨v', hrun, H'⟩ := H.push b fresh hfit
    exact ⟨v', hrun, H', by rw [← hdata]; exact List.length_append⟩
  | pushArr arr fresh =>
    obtain ⟨v', hrun, H'⟩ := H.pushArr arr fresh hfit
    exact ⟨v', hrun, H', by rw [← hdata]; exact List.length_append⟩
  | store i w =>
    have h : i + w.length ≤ ev.data.length := of_decide_eq_true hinside
    obtain ⟨v', hrun, H'⟩ := H.store h
    refine ⟨v', hrun, ?_, ?_⟩ <;> rw [VecEdit.apply, dif_pos h]
    · exact H'
    · rfl

theorem VecBase.Mirrors.edits (H : v.Mirrors ev) (edits : List VecEdit)
    (hinside : insideEdits ev edits = true)
    (hfit : ev.length + (edits.map VecEdit.size).sum < 2^62) :
    ∃ v', vecEdits v edits = some v' ∧ v'.Mirrors (edits.foldl VecEdit.apply ev) := by
  induction edits generalizing v ev with
  | nil => exact ⟨v, rfl, H⟩
  | cons edit edits ih =>
    rw [insideEdits, Bool.and_eq_true] at hinside
    rw [List.map_cons, List.sum_cons] at hfit
    obtain ⟨v₁, hrun, H₁, hlen⟩ := H.run edit hinside.1 (by omega)
    obtain ⟨v', hrest, H'⟩ := ih H₁ hinside.2 (by omega)
    refine ⟨v', ?_, H'⟩
    rw [vecEdits, hrun]
    exact hrest

theorem VecBase.Mirrors.read (H : v.Mirrors ev) :
    v.length = ev.length ∧ readWindow v.block 0 v.length = some ev.data := by
  have hlen := H.valid.length
  rw [byteElems_length] at hlen
  obtain ⟨rest, hroom⟩ := H.valid.room
  obtain ⟨behind, hblock⟩ := hroom.starts.front
  rw [bytes_byteElems] at hblock
  refine ⟨hlen.trans H.length, ?_⟩
  rw [readWindow_eq, VecBase.block, ← hblock, List.drop_zero, List.take_left' hlen.symm]
  rw [VecBase.block, ← hblock, List.length_append]
  omega

theorem mirrors_empty : VecBase.Mirrors {} {} := ⟨valid_empty, rfl, Iff.rfl⟩

/-- After any pushes and stores on a new vector, wherever it was moved and whatever new memory held,
the memory behind `data` starts with the bytes of the writer's vector, of which there are `length`,
and `capacity` is zero just when the writer's vector has no buffer. -/
theorem vecEdits_bytes (edits : List VecEdit) (hinside : insideEdits {} edits = true)
    (hfit : (edits.map VecEdit.size).sum < 2^62) :
    ∃ v, vecEdits {} edits = some v ∧ v.length = (edits.foldl VecEdit.apply {}).length ∧
      readWindow v.block 0 v.length = some (edits.foldl VecEdit.apply {}).data ∧
      (v.capacity = 0 ↔ (edits.foldl VecEdit.apply {}).capacity = 0) := by
  obtain ⟨v, hrun, H⟩ := mirrors_empty.edits edits hinside (by
    have hzero : (Vec.length {}) = 0 := rfl
    omega)
  exact ⟨v, hrun, H.read.1, H.read.2, H.buffer⟩

/-- A text whose operand is stored late, as `write_elf_file` makes one. -/
def someText : List VecEdit :=
  [.push 0xBF fun _ => 1, .pushArr [0, 0, 0, 0] fun _ => 2, .pushArr [0xFF, 0xF7] fun _ => 3,
    .store 1 [0, 0xA0, 4, 8]]

theorem vecEdits_bytes_someText : ∃ v, vecEdits {} someText = some v ∧
    v.length = (someText.foldl VecEdit.apply {}).length ∧
    readWindow v.block 0 v.length = some (someText.foldl VecEdit.apply {}).data ∧
    (v.capacity = 0 ↔ (someText.foldl VecEdit.apply {}).capacity = 0) :=
  vecEdits_bytes someText (by decide) (by decide)

/-! ## The text segment -/

def pushes (pieces : List (List Byte × (ℕ → Byte))) : List VecEdit :=
  pieces.map fun piece => .pushArr piece.1 piece.2

theorem pushes_data (pieces : List (List Byte × (ℕ → Byte))) (ev : Vec) :
    ((pushes pieces).foldl VecEdit.apply ev).data = ev.data ++ (pieces.map Prod.fst).flatten := by
  induction pieces generalizing ev with
  | nil => exact (List.append_nil ev.data).symm
  | cons piece pieces ih =>
    rw [pushes, List.map_cons, List.foldl_cons, ← pushes, ih, List.map_cons, List.flatten_cons,
      ← List.append_assoc]
    rfl

theorem pushes_size (pieces : List (List Byte × (ℕ → Byte))) :
    ((pushes pieces).map VecEdit.size).sum = (pieces.map Prod.fst).flatten.length := by
  rw [pushes, List.map_map, List.length_flatten, List.map_map]
  rfl

theorem insideEdits_pushes (pieces : List (List Byte × (ℕ → Byte))) (ev : Vec) :
    insideEdits ev (pushes pieces) = true := by
  induction pieces generalizing ev with
  | nil => rfl
  | cons piece pieces ih => exact ih _

theorem vecEdits_append (edits edits' : List VecEdit) (v : VecBase) :
    vecEdits v (edits ++ edits') = (vecEdits v edits).bind fun v => vecEdits v edits' := by
  induction edits generalizing v with
  | nil => rfl
  | cons edit edits ih =>
    rw [List.cons_append, vecEdits, vecEdits, Option.bind_assoc]
    exact congrArg _ (funext ih)

/-- However the compiler cuts the code of `.text` into pushes, and wherever they move it, the address
of `.bss` is stored inside, and what lies behind `data` when the file is written is the segment. -/
theorem textVector_bytes (programs : Order Program) (sections : Order Section) {ir : IrCtx}
    {out : Compiled} (hcompile : irCtxCompile textStart ir = some out)
    (pieces : List (List Byte × (ℕ → Byte))) (hpieces : (pieces.map Prod.fst).flatten = out.code)
    (hfit : out.code.length < 2^62) :
    ∃ v text, vecEdits {} (pushes pieces ++ [.store 1 (le32 (bssVaddr out.code.length))]) = some v ∧
      (elfContext programs sections out.code).segments.get textName = some text ∧
      v.length = text.vec.length ∧ readWindow v.block 0 v.length = some text.vec.data ∧
      v.capacity ≠ 0 ∧ text.vec.capacity ≠ 0 := by
  have hprefix : textStart <+: out.code :=
    (prefix_ctxPushCode textStart _).trans (prefix_compileLoop hcompile)
  have hlen : 5 ≤ out.code.length := hprefix.length_le
  obtain ⟨hdata, hlength, hbuffer, _, _⟩ := textProgram_spec hlen
  have hget : (elfContext programs sections out.code).segments.get textName =
      some (textProgram out.code) :=
    Map.get_of_mem ((elfContext_segments programs sections out.code).mem_iff.mpr
      List.mem_cons_self)
  have hpushed := pushes_data pieces {}
  rw [hpieces] at hpushed
  obtain ⟨v₁, hpush, H₁⟩ := mirrors_empty.edits (pushes pieces) (insideEdits_pushes pieces {}) (by
    have hzero : (Vec.length {}) = 0 := rfl
    rw [pushes_size, hpieces]
    omega)
  have hinside : 1 + (le32 (bssVaddr out.code.length)).length ≤
      ((pushes pieces).foldl VecEdit.apply {}).data.length := by
    rw [hpushed]
    exact hlen
  obtain ⟨v, hstore, H⟩ := H₁.store hinside
  have hread := H.read
  have hsame : (Vec.patch _ 1 (le32 (bssVaddr out.code.length)) hinside).data =
      (textProgram out.code).vec.data := by
    rw [hdata, Vec.patch]
    simp only [hpushed]
    rfl
  refine ⟨v, textProgram out.code, ?_, hget, ?_, ?_, ?_, hbuffer⟩
  · rw [vecEdits_append, hpush, Option.bind_some, vecEdits, hstore]
    rfl
  · calc v.length = ((pushes pieces).foldl VecEdit.apply {}).length := hread.1
      _ = ([] ++ out.code).length := by rw [← H₁.length, hpushed]
      _ = (textProgram out.code).vec.length := hlength.symm
  · rw [← hsame]
    exact hread.2
  · intro hzero
    have hempty := ((pushes pieces).foldl VecEdit.apply {}).empty (H.buffer.mp hzero)
    rw [hempty, le32_length, List.length_nil] at hinside
    omega

/-- The program that exits at once. -/
def exitOnly : Compiled where
  err := .ok
  code := textStart ++ [0xFF, 0xF7, 0xB8, 1, 0, 0, 0, 0xBB, 0, 0, 0, 0, 0xCD, 0x80]
  stderr := []

/-- The start of the text, and then the rest. -/
def exitPieces : List (List Byte × (ℕ → Byte)) :=
  [(textStart, fun _ => 1), (exitOnly.code.drop 5, fun _ => 2)]

theorem textVector_bytes_exitOnly : ∃ v text,
    vecEdits {} (pushes exitPieces ++ [.store 1 (le32 (bssVaddr exitOnly.code.length))]) = some v ∧
    (elfContext (.asRegistered Program) (.asRegistered Section) exitOnly.code).segments.get
      textName = some text ∧
    v.length = text.vec.length ∧ readWindow v.block 0 v.length = some text.vec.data ∧
    v.capacity ≠ 0 ∧ text.vec.capacity ≠ 0 :=
  textVector_bytes (.asRegistered Program) (.asRegistered Section)
    (by decide : irCtxCompile textStart {} = some exitOnly) exitPieces (by decide) (by decide)

end

end Bfcomp
