import Bfcomp.Ocaml.Bytes

/-! # The byte buffer (`lib/bytebuffer.ml`)

`idx` is the number of bytes that are used, so the place of the next one. Every operation but `copy`
and `set` writes there. `copy` writes one place further on, and leaves the byte at `idx` as it was;
`set` writes all its bytes to the one place at which it starts. -/

namespace Bfcomp.Ocaml
set_option autoImplicit false

structure Bytebuffer where
  idx : ℕ
  buf : Bytes

namespace Bytebuffer

def empty : Bytebuffer := ⟨0, []⟩

def length (c : Bytebuffer) : ℕ := c.idx

/-- The bytes before `idx`. -/
def used (c : Bytebuffer) : List Byte := c.buf.take c.idx

def copy (dst src : Bytebuffer) : Except Exn Bytebuffer :=
  (Bytes.blit src.buf 0 dst.buf (dst.idx + 1) src.idx).map fun buf => ⟨dst.idx + src.idx, buf⟩

def setChar (c : Bytebuffer) (v : Byte) : Except Exn Bytebuffer :=
  (Bytes.set c.buf c.idx v).map fun buf => ⟨c.idx + 1, buf⟩

def setString (c : Bytebuffer) (s : List Byte) : Except Exn Bytebuffer :=
  (Bytes.blitString s 0 c.buf c.idx s.length).map fun buf => ⟨c.idx + s.length, buf⟩

/-- An integer of `size` bytes. -/
def setInt (S : Stdint) (t : IntType) (size : ℕ) (c : Bytebuffer) (v : BitVec t.bits) :
    Except Exn Bytebuffer :=
  (S.toBytesLittleEndian t v c.buf c.idx).map fun buf => ⟨c.idx + size, buf⟩

section
variable (S : Stdint) (c : Bytebuffer)

def setI8 (v : BitVec 8) : Except Exn Bytebuffer := setInt S .int8 1 c v
def setU8 (v : BitVec 8) : Except Exn Bytebuffer := setInt S .uint8 1 c v
def setI16 (v : BitVec 16) : Except Exn Bytebuffer := setInt S .int16 (IntType.int16.bits / 8) c v
def setU16 (v : BitVec 16) : Except Exn Bytebuffer := setInt S .uint16 (IntType.uint16.bits / 8) c v
def setI32 (v : BitVec 32) : Except Exn Bytebuffer := setInt S .int32 (IntType.int32.bits / 8) c v
def setU32 (v : BitVec 32) : Except Exn Bytebuffer := setInt S .uint32 (IntType.uint32.bits / 8) c v

/-- `set_u8` of a buffer whose `idx` has been bound before: the cursor that it moves on is read anew. -/
def setU8At (idx : ℕ) (v : BitVec 8) : Except Exn Bytebuffer :=
  (S.toBytesLittleEndian .uint8 v c.buf idx).map fun buf => ⟨c.idx + 1, buf⟩

/-- `set_u8 c` is applied to the buffer once, which binds `idx`, and then to each byte. -/
def set (list : List (BitVec 8)) : Except Exn Bytebuffer :=
  list.reverse.foldlM (fun c' v => setU8At S c' c.idx v) c

end

def pad (c : Bytebuffer) (l : ℤ) (v : Byte) : Except Exn Bytebuffer :=
  (Bytes.fill c.buf c.idx l v).map fun buf => ⟨c.idx + l.toNat, buf⟩

def padU8 (c : Bytebuffer) (l v : ℤ) : Except Exn Bytebuffer :=
  (Interpreter.chr v).bind (pad c l)

/-! ## Sequences of calls -/

/-- A call on a buffer. The source of a `copy` is another buffer, as it is at the call. -/
inductive Op where
  | setChar (v : Byte)
  | setString (s : List Byte)
  | setI8 (v : BitVec 8)
  | setU8 (v : BitVec 8)
  | setI16 (v : BitVec 16)
  | setU16 (v : BitVec 16)
  | setI32 (v : BitVec 32)
  | setU32 (v : BitVec 32)
  | set (list : List (BitVec 8))
  | pad (l : ℤ) (v : Byte)
  | padU8 (l v : ℤ)
  | copy (src : Bytebuffer)

def call (S : Stdint) (c : Bytebuffer) : Op → Except Exn Bytebuffer
  | .setChar v => c.setChar v
  | .setString s => c.setString s
  | .setI8 v => c.setI8 S v
  | .setU8 v => c.setU8 S v
  | .setI16 v => c.setI16 S v
  | .setU16 v => c.setU16 S v
  | .setI32 v => c.setI32 S v
  | .setU32 v => c.setU32 S v
  | .set list => c.set S list
  | .pad l v => c.pad l v
  | .padU8 l v => c.padU8 l v
  | .copy src => c.copy src

def calls (S : Stdint) (c : Bytebuffer) (ops : List Op) : Except Exn Bytebuffer :=
  ops.foldlM (call S) c

/-- What a call is to write; nothing for a pad of negative length or with no character, and for a
source that uses more bytes than it has. -/
def Op.bytes : Op → Option (List Byte)
  | setChar v => some [v]
  | setString s => some s
  | setI8 v => some (littleEndian v)
  | setU8 v => some (littleEndian v)
  | setI16 v => some (littleEndian v)
  | setU16 v => some (littleEndian v)
  | setI32 v => some (littleEndian v)
  | setU32 v => some (littleEndian v)
  | set list => some list.reverse
  | pad l v => if 0 ≤ l then some (List.replicate l.toNat v) else none
  | padU8 l v =>
    if 0 ≤ l ∧ 0 ≤ v ∧ v ≤ 255 then some (List.replicate l.toNat (BitVec.ofInt 8 v)) else none
  | copy src => if src.idx ≤ src.buf.length then some src.used else none

def bytesOf : List Op → Option (List Byte)
  | [] => some []
  | op :: ops =>
    match op.bytes, bytesOf ops with
    | some w, some v => some (w ++ v)
    | _, _ => none

/-! ## Calls that append -/

/-- The buffer with `w` written at the cursor, and the cursor behind it. -/
def append (c : Bytebuffer) (w : List Byte) : Bytebuffer := ⟨c.idx + w.length, overwrite c.buf c.idx w⟩

section
variable {S : Stdint} {c c' : Bytebuffer} {w v : List Byte}

theorem append_used (h : c.idx + w.length ≤ c.buf.length) : (c.append w).used = c.used ++ w :=
  overwrite_take h

theorem setInt_append (hS : S.WritesBytes) {t : IntType} {size : ℕ} (hsize : size = t.bits / 8)
    {v : BitVec t.bits} (h : c.idx + (littleEndian v).length ≤ c.buf.length) :
    setInt S t size c v = .ok (c.append (littleEndian v)) := by
  rw [littleEndian_length] at h
  rw [setInt, hS t v c.buf c.idx h, append, littleEndian_length, hsize]
  rfl

theorem littleEndian_byte (v : BitVec 8) : littleEndian v = [v] := by
  have hrange : List.range (8 / 8) = [0] := rfl
  rw [littleEndian, hrange, List.map_singleton, Nat.mul_zero]
  simp

theorem append_buf_length (h : c.idx + w.length ≤ c.buf.length) :
    (c.append w).buf.length = c.buf.length := overwrite_length h

theorem pad_append {l : ℤ} (hl : 0 ≤ l) (v : Byte)
    (h : c.idx + (List.replicate l.toNat v).length ≤ c.buf.length) :
    c.pad l v = .ok (c.append (List.replicate l.toNat v)) := by
  rw [List.length_replicate] at h
  rw [pad, Bytes.fill, if_pos ⟨hl, by omega⟩, append, List.length_replicate]
  rfl

/-- The call is neither a `copy` nor a `set`. -/
def Op.Plain : Op → Prop
  | copy _ => False
  | set _ => False
  | _ => True

theorem call_append (hS : S.WritesBytes) {op : Op} (hop : op.Plain) (hw : op.bytes = some w)
    (h : c.idx + w.length ≤ c.buf.length) : call S c op = .ok (c.append w) := by
  cases op with
  | setChar v =>
    cases hw
    rw [call, setChar, Bytes.set, if_pos (by rw [List.length_singleton] at h; omega)]
    rfl
  | setString s =>
    cases hw
    rw [call, setString, Bytes.blitString, if_pos ⟨by omega, h⟩, List.drop_zero, List.take_length]
    rfl
  | setI8 v =>
    cases hw
    exact setInt_append hS rfl h
  | setU8 v =>
    cases hw
    exact setInt_append hS rfl h
  | setI16 v =>
    cases hw
    exact setInt_append hS rfl h
  | setU16 v =>
    cases hw
    exact setInt_append hS rfl h
  | setI32 v =>
    cases hw
    exact setInt_append hS rfl h
  | setU32 v =>
    cases hw
    exact setInt_append hS rfl h
  | set list => exact hop.elim
  | pad l v =>
    rw [Op.bytes] at hw
    split at hw
    · cases hw
      exact pad_append ‹_› v h
    · cases hw
  | padU8 l v =>
    rw [Op.bytes] at hw
    split at hw
    · rename_i hv
      cases hw
      rw [call, padU8, Interpreter.chr, if_pos hv.2]
      exact pad_append hv.1 _ h
    · cases hw
  | copy src => exact hop.elim

/-! ## Calls of `copy` -/

/-- There is one place more than the copied bytes need, and each of them is the byte that is already
at the cursor. -/
def CopyMatches (dst src : Bytebuffer) : Prop :=
  dst.idx + 1 + src.idx ≤ dst.buf.length ∧ ∀ v ∈ src.used, dst.buf[dst.idx]? = some v

theorem used_length {c : Bytebuffer} (h : c.idx ≤ c.buf.length) : c.used.length = c.idx :=
  List.length_take_of_le h

theorem copy_eq {dst src : Bytebuffer} (hsrc : src.idx ≤ src.buf.length) : dst.copy src =
    if dst.idx + 1 + src.idx ≤ dst.buf.length then
      .ok ⟨dst.idx + src.idx, overwrite dst.buf (dst.idx + 1) src.used⟩
    else .error (.invalidArgument "Bytes.blit") := by
  rw [copy, Bytes.blit, Nat.zero_add, List.drop_zero]
  by_cases hroom : dst.idx + 1 + src.idx ≤ dst.buf.length
  · rw [if_pos ⟨hsrc, hroom⟩, if_pos hroom]
    rfl
  · rw [if_neg (fun h => hroom h.2), if_neg hroom]
    rfl

theorem copy_empty (dst : Bytebuffer) : dst.copy empty =
    if dst.idx + 1 ≤ dst.buf.length then .ok dst else .error (.invalidArgument "Bytes.blit") := by
  have hused : empty.used = [] := rfl
  rw [copy_eq (Nat.le_refl _), hused, overwrite_nil]
  rfl

/-- A list moved one place on is the same list if all its places are equal to the new first one. -/
theorem take_cons_eq_iff (a : Byte) (w : List Byte) :
    (a :: w).take w.length = w ↔ ∀ v ∈ w, a = v := by
  induction w generalizing a with
  | nil => simp
  | cons x w ih =>
    rw [List.length_cons, List.take_succ_cons, List.cons.injEq, ih, List.forall_mem_cons]
    constructor
    · rintro ⟨rfl, h⟩
      exact ⟨rfl, h⟩
    · rintro ⟨rfl, h⟩
      exact ⟨rfl, h⟩

/-- What is used after a copy: the byte at the cursor comes before the copied ones. -/
theorem copied_used {dst : Bytebuffer} (h : dst.idx + 1 + w.length ≤ dst.buf.length) {a : Byte}
    (ha : dst.buf[dst.idx]? = some a) :
    (overwrite dst.buf (dst.idx + 1) w).take (dst.idx + w.length) =
      dst.used ++ (a :: w).take w.length := by
  have hshift : dst.buf.take (dst.idx + 1) ++ w = dst.used ++ a :: w := by
    rw [List.take_add_one, ha, List.append_assoc]
    rfl
  have hlen : dst.used.length = dst.idx := used_length (by omega)
  calc (overwrite dst.buf (dst.idx + 1) w).take (dst.idx + w.length)
      = ((overwrite dst.buf (dst.idx + 1) w).take (dst.idx + 1 + w.length)).take
          (dst.idx + w.length) := by
        rw [List.take_take, Nat.min_eq_left (by omega)]
    _ = (dst.used ++ a :: w).take (dst.used.length + w.length) := by
        rw [overwrite_take h, hshift, hlen]
    _ = dst.used ++ (a :: w).take w.length := List.take_length_add_append _

theorem copy_iff {dst src : Bytebuffer} (hsrc : src.idx ≤ src.buf.length) :
    (∃ c', dst.copy src = .ok c' ∧ c'.used = dst.used ++ src.used) ↔ CopyMatches dst src := by
  have hlen := used_length hsrc
  rw [copy_eq hsrc, CopyMatches]
  by_cases hroom : dst.idx + 1 + src.idx ≤ dst.buf.length
  · rw [if_pos hroom]
    obtain ⟨a, ha⟩ : ∃ a, dst.buf[dst.idx]? = some a :=
      ⟨_, List.getElem?_eq_getElem (by omega)⟩
    have hused : (⟨dst.idx + src.idx, overwrite dst.buf (dst.idx + 1) src.used⟩ :
        Bytebuffer).used = dst.used ++ (a :: src.used).take src.used.length := by
      rw [used, ← hlen]
      exact copied_used (by rw [hlen]; exact hroom) ha
    constructor
    · rintro ⟨c', hc', h⟩
      cases hc'
      rw [hused, List.append_cancel_left_eq, take_cons_eq_iff] at h
      exact ⟨hroom, fun v hv => by rw [ha, h v hv]⟩
    · rintro ⟨_, h⟩
      refine ⟨_, rfl, ?_⟩
      rw [hused, List.append_cancel_left_eq, take_cons_eq_iff]
      intro v hv
      have hv' := h v hv
      rw [ha] at hv'
      exact Option.some.inj hv'
  · rw [if_neg hroom]
    refine ⟨?_, fun h => (hroom h.1).elim⟩
    rintro ⟨_, h, _⟩
    cases h

/-! ## Calls of `set` -/

/-- The list starts and ends with the same byte, and the bytes that it is to leave behind the cursor are
there already. -/
def SetMatches (c : Bytebuffer) (list : List (BitVec 8)) : Prop :=
  list.head? = list.getLast? ∧
    ∀ k, 0 < k → k < list.length → c.buf[c.idx + k]? = list.reverse[k]?

theorem setMatches_short (c : Bytebuffer) {list : List (BitVec 8)} (h : list.length ≤ 1) :
    SetMatches c list := by
  match list, h with
  | [], _ => exact ⟨rfl, fun k _ hk => absurd hk (Nat.not_lt_zero k)⟩
  | [v], _ => exact ⟨rfl, fun k lo hk => absurd hk (by rw [List.length_singleton]; omega)⟩

theorem setU8At_eq (hS : S.WritesBytes) {i : ℕ} (v : BitVec 8) (h : i + 1 ≤ c.buf.length) :
    setU8At S c i v = .ok ⟨c.idx + 1, overwrite c.buf i [v]⟩ := by
  have hbytes : @littleEndian IntType.uint8.bits v = [v] := littleEndian_byte v
  rw [setU8At, hS .uint8 v c.buf i h, hbytes]
  rfl

theorem foldlM_setU8At (hS : S.WritesBytes) {i : ℕ} (list : List (BitVec 8)) (v : BitVec 8)
    (h : i + 1 ≤ c.buf.length) : (list ++ [v]).foldlM (fun c' v => setU8At S c' i v) c =
      .ok ⟨c.idx + (list.length + 1), overwrite c.buf i [v]⟩ := by
  induction list generalizing c with
  | nil =>
    rw [List.nil_append, List.foldlM_cons, setU8At_eq hS v h]
    rfl
  | cons u list ih =>
    have hroom : i + [u].length ≤ c.buf.length := h
    have hrest := ih (c := ⟨c.idx + 1, overwrite c.buf i [u]⟩) (by
      rw [overwrite_length hroom]
      exact h)
    simp only [overwrite_again hroom (v := [v]) rfl] at hrest
    rw [List.cons_append, List.foldlM_cons, setU8At_eq hS u h]
    refine hrest.trans ?_
    rw [List.length_cons, Nat.add_assoc c.idx, Nat.add_comm 1]

/-- The first byte of the list is written last, over all the others. -/
theorem set_cons (hS : S.WritesBytes) (v : BitVec 8) (list : List (BitVec 8))
    (h : c.idx + 1 ≤ c.buf.length) :
    c.set S (v :: list) = .ok ⟨c.idx + (v :: list).length, overwrite c.buf c.idx [v]⟩ := by
  rw [set, List.reverse_cons, foldlM_setU8At hS list.reverse v h, List.length_reverse,
    List.length_cons]

theorem written_used (v : Byte) {n : ℕ} (h : c.idx + 1 ≤ c.buf.length) :
    (overwrite c.buf c.idx [v]).take (c.idx + n) =
      c.used ++ ((overwrite c.buf c.idx [v]).drop c.idx).take n := by
  have hfront : (c.buf.take c.idx).length = c.idx := by
    rw [List.length_take]
    omega
  rw [List.take_add, overwrite, List.append_assoc, List.take_left' hfront, used]

theorem set_iff (hS : S.WritesBytes) (list : List (BitVec 8))
    (h : c.idx + list.length ≤ c.buf.length) :
    (∃ c', c.set S list = .ok c' ∧ c'.used = c.used ++ list.reverse) ↔ SetMatches c list := by
  cases list with
  | nil =>
    refine iff_of_true ⟨c, rfl, (List.append_nil _).symm⟩ (setMatches_short c (Nat.zero_le 1))
  | cons v list =>
    have hroom : c.idx + 1 ≤ c.buf.length := by
      rw [List.length_cons] at h
      omega
    have hread : ∀ k, (((overwrite c.buf c.idx [v]).drop c.idx).take (v :: list).length)[k]? =
        if k < (v :: list).length then if k = 0 then some v else c.buf[c.idx + k]? else none := by
      intro k
      rw [List.getElem?_take, List.getElem?_drop]
      split
      · by_cases hk : k = 0
        · rw [if_pos hk, hk]
          exact overwrite_getElem? (k := 0) hroom Nat.one_pos
        · rw [if_neg hk]
          exact (overwrite_outside hroom).2 _ (.inr (by rw [List.length_singleton]; omega))
      · rfl
    have hsame : ((overwrite c.buf c.idx [v]).drop c.idx).take (v :: list).length =
        (v :: list).reverse ↔ SetMatches c (v :: list) := by
      rw [List.ext_getElem?_iff, SetMatches, List.head?_cons, ← List.head?_reverse,
        List.head?_eq_getElem?]
      constructor
      · intro hall
        refine ⟨?_, fun k lo hi => ?_⟩
        · have hpos : 0 < (v :: list).length := Nat.zero_lt_succ _
          rw [← hall 0, hread, if_pos hpos, if_pos rfl]
        · rw [← hall k, hread, if_pos hi, if_neg (by omega)]
      · rintro ⟨hfirst, hrest⟩ k
        rw [hread]
        split
        · by_cases hk : k = 0
          · rw [if_pos hk, hk, hfirst]
          · rw [if_neg hk]
            exact hrest k (by omega) ‹_›
        · rw [List.getElem?_eq_none]
          rw [List.length_reverse]
          omega
    rw [set_cons hS v list hroom, ← hsame]
    constructor
    · rintro ⟨c', hc', hused⟩
      cases hc'
      rw [used, written_used v hroom] at hused
      exact List.append_cancel_left hused
    · intro heq
      refine ⟨_, rfl, ?_⟩
      rw [used, written_used v hroom, heq]

/-! ## Any calls -/

theorem Op.cases (op : Op) : op.Plain ∨ (∃ src, op = copy src) ∨ ∃ list, op = set list := by
  cases op with
  | copy src => exact .inr (.inl ⟨src, rfl⟩)
  | set list => exact .inr (.inr ⟨list, rfl⟩)
  | _ => exact .inl trivial

/-- What a call needs: a `copy` or a `set` must match the bytes that are there. -/
def Op.Matches (c : Bytebuffer) : Op → Prop
  | copy src => CopyMatches c src
  | set list => SetMatches c list
  | _ => True

theorem Op.Plain.matches {op : Op} (h : op.Plain) (c : Bytebuffer) : op.Matches c := by
  cases op with
  | copy src => exact h.elim
  | set list => exact h.elim
  | _ => trivial

/-- Every copy and every set of the sequence matches in the state it is called in. -/
def CallsMatch (S : Stdint) : Bytebuffer → List Op → Prop
  | _, [] => True
  | c, op :: ops => op.Matches c ∧ ∀ c', call S c op = .ok c' → CallsMatch S c' ops

theorem bytes_copy {src : Bytebuffer} (h : (Op.copy src).bytes = some w) :
    src.idx ≤ src.buf.length ∧ w = src.used := by
  rw [Op.bytes] at h
  split at h
  · cases h
    exact ⟨‹_›, rfl⟩
  · cases h

/-- One call: it appends what it is to write exactly when it matches. -/
theorem call_iff (hS : S.WritesBytes) {op : Op} (hw : op.bytes = some w)
    (h : c.idx + w.length ≤ c.buf.length) :
    (∃ c', call S c op = .ok c' ∧ c'.used = c.used ++ w) ↔ op.Matches c := by
  rcases op.cases with hop | ⟨src, rfl⟩ | ⟨list, rfl⟩
  · exact ⟨fun _ => hop.matches c, fun _ => ⟨_, call_append hS hop hw h, append_used h⟩⟩
  · obtain ⟨hsrc, rfl⟩ := bytes_copy hw
    exact copy_iff hsrc
  · cases hw
    rw [List.length_reverse] at h
    exact set_iff hS list h

/-- What any call does that returns: it moves the cursor on, and keeps what was used. -/
theorem call_frame (hS : S.WritesBytes) {op : Op} (hw : op.bytes = some w)
    (h : c.idx + w.length ≤ c.buf.length) (hcall : call S c op = .ok c') :
    c'.idx = c.idx + w.length ∧ c'.buf.length = c.buf.length ∧ c.used <+: c'.used := by
  rcases op.cases with hop | ⟨src, rfl⟩ | ⟨list, rfl⟩
  · rw [call_append hS hop hw h] at hcall
    cases hcall
    rw [append_used h]
    exact ⟨rfl, append_buf_length h, List.prefix_append _ _⟩
  · obtain ⟨hsrc, rfl⟩ := bytes_copy hw
    rw [call, copy_eq hsrc] at hcall
    split at hcall
    · rename_i hroom
      cases hcall
      have hlen := used_length hsrc
      rw [← hlen] at hroom ⊢
      obtain ⟨a, ha⟩ : ∃ a, c.buf[c.idx]? = some a := ⟨_, List.getElem?_eq_getElem (by omega)⟩
      have hused := copied_used hroom ha
      refine ⟨rfl, overwrite_length hroom, ?_⟩
      exact ⟨_, hused.symm⟩
    · cases hcall
  · cases hw
    rw [List.length_reverse] at h ⊢
    cases list with
    | nil =>
      cases hcall
      exact ⟨rfl, rfl, List.prefix_rfl⟩
    | cons v list =>
      rw [List.length_cons] at h
      have hroom : c.idx + 1 ≤ c.buf.length := by omega
      rw [call, set_cons hS v list hroom] at hcall
      cases hcall
      refine ⟨rfl, overwrite_length hroom, _, (written_used v hroom).symm⟩

theorem bytesOf_cons {op : Op} {ops : List Op} (h : bytesOf (op :: ops) = some w) :
    ∃ w₁ w₂, op.bytes = some w₁ ∧ bytesOf ops = some w₂ ∧ w = w₁ ++ w₂ := by
  rw [bytesOf] at h
  split at h
  · cases h
    exact ⟨_, _, ‹_›, ‹_›, rfl⟩
  · cases h

theorem calls_cons (S : Stdint) (c : Bytebuffer) (op : Op) (ops : List Op) :
    calls S c (op :: ops) = (call S c op).bind fun c' => calls S c' ops := rfl

theorem calls_frame (hS : S.WritesBytes) {ops : List Op} (hw : bytesOf ops = some w)
    (h : c.idx + w.length ≤ c.buf.length) (hcalls : calls S c ops = .ok c') :
    c'.idx = c.idx + w.length ∧ c.used <+: c'.used := by
  induction ops generalizing c w with
  | nil =>
    cases hw
    cases hcalls
    exact ⟨rfl, List.prefix_rfl⟩
  | cons op ops ih =>
    obtain ⟨w₁, w₂, hw₁, hw₂, rfl⟩ := bytesOf_cons hw
    rw [List.length_append] at h
    rw [calls_cons] at hcalls
    cases hcall : call S c op with
    | error e =>
      rw [hcall] at hcalls
      cases hcalls
    | ok c₁ =>
      rw [hcall] at hcalls
      obtain ⟨hidx, hlen, hused⟩ := call_frame hS hw₁ (by omega) hcall
      obtain ⟨hidx', hused'⟩ := ih hw₂ (by omega) hcalls
      exact ⟨by rw [hidx', hidx, List.length_append, Nat.add_assoc], hused.trans hused'⟩

/-- A sequence of calls that fits in the buffer appends what its calls are to write, in order,
exactly when every `copy` in it matches the byte that is at the cursor when it is called, and every
`set` those behind the cursor. -/
theorem calls_append_iff (S : Stdint) (hS : S.WritesBytes) (c : Bytebuffer) (ops : List Op)
    (w : List Byte) (hw : bytesOf ops = some w) (h : c.length + w.length ≤ c.buf.length) :
    (∃ c', calls S c ops = .ok c' ∧ c'.buf.take c'.length = c.used ++ w ∧
        c'.length = c.length + w.length) ↔
      CallsMatch S c ops := by
  induction ops generalizing c w with
  | nil =>
    cases hw
    exact ⟨fun _ => trivial, fun _ => ⟨c, rfl, (List.append_nil _).symm, rfl⟩⟩
  | cons op ops ih =>
    obtain ⟨w₁, w₂, hw₁, hw₂, rfl⟩ := bytesOf_cons hw
    unfold length at h ih ⊢
    rw [List.length_append] at h
    have hstep := call_iff hS hw₁ (c := c) (by omega)
    rw [calls_cons, CallsMatch, ← hstep]
    cases hcall : call S c op with
    | error e =>
      constructor
      · rintro ⟨_, hcalls, _⟩
        cases hcalls
      · rintro ⟨⟨_, hc₁, _⟩, _⟩
        cases hc₁
    | ok c₁ =>
      obtain ⟨hidx, hlen, _⟩ := call_frame hS hw₁ (by omega) hcall
      have hrest := ih c₁ w₂ hw₂ (by omega)
      constructor
      · rintro ⟨c', hcalls, hused, _⟩
        -- the bytes after the first call are still the first ones at the end
        obtain ⟨hidx', hprefix⟩ := calls_frame hS hw₂ (by omega) hcalls
        have hfirst : c₁.used = c.used ++ w₁ := by
          obtain ⟨rest, hsplit⟩ := hprefix
          have hlens : c₁.used.length = (c.used ++ w₁).length := by
            rw [used_length (by omega), List.length_append, used_length (by omega), hidx]
          rw [← used, ← hsplit, ← List.append_assoc] at hused
          exact (List.append_inj hused hlens).1
        refine ⟨⟨c₁, rfl, hfirst⟩, ?_⟩
        rintro _ ⟨⟩
        refine hrest.mp ⟨c', hcalls, ?_, hidx'⟩
        rw [hused, hfirst, List.append_assoc]
      · rintro ⟨⟨_, ⟨⟩, hfirst⟩, hmatch⟩
        obtain ⟨c', hcalls, hused, hidx'⟩ := hrest.mpr (hmatch c₁ rfl)
        refine ⟨c', hcalls, ?_, ?_⟩
        · rw [hused, hfirst, List.append_assoc]
        · rw [hidx', hidx, List.length_append, Nat.add_assoc]

end

/-- A copy of the byte that is already at the cursor, and a list of two nines before a nine. -/
theorem calls_append_iff_same :
    ∃ c', calls .checked ⟨0, [5, 0, 9, 0]⟩ [.copy ⟨1, [5]⟩, .set [9, 9], .setU8 4] = .ok c' ∧
      c'.buf.take c'.length = [] ++ [5, 9, 9, 4] ∧ c'.length = 0 + 4 := by
  refine (calls_append_iff .checked Stdint.checked_writesBytes ⟨0, [5, 0, 9, 0]⟩
    [.copy ⟨1, [5]⟩, .set [9, 9], .setU8 4] [5, 9, 9, 4] rfl (by decide)).mpr
    ⟨⟨by decide, by decide⟩, ?_⟩
  rintro _ ⟨⟩
  refine ⟨⟨rfl, fun k lo hi => ?_⟩, ?_⟩
  · obtain rfl : k = 1 := by
      rw [List.length_cons, List.length_singleton] at hi
      omega
    rfl
  · rintro _ ⟨⟩
    exact ⟨trivial, fun _ _ => trivial⟩

/-- The list `[1, 2]` leaves its first byte, and the byte behind it as it was. -/
example : set .checked ⟨0, [0, 0]⟩ [1, 2] = .ok ⟨2, [1, 0]⟩ := rfl

/-- A copy of the byte `7` into zeros, and then the byte `9`: the `7` is lost. -/
theorem calls_append_not :
    ¬ ∀ (S : Stdint), S.WritesBytes → ∀ (c : Bytebuffer) (ops : List Op) (w : List Byte),
      bytesOf ops = some w → c.length + w.length ≤ c.buf.length →
      ∃ c', calls S c ops = .ok c' ∧ c'.buf.take c'.length = c.used ++ w ∧
        c'.length = c.length + w.length := by
  intro h
  obtain ⟨c', hc', hused, _⟩ := h .checked Stdint.checked_writesBytes ⟨0, [0, 0, 0]⟩
    [.copy ⟨1, [7]⟩, .setU8 9] [7, 9] rfl (by decide)
  have hrun : calls .checked ⟨0, [0, 0, 0]⟩ [.copy ⟨1, [7]⟩, .setU8 9] = .ok ⟨2, [0, 9, 0]⟩ := rfl
  rw [hrun] at hc'
  cases hc'
  exact absurd hused (by decide)

end Bytebuffer
end Bfcomp.Ocaml
