import Bfcomp.Compile.Execute

/-! # Code layout and jump targets

The emitted bytes are the encodings of the ops, one each and in order, and the two jumps of a loop
land behind each other. -/

namespace Bfcomp
set_option autoImplicit false

open Ia32 (assemble)

/-! ## Compiling a parsed context -/

/-- Every op but the brackets has an operand that an instruction can hold. -/
def OperandsFit (ops : List IrOp) : Prop :=
  ∀ op ∈ ops, op.kind ≠ .loopStart → op.kind ≠ .loopEnd → OperandFits op.arg

instance (ops : List IrOp) : Decidable (OperandsFit ops) :=
  inferInstanceAs (Decidable (∀ op ∈ ops, _))

theorem OperandsFit.flat {p : Prog Prim} (h : OperandsFit (flat p)) : p.All Prim.Fits :=
  all_flat.mp h

theorem OperandsFit.opened {outer : List (Prog Prim)} (h : OperandsFit (opened outer)) :
    ∀ p ∈ outer, p.All Prim.Fits := by
  induction outer with
  | nil => simp
  | cons q ps ih =>
    have hq : OperandsFit (Bfcomp.flat q) := fun op hop => h op (by simp [Bfcomp.opened, hop])
    have hps : OperandsFit (Bfcomp.opened ps) := fun op hop => h op (by simp [Bfcomp.opened, hop])
    intro p hp
    rcases List.mem_cons.mp hp with rfl | hp
    · exact hq.flat
    · exact ih hps p hp

section
variable {ctx : IrCtx} {cur : Prog Prim} {outer : List (Prog Prim)}

theorem Represents.fits (H : Represents ctx cur outer) (h : OperandsFit ctx.data) :
    (∀ p ∈ outer.reverse, p.All Prim.Fits) ∧ cur.All Prim.Fits := by
  rw [H.data] at h
  constructor
  · intro p hp
    exact OperandsFit.opened (fun op hop => h op (by simp [hop])) p (List.mem_reverse.mp hp)
  · exact OperandsFit.flat fun op hop => h op (by simp [hop])

/-- A parsed context whose operands fit compiles to its code, behind the prologue. -/
theorem irCtxCompile_eq (H : Represents ctx cur outer) (h : OperandsFit ctx.data)
    (buf : List Byte) : irCtxCompile buf ctx =
      some ⟨.ok, buf ++ [0xFF, 0xF7] ++ pendingCode outer.reverse cur, []⟩ := by
  obtain ⟨hs, hcur⟩ := H.fits h
  have hops : patchHalt ctx = [] ++ pendingOps outer.reverse cur ++ [⟨.max, 0⟩] := by
    have happ := opened_append outer [] cur
    rw [pendingOps, List.append_nil] at happ
    rw [patchHalt, H.data, happ, List.nil_append]
  exact compileLoop_pending hs hcur hops (by rw [List.length_nil]; omega) (buf ++ [0xFF, 0xF7])

end

/-! ## Ops with their bytes -/

/-- The ops of a program, each with the bytes emitted for it. -/
def chunks : Prog Prim → List (IrOp × List Byte)
  | .nil => []
  | .prim i k => (i.op, assemble i.instrs) :: chunks k
  | .loop b k =>
    (⟨.loopStart, (flat b).length + 1⟩, assemble (startInstrs (bodyCode (enc b)).length)) ::
      chunks b ++ (⟨.loopEnd, -((flat b).length + 1 : ℤ)⟩, assemble (endInstrs (enc b).length)) ::
        chunks k

theorem chunks_ops (p : Prog Prim) : (chunks p).map Prod.fst = flat p := by
  induction p with
  | nil => rfl
  | prim i k ih => simp [chunks, flat, ih]
  | loop b k ihb ihk => simp [chunks, flat, ihb, ihk]

theorem chunks_code (p : Prog Prim) : (chunks p).flatMap Prod.snd = enc p := by
  induction p with
  | nil => rfl
  | prim i k ih => simp [chunks, enc, ih]
  | loop b k ihb ihk => simp [chunks, enc, bodyCode, ihb, ihk]

theorem chunks_length (p : Prog Prim) : (chunks p).length = (flat p).length := by
  rw [← chunks_ops, List.length_map]

/-- The byte position of the `k`-th item. -/
def pos (items : List (IrOp × List Byte)) (k : ℕ) : ℕ := ((items.take k).flatMap Prod.snd).length

theorem pos_append (pre post : List (IrOp × List Byte)) :
    pos (pre ++ post) pre.length = (pre.flatMap Prod.snd).length := by
  rw [pos, List.take_left]

/-- A compare and a jump by `disp` bytes from the end of the chunk, in its short or long form. -/
def JumpChunk (short long : Byte) (chunk : List Byte) (disp : ℤ) : Prop :=
  (∃ rel : Byte, chunk = [0x80, 0x3F, 0x00, short, rel] ∧ rel.toInt = disp) ∨
  ∃ rel : BitVec 32, chunk = [0x80, 0x3F, 0x00, 0x0F, long] ++ le32 rel ∧ rel.toInt = disp

/-- The bytes `chunk` at item `i` encode `op`: what the emitter produces for it on its own, or a
jump to the item after its partner. -/
def Encodes (items : List (IrOp × List Byte)) (i : ℕ) (op : IrOp) (chunk : List Byte) : Prop :=
  match op.kind with
  | .loopStart => ∃ (j : ℕ) (c : List Byte), items[j]? = some (⟨.loopEnd, -op.arg⟩, c) ∧
      (j : ℤ) = i + op.arg ∧
      JumpChunk 0x74 0x84 chunk ((pos items (j + 1) : ℤ) - pos items (i + 1))
  | .loopEnd => ∃ (j : ℕ) (c : List Byte), items[j]? = some (⟨.loopStart, -op.arg⟩, c) ∧
      (j : ℤ) = i + op.arg ∧
      JumpChunk 0x75 0x85 chunk ((pos items (j + 1) : ℤ) - pos items (i + 1))
  | _ => codeFn [] i op = (.ok, chunk)

theorem encodes_prim (items : List (IrOp × List Byte)) (i : ℕ) {p : Prim} (h : p.Fits) :
    Encodes items i p.op (assemble p.instrs) := by
  have hcode := codeFn_prim [] i p h
  rw [List.nil_append] at hcode
  cases p <;> exact hcode

/-! ## Displacements -/

theorem je8_jump (rel : Byte) :
    JumpChunk 0x74 0x84 (assemble [.cmpMem spReg 0, .je8 rel]) rel.toInt := .inl ⟨rel, rfl, rfl⟩
theorem je32_jump (rel : BitVec 32) :
    JumpChunk 0x74 0x84 (assemble [.cmpMem spReg 0, .je32 rel]) rel.toInt := .inr ⟨rel, rfl, rfl⟩
theorem jne8_jump (rel : Byte) :
    JumpChunk 0x75 0x85 (assemble [.cmpMem spReg 0, .jne8 rel]) rel.toInt := .inl ⟨rel, rfl, rfl⟩
theorem jne32_jump (rel : BitVec 32) :
    JumpChunk 0x75 0x85 (assemble [.cmpMem spReg 0, .jne32 rel]) rel.toInt := .inr ⟨rel, rfl, rfl⟩

theorem startInstrs_jump (size : ℕ) (h : size < 2^31) :
    JumpChunk 0x74 0x84 (assemble (startInstrs size)) size := by
  unfold startInstrs
  by_cases hs : (size : ℤ) + 2 ≤ int8Max
  · have hjump := je8_jump (int8 size)
    simp only [int8Max] at hs
    rw [int8_toInt (by omega) (by omega)] at hjump
    rw [if_pos (by rw [int8Max]; omega)]
    exact hjump
  · have hjump := je32_jump (int32 size)
    rw [int32_toInt (by omega) (by omega)] at hjump
    rw [if_neg hs]
    exact hjump

theorem endInstrs_jump (len : ℕ) (h : len + (assemble (endInstrs len)).length < 2^31) :
    JumpChunk 0x75 0x85 (assemble (endInstrs len))
      (-((len + (assemble (endInstrs len)).length : ℕ) : ℤ)) := by
  by_cases hs : backOffset len ≥ int8Min
  · have hcode : endInstrs len = [.cmpMem spReg 0, .jne8 (int8 (backOffset len))] := by
      rw [endInstrs, if_pos hs]
    have hlen : (assemble (endInstrs len)).length = 5 := by rw [hcode]; rfl
    have hback := backOffset_eq len (by omega)
    have hjump := jne8_jump (int8 (backOffset len))
    simp only [int8Min] at hs
    rw [int8_toInt (by omega) (by omega), hback] at hjump
    rw [hlen, hcode, hback]
    exact hjump
  · have hcode : endInstrs len = [.cmpMem spReg 0, .jne32 (int32 (backOffset len - 4))] := by
      rw [endInstrs, if_neg hs]
    have hlen : (assemble (endInstrs len)).length = 9 := by rw [hcode]; rfl
    have hback := backOffset_eq len (by omega)
    have hjump := jne32_jump (int32 (backOffset len - 4))
    rw [int32_toInt (by omega) (by omega), hback] at hjump
    have hdisp : -((len : ℤ) + 5) - 4 = -((len + 9 : ℕ) : ℤ) := by omega
    rw [hlen, hcode, hback, ← hdisp]
    exact hjump

/-! ## Every op of a program -/

/-- Where the brackets of a loop stand among the items, and where the code behind each starts. -/
theorem loop_places {items pre post : List (IrOp × List Byte)} {b k : Prog Prim}
    {start stop : IrOp × List Byte}
    (h : items = pre ++ (start :: chunks b ++ stop :: chunks k) ++ post) :
    items[pre.length]? = some start ∧ items[pre.length + 1 + (flat b).length]? = some stop ∧
    pos items (pre.length + 1) = (pre.flatMap Prod.snd).length + start.2.length ∧
    pos items (pre.length + 1 + (flat b).length + 1) =
      (pre.flatMap Prod.snd).length + start.2.length + (enc b).length + stop.2.length := by
  have hfst : items = pre ++ start :: (chunks b ++ stop :: chunks k ++ post) := by simp [h]
  have hsnd : items = (pre ++ start :: chunks b) ++ stop :: (chunks k ++ post) := by simp [h]
  have hlenStop : (pre ++ start :: chunks b).length = pre.length + 1 + (flat b).length := by
    simp only [List.length_append, List.length_cons, chunks_length b]
    omega
  refine ⟨?_, ?_, ?_, ?_⟩
  · rw [hfst]
    exact getElem?_append_cons _ _ _
  · rw [← hlenStop, hsnd]
    exact getElem?_append_cons _ _ _
  · have hl : (pre ++ [start]).length = pre.length + 1 := by
      rw [List.length_append, List.length_singleton]
    have hcut : items = (pre ++ [start]) ++ (chunks b ++ stop :: chunks k ++ post) := by simp [h]
    rw [← hl, hcut, pos_append]
    simp
  · have hl : (pre ++ start :: chunks b ++ [stop]).length =
        pre.length + 1 + (flat b).length + 1 := by
      rw [List.length_append, hlenStop, List.length_singleton]
    have hcut : items = (pre ++ start :: chunks b ++ [stop]) ++ (chunks k ++ post) := by simp [h]
    rw [← hl, hcut, pos_append]
    simp [chunks_code, Nat.add_assoc]

section
variable {items pre post : List (IrOp × List Byte)} {b k : Prog Prim}

theorem encodes_start (h : items = pre ++ chunks (.loop b k) ++ post)
    (hsize : (bodyCode (enc b)).length < 2^31) :
    Encodes items pre.length ⟨.loopStart, (flat b).length + 1⟩
      (assemble (startInstrs (bodyCode (enc b)).length)) := by
  obtain ⟨_, hstop, hposStart, hposStop⟩ := loop_places h
  refine ⟨pre.length + 1 + (flat b).length, _, hstop, by push_cast; omega, ?_⟩
  have hdisp : ((pos items (pre.length + 1 + (flat b).length + 1) : ℕ) : ℤ) -
      pos items (pre.length + 1) = ((bodyCode (enc b)).length : ℕ) := by
    rw [hposStart, hposStop, bodyCode, List.length_append]
    push_cast
    omega
  rw [hdisp]
  exact startInstrs_jump (bodyCode (enc b)).length hsize

theorem encodes_end (h : items = pre ++ chunks (.loop b k) ++ post)
    (hsize : (enc b).length + (assemble (endInstrs (enc b).length)).length < 2^31) :
    Encodes items (pre.length + 1 + (flat b).length) ⟨.loopEnd, -((flat b).length + 1 : ℤ)⟩
      (assemble (endInstrs (enc b).length)) := by
  obtain ⟨hstart, _, hposStart, hposStop⟩ := loop_places h
  refine ⟨pre.length, assemble (startInstrs (bodyCode (enc b)).length), ?_, by push_cast; omega, ?_⟩
  · rw [Int.neg_neg]
    exact hstart
  · have hdisp : ((pos items (pre.length + 1) : ℕ) : ℤ) -
        pos items (pre.length + 1 + (flat b).length + 1) =
        -(((enc b).length + (assemble (endInstrs (enc b).length)).length : ℕ) : ℤ) := by
      rw [hposStart, hposStop]
      push_cast
      omega
    rw [hdisp]
    exact endInstrs_jump (enc b).length hsize

end

theorem encodes_chunks {items : List (IrOp × List Byte)} {p : Prog Prim} (hp : p.All Prim.Fits)
    (hsize : (enc p).length < 2^31) (pre post : List (IrOp × List Byte))
    (h : items = pre ++ chunks p ++ post) {i : ℕ} {op : IrOp} {chunk : List Byte}
    (hlo : pre.length ≤ i) (hhi : i < (pre ++ chunks p).length)
    (hi : items[i]? = some (op, chunk)) : Encodes items i op chunk := by
  induction p generalizing pre post with
  | nil =>
    simp only [chunks, List.append_nil] at hhi
    omega
  | prim j k ih =>
    simp only [enc, List.length_append] at hsize
    by_cases heq : i = pre.length
    · have hat : items[pre.length]? = some (j.op, assemble j.instrs) := by
        rw [h, chunks, List.append_assoc]
        exact getElem?_append_cons _ _ _
      rw [heq, hat] at hi
      cases hi
      exact encodes_prim items i hp.1
    · refine ih hp.2 (by omega) (pre ++ [(j.op, assemble j.instrs)]) post
        (by simp [h, chunks]) ?_ ?_
      · rw [List.length_append, List.length_singleton]
        omega
      · simpa [chunks] using hhi
  | loop b k ihb ihk =>
    have hstart := encodes_start h
    have hend := encodes_end h
    obtain ⟨hatStart, hatStop, _, _⟩ := loop_places h
    obtain ⟨start, hs⟩ : ∃ x, x = ((⟨.loopStart, (flat b).length + 1⟩,
      assemble (startInstrs (bodyCode (enc b)).length)) : IrOp × List Byte) := ⟨_, rfl⟩
    obtain ⟨stop, he⟩ : ∃ x, x = ((⟨.loopEnd, -((flat b).length + 1 : ℤ)⟩,
      assemble (endInstrs (enc b).length)) : IrOp × List Byte) := ⟨_, rfl⟩
    have hchunks : chunks (.loop b k) = start :: chunks b ++ stop :: chunks k := by
      rw [chunks, hs, he]
    rw [hchunks] at h hhi
    simp only [enc, bodyCode, List.length_append] at hsize
    have hlenb := chunks_length b
    simp only [List.length_append, List.length_cons] at hhi
    -- the four places of the item: opening bracket, body, closing bracket, rest
    by_cases h1 : i = pre.length
    · rw [h1, hatStart] at hi
      cases hi
      rw [h1]
      exact hstart (by rw [bodyCode, List.length_append]; omega)
    by_cases h2 : i < pre.length + 1 + (flat b).length
    · refine ihb hp.1 (by omega) (pre ++ [start]) (stop :: chunks k ++ post)
        (by simp [h]) ?_ ?_
      · rw [List.length_append, List.length_singleton]
        omega
      · rw [List.length_append, List.length_append, List.length_singleton, hlenb]
        exact h2
    by_cases h3 : i = pre.length + 1 + (flat b).length
    · rw [h3, hatStop] at hi
      cases hi
      rw [h3]
      exact hend (by omega)
    · have hlenStop : (pre ++ start :: chunks b).length = pre.length + 1 + (flat b).length := by
        simp only [List.length_append, List.length_cons, hlenb]
        omega
      refine ihk hp.2 (by omega) (pre ++ start :: chunks b ++ [stop]) post
        (by simp [h]) ?_ ?_
      · rw [List.length_append, hlenStop, List.length_singleton]
        omega
      · rw [List.length_append, List.length_append, hlenStop, List.length_singleton]
        omega

/-- The code of a balanced context, behind the prologue, is one chunk for each op in order, and each
chunk encodes its op: the jumps of a loop land behind each other. -/
theorem compile_layout (calls : List CString) (buf : List Byte)
    (hbal : (parseCalls calls).patch = []) (hfit : OperandsFit (parseCalls calls).data)
    (hsize : ∀ out, irCtxCompile buf (parseCalls calls) = some out → out.code.length < 2^31) :
    ∃ out items, irCtxCompile buf (parseCalls calls) = some out ∧ out.err = .ok ∧
      out.code = buf ++ [0xFF, 0xF7] ++ items.flatMap Prod.snd ∧
      items.map Prod.fst = patchHalt (parseCalls calls) ∧
      ∀ i op chunk, items[i]? = some (op, chunk) → Encodes items i op chunk := by
  obtain ⟨cur, outer, H, _, _⟩ := shaped_parseCalls calls
  cases H.outer_nil hbal
  have hcomp := irCtxCompile_eq H hfit buf
  have hcur := (H.fits hfit).2
  simp only [List.reverse_nil, pendingCode] at hcomp
  have hlen := hsize _ hcomp
  simp only [List.length_append] at hlen
  have hdata : (parseCalls calls).data = flat cur := by rw [H.data, opened, List.nil_append]
  refine ⟨_, chunks cur ++ [(⟨.max, 0⟩, assemble exitInstrs)], hcomp, rfl, ?_, ?_, ?_⟩
  · simp [chunks_code]
  · rw [List.map_append, chunks_ops, patchHalt, hdata]
    rfl
  · intro i op chunk hi
    by_cases hlt : i < (chunks cur).length
    · exact encodes_chunks hcur (by omega) [] [(⟨.max, 0⟩, assemble exitInstrs)]
        (by simp) (Nat.zero_le i) (by simpa using hlt) hi
    · have hend : i = (chunks cur).length := by
        have := (List.getElem?_eq_some_iff.mp hi).1
        rw [List.length_append, List.length_singleton] at this
        omega
      rw [hend, List.getElem?_concat_length] at hi
      cases hi
      exact codeFn_max [] i

def clearText : CString := ⟨[ascii '[', ascii '-', ascii ']'], by decide, by decide⟩

def plusText : CString := ⟨[ascii '+'], by decide, by decide⟩

/-- A loop of one op. -/
theorem compile_layout_clear : ∃ out items,
    irCtxCompile [] (parseCalls [clearText]) = some out ∧ out.err = .ok ∧
      out.code = [] ++ [0xFF, 0xF7] ++ items.flatMap Prod.snd ∧
      items.map Prod.fst = patchHalt (parseCalls [clearText]) ∧
      ∀ i op chunk, items[i]? = some (op, chunk) → Encodes items i op chunk := by
  refine compile_layout [clearText] [] (by decide) (by decide) ?_
  intro out hout
  have hlen : ((irCtxCompile [] (parseCalls [clearText])).map fun out => out.code.length) =
      some 26 := by decide
  rw [hout] at hlen
  have hlen' : out.code.length = 26 := Option.some.inj hlen
  omega

/-- The prologue belongs to no op: the bytes for `+` begin with a push. -/
theorem compile_layout_prologue : (irCtxParse {} plusText).ctx.patch = [] ∧
    OperandsFit (irCtxParse {} plusText).ctx.data ∧
    ∃ out, irCtxCompile [] (irCtxParse {} plusText).ctx = some out ∧ out.err = .ok ∧
      out.code.length < 2^31 ∧
      ¬ ∃ items, out.code = items.flatMap Prod.snd ∧
        items.map Prod.fst = patchHalt (irCtxParse {} plusText).ctx ∧
        ∀ i op chunk, items[i]? = some (op, chunk) → Encodes items i op chunk := by
  have hcomp : irCtxCompile [] (irCtxParse {} plusText).ctx =
      some ⟨.ok, [0xFF, 0xF7, 0xFE, 0x07] ++ assemble exitInstrs, []⟩ := by decide
  refine ⟨by decide, by decide, _, hcomp, rfl, by decide, ?_⟩
  rintro ⟨items, hcode, hops, henc⟩
  have hhalt : patchHalt (irCtxParse {} plusText).ctx = [⟨.cell, 1⟩, ⟨.max, 0⟩] := by decide
  rw [hhalt] at hops
  obtain ⟨first, rest, rfl, hfirst, _⟩ := List.map_eq_cons_iff.mp hops
  have hchunk : codeFn [] 0 ⟨.cell, 1⟩ = (.ok, first.2) :=
    henc 0 ⟨.cell, 1⟩ first.2 (by rw [← hfirst]; rfl)
  have hbytes : first.2 = [0xFE, 0x07] := (congrArg Prod.snd hchunk).symm
  rw [List.flatMap_cons, hbytes] at hcode
  exact absurd (List.cons.inj hcode).1 (by decide)

end Bfcomp
