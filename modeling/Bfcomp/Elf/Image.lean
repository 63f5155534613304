import Bfcomp.Compile.Code
import Bfcomp.Elf.Layout

/-! # The executable (`write_elf_file`)

The text starts with a move of the address of `.bss` to the pointer register. The compiler appends
to that first instruction, so its operand can be patched when the length of the text, and with it
the address, is known. -/

namespace Bfcomp
set_option autoImplicit false

/-! ## Emission only appends -/

section
variable (ctx : List Byte)

theorem prefix_ctxPushCode (code : List Byte) : ctx <+: ctxPushCode ctx code :=
  List.prefix_append _ _

theorem prefix_pushAsBytes (arg : BitVec 32) : ctx <+: pushAsBytes ctx arg :=
  List.prefix_append _ _

theorem prefix_emitAddSub (mode : ModRmMode) (op : IrOp) : ctx <+: (emitAddSub ctx mode op).2 := by
  unfold emitAddSub
  have hpush := prefix_ctxPushCode ctx
  have hbytes (code : List Byte) (arg : BitVec 32) : ctx <+: pushAsBytes (ctxPushCode ctx code) arg :=
    (hpush code).trans (prefix_pushAsBytes _ _)
  have hthree (code code' : List Byte) (arg : BitVec 32) :
      ctx <+: ctxPushCode (pushAsBytes (ctxPushCode ctx code) arg) code' :=
    (hbytes code arg).trans (prefix_ctxPushCode _ _)
  simp only
  repeat' split
  all_goals first
    | exact List.prefix_rfl
    | exact hpush _
    | exact hbytes _ _
    | exact hthree _ _ _

theorem prefix_emitTransfer (nr : Byte) (fd : ℤ) : ctx <+: emitTransfer nr fd ctx := by
  simp only [emitTransfer, syscallConstArg, syscallRegArg, ctxPushCode, pushAsBytes,
    List.append_assoc]
  exact List.prefix_append _ _

theorem prefix_emitTransfers (nr : Byte) (fd : ℤ) (n : ℕ) : ctx <+: (emitTransfer nr fd)^[n] ctx := by
  induction n generalizing ctx with
  | zero => exact List.prefix_rfl
  | succ n ih => exact (prefix_emitTransfer ctx nr fd).trans (ih _)

theorem prefix_emitCodeLoopStart (size : ℕ) : ctx <+: (emitCodeLoopStart ctx size).2 := by
  rw [emitCodeLoopStart_eq]
  exact List.prefix_append _ _

theorem prefix_emitCodeLoopEnd : ctx <+: (emitCodeLoopEnd ctx).2 := by
  rw [emitCodeLoopEnd_eq]
  exact List.prefix_append _ _

theorem prefix_codeFn (i : ℕ) (op : IrOp) : ctx <+: (codeFn ctx i op).2 := by
  unfold codeFn
  cases op.kind with
  | tape => exact prefix_emitAddSub ctx _ op
  | cell => exact prefix_emitAddSub ctx _ op
  | loopStart => exact prefix_emitCodeLoopStart ctx i
  | loopEnd => exact prefix_emitCodeLoopEnd ctx
  | write =>
    simp only [emitCodeWrite]
    split
    · exact List.prefix_rfl
    · exact prefix_emitTransfers ctx _ _ _
  | read =>
    simp only [emitCodeRead]
    split
    · exact List.prefix_rfl
    · exact prefix_emitTransfer ctx _ _
  | set => exact prefix_ctxPushCode ctx _
  | max =>
    simp only [emitCodeExit, syscallConstArg, ctxPushCode, pushAsBytes]
    split
    · exact List.prefix_rfl
    · simp only [List.append_assoc]
      exact List.prefix_append _ _

end

theorem prefix_compileLoop {ops : List IrOp} {fuel i : ℕ} {ctx : List Byte} {out : Compiled}
    (h : compileLoop ops fuel ctx i = some out) : ctx <+: out.code := by
  induction fuel generalizing ctx i with
  | zero => cases h
  | succ fuel ih =>
    rw [compileLoop] at h
    split at h
    · cases h
      exact List.prefix_rfl
    · next opcode _ =>
      split at h
      · split at h
        · cases h
        · next loopCode _ =>
          have hstart : ctx <+: (emitCodeLoopStart ctx loopCode.code.length).2 ++ loopCode.code :=
            (prefix_emitCodeLoopStart ctx _).trans (List.prefix_append _ _)
          simp only at h
          split at h
          · split at h
            · split at h
              · exact hstart.trans (ih h)
              · rw [← Option.some.inj h]
                exact hstart
            · rw [← Option.some.inj h]
              exact hstart
          · cases h
            exact List.prefix_rfl
      · have hop := prefix_codeFn ctx i opcode
        simp only at h
        split at h
        · split at h
          · rw [← Option.some.inj h]
            exact hop
          · exact hop.trans (ih h)
        · rw [← Option.some.inj h]
          exact hop

/-! ## The context that is written -/

def textVaddr : BitVec 32 := 0x08048000

def tapeBytes : ℕ := 30000

/-- The text before the code: a move to `SP_REG` that is patched at the end. -/
def textStart : List Byte :=
  pushAsBytes (ctxPushCode [] [0xb8 + BitVec.ofNat 8 spReg.num]) textVaddr

/-- The address of `.bss`, behind a text of this length. -/
def bssVaddr (length : ℕ) : BitVec 32 :=
  BitVec.ofNat 32 (alignTo (textVaddr.toNat + length) pageSize)

/-- The store to `text->data + 1`, inside the first instruction. -/
def patchText (addr : BitVec 32) (text : Program) : Program :=
  if h : 1 + (le32 addr).length ≤ text.vec.data.length then
    { text with vec := text.vec.patch 1 (le32 addr) h }
  else text

/-- `.text` and `.bss` as `write_elf_file` registers them, where the compiler left `code`. -/
def elfContext (programs : Order Program) (sections : Order Section) (code : List Byte) :
    ElfGenCtx :=
  let ctx := genProgramHeader programs elfGenCtxInit textName
    { pType := ptLoad, pVaddr := textVaddr, pFlags := pfR ||| pfX }
  let ctx := genSectionHeader sections ctx textName
    { shType := shtProgbits, shFlags := shfAlloc ||| shfExecinstr, shAddr := textVaddr }
  let ctx := { ctx with elfHeader := { ctx.elfHeader with eEntry := textVaddr } }
  let ctx := { ctx with
    segments := ctx.segments.update textName fun text => { text with vec := Vec.pushArr {} code } }
  let ctx := genProgramHeader programs ctx bssName
    { pType := ptLoad, pVaddr := bssVaddr code.length, pFlags := pfR ||| pfW }
  let ctx := { ctx with
    segments := ctx.segments.update bssName fun bss => { bss with vec := { length := tapeBytes } } }
  let ctx := genSectionHeader sections ctx bssName
    { shType := shtNobits, shFlags := shfAlloc ||| shfWrite, shAddr := bssVaddr code.length }
  { ctx with segments := ctx.segments.update textName (patchText (bssVaddr code.length)) }

def writeElfFile (programs : Order Program) (sections : Order Section) (ir : IrCtx) :
    Option (ElfGenCtx × File) :=
  match irCtxCompile textStart ir with
  | none => none
  | some out => some (genElfFile sections (elfContext programs sections out.code) {})

theorem registered_elfContext (programs : Order Program) (sections : Order Section)
    (code : List Byte) : Registered [bssName, textName] [bssName, textName]
      (elfContext programs sections code) :=
  (((((((Registered.init).program programs textName _).sect sections textName _).setEntry _
    ).setProgram textName _).program programs bssName _).setProgram bssName _).sect sections
    bssName _ |>.setProgram textName _

def textProgram (code : List Byte) : Program :=
  patchText (bssVaddr code.length)
    { vec := Vec.pushArr {} code
      header :=
        { pType := ptLoad, pVaddr := textVaddr, pFlags := pfR ||| pfX
          pAlign := BitVec.ofNat 32 pageSize } }

def bssProgram (code : List Byte) : Program where
  vec := { length := tapeBytes }
  header :=
    { pType := ptLoad, pVaddr := bssVaddr code.length, pFlags := pfR ||| pfW
      pAlign := BitVec.ofNat 32 pageSize }

def textSection : Section where
  header :=
    { shType := shtProgbits, shFlags := shfAlloc ||| shfExecinstr, shAddr := textVaddr
      shAddralign := BitVec.ofNat 32 pageSize }

def bssSection (code : List Byte) : Section where
  header :=
    { shType := shtNobits, shFlags := shfAlloc ||| shfWrite, shAddr := bssVaddr code.length
      shAddralign := BitVec.ofNat 32 pageSize }

theorem bssName_fresh {V : Type} (text : V) : bssName ∉ [(textName, text)].map Prod.fst := by
  rw [List.map_singleton, List.mem_singleton]
  exact (by decide : bssName ≠ textName)

theorem elfContext_segments (programs : Order Program) (sections : Order Section)
    (code : List Byte) : (elfContext programs sections code).segments.entries.Perm
      [(textName, textProgram code), (bssName, bssProgram code)] := by
  let text : Program :=
    { header := { pType := ptLoad, pVaddr := textVaddr, pFlags := pfR ||| pfX
                  pAlign := BitVec.ofNat 32 pageSize } }
  let bss : Program :=
    { header := { pType := ptLoad, pVaddr := bssVaddr code.length, pFlags := pfR ||| pfW
                  pAlign := BitVec.ofNat 32 pageSize } }
  have htext := Map.set_perm programs (.refl _ : ({} : Map Program).entries.Perm [])
    (List.not_mem_nil : textName ∉ _) text
  have hcode := Map.update_perm htext textName fun text => { text with vec := Vec.pushArr {} code }
  have hbss := Map.set_perm programs hcode (bssName_fresh _) bss
  have hlength := Map.update_perm hbss bssName fun bss =>
    { bss with vec := { length := tapeBytes } }
  exact Map.update_perm hlength textName (patchText (bssVaddr code.length))

theorem elfContext_sections (programs : Order Program) (sections : Order Section)
    (code : List Byte) : (elfContext programs sections code).sections.entries.Perm
      [(textName, textSection), (bssName, bssSection code)] := by
  have htext := Map.set_perm sections (.refl _ : ({} : Map Section).entries.Perm [])
    (List.not_mem_nil : textName ∉ _) textSection
  exact Map.set_perm sections htext (bssName_fresh textSection) (bssSection code)

theorem patchText_spec (text : Program) (h : 5 ≤ text.vec.data.length) (addr : BitVec 32) :
    (patchText addr text).vec.data =
        text.vec.data.take 1 ++ le32 addr ++ text.vec.data.drop 5 ∧
      (patchText addr text).vec.length = text.vec.length ∧
      (patchText addr text).vec.capacity = text.vec.capacity ∧
      (patchText addr text).header = text.header := by
  have hlen : 1 + (le32 addr).length ≤ text.vec.data.length := h
  rw [patchText, dif_pos hlen]
  exact ⟨rfl, rfl, rfl, rfl⟩

/-- The text holds the code, with the address of `.bss` in its first instruction. -/
theorem textProgram_spec {code : List Byte} (h : 5 ≤ code.length) :
    (textProgram code).vec.data = code.take 1 ++ le32 (bssVaddr code.length) ++ code.drop 5 ∧
      (textProgram code).vec.length = code.length ∧ (textProgram code).vec.capacity ≠ 0 ∧
      (textProgram code).header.pVaddr = textVaddr ∧
      (textProgram code).header.pAlign = BitVec.ofNat 32 pageSize := by
  have hne : code ≠ [] := by
    rintro rfl
    exact absurd h (by decide)
  obtain ⟨hdata, hlength, hcap, hheader⟩ := patchText_spec
    { vec := Vec.pushArr {} code
      header :=
        { pType := ptLoad, pVaddr := textVaddr, pFlags := pfR ||| pfX
          pAlign := BitVec.ofNat 32 pageSize } } h (bssVaddr code.length)
  refine ⟨hdata, hlength, ?_, congrArg Elf32Phdr.pVaddr hheader,
    congrArg Elf32Phdr.pAlign hheader⟩
  exact fun hzero => Vec.pushArr_capacity hne (hcap.symm.trans hzero)

/-! ## The file -/

section
variable (programs : Order Program) (sections : Order Section) (code : List Byte)

theorem elfContext_own : OwnData (elfContext programs sections code).segments
    (elfContext programs sections code).sections.entries ∧
    ∀ e ∈ (elfContext programs sections code).sections.entries, ¬ e.2.vec.HasData := by
  have hempty : ∀ e ∈ (elfContext programs sections code).sections.entries, e.2.vec = {} := by
    intro e he
    have hmem := (elfContext_sections programs sections code).mem_iff.mp he
    rcases List.mem_cons.mp hmem with rfl | hmem
    · rfl
    · rw [List.mem_singleton.mp hmem]
      rfl
  constructor
  · intro e he
    rw [hempty e he]
    exact ⟨fun hdata => absurd rfl hdata.1, fun hlen => absurd rfl hlen⟩
  · intro e he
    rw [hempty e he]
    exact fun hdata => hdata.1 rfl

/-- The room that the layout needs, in the addresses of the text. -/
theorem elfContext_room (h : 5 ≤ code.length)
    (hfits : alignTo (textVaddr.toNat + code.length) pageSize + tapeBytes ≤ 2^32) :
    dataOffset (elfContext programs sections code) = 4096 ∧
      headerEnd (elfContext programs sections code) ≤ 4096 ∧
      4096 + dataPages (elfContext programs sections code).segments.entries < 2^32 := by
  have hreg := registered_elfContext programs sections code
  have hsegments := elfContext_segments programs sections code
  have hvaddr : textVaddr.toNat % 4096 = 0 := by decide
  have hvaddr' : textVaddr.toNat = 134512640 := by decide
  have hpages : dataPages (elfContext programs sections code).segments.entries =
      alignTo code.length pageSize := by
    obtain ⟨_, hlength, hcap, _⟩ := textProgram_spec h
    have hdata : (textProgram code).vec.HasData := ⟨by omega, hcap⟩
    have hbss : ¬ (bssProgram code).vec.HasData := fun hdata => hdata.2 rfl
    rw [dataPages_perm hsegments, dataPages, dataPages, dataPages, if_pos hdata, if_neg hbss,
      hlength, Nat.add_zero]
  rw [alignTo_add hvaddr] at hfits
  refine ⟨?_, ?_, ?_⟩
  · rw [dataOffset, hreg.segments.1]
    decide
  · rw [headerEnd, hsegments.length_eq, (elfContext_sections programs sections code).length_eq]
    exact (by decide : sizeofEhdr + sizeofPhdr * 2 + sizeofShdr * (2 + 2) ≤ 4096)
  · rw [hpages]
    unfold tapeBytes at hfits
    omega

theorem elfContext_fixed : ∃ offset offset', offset % 4096 = 0 ∧ offset' % 4096 = 0 ∧
    (fixedSegments (elfContext programs sections code)).entries.Perm
      [(textName, (fixProgram offset (textProgram code)).1),
        (bssName, (fixProgram offset' (bssProgram code)).1)] ∧
    (fixedSegments (elfContext programs sections code)).get bssName =
      some (fixProgram offset' (bssProgram code)).1 := by
  have hsegments := elfContext_segments programs sections code
  have hmem {e : CString × Program}
      (h : e ∈ [(textName, textProgram code), (bssName, bssProgram code)]) :
      e ∈ (elfContext programs sections code).segments.entries := hsegments.mem_iff.mpr h
  obtain ⟨offset, hpage, _, htext⟩ := fixedSegments_get (hmem List.mem_cons_self)
  obtain ⟨offset', hpage', _, hbss⟩ :=
    fixedSegments_get (hmem (List.mem_cons_of_mem _ List.mem_cons_self))
  refine ⟨offset, offset', hpage, hpage', Map.entries_perm ?_ ?_, hbss⟩
  · have hnames : (fixedSegments (elfContext programs sections code)).names =
        (elfContext programs sections code).segments.names := fixPrograms_names _ _
    rw [hnames]
    exact hsegments.map Prod.fst
  · intro e he
    rcases List.mem_cons.mp he with rfl | he
    · exact htext
    · rw [List.mem_singleton.mp he]
      exact hbss

theorem finalized_eEntry (order : Order Section) (ctx : ElfGenCtx) :
    (finalizeElfCtx order ctx).elfHeader.eEntry = ctx.elfHeader.eEntry := by
  have heq := apply_ite Elf32Ehdr.eEntry (ctx.segments.count ≠ 0)
    { (fixHeaderOffsets order ctx).elfHeader with
      ePhnum := BitVec.ofNat 16 ctx.segments.count
      ePhentsize := BitVec.ofNat 16 sizeofPhdr
      ePhoff := BitVec.ofNat 32 sizeofEhdr }
    (fixHeaderOffsets order ctx).elfHeader
  rw [ite_self] at heq
  exact heq

end

end Bfcomp
