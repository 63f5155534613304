import Bfcomp.Elf.Reader
import Bfcomp.Foundations.Ia32.Machine

/-! # Starting a process from an ELF file

A system that runs a file reads its program headers, copies the bytes of every loadable segment to
the segment's address, fills the rest of the segment with zeros and jumps to the entry point. Where
it puts the stack is its own choice, as long as the stack is none of the segments. -/

namespace Bfcomp
set_option autoImplicit false

open Ia32 (Cpu Holds)

/-- A process as it starts: every loadable segment is in memory, and the four bytes below `esp`
belong to none of them. -/
structure Process (f : ℕ → Byte) (file : ElfFile) (input : List Byte) (m : Cpu) : Prop where
  running : m.exit = none
  entry : m.eip = file.header.eEntry
  input : m.input = input
  output : m.output = []
  copied : ∀ h ∈ file.segments, h.pType = ptLoad → Holds m.mem h.pVaddr (h.contents f)
  zeroed : ∀ h ∈ file.segments, h.pType = ptLoad → ∀ k, h.pFilesz.toNat ≤ k →
    k < h.pMemsz.toNat → m.mem (h.pVaddr + BitVec.ofNat 32 k) = 0
  stack : ∀ h ∈ file.segments, h.pType = ptLoad → ∀ i < 4, ∀ k < h.pMemsz.toNat,
    m.regs .esp - 4 + BitVec.ofNat 32 i ≠ h.pVaddr + BitVec.ofNat 32 k

/-- The segment has a place for the byte at `a`. -/
def Elf32Phdr.Maps (h : Elf32Phdr) (a : BitVec 32) : Prop :=
  h.pType = ptLoad ∧ (a - h.pVaddr).toNat < h.pMemsz.toNat

instance (h : Elf32Phdr) (a : BitVec 32) : Decidable (h.Maps a) := instDecidableAnd

/-- What a loader that takes the first segment that maps an address finds for it. -/
def segmentByte (f : ℕ → Byte) (segments : List Elf32Phdr) (a : BitVec 32) : Byte :=
  match segments.find? (·.Maps a) with
  | some h =>
    if (a - h.pVaddr).toNat < h.pFilesz.toNat then f (h.pOffset.toNat + (a - h.pVaddr).toNat) else 0
  | none => 0

/-- A system that does what is asked, with the stack at `esp`. -/
def execve (f : ℕ → Byte) (file : ElfFile) (input : List Byte) (esp : BitVec 32) : Cpu where
  regs := Function.update (fun _ => 0) .esp esp
  zf := false
  eip := file.header.eEntry
  mem := segmentByte f file.segments
  input := input
  output := []
  exit := none

/-- Every segment has room for its bytes, and no address belongs to two of them. -/
def SegmentsApart (segments : List Elf32Phdr) : Prop :=
  (∀ h ∈ segments, h.pFilesz.toNat ≤ h.pMemsz.toNat) ∧
    ∀ h ∈ segments, ∀ h' ∈ segments, ∀ a, h.Maps a → h'.Maps a → h = h'

section
variable {f : ℕ → Byte} {file : ElfFile} {segments : List Elf32Phdr} {h : Elf32Phdr}

theorem segmentByte_eq (hapart : SegmentsApart segments) (hmem : h ∈ segments) {a : BitVec 32}
    (hmaps : h.Maps a) : segmentByte f segments a =
      if (a - h.pVaddr).toNat < h.pFilesz.toNat then f (h.pOffset.toNat + (a - h.pVaddr).toNat)
      else 0 := by
  have hfound : (segments.find? (·.Maps a)).isSome := by
    rw [List.find?_isSome]
    exact ⟨h, hmem, decide_eq_true hmaps⟩
  obtain ⟨h', hfind⟩ := Option.isSome_iff_exists.mp hfound
  have hmaps' : h'.Maps a := by simpa using List.find?_some hfind
  have hsame := hapart.2 h hmem h' (List.mem_of_find?_eq_some hfind) a hmaps hmaps'
  rw [segmentByte, hfind, hsame]

theorem segment_offset {k : ℕ} (hk : k < h.pMemsz.toNat) :
    (h.pVaddr + BitVec.ofNat 32 k - h.pVaddr).toNat = k := by
  have hlt := h.pMemsz.isLt
  bv_omega

theorem Process.of_execve (hapart : SegmentsApart file.segments) (input : List Byte)
    {esp : BitVec 32} (hstack : ∀ h ∈ file.segments, h.pType = ptLoad → ∀ i < 4,
      ∀ k < h.pMemsz.toNat, esp - 4 + BitVec.ofNat 32 i ≠ h.pVaddr + BitVec.ofNat 32 k) :
    Process f file input (execve f file input esp) where
  running := rfl
  entry := rfl
  input := rfl
  output := rfl
  copied := by
    intro h hmem htype k b hk
    have hlt := (List.getElem?_eq_some_iff.mp hk).1
    rw [Elf32Phdr.contents, readAt_length] at hlt
    have hroom := hapart.1 h hmem
    have hoff : (h.pVaddr + BitVec.ofNat 32 k - h.pVaddr).toNat = k := segment_offset (by omega)
    have hmaps : h.Maps (h.pVaddr + BitVec.ofNat 32 k) := ⟨htype, by omega⟩
    refine (segmentByte_eq hapart hmem hmaps).trans ?_
    rw [hoff, if_pos hlt]
    exact stored_readAt f _ _ k b hk
  zeroed := by
    intro h hmem htype k hfile hk
    have hoff := segment_offset hk
    have hmaps : h.Maps (h.pVaddr + BitVec.ofNat 32 k) := ⟨htype, by omega⟩
    refine (segmentByte_eq hapart hmem hmaps).trans ?_
    rw [hoff, if_neg (by omega)]
  stack := hstack

end

/-! ## The file of `write_elf_file` -/

/-- What the reader finds in the file: a text at its address that starts at the entry point, and a
tape of zeros behind it. -/
structure TextAndTape (f : ℕ → Byte) (code : List Byte) (file : ElfFile) (text bss : Elf32Phdr) :
    Prop where
  entry : file.header.eEntry = textVaddr
  segments : file.segments.Perm [text, bss]
  textType : text.pType = ptLoad
  textAddr : text.pVaddr = textVaddr
  textMemsz : text.pMemsz.toNat = code.length
  textFilesz : text.pFilesz.toNat = code.length
  textContents : text.contents f = code.take 1 ++ le32 (bssVaddr code.length) ++ code.drop 5
  bssType : bss.pType = ptLoad
  bssAddr : bss.pVaddr = bssVaddr code.length
  bssMemsz : bss.pMemsz.toNat = tapeBytes
  bssFilesz : bss.pFilesz.toNat = 0

section
variable (programs : Order Program) (sections : Order Section) {code : List Byte}

theorem roomy_elfContext (h : 5 ≤ code.length)
    (hfits : alignTo (textVaddr.toNat + code.length) pageSize + tapeBytes ≤ 2^32) :
    Roomy [bssName, textName] [bssName, textName] (elfContext programs sections code) := by
  obtain ⟨hown, hnone⟩ := elfContext_own programs sections code
  obtain ⟨hoffset, hheaders, hpages⟩ := elfContext_room programs sections code h hfits
  exact ⟨by decide, by decide, hown, hnone, by rw [hoffset]; exact hheaders,
    by rw [hoffset]; exact hpages, by decide, by decide⟩

theorem elfContext_textAndTape (h : 5 ≤ code.length)
    (hfits : alignTo (textVaddr.toNat + code.length) pageSize + tapeBytes ≤ 2^32) :
    ∃ file text bss,
      readElf (image (genElfFile sections (elfContext programs sections code) {}).2.writes) =
        some file ∧
      TextAndTape (image (genElfFile sections (elfContext programs sections code) {}).2.writes)
        code file text bss := by
  have hreg := registered_elfContext programs sections code
  have hroom := roomy_elfContext programs sections h hfits
  obtain ⟨offset, offset', hpage, hpage', hsegments, _⟩ := elfContext_fixed programs sections code
  obtain ⟨hdata, hlength, hcap, hvaddr, halign⟩ := textProgram_spec h
  have hhas : (textProgram code).vec.HasData := ⟨by omega, hcap⟩
  have htext := fixProgram_describes offset (textProgram code)
    (f := image (genElfFile sections (elfContext programs sections code) {}).2.writes) fun hdata => by
      obtain ⟨hread, hlen, hsize⟩ := fixedSegments_read hreg hroom sections
        (hsegments.mem_iff.mpr List.mem_cons_self) hdata
      rw [Elf32Phdr.contents, hsize, hlen]
      exact hread
  have hbss := fixProgram_describes offset' (bssProgram code)
    (f := image (genElfFile sections (elfContext programs sections code) {}).2.writes)
    fun hdata => absurd rfl hdata.2
  have hcontents := htext.contents hhas
  have hsmall : code.length < 2^32 := by
    have hle := le_alignTo (textVaddr.toNat + code.length)
    unfold tapeBytes at hfits
    omega
  have hlen : (textProgram code).vec.data.length = code.length :=
    (Vec.data_length hcap).trans hlength
  have hfilesz := congrArg List.length hcontents
  rw [Elf32Phdr.contents, readAt_length, hlen] at hfilesz
  refine ⟨_, _, _, genElfFile_readElf hreg hroom sections, finalized_eEntry sections _,
    hsegments.map fun e => e.2.header, ?_, htext.vaddr.trans hvaddr, ?_, hfilesz,
    hcontents.trans hdata, hbss.type, hbss.vaddr, ?_, ?_⟩
  · refine htext.type.trans ?_
    have hpatch : (textProgram code).header.pType = ptLoad := by
      rw [textProgram, patchText]
      split <;> rfl
    exact hpatch
  · have hmemsz := htext.memsz (by omega)
    rw [hmemsz, hlength, toNat_ofNat_of_lt hsmall]
  · have hmemsz := hbss.memsz (by decide : tapeBytes ≠ 0)
    rw [hmemsz]
    exact (by decide : (BitVec.ofNat 32 tapeBytes).toNat = tapeBytes)
  · rw [hbss.bufferless rfl]
    rfl

end
end Bfcomp
