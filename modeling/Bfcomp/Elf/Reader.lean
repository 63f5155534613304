import Bfcomp.Elf.Image
import Bfcomp.Elf.Names

/-! # Reading an ELF file back

A reader of the format starts from nothing but the bytes: it checks the identification and the sizes
of the tables, walks both tables from the offsets and counts that the header gives, and takes the
name of a section from the table that the header points at. What it finds in a file of `genElfFile`
is what was registered. -/

namespace Bfcomp
set_option autoImplicit false

/-! ## Fields -/

/-- The 16-bit field at `a`. -/
def word16 (f : ℕ → Byte) (a : ℕ) : BitVec 16 := f (a + 1) ++ f a

/-- The 32-bit field at `a`. -/
def word32 (f : ℕ → Byte) (a : ℕ) : BitVec 32 := ofLe32 (f a) (f (a + 1)) (f (a + 2)) (f (a + 3))

def ehdrAt (f : ℕ → Byte) (a : ℕ) : Elf32Ehdr where
  eIdent := readAt f a 16
  eType := word16 f (a + 16)
  eMachine := word16 f (a + 18)
  eVersion := word32 f (a + 20)
  eEntry := word32 f (a + 24)
  ePhoff := word32 f (a + 28)
  eShoff := word32 f (a + 32)
  eFlags := word32 f (a + 36)
  eEhsize := word16 f (a + 40)
  ePhentsize := word16 f (a + 42)
  ePhnum := word16 f (a + 44)
  eShentsize := word16 f (a + 46)
  eShnum := word16 f (a + 48)
  eShstrndx := word16 f (a + 50)
  identLength := readAt_length f a 16

def phdrAt (f : ℕ → Byte) (a : ℕ) : Elf32Phdr where
  pType := word32 f a
  pOffset := word32 f (a + 4)
  pVaddr := word32 f (a + 8)
  pPaddr := word32 f (a + 12)
  pFilesz := word32 f (a + 16)
  pMemsz := word32 f (a + 20)
  pFlags := word32 f (a + 24)
  pAlign := word32 f (a + 28)

def shdrAt (f : ℕ → Byte) (a : ℕ) : Elf32Shdr where
  shName := word32 f a
  shType := word32 f (a + 4)
  shFlags := word32 f (a + 8)
  shAddr := word32 f (a + 12)
  shOffset := word32 f (a + 16)
  shSize := word32 f (a + 20)
  shLink := word32 f (a + 24)
  shInfo := word32 f (a + 28)
  shAddralign := word32 f (a + 32)
  shEntsize := word32 f (a + 36)

section
variable {f : ℕ → Byte} {a : ℕ}

theorem word16_of_stored {w : BitVec 16} (h : Stored f a (le16 w)) : word16 f a = w := by
  have h0 : f a = w.extractLsb' 0 8 := h 0 _ rfl
  have h1 : f (a + 1) = w.extractLsb' 8 8 := h 1 _ rfl
  rw [word16, h0, h1]
  apply BitVec.eq_of_getLsbD_eq
  intro i hi
  rw [BitVec.getLsbD_append, BitVec.getLsbD_extractLsb', BitVec.getLsbD_extractLsb']
  by_cases hlow : i < 8
  · simp [hlow]
  · have hhigh : i - 8 < 8 := by omega
    have hsum : 8 + (i - 8) = i := by omega
    simp [hlow, hhigh, hsum]

theorem word32_of_stored {w : BitVec 32} (h : Stored f a (le32 w)) : word32 f a = w := by
  have h0 : f a = w.extractLsb' 0 8 := h 0 _ rfl
  have h1 : f (a + 1) = w.extractLsb' 8 8 := h 1 _ rfl
  have h2 : f (a + 2) = w.extractLsb' 16 8 := h 2 _ rfl
  have h3 : f (a + 3) = w.extractLsb' 24 8 := h 3 _ rfl
  rw [word32, h0, h1, h2, h3, ofLe32_le32]

theorem ehdrAt_of_stored {h : Elf32Ehdr} (hs : Stored f a h.bytes) : ehdrAt f a = h := by
  simp only [Elf32Ehdr.bytes, stored_append, List.length_append, h.identLength, le16_length,
    le32_length, Nat.add_assoc] at hs
  obtain ⟨⟨⟨⟨⟨⟨⟨⟨⟨⟨⟨⟨⟨hident, htype⟩, hmachine⟩, hversion⟩, hentry⟩, hphoff⟩, hshoff⟩, hflags⟩,
    hehsize⟩, hphentsize⟩, hphnum⟩, hshentsize⟩, hshnum⟩, hshstrndx⟩ := hs
  have hread := stored_iff_readAt.mp hident
  rw [h.identLength] at hread
  cases h
  simp only [ehdrAt, Elf32Ehdr.mk.injEq]
  exact ⟨hread, word16_of_stored htype, word16_of_stored hmachine, word32_of_stored hversion,
    word32_of_stored hentry, word32_of_stored hphoff, word32_of_stored hshoff,
    word32_of_stored hflags, word16_of_stored hehsize, word16_of_stored hphentsize,
    word16_of_stored hphnum, word16_of_stored hshentsize, word16_of_stored hshnum,
    word16_of_stored hshstrndx⟩

theorem phdrAt_of_stored {h : Elf32Phdr} (hs : Stored f a h.bytes) : phdrAt f a = h := by
  simp only [Elf32Phdr.bytes, stored_append, List.length_append, le32_length, Nat.add_assoc] at hs
  obtain ⟨⟨⟨⟨⟨⟨⟨htype, hoffset⟩, hvaddr⟩, hpaddr⟩, hfilesz⟩, hmemsz⟩, hflags⟩, halign⟩ := hs
  cases h
  simp only [phdrAt, Elf32Phdr.mk.injEq]
  exact ⟨word32_of_stored htype, word32_of_stored hoffset, word32_of_stored hvaddr,
    word32_of_stored hpaddr, word32_of_stored hfilesz, word32_of_stored hmemsz,
    word32_of_stored hflags, word32_of_stored halign⟩

theorem shdrAt_of_stored {h : Elf32Shdr} (hs : Stored f a h.bytes) : shdrAt f a = h := by
  simp only [Elf32Shdr.bytes, stored_append, List.length_append, le32_length, Nat.add_assoc] at hs
  obtain ⟨⟨⟨⟨⟨⟨⟨⟨⟨hname, htype⟩, hflags⟩, haddr⟩, hoffset⟩, hsize⟩, hlink⟩, hinfo⟩, halign⟩,
    hentsize⟩ := hs
  cases h
  simp only [shdrAt, Elf32Shdr.mk.injEq]
  exact ⟨word32_of_stored hname, word32_of_stored htype, word32_of_stored hflags,
    word32_of_stored haddr, word32_of_stored hoffset, word32_of_stored hsize,
    word32_of_stored hlink, word32_of_stored hinfo, word32_of_stored halign,
    word32_of_stored hentsize⟩

end

/-! ## The reader -/

/-- A 32-bit little-endian executable for the 386. -/
def Elf32Ehdr.Identified (h : Elf32Ehdr) : Prop :=
  h.eIdent.take 7 = [0x7F, ascii 'E', ascii 'L', ascii 'F', 1, 1, 1] ∧ h.eType = etExec ∧
    h.eMachine = em386 ∧ h.eVersion = evCurrent ∧ h.eEhsize.toNat = sizeofEhdr

instance (h : Elf32Ehdr) : Decidable h.Identified := instDecidableAnd

/-- What the reader asks of the header: that it knows the kind of file and the size of an entry. -/
def Elf32Ehdr.Supported (h : Elf32Ehdr) : Prop :=
  h.Identified ∧ (h.ePhnum = 0 ∨ h.ePhentsize.toNat = sizeofPhdr) ∧
    h.eShentsize.toNat = sizeofShdr

instance (h : Elf32Ehdr) : Decidable h.Supported := instDecidableAnd

/-- A file as the reader sees it: the name of a section goes with its header. -/
structure ElfFile where
  header : Elf32Ehdr
  segments : List Elf32Phdr
  sections : List (List Byte × Elf32Shdr)

/-- `n` entries of a table. -/
def tableAt {α : Type} (entryAt : ℕ → α) (offset size n : ℕ) : List α :=
  (List.range n).map fun i => entryAt (offset + i * size)

/-- The string at `i`, up to its NUL. -/
def stringAt (table : List Byte) (i : ℕ) : List Byte := (table.drop i).takeWhile (· ≠ 0)

def readElf (f : ℕ → Byte) : Option ElfFile :=
  let header := ehdrAt f 0
  let headers := tableAt (shdrAt f) header.eShoff.toNat header.eShentsize.toNat header.eShnum.toNat
  if header.Supported then
    headers[header.eShstrndx.toNat]?.map fun strtab =>
      { header := header
        segments :=
          tableAt (phdrAt f) header.ePhoff.toNat header.ePhentsize.toNat header.ePhnum.toNat
        sections := headers.map fun h =>
          (stringAt (readAt f strtab.shOffset.toNat strtab.shSize.toNat) h.shName.toNat, h) }
  else none

/-- The bytes of a segment in the file. -/
def Elf32Phdr.contents (f : ℕ → Byte) (h : Elf32Phdr) : List Byte :=
  readAt f h.pOffset.toNat h.pFilesz.toNat

theorem stringAt_of_hasString {table : List Byte} {i : ℕ} {name : CString}
    (h : HasString table i name) : stringAt table i = name.bytes := by
  obtain ⟨rest, hrest⟩ := h
  have hne : ∀ b ∈ name.bytes, decide (b ≠ 0) = true := by
    intro b hb
    refine decide_eq_true fun hzero => name.nulFree ?_
    rwa [hzero] at hb
  rw [stringAt, ← hrest, nameBytes, List.append_assoc, List.takeWhile_append_of_pos hne]
  exact List.append_nil _

/-- A table of encoded entries is read back, whatever decodes one entry. -/
theorem tableAt_of_stored {α : Type} {f : ℕ → Byte} {entryAt : ℕ → α} {bytes : α → List Byte}
    (hentry : ∀ {a : ℕ} {x : α}, Stored f a (bytes x) → entryAt a = x) {offset size : ℕ}
    (hlen : ∀ x, (bytes x).length = size) {xs : List α}
    (h : Stored f offset (xs.map bytes).flatten) : tableAt entryAt offset size xs.length = xs := by
  refine List.ext_getElem (by rw [tableAt, List.length_map, List.length_range]) fun i hi hi' => ?_
  simp only [tableAt, List.getElem_map, List.getElem_range]
  refine hentry (stored_flatten ?_ h ?_)
  · intro b hb
    obtain ⟨x, _, rfl⟩ := List.mem_map.mp hb
    exact hlen x
  · rw [List.getElem?_map, List.getElem?_eq_getElem hi']
    rfl

/-! ## What is found in the file -/

/-- The program header is that of a registered program, and its bytes are the program's data. -/
structure Elf32Phdr.Describes (f : ℕ → Byte) (h : Elf32Phdr) (program : Program) : Prop where
  type : h.pType = program.header.pType
  vaddr : h.pVaddr = program.header.pVaddr
  paddr : h.pPaddr = program.header.pPaddr
  flags : h.pFlags = program.header.pFlags
  align : h.pAlign = program.header.pAlign
  contents : program.vec.HasData → h.contents f = program.vec.data
  memsz : program.vec.length ≠ 0 → h.pMemsz = BitVec.ofNat 32 program.vec.length
  bufferless : program.vec.capacity = 0 → h.pFilesz = program.header.pFilesz

/-- The section header is that of a section registered under `name`. Where a segment has the same
name, the section is the segment. -/
structure Elf32Shdr.Describes (f : ℕ → Byte) (segments : Map Program) (name : CString)
    (h : Elf32Shdr) (sect : Section) : Prop where
  type : h.shType = sect.header.shType
  flags : h.shFlags = sect.header.shFlags
  link : h.shLink = sect.header.shLink
  info : h.shInfo = sect.header.shInfo
  addralign : h.shAddralign = sect.header.shAddralign
  entsize : h.shEntsize = sect.header.shEntsize
  own : segments.get name = none → h.shAddr = sect.header.shAddr
  shared : ∀ program, segments.get name = some program → h.shAddr = program.header.pVaddr ∧
    (program.vec.HasData → readAt f h.shOffset.toNat h.shSize.toNat = program.vec.data)

/-- Names registered once, and room for what was registered: no section has data of its own, the
headers end before the first data, and offsets, counts and names fit their fields. -/
structure Roomy (ps ss : List CString) (ctx : ElfGenCtx) : Prop where
  programs : ps.Nodup
  sects : (shstrtabName :: ss).Nodup
  own : OwnData ctx.segments ctx.sections.entries
  noData : ∀ e ∈ ctx.sections.entries, ¬ e.2.vec.HasData
  headers : headerEnd ctx ≤ dataOffset ctx
  offsets : dataOffset ctx + dataPages ctx.segments.entries < 2^32
  counts : ps.length < 2^16
  strings : strtabLength ss < 2^32

section
variable {ps ss : List CString} {ctx : ElfGenCtx}

theorem Registered.identified (h : Registered ps ss ctx) : ctx.elfHeader.Identified := by
  induction h with
  | init => exact ⟨rfl, rfl, rfl, rfl, rfl⟩
  | program order name header _ ih => exact ih
  | sect order name header _ ih => exact ih
  | setProgram name f _ ih => exact ih
  | setSection name f _ ih => exact ih
  | setEntry entry _ ih => exact ih

theorem finalized_identified (order : Order Section) (h : ctx.elfHeader.Identified) :
    (finalizeElfCtx order ctx).elfHeader.Identified := by
  have heq := apply_ite Elf32Ehdr.Identified (ctx.segments.count ≠ 0)
    { (fixHeaderOffsets order ctx).elfHeader with
      ePhnum := BitVec.ofNat 16 ctx.segments.count
      ePhentsize := BitVec.ofNat 16 sizeofPhdr
      ePhoff := BitVec.ofNat 32 sizeofEhdr }
    (fixHeaderOffsets order ctx).elfHeader
  refine (iff_of_eq heq).mpr ?_
  split
  · exact h
  · exact h

/-- Where the tables start and how long their entries are, as far as there are any. -/
theorem finalized_tables (order : Order Section) (ctx : ElfGenCtx) :
    (ctx.segments.count ≠ 0 → (finalizeElfCtx order ctx).elfHeader.ePhoff.toNat = sizeofEhdr ∧
      (finalizeElfCtx order ctx).elfHeader.ePhentsize.toNat = sizeofPhdr) ∧
      (finalizeElfCtx order ctx).elfHeader.eShentsize.toNat = sizeofShdr := by
  have heq {α : Type} (field : Elf32Ehdr → α) := apply_ite field (ctx.segments.count ≠ 0)
    { (fixHeaderOffsets order ctx).elfHeader with
      ePhnum := BitVec.ofNat 16 ctx.segments.count
      ePhentsize := BitVec.ofNat 16 sizeofPhdr
      ePhoff := BitVec.ofNat 32 sizeofEhdr }
    (fixHeaderOffsets order ctx).elfHeader
  refine ⟨fun hcount => ⟨?_, ?_⟩, rfl⟩
  · exact congrArg BitVec.toNat ((heq Elf32Ehdr.ePhoff).trans (if_pos hcount))
  · exact congrArg BitVec.toNat ((heq Elf32Ehdr.ePhentsize).trans (if_pos hcount))

theorem finalized_supported (h : Registered ps ss ctx) (order : Order Section) :
    (finalizeElfCtx order ctx).elfHeader.Supported := by
  obtain ⟨hprograms, hsections⟩ := finalized_tables order ctx
  refine ⟨finalized_identified order h.identified, ?_, hsections⟩
  by_cases hcount : ctx.segments.count = 0
  · have hphnum := (genElfFile_counts h order).1
    have hlen : ps.length = 0 := h.segments.1.symm.trans hcount
    rw [hlen] at hphnum
    exact .inl hphnum
  · exact .inr (hprograms hcount).2

/-- The headers stand one behind the other from the start of the file. -/
theorem genElfFile_stored (order : Order Section)
    (hapart : (genElfFile order ctx {}).2.writes.Pairwise Write.Apart) :
    Stored (image (genElfFile order ctx {}).2.writes) 0
        (finalizeElfCtx order ctx).elfHeader.bytes ∧
      Stored (image (genElfFile order ctx {}).2.writes) sizeofEhdr
        (programHeaders (finalizeElfCtx order ctx)).flatten ∧
      Stored (image (genElfFile order ctx {}).2.writes)
        (sizeofEhdr + (programHeaders (finalizeElfCtx order ctx)).flatten.length)
        (sectionHeaders (finalizeElfCtx order ctx)).flatten := by
  have hstored := stored_consecutive hapart 0 (headerPieces (finalizeElfCtx order ctx))
    fun w hw => by
      rw [genElfFile_writes]
      exact List.mem_append_left _ (List.mem_append_left _ hw)
  rw [headerPieces, List.flatten_append, List.flatten_cons, stored_append, stored_append,
    List.length_append, Elf32Ehdr.bytes_length, Nat.zero_add, Nat.zero_add] at hstored
  exact ⟨hstored.1.1, hstored.1.2, hstored.2⟩

/-- `.shstrtab` is read back whole. -/
theorem genElfFile_shstrtab (h : Registered ps ss ctx) (hss : (shstrtabName :: ss).Nodup)
    (order : Order Section) (hsize : strtabLength ss < 2^32)
    (hapart : (genElfFile order ctx {}).2.writes.Pairwise Write.Apart) :
    readAt (image (genElfFile order ctx {}).2.writes)
        (fixedShstrtab ctx).header.shOffset.toNat (fixedShstrtab ctx).header.shSize.toNat =
      (fixedShstrtab ctx).vec.data := by
  have hname := (List.nodup_cons.mp hss).1
  have hwritten : strtabWrite ctx ∈ (genElfFile order ctx {}).2.writes := by
    refine (writes_perm h hname order).mem_iff.mpr ?_
    exact List.mem_append_right _ (List.mem_append_right _ (List.mem_singleton_self _))
  have hlen : (fixedShstrtab ctx).vec.length = (fixedShstrtab ctx).vec.data.length :=
    fixSections_strtab_length rfl _ _
  have hshSize : (fixedShstrtab ctx).header.shSize.toNat = (fixedShstrtab ctx).vec.data.length := by
    have hfit := fixedShstrtab_size h hss
    have hfield : (fixedShstrtab ctx).header.shSize =
        BitVec.ofNat 32 (fixedShstrtab ctx).vec.length := rfl
    rw [hfield, hlen, toNat_ofNat_of_lt (by omega)]
  rw [hshSize]
  exact read_image hapart hwritten

/-- The name that the NULL header points at. -/
theorem stringAt_shstrtab_zero (ctx : ElfGenCtx) :
    stringAt (fixedShstrtab ctx).vec.data 0 = [] := by
  have hdata : (fixedShstrtab ctx).vec.data = shstrtabStart.data ++
      (ctx.sections.entries.map fun e => nameBytes e.1).flatten := fixSections_strtab_data _ _ _ _
  rw [hdata]
  rfl

theorem Roomy.sections_length (hroom : Roomy ps ss ctx) (h : Registered ps ss ctx) :
    ss.length + 2 < 2^16 := by
  have hheaders := hroom.headers
  obtain ⟨_, hhigh⟩ := dataOffset_bounds h hroom.programs
  rw [headerEnd, sizeofEhdr, sizeofPhdr, sizeofShdr, h.sections.entries_length,
    (List.nodup_cons.mp hroom.sects).2.dedup] at hheaders
  omega

theorem Roomy.apart (hroom : Roomy ps ss ctx) (h : Registered ps ss ctx) (order : Order Section) :
    (genElfFile order ctx {}).2.writes.Pairwise Write.Apart :=
  writes_apart h (List.nodup_cons.mp hroom.sects).1 hroom.own order hroom.noData hroom.headers
    hroom.offsets

section
variable (h : Registered ps ss ctx) (hroom : Roomy ps ss ctx) (order : Order Section)
include h hroom

/-- The program headers, from the offset and the count in the header. -/
theorem genElfFile_segmentTable :
    tableAt (phdrAt (image (genElfFile order ctx {}).2.writes))
        (finalizeElfCtx order ctx).elfHeader.ePhoff.toNat
        (finalizeElfCtx order ctx).elfHeader.ePhentsize.toNat
        (finalizeElfCtx order ctx).elfHeader.ePhnum.toNat =
      (finalizeElfCtx order ctx).segments.entries.map fun e => e.2.header := by
  have hphnum : (finalizeElfCtx order ctx).elfHeader.ePhnum.toNat = ps.length := by
    refine (congrArg BitVec.toNat (genElfFile_counts h order).1).trans ?_
    exact (BitVec.toNat_ofNat _ _).trans (Nat.mod_eq_of_lt hroom.counts)
  have hlen : ((finalizeElfCtx order ctx).segments.entries.map fun e => e.2.header).length =
      ps.length := by
    have hheaders := (genElfFile_headers h order).1
    rw [hroom.programs.dedup] at hheaders
    rw [List.length_map, ← hheaders, programHeaders, List.length_map]
    rfl
  rw [hphnum]
  by_cases hcount : ps.length = 0
  · rw [hcount] at hlen ⊢
    rw [List.eq_nil_of_length_eq_zero hlen]
    rfl
  · obtain ⟨hphoff, hphentsize⟩ := (finalized_tables order ctx).1 (by rw [h.segments.1]; exact hcount)
    have hstored := (genElfFile_stored order (hroom.apart h order)).2.1
    rw [programHeaders, ← Function.comp_def Elf32Phdr.bytes fun e : CString × Program => e.2.header,
      ← List.map_map] at hstored
    rw [hphoff, hphentsize, ← hlen]
    exact tableAt_of_stored phdrAt_of_stored Elf32Phdr.bytes_length hstored

/-- The section headers, the NULL header among them. -/
theorem genElfFile_sectionTable :
    tableAt (shdrAt (image (genElfFile order ctx {}).2.writes))
        (finalizeElfCtx order ctx).elfHeader.eShoff.toNat
        (finalizeElfCtx order ctx).elfHeader.eShentsize.toNat
        (finalizeElfCtx order ctx).elfHeader.eShnum.toNat =
      { shType := shtNull } ::
        (finalizeElfCtx order ctx).sections.entries.map fun e => e.2.header := by
  have hmany := hroom.sections_length h
  have hshnum : (finalizeElfCtx order ctx).elfHeader.eShnum.toNat = ss.length + 2 := by
    refine (congrArg BitVec.toNat (genElfFile_counts h order).2.1).trans ?_
    exact (BitVec.toNat_ofNat _ _).trans (Nat.mod_eq_of_lt hmany)
  have hlen : (({ shType := shtNull } : Elf32Shdr) ::
      (finalizeElfCtx order ctx).sections.entries.map fun e => e.2.header).length =
      ss.length + 2 := by
    have hnames := (finalized_names h order hroom.sects).length_eq
    rw [Map.names, List.length_map, List.length_cons] at hnames
    rw [List.length_cons, List.length_map, hnames]
  have hshoff : (finalizeElfCtx order ctx).elfHeader.eShoff.toNat =
      sizeofEhdr + (programHeaders (finalizeElfCtx order ctx)).flatten.length := by
    have hcounts := hroom.counts
    have hheaders := (genElfFile_headers h order).1
    rw [hroom.programs.dedup] at hheaders
    have hflat := programHeaders_flatten_length (genElfFile order ctx {}).1
    rw [hheaders, sizeofPhdr] at hflat
    refine (congrArg BitVec.toNat (genElfFile_counts h order).2.2).trans ?_
    refine (toNat_ofNat_of_lt (by rw [sizeofEhdr, sizeofPhdr]; omega)).trans ?_
    rw [sizeofPhdr, Nat.mul_comm]
    exact congrArg (sizeofEhdr + ·) hflat.symm
  have hstored := (genElfFile_stored order (hroom.apart h order)).2.2
  rw [sectionHeaders, ← Function.comp_def Elf32Shdr.bytes fun e : CString × Section => e.2.header,
    ← List.map_map, ← List.map_cons] at hstored
  rw [hshnum, hshoff, (finalized_tables order ctx).2, ← hlen]
  exact tableAt_of_stored shdrAt_of_stored Elf32Shdr.bytes_length hstored

/-- What the reader makes of the file, in the terms of the writer. -/
theorem genElfFile_readElf :
    readElf (image (genElfFile order ctx {}).2.writes) = some
      { header := (finalizeElfCtx order ctx).elfHeader
        segments := (finalizeElfCtx order ctx).segments.entries.map fun e => e.2.header
        sections := ([], { shType := shtNull }) ::
          (finalizeElfCtx order ctx).sections.entries.map fun e => (e.1.bytes, e.2.header) } := by
  have hname := (List.nodup_cons.mp hroom.sects).1
  have hmany := hroom.sections_length h
  have hapart := hroom.apart h order
  have hmem : (shstrtabName, fixedShstrtab ctx) ∈ (finalizeElfCtx order ctx).sections.entries :=
    (finalized_sections h hname order).mem_iff.mpr
      (List.mem_append_right _ (List.mem_singleton_self _))
  obtain ⟨i, hi, hget⟩ := indexOfSection_of_mem hmem
  have hindex : (finalizeElfCtx order ctx).elfHeader.eShstrndx.toNat = i + 1 := by
    have hlt : i < ss.length + 1 := by
      have hlen := (finalized_names h order hroom.sects).length_eq
      rw [Map.names, List.length_map, List.length_cons] at hlen
      rw [← hlen]
      exact (List.getElem?_eq_some_iff.mp hget).1
    rw [finalized_eShstrndx, hi]
    exact toNat_ofInt_succ (by omega)
  have hnames := finalized_shName h hroom.sects order hroom.strings
  simp only [readElf]
  rw [ehdrAt_of_stored (genElfFile_stored order hapart).1, if_pos (finalized_supported h order),
    genElfFile_sectionTable h hroom order, genElfFile_segmentTable h hroom order,
    hindex, List.getElem?_cons_succ, List.getElem?_map, hget]
  simp only [Option.map_some, List.map_cons, List.map_map]
  rw [genElfFile_shstrtab h hroom.sects order hroom.strings hapart]
  have hentries : (finalizeElfCtx order ctx).sections.entries.map
      ((fun h : Elf32Shdr => (stringAt (fixedShstrtab ctx).vec.data h.shName.toNat, h)) ∘
        fun e => e.2.header) =
      (finalizeElfCtx order ctx).sections.entries.map fun e => (e.1.bytes, e.2.header) := by
    refine List.map_congr_left fun e he => ?_
    exact Prod.ext (stringAt_of_hasString (hnames e he)) rfl
  have hnull : stringAt (fixedShstrtab ctx).vec.data
      ({ shType := shtNull } : Elf32Shdr).shName.toNat = [] := stringAt_shstrtab_zero ctx
  rw [hentries, hnull]

end

end

/-! ## What was registered -/

theorem fixProgram_describes {f : ℕ → Byte} (offset : ℕ) (program : Program)
    (hread : program.vec.HasData →
      (fixProgram offset program).1.header.contents f = program.vec.data) :
    (fixProgram offset program).1.header.Describes f program := by
  have hkeep : (fixProgram offset program).1.header.pType = program.header.pType ∧
      (fixProgram offset program).1.header.pVaddr = program.header.pVaddr ∧
      (fixProgram offset program).1.header.pPaddr = program.header.pPaddr ∧
      (fixProgram offset program).1.header.pFlags = program.header.pFlags ∧
      (fixProgram offset program).1.header.pAlign = program.header.pAlign := by
    simp only [fixProgram]
    split
    · exact ⟨rfl, rfl, rfl, rfl, rfl⟩
    · split <;> exact ⟨rfl, rfl, rfl, rfl, rfl⟩
  obtain ⟨htype, hvaddr, hpaddr, hflags, halign⟩ := hkeep
  exact ⟨htype, hvaddr, hpaddr, hflags, halign, hread,
    fun hlen => (fixProgram_placed hlen offset).2.1, fun hcap => fixProgram_bufferless hcap offset⟩

section
variable {ps ss : List CString} {ctx : ElfGenCtx}

/-- A segment is read back from the offset and the size that its header, or the header of the
section of the same name, gives. -/
theorem fixedSegments_read (h : Registered ps ss ctx) (hroom : Roomy ps ss ctx)
    (order : Order Section) {name : CString} {offset : ℕ} {program : Program}
    (he : (name, (fixProgram offset program).1) ∈ (fixedSegments ctx).entries)
    (hdata : program.vec.HasData) :
    readAt (image (genElfFile order ctx {}).2.writes)
        (fixProgram offset program).1.header.pOffset.toNat program.vec.length = program.vec.data ∧
      (BitVec.ofNat 32 program.vec.length).toNat = program.vec.length ∧
      (fixProgram offset program).1.header.pFilesz = BitVec.ofNat 32 program.vec.length := by
  have hoffsets := hroom.offsets
  have hread := read_segment order (hroom.apart h order) (by omega) he
    (by rw [fixProgram_vec]; exact hdata)
  simp only [fixProgram_vec] at hread
  exact hread

end

end Bfcomp
