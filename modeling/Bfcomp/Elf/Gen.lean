import Bfcomp.Elf.Format
import Bfcomp.Foundations.Placement

/-! # The writer of ELF files (`elf_gen.h`, `elf_gen.c`)

Headers are registered by name in two maps. `finalizeElfCtx` gives every entry its place in the
file, threading one running offset through the segments and then the sections, in the order in which
the maps visit them; `genElfFile` then writes the headers and the data. -/

namespace Bfcomp
set_option autoImplicit false

structure Program where
  vec : Vec := {}
  header : Elf32Phdr

structure Section where
  vec : Vec := {}
  header : Elf32Shdr

structure ElfGenCtx where
  elfHeader : Elf32Ehdr
  segments : Map Program := {}
  sections : Map Section := {}
  shstrtab : Section := { header := {} }

def elfGenCtxInit : ElfGenCtx where
  elfHeader :=
    { eIdent := [0x7F, ascii 'E', ascii 'L', ascii 'F', 1, 1, 1, 0, 0, 0, 0, 0, 0, 0, 0, 0]
      eType := etExec
      eMachine := em386
      eVersion := evCurrent
      eEhsize := BitVec.ofNat 16 sizeofEhdr }

/-! ## Registration -/

def genProgramHeader (order : Order Program) (ctx : ElfGenCtx) (name : CString)
    (header : Elf32Phdr) : ElfGenCtx :=
  { ctx with
    segments := ctx.segments.set order name
      { header := { header with pAlign := BitVec.ofNat 32 pageSize } } }

def genSectionHeader (order : Order Section) (ctx : ElfGenCtx) (name : CString)
    (header : Elf32Shdr) : ElfGenCtx :=
  { ctx with
    sections := ctx.sections.set order name
      { header := { header with shAddralign := BitVec.ofNat 32 pageSize } } }

/-! ## Offsets -/

/-- One turn of the first loop of `fix_header_offsets`: the entry and the running offset. -/
def fixProgram (offset : ℕ) (program : Program) : Program × ℕ :=
  let length := program.vec.length
  if program.vec.length ≠ 0 ∧ program.vec.capacity ≠ 0 then
    ({ program with
        header := { program.header with
          pFilesz := BitVec.ofNat 32 length
          pMemsz := BitVec.ofNat 32 length
          pOffset := BitVec.ofNat 32 offset } },
      alignTo (offset + length) pageSize)
  else if program.vec.length ≠ 0 then
    ({ program with
        header := { program.header with
          pMemsz := BitVec.ofNat 32 program.vec.length
          pOffset := BitVec.ofNat 32 offset } },
      offset)
  else (program, offset)

def fixPrograms (offset : ℕ) : List (CString × Program) → List (CString × Program) × ℕ
  | [] => ([], offset)
  | e :: es =>
    let fixed := fixProgram offset e.2
    let rest := fixPrograms fixed.2 es
    ((e.1, fixed.1) :: rest.1, rest.2)

/-- `name` with its NUL. -/
def nameBytes (name : CString) : List Byte := name.bytes ++ [0]

/-- The running offset after a section. -/
def sectionOffset (offset : ℕ) (sect : Section) : ℕ :=
  if sect.vec.length ≠ 0 ∧ sect.header.shType &&& ~~~shtNobits ≠ 0 then
    alignTo (offset + sect.vec.length) pageSize
  else offset

/-- One turn of the second loop; `strtab` is `.shstrtab` so far. -/
def fixSection (segments : Map Program) (strtab : Vec) (offset : ℕ) (name : CString)
    (sect : Section) : Section :=
  let length := sect.vec.length
  let header := { sect.header with shName := BitVec.ofNat 32 strtab.length }
  match segments.get name with
  | some program =>
    { sect with
      header := { header with
        shSize := BitVec.ofNat 32 program.vec.length
        shOffset := program.header.pOffset
        shAddr := program.header.pVaddr } }
  | none =>
    if sect.vec.length ≠ 0 then
      { sect with
        header := { header with
          shSize := BitVec.ofNat 32 length
          shOffset := BitVec.ofNat 32 (sectionOffset offset sect) } }
    else { sect with header := header }

/-- The second loop: the entries, `.shstrtab` and the running offset. -/
def fixSections (segments : Map Program) (strtab : Vec) (offset : ℕ) :
    List (CString × Section) → List (CString × Section) × Vec × ℕ
  | [] => ([], strtab, offset)
  | e :: es =>
    let rest := fixSections segments (strtab.pushArr (nameBytes e.1)) (sectionOffset offset e.2) es
    ((e.1, fixSection segments strtab offset e.1 e.2) :: rest.1, rest.2)

theorem fixPrograms_names (offset : ℕ) (es : List (CString × Program)) :
    (fixPrograms offset es).1.map Prod.fst = es.map Prod.fst := by
  induction es generalizing offset with
  | nil => rfl
  | cons e es ih => rw [fixPrograms, List.map_cons, ih, List.map_cons]

theorem fixSections_names (segments : Map Program) (strtab : Vec) (offset : ℕ)
    (es : List (CString × Section)) :
    (fixSections segments strtab offset es).1.map Prod.fst = es.map Prod.fst := by
  induction es generalizing strtab offset with
  | nil => rfl
  | cons e es ih => rw [fixSections, List.map_cons, ih, List.map_cons]

/-- `index_of_section`: positions count from 1, after the NULL header. -/
def indexOfSection (sections : Map Section) (name : CString) : ℤ :=
  match sections.entries.findIdx? (fun e => e.1 = name) with
  | some i => i + 1
  | none => -1

/-- `".shstrtab"`. -/
def shstrtabName : CString where
  bytes := [ascii '.', ascii 's', ascii 'h', ascii 's', ascii 't', ascii 'r', ascii 't', ascii 'a',
    ascii 'b']
  nulFree := by decide
  fits := by decide

/-- `".text"`, as `write_elf_file` registers it. -/
def textName : CString where
  bytes := [ascii '.', ascii 't', ascii 'e', ascii 'x', ascii 't']
  nulFree := by decide
  fits := by decide

/-- `".bss"`, as `write_elf_file` registers it. -/
def bssName : CString where
  bytes := [ascii '.', ascii 'b', ascii 's', ascii 's']
  nulFree := by decide
  fits := by decide

def shstrtabHeader : Elf32Shdr where
  shName := 1
  shType := shtStrtab
  shAddralign := BitVec.ofNat 32 pageSize
  shFlags := shfStrings

/-- `.shstrtab` before the names of the sections. -/
def shstrtabStart : Vec := (Vec.push {} 0).pushArr (nameBytes shstrtabName)

/-- Where the first data goes. -/
def dataOffset (ctx : ElfGenCtx) : ℕ :=
  alignTo (sizeofEhdr + ctx.segments.count * sizeofPhdr) pageSize

/-- The segments after the first loop. -/
def fixedSegments (ctx : ElfGenCtx) : Map Program where
  entries := (fixPrograms (dataOffset ctx) ctx.segments.entries).1
  count := ctx.segments.count
  nodup := by
    rw [fixPrograms_names]
    exact ctx.segments.nodup

/-- What the second loop leaves. -/
def secondLoop (ctx : ElfGenCtx) : List (CString × Section) × Vec × ℕ :=
  fixSections (fixedSegments ctx) shstrtabStart
    (fixPrograms (dataOffset ctx) ctx.segments.entries).2 ctx.sections.entries

/-- The sections after the second loop. -/
def fixedSections (ctx : ElfGenCtx) : Map Section where
  entries := (secondLoop ctx).1
  count := ctx.sections.count
  nodup := by
    rw [secondLoop, fixSections_names]
    exact ctx.sections.nodup

/-- `.shstrtab` after the second loop. -/
def fixedShstrtab (ctx : ElfGenCtx) : Section where
  vec := (secondLoop ctx).2.1
  header := { shstrtabHeader with
    shSize := BitVec.ofNat 32 (secondLoop ctx).2.1.length
    shOffset := BitVec.ofNat 32 (secondLoop ctx).2.2 }

def fixHeaderOffsets (order : Order Section) (ctx : ElfGenCtx) : ElfGenCtx :=
  let sections := (fixedSections ctx).set order shstrtabName (fixedShstrtab ctx)
  { elfHeader := { ctx.elfHeader with
      eShstrndx := BitVec.ofInt 16 (indexOfSection sections shstrtabName) }
    segments := fixedSegments ctx
    sections := sections
    shstrtab := fixedShstrtab ctx }

def finalizeElfCtx (order : Order Section) (ctx : ElfGenCtx) : ElfGenCtx :=
  let ctx := fixHeaderOffsets order ctx
  let header := ctx.elfHeader
  let header :=
    if ctx.segments.count ≠ 0 then
      { header with
        ePhnum := BitVec.ofNat 16 ctx.segments.count
        ePhentsize := BitVec.ofNat 16 sizeofPhdr
        ePhoff := BitVec.ofNat 32 sizeofEhdr }
    else header
  { ctx with
    elfHeader := { header with
      eShnum := BitVec.ofNat 16 (ctx.sections.count + 1)
      eShentsize := BitVec.ofNat 16 sizeofShdr
      eShoff := BitVec.ofNat 32 (sizeofEhdr + ctx.segments.count * sizeofPhdr) } }

/-! ## Writing -/

/-- The data of an entry at its offset, if it has a buffer. -/
def writeData (f : File) (vec : Vec) (offset : BitVec 32) : File :=
  if vec.capacity = 0 then f else fwrite (fseek f offset.toNat) vec.data

def genElfFile (order : Order Section) (ctx : ElfGenCtx) (f : File) : ElfGenCtx × File :=
  let ctx := finalizeElfCtx order ctx
  let f := fwrite f ctx.elfHeader.bytes
  let f := ctx.segments.entries.foldl (fun f e => fwrite f e.2.header.bytes) f
  let f := fwrite f { shType := shtNull : Elf32Shdr }.bytes
  let f := ctx.sections.entries.foldl (fun f e => fwrite f e.2.header.bytes) f
  let f := ctx.segments.entries.foldl (fun f e => writeData f e.2.vec e.2.header.pOffset) f
  let f := ctx.sections.entries.foldl (fun f e => writeData f e.2.vec e.2.header.shOffset) f
  (ctx, f)

/-! ## What is written -/

def programHeaders (ctx : ElfGenCtx) : List (List Byte) :=
  ctx.segments.entries.map fun e => e.2.header.bytes

/-- The section headers, the NULL header first. -/
def sectionHeaders (ctx : ElfGenCtx) : List (List Byte) :=
  { shType := shtNull : Elf32Shdr }.bytes :: ctx.sections.entries.map fun e => e.2.header.bytes

/-- The headers, in the order in which they are written from the start of the file. -/
def headerPieces (ctx : ElfGenCtx) : List (List Byte) :=
  (ctx.elfHeader.bytes :: programHeaders ctx) ++ sectionHeaders ctx

/-- The data of the entries that have a buffer. -/
def dataWrites {α : Type} (vec : α → Vec) (offset : α → BitVec 32) :
    List (CString × α) → List Write
  | [] => []
  | e :: es =>
    if (vec e.2).capacity = 0 then dataWrites vec offset es
    else ⟨(offset e.2).toNat, (vec e.2).data⟩ :: dataWrites vec offset es

def programWrites (es : List (CString × Program)) : List Write :=
  dataWrites Program.vec (fun p => p.header.pOffset) es

def sectionWrites (es : List (CString × Section)) : List Write :=
  dataWrites Section.vec (fun s => s.header.shOffset) es

section
variable {α : Type} (vec : α → Vec) (offset : α → BitVec 32)

theorem foldl_writeData_writes (es : List (CString × α)) (f : File) :
    (es.foldl (fun f e => writeData f (vec e.2) (offset e.2)) f).writes =
      f.writes ++ dataWrites vec offset es := by
  induction es generalizing f with
  | nil => exact (List.append_nil _).symm
  | cons e es ih =>
    rw [List.foldl_cons, ih, dataWrites, writeData]
    split
    · rfl
    · rw [fwrite, fseek, List.append_assoc]
      rfl

theorem dataWrites_append (es fs : List (CString × α)) :
    dataWrites vec offset (es ++ fs) = dataWrites vec offset es ++ dataWrites vec offset fs := by
  induction es with
  | nil => rfl
  | cons e es ih =>
    rw [List.cons_append, dataWrites, dataWrites, ih]
    split
    · rfl
    · rfl

theorem dataWrites_perm {es fs : List (CString × α)} (h : es.Perm fs) :
    (dataWrites vec offset es).Perm (dataWrites vec offset fs) := by
  induction h with
  | nil => exact .refl _
  | cons e _ ih =>
    rw [dataWrites, dataWrites]
    split
    · exact ih
    · exact ih.cons _
  | swap e e' es =>
    simp only [dataWrites]
    split
    · split <;> exact .refl _
    · split
      · exact .refl _
      · exact .swap _ _ _
  | trans _ _ ih ih' => exact ih.trans ih'

theorem mem_dataWrites {es : List (CString × α)} {e : CString × α} (he : e ∈ es)
    (hcap : (vec e.2).capacity ≠ 0) :
    ⟨(offset e.2).toNat, (vec e.2).data⟩ ∈ dataWrites vec offset es := by
  induction es with
  | nil => cases he
  | cons e' es ih =>
    rw [dataWrites]
    rcases List.mem_cons.mp he with rfl | he
    · rw [if_neg hcap]
      exact List.mem_cons_self
    · split
      · exact ih he
      · exact List.mem_cons_of_mem _ (ih he)

end

/-- Everything that `gen_elf_file` writes. -/
theorem genElfFile_writes (order : Order Section) (ctx : ElfGenCtx) :
    (genElfFile order ctx {}).2.writes =
      consecutive 0 (headerPieces (finalizeElfCtx order ctx)) ++
        programWrites (finalizeElfCtx order ctx).segments.entries ++
        sectionWrites (finalizeElfCtx order ctx).sections.entries := by
  have hprograms (f : File) := foldl_fwrite_writes (fun e : CString × Program => e.2.header.bytes)
    (finalizeElfCtx order ctx).segments.entries f
  have hpos (f : File) := foldl_fwrite_pos (fun e : CString × Program => e.2.header.bytes)
    (finalizeElfCtx order ctx).segments.entries f
  have hsections (f : File) := foldl_fwrite_writes (fun e : CString × Section => e.2.header.bytes)
    (finalizeElfCtx order ctx).sections.entries f
  have hdata (f : File) := foldl_writeData_writes Program.vec (fun p => p.header.pOffset)
    (finalizeElfCtx order ctx).segments.entries f
  have hown (f : File) := foldl_writeData_writes Section.vec (fun s => s.header.shOffset)
    (finalizeElfCtx order ctx).sections.entries f
  rw [genElfFile, hown, hdata, hsections, fwrite_writes, fwrite_pos, hprograms, hpos,
    fwrite_writes, fwrite_pos, headerPieces, consecutive_append, consecutive, sectionHeaders,
    consecutive]
  simp [programHeaders, programWrites, sectionWrites, Nat.add_assoc]

end Bfcomp
