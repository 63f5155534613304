import Bfcomp.Elf.Gen
import Mathlib.Data.List.Dedup

/-! # Registering headers, and the counts in the ELF header

A repeated name replaces the entry of the map, but `map_set` counts it again. The counts of the ELF
header and the offset of the section headers come from that count, the headers written from the
entries: the two agree exactly when no name is registered twice, `.shstrtab` included, up to what
the fields of the header cut off. -/

namespace Bfcomp
set_option autoImplicit false

/-! ## Histories of calls -/

/-- The context after calls that registered the programs `ps` and the sections `ss`, the last one
first. Between the calls the entries may be changed through the pointers the calls return. -/
inductive Registered : List CString → List CString → ElfGenCtx → Prop
  | init : Registered [] [] elfGenCtxInit
  | program {ps ss : List CString} {ctx : ElfGenCtx} (order : Order Program) (name : CString)
      (header : Elf32Phdr) (h : Registered ps ss ctx) :
      Registered (name :: ps) ss (genProgramHeader order ctx name header)
  | sect {ps ss : List CString} {ctx : ElfGenCtx} (order : Order Section) (name : CString)
      (header : Elf32Shdr) (h : Registered ps ss ctx) :
      Registered ps (name :: ss) (genSectionHeader order ctx name header)
  | setProgram {ps ss : List CString} {ctx : ElfGenCtx} (name : CString) (f : Program → Program)
      (h : Registered ps ss ctx) :
      Registered ps ss { ctx with segments := ctx.segments.update name f }
  | setSection {ps ss : List CString} {ctx : ElfGenCtx} (name : CString) (f : Section → Section)
      (h : Registered ps ss ctx) :
      Registered ps ss { ctx with sections := ctx.sections.update name f }
  | setEntry {ps ss : List CString} {ctx : ElfGenCtx} (entry : BitVec 32)
      (h : Registered ps ss ctx) :
      Registered ps ss { ctx with elfHeader := { ctx.elfHeader with eEntry := entry } }

namespace Map
variable {V : Type}

/-- The map was filled under these names: each set was counted, and each name has one entry. -/
def Holds (m : Map V) (names : List CString) : Prop :=
  m.count = names.length ∧ ∀ n, n ∈ m.names ↔ n ∈ names

theorem names_update (m : Map V) (name : CString) (f : V → V) :
    (m.update name f).names = m.names := map_fst_update m.entries name f

theorem mem_names_set (order : Order V) (m : Map V) (name n : CString) (value : V) :
    n ∈ (m.set order name value).names ↔ n = name ∨ n ∈ m.names := by
  by_cases h : name ∈ m.names
  · have hnames : (m.set order name value).names = m.names := by
      rw [set, dif_pos h]
      exact map_fst_update m.entries name fun _ => value
    rw [hnames]
    constructor
    · exact .inr
    · rintro (rfl | hn)
      · exact h
      · exact hn
  · have hset : (m.set order name value).entries.Perm (m.entries ++ [(name, value)]) :=
      set_entries h value
    have hperm := hset.map Prod.fst
    rw [names, hperm.mem_iff, List.map_append, List.mem_append, List.map_singleton,
      List.mem_singleton]
    exact or_comm

namespace Holds
variable {m : Map V} {names : List CString}

theorem empty : Holds ({} : Map V) [] := ⟨rfl, fun _ => Iff.rfl⟩

theorem set (h : m.Holds names) (order : Order V) (name : CString) (value : V) :
    (m.set order name value).Holds (name :: names) := by
  refine ⟨?_, fun n => ?_⟩
  · rw [set_count, h.1, List.length_cons]
  · rw [mem_names_set, h.2, List.mem_cons]

theorem update (h : m.Holds names) (name : CString) (f : V → V) :
    (m.update name f).Holds names := by
  refine ⟨h.1, fun n => ?_⟩
  rw [names_update]
  exact h.2 n

theorem perm (h : m.Holds names) : m.names.Perm names.dedup := by
  refine (List.perm_ext_iff_of_nodup m.nodup (List.nodup_dedup names)).mpr fun n => ?_
  rw [List.mem_dedup]
  exact h.2 n

theorem entries_length (h : m.Holds names) : m.entries.length = names.dedup.length := by
  rw [← h.perm.length_eq, Map.names, List.length_map]

end Holds
end Map

namespace Registered
variable {ps ss : List CString} {ctx : ElfGenCtx}

theorem segments (h : Registered ps ss ctx) : ctx.segments.Holds ps := by
  induction h with
  | init => exact .empty
  | program order name header _ ih => exact ih.set order name _
  | sect order name header _ ih => exact ih
  | setProgram name f _ ih => exact ih.update name f
  | setSection name f _ ih => exact ih
  | setEntry entry _ ih => exact ih

theorem sections (h : Registered ps ss ctx) : ctx.sections.Holds ss := by
  induction h with
  | init => exact .empty
  | program order name header _ ih => exact ih
  | sect order name header _ ih => exact ih.set order name _
  | setProgram name f _ ih => exact ih
  | setSection name f _ ih => exact ih.update name f
  | setEntry entry _ ih => exact ih

theorem ePhnum (h : Registered ps ss ctx) : ctx.elfHeader.ePhnum = 0 := by
  induction h with
  | init => rfl
  | program order name header _ ih => exact ih
  | sect order name header _ ih => exact ih
  | setProgram name f _ ih => exact ih
  | setSection name f _ ih => exact ih
  | setEntry entry _ ih => exact ih

theorem finalized (h : Registered ps ss ctx) (order : Order Section) :
    (finalizeElfCtx order ctx).segments.Holds ps ∧
      (finalizeElfCtx order ctx).sections.Holds (shstrtabName :: ss) := by
  have hsections : (fixedSections ctx).Holds ss := by
    refine ⟨h.sections.1, fun n => ?_⟩
    rw [← h.sections.2]
    exact iff_of_eq (congrArg (n ∈ ·) (fixSections_names _ _ _ _))
  refine ⟨⟨h.segments.1, fun n => ?_⟩, hsections.set order shstrtabName (fixedShstrtab ctx)⟩
  rw [← h.segments.2]
  exact iff_of_eq (congrArg (n ∈ ·) (fixPrograms_names _ _))

end Registered

/-! ## Counts -/

/-- The counts in the ELF header are those of the headers written, and the section headers start
where the header says, before any data. -/
structure CountsMatch (order : Order Section) (ctx : ElfGenCtx) : Prop where
  written : consecutive 0 (headerPieces (genElfFile order ctx {}).1) <+:
    (genElfFile order ctx {}).2.writes
  phnum : (genElfFile order ctx {}).1.elfHeader.ePhnum.toNat =
    (programHeaders (genElfFile order ctx {}).1).length
  shnum : (genElfFile order ctx {}).1.elfHeader.eShnum.toNat =
    (sectionHeaders (genElfFile order ctx {}).1).length
  shoff : (genElfFile order ctx {}).1.elfHeader.eShoff.toNat =
    sizeofEhdr + (programHeaders (genElfFile order ctx {}).1).flatten.length
  data : (genElfFile order ctx {}).1.elfHeader.eShoff.toNat ≤ dataOffset ctx

theorem flatten_length_of_length {ls : List (List Byte)} {n : ℕ} (h : ∀ l ∈ ls, l.length = n) :
    ls.flatten.length = n * ls.length := by
  induction ls with
  | nil => rfl
  | cons l ls ih =>
    rw [List.flatten_cons, List.length_append, h l List.mem_cons_self,
      ih fun l hl => h l (List.mem_cons_of_mem _ hl), List.length_cons, Nat.mul_succ, Nat.add_comm]

theorem programHeaders_flatten_length (ctx : ElfGenCtx) :
    (programHeaders ctx).flatten.length = sizeofPhdr * (programHeaders ctx).length := by
  refine flatten_length_of_length fun l hl => ?_
  obtain ⟨e, _, rfl⟩ := List.mem_map.mp hl
  exact Elf32Phdr.bytes_length _

theorem sectionHeaders_flatten_length (ctx : ElfGenCtx) :
    (sectionHeaders ctx).flatten.length = sizeofShdr * (sectionHeaders ctx).length := by
  refine flatten_length_of_length fun l hl => ?_
  rcases List.mem_cons.mp hl with rfl | hl
  · exact Elf32Shdr.bytes_length _
  · obtain ⟨e, _, rfl⟩ := List.mem_map.mp hl
    exact Elf32Shdr.bytes_length _

/-- The fields of the ELF header that count, and how many headers are written. -/
theorem genElfFile_counts {ps ss : List CString} {ctx : ElfGenCtx} (h : Registered ps ss ctx)
    (order : Order Section) :
    (genElfFile order ctx {}).1.elfHeader.ePhnum = BitVec.ofNat 16 ps.length ∧
      (genElfFile order ctx {}).1.elfHeader.eShnum = BitVec.ofNat 16 (ss.length + 2) ∧
      (genElfFile order ctx {}).1.elfHeader.eShoff =
        BitVec.ofNat 32 (sizeofEhdr + ps.length * sizeofPhdr) := by
  have hcount : (finalizeElfCtx order ctx).segments.count = ps.length := (h.finalized order).1.1
  have hsections : (finalizeElfCtx order ctx).sections.count = ss.length + 1 :=
    (h.finalized order).2.1
  refine ⟨?_, ?_, ?_⟩
  · have hphnum : (genElfFile order ctx {}).1.elfHeader.ePhnum =
        if ctx.segments.count ≠ 0 then BitVec.ofNat 16 ctx.segments.count
        else ctx.elfHeader.ePhnum := by
      exact apply_ite Elf32Ehdr.ePhnum _ _ _
    rw [hphnum, h.ePhnum, h.segments.1]
    split
    · rfl
    · have hzero : ps.length = 0 := by omega
      rw [hzero]
      rfl
  · exact congrArg (fun n => BitVec.ofNat 16 (n + 1)) hsections
  · exact congrArg (fun n => BitVec.ofNat 32 (sizeofEhdr + n * sizeofPhdr)) hcount

theorem genElfFile_headers {ps ss : List CString} {ctx : ElfGenCtx} (h : Registered ps ss ctx)
    (order : Order Section) :
    (programHeaders (genElfFile order ctx {}).1).length = ps.dedup.length ∧
      (sectionHeaders (genElfFile order ctx {}).1).length =
        (shstrtabName :: ss).dedup.length + 1 := by
  obtain ⟨hsegments, hsections⟩ := h.finalized order
  constructor
  · exact (List.length_map _).trans hsegments.entries_length
  · rw [← hsections.entries_length, sectionHeaders, List.length_cons, List.length_map]
    rfl

/-- When the counts match: exactly when every name is registered once and the counts fit their
fields, or repetitions add up to a whole turn of these. -/
theorem counts_match {ps ss : List CString} {ctx : ElfGenCtx} (h : Registered ps ss ctx)
    (order : Order Section) :
    CountsMatch order ctx ↔
      (ps.dedup.length < 2^16 ∧ 2^27 ∣ ps.length - ps.dedup.length) ∧
        (shstrtabName :: ss).dedup.length + 1 < 2^16 ∧
        2^16 ∣ ss.length + 1 - (shstrtabName :: ss).dedup.length := by
  obtain ⟨hphnum, hshnum, hshoff⟩ := genElfFile_counts h order
  obtain ⟨hprograms, hsections⟩ := genElfFile_headers h order
  have hps := (List.dedup_sublist ps).length_le
  have hss := (List.dedup_sublist (shstrtabName :: ss)).length_le
  rw [List.length_cons] at hss
  have hflat := programHeaders_flatten_length (genElfFile order ctx {}).1
  rw [hprograms] at hflat
  constructor
  · intro hmatch
    have h1 := hmatch.phnum
    have h2 := hmatch.shnum
    have h3 := hmatch.shoff
    rw [hphnum, hprograms, BitVec.toNat_ofNat] at h1
    rw [hshnum, hsections, BitVec.toNat_ofNat] at h2
    rw [hshoff, hflat, BitVec.toNat_ofNat, sizeofEhdr, sizeofPhdr] at h3
    refine ⟨⟨by omega, by omega⟩, by omega, by omega⟩
  · rintro ⟨⟨hp, hpd⟩, hs, hsd⟩
    refine ⟨?_, ?_, ?_, ?_, ?_⟩
    · rw [genElfFile_writes, List.append_assoc]
      exact List.prefix_append _ _
    · rw [hphnum, hprograms, BitVec.toNat_ofNat]
      omega
    · rw [hshnum, hsections, BitVec.toNat_ofNat]
      omega
    · rw [hshoff, hflat, BitVec.toNat_ofNat, sizeofEhdr, sizeofPhdr]
      omega
    · have hle := le_alignTo (sizeofEhdr + ctx.segments.count * sizeofPhdr)
      rw [hshoff, BitVec.toNat_ofNat, dataOffset, h.segments.1]
      rw [h.segments.1] at hle
      exact (Nat.mod_le _ _).trans hle

/-- One program and its section. -/
theorem counts_match_text :
    CountsMatch (.asRegistered Section)
      (genSectionHeader (.asRegistered Section)
        (genProgramHeader (.asRegistered Program) elfGenCtxInit textName { pType := ptLoad })
        textName { shType := shtProgbits }) :=
  (counts_match (((Registered.init).program (.asRegistered Program) textName _).sect
    (.asRegistered Section) textName _) (.asRegistered Section)).mpr (by decide)

/-- A program registered twice is counted twice and written once. -/
theorem counts_match_not_twice :
    ¬ CountsMatch (.asRegistered Section)
      (genProgramHeader (.asRegistered Program)
        (genProgramHeader (.asRegistered Program) elfGenCtxInit textName { pType := ptLoad })
        textName { pType := ptLoad }) := by
  intro hmatch
  have h := ((Registered.init).program (.asRegistered Program) textName
    { pType := ptLoad }).program (.asRegistered Program) textName { pType := ptLoad }
  have hphnum := hmatch.phnum
  rw [(genElfFile_counts h _).1, (genElfFile_headers h _).1] at hphnum
  revert hphnum
  decide

end Bfcomp
