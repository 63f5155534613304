import Bfcomp.Elf.Registered
import Bfcomp.Rxi.Order

/-! # Where the pieces of an ELF file lie

Segments are placed from page to page behind the headers. A section with data of its own is placed
at the offset behind its end instead of before it, and the last one at the very offset of
`.shstrtab`; the section headers are written where the first data may already be; and offsets are
cut to 32 bits. The file has no overlap exactly when none of the three happens. -/

namespace Bfcomp
set_option autoImplicit false

/-! ## Segments -/

/-- The room that the data of the segments takes, in whole pages. -/
def dataPages : List (CString × Program) → ℕ
  | [] => 0
  | e :: es => (if e.2.vec.HasData then alignTo e.2.vec.length pageSize else 0) + dataPages es

theorem dataPages_page (es : List (CString × Program)) : dataPages es % 4096 = 0 := by
  induction es with
  | nil => rfl
  | cons e es ih =>
    have hpage := alignTo_mod e.2.vec.length
    rw [dataPages]
    split <;> omega

theorem fixProgram_hasData {program : Program} (h : program.vec.HasData) (offset : ℕ) :
    (fixProgram offset program).1.vec = program.vec ∧
      (fixProgram offset program).1.header.pOffset = BitVec.ofNat 32 offset ∧
      (fixProgram offset program).1.header.pFilesz = BitVec.ofNat 32 program.vec.length ∧
      (fixProgram offset program).2 = alignTo (offset + program.vec.length) pageSize := by
  have hdata : program.vec.length ≠ 0 ∧ program.vec.capacity ≠ 0 := h
  simp only [fixProgram]
  rw [if_pos hdata]
  exact ⟨rfl, rfl, rfl, rfl⟩

theorem fixProgram_noData {program : Program} (h : ¬ program.vec.HasData) (offset : ℕ) :
    (fixProgram offset program).1.vec = program.vec ∧ (fixProgram offset program).2 = offset := by
  have hdata : ¬ (program.vec.length ≠ 0 ∧ program.vec.capacity ≠ 0) := h
  simp only [fixProgram]
  rw [if_neg hdata]
  split
  · exact ⟨rfl, rfl⟩
  · exact ⟨rfl, rfl⟩

theorem fixProgram_placed {program : Program} (h : program.vec.length ≠ 0) (offset : ℕ) :
    (fixProgram offset program).1.header.pOffset = BitVec.ofNat 32 offset ∧
      (fixProgram offset program).1.header.pMemsz = BitVec.ofNat 32 program.vec.length ∧
      (fixProgram offset program).1.header.pVaddr = program.header.pVaddr ∧
      (fixProgram offset program).1.header.pAlign = program.header.pAlign := by
  by_cases hcap : program.vec.capacity = 0
  · have hdata : ¬ (program.vec.length ≠ 0 ∧ program.vec.capacity ≠ 0) := fun hdata => hdata.2 hcap
    simp only [fixProgram]
    rw [if_neg hdata, if_pos h]
    exact ⟨rfl, rfl, rfl, rfl⟩
  · simp only [fixProgram]
    rw [if_pos ⟨h, hcap⟩]
    exact ⟨rfl, rfl, rfl, rfl⟩

theorem fixProgram_bufferless {program : Program} (h : program.vec.capacity = 0) (offset : ℕ) :
    (fixProgram offset program).1.header.pFilesz = program.header.pFilesz := by
  have hdata : ¬ (program.vec.length ≠ 0 ∧ program.vec.capacity ≠ 0) := fun hdata => hdata.2 h
  simp only [fixProgram]
  rw [if_neg hdata]
  split <;> rfl

theorem fixProgram_vec (offset : ℕ) (program : Program) :
    (fixProgram offset program).1.vec = program.vec := by
  by_cases h : program.vec.HasData
  · exact (fixProgram_hasData h offset).1
  · exact (fixProgram_noData h offset).1

theorem fixProgram_end {offset : ℕ} (h : offset % 4096 = 0) (program : Program) :
    (fixProgram offset program).2 =
      offset + if program.vec.HasData then alignTo program.vec.length pageSize else 0 := by
  split
  next hdata => rw [(fixProgram_hasData hdata offset).2.2.2, alignTo_add h]
  next hdata => exact (fixProgram_noData hdata offset).2

theorem fixPrograms_end {offset : ℕ} (h : offset % 4096 = 0) (es : List (CString × Program)) :
    (fixPrograms offset es).2 = offset + dataPages es := by
  induction es generalizing offset with
  | nil => rfl
  | cons e es ih =>
    have hend := fixProgram_end h e.2
    have hmod : (fixProgram offset e.2).2 % 4096 = 0 := by
      rw [hend]
      split
      · have := alignTo_mod e.2.vec.length
        omega
      · exact h
    rw [fixPrograms, dataPages]
    simp only
    rw [ih hmod, hend]
    omega

theorem fixPrograms_filesz {offset : ℕ} {es : List (CString × Program)} {e : CString × Program}
    (he : e ∈ (fixPrograms offset es).1) (hdata : e.2.vec.HasData) :
    e.2.header.pFilesz = BitVec.ofNat 32 e.2.vec.length ∧ e.2.vec.length ≤ dataPages es := by
  induction es generalizing offset with
  | nil => cases he
  | cons e' es ih =>
    rw [dataPages]
    rcases List.mem_cons.mp he with rfl | he
    · have hdata' : e'.2.vec.HasData := by
        rw [← fixProgram_vec offset]
        exact hdata
      have hle := le_alignTo e'.2.vec.length
      simp only
      rw [fixProgram_vec, if_pos hdata']
      exact ⟨(fixProgram_hasData hdata' offset).2.2.1, by omega⟩
    · obtain ⟨hsize, hle⟩ := ih he
      exact ⟨hsize, by omega⟩

theorem fixPrograms_mem {offset : ℕ} (h : offset % 4096 = 0) {es : List (CString × Program)}
    {e : CString × Program} (he : e ∈ (fixPrograms offset es).1) :
    ∃ offset' program, offset' % 4096 = 0 ∧ offset' ≤ offset + dataPages es ∧
      (e.1, program) ∈ es ∧ e.2 = (fixProgram offset' program).1 := by
  induction es generalizing offset with
  | nil => cases he
  | cons e' es ih =>
    rw [dataPages]
    rcases List.mem_cons.mp he with rfl | he
    · exact ⟨offset, e'.2, h, Nat.le_add_right _ _, List.mem_cons_self, rfl⟩
    · have hnext := fixProgram_end h e'.2
      have hpage := alignTo_mod e'.2.vec.length
      have hmod : (fixProgram offset e'.2).2 % 4096 = 0 := by
        rw [hnext]
        split <;> omega
      obtain ⟨offset', program, hpage', hle, hmem, heq⟩ := ih hmod he
      exact ⟨offset', program, hpage', by omega, List.mem_cons_of_mem _ hmem, heq⟩

theorem dataPages_perm {es fs : List (CString × Program)} (h : es.Perm fs) :
    dataPages es = dataPages fs := by
  induction h with
  | nil => rfl
  | cons e _ ih => rw [dataPages, dataPages, ih]
  | swap e e' es =>
    simp only [dataPages]
    omega
  | trans _ _ ih ih' => exact ih.trans ih'

theorem Vec.data_length {v : Vec} (h : v.capacity ≠ 0) : v.data.length = v.length := v.holds h

theorem Vec.data_empty {v : Vec} (h : ¬ v.HasData) : v.data = [] := by
  by_cases hcap : v.capacity = 0
  · exact v.empty hcap
  · refine List.eq_nil_of_length_eq_zero ?_
    rw [v.holds hcap]
    by_contra hlen
    exact h ⟨hlen, hcap⟩

theorem toNat_ofNat_of_lt {n : ℕ} (h : n < 2^32) : (BitVec.ofNat 32 n).toNat = n := by
  rw [BitVec.toNat_ofNat]
  exact Nat.mod_eq_of_lt h

/-- The piece of a placed segment, if it has one, lies from the running offset to the next. -/
theorem fixProgram_within {offset : ℕ} (h : offset % 4096 = 0) (program : Program)
    (hfits : (fixProgram offset program).2 < 2^32) :
    Write.Within offset (fixProgram offset program).2
      ⟨(fixProgram offset program).1.header.pOffset.toNat, program.vec.data⟩ := by
  by_cases hdata : program.vec.HasData
  · have hend := fixProgram_end h program
    rw [if_pos hdata] at hend
    have hle := le_alignTo program.vec.length
    rw [(fixProgram_hasData hdata offset).2.1, toNat_ofNat_of_lt (by omega)]
    refine .inr ⟨Nat.le_refl _, ?_⟩
    simp only
    rw [Vec.data_length hdata.2]
    omega
  · exact .inl (Vec.data_empty hdata)

/-- When no offset is cut, the segments lie one behind the other. -/
theorem fixPrograms_apart {offset : ℕ} (h : offset % 4096 = 0) (es : List (CString × Program))
    (hfits : offset + dataPages es < 2^32) :
    (∀ w ∈ programWrites (fixPrograms offset es).1, w.Within offset (offset + dataPages es)) ∧
      (programWrites (fixPrograms offset es).1).Pairwise Write.Apart := by
  induction es generalizing offset with
  | nil => exact ⟨fun _ h => (List.not_mem_nil h).elim, .nil⟩
  | cons e es ih =>
    have hnext := fixProgram_end h e.2
    have hmod : (fixProgram offset e.2).2 % 4096 = 0 := by
      rw [hnext]
      split
      · have := alignTo_mod e.2.vec.length
        omega
      · exact h
    rw [dataPages] at hfits ⊢
    have hsum : (fixProgram offset e.2).2 + dataPages es =
        offset + ((if e.2.vec.HasData then alignTo e.2.vec.length pageSize else 0) +
          dataPages es) := by
      rw [hnext]
      omega
    obtain ⟨hwithin, hapart⟩ := ih hmod (by omega)
    rw [hsum] at hwithin
    have hfirst := fixProgram_within h e.2 (by omega)
    rw [programWrites, fixPrograms, dataWrites, fixProgram_vec]
    simp only
    split
    · exact ⟨fun w hw => (hwithin w hw).mono (by omega) (Nat.le_refl _), hapart⟩
    · constructor
      · intro w hw
        rcases List.mem_cons.mp hw with rfl | hw
        · exact hfirst.mono (Nat.le_refl _) (by omega)
        · exact (hwithin w hw).mono (by omega) (Nat.le_refl _)
      · exact List.pairwise_cons.mpr ⟨fun w hw => hfirst.apart (hwithin w hw), hapart⟩

/-- The data of the segments leaves no page out: some piece writes the first byte of every page. -/
theorem fixPrograms_covers {offset t : ℕ} (h : offset % 4096 = 0) (ht : t % 4096 = 0)
    (ht32 : t < 2^32) (es : List (CString × Program)) (hle : offset ≤ t)
    (hlt : t < offset + dataPages es) :
    ∃ w ∈ programWrites (fixPrograms offset es).1, w.Covers t := by
  induction es generalizing offset with
  | nil =>
    rw [dataPages] at hlt
    omega
  | cons e es ih =>
    have hnext := fixProgram_end h e.2
    have hpages := alignTo_mod e.2.vec.length
    rw [dataPages] at hlt
    rw [programWrites, fixPrograms, dataWrites, fixProgram_vec]
    simp only
    by_cases hdata : e.2.vec.HasData
    · rw [if_pos hdata] at hnext hlt
      rw [if_neg hdata.2]
      by_cases hin : t < (fixProgram offset e.2).2
      · refine ⟨_, List.mem_cons_self, ?_⟩
        rw [(fixProgram_hasData hdata offset).2.1, toNat_ofNat_of_lt (by omega)]
        refine ⟨hle, ?_⟩
        simp only
        rw [Vec.data_length hdata.2]
        -- the last page of the piece starts inside it
        rw [alignTo_page] at hnext
        have hpos := hdata.1
        omega
      · have hmod : (fixProgram offset e.2).2 % 4096 = 0 := by omega
        obtain ⟨w, hw, hcov⟩ := ih hmod (by omega) (by omega)
        exact ⟨w, List.mem_cons_of_mem _ hw, hcov⟩
    · rw [if_neg hdata] at hnext hlt
      have hmod : (fixProgram offset e.2).2 % 4096 = 0 := by omega
      obtain ⟨w, hw, hcov⟩ := ih hmod (by omega) (by omega)
      refine ⟨w, ?_, hcov⟩
      split
      · exact hw
      · exact List.mem_cons_of_mem _ hw

/-! ## Sections -/

/-- A section has data of its own only where no segment has its name and its type is not
SHT_NOBITS, and a length without data only as SHT_NOBITS. -/
def OwnData (segments : Map Program) (es : List (CString × Section)) : Prop :=
  ∀ e ∈ es, (e.2.vec.HasData → e.1 ∉ segments.names ∧ e.2.header.shType ≠ shtNobits) ∧
    (e.2.vec.length ≠ 0 → e.2.vec.capacity = 0 → e.2.header.shType = shtNobits)

theorem fixSection_vec (segments : Map Program) (strtab : Vec) (offset : ℕ) (name : CString)
    (sect : Section) : (fixSection segments strtab offset name sect).vec = sect.vec := by
  simp only [fixSection]
  split
  · rfl
  · split <;> rfl

theorem fixSection_own {segments : Map Program} {name : CString} {sect : Section}
    (hname : name ∉ segments.names) (hlen : sect.vec.length ≠ 0) (strtab : Vec) (offset : ℕ) :
    (fixSection segments strtab offset name sect).header.shOffset =
      BitVec.ofNat 32 (sectionOffset offset sect) := by
  have hget : segments.get name = none := Map.get_eq_none.mpr hname
  simp only [fixSection]
  rw [hget]
  exact congrArg (fun s : Section => s.header.shOffset) (if_pos hlen)

theorem fixSection_shared {segments : Map Program} {name : CString} {program : Program}
    (hget : segments.get name = some program) (strtab : Vec) (offset : ℕ) (sect : Section) :
    (fixSection segments strtab offset name sect).header.shOffset = program.header.pOffset ∧
      (fixSection segments strtab offset name sect).header.shSize =
        BitVec.ofNat 32 program.vec.length ∧
      (fixSection segments strtab offset name sect).header.shAddr = program.header.pVaddr := by
  simp only [fixSection]
  rw [hget]
  exact ⟨rfl, rfl, rfl⟩

theorem sectionOffset_noData {sect : Section} (hdata : ¬ sect.vec.HasData)
    (hnobits : sect.vec.length ≠ 0 → sect.vec.capacity = 0 → sect.header.shType = shtNobits)
    (offset : ℕ) : sectionOffset offset sect = offset := by
  refine if_neg fun ⟨hlen, htype⟩ => htype ?_
  have hcap : sect.vec.capacity = 0 := by
    by_contra hcap
    exact hdata ⟨hlen, hcap⟩
  rw [hnobits hlen hcap]
  decide

theorem fixSections_noData {segments : Map Program} {es : List (CString × Section)}
    (hown : OwnData segments es) (hdata : ∀ e ∈ es, ¬ e.2.vec.HasData) (strtab : Vec)
    (offset : ℕ) : (fixSections segments strtab offset es).2.2 = offset := by
  induction es generalizing strtab offset with
  | nil => rfl
  | cons e es ih =>
    have hstay := sectionOffset_noData (hdata e List.mem_cons_self)
      (hown e List.mem_cons_self).2 offset
    rw [fixSections, hstay]
    exact ih (fun e he => hown e (List.mem_cons_of_mem _ he))
      (fun e he => hdata e (List.mem_cons_of_mem _ he)) _ _

theorem fixSections_own {segments : Map Program} {es : List (CString × Section)}
    (hown : OwnData segments es) (hdata : ∃ e ∈ es, e.2.vec.HasData) (strtab : Vec)
    (offset : ℕ) :
    ∃ e ∈ (fixSections segments strtab offset es).1, e.2.vec.HasData ∧
      e.2.header.shOffset = BitVec.ofNat 32 (fixSections segments strtab offset es).2.2 := by
  induction es generalizing strtab offset with
  | nil =>
    obtain ⟨e, he, _⟩ := hdata
    cases he
  | cons e es ih =>
    have hrest : OwnData segments es := fun e he => hown e (List.mem_cons_of_mem _ he)
    rw [fixSections]
    by_cases hlater : ∃ e ∈ es, e.2.vec.HasData
    · obtain ⟨e', he', h⟩ := ih hrest hlater (strtab.pushArr (nameBytes e.1))
        (sectionOffset offset e.2)
      exact ⟨e', List.mem_cons_of_mem _ he', h⟩
    · have hnone : ∀ e ∈ es, ¬ e.2.vec.HasData := fun e he h => hlater ⟨e, he, h⟩
      obtain ⟨e', he', hdata'⟩ := hdata
      rcases List.mem_cons.mp he' with rfl | he'
      · refine ⟨_, List.mem_cons_self, ?_, ?_⟩
        · rw [fixSection_vec]
          exact hdata'
        · rw [fixSections_noData hrest hnone]
          exact fixSection_own ((hown e' List.mem_cons_self).1 hdata').1 hdata'.1 _ _
      · exact (hnone e' he' hdata').elim

theorem fixSections_writes {segments : Map Program} {es : List (CString × Section)}
    (hdata : ∀ e ∈ es, ¬ e.2.vec.HasData) (strtab : Vec) (offset : ℕ) :
    ∀ w ∈ sectionWrites (fixSections segments strtab offset es).1, w.bytes = [] := by
  induction es generalizing strtab offset with
  | nil => exact fun _ h => (List.not_mem_nil h).elim
  | cons e es ih =>
    have hrest := ih (fun e he => hdata e (List.mem_cons_of_mem _ he))
      (strtab.pushArr (nameBytes e.1)) (sectionOffset offset e.2)
    rw [fixSections, sectionWrites, dataWrites, fixSection_vec]
    split
    · exact hrest
    · intro w hw
      rcases List.mem_cons.mp hw with rfl | hw
      · exact Vec.data_empty (hdata e List.mem_cons_self)
      · exact hrest w hw

theorem fixSections_mem {segments : Map Program} {strtab : Vec} {offset : ℕ}
    {es : List (CString × Section)} {e : CString × Section}
    (h : e ∈ (fixSections segments strtab offset es).1) :
    ∃ strtab offset sect, (e.1, sect) ∈ es ∧
      e.2 = fixSection segments strtab offset e.1 sect := by
  induction es generalizing strtab offset with
  | nil => cases h
  | cons e' es ih =>
    rcases List.mem_cons.mp h with rfl | h
    · exact ⟨strtab, offset, e'.2, List.mem_cons_self, rfl⟩
    · obtain ⟨strtab', offset', sect, hmem, heq⟩ := ih h
      exact ⟨strtab', offset', sect, List.mem_cons_of_mem _ hmem, heq⟩

theorem Vec.pushArr_hasData {v : Vec} {arr : List Byte} (h : arr ≠ []) :
    (v.pushArr arr).HasData := by
  refine ⟨?_, pushArr_capacity h⟩
  intro hlen
  have hnil := List.eq_nil_of_length_eq_zero hlen
  exact h (List.append_eq_nil_iff.mp hnil).2

theorem fixSections_strtab {segments : Map Program} {strtab : Vec} (h : strtab.HasData)
    (offset : ℕ) (es : List (CString × Section)) :
    (fixSections segments strtab offset es).2.1.HasData := by
  induction es generalizing strtab offset with
  | nil => exact h
  | cons e es ih => exact ih (Vec.pushArr_hasData (by simp [nameBytes])) _

/-! ## The whole file -/

/-- Where the section headers end. -/
def headerEnd (ctx : ElfGenCtx) : ℕ :=
  sizeofEhdr + sizeofPhdr * ctx.segments.entries.length +
    sizeofShdr * (ctx.sections.entries.length + 2)

/-- `.shstrtab`, at the running offset that the sections leave. -/
def strtabWrite (ctx : ElfGenCtx) : Write :=
  ⟨(BitVec.ofNat 32 (secondLoop ctx).2.2).toNat, (secondLoop ctx).2.1.data⟩

/-- No byte of the file is written twice, and what the headers point at is what was registered. -/
structure Laid (order : Order Section) (ctx : ElfGenCtx) : Prop where
  apart : (genElfFile order ctx {}).2.writes.Pairwise Write.Apart
  segments : ∀ e ∈ (genElfFile order ctx {}).1.segments.entries, e.2.vec.HasData →
    readAt (image (genElfFile order ctx {}).2.writes) e.2.header.pOffset.toNat
      e.2.header.pFilesz.toNat = e.2.vec.data
  sections : ∀ e ∈ (genElfFile order ctx {}).1.sections.entries, e.1 ≠ shstrtabName →
    e.2.vec.HasData →
    readAt (image (genElfFile order ctx {}).2.writes) e.2.header.shOffset.toNat
      e.2.header.shSize.toNat = e.2.vec.data
  shared : ∀ e ∈ (genElfFile order ctx {}).1.sections.entries, e.1 ≠ shstrtabName →
    ∀ program, (genElfFile order ctx {}).1.segments.get e.1 = some program →
    program.vec.HasData →
    readAt (image (genElfFile order ctx {}).2.writes) e.2.header.shOffset.toNat
      e.2.header.shSize.toNat = program.vec.data

section
variable {ps ss : List CString} {ctx : ElfGenCtx} {order : Order Section}

theorem finalized_sections (h : Registered ps ss ctx) (hname : shstrtabName ∉ ss)
    (order : Order Section) :
    (finalizeElfCtx order ctx).sections.entries.Perm
      ((secondLoop ctx).1 ++ [(shstrtabName, fixedShstrtab ctx)]) := by
  refine Map.set_entries ?_ (fixedShstrtab ctx)
  have hnames : (fixedSections ctx).names = ctx.sections.names := fixSections_names _ _ _ _
  rw [hnames, h.sections.2]
  exact hname

theorem shstrtabStart_hasData : shstrtabStart.HasData :=
  Vec.pushArr_hasData (by simp [nameBytes])

theorem writes_perm (h : Registered ps ss ctx) (hname : shstrtabName ∉ ss)
    (order : Order Section) :
    (genElfFile order ctx {}).2.writes.Perm
      (consecutive 0 (headerPieces (finalizeElfCtx order ctx)) ++
        programWrites (fixedSegments ctx).entries ++
        (sectionWrites (secondLoop ctx).1 ++ [strtabWrite ctx])) := by
  have hstrtab : (fixedShstrtab ctx).vec.capacity ≠ 0 :=
    (fixSections_strtab shstrtabStart_hasData _ _).2
  have hlast : sectionWrites [(shstrtabName, fixedShstrtab ctx)] = [strtabWrite ctx] :=
    if_neg hstrtab
  have hsections := dataWrites_perm Section.vec (fun s => s.header.shOffset)
    (finalized_sections h hname order)
  rw [dataWrites_append] at hsections
  rw [genElfFile_writes, ← hlast]
  exact hsections.append_left _

theorem headerPieces_length (h : Registered ps ss ctx) (hname : shstrtabName ∉ ss)
    (order : Order Section) :
    (headerPieces (finalizeElfCtx order ctx)).flatten.length = headerEnd ctx := by
  have hprograms : (programHeaders (finalizeElfCtx order ctx)).length =
      ctx.segments.entries.length := by
    rw [h.segments.entries_length]
    exact (genElfFile_headers h order).1
  have hsections : (sectionHeaders (finalizeElfCtx order ctx)).length =
      ctx.sections.entries.length + 2 := by
    have hlen : (shstrtabName :: ss).dedup.length = ss.dedup.length + 1 := by
      rw [List.dedup_cons_of_notMem hname, List.length_cons]
    rw [h.sections.entries_length]
    exact (genElfFile_headers h order).2.trans (congrArg (· + 1) hlen)
  rw [headerPieces, List.flatten_append, List.length_append, List.flatten_cons, List.length_append,
    Elf32Ehdr.bytes_length, programHeaders_flatten_length, sectionHeaders_flatten_length, hprograms,
    hsections, headerEnd]

theorem fixedSegments_own (hown : OwnData ctx.segments ctx.sections.entries) :
    OwnData (fixedSegments ctx) ctx.sections.entries := by
  have hnames : (fixedSegments ctx).names = ctx.segments.names := fixPrograms_names _ _
  intro e he
  rw [hnames]
  exact hown e he

theorem dataOffset_page (ctx : ElfGenCtx) : dataOffset ctx % 4096 = 0 := alignTo_mod _

theorem secondLoop_end (hown : OwnData ctx.segments ctx.sections.entries)
    (hdata : ∀ e ∈ ctx.sections.entries, ¬ e.2.vec.HasData) :
    (secondLoop ctx).2.2 = dataOffset ctx + dataPages ctx.segments.entries := by
  rw [secondLoop, fixSections_noData (fixedSegments_own hown) hdata, fixPrograms_end (dataOffset_page ctx)]

theorem fixedSegments_get {name : CString} {program : Program}
    (h : (name, program) ∈ ctx.segments.entries) :
    ∃ offset, offset % 4096 = 0 ∧ offset ≤ dataOffset ctx + dataPages ctx.segments.entries ∧
      (fixedSegments ctx).get name = some (fixProgram offset program).1 := by
  have hnames : (fixedSegments ctx).names = ctx.segments.names := fixPrograms_names _ _
  have hname : name ∈ (fixedSegments ctx).names := by
    rw [hnames]
    exact List.mem_map.mpr ⟨_, h, rfl⟩
  obtain ⟨e, he, rfl⟩ := List.mem_map.mp hname
  obtain ⟨offset, program', hpage, hle, hmem, heq⟩ := fixPrograms_mem (dataOffset_page ctx) he
  have hsame : some program' = some program := by
    rw [← Map.get_of_mem hmem, Map.get_of_mem h]
  refine ⟨offset, hpage, hle, ?_⟩
  rw [← Option.some.inj hsame, ← heq]
  exact Map.get_of_mem he

theorem strtabWrite_covers (ctx : ElfGenCtx) :
    (strtabWrite ctx).Covers (BitVec.ofNat 32 (secondLoop ctx).2.2).toNat := by
  have hdata : (secondLoop ctx).2.1.HasData := fixSections_strtab shstrtabStart_hasData _ _
  refine ⟨Nat.le_refl _, ?_⟩
  have hlen : (strtabWrite ctx).bytes.length = (secondLoop ctx).2.1.length :=
    Vec.data_length hdata.2
  have hoffset : (strtabWrite ctx).offset = (BitVec.ofNat 32 (secondLoop ctx).2.2).toNat := rfl
  have hpos := hdata.1
  omega

/-- Room for all: the headers end before the first data, and the last offset is not cut. -/
theorem writes_apart (h : Registered ps ss ctx) (hname : shstrtabName ∉ ss)
    (hown : OwnData ctx.segments ctx.sections.entries) (order : Order Section)
    (hdata : ∀ e ∈ ctx.sections.entries, ¬ e.2.vec.HasData)
    (hheaders : headerEnd ctx ≤ dataOffset ctx)
    (hfits : dataOffset ctx + dataPages ctx.segments.entries < 2^32) :
    (genElfFile order ctx {}).2.writes.Pairwise Write.Apart := by
  have hend := secondLoop_end hown hdata
  obtain ⟨hprograms, happrograms⟩ := fixPrograms_apart (dataOffset_page ctx) ctx.segments.entries hfits
  have hheader := consecutive_within 0 (headerPieces (finalizeElfCtx order ctx))
  rw [headerPieces_length h hname order] at hheader
  have hempty : ∀ w ∈ sectionWrites (secondLoop ctx).1, w.bytes = [] := fixSections_writes hdata _ _
  have hstrtab : (strtabWrite ctx).Within (dataOffset ctx + dataPages ctx.segments.entries)
      ((strtabWrite ctx).offset + (strtabWrite ctx).bytes.length) := by
    refine .inr ⟨?_, Nat.le_refl _⟩
    rw [strtabWrite, hend, toNat_ofNat_of_lt hfits]
  refine (pairwise_apart_perm (writes_perm h hname order)).mpr ?_
  refine List.pairwise_append.mpr ⟨?_, ?_, ?_⟩
  · refine List.pairwise_append.mpr ⟨consecutive_apart _ _, happrograms, ?_⟩
    intro v hv w hw
    exact ((hheader v hv).mono (Nat.le_refl _) (by omega)).apart (hprograms w hw)
  · refine List.pairwise_append.mpr ⟨?_, List.pairwise_singleton _ _, ?_⟩
    · exact List.pairwise_of_forall_mem_list fun v hv w _ => Write.apart_of_empty (hempty v hv)
    · exact fun v hv w _ => Write.apart_of_empty (hempty v hv)
  · intro v hv w hw
    rcases List.mem_append.mp hw with hw | hw
    · exact (Write.apart_of_empty (hempty w hw)).symm
    · rw [List.mem_singleton.mp hw]
      rcases List.mem_append.mp hv with hv | hv
      · exact ((hheader v hv).mono (Nat.le_refl _) (by omega)).apart hstrtab
      · exact (hprograms v hv).apart hstrtab

theorem noData_of_apart (hown : OwnData ctx.segments ctx.sections.entries)
    (hapart : (sectionWrites (secondLoop ctx).1 ++ [strtabWrite ctx]).Pairwise Write.Apart) :
    ∀ e ∈ ctx.sections.entries, ¬ e.2.vec.HasData := by
  by_contra hsome
  push Not at hsome
  obtain ⟨e, he, hdata, hoffset⟩ :=
    fixSections_own (fixedSegments_own hown) hsome shstrtabStart
      (fixPrograms (dataOffset ctx) ctx.segments.entries).2
  have hmem := mem_dataWrites Section.vec (fun s => s.header.shOffset) he hdata.2
  refine not_apart_append ⟨_, hmem, ?_⟩ ⟨_, List.mem_singleton_self _, strtabWrite_covers ctx⟩
    hapart
  have hlen := Vec.data_length hdata.2
  have hpos := hdata.1
  have hsame : e.2.header.shOffset = BitVec.ofNat 32 (secondLoop ctx).2.2 := hoffset
  rw [hsame]
  exact ⟨Nat.le_refl _, by simp only; omega⟩

theorem dataOffset_bounds (h : Registered ps ss ctx) (hps : ps.Nodup) :
    52 + 32 * ctx.segments.entries.length ≤ dataOffset ctx ∧
      dataOffset ctx < 52 + 32 * ctx.segments.entries.length + 4096 := by
  have hcount : ctx.segments.count = ctx.segments.entries.length := by
    rw [h.segments.1, h.segments.entries_length, hps.dedup]
  rw [dataOffset, alignTo_page, hcount, sizeofEhdr, sizeofPhdr]
  omega

/-- The offset of `.shstrtab`, were it cut, would be one where the headers or a segment are. -/
theorem fits_of_apart (h : Registered ps ss ctx) (hps : ps.Nodup)
    (hstrtab : (strtabWrite ctx).Covers
      ((dataOffset ctx + dataPages ctx.segments.entries) % 2^32))
    (hapart : (consecutive 0 (headerPieces (finalizeElfCtx order ctx)) ++
      programWrites (fixedSegments ctx).entries ++
      (sectionWrites (secondLoop ctx).1 ++ [strtabWrite ctx])).Pairwise Write.Apart)
    (hlen : (headerPieces (finalizeElfCtx order ctx)).flatten.length = headerEnd ctx) :
    dataOffset ctx + dataPages ctx.segments.entries < 2^32 := by
  obtain ⟨hlow, hhigh⟩ := dataOffset_bounds h hps
  have hpage := dataOffset_page ctx
  have hpages : dataPages ctx.segments.entries % 4096 = 0 := dataPages_page _
  have hheaderEnd : headerEnd ctx = 52 + 32 * ctx.segments.entries.length +
      40 * (ctx.sections.entries.length + 2) := rfl
  by_contra hlarge
  refine not_apart_append ?_ ⟨_, List.mem_append_right _ (List.mem_singleton_self _), hstrtab⟩
    hapart
  by_cases hbefore : (dataOffset ctx + dataPages ctx.segments.entries) % 2^32 < dataOffset ctx
  · have hlt : (dataOffset ctx + dataPages ctx.segments.entries) % 2^32 <
        0 + (headerPieces (finalizeElfCtx order ctx)).flatten.length := by
      rw [hlen]
      omega
    obtain ⟨w, hw, hcov⟩ := consecutive_covers (Nat.zero_le _) hlt
    exact ⟨w, List.mem_append_left _ hw, hcov⟩
  · obtain ⟨w, hw, hcov⟩ := fixPrograms_covers
      (t := (dataOffset ctx + dataPages ctx.segments.entries) % 2^32) hpage (by omega) (by omega)
      ctx.segments.entries (by omega) (by omega)
    exact ⟨w, List.mem_append_right _ hw, hcov⟩

/-- Headers that run into the data share its first byte with a segment or with `.shstrtab`. -/
theorem headers_of_apart
    (hstrtab : (strtabWrite ctx).Covers (dataOffset ctx + dataPages ctx.segments.entries))
    (hfits : dataOffset ctx + dataPages ctx.segments.entries < 2^32)
    (hapart : (consecutive 0 (headerPieces (finalizeElfCtx order ctx)) ++
      programWrites (fixedSegments ctx).entries ++
      (sectionWrites (secondLoop ctx).1 ++ [strtabWrite ctx])).Pairwise Write.Apart)
    (hlen : (headerPieces (finalizeElfCtx order ctx)).flatten.length = headerEnd ctx) :
    headerEnd ctx ≤ dataOffset ctx := by
  have hpage := dataOffset_page ctx
  by_contra hlong
  rw [List.append_assoc] at hapart
  refine not_apart_append (a := dataOffset ctx) ?_ ?_ hapart
  · refine consecutive_covers (Nat.zero_le _) ?_
    rw [hlen]
    omega
  · by_cases hpages : dataPages ctx.segments.entries = 0
    · rw [hpages, Nat.add_zero] at hstrtab
      exact ⟨_, List.mem_append_right _ (List.mem_append_right _ (List.mem_singleton_self _)),
        hstrtab⟩
    · obtain ⟨w, hw, hcov⟩ := fixPrograms_covers hpage hpage (by omega) ctx.segments.entries
        (Nat.le_refl _) (by omega)
      exact ⟨w, List.mem_append_left _ hw, hcov⟩

/-- Each of the three ways to lack room has some byte written twice. -/
theorem writes_room (h : Registered ps ss ctx) (hps : ps.Nodup) (hname : shstrtabName ∉ ss)
    (hown : OwnData ctx.segments ctx.sections.entries) (order : Order Section)
    (hapart : (genElfFile order ctx {}).2.writes.Pairwise Write.Apart) :
    (∀ e ∈ ctx.sections.entries, ¬ e.2.vec.HasData) ∧ headerEnd ctx ≤ dataOffset ctx ∧
      dataOffset ctx + dataPages ctx.segments.entries < 2^32 := by
  have hlen := headerPieces_length h hname order
  replace hapart := (pairwise_apart_perm (writes_perm h hname order)).mp hapart
  have hdata := noData_of_apart hown (List.pairwise_append.mp hapart).2.1
  have hstrtab := strtabWrite_covers ctx
  rw [BitVec.toNat_ofNat, secondLoop_end hown hdata] at hstrtab
  have hfits := fits_of_apart h hps hstrtab hapart hlen
  rw [Nat.mod_eq_of_lt hfits] at hstrtab
  exact ⟨hdata, headers_of_apart hstrtab hfits hapart hlen, hfits⟩

theorem read_segment (order : Order Section)
    (hapart : (genElfFile order ctx {}).2.writes.Pairwise Write.Apart)
    (hfits : dataPages ctx.segments.entries < 2^32) {e : CString × Program}
    (he : e ∈ (fixedSegments ctx).entries) (hdata : e.2.vec.HasData) :
    readAt (image (genElfFile order ctx {}).2.writes) e.2.header.pOffset.toNat e.2.vec.length =
        e.2.vec.data ∧
      (BitVec.ofNat 32 e.2.vec.length).toNat = e.2.vec.length ∧
      e.2.header.pFilesz = BitVec.ofNat 32 e.2.vec.length := by
  obtain ⟨hsize, hle⟩ := fixPrograms_filesz he hdata
  refine ⟨?_, toNat_ofNat_of_lt (by omega), hsize⟩
  have hmem := mem_dataWrites Program.vec (fun p => p.header.pOffset) he hdata.2
  have hwritten : ⟨e.2.header.pOffset.toNat, e.2.vec.data⟩ ∈ (genElfFile order ctx {}).2.writes := by
    rw [genElfFile_writes]
    exact List.mem_append_left _ (List.mem_append_right _ hmem)
  have hread := read_image hapart hwritten
  rw [← Vec.data_length hdata.2]
  exact hread

/-- The layout is right exactly when no section has data of its own, the headers end before the
first data, and the last offset fits its field. -/
theorem laid_iff (h : Registered ps ss ctx) (hps : ps.Nodup) (hname : shstrtabName ∉ ss)
    (hown : OwnData ctx.segments ctx.sections.entries) (order : Order Section) :
    Laid order ctx ↔
      (∀ e ∈ ctx.sections.entries, ¬ e.2.vec.HasData) ∧ headerEnd ctx ≤ dataOffset ctx ∧
        dataOffset ctx + dataPages ctx.segments.entries < 2^32 := by
  constructor
  · intro hlaid
    exact writes_room h hps hname hown order hlaid.apart
  · rintro ⟨hdata, hheaders, hfits⟩
    have hapart := writes_apart h hname hown order hdata hheaders hfits
    have hfixed (e : CString × Section)
        (he : e ∈ (genElfFile order ctx {}).1.sections.entries) (hne : e.1 ≠ shstrtabName) :
        ∃ strtab offset sect, (e.1, sect) ∈ ctx.sections.entries ∧
          e.2 = fixSection (fixedSegments ctx) strtab offset e.1 sect := by
      rcases List.mem_append.mp ((finalized_sections h hname order).mem_iff.mp he) with he | he
      · exact fixSections_mem he
      · rw [List.mem_singleton.mp he] at hne
        exact (hne rfl).elim
    refine ⟨hapart, ?_, ?_, ?_⟩
    · intro e he hdata
      obtain ⟨hread, hlen, hsize⟩ := read_segment order hapart (by omega) he hdata
      rw [hsize, hlen]
      exact hread
    · intro e he hne hdata'
      obtain ⟨strtab, offset, sect, hmem, heq⟩ := hfixed e he hne
      rw [heq, fixSection_vec] at hdata'
      exact (hdata _ hmem hdata').elim
    · intro e he hne program hget hdata
      obtain ⟨strtab, offset, sect, _, heq⟩ := hfixed e he hne
      have hfound : (fixedSegments ctx).get e.1 = some program := hget
      obtain ⟨hoffset, hsize, _⟩ := fixSection_shared hfound strtab offset sect
      obtain ⟨hread, hlen, _⟩ := read_segment order hapart (by omega) (Map.mem_of_get hfound) hdata
      rw [heq, hoffset, hsize, hlen]
      exact hread

end

/-- Bytes pushed one by one to the vector of a program, or of a section. -/
def Program.fill (bytes : List Byte) (program : Program) : Program :=
  { program with vec := bytes.foldl Vec.push program.vec }

def Section.fill (bytes : List Byte) (sect : Section) : Section :=
  { sect with vec := bytes.foldl Vec.push sect.vec }

/-- A segment with data and its section. -/
def textOnly : ElfGenCtx :=
  let ctx := genSectionHeader (.asRegistered Section)
    (genProgramHeader (.asRegistered Program) elfGenCtxInit textName { pType := ptLoad })
    textName { shType := shtProgbits }
  { ctx with segments := ctx.segments.update textName (Program.fill [1, 2, 3]) }

theorem registered_textOnly : Registered [textName] [textName] textOnly :=
  (((Registered.init).program (.asRegistered Program) textName _).sect
    (.asRegistered Section) textName _).setProgram textName _

theorem laid_textOnly : Laid (.asRegistered Section) textOnly :=
  (laid_iff registered_textOnly (by decide) (by decide) (by unfold OwnData; decide) _).mpr
    ⟨by decide, by decide, by decide⟩

/-- A section with data of its own, and no segments. -/
def ownSection : ElfGenCtx :=
  let ctx := genSectionHeader (.hashed Section) elfGenCtxInit textName
    { shType := shtProgbits }
  { ctx with sections := ctx.sections.update textName (Section.fill [1, 2, 3]) }

theorem registered_ownSection : Registered [] [textName] ownSection :=
  ((Registered.init).sect (.hashed Section) textName _).setSection textName _

/-- `.shstrtab` comes first, and the section is placed over it. -/
theorem laid_not_ownSection : ¬ Laid (.hashed Section) ownSection := by
  intro hlaid
  have hroom := writes_room registered_ownSection (by decide) (by decide)
    (by unfold OwnData; decide) (.hashed Section) hlaid.apart
  exact absurd hroom.1 (by decide)

end Bfcomp
