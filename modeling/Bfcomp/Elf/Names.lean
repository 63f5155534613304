import Bfcomp.Elf.Layout

/-! # The names of the sections

Each name goes to the end of `.shstrtab` when its section is visited, and the offset recorded for it
is the length the table had before. The table only grows, so every recorded offset stays right;
`.shstrtab` is then copied into the map and looked up there, wherever it comes to stand. What can go
wrong is only that an index or an offset does not fit its field. -/

namespace Bfcomp
set_option autoImplicit false

/-- The NUL-terminated string at `i` is `name`. -/
def HasString (data : List Byte) (i : ℕ) (name : CString) : Prop := nameBytes name <+: data.drop i

theorem hasString_append (pre : List Byte) (name : CString) (post : List Byte) :
    HasString (pre ++ (nameBytes name ++ post)) pre.length name := by
  rw [HasString, List.drop_left]
  exact List.prefix_append _ _

/-- The section names of the file that is written, where `ss` were registered. -/
structure NamesResolve (order : Order Section) (ctx : ElfGenCtx) (ss : List CString) : Prop where
  once : ((genElfFile order ctx {}).1.sections.entries.map Prod.fst).Perm (shstrtabName :: ss)
  index : ∃ i strtab, (genElfFile order ctx {}).1.elfHeader.eShstrndx.toNat = i + 1 ∧
    (sectionHeaders (genElfFile order ctx {}).1)[i + 1]? = some strtab.header.bytes ∧
    (genElfFile order ctx {}).1.sections.entries[i]? = some (shstrtabName, strtab) ∧
    strtab.header.shSize.toNat = strtab.vec.data.length ∧
    ∀ e ∈ (genElfFile order ctx {}).1.sections.entries,
      HasString strtab.vec.data e.2.header.shName.toNat e.1

/-! ## The string table -/

theorem fixSections_strtab_data (segments : Map Program) (strtab : Vec) (offset : ℕ)
    (es : List (CString × Section)) :
    (fixSections segments strtab offset es).2.1.data =
      strtab.data ++ (es.map fun e => nameBytes e.1).flatten := by
  induction es generalizing strtab offset with
  | nil => exact (List.append_nil _).symm
  | cons e es ih =>
    rw [fixSections, List.map_cons, List.flatten_cons, ← List.append_assoc]
    exact ih _ _

theorem fixSections_strtab_length {segments : Map Program} {strtab : Vec}
    (h : strtab.length = strtab.data.length) (offset : ℕ) (es : List (CString × Section)) :
    (fixSections segments strtab offset es).2.1.length =
      (fixSections segments strtab offset es).2.1.data.length := by
  induction es generalizing strtab offset with
  | nil => exact h
  | cons e es ih => exact ih rfl _

theorem fixSection_shName (segments : Map Program) (strtab : Vec) (offset : ℕ) (name : CString)
    (sect : Section) :
    (fixSection segments strtab offset name sect).header.shName = BitVec.ofNat 32 strtab.length := by
  simp only [fixSection]
  split
  · rfl
  · split <;> rfl

/-- The offset recorded for a name is where the name stands in the finished table. -/
theorem fixSections_shName {segments : Map Program} {strtab : Vec}
    (h : strtab.length = strtab.data.length) (offset : ℕ) (es : List (CString × Section)) :
    ∀ e ∈ (fixSections segments strtab offset es).1, ∃ i,
      e.2.header.shName = BitVec.ofNat 32 i ∧
        i < (fixSections segments strtab offset es).2.1.data.length ∧
        HasString (fixSections segments strtab offset es).2.1.data i e.1 := by
  induction es generalizing strtab offset with
  | nil => exact fun _ he => (List.not_mem_nil he).elim
  | cons e es ih =>
    intro e' he'
    rcases List.mem_cons.mp he' with rfl | he'
    · refine ⟨strtab.length, fixSection_shName _ _ _ _ _, ?_⟩
      rw [fixSections_strtab_data, List.map_cons, List.flatten_cons, h]
      refine ⟨?_, hasString_append _ _ _⟩
      rw [List.length_append, List.length_append, nameBytes, List.length_append,
        List.length_singleton]
      omega
    · exact ih rfl _ e' he'

/-- The length of `.shstrtab` once the names are in it. -/
def strtabLength (names : List CString) : ℕ :=
  shstrtabStart.data.length + (names.map nameBytes).flatten.length

theorem strtabLength_perm {names names' : List CString} (h : names.Perm names') :
    strtabLength names = strtabLength names' := by
  rw [strtabLength, strtabLength, (h.map nameBytes).flatten.length_eq]

theorem secondLoop_strtab_length (ctx : ElfGenCtx) :
    (secondLoop ctx).2.1.data.length = strtabLength ctx.sections.names := by
  rw [secondLoop, fixSections_strtab_data, List.length_append, strtabLength, Map.names,
    List.map_map]
  rfl

/-! ## The index -/

theorem indexOfSection_of_mem {sections : Map Section} {name : CString} {sect : Section}
    (h : (name, sect) ∈ sections.entries) :
    ∃ i : ℕ, indexOfSection sections name = i + 1 ∧
      sections.entries[i]? = some (name, sect) := by
  have hfound : (sections.entries.findIdx? fun e => e.1 = name).isSome := by
    rw [List.findIdx?_isSome, List.any_eq_true]
    exact ⟨_, h, by simp⟩
  obtain ⟨i, hi⟩ := Option.isSome_iff_exists.mp hfound
  refine ⟨i, by rw [indexOfSection, hi], ?_⟩
  obtain ⟨hlt, hname, _⟩ := List.findIdx?_eq_some_iff_getElem.mp hi
  have hmem : (name, sections.entries[i].2) ∈ sections.entries := by
    have hget := List.getElem_mem hlt
    have heq : sections.entries[i].1 = name := by simpa using hname
    rw [← heq]
    exact hget
  have hsect : some sections.entries[i].2 = some sect := by
    rw [← Map.get_of_mem hmem, Map.get_of_mem h]
  rw [List.getElem?_eq_getElem hlt, Option.some.injEq]
  exact Prod.ext (by simpa using hname) (Option.some.inj hsect)

theorem toNat_ofInt_succ {i : ℕ} (h : i + 1 < 2^16) :
    (BitVec.ofInt 16 ((i : ℤ) + 1)).toNat = i + 1 := by
  rw [BitVec.toNat_ofInt]
  omega

theorem finalized_eShstrndx (order : Order Section) (ctx : ElfGenCtx) :
    (finalizeElfCtx order ctx).elfHeader.eShstrndx =
      BitVec.ofInt 16 (indexOfSection (finalizeElfCtx order ctx).sections shstrtabName) := by
  have heq := apply_ite Elf32Ehdr.eShstrndx (ctx.segments.count ≠ 0)
    { (fixHeaderOffsets order ctx).elfHeader with
      ePhnum := BitVec.ofNat 16 ctx.segments.count
      ePhentsize := BitVec.ofNat 16 sizeofPhdr
      ePhoff := BitVec.ofNat 32 sizeofEhdr }
    (fixHeaderOffsets order ctx).elfHeader
  rw [ite_self] at heq
  exact heq

/-! ## The section table -/

section
variable {ps ss : List CString} {ctx : ElfGenCtx}

theorem finalized_names (h : Registered ps ss ctx) (order : Order Section)
    (hss : (shstrtabName :: ss).Nodup) :
    (finalizeElfCtx order ctx).sections.names.Perm (shstrtabName :: ss) := by
  have hperm := (h.finalized order).2.perm
  rwa [hss.dedup] at hperm

theorem fixedShstrtab_size (h : Registered ps ss ctx) (hss : (shstrtabName :: ss).Nodup) :
    (fixedShstrtab ctx).vec.data.length = strtabLength ss := by
  have hperm := h.sections.perm
  rw [(List.nodup_cons.mp hss).2.dedup] at hperm
  rw [← strtabLength_perm hperm]
  exact secondLoop_strtab_length ctx

theorem finalized_shName (h : Registered ps ss ctx) (hss : (shstrtabName :: ss).Nodup)
    (order : Order Section) (hsize : strtabLength ss < 2^32) :
    ∀ e ∈ (finalizeElfCtx order ctx).sections.entries,
      HasString (fixedShstrtab ctx).vec.data e.2.header.shName.toNat e.1 := by
  intro e he
  rcases List.mem_append.mp
    ((finalized_sections h (List.nodup_cons.mp hss).1 order).mem_iff.mp he) with he | he
  · obtain ⟨i, hname, hlt, hstring⟩ := fixSections_shName rfl _ _ e he
    have hlen := fixedShstrtab_size h hss
    have hlt' : i < (fixedShstrtab ctx).vec.data.length := hlt
    rw [hname, BitVec.toNat_ofNat, Nat.mod_eq_of_lt (by omega)]
    exact hstring
  · rw [List.mem_singleton.mp he]
    -- the name of `.shstrtab` itself was there from the start
    have hdata : (fixedShstrtab ctx).vec.data = shstrtabStart.data ++
        (ctx.sections.entries.map fun e => nameBytes e.1).flatten := fixSections_strtab_data _ _ _ _
    have hstart : shstrtabStart.data = [0] ++ nameBytes shstrtabName := rfl
    rw [hdata, hstart, List.append_assoc]
    exact hasString_append [0] shstrtabName _

/-- The names resolve, as long as the index fits 16 bits and the table 32. -/
theorem names_resolve (h : Registered ps ss ctx) (hss : (shstrtabName :: ss).Nodup)
    (order : Order Section) (hindex : ss.length + 1 < 2^16) (hsize : strtabLength ss < 2^32) :
    NamesResolve order ctx ss := by
  have hperm := finalized_names h order hss
  have hmem : (shstrtabName, fixedShstrtab ctx) ∈ (finalizeElfCtx order ctx).sections.entries :=
    (finalized_sections h (List.nodup_cons.mp hss).1 order).mem_iff.mpr
      (List.mem_append_right _ (List.mem_singleton_self _))
  obtain ⟨i, hi, hget⟩ := indexOfSection_of_mem hmem
  refine ⟨hperm, i, fixedShstrtab ctx, ?_, ?_, hget, ?_, finalized_shName h hss order hsize⟩
  · have hlt : i < ss.length + 1 := by
      have hlen := hperm.length_eq
      rw [Map.names, List.length_map, List.length_cons] at hlen
      rw [← hlen]
      exact (List.getElem?_eq_some_iff.mp hget).1
    have heq := finalized_eShstrndx order ctx
    rw [hi] at heq
    exact (congrArg BitVec.toNat heq).trans (toNat_ofInt_succ (by omega))
  · rw [sectionHeaders, List.getElem?_cons_succ, List.getElem?_map]
    exact congrArg (Option.map _) hget
  · have hlen : (fixedShstrtab ctx).vec.length = (fixedShstrtab ctx).vec.data.length :=
      fixSections_strtab_length rfl _ _
    have hsh : (fixedShstrtab ctx).header.shSize = BitVec.ofNat 32 (fixedShstrtab ctx).vec.length :=
      rfl
    have hfit := fixedShstrtab_size h hss
    rw [hsh, hlen, toNat_ofNat_of_lt (by omega)]

/-- Where the entries stay in the order of registration, `.shstrtab` is the last. -/
theorem shstrndx_last (h : Registered ps ss ctx) (hss : (shstrtabName :: ss).Nodup) :
    (finalizeElfCtx (.asRegistered Section) ctx).elfHeader.eShstrndx =
      BitVec.ofInt 16 (ss.length + 1) := by
  have hnames : (fixedSections ctx).names = ctx.sections.names := fixSections_names _ _ _ _
  have hfresh : shstrtabName ∉ (fixedSections ctx).names := by
    rw [hnames, h.sections.2]
    exact (List.nodup_cons.mp hss).1
  have hentries : (finalizeElfCtx (.asRegistered Section) ctx).sections.entries =
      (fixedSections ctx).entries ++ [(shstrtabName, fixedShstrtab ctx)] :=
    congrArg Map.entries (dif_neg hfresh)
  have hlen : (fixedSections ctx).entries.length = ss.length := by
    have hperm := h.sections.perm
    rw [(List.nodup_cons.mp hss).2.dedup] at hperm
    rw [← hperm.length_eq, ← hnames, Map.names, List.length_map]
  have hmem : (shstrtabName, fixedShstrtab ctx) ∈
      (finalizeElfCtx (.asRegistered Section) ctx).sections.entries := by
    rw [hentries]
    exact List.mem_append_right _ List.mem_cons_self
  obtain ⟨i, hi, hget⟩ := indexOfSection_of_mem hmem
  have hlast : i = ss.length := by
    rw [hentries] at hget
    have hlt := (List.getElem?_eq_some_iff.mp hget).1
    rw [List.length_append, List.length_singleton, hlen] at hlt
    by_contra hne
    rw [List.getElem?_append_left (by omega)] at hget
    exact hfresh (List.mem_map.mpr ⟨_, List.mem_of_getElem? hget, rfl⟩)
  rw [finalized_eShstrndx, hi, hlast]

end

/-- Sections under these names, the last one first, in the order of the hash table. -/
def hashedSections : List CString → ElfGenCtx
  | [] => elfGenCtxInit
  | name :: ss => genSectionHeader (.hashed Section) (hashedSections ss) name { shType := shtProgbits }

theorem registered_hashedSections (ss : List CString) : Registered [] ss (hashedSections ss) := by
  induction ss with
  | nil => exact .init
  | cons name ss ih => exact ih.sect _ _ _

def dataName : CString := ⟨['.', 'd', 'a', 't', 'a'].map ascii, by decide, by decide⟩

def rodataName : CString := ⟨['.', 'r', 'o', 'd', 'a', 't', 'a'].map ascii, by decide, by decide⟩

def fourNames : List CString := [rodataName, dataName, bssName, textName]

/-- The table grows when `.shstrtab` is inserted, and the order changes. -/
theorem names_resolve_hashed :
    (hashedSections fourNames).sections.names = [bssName, rodataName, textName, dataName] ∧
    (finalizeElfCtx (.hashed Section) (hashedSections fourNames)).sections.names =
      [bssName, shstrtabName, dataName, rodataName, textName] ∧
    NamesResolve (.hashed Section) (hashedSections fourNames) fourNames :=
  ⟨by decide +kernel, by decide +kernel,
    names_resolve (registered_hashedSections fourNames) (by decide) _ (by decide) (by decide)⟩

/-- A name of any length below `2^16`. -/
def unaryName (n : Fin (2^16)) : CString where
  bytes := List.replicate n (ascii 's')
  nulFree := by
    intro h
    exact absurd (List.eq_of_mem_replicate h) (by decide)
  fits := by
    rw [List.length_replicate]
    omega

theorem unaryName_injective : Function.Injective unaryName := by
  intro a b h
  have hlen := congrArg (fun c : CString => c.bytes.length) h
  simp only [unaryName, List.length_replicate] at hlen
  exact Fin.ext hlen

/-- The names of the first `n` lengths, the last one first. -/
def manyNames (n : ℕ) : List CString := ((List.range n).map fun k => unaryName (.ofNat _ k)).reverse

/-- Sections under these names. -/
def manySections : ℕ → ElfGenCtx
  | 0 => elfGenCtxInit
  | n + 1 => genSectionHeader (.asRegistered Section) (manySections n) (unaryName (.ofNat _ n))
      { shType := shtProgbits }

theorem registered_manySections (n : ℕ) : Registered [] (manyNames n) (manySections n) := by
  induction n with
  | zero => exact .init
  | succ n ih =>
    have hnames : manyNames (n + 1) = unaryName (.ofNat _ n) :: manyNames n := by
      rw [manyNames, List.range_succ, List.map_append, List.reverse_append]
      rfl
    rw [hnames]
    exact ih.sect _ _ _

theorem manyNames_nodup {n : ℕ} (h : n ≤ 2^16) : (shstrtabName :: manyNames n).Nodup := by
  refine List.nodup_cons.mpr ⟨?_, ?_⟩
  · intro hmem
    obtain ⟨k, _, hk⟩ := List.mem_map.mp (List.mem_reverse.mp hmem)
    have hdot : ascii '.' ∈ (unaryName (.ofNat _ k)).bytes := by
      rw [hk]
      decide
    exact absurd (List.eq_of_mem_replicate hdot) (by decide)
  · refine List.nodup_reverse.mpr (List.Nodup.map_on ?_ List.nodup_range)
    intro a ha b hb heq
    have hval := congrArg Fin.val (unaryName_injective heq)
    rw [List.mem_range] at ha hb
    rw [Fin.val_ofNat, Fin.val_ofNat, Nat.mod_eq_of_lt (by omega), Nat.mod_eq_of_lt (by omega)] at hval
    exact hval

/-- With 65535 sections the index of `.shstrtab` is cut to that of the NULL header. -/
theorem names_resolve_not_many :
    ¬ NamesResolve (.asRegistered Section) (manySections 65535) (manyNames 65535) := by
  rintro ⟨_, i, _, hi, _⟩
  have hlast := shstrndx_last (registered_manySections 65535) (manyNames_nodup (by decide))
  have hlen : (manyNames 65535).length = 65535 := by
    rw [manyNames, List.length_reverse, List.length_map, List.length_range]
  rw [hlen] at hlast
  have hzero : (BitVec.ofInt 16 ((65535 : ℕ) + 1)).toNat = 0 := by decide
  exact absurd (hi.symm.trans ((congrArg BitVec.toNat hlast).trans hzero)) (by omega)

end Bfcomp
