import Bfcomp.Foundations.Rounding
import Bfcomp.Foundations.Words
import Mathlib.Data.List.Nodup

/-! # ELF headers, and the containers that hold them

The 32-bit headers of `elf.h` and their bytes, and as much of `rxi/vec.h` and `rxi/map.h` as the
writer of ELF files uses. -/

namespace Bfcomp
set_option autoImplicit false

/-! ## Headers -/

structure Elf32Ehdr where
  eIdent : List Byte
  eType : BitVec 16 := 0
  eMachine : BitVec 16 := 0
  eVersion : BitVec 32 := 0
  eEntry : BitVec 32 := 0
  ePhoff : BitVec 32 := 0
  eShoff : BitVec 32 := 0
  eFlags : BitVec 32 := 0
  eEhsize : BitVec 16 := 0
  ePhentsize : BitVec 16 := 0
  ePhnum : BitVec 16 := 0
  eShentsize : BitVec 16 := 0
  eShnum : BitVec 16 := 0
  eShstrndx : BitVec 16 := 0
  identLength : eIdent.length = 16 := by decide

structure Elf32Phdr where
  pType : BitVec 32 := 0
  pOffset : BitVec 32 := 0
  pVaddr : BitVec 32 := 0
  pPaddr : BitVec 32 := 0
  pFilesz : BitVec 32 := 0
  pMemsz : BitVec 32 := 0
  pFlags : BitVec 32 := 0
  pAlign : BitVec 32 := 0

structure Elf32Shdr where
  shName : BitVec 32 := 0
  shType : BitVec 32 := 0
  shFlags : BitVec 32 := 0
  shAddr : BitVec 32 := 0
  shOffset : BitVec 32 := 0
  shSize : BitVec 32 := 0
  shLink : BitVec 32 := 0
  shInfo : BitVec 32 := 0
  shAddralign : BitVec 32 := 0
  shEntsize : BitVec 32 := 0

def Elf32Ehdr.bytes (h : Elf32Ehdr) : List Byte :=
  h.eIdent ++ le16 h.eType ++ le16 h.eMachine ++ le32 h.eVersion ++ le32 h.eEntry ++
    le32 h.ePhoff ++ le32 h.eShoff ++ le32 h.eFlags ++ le16 h.eEhsize ++ le16 h.ePhentsize ++
    le16 h.ePhnum ++ le16 h.eShentsize ++ le16 h.eShnum ++ le16 h.eShstrndx

def Elf32Phdr.bytes (h : Elf32Phdr) : List Byte :=
  le32 h.pType ++ le32 h.pOffset ++ le32 h.pVaddr ++ le32 h.pPaddr ++ le32 h.pFilesz ++
    le32 h.pMemsz ++ le32 h.pFlags ++ le32 h.pAlign

def Elf32Shdr.bytes (h : Elf32Shdr) : List Byte :=
  le32 h.shName ++ le32 h.shType ++ le32 h.shFlags ++ le32 h.shAddr ++ le32 h.shOffset ++
    le32 h.shSize ++ le32 h.shLink ++ le32 h.shInfo ++ le32 h.shAddralign ++ le32 h.shEntsize

def sizeofEhdr : ℕ := 52
def sizeofPhdr : ℕ := 32
def sizeofShdr : ℕ := 40

@[simp] theorem Elf32Ehdr.bytes_length (h : Elf32Ehdr) : h.bytes.length = sizeofEhdr := by
  simp [bytes, h.identLength, sizeofEhdr]

@[simp] theorem Elf32Phdr.bytes_length (h : Elf32Phdr) : h.bytes.length = sizeofPhdr := rfl

@[simp] theorem Elf32Shdr.bytes_length (h : Elf32Shdr) : h.bytes.length = sizeofShdr := rfl

def etExec : BitVec 16 := 2
def em386 : BitVec 16 := 3
def evCurrent : BitVec 32 := 1
def ptLoad : BitVec 32 := 1
def pfX : BitVec 32 := 1
def pfW : BitVec 32 := 2
def pfR : BitVec 32 := 4
def shtNull : BitVec 32 := 0
def shtProgbits : BitVec 32 := 1
def shtStrtab : BitVec 32 := 3
def shtNobits : BitVec 32 := 8
def shfWrite : BitVec 32 := 1
def shfAlloc : BitVec 32 := 2
def shfExecinstr : BitVec 32 := 4
def shfStrings : BitVec 32 := 32

/-! ## Page rounding -/

def pageSize : ℕ := 4096

/-- The macro `align_to`: adding `align - 1` and clearing the bits of `align - 1`. -/
def alignTo (val align : ℕ) : ℕ :=
  let sum := val + align - 1
  sum - (sum &&& (align - 1))

theorem alignTo_two_pow (n k : ℕ) : alignTo n (2^k) = (n + 2^k - 1) / 2^k * 2^k :=
  sub_low_bits (n + 2^k - 1) k

theorem alignTo_page (x : ℕ) : alignTo x pageSize = (x + 4095) / 4096 * 4096 :=
  alignTo_two_pow x 12

theorem le_alignTo (x : ℕ) : x ≤ alignTo x pageSize := by
  rw [alignTo_page]
  omega

theorem alignTo_mod (x : ℕ) : alignTo x pageSize % 4096 = 0 := by
  rw [alignTo_page]
  omega

/-- From a page boundary on, rounding the end is rounding the length. -/
theorem alignTo_add {x : ℕ} (h : x % 4096 = 0) (n : ℕ) :
    alignTo (x + n) pageSize = x + alignTo n pageSize := by
  rw [alignTo_page, alignTo_page]
  omega

/-! ## Vectors -/

theorem Vec.init_holds : (0 : ℕ) ≠ 0 → ([] : List Byte).length = 0 := fun h => (h rfl).elim

theorem Vec.init_empty : (0 : ℕ) = 0 → ([] : List Byte) = [] := fun _ => rfl

/-- A `vec_t(uint8_t)`. Without a buffer it has no data, and its length may have been set to
anything. -/
structure Vec where
  data : List Byte := []
  length : ℕ := 0
  capacity : ℕ := 0
  holds : capacity ≠ 0 → data.length = length := by first | exact Vec.init_holds | decide
  empty : capacity = 0 → data = [] := by first | exact Vec.init_empty | decide

namespace Vec

/-- The vector has something to write. -/
def HasData (v : Vec) : Prop := v.length ≠ 0 ∧ v.capacity ≠ 0

instance (v : Vec) : Decidable v.HasData := instDecidableAnd

/-- The capacity after `vec_reserve_po2_`. -/
def reservePo2 (capacity n : ℕ) : ℕ := if n = 0 then capacity else max capacity n.nextPowerOfTwo

theorem reservePo2_eq_zero {capacity n : ℕ} (h : reservePo2 capacity n = 0) :
    capacity = 0 ∧ n = 0 := by
  have hpos := Nat.pos_of_isPowerOfTwo (Nat.isPowerOfTwo_nextPowerOfTwo n)
  unfold reservePo2 at h
  split at h
  · exact ⟨h, ‹_›⟩
  · omega

/-- `vec_pusharr`, on a vector that holds its data. -/
def pushArr (v : Vec) (arr : List Byte) : Vec where
  data := v.data ++ arr
  length := (v.data ++ arr).length
  capacity := reservePo2 v.capacity (v.length + arr.length)
  holds := fun _ => rfl
  empty := by
    intro h
    obtain ⟨hcap, hlen⟩ := reservePo2_eq_zero h
    have harr : arr = [] := List.eq_nil_of_length_eq_zero (by omega)
    rw [v.empty hcap, harr, List.append_nil]

/-- `vec_push`, on a vector that holds its data. -/
def push (v : Vec) (b : Byte) : Vec where
  data := v.data ++ [b]
  length := (v.data ++ [b]).length
  capacity :=
    if v.length + 1 > v.capacity then if v.capacity = 0 then 1 else v.capacity * 2
    else v.capacity
  holds := fun _ => rfl
  empty := by
    intro h
    split at h
    · split at h <;> omega
    · omega

/-- Bytes stored over those from `i` on. -/
def patch (v : Vec) (i : ℕ) (bytes : List Byte) (h : i + bytes.length ≤ v.data.length) : Vec where
  data := v.data.take i ++ bytes ++ v.data.drop (i + bytes.length)
  length := v.length
  capacity := v.capacity
  holds := by
    intro hcap
    rw [← v.holds hcap, List.length_append, List.length_append, List.length_take, List.length_drop]
    omega
  empty := by
    intro hcap
    have hdata := v.empty hcap
    rw [hdata, List.length_nil] at h
    have hbytes : bytes = [] := List.eq_nil_of_length_eq_zero (by omega)
    rw [hdata, hbytes, List.take_nil, List.drop_nil]
    rfl

theorem pushArr_capacity {v : Vec} {arr : List Byte} (h : arr ≠ []) :
    (v.pushArr arr).capacity ≠ 0 := by
  intro hcap
  have hlen := (reservePo2_eq_zero hcap).2
  exact h (List.eq_nil_of_length_eq_zero (by omega))

end Vec

/-! ## Maps -/

/-- A `map_t`, with its entries in the order in which `map_next` visits them. `count` is what the
macros count: every `map_set` adds to it. -/
structure Map (V : Type) where
  entries : List (CString × V) := []
  count : ℕ := 0
  nodup : (entries.map Prod.fst).Nodup := by exact List.nodup_nil

/-- The order in which a map visits its entries once an entry is added: any order. -/
structure Order (V : Type) where
  visit : List (CString × V) → List (CString × V)
  perm : ∀ l, (visit l).Perm l

/-- The order of registration. -/
def Order.asRegistered (V : Type) : Order V := ⟨fun l => l, fun l => .refl l⟩

namespace Map
variable {V : Type}

def names (m : Map V) : List CString := m.entries.map Prod.fst

/-- `map_get`. -/
def get (m : Map V) (name : CString) : Option V :=
  (m.entries.find? fun e => e.1 = name).map Prod.snd

theorem map_fst_update (l : List (CString × V)) (name : CString) (f : V → V) :
    (l.map fun e => if e.1 = name then (e.1, f e.2) else e).map Prod.fst = l.map Prod.fst := by
  rw [List.map_map]
  refine List.map_congr_left fun e _ => ?_
  simp only [Function.comp_apply]
  split <;> rfl

/-- A change through the pointer that `map_get` returns. -/
def update (m : Map V) (name : CString) (f : V → V) : Map V where
  entries := m.entries.map fun e => if e.1 = name then (e.1, f e.2) else e
  count := m.count
  nodup := by
    rw [map_fst_update]
    exact m.nodup

/-- `map_set`. -/
def set (order : Order V) (m : Map V) (name : CString) (value : V) : Map V :=
  if h : name ∈ m.names then { m.update name fun _ => value with count := m.count + 1 }
  else
    { entries := order.visit (m.entries ++ [(name, value)])
      count := m.count + 1
      nodup := by
        rw [((order.perm _).map Prod.fst).nodup_iff, List.map_append]
        exact List.nodup_append.mpr ⟨m.nodup, List.nodup_singleton _, by
          intro a ha b hb hab
          rw [List.map_singleton, List.mem_singleton] at hb
          rw [hab, hb] at ha
          exact h ha⟩ }

theorem set_entries {order : Order V} {m : Map V} {name : CString} (h : name ∉ m.names)
    (value : V) : (m.set order name value).entries.Perm (m.entries ++ [(name, value)]) := by
  rw [set, dif_neg h]
  exact order.perm _

theorem set_perm (order : Order V) {m : Map V} {l : List (CString × V)} (hl : m.entries.Perm l)
    {name : CString} (h : name ∉ l.map Prod.fst) (value : V) :
    (m.set order name value).entries.Perm (l ++ [(name, value)]) := by
  have hfresh : name ∉ m.names := fun hmem => h ((hl.map Prod.fst).mem_iff.mp hmem)
  exact (set_entries hfresh value).trans (hl.append_right _)

theorem update_perm {m : Map V} {l : List (CString × V)} (h : m.entries.Perm l) (name : CString)
    (f : V → V) :
    (m.update name f).entries.Perm (l.map fun e => if e.1 = name then (e.1, f e.2) else e) :=
  h.map _

@[simp] theorem set_count (order : Order V) (m : Map V) (name : CString) (value : V) :
    (m.set order name value).count = m.count + 1 := by
  unfold set
  split <;> rfl

theorem find_of_mem {l : List (CString × V)} (hnodup : (l.map Prod.fst).Nodup) {name : CString}
    {value : V} (h : (name, value) ∈ l) :
    l.find? (fun e => e.1 = name) = some (name, value) := by
  induction l with
  | nil => cases h
  | cons e l ih =>
    rw [List.map_cons, List.nodup_cons] at hnodup
    rcases List.mem_cons.mp h with rfl | h
    · exact List.find?_cons_of_pos (by simp)
    · have hne : e.1 ≠ name := by
        rintro rfl
        exact hnodup.1 (List.mem_map.mpr ⟨_, h, rfl⟩)
      rw [List.find?_cons_of_neg (by simpa using hne)]
      exact ih hnodup.2 h

theorem get_of_mem {m : Map V} {name : CString} {value : V} (h : (name, value) ∈ m.entries) :
    m.get name = some value := by
  rw [get, find_of_mem m.nodup h]
  rfl

theorem mem_of_get {m : Map V} {name : CString} {value : V} (h : m.get name = some value) :
    (name, value) ∈ m.entries := by
  unfold get at h
  obtain ⟨e, he, rfl⟩ := Option.map_eq_some_iff.mp h
  have hname : e.1 = name := by simpa using List.find?_some he
  rw [← hname]
  exact List.mem_of_find?_eq_some he

theorem get_eq_none {m : Map V} {name : CString} : m.get name = none ↔ name ∉ m.names := by
  rw [get, Option.map_eq_none_iff, List.find?_eq_none]
  constructor
  · intro h hname
    obtain ⟨e, he, heq⟩ := List.mem_map.mp hname
    exact h e he (by simpa using heq)
  · intro h e he heq
    exact h (List.mem_map.mpr ⟨e, he, by simpa using heq⟩)

/-- A map is determined, up to its order, by what it finds under its names. -/
theorem entries_perm {m : Map V} {l : List (CString × V)} (hnames : m.names.Perm (l.map Prod.fst))
    (hget : ∀ e ∈ l, m.get e.1 = some e.2) : m.entries.Perm l := by
  have hl : (l.map Prod.fst).Nodup := hnames.nodup_iff.mp m.nodup
  refine (List.perm_ext_iff_of_nodup m.nodup.of_map hl.of_map).mpr fun e => ?_
  constructor
  · intro he
    have hname : e.1 ∈ l.map Prod.fst := hnames.mem_iff.mp (List.mem_map.mpr ⟨e, he, rfl⟩)
    obtain ⟨e', he', hfst⟩ := List.mem_map.mp hname
    have hfound := hget e' he'
    have hmem : (e.1, e.2) ∈ m.entries := he
    rw [hfst, get_of_mem hmem, Option.some.injEq] at hfound
    rwa [Prod.ext hfst.symm hfound]
  · exact fun he => mem_of_get (hget e he)

end Map
end Bfcomp
