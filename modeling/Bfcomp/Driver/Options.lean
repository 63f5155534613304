import Bfcomp.Driver.Main
import Mathlib.Data.List.DropRight

/-! # The options (`options.c`)

What `getopt_long` returns from call to call, and the arguments it leaves from `optind` on, are given.
Without a name for the executable, it is cut out of the path of the source: from behind the last slash
to the last dot, wherever that is. -/

namespace Bfcomp
set_option autoImplicit false

/-! ## The C strings -/

/-- The place of the last `c`. -/
def strrchr (c : Byte) : List Byte → Option ℕ
  | [] => none
  | x :: s =>
    match strrchr c s with
    | some k => some (k + 1)
    | none => if x = c then some 0 else none

/-- The string of `len` bytes from `start` on. -/
def CString.slice (s : CString) (start len : ℕ) : CString where
  bytes := (s.bytes.drop start).take len
  nulFree := fun h => s.nulFree (List.mem_of_mem_drop (List.mem_of_mem_take h))
  fits := by
    have hfits := s.fits
    rw [List.length_take, List.length_drop]
    omega

/-! ## `parse_options` -/

/-- A result of `getopt_long`; `other` is what it returns for an option that is not known or has no
argument. -/
inductive Opt where
  | c
  | d
  | o (optarg : CString)
  | other
  deriving DecidableEq

/-- `options_t`. -/
structure OptionsT where
  inputName : Option CString
  outputName : Option CString
  dumpIr : Bool

/-- The `while` loop, with `compiling`; `none` is the jump to `error_ret`. -/
def optionLoop : List Opt → Bool → OptionsT → Option (Bool × OptionsT)
  | [], compiling, options => some (compiling, options)
  | .c :: opts, _, options => optionLoop opts true options
  | .d :: opts, compiling, options => optionLoop opts compiling { options with dumpIr := true }
  | .o optarg :: opts, compiling, options =>
    optionLoop opts compiling { options with outputName := some optarg }
  | .other :: _, _, _ => none

def outputStart (inputName : CString) : ℕ :=
  match strrchr (ascii '/') inputName.bytes with
  | some k => k + 1
  | none => 0

def outputEnd (inputName : CString) : ℕ :=
  match strrchr (ascii '.') inputName.bytes with
  | some k => if k ≠ 0 then k else inputName.bytes.length
  | none => inputName.bytes.length

/-- The name cut out of the path; `none` is the copy of a negative number of bytes. -/
def defaultName (inputName : CString) : Option CString :=
  if outputStart inputName ≤ outputEnd inputName then
    some (inputName.slice (outputStart inputName) (outputEnd inputName - outputStart inputName))
  else none

/-- How `parse_options` returns: with the options, or with 1 and what it has printed. -/
inductive Parsed where
  | ok (options : OptionsT)
  | failed (stderr : List Byte)

def text (s : String) : List Byte := s.toList.map ascii

/-- `parse_options`, on the options that `main` gives it. `opts` are the results of `getopt_long`, and
`args` are the arguments after the options; `none` is undefined behaviour. -/
def parseOptions (opts : List Opt) (args : List CString) : Option Parsed :=
  match optionLoop opts false ⟨none, none, false⟩ with
  | none => some (.failed (text "error parsing arguments\n"))
  | some (compiling, options) =>
    match args with
    | [] => some (.failed (text "missing file argument\n"))
    | inputName :: extra =>
      let options := { options with inputName := some inputName }
      let named : Option OptionsT :=
        if compiling ∧ options.outputName = none then
          (defaultName inputName).map fun name => { options with outputName := some name }
        else some options
      named.map fun options =>
        if extra = [] then .ok options
        else .failed (text "extra arguments:" ++
          (extra.flatMap fun arg => text " '" ++ arg.bytes ++ text "'") ++ text "\n")

/-! ## The name of the executable -/

/-- What comes after the last slash of a path. -/
def lastComponent (path : List Byte) : List Byte := path.rtakeWhile (· ≠ ascii '/')

/-- What comes before the last dot of a component, if it has one. -/
def stem (component : List Byte) : List Byte :=
  if component.contains (ascii '.') then (component.rdropWhile (· ≠ ascii '.')).dropLast
  else component

section
variable {c : Byte} {s u w : List Byte}

theorem strrchr_of_notMem (h : c ∉ s) : strrchr c s = none := by
  induction s with
  | nil => rfl
  | cons x s ih =>
    rw [List.mem_cons, not_or] at h
    rw [strrchr, ih h.2]
    exact if_neg (Ne.symm h.1)

theorem strrchr_append (h : c ∉ w) : strrchr c (u ++ c :: w) = some u.length := by
  induction u with
  | nil =>
    rw [List.nil_append, strrchr, strrchr_of_notMem h]
    exact if_pos rfl
  | cons x u ih =>
    rw [List.cons_append, strrchr, ih]
    rfl

/-- A list that has `c` in it, cut at the last one. -/
theorem exists_last (h : c ∈ s) : ∃ u w, s = u ++ c :: w ∧ c ∉ w := by
  obtain ⟨w, u, hs, hw⟩ := List.eq_append_cons_of_mem (List.mem_reverse.mpr h)
  refine ⟨u.reverse, w.reverse, ?_, fun hc => hw (List.mem_reverse.mp hc)⟩
  rw [← List.reverse_reverse s, hs]
  simp

theorem rtakeWhile_ne_append (h : c ∉ w) : (u ++ c :: w).rtakeWhile (· ≠ c) = w := by
  have hw : ∀ x ∈ w.reverse, decide (x ≠ c) = true := by
    intro x hx
    have hne : x ≠ c := by
      rintro rfl
      exact h (List.mem_reverse.mp hx)
    simpa using hne
  rw [List.rtakeWhile, List.reverse_append, List.reverse_cons, List.append_assoc,
    List.takeWhile_append_of_pos hw]
  simp

theorem rdropWhile_ne_append (h : c ∉ w) : (u ++ c :: w).rdropWhile (· ≠ c) = u ++ [c] := by
  have hsplit : (u ++ c :: w).rdropWhile (· ≠ c) ++ (u ++ c :: w).rtakeWhile (· ≠ c) =
      u ++ c :: w := List.rdropWhile_append_rtakeWhile
  rw [rtakeWhile_ne_append h, List.append_cons u c w] at hsplit
  rw [List.append_cons]
  exact List.append_cancel_right hsplit

theorem stem_append (h : ascii '.' ∉ w) : stem (u ++ ascii '.' :: w) = u := by
  rw [stem, if_pos (by simp), rdropWhile_ne_append h, List.dropLast_concat]

end

section
variable {path : CString}

theorem outputStart_spec (path : CString) :
    ∃ dir, path.bytes = dir ++ lastComponent path.bytes ∧ outputStart path = dir.length := by
  unfold outputStart
  by_cases h : ascii '/' ∈ path.bytes
  · obtain ⟨u, w, hs, hw⟩ := exists_last h
    refine ⟨u ++ [ascii '/'], ?_, ?_⟩
    · rw [lastComponent, hs, rtakeWhile_ne_append hw]
      simp
    · rw [hs, strrchr_append hw, List.length_append, List.length_singleton]
  · refine ⟨[], ?_, by rw [strrchr_of_notMem h]; rfl⟩
    rw [List.nil_append, lastComponent, List.rtakeWhile_eq_self_iff.mpr]
    intro x hx
    have hne : x ≠ ascii '/' := by
      rintro rfl
      exact h hx
    simpa using hne

/-- Only dots behind the first byte count. -/
theorem outputEnd_of_notMem (h : ascii '.' ∉ path.bytes.tail) :
    outputEnd path = path.bytes.length := by
  unfold outputEnd
  by_cases hmem : ascii '.' ∈ path.bytes
  · obtain ⟨u, w, hs, hw⟩ := exists_last hmem
    have hu : u = [] := by
      cases u with
      | nil => rfl
      | cons x u =>
        rw [hs] at h
        simp at h
    rw [hs, strrchr_append hw, hu]
    rfl
  · rw [strrchr_of_notMem hmem]

theorem outputEnd_append {u w : List Byte} (hs : path.bytes = u ++ ascii '.' :: w)
    (hw : ascii '.' ∉ w) (h : ascii '.' ∈ path.bytes.tail) : outputEnd path = u.length := by
  have hu : u.length ≠ 0 := by
    intro hu
    rw [List.length_eq_zero_iff] at hu
    rw [hs, hu] at h
    exact hw h
  unfold outputEnd
  rw [hs, strrchr_append hw]
  exact if_pos hu

/-- A name of negative length: the last dot belongs to a directory. -/
theorem outputEnd_lt_iff (path : CString) : outputEnd path < outputStart path ↔
    ascii '.' ∈ path.bytes.tail ∧ ascii '.' ∉ lastComponent path.bytes := by
  obtain ⟨dir, hpath, hstart⟩ := outputStart_spec path
  rw [hstart]
  by_cases h : ascii '.' ∈ path.bytes.tail
  · rw [and_iff_right h]
    by_cases hcomp : ascii '.' ∈ lastComponent path.bytes
    · obtain ⟨u, w, hs, hw⟩ := exists_last hcomp
      have hend : outputEnd path = (dir ++ u).length := by
        refine outputEnd_append ?_ hw h
        rw [List.append_assoc, ← hs]
        exact hpath
      rw [hend, List.length_append]
      exact iff_of_false (by omega) (fun hno => hno hcomp)
    · have hdir : ascii '.' ∈ dir := by
        have hmem := List.mem_of_mem_tail h
        rw [hpath] at hmem
        exact (List.mem_append.mp hmem).resolve_right hcomp
      obtain ⟨u, w, hs, hw⟩ := exists_last hdir
      have hend : outputEnd path = u.length := by
        refine outputEnd_append (w := w ++ lastComponent path.bytes) ?_ ?_ h
        · rw [← List.cons_append, ← List.append_assoc, ← hs]
          exact hpath
        · rw [List.mem_append, not_or]
          exact ⟨hw, hcomp⟩
      rw [hend, hs, List.length_append, List.length_cons]
      exact iff_of_true (by omega) hcomp
  · have hlen := congrArg List.length hpath
    rw [List.length_append] at hlen
    rw [outputEnd_of_notMem h]
    exact iff_of_false (by omega) (fun hno => h hno.1)

theorem defaultName_eq (hdot : ascii '.' ∈ lastComponent path.bytes ∨ ascii '.' ∉ path.bytes.tail) :
    ∃ name, defaultName path = some name ∧
      name.bytes = if ascii '.' ∈ path.bytes.tail then stem (lastComponent path.bytes)
        else lastComponent path.bytes := by
  obtain ⟨dir, hpath, hstart⟩ := outputStart_spec path
  have hle : outputStart path ≤ outputEnd path := by
    rw [← Nat.not_lt, outputEnd_lt_iff]
    rintro ⟨htail, hcomp⟩
    exact hdot.elim hcomp fun h => h htail
  have hdrop : path.bytes.drop (outputStart path) = lastComponent path.bytes := by
    rw [hstart]
    conv_lhs => rw [hpath]
    exact List.drop_left
  refine ⟨_, if_pos hle, ?_⟩
  simp only [CString.slice]
  rw [hdrop]
  split
  · obtain ⟨u, w, hs, hw⟩ := exists_last (hdot.resolve_right fun h => h ‹_›)
    have hend : outputEnd path = (dir ++ u).length := by
      refine outputEnd_append ?_ hw ‹_›
      rw [List.append_assoc, ← hs]
      exact hpath
    rw [hend, hstart, List.length_append, Nat.add_sub_cancel_left, hs, stem_append hw]
    exact List.take_left
  · have hlen := congrArg List.length hpath
    rw [List.length_append] at hlen
    rw [outputEnd_of_notMem ‹_›, hstart, hlen, Nat.add_sub_cancel_left, List.take_length]

end

/-! ## Options that compile -/

theorem optionLoop_unnamed {opts : List Opt} (hopts : ∀ opt ∈ opts, opt = .c ∨ opt = .d)
    (compiling : Bool) (options : OptionsT) : ∃ dumpIr, optionLoop opts compiling options =
      some (compiling || decide (Opt.c ∈ opts), { options with dumpIr }) := by
  induction opts generalizing compiling options with
  | nil => exact ⟨options.dumpIr, by simp [optionLoop]⟩
  | cons opt opts ih =>
    rw [List.forall_mem_cons] at hopts
    rcases hopts.1 with rfl | rfl
    · obtain ⟨dumpIr, h⟩ := ih hopts.2 true options
      exact ⟨dumpIr, by rw [optionLoop, h]; simp⟩
    · obtain ⟨dumpIr, h⟩ := ih hopts.2 compiling { options with dumpIr := true }
      exact ⟨dumpIr, by rw [optionLoop, h]; simp⟩

/-- With `-c` and without `-o`, for a path whose last dot does not belong to a directory, the end is not
before the start, and the name is the last component up to its last dot; all of it if there is no dot
behind the first byte of the path. -/
theorem parseOptions_defaultName (opts : List Opt) (path : CString) (hc : Opt.c ∈ opts)
    (hopts : ∀ opt ∈ opts, opt = .c ∨ opt = .d)
    (hdot : ascii '.' ∈ lastComponent path.bytes ∨ ascii '.' ∉ path.bytes.tail) :
    outputStart path ≤ outputEnd path ∧
      ∃ options name, parseOptions opts [path] = some (.ok options) ∧
        options.inputName = some path ∧ options.outputName = some name ∧
        name.bytes = if ascii '.' ∈ path.bytes.tail then stem (lastComponent path.bytes)
          else lastComponent path.bytes := by
  obtain ⟨dumpIr, hloop⟩ := optionLoop_unnamed hopts false ⟨none, none, false⟩
  obtain ⟨name, hname, hbytes⟩ := defaultName_eq hdot
  constructor
  · rw [← Nat.not_lt, outputEnd_lt_iff]
    rintro ⟨htail, hcomp⟩
    exact hdot.elim hcomp fun h => h htail
  · refine ⟨⟨some path, some name, dumpIr⟩, name, ?_, rfl, rfl, hbytes⟩
    rw [parseOptions, hloop]
    simp [hc, hname]

def nestedPath : CString := ⟨"src.d/prog.bf".toList.map ascii, by decide, by decide⟩

/-- `src.d/prog.bf` is compiled to `prog`. -/
theorem parseOptions_defaultName_nested : outputStart nestedPath ≤ outputEnd nestedPath ∧
    ∃ options name, parseOptions [.d, .c] [nestedPath] = some (.ok options) ∧
      options.inputName = some nestedPath ∧ options.outputName = some name ∧
      name.bytes = ['p', 'r', 'o', 'g'].map ascii := by
  obtain ⟨hle, options, name, hparse, hin, hout, hname⟩ :=
    parseOptions_defaultName [.d, .c] nestedPath (by decide) (by decide) (.inl (by decide))
  exact ⟨hle, options, name, hparse, hin, hout, hname.trans (by decide)⟩

def hiddenPath : CString := ⟨[ascii '.', ascii 'b', ascii 'f'], by decide, by decide⟩

/-- The path `.bf` is kept whole, although its component has a dot. -/
theorem parseOptions_defaultName_not :
    ¬ ∀ (opts : List Opt) (path : CString), Opt.c ∈ opts → (∀ opt ∈ opts, opt = .c ∨ opt = .d) →
      outputStart path ≤ outputEnd path ∧
        ∃ options name, parseOptions opts [path] = some (.ok options) ∧
          options.outputName = some name ∧ name.bytes = stem (lastComponent path.bytes) := by
  intro h
  obtain ⟨_, options, name, hparse, hname, hbytes⟩ := h [.c] hiddenPath (by decide) (by decide)
  have hrun : parseOptions [.c] [hiddenPath] =
      some (.ok ⟨some hiddenPath, some hiddenPath, false⟩) := rfl
  rw [hrun] at hparse
  cases hparse
  cases hname
  exact absurd hbytes (by decide)

/-! ## What `main` does with them -/

def OptionsT.toOptions (str : CString → String) (options : OptionsT) : Options where
  inputName := (options.inputName.map str).getD ""
  outputName := options.outputName.map str
  dumpIr := options.dumpIr

theorem optionLoop_compiling {opts : List Opt} {compiling : Bool} {options : OptionsT}
    {r : Bool × OptionsT} (hc : compiling = true ∨ Opt.c ∈ opts)
    (h : optionLoop opts compiling options = some r) : r.1 = true := by
  induction opts generalizing compiling options with
  | nil =>
    cases h
    exact hc.resolve_right List.not_mem_nil
  | cons opt opts ih =>
    cases opt with
    | c => exact ih (.inl rfl) h
    | d => exact ih (by simpa using hc) h
    | o optarg => exact ih (by simpa using hc) h
    | other => cases h

/-- With `-c` there is always a name for the executable. -/
theorem parseOptions_named {opts : List Opt} {args : List CString} {options : OptionsT}
    (hc : Opt.c ∈ opts) (h : parseOptions opts args = some (.ok options)) :
    options.outputName ≠ none := by
  unfold parseOptions at h
  split at h
  · cases h
  · rename_i compiling parsed hloop
    have hcompiling : compiling = true := optionLoop_compiling (.inr hc) hloop
    split at h
    · cases h
    · obtain ⟨named, hnamed, hparsed⟩ := Option.map_eq_some_iff.mp h
      have hsome : named.outputName ≠ none := by
        split at hnamed
        · obtain ⟨name, _, rfl⟩ := Option.map_eq_some_iff.mp hnamed
          exact Option.some_ne_none name
        · rename_i hnot
          cases hnamed
          exact fun hnone => hnot ⟨hcompiling, hnone⟩
      split at hparsed
      · cases hparsed
        exact hsome
      · cases hparsed

/-- With `-c` and without `-d`, nothing is interpreted: an executable is written, or nothing. -/
theorem main_compiles {opts : List Opt} {args : List CString} {options : OptionsT}
    (hc : Opt.c ∈ opts) (h : parseOptions opts args = some (.ok options))
    (hdump : options.dumpIr = false) (str : CString → String) (inFile : Option (List Chunk))
    (outFile : Bool) :
    (main (some (options.toOptions str)) inFile outFile).action = none ∨
      ∃ ctx, (main (some (options.toOptions str)) inFile outFile).action = some (.writeElfFile ctx) := by
  obtain ⟨name, hname⟩ := Option.ne_none_iff_exists'.mp (parseOptions_named hc h)
  unfold main OptionsT.toOptions
  rw [hname, hdump]
  cases inFile with
  | none => exact .inl rfl
  | some chunks =>
    simp only [Option.map_some, Bool.false_eq_true, if_false]
    split
    · exact .inl rfl
    · cases outFile with
      | false => exact .inl rfl
      | true => exact .inr ⟨_, rfl⟩

end Bfcomp
