import Bfcomp.Frontend.Balance

/-! # The driver (`main.c`)

`main` reads the source in buffers of at most 1024 bytes, parses each as the C string it starts
with, and stops at the first one that does not parse. Loops that are still open are reported only
by `ir_ctx_free`, which runs when `main` returns: after the program has been interpreted or
written. -/

namespace Bfcomp
set_option autoImplicit false

/-- `options_t`, as `parse_options` leaves it. -/
structure Options where
  inputName : String
  outputName : Option String
  dumpIr : Bool

def buflen : ℕ := 1024

/-- What one `fread` puts into the buffer before the end of the file. -/
structure Chunk where
  bytes : List Byte
  nonempty : bytes ≠ []
  fits : bytes.length ≤ buflen

/-- The C string at the start of the buffer, which `main` ends with a NUL. -/
def bufferString (bytes : List Byte) (fits : bytes.length ≤ buflen) : CString where
  bytes := bytes.takeWhile (· ≠ 0)
  nulFree := by
    intro h
    simpa using List.mem_takeWhile_imp h
  fits := by
    have hle := (List.takeWhile_prefix (l := bytes) (· ≠ 0)).length_le
    unfold buflen at fits
    omega

/-- The `do … while` loop, on the chunks that are read before `fread` returns zero. -/
def readLoop (ctx : IrCtx) : List Chunk → ParseResult
  | [] => irCtxParse ctx (bufferString [] (Nat.zero_le _))
  | chunk :: chunks =>
    let r := irCtxParse ctx (bufferString chunk.bytes chunk.fits)
    if r.status ≠ 0 then r else readLoop r.ctx chunks

/-- What `main` does with a parsed source. -/
inductive Action where
  | dumpIr (ctx : IrCtx)
  | interpret (ctx : IrCtx)
  | writeElfFile (ctx : IrCtx)

/-- The action taken, the exit status once the action is over, and what `main` and the parser print
to `stderr`. -/
structure MainResult where
  action : Option Action
  status : ℕ
  stderr : List String

def unableToOpen (name : String) : String := "unable to open file '" ++ name ++ "'\n"

/-- `main`. `options`: the result of `parse_options`, if it succeeds; `inFile`: the chunks of the
source, if it can be opened; `outFile`: whether the output can be opened. -/
def main (options : Option Options) (inFile : Option (List Chunk)) (outFile : Bool) : MainResult :=
  match options with
  | none => ⟨none, 1, []⟩
  | some options =>
    match inFile with
    | none => ⟨none, 1, [unableToOpen options.inputName] ++ irCtxFree {}⟩
    | some chunks =>
      let r := readLoop {} chunks
      if r.status ≠ 0 then ⟨none, 1, r.stderr ++ irCtxFree r.ctx⟩
      else if options.dumpIr then ⟨some (.dumpIr r.ctx), 0, r.stderr ++ irCtxFree r.ctx⟩
      else
        match options.outputName with
        | none => ⟨some (.interpret r.ctx), 0, r.stderr ++ irCtxFree r.ctx⟩
        | some name =>
          if outFile then ⟨some (.writeElfFile r.ctx), 0, r.stderr ++ irCtxFree r.ctx⟩
          else ⟨none, 1, r.stderr ++ [unableToOpen name] ++ irCtxFree r.ctx⟩

/-! ## The read loop -/

/-- The bytes of the source. -/
def source (chunks : List Chunk) : List Byte := (chunks.map Chunk.bytes).flatten

/-- The bytes that the parser sees: each buffer up to its first NUL. -/
def visible (chunks : List Chunk) : List Byte :=
  (chunks.map fun chunk => chunk.bytes.takeWhile (· ≠ 0)).flatten

theorem visible_of_nulFree {chunks : List Chunk} (h : (0 : Byte) ∉ source chunks) :
    visible chunks = source chunks := by
  unfold visible source at *
  congr 1
  refine List.map_congr_left fun chunk hmem => ?_
  rw [List.takeWhile_eq_self_iff]
  intro b hb
  have hne : b ≠ 0 := by
    rintro rfl
    exact h (List.mem_flatten.mpr ⟨chunk.bytes, List.mem_map.mpr ⟨chunk, hmem, rfl⟩, hb⟩)
  simpa using hne

theorem readLoop_stop {ctx : IrCtx} {chunk : Chunk} (chunks : List Chunk)
    (h : (parseLoop ctx 0 (chunk.bytes.takeWhile (· ≠ 0))).status ≠ 0) :
    readLoop ctx (chunk :: chunks) = parseLoop ctx 0 (chunk.bytes.takeWhile (· ≠ 0)) := if_pos h

theorem readLoop_more {ctx : IrCtx} {chunk : Chunk} (chunks : List Chunk)
    (h : (parseLoop ctx 0 (chunk.bytes.takeWhile (· ≠ 0))).status = 0) :
    readLoop ctx (chunk :: chunks) =
      readLoop (parseLoop ctx 0 (chunk.bytes.takeWhile (· ≠ 0))).ctx chunks :=
  if_neg (not_not_intro h)

/-- However the source is cut, the read loop counts the brackets of the visible text. -/
theorem readLoop_openAfter (ctx : IrCtx) (chunks : List Chunk) :
    match openAfter ctx.patch.length (visible chunks) with
    | some d => (readLoop ctx chunks).status = 0 ∧ (readLoop ctx chunks).stderr = [] ∧
        (readLoop ctx chunks).ctx.patch.length = d
    | none => (readLoop ctx chunks).status = 1 ∧
        (readLoop ctx chunks).stderr = ["unmatched ']'"] := by
  induction chunks generalizing ctx with
  | nil => exact ⟨rfl, rfl, rfl⟩
  | cons chunk chunks ih =>
    have hparse := parseLoop_openAfter ctx (chunk.bytes.takeWhile (· ≠ 0))
    have hvisible : visible (chunk :: chunks) =
        chunk.bytes.takeWhile (· ≠ 0) ++ visible chunks := rfl
    rw [hvisible, openAfter_append]
    cases hopen : openAfter ctx.patch.length (chunk.bytes.takeWhile (· ≠ 0)) with
    | none =>
      rw [hopen] at hparse
      obtain ⟨hstatus, hstderr⟩ := hparse
      rw [readLoop_stop chunks (by rw [hstatus]; decide)]
      exact ⟨hstatus, hstderr⟩
    | some d =>
      rw [hopen] at hparse
      obtain ⟨hstatus, _, hpatch⟩ := hparse
      rw [readLoop_more chunks hstatus, Option.bind_some, ← hpatch]
      exact ih _

/-! ## Which sources run -/

/-- The program is interpreted or compiled. -/
def MainResult.GoesOn (r : MainResult) : Prop :=
  ∃ ctx, r.action = some (.interpret ctx) ∨ r.action = some (.writeElfFile ctx)

/-- Exactly a balanced source is run; any other is reported and fails. -/
def OnlyBalancedRuns (src : List Byte) (r : MainResult) : Prop :=
  (r.GoesOn ↔ Balanced src) ∧
  (¬ Balanced src → ¬ r.GoesOn ∧ r.status ≠ 0 ∧
    ("unmatched ']'" ∈ r.stderr ∨ "unmatched '['" ∈ r.stderr))

section
variable (options : Options) (chunks : List Chunk)

theorem main_fails (h : openAfter 0 (visible chunks) = none) :
    main (some options) (some chunks) true =
      ⟨none, 1, ["unmatched ']'"] ++ irCtxFree (readLoop {} chunks).ctx⟩ := by
  have hread := readLoop_openAfter {} chunks
  rw [List.length_nil, h] at hread
  obtain ⟨hstatus, hstderr⟩ := hread
  rw [main]
  simp only
  rw [if_pos (by rw [hstatus]; decide), hstderr]

theorem main_goesOn (hdump : options.dumpIr = false) {d : ℕ}
    (h : openAfter 0 (visible chunks) = some d) :
    (main (some options) (some chunks) true).GoesOn ∧
      (main (some options) (some chunks) true).status = 0 := by
  have hread := readLoop_openAfter {} chunks
  rw [List.length_nil, h] at hread
  obtain ⟨hstatus, _⟩ := hread
  rw [main]
  simp only
  rw [if_neg (by rw [hstatus]; decide), hdump]
  cases options.outputName with
  | none => exact ⟨⟨_, .inl rfl⟩, rfl⟩
  | some name => exact ⟨⟨_, .inr rfl⟩, rfl⟩

end

/-- When it is not asked for a dump and can open its files, `main` runs exactly the balanced
sources, and reports the others, if and only if the source is balanced just when the text that the
parser sees closes no loop that is not open; for a source without NUL: if and only if the source
does not merely leave loops open. -/
theorem main_onlyBalancedRuns (options : Options) (hdump : options.dumpIr = false)
    (chunks : List Chunk) :
    (OnlyBalancedRuns (source chunks) (main (some options) (some chunks) true) ↔
      (Balanced (source chunks) ↔ openAfter 0 (visible chunks) ≠ none)) ∧
    ((0 : Byte) ∉ source chunks →
      (OnlyBalancedRuns (source chunks) (main (some options) (some chunks) true) ↔
        ∀ d, openAfter 0 (source chunks) ≠ some (d + 1))) := by
  have hmain : OnlyBalancedRuns (source chunks) (main (some options) (some chunks) true) ↔
      (Balanced (source chunks) ↔ openAfter 0 (visible chunks) ≠ none) := by
    unfold OnlyBalancedRuns
    cases hopen : openAfter 0 (visible chunks) with
    | none =>
      have hno : ¬ (main (some options) (some chunks) true).GoesOn := by
        rw [main_fails options chunks hopen]
        rintro ⟨ctx, h | h⟩ <;> cases h
      constructor
      · intro h
        exact ⟨fun hbal => (hno (h.1.mpr hbal)).elim, fun h => (h rfl).elim⟩
      · intro h
        have hbal : ¬ Balanced (source chunks) := fun hbal => h.mp hbal rfl
        refine ⟨⟨fun h => (hno h).elim, fun h => (hbal h).elim⟩, fun _ => ⟨hno, ?_, .inl ?_⟩⟩
        · rw [main_fails options chunks hopen]
          exact Nat.one_ne_zero
        · rw [main_fails options chunks hopen]
          exact List.mem_append_left _ (List.mem_singleton_self _)
    | some d =>
      obtain ⟨hgo, _⟩ := main_goesOn options chunks hdump hopen
      constructor
      · intro h
        exact ⟨fun _ => Option.some_ne_none d, fun _ => h.1.mp hgo⟩
      · intro h
        have hbal : Balanced (source chunks) := h.mpr (Option.some_ne_none d)
        exact ⟨⟨fun _ => hbal, fun _ => hgo⟩, fun hnot => (hnot hbal).elim⟩
  refine ⟨hmain, fun hnul => ?_⟩
  rw [hmain, visible_of_nulFree hnul, Balanced]
  cases hopen : openAfter 0 (source chunks) with
  | none => simp
  | some d => cases d <;> simp

def runOptions : Options := ⟨"a.bf", none, false⟩

def closedChunk : Chunk := ⟨[ascii '[', ascii ']'], by decide, by decide⟩

/-- A balanced source runs. -/
theorem main_onlyBalancedRuns_closed :
    OnlyBalancedRuns (source [closedChunk]) (main (some runOptions) (some [closedChunk]) true) :=
  (main_onlyBalancedRuns runOptions rfl [closedChunk]).1.mpr (by decide)

def openChunk : Chunk := ⟨[ascii '['], by decide, by decide⟩

/-- A source that leaves a loop open is interpreted, and the exit status is zero. -/
theorem main_runs_open :
    ¬ ∀ (options : Options) (chunks : List Chunk), options.dumpIr = false →
      OnlyBalancedRuns (source chunks) (main (some options) (some chunks) true) := by
  intro h
  have hgo := main_goesOn runOptions [openChunk] rfl (d := 1) (by decide)
  have hbal := (h runOptions [openChunk] rfl).1.mp hgo.1
  exact absurd hbal (by decide)

end Bfcomp
