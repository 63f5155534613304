import Bfcomp.Driver.Main
import Bfcomp.Interpret.Dump
import Bfcomp.Ocaml.Coalesce
import Bfcomp.Ocaml.Print

/-! # The commands of a source file

Eight bytes are commands, every other one is a comment. The IR that `main` ends with means the
commands in front of the first NUL of each buffer; those behind it are lost. -/

namespace Bfcomp
set_option autoImplicit false

open Ocaml (SameOps primAct_onTape merge_ops isCommand openAfter_filter)

/-! ## Commands and comments -/

/-- The commands of a text, in order. -/
def commands (s : List Byte) : List Byte := s.filter isCommand

theorem commands_append (s t : List Byte) : commands (s ++ t) = commands s ++ commands t :=
  List.filter_append s t

theorem unitOp_comment {c : Byte} (h : ¬ isCommand c) : unitOp c = none := by
  simp only [isCommand, decide_eq_true_eq, List.mem_cons, List.not_mem_nil, or_false, not_or] at h
  obtain ⟨hplus, hminus, hright, hleft, hread, hwrite, _, _⟩ := h
  unfold unitOp
  rw [if_neg hread, if_neg hwrite, if_neg hplus, if_neg hminus, if_neg hright, if_neg hleft]

theorem bracket_comment {c : Byte} (h : ¬ isCommand c) : c ≠ ascii '[' ∧ c ≠ ascii ']' := by
  constructor <;> rintro rfl <;> exact h (by decide)

theorem Reading.text_commands (z : Reading Prim) (s : List Byte) :
    z.text unitOp (commands s) = z.text unitOp s := by
  induction s generalizing z with
  | nil => rfl
  | cons c s ih =>
    have hstep : z.text unitOp (c :: s) = (z.next unitOp c).text unitOp s := rfl
    rw [hstep, commands]
    by_cases hc : isCommand c
    · rw [List.filter_cons_of_pos hc]
      exact ih _
    · obtain ⟨ho, hclose⟩ := bracket_comment hc
      rw [List.filter_cons_of_neg hc, Reading.next_other ho hclose, unitOp_comment hc]
      exact ih z

/-! ## What an IR denotes -/

/-- The program of a sequence of commands, one op each; a `[` that is not closed does nothing, as in
`ir_interpret`, and a `]` that closes no loop is no program. -/
def commandsProgram (s : List Byte) : Option (Prog Prim) :=
  if openAfter 0 s = none then none
  else
    let z := Reading.text unitOp ⟨.nil, []⟩ s
    some (meaning z.cur z.outer)

/-- From every store from which the commands keep the pointer on the tape, the interpreter does on
the IR what the commands do. -/
def Denotes (ctx : IrCtx) (s : List Byte) : Prop :=
  ∃ p, commandsProgram s = some p ∧ ∀ store : Store, store.OnTape 30000 →
    (∀ n, ¬ (p.exec (Prim.act 30000) cellTest n store).Raised) →
    Mirrors (interpretStep (patchHalt ctx) 30000) ⟨0, store⟩
      (fun s c => c.store = s ∧ Halted (patchHalt ctx) c) (fun s c => c.store = s)
      (fun n => p.exec (Prim.act 30000) cellTest n store)

/-! ## Runs of one command -/

theorem act_zero {mk : ℤ → Prim} {kind : IrOpKind} (h : Coalesces mk kind) {cap : ℕ} {s : Store}
    (hs : s.OnTape cap) : (mk 0).act cap s = .ok s := by
  cases h with
  | cell => simp [Prim.act]
  | tape =>
    rw [Prim.act, Int.add_zero]
    exact if_pos hs

theorem same_copies {mk : ℤ → Prim} {kind : IrOpKind} (h : Coalesces mk kind) (d : ℤ) (m : ℕ) :
    SameOps (Prog.copies (mk d) m) (.prim (mk (i64 (d * m))) .nil) := by
  induction m with
  | zero =>
    intro n s hs
    have hzero : i64 (d * (0 : ℕ)) = 0 := by
      rw [Int.natCast_zero, Int.mul_zero]
      rfl
    rw [hzero, Prog.exec_prim_ok (act_zero h hs)]
    rfl
  | succ m ih =>
    have hstep : SameOps (.prim (mk d) .nil ++ Prog.copies (mk d) m)
        (.prim (mk d) .nil ++ .prim (mk (i64 (d * m))) .nil) :=
      Prog.Refines.append primAct_onTape (.refl _) ih
    have hsum : d + d * m = d * (m + 1 : ℕ) := by
      rw [Int.natCast_succ, Int.mul_add, Int.mul_one, Int.add_comm]
    have hmerge := merge_ops h d (i64 (d * m))
    rw [i64_add_right, hsum] at hmerge
    exact hstep.trans hmerge

theorem same_reads (m : ℕ) : SameOps (Prog.copies (.read 1) m) (.prim (.read m) .nil) := by
  refine Prog.Refines.copies_iterate (f := Store.readByte) (fun m => Prim.read m)
    primAct_onTape ?_ (fun _ _ => rfl) m
  intro s t ht
  cases ht
  rfl

theorem same_writes (m : ℕ) : SameOps (Prog.copies (.write 1) m) (.prim (.write m) .nil) := by
  refine Prog.Refines.copies_iterate (f := Store.writeByte) (fun m => Prim.write m)
    primAct_onTape ?_ (fun _ _ => rfl) m
  intro s t ht
  cases ht
  rfl

theorem same_commandRun {c : Byte} {m : ℕ} {j : Prim} (hm : m < 2^63) (h : runOp c m = some j) :
    ∃ i, unitOp c = some i ∧ SameOps (Prog.copies i m) (.prim j .nil) := by
  rcases runOp_unit hm h with ⟨hc, rfl⟩ | ⟨hc, rfl⟩ | ⟨mk, kind, d, hmk, _, hc, rfl⟩
  · exact ⟨_, hc, same_reads m⟩
  · exact ⟨_, hc, same_writes m⟩
  · exact ⟨_, hc, same_copies hmk d m⟩

theorem spells_commands : Spells SameOps unitOp where
  nil := Prog.Refines.nil
  append := Prog.Refines.append primAct_onTape
  loop := Prog.Refines.loop primAct_onTape fun _ _ _ h => h
  merge := fun hmk h => h.trans (Prog.Refines.append primAct_onTape (.refl _) (merge_ops hmk _ _))
  run := same_commandRun
  skip := unitOp_of_runOp

/-! ## The IR means what the parser sees -/

theorem readLoop_readAs {ctx : IrCtx} {chunks : List Chunk} {z : Reading Prim}
    (H : ReadAs SameOps ctx z) (hok : (readLoop ctx chunks).status = 0) :
    ReadAs SameOps (readLoop ctx chunks).ctx (z.text unitOp (visible chunks)) := by
  induction chunks generalizing ctx z with
  | nil => exact H
  | cons chunk chunks ih =>
    have hfits := (bufferString chunk.bytes chunk.fits).fits
    have hvisible : visible (chunk :: chunks) =
        chunk.bytes.takeWhile (· ≠ 0) ++ visible chunks := rfl
    by_cases hparse : (parseLoop ctx 0 (chunk.bytes.takeWhile (· ≠ 0))).status = 0
    · rw [readLoop_more chunks hparse] at hok ⊢
      rw [hvisible, Reading.text_append]
      exact ih (parseLoop_readAs spells_commands ctx _ hfits hparse z H) hok
    · rw [readLoop_stop chunks hparse] at hok
      exact (hparse hok).elim

theorem meaning_same {cur cur' : Prog Prim} {outer outer' : List (Prog Prim)}
    (h : SameOps cur cur') (hs : List.Forall₂ SameOps outer outer') :
    SameOps (meaning cur outer) (meaning cur' outer') := by
  induction hs generalizing cur cur' with
  | nil => exact h
  | cons hp _ ih => exact Prog.Refines.append primAct_onTape (ih hp) h

/-- What the read loop leaves, if it stops with no error, denotes the commands in front of the
NULs. -/
theorem readLoop_denotes_visible {chunks : List Chunk} (hok : (readLoop {} chunks).status = 0) :
    Denotes (readLoop {} chunks).ctx (commands (visible chunks)) := by
  have hopen : openAfter 0 (commands (visible chunks)) ≠ none := by
    intro hnone
    rw [commands, openAfter_filter] at hnone
    have hread := readLoop_openAfter {} chunks
    rw [List.length_nil, hnone, hok] at hread
    exact absurd hread.1 (by decide)
  obtain ⟨cur, outer, hrep, hcur, houter⟩ := readLoop_readAs (ReadAs.init spells_commands) hok
  rw [← Reading.text_commands] at hcur houter
  refine ⟨_, if_neg hopen, fun store hstore hsafe => ?_⟩
  exact interpret_mirrors_of hrep (interpret_realises _ (by decide)) hstore hsafe
    fun n => meaning_same hcur houter n store hstore

/-! ## Hidden commands -/

/-- If the read loop stops with no error, the IR that it leaves denotes all commands of the source. -/
def CommandsKept (chunks : List Chunk) : Prop :=
  (readLoop {} chunks).status = 0 → Denotes (readLoop {} chunks).ctx (commands (source chunks))

/-- No command stands behind a NUL that is in the same buffer. -/
def NoneHidden (chunks : List Chunk) : Prop :=
  ∀ chunk ∈ chunks, ∀ c ∈ chunk.bytes.dropWhile (· ≠ 0), ¬ isCommand c

/-- The same byte, or a command in place of another one. -/
def SameKind (b b' : Byte) : Prop := b' = b ∨ isCommand b ∧ isCommand b'

/-- Sources that differ only in which commands stand where commands do. -/
def SameLayout (chunks chunks' : List Chunk) : Prop :=
  List.Forall₂ (fun chunk chunk' : Chunk => List.Forall₂ SameKind chunk.bytes chunk'.bytes) chunks
    chunks'

theorem commands_split (s : List Byte) :
    commands s = commands (s.takeWhile (· ≠ 0)) ++ commands (s.dropWhile (· ≠ 0)) := by
  rw [← commands_append, List.takeWhile_append_dropWhile]

theorem source_cons (chunk : Chunk) (chunks : List Chunk) :
    source (chunk :: chunks) = chunk.bytes ++ source chunks := rfl

theorem visible_cons (chunk : Chunk) (chunks : List Chunk) :
    visible (chunk :: chunks) = chunk.bytes.takeWhile (· ≠ 0) ++ visible chunks := rfl

theorem commands_visible_le (chunks : List Chunk) :
    (commands (visible chunks)).length ≤ (commands (source chunks)).length := by
  induction chunks with
  | nil => exact Nat.le_refl _
  | cons chunk chunks ih =>
    rw [visible_cons, source_cons, commands_append, commands_append, commands_split chunk.bytes]
    simp only [List.length_append]
    omega

theorem commands_visible {chunks : List Chunk} (h : NoneHidden chunks) :
    commands (visible chunks) = commands (source chunks) := by
  induction chunks with
  | nil => rfl
  | cons chunk chunks ih =>
    have hhidden : commands (chunk.bytes.dropWhile (· ≠ 0)) = [] := by
      rw [commands, List.filter_eq_nil_iff]
      exact h chunk (List.mem_cons_self ..)
    rw [visible_cons, source_cons, commands_append, commands_append, commands_split chunk.bytes,
      hhidden, List.append_nil, ih fun chunk' hmem => h chunk' (List.mem_cons_of_mem chunk hmem)]

theorem noneHidden_of_length {chunks : List Chunk}
    (h : (commands (visible chunks)).length = (commands (source chunks)).length) :
    NoneHidden chunks := by
  induction chunks with
  | nil =>
    intro chunk hmem
    cases hmem
  | cons chunk chunks ih =>
    have hle := commands_visible_le chunks
    rw [visible_cons, source_cons, commands_append, commands_append,
      commands_split chunk.bytes] at h
    simp only [List.length_append] at h
    have hhidden : commands (chunk.bytes.dropWhile (· ≠ 0)) = [] :=
      List.eq_nil_of_length_eq_zero (by omega)
    intro chunk' hmem
    rcases List.mem_cons.mp hmem with rfl | hmem
    · intro c hc hcommand
      rw [commands, List.filter_eq_nil_iff] at hhidden
      exact hhidden c hc hcommand
    · exact ih (by omega) chunk' hmem

theorem noneHidden_of_nulFree {chunks : List Chunk} (h : (0 : Byte) ∉ source chunks) :
    NoneHidden chunks := by
  apply noneHidden_of_length
  rw [visible_of_nulFree h]

theorem commandsKept_of_noneHidden {chunks : List Chunk} (h : NoneHidden chunks) :
    CommandsKept chunks := by
  intro hok
  rw [← commands_visible h]
  exact readLoop_denotes_visible hok

/-! ## The chunks of a file -/

/-- The chunks that `fread` makes of a file: full buffers, up to the last one. -/
def freads (file : List Byte) : List Chunk :=
  if h : file = [] then []
  else
    { bytes := file.take buflen
      nonempty := fun hnil => (List.take_eq_nil_iff.mp hnil).elim (by decide) h
      fits := List.length_take_le buflen file } :: freads (file.drop buflen)
  termination_by file.length
  decreasing_by
    have hpos := List.length_pos_iff.mpr h
    rw [List.length_drop, buflen]
    omega

theorem source_freads (file : List Byte) : source (freads file) = file := by
  induction file using freads.induct with
  | case1 => rw [freads, dif_pos rfl]; rfl
  | case2 file h ih =>
    rw [freads, dif_neg h, source_cons, ih]
    exact List.take_append_drop buflen file

theorem freads_short (chunk : Chunk) : freads chunk.bytes = [chunk] := by
  have hrest : freads (chunk.bytes.drop buflen) = [] := by
    rw [List.drop_of_length_le chunk.fits, freads, dif_pos rfl]
  rw [freads, dif_neg chunk.nonempty, hrest]
  simp only [List.take_of_length_le chunk.fits]

/-- Of a file without NULs no command is lost. -/
theorem commandsKept_of_nulFree {file : List Byte} (h : (0 : Byte) ∉ file) :
    CommandsKept (freads file) := by
  apply commandsKept_of_noneHidden
  apply noneHidden_of_nulFree
  rwa [source_freads]

/-! ## A source of writes only -/

theorem SameKind.zero_iff {b b' : Byte} (h : SameKind b b') : b = 0 ↔ b' = 0 := by
  rcases h with rfl | ⟨hb, hb'⟩
  · exact Iff.rfl
  · constructor
    · rintro rfl
      exact absurd hb (by decide)
    · rintro rfl
      exact absurd hb' (by decide)

theorem SameKind.comment {b b' : Byte} (h : SameKind b b') (hb : ¬ isCommand b) :
    ¬ isCommand b' := by
  rcases h with rfl | ⟨hcommand, _⟩
  · exact hb
  · exact (hb hcommand).elim

theorem sameKind_dropWhile {s s' : List Byte} (h : List.Forall₂ SameKind s s') :
    List.Forall₂ SameKind (s.dropWhile (· ≠ 0)) (s'.dropWhile (· ≠ 0)) := by
  induction h with
  | nil => exact .nil
  | @cons b b' s s' hb hs ih =>
    have hzero := hb.zero_iff
    by_cases h0 : b = 0
    · have h0' := hzero.mp h0
      rw [List.dropWhile_cons_of_neg (by simp [h0]), List.dropWhile_cons_of_neg (by simp [h0'])]
      exact .cons hb hs
    · have h0' : b' ≠ 0 := fun he => h0 (hzero.mpr he)
      rw [List.dropWhile_cons_of_pos (p := fun x => decide (x ≠ 0)) (decide_eq_true h0),
        List.dropWhile_cons_of_pos (p := fun x => decide (x ≠ 0)) (decide_eq_true h0')]
      exact ih

theorem sameKind_comments {s s' : List Byte} (h : List.Forall₂ SameKind s s')
    (hs : ∀ c ∈ s, ¬ isCommand c) : ∀ c ∈ s', ¬ isCommand c := by
  induction h with
  | nil => exact hs
  | cons hb _ ih =>
    rw [List.forall_mem_cons] at hs ⊢
    exact ⟨hb.comment hs.1, ih hs.2⟩

theorem SameLayout.noneHidden {chunks chunks' : List Chunk} (h : SameLayout chunks chunks')
    (hnone : NoneHidden chunks) : NoneHidden chunks' := by
  induction h with
  | nil => exact hnone
  | cons hchunk _ ih =>
    unfold NoneHidden at hnone ⊢
    rw [List.forall_mem_cons] at hnone ⊢
    exact ⟨sameKind_comments (sameKind_dropWhile hchunk) hnone.1, ih hnone.2⟩

/-- The byte, with `.` for a command. -/
def dot (b : Byte) : Byte := if isCommand b then ascii '.' else b

theorem sameKind_dot (b : Byte) : SameKind b (dot b) := by
  unfold dot
  split
  · exact .inr ⟨‹_›, by decide⟩
  · exact .inl rfl

def dots (chunk : Chunk) : Chunk where
  bytes := chunk.bytes.map dot
  nonempty := by
    intro h
    exact chunk.nonempty (List.map_eq_nil_iff.mp h)
  fits := by
    rw [List.length_map]
    exact chunk.fits

theorem sameLayout_dots (chunks : List Chunk) : SameLayout chunks (chunks.map dots) := by
  induction chunks with
  | nil => exact .nil
  | cons chunk chunks ih =>
    refine .cons ?_ ih
    rw [dots, List.forall₂_map_right_iff]
    exact List.forall₂_same.mpr fun b _ => sameKind_dot b

theorem commands_dots (s : List Byte) :
    commands (s.map dot) = List.replicate (commands s).length (ascii '.') := by
  induction s with
  | nil => rfl
  | cons b s ih =>
    rw [List.map_cons, commands, commands, dot]
    by_cases hb : isCommand b
    · rw [if_pos hb, List.filter_cons_of_pos (by decide), List.filter_cons_of_pos hb,
        List.length_cons, List.replicate_succ]
      exact congrArg _ ih
    · rw [if_neg hb, List.filter_cons_of_neg hb, List.filter_cons_of_neg hb]
      exact ih

theorem visible_dots (chunks : List Chunk) : visible (chunks.map dots) = (visible chunks).map dot := by
  induction chunks with
  | nil => rfl
  | cons chunk chunks ih =>
    have hpred : ((fun b : Byte => decide (b ≠ 0)) ∘ dot) = fun b => decide (b ≠ 0) := by
      funext b
      have hzero := (sameKind_dot b).zero_iff
      simp only [Function.comp_apply, ne_eq, hzero]
    rw [List.map_cons, visible_cons, visible_cons, ih, List.map_append]
    congr 1
    rw [dots, List.takeWhile_map, hpred]

theorem source_dots (chunks : List Chunk) : source (chunks.map dots) = (source chunks).map dot := by
  induction chunks with
  | nil => rfl
  | cons chunk chunks ih => rw [List.map_cons, source_cons, source_cons, ih, List.map_append, dots]

theorem commandsProgram_writes (m : ℕ) :
    commandsProgram (List.replicate m (ascii '.')) = some (Prog.copies (.write 1) m) := by
  have hopen : openAfter 0 (List.replicate m (ascii '.')) = some 0 := by
    have h := openAfter_replicate (c := ascii '.') (by decide) (by decide) 0 m []
    rwa [List.append_nil] at h
  have hunit : unitOp (ascii '.') = some (.write 1) := rfl
  have hread := Reading.text_run (by decide) (by decide) hunit m ⟨.nil, []⟩
  rw [commandsProgram, if_neg (by rw [hopen]; exact Option.some_ne_none 0), hread]
  rfl

theorem exec_writes (m n : ℕ) (s : Store) :
    (Prog.copies (.write 1) m).exec (Prim.act 30000) cellTest n s =
      .done (Store.writeByte^[m] s) := by
  induction m generalizing s with
  | zero => rfl
  | succ m ih =>
    have hact : (Prim.write 1).act 30000 s = .ok s.writeByte := rfl
    rw [Prog.copies, Prog.exec, hact, Function.iterate_succ_apply]
    exact ih s.writeByte

theorem writes_length (m : ℕ) (s : Store) :
    (Store.writeByte^[m] s).output.length = s.output.length + m := by
  induction m generalizing s with
  | zero => rfl
  | succ m ih =>
    rw [Function.iterate_succ_apply, ih, Store.writeByte, List.length_append, List.length_singleton]
    omega

/-- One IR does not denote two numbers of writes. -/
theorem denotes_writes_unique {ctx : IrCtx} {m m' : ℕ}
    (h : Denotes ctx (List.replicate m (ascii '.')))
    (h' : Denotes ctx (List.replicate m' (ascii '.'))) : m = m' := by
  have hruns : ∀ {j}, Denotes ctx (List.replicate j (ascii '.')) →
      ∃ k c, Runs (interpretStep (patchHalt ctx) 30000) k ⟨0, .start []⟩ c ∧
        interpretStep (patchHalt ctx) 30000 c = none ∧ c.store.output.length = j := by
    intro j hj
    obtain ⟨p, hp, hmirrors⟩ := hj
    rw [commandsProgram_writes] at hp
    cases hp
    have H := hmirrors (.start []) (Store.start_onTape (by decide) []) fun n => by
      rw [exec_writes]
      exact Outcome.raised_done _
    obtain ⟨k, c, hr, hstop, hstore, _⟩ := H.done 0 _ (exec_writes j 0 _)
    refine ⟨k, c, hr, hstop, ?_⟩
    rw [hstore, writes_length]
    exact Nat.zero_add j
  obtain ⟨k, c, hr, hstop, hlen⟩ := hruns h
  obtain ⟨k', c', hr', hstop', hlen'⟩ := hruns h'
  rw [← hlen, ← hlen', hr.stopped_unique hstop hr' hstop']

/-- Of a source that hides writes the IR does not denote all. -/
theorem dots_not_kept {chunks : List Chunk} (h : ¬ NoneHidden chunks) :
    ¬ CommandsKept (chunks.map dots) := by
  intro hkept
  have hvisible : commands (visible (chunks.map dots)) =
      List.replicate (commands (visible chunks)).length (ascii '.') := by
    rw [visible_dots, commands_dots]
  have hsource : commands (source (chunks.map dots)) =
      List.replicate (commands (source chunks)).length (ascii '.') := by
    rw [source_dots, commands_dots]
  have hok : (readLoop {} (chunks.map dots)).status = 0 := by
    have hread := readLoop_openAfter {} (chunks.map dots)
    have hopen := openAfter_replicate (c := ascii '.') (by decide) (by decide) 0
      (commands (visible chunks)).length []
    rw [List.append_nil, ← hvisible, commands, openAfter_filter] at hopen
    rw [List.length_nil, hopen] at hread
    exact hread.1
  have hall := hkept hok
  have hseen := readLoop_denotes_visible hok
  rw [hsource] at hall
  rw [hvisible] at hseen
  exact h (noneHidden_of_length (denotes_writes_unique hseen hall))

/-- A source with no command behind a NUL of its buffer is denoted in full; and a layout is one of
which every source is denoted in full exactly if it has no command there. -/
theorem commandsKept_iff (chunks : List Chunk) :
    (NoneHidden chunks → CommandsKept chunks) ∧
      (NoneHidden chunks ↔ ∀ chunks', SameLayout chunks chunks' → CommandsKept chunks') := by
  refine ⟨commandsKept_of_noneHidden, ?_, ?_⟩
  · intro h chunks' hlayout
    exact commandsKept_of_noneHidden (hlayout.noneHidden h)
  · intro h
    by_contra hhidden
    exact dots_not_kept hhidden (h _ (sameLayout_dots chunks))

/-- The file of a NUL and a `.` ends as an empty program. -/
theorem commandsKept_not : ¬ CommandsKept (freads [0, ascii '.']) := by
  let chunk : Chunk := ⟨[0, ascii '.'], by decide, by decide⟩
  have hfile : freads [0, ascii '.'] = [chunk] := freads_short chunk
  have hdots : [chunk].map dots = [chunk] := rfl
  have hhidden : ¬ NoneHidden [chunk] := fun hnone =>
    hnone chunk (List.mem_singleton_self _) (ascii '.') (by decide) (by decide)
  rw [hfile, ← hdots]
  exact dots_not_kept hhidden

/-! ## The OCaml parser -/

open Ocaml Ocaml.Parser in
/-- Without its comments a text is parsed as it is with them. -/
theorem parseStream_commands {n : ℕ} {acc : List Ir} {s : List Byte} {r : List Ir × List Byte}
    (h : parseStream n acc s = some r) :
    (commands r.2).length ≤ (commands s).length ∧ ∀ m, (commands s).length < m →
      parseStream m acc (commands s) = some (r.1, commands r.2) := by
  refine parseStream_induct (P := fun acc s r =>
    (commands r.2).length ≤ (commands s).length ∧ ∀ m, (commands s).length < m →
      parseStream m acc (commands s) = some (r.1, commands r.2)) ?_ ?_ ?_ ?_ ?_ h
  · intro acc
    refine ⟨Nat.le_refl _, fun m hm => ?_⟩
    obtain ⟨m, rfl⟩ := Nat.exists_eq_succ_of_ne_zero (Nat.ne_of_gt hm)
    rfl
  · rintro acc s b s' r ⟨hle, hbody⟩ ⟨hle', hrest⟩
    have hcons : commands (ascii '[' :: s) = ascii '[' :: commands s := rfl
    have hbody_le : (commands s').length ≤ (commands s).length := hle
    rw [hcons, List.length_cons]
    refine ⟨by omega, fun m hm => ?_⟩
    obtain ⟨m, rfl⟩ := Nat.exists_eq_succ_of_ne_zero (Nat.ne_zero_of_lt hm)
    rw [parseStream, parseChar_open, hbody m (by omega)]
    exact hrest m (by omega)
  · intro acc s
    have hcons : commands (ascii ']' :: s) = ascii ']' :: commands s := rfl
    rw [hcons, List.length_cons]
    refine ⟨Nat.le_succ _, fun m hm => ?_⟩
    obtain ⟨m, rfl⟩ := Nat.exists_eq_succ_of_ne_zero (Nat.ne_zero_of_lt hm)
    rw [parseStream, parseChar_close]
  · rintro acc c i s r hi ⟨hle, hrest⟩
    have hcons : commands (c :: s) = c :: commands s := List.filter_cons_of_pos (isCommand_unit hi)
    rw [hcons, List.length_cons]
    refine ⟨by omega, fun m hm => ?_⟩
    obtain ⟨m, rfl⟩ := Nat.exists_eq_succ_of_ne_zero (Nat.ne_zero_of_lt hm)
    rw [parseStream, parseChar_unit _ _ hi]
    exact hrest m (by omega)
  · rintro acc c s r ho hclose hi ⟨hle, hrest⟩
    have hc : ¬ isCommand c := by
      rw [isCommand_skip ho hclose hi]
      exact Bool.false_ne_true
    have hcons : commands (c :: s) = commands s := List.filter_cons_of_neg hc
    rw [hcons]
    exact ⟨hle, hrest⟩

/-- For the OCaml parser every other byte is a comment wherever it stands, a NUL as well. -/
theorem parse_commands (text : Ocaml.MlString) :
    Ocaml.Parser.parse ⟨commands text.bytes, (List.length_filter_le ..).trans text.fits⟩ =
      Ocaml.Parser.parse text := by
  obtain ⟨acc, rest, hs, hp⟩ := Ocaml.Parser.parse_total text
  obtain ⟨_, hrun⟩ := parseStream_commands hs
  rw [hp, Ocaml.Parser.parse, hrun _ (Nat.lt_succ_self _)]

end Bfcomp
