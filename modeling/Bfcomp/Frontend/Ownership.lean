import Bfcomp.Frontend.Balance
import Bfcomp.Frontend.Memory

/-! # What the parser's memory holds

The nodes that are allocated are just those of the loops that are open, whatever the allocators
answer. As long as they grant what they are asked for, the vector holds the ops of the context too. -/

namespace Bfcomp
set_option autoImplicit false

/-! ## Ops -/

theorem IrOpKind.num_lt (kind : IrOpKind) : kind.num < 8 := by
  cases kind <;> decide

theorem IrOpKind.num_injective : Function.Injective IrOpKind.num := by
  intro kind kind' h
  cases kind <;> cases kind' <;> first | rfl | cases h

def IrOp.fields (op : IrOp) : ℕ × ℤ := (op.kind.num, op.arg)

/-- The kind and the argument that a record spells. -/
def opFields (e : Elem sizeofOp) : ℕ × ℤ := (ofLeBytes (e.val.take 4), ofI64Bytes (e.val.drop 8))

def opElem (pad : Record Byte 4) (kind : IrOpKind) (v : ℤ) : Elem sizeofOp where
  val := opBytes pad kind v
  property := by
    rw [opBytes, List.length_append, List.length_append, leBytes_length, pad.property,
      i64Bytes_length]
    rfl

theorem opElem_val (pad : Record Byte 4) (kind : IrOpKind) (v : ℤ) :
    (opElem pad kind v).val = opBytes pad kind v := rfl

theorem opFields_opElem (pad : Record Byte 4) (kind : IrOpKind) (v : ℤ) :
    opFields (opElem pad kind v) = (kind.num, i64 v) := by
  have hnum : kind.num % 256^4 = kind.num := Nat.mod_eq_of_lt (kind.num_lt.trans (by decide))
  have hfront : (leBytes 4 kind.num ++ pad.val).length = 8 := by
    rw [List.length_append, leBytes_length, pad.property]
  rw [opFields, opElem_val, opBytes, List.drop_left' hfront, ofI64Bytes_i64Bytes, List.append_assoc,
    List.take_left' (leBytes_length _ _), ofLeBytes_leBytes, hnum]

theorem Elem.field_length (e : Elem sizeofOp) (v : ℤ) :
    8 + (i64Bytes v).length ≤ e.val.length := by
  rw [i64Bytes_length, e.property]
  decide

/-- The record with another argument. -/
def Elem.withArg (e : Elem sizeofOp) (v : ℤ) : Elem sizeofOp where
  val := overwrite e.val 8 (i64Bytes v)
  property := by rw [overwrite_length (e.field_length v), e.property]

theorem Elem.withArg_val (e : Elem sizeofOp) (v : ℤ) :
    (e.withArg v).val = overwrite e.val 8 (i64Bytes v) := rfl

theorem opFields_withArg (e : Elem sizeofOp) (v : ℤ) :
    opFields (e.withArg v) = ((opFields e).1, i64 v) := by
  have hfront : (e.val.take 8).length = 8 := by
    rw [List.length_take, e.property]
    rfl
  have hback : e.val.drop (8 + (i64Bytes v).length) = [] := by
    rw [i64Bytes_length]
    exact List.drop_eq_nil_of_le (Nat.le_of_eq e.property)
  rw [opFields, Elem.withArg_val, overwrite, hback, List.append_nil, List.drop_left' hfront,
    ofI64Bytes_i64Bytes, List.take_append_of_le_length (by rw [hfront]; decide), List.take_take,
    opFields]
  rfl

/-! ## The vector of ops -/

/-- The vector holds the ops. -/
def VecBase.HasOps (v : VecBase) (ops : List IrOp) : Prop :=
  ∃ es : List (Elem sizeofOp), v.Valid es ∧ es.map opFields = ops.map IrOp.fields

section
variable {v : VecBase} {ops : List IrOp} {op : IrOp} {i : ℕ}

theorem VecBase.HasOps.length (H : v.HasOps ops) : v.length = ops.length := by
  obtain ⟨es, hvalid, hes⟩ := H
  have hlen := congrArg List.length hes
  rw [List.length_map, List.length_map] at hlen
  exact hvalid.length.trans hlen

/-- What is loaded of an op: its kind and its argument. -/
theorem VecBase.HasOps.load (H : v.HasOps ops) (hop : ops[i]? = some op) :
    ∃ stored arg, readWindow v.block (i * sizeofOp) 4 = some stored ∧
      ofLeBytes stored = op.kind.num ∧ readWindow v.block (i * sizeofOp + 8) 8 = some arg ∧
      ofI64Bytes arg = op.arg := by
  obtain ⟨es, hvalid, hes⟩ := H
  obtain ⟨rest, hroom⟩ := hvalid.room
  have hget := congrArg (fun l : List (ℕ × ℤ) => l[i]?) hes
  simp only [List.getElem?_map, hop, Option.map_some, Option.map_eq_some_iff] at hget
  obtain ⟨e, he, hfields⟩ := hget
  obtain ⟨hi, rfl⟩ := List.getElem?_eq_some_iff.mp he
  have hstored := hroom.starts.front.loadField (j := 0) (k := 4) hi (by decide)
  have harg := hroom.starts.front.loadField (j := 8) (k := 8) hi (by decide)
  have hwhole : (es[i].val.drop 8).take 8 = es[i].val.drop 8 := by
    refine List.take_of_length_le ?_
    have hsize : es[i].val.length = 16 := es[i].property
    rw [List.length_drop, hsize]
  rw [List.drop_zero, Nat.add_zero] at hstored
  rw [hwhole] at harg
  rw [opFields, IrOp.fields, Prod.mk.injEq] at hfields
  exact ⟨_, _, hstored, hfields.1, harg, hfields.2⟩

theorem VecBase.Valid.set {es rest : List (Elem sizeofOp)} {d : Option (List Byte)}
    (H : v.Valid es) (hi : i < es.length) (e : Elem sizeofOp)
    (hroom : HasRoom v.capacity d (overwrite (es ++ rest) i [e])) :
    VecBase.Valid { v with data := d } (es.set i e) := by
  have hlen : i < (es ++ rest).length := by
    rw [List.length_append]
    omega
  rw [← set_eq_overwrite hlen, List.set_append_left _ _ hi] at hroom
  have hvalid := H.update hroom
  rw [List.length_set, ← H.length] at hvalid
  exact hvalid

theorem VecBase.HasOps.storeOp (H : v.HasOps ops) (hi : i < ops.length) (pad : Record Byte 4)
    (kind : IrOpKind) (arg : ℤ) :
    ∃ v', v.onBlock (fun b => writeWindow b (i * sizeofOp) (opBytes pad kind arg)) = some v' ∧
      v'.HasOps (ops.set i ⟨kind, i64 arg⟩) := by
  have hlen := H.length
  obtain ⟨es, hvalid, hes⟩ := H
  obtain ⟨rest, hroom⟩ := hvalid.room
  rw [hvalid.length] at hlen
  obtain ⟨d, hstore, hroom'⟩ := hroom.store (i := i) (by rw [List.length_append]; omega)
    (opElem pad kind arg)
  refine ⟨_, hstore, _, hvalid.set (by omega) _ hroom', ?_⟩
  rw [List.map_set, List.map_set, hes, opFields_opElem]
  rfl

theorem VecBase.HasOps.storeArg (H : v.HasOps ops) (hop : ops[i]? = some op) (arg : ℤ) :
    ∃ v', v.onBlock (fun b => writeWindow b (i * sizeofOp + 8) (i64Bytes arg)) = some v' ∧
      v'.HasOps (ops.set i ⟨op.kind, i64 arg⟩) := by
  have hlen := H.length
  obtain ⟨hi, rfl⟩ := List.getElem?_eq_some_iff.mp hop
  obtain ⟨es, hvalid, hes⟩ := H
  obtain ⟨rest, hroom⟩ := hvalid.room
  rw [hvalid.length] at hlen
  have hi' : i < es.length := by omega
  obtain ⟨b, hstore, hb, hstarts⟩ := hroom.starts.storeField (i := i) (j := 8) (w := i64Bytes arg)
    (by rw [List.length_append]; omega) (es[i].withArg arg)
    (by rw [List.getElem_append_left hi']; rfl) (by rw [i64Bytes_length]; decide)
  have hcount : (overwrite (es ++ rest) i [es[i].withArg arg]).length = (es ++ rest).length := by
    rw [overwrite_length]
    rw [List.length_append, List.length_singleton]
    omega
  obtain ⟨d, hblock, hroom'⟩ := hroom.onBlock (f := fun b => writeWindow b (i * sizeofOp + 8) (i64Bytes arg))
    hstore hb hstarts hcount
  refine ⟨_, hblock, _, hvalid.set hi' _ hroom', ?_⟩
  have hkind := congrArg (fun l : List (ℕ × ℤ) => l[i]?) hes
  simp only [List.getElem?_map, List.getElem?_eq_getElem hi, List.getElem?_eq_getElem hi',
    Option.map_some, Option.some.injEq] at hkind
  rw [List.map_set, List.map_set, hes, opFields_withArg, hkind]
  rfl

end

/-! ## The stack of open loops -/

/-- The nodes that are allocated are linked into a list from `patch` on, which carries the
addresses. -/
def OpenLoops (heap : Addr → Option IrPatch) (patch : Option Addr) (addrs : List ℕ) : Prop :=
  ∃ l, Chain (fun a => (heap a).map IrPatch.prev) patch l ∧
    l.map (fun a => (heap a).map IrPatch.addr) = addrs.map some ∧ ∀ a, heap a ≠ none → a ∈ l

section
variable {heap : Addr → Option IrPatch} {patch : Option Addr} {addrs : List ℕ} {a : Addr}

theorem openLoops_init : OpenLoops (fun _ => none) none [] :=
  ⟨[], .nil, rfl, fun _ h => absurd rfl h⟩

theorem map_update_outside {β : Type} {p : Option IrPatch} {l : List Addr} (ha : a ∉ l)
    (f : IrPatch → β) : ∀ b ∈ l, (Function.update heap a p b).map f = (heap b).map f := by
  intro b hb
  have hne : b ≠ a := by
    rintro rfl
    exact ha hb
  rw [Function.update_of_ne hne]

theorem OpenLoops.push (H : OpenLoops heap patch addrs) (ha : heap a = none) (addr : ℕ) :
    OpenLoops (Function.update heap a (some ⟨addr, patch⟩)) (some a) (addr :: addrs) := by
  obtain ⟨l, hchain, haddrs, hall⟩ := H
  have hfree : a ∉ l := by
    intro hmem
    obtain ⟨r, hr⟩ := hchain.live hmem
    rw [ha] at hr
    cases hr
  refine ⟨a :: l, .cons ?_ (hchain.congr (map_update_outside hfree IrPatch.prev)), ?_,
    fun b hb => ?_⟩
  · rw [Function.update_self, Option.map_some]
  · rw [List.map_cons, List.map_cons, Function.update_self, ← haddrs]
    exact congrArg _ (List.map_congr_left (map_update_outside hfree IrPatch.addr))
  · by_cases hba : b = a
    · exact hba ▸ List.mem_cons_self
    · refine List.mem_cons_of_mem a (hall b ?_)
      rwa [Function.update_of_ne hba] at hb

theorem OpenLoops.pop (H : OpenLoops heap (some a) addrs) :
    ∃ addr prev rest, heap a = some ⟨addr, prev⟩ ∧ addrs = addr :: rest ∧
      OpenLoops (Function.update heap a none) prev rest := by
  obtain ⟨l, hchain, haddrs, hall⟩ := H
  obtain ⟨r, l', rfl, hr, hrest⟩ := hchain.of_some
  have hfree : a ∉ l' := (List.nodup_cons.mp hchain.nodup).1
  obtain ⟨⟨addr, prev⟩, hnode, rfl⟩ := Option.map_eq_some_iff.mp hr
  cases addrs with
  | nil => cases haddrs
  | cons addr' rest =>
    rw [List.map_cons, List.map_cons, hnode, List.cons.injEq, Option.map_some,
      Option.some.injEq] at haddrs
    obtain ⟨rfl, haddrs⟩ := haddrs
    refine ⟨addr, prev, rest, hnode, rfl, l',
      hrest.congr (map_update_outside hfree IrPatch.prev), ?_, fun b hb => ?_⟩
    · rw [← haddrs]
      exact List.map_congr_left (map_update_outside hfree IrPatch.addr)
    · by_cases hba : b = a
      · rw [hba, Function.update_self] at hb
        exact absurd rfl hb
      · rw [Function.update_of_ne hba] at hb
        exact (List.mem_cons.mp (hall b hb)).resolve_left hba

theorem OpenLoops.none_iff (H : OpenLoops heap patch addrs) : patch = none ↔ addrs = [] := by
  obtain ⟨l, hchain, haddrs, _⟩ := H
  have hlen := congrArg List.length haddrs
  rw [List.length_map, List.length_map] at hlen
  rw [← List.length_eq_zero_iff, ← hlen, List.length_eq_zero_iff]
  constructor
  · rintro rfl
    exact hchain.of_none
  · rintro rfl
    exact hchain.head

/-- Freeing goes over every node once and leaves none. -/
theorem OpenLoops.freed (H : OpenLoops heap patch addrs) {fuel : ℕ} (hfuel : addrs.length ≤ fuel) :
    freePatches fuel heap patch = some fun _ => none := by
  induction addrs generalizing heap patch fuel with
  | nil =>
    obtain rfl := H.none_iff.mpr rfl
    obtain ⟨l, hchain, _, hall⟩ := H
    obtain rfl := hchain.of_none
    have hnone : heap = fun _ => none := by
      funext a
      by_contra hne
      exact List.not_mem_nil (hall a hne)
    rw [hnone]
    cases fuel <;> rfl
  | cons addr rest ih =>
    cases patch with
    | none => cases H.none_iff.mp rfl
    | some a =>
      obtain ⟨fuel, rfl⟩ := Nat.exists_eq_add_of_le' hfuel
      obtain ⟨addr', prev, rest', hnode, heq, H'⟩ := H.pop
      cases heq
      rw [List.length_cons, ← Nat.add_assoc, freePatches, hnode]
      exact ih H' (Nat.le_add_left _ _)

end

/-! ## One turn -/

section
variable {m m' : IrMemory} {turn : Turn} {ctx : IrCtx} {kind : IrOpKind} {v : ℤ} {a : Addr}

/-- What all cases of the switch keep, the switch keeps. -/
theorem memory_parseSwitch {F : Option IrMemory → IrCtx → Prop}
    (hpush : ∀ kind v, F (m.pushOp turn kind v) (pushOp ctx kind v))
    (hcoalesce : ∀ kind v, F (m.coalesce turn kind v) (coalesce ctx kind v))
    (hopen : F (m.openLoop turn) (openLoop ctx))
    (hclose : ∀ a addr prev, m.patch = some a → ctx.patch = addr :: prev →
      F (m.closeLoop turn a) (closeLoop ctx addr prev))
    (hskip : F (some m) ctx) (hnone : m.patch = none ↔ ctx.patch = []) (c : Byte) (count : ℕ) :
    (parseSwitch ctx c count = none ∧ m.parseSwitch turn c count = some none) ∨
    ∃ ctx' advance r, parseSwitch ctx c count = some (ctx', advance) ∧
      m.parseSwitch turn c count = Option.map (fun m => some (m, advance)) r ∧ F r ctx' := by
  unfold parseSwitch IrMemory.parseSwitch
  by_cases h₁ : c = ascii ','
  · rw [if_pos h₁, if_pos h₁]
    exact .inr ⟨_, _, _, rfl, rfl, hpush _ _⟩
  rw [if_neg h₁, if_neg h₁]
  by_cases h₂ : c = ascii '.'
  · rw [if_pos h₂, if_pos h₂]
    exact .inr ⟨_, _, _, rfl, rfl, hpush _ _⟩
  rw [if_neg h₂, if_neg h₂]
  by_cases h₃ : c = ascii '+'
  · rw [if_pos h₃, if_pos h₃]
    exact .inr ⟨_, _, _, rfl, rfl, hcoalesce _ _⟩
  rw [if_neg h₃, if_neg h₃]
  by_cases h₄ : c = ascii '-'
  · rw [if_pos h₄, if_pos h₄]
    exact .inr ⟨_, _, _, rfl, rfl, hcoalesce _ _⟩
  rw [if_neg h₄, if_neg h₄]
  by_cases h₅ : c = ascii '>'
  · rw [if_pos h₅, if_pos h₅]
    exact .inr ⟨_, _, _, rfl, rfl, hcoalesce _ _⟩
  rw [if_neg h₅, if_neg h₅]
  by_cases h₆ : c = ascii '<'
  · rw [if_pos h₆, if_pos h₆]
    exact .inr ⟨_, _, _, rfl, rfl, hcoalesce _ _⟩
  rw [if_neg h₆, if_neg h₆]
  by_cases h₇ : c = ascii '['
  · rw [if_pos h₇, if_pos h₇]
    exact .inr ⟨_, _, _, rfl, rfl, hopen⟩
  rw [if_neg h₇, if_neg h₇]
  by_cases h₈ : c = ascii ']'
  · rw [if_pos h₈, if_pos h₈]
    cases hpatch : m.patch with
    | none =>
      rw [hnone.mp hpatch]
      exact .inl ⟨rfl, rfl⟩
    | some a =>
      cases haddrs : ctx.patch with
      | nil => cases hpatch.symm.trans (hnone.mpr haddrs)
      | cons addr prev => exact .inr ⟨_, _, _, rfl, rfl, hclose a addr prev hpatch haddrs⟩
  rw [if_neg h₈, if_neg h₈]
  exact .inr ⟨_, _, some m, rfl, rfl, hskip⟩

/-! ## Whatever the allocators answer -/

theorem pushOp_nodes (h : m.pushOp turn kind v = some m') :
    m'.heap = m.heap ∧ m'.patch = m.patch := by
  obtain ⟨r, _, rfl⟩ := Option.map_eq_some_iff.mp h
  exact ⟨rfl, rfl⟩

theorem coalesce_nodes (h : m.coalesce turn kind v = some m') :
    m'.heap = m.heap ∧ m'.patch = m.patch := by
  unfold IrMemory.coalesce at h
  simp only at h
  split at h
  · obtain ⟨stored, _, h⟩ := Option.bind_eq_some_iff.mp h
    split at h
    · obtain ⟨arg, _, h⟩ := Option.bind_eq_some_iff.mp h
      obtain ⟨vec, _, h⟩ := Option.bind_eq_some_iff.mp h
      cases h
      exact ⟨rfl, rfl⟩
    · exact pushOp_nodes h
  · exact pushOp_nodes h

theorem openLoop_nodes {addrs : List ℕ} (H : OpenLoops m.heap m.patch addrs)
    (h : m.openLoop turn = some m') : OpenLoops m'.heap m'.patch (m.vec.length :: addrs) := by
  obtain ⟨a, ha, hpush⟩ := Option.bind_eq_some_iff.mp h
  obtain ⟨hheap, hpatch⟩ := pushOp_nodes hpush
  rw [hheap, hpatch]
  exact H.push (turn.calloc.fresh _ _ ha) _

theorem closeLoop_nodes {addrs : List ℕ} (H : OpenLoops m.heap m.patch addrs)
    (ha : m.patch = some a) (h : m.closeLoop turn a = some m') :
    OpenLoops m'.heap m'.patch addrs.tail := by
  rw [ha] at H
  obtain ⟨addr, prev, rest, hnode, rfl, hrest⟩ := H.pop
  obtain ⟨patch, hpatch, h⟩ := Option.bind_eq_some_iff.mp h
  obtain ⟨vec, _, h⟩ := Option.bind_eq_some_iff.mp h
  obtain ⟨m₁, hpush, h⟩ := Option.bind_eq_some_iff.mp h
  obtain ⟨hheap, _⟩ := pushOp_nodes hpush
  rw [hnode, Option.some.injEq] at hpatch
  cases hpatch
  cases h
  rw [hheap]
  exact hrest

/-- So many loops are open. -/
def IrMemory.Deep (m : IrMemory) (n : ℕ) : Prop :=
  ∃ addrs, OpenLoops m.heap m.patch addrs ∧ addrs.length = n

theorem IrMemory.Deep.parseSwitch (H : m.Deep ctx.patch.length) (c : Byte) (count : ℕ) :
    (Bfcomp.parseSwitch ctx c count = none ∧ m.parseSwitch turn c count = some none) ∨
    ∃ ctx' advance r, Bfcomp.parseSwitch ctx c count = some (ctx', advance) ∧
      m.parseSwitch turn c count = Option.map (fun m => some (m, advance)) r ∧
      ∀ m', r = some m' → m'.Deep ctx'.patch.length := by
  obtain ⟨addrs, hnodes, hlen⟩ := H
  refine memory_parseSwitch ?_ ?_ ?_ ?_ ?_ ?_ c count
  · rintro kind v m' h
    obtain ⟨hheap, hpatch⟩ := pushOp_nodes h
    exact ⟨addrs, by rw [hheap, hpatch]; exact hnodes, hlen⟩
  · rintro kind v m' h
    obtain ⟨hheap, hpatch⟩ := coalesce_nodes h
    exact ⟨addrs, by rw [hheap, hpatch]; exact hnodes, by rw [coalesce_patch]; exact hlen⟩
  · intro m' h
    exact ⟨_, openLoop_nodes hnodes h, congrArg (· + 1) hlen⟩
  · rintro a addr prev ha hpatch m' h
    rw [hpatch, List.length_cons] at hlen
    refine ⟨_, closeLoop_nodes hnodes ha h, ?_⟩
    rw [List.length_tail, hlen]
    rfl
  · rintro m' ⟨⟩
    exact ⟨addrs, hnodes, hlen⟩
  · rw [hnodes.none_iff, ← List.length_eq_zero_iff, hlen, List.length_eq_zero_iff]

/-- What the parser returns and what it prints do not depend on the answers. -/
theorem IrMemory.Deep.parseLoop (turns : ℕ → Turn) (H : m.Deep ctx.patch.length) {pos skip : ℕ}
    {src : List Byte} {r : MemoryResult} (h : m.parseLoop turns pos skip src = some r) :
    r.status = (Bfcomp.parseLoop ctx skip src).status ∧
      r.stderr = (Bfcomp.parseLoop ctx skip src).stderr ∧
      r.mem.Deep (Bfcomp.parseLoop ctx skip src).ctx.patch.length := by
  induction src generalizing m ctx pos skip with
  | nil =>
    cases skip <;> cases h <;> exact ⟨rfl, rfl, H⟩
  | cons c src ih =>
    cases skip with
    | succ skip => exact ih H h
    | zero =>
      obtain ⟨o, ho, h⟩ := Option.bind_eq_some_iff.mp h
      rw [Bfcomp.parseLoop]
      rcases H.parseSwitch c (countChar (c :: src) c) with ⟨hctx, hmem⟩ |
        ⟨ctx', advance, r', hctx, hmem, hdeep⟩
      · rw [hmem] at ho
        cases ho
        cases h
        rw [hctx]
        exact ⟨rfl, rfl, H⟩
      · rw [hmem] at ho
        obtain ⟨m₁, rfl, rfl⟩ := Option.map_eq_some_iff.mp ho
        rw [hctx]
        exact ih (hdeep m₁ rfl) h

/-! ## While memory is granted -/

/-- The memory holds the context. -/
structure IrMemory.Mirrors (m : IrMemory) (ctx : IrCtx) : Prop where
  ops : m.vec.HasOps ctx.data
  nodes : OpenLoops m.heap m.patch ctx.patch
  inside : ∀ addr ∈ ctx.patch, addr < ctx.data.length

/-- There is memory; `calloc` finds some as long as only a list of places is taken. -/
structure Turn.Grants (turn : Turn) : Prop where
  answer : turn.answer ≠ none
  calloc : ∀ heap (l : List Addr), (∀ a, heap a ≠ none → a ∈ l) → turn.calloc.pick heap ≠ none

section
variable {ops : List IrOp}

theorem pushOp_granted (hg : turn.Grants) (H : m.vec.HasOps ops)
    (hfit : 32 * (ops.length + 1) < 2^63) (kind : IrOpKind) (v : ℤ) :
    ∃ vec : VecBase, m.pushOp turn kind v = some { m with vec := vec } ∧
      vec.HasOps (ops ++ [⟨kind, i64 v⟩]) := by
  have hlen := H.length
  obtain ⟨es, hvalid, hes⟩ := H
  rw [hvalid.length] at hlen
  rcases vecPush_spec (by decide) (by decide) hvalid (opElem (turn.pad kind) kind v) with
    ⟨vec, hpush, hvalid', _⟩ | ⟨_, hno⟩
  · refine ⟨vec, congrArg (Option.map _) hpush, _, hvalid', ?_⟩
    rw [List.map_append, List.map_append, hes]
    exact congrArg _ (congrArg (fun x => [x]) (opFields_opElem _ _ _))
  · refine absurd hno ?_
    rintro (hnone | hbig)
    · exact hg.answer hnone
    · have hsize : 2^63 ≤ 2 * (es.length + 1) * 16 := hbig
      omega

theorem coalesce_nil (h : ctx.data = []) : coalesce ctx kind v = pushOp ctx kind v := by
  rw [coalesce, h]
  rfl

theorem coalesce_concat {init : List IrOp} {op : IrOp} (h : ctx.data = init ++ [op]) :
    coalesce ctx kind v = if op.kind = kind then
      { ctx with data := init ++ [⟨kind, i64 (op.arg + v)⟩] } else pushOp ctx kind v := by
  rw [coalesce, h, List.getLast?_concat, List.dropLast_concat]

theorem coalesce_granted (hg : turn.Grants) (H : m.vec.HasOps ctx.data)
    (hfit : 32 * (ctx.data.length + 1) < 2^63) (kind : IrOpKind) (v : ℤ) :
    ∃ vec : VecBase, m.coalesce turn kind v = some { m with vec := vec } ∧
      vec.HasOps (coalesce ctx kind v).data := by
  have hpush := pushOp_granted hg H hfit kind v
  have hlen := H.length
  unfold IrMemory.coalesce
  rcases List.eq_nil_or_concat ctx.data with hnil | ⟨init, op, hdata⟩
  · rw [hnil, List.length_nil] at hlen
    rw [coalesce_nil hnil, hlen]
    exact hpush
  · rw [List.concat_eq_append] at hdata
    have hinit : m.vec.length - 1 = init.length := by
      rw [hlen, hdata, List.length_append, List.length_singleton, Nat.add_sub_cancel]
    have hpos : m.vec.length > 0 := by
      rw [hlen, hdata, List.length_append, List.length_singleton]
      exact Nat.succ_pos _
    have hop : ctx.data[init.length]? = some op := by
      rw [hdata, List.getElem?_concat_length]
    obtain ⟨stored, arg, hstored, hkind, harg, hvalue⟩ := H.load hop
    rw [coalesce_concat hdata]
    simp only [hpos, if_true, hinit, hstored, Option.bind_eq_bind, Option.bind_some, hkind,
      IrOpKind.num_injective.eq_iff, harg]
    by_cases hsame : op.kind = kind
    · obtain ⟨vec, hstore, hops⟩ := H.storeArg hop (ofLeBytes arg + v)
      have hset : ctx.data.set init.length ⟨op.kind, i64 (ofLeBytes arg + v)⟩ =
          init ++ [⟨kind, i64 (op.arg + v)⟩] := by
        rw [hdata, List.set_append_right _ _ (Nat.le_refl _), Nat.sub_self, hsame, ← hvalue,
          ← i64Bytes_add, ofI64Bytes_i64Bytes]
        rfl
      rw [hset] at hops
      rw [if_pos hsame, if_pos hsame, hstore]
      exact ⟨vec, rfl, hops⟩
    · rw [if_neg hsame, if_neg hsame]
      exact hpush

end

theorem openLoop_granted (hg : turn.Grants) (H : m.Mirrors ctx)
    (hfit : 32 * (ctx.data.length + 1) < 2^63) :
    ∃ m', m.openLoop turn = some m' ∧ m'.Mirrors (openLoop ctx) := by
  obtain ⟨l, _, _, hall⟩ := H.nodes
  obtain ⟨a, ha⟩ := Option.ne_none_iff_exists'.mp (hg.calloc m.heap l hall)
  obtain ⟨vec, hpush, hops⟩ := pushOp_granted
    (m := ⟨m.vec, Function.update m.heap a (some ⟨m.vec.length, m.patch⟩), some a⟩)
    hg H.ops hfit .loopStart 0
  have hnodes := H.nodes.push (turn.calloc.fresh _ _ ha) m.vec.length
  refine ⟨_, by rw [IrMemory.openLoop, ha]; exact hpush, hops, ?_, ?_⟩
  · rw [H.ops.length] at hnodes ⊢
    exact hnodes
  · intro addr hmem
    have hgrown : (openLoop ctx).data.length = ctx.data.length + 1 := List.length_append
    rw [hgrown]
    rcases List.mem_cons.mp hmem with rfl | hmem
    · exact Nat.lt_succ_self _
    · exact Nat.lt_succ_of_lt (H.inside addr hmem)

theorem closeLoop_granted (hg : turn.Grants) (H : m.Mirrors ctx)
    (hfit : 32 * (ctx.data.length + 1) < 2^63) {addr : ℕ} {prev : List ℕ} (ha : m.patch = some a)
    (haddr : ctx.patch = addr :: prev) :
    ∃ m', m.closeLoop turn a = some m' ∧ m'.Mirrors (closeLoop ctx addr prev) := by
  have hnodes := H.nodes
  have hlen := H.ops.length
  rw [ha] at hnodes
  obtain ⟨addr', link, rest, hnode, heq, hrest⟩ := hnodes.pop
  rw [haddr, List.cons.injEq] at heq
  obtain ⟨rfl, rfl⟩ := heq
  have hinside : addr < ctx.data.length := H.inside addr (by rw [haddr]; exact List.mem_cons_self)
  have hdelta : i64 ((ctx.data.length : ℤ) - addr) = (ctx.data.length : ℤ) - addr :=
    i64_of_range (by omega) (by omega)
  have hneg : i64 (-((ctx.data.length : ℤ) - addr)) = -((ctx.data.length : ℤ) - addr) :=
    i64_of_range (by omega) (by omega)
  obtain ⟨vec, hstore, hops⟩ := H.ops.storeOp hinside (turn.pad .loopStart) .loopStart
    ((ctx.data.length : ℤ) - addr)
  obtain ⟨vec', hpush, hops'⟩ := pushOp_granted (m := ⟨vec, m.heap, m.patch⟩) hg hops
    (by rw [List.length_set]; exact hfit) .loopEnd (-((ctx.data.length : ℤ) - addr))
  rw [hdelta, hneg] at hops'
  refine ⟨⟨vec', Function.update m.heap a none, link⟩, ?_, hops', hrest, fun b hb => ?_⟩
  · simp only [IrMemory.closeLoop, hnode, Option.bind_eq_bind, Option.bind_some, hlen, hstore, hpush]
  · have hgrown : (closeLoop ctx addr prev).data.length = ctx.data.length + 1 := by
      simp only [closeLoop, List.length_append, List.length_set, List.length_singleton]
    have hb' := H.inside b (by rw [haddr]; exact List.mem_cons_of_mem _ hb)
    omega

theorem coalesce_length (ctx : IrCtx) (kind : IrOpKind) (v : ℤ) :
    ctx.data.length ≤ (coalesce ctx kind v).data.length ∧
      (coalesce ctx kind v).data.length ≤ ctx.data.length + 1 := by
  rcases coalesce_cases ctx kind v with ⟨init, arg, hdata, heq⟩ | ⟨_, heq⟩
  · rw [heq, hdata, List.length_append, List.length_append, List.length_singleton,
      List.length_singleton]
    omega
  · rw [heq, pushOp, List.length_append, List.length_singleton]
    omega

/-- A turn adds at most one op. -/
theorem parseSwitch_length {ctx' : IrCtx} {c : Byte} {count advance : ℕ}
    (h : parseSwitch ctx c count = some (ctx', advance)) :
    ctx'.data.length ≤ ctx.data.length + 1 := by
  rcases parseSwitch_cases h with ⟨kind, _, rfl, _⟩ | ⟨kind, v, _, _, rfl, _⟩ | ⟨rfl, _⟩ |
    ⟨addr, prev, _, rfl, _⟩ | ⟨rfl, _⟩
  · exact Nat.le_of_eq List.length_append
  · exact (coalesce_length ctx kind v).2
  · exact Nat.le_of_eq List.length_append
  · rw [closeLoop, List.length_append, List.length_set]
    exact Nat.le_refl _
  · exact Nat.le_succ _

theorem IrMemory.Mirrors.parseSwitch (hg : turn.Grants) (H : m.Mirrors ctx)
    (hfit : 32 * (ctx.data.length + 1) < 2^63) (c : Byte) (count : ℕ) :
    (Bfcomp.parseSwitch ctx c count = none ∧ m.parseSwitch turn c count = some none) ∨
    ∃ ctx' advance r, Bfcomp.parseSwitch ctx c count = some (ctx', advance) ∧
      m.parseSwitch turn c count = Option.map (fun m => some (m, advance)) r ∧
      ∃ m', r = some m' ∧ m'.Mirrors ctx' := by
  refine memory_parseSwitch (fun kind v => ?_) (fun kind v => ?_) (openLoop_granted hg H hfit)
    (fun a addr prev => closeLoop_granted hg H hfit) ⟨m, rfl, H⟩ H.nodes.none_iff c count
  · obtain ⟨vec, hpush, hops⟩ := pushOp_granted hg H.ops hfit kind v
    refine ⟨_, hpush, hops, H.nodes, fun addr hmem => (H.inside addr hmem).trans_le ?_⟩
    have hgrown : (Bfcomp.pushOp ctx kind v).data.length = ctx.data.length + 1 := List.length_append
    omega
  · obtain ⟨vec, hcoalesce, hops⟩ := coalesce_granted hg H.ops hfit kind v
    refine ⟨_, hcoalesce, hops, ?_, ?_⟩
    · rw [coalesce_patch]
      exact H.nodes
    · rw [coalesce_patch]
      exact fun addr hmem => (H.inside addr hmem).trans_le (coalesce_length _ _ _).1

/-- While memory is granted, the parser in memory does what the parser does. -/
theorem IrMemory.Mirrors.parseLoop {turns : ℕ → Turn} (hg : ∀ i, (turns i).Grants)
    (H : m.Mirrors ctx) (src : List Byte) (hfit : 32 * (ctx.data.length + src.length + 1) < 2^63)
    (pos skip : ℕ) :
    ∃ m', m.parseLoop turns pos skip src = some ⟨(Bfcomp.parseLoop ctx skip src).status, m',
        (Bfcomp.parseLoop ctx skip src).stderr⟩ ∧
      m'.Mirrors (Bfcomp.parseLoop ctx skip src).ctx := by
  induction src generalizing m ctx pos skip with
  | nil => cases skip <;> exact ⟨m, rfl, H⟩
  | cons c src ih =>
    rw [List.length_cons] at hfit
    cases skip with
    | succ skip => exact ih H (by omega) (pos + 1) skip
    | zero =>
      rw [Bfcomp.parseLoop, IrMemory.parseLoop]
      rcases H.parseSwitch (hg pos) (by omega) c (countChar (c :: src) c) with ⟨hctx, hmem⟩ |
        ⟨ctx', advance, _, hctx, hmem, m₁, rfl, H₁⟩
      · rw [hctx, hmem]
        exact ⟨m, rfl, H⟩
      · rw [hctx, hmem]
        have hgrown := parseSwitch_length hctx
        exact ih H₁ (by omega) (pos + 1) (advance - 1)

end

end Bfcomp
