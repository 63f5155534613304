import Bfcomp.Ocaml.Bytes
import Bfcomp.Ocaml.Parser
import Mathlib.Algebra.Order.BigOperators.Group.List

/-! # Backings (`lib/bytetype.ml`)

How a type is written to bytes and read from them, and the iterables of a backed type. The writer of
an iterable folds over its elements and adds up their sizes, but the place it writes to does not move
on; the reader does move on. -/

namespace Bfcomp.Ocaml
set_option autoImplicit false

/-- A call that returns or raises; `none` is one that has not come to an end. -/
abbrev Result := ExceptT Exn Option

def Result.of {α : Type} (x : Except Exn α) : Result α := ExceptT.mk (some x)

/-- `'a size`. -/
inductive Size (α : Type) where
  | static (s : ℕ)
  | dynamic (s : α → Option ℕ)

def Size.of {α : Type} : Size α → α → Option ℕ
  | static s, _ => some s
  | dynamic s, v => s v

/-- `'a backing`. What `toBytes` returns is the number of bytes written, and the bytes after it. -/
structure Backing (α : Type) where
  size : Size α
  toBytes : Bytes → ℕ → α → Result (ℕ × Bytes)
  fromBytes : Bytes → ℕ → Except Exn α

/-- `'a field`. -/
structure Field (α : Type) where
  value : α
  backing : Backing α

namespace Field
variable {α : Type}

def write (b : Bytes) (i : ℕ) (f : Field α) : Result (ℕ × Bytes) := f.backing.toBytes b i f.value

def read (b : Bytes) (i : ℕ) (t : Backing α) : Except Exn (Field α) :=
  (t.fromBytes b i).map fun v => ⟨v, t⟩

def sizeof (f : Field α) : Option ℕ := f.backing.size.of f.value

end Field

/-! ## Iterables -/

/-- `iterT`. A fold with effects is a fold over computations; the calls that `init` makes go from one
state to the next. -/
structure IterT (ε γ : Type) where
  fold : {σ : Type} → (σ → ε → σ) → σ → γ → σ
  init : {σ : Type} → ℕ → (ℕ → σ → Except Exn (ε × σ)) → σ → Except Exn (γ × σ)

namespace T

def mkConst {α : Type} (s : ℕ) (t : Bytes → ℕ → α → Except Exn Bytes) (f : Bytes → ℕ → Except Exn α) :
    Backing α :=
  ⟨.static s, fun b i v => .of ((t b i v).map fun b => (s, b)), f⟩

def mkIter {ε γ : Type} (iter : IterT ε γ) (t : Backing ε) (l : ℕ) : Backing γ where
  size := .dynamic fun o =>
    iter.fold (fun acc e => acc.bind fun x =>
      match t.size with
      | .static s => some (x + s)
      | .dynamic s => (s e).map (x + ·)) (some 0) o
  toBytes := fun b i v =>
    iter.fold (fun call x => call >>= fun (acc, b) =>
      t.toBytes b i x >>= fun (written, b) => pure (acc + written, b)) (pure (0, b)) v
  fromBytes := fun b i =>
    (iter.init l (fun _ written =>
      (t.fromBytes b (i + written)).map fun elem =>
        match t.size with
        | .static s => (elem, s + written)
        | .dynamic sf =>
          match sf elem with
          | some s => (elem, s + written)
          | none => (elem, written)) 0).map Prod.fst

def char : Backing Byte := mkConst 1 Bytes.set Bytes.get

end T

/-- The calls `f i`, `f (i + 1)`, … of `List.init`. -/
def initFrom {ε σ : Type} (f : ℕ → σ → Except Exn (ε × σ)) : ℕ → ℕ → σ → Except Exn (List ε × σ)
  | 0, _, s => .ok ([], s)
  | n + 1, i, s =>
    (f i s).bind fun (e, s) => (initFrom f n (i + 1) s).map fun (es, s) => (e :: es, s)

namespace IterT

def list (ε : Type) : IterT ε (List ε) where
  fold := fun f a v => v.foldl f a
  init := fun l f s => initFrom f l 0 s

def array (ε : Type) : IterT ε (Array ε) where
  fold := fun f a v => v.foldl f a
  init := fun l f s => (initFrom f l 0 s).map fun (es, s) => (es.toArray, s)

def string : IterT Byte MlString where
  fold := fun f a v => v.bytes.foldl f a
  init := fun l f s =>
    if l ≤ 144115188075855863 then
      (initFrom f l 0 s).bind fun (es, s) =>
        if h : es.length ≤ 144115188075855863 then .ok (⟨es, h⟩, s)
        else .error (.invalidArgument "Bytes.create")
    else .error (.invalidArgument "Bytes.create")

end IterT

namespace T
variable {α : Type}

def array (t : Backing α) (l : ℕ) : Backing (Array α) := mkIter (.array α) t l
def list (t : Backing α) (l : ℕ) : Backing (List α) := mkIter (.list α) t l
def string (l : ℕ) : Backing MlString := mkIter .string char l

end T

namespace Field
variable {α : Type}

def list (t : Backing α) (v : List α) : Field (List α) := ⟨v, T.list t v.length⟩
def array (t : Backing α) (v : Array α) : Field (Array α) := ⟨v, T.array t v.size⟩
def string (v : MlString) : Field MlString := ⟨v, T.string v.bytes.length⟩
def padding (t : Backing α) (n : ℕ) (v : α) : Field (Array α) := ⟨.replicate n v, T.array t n⟩

end Field

/-! ## Lawful backings -/

theorem Result.pure_inj {α : Type} {x y : α} (h : (pure x : Result α) = pure y) : x = y := by
  have hsome : some (Except.ok x : Except Exn α) = some (.ok y) := h
  cases hsome
  rfl

section
variable {α : Type} {t : Backing α} {P : α → Prop} {b b' c : Bytes} {i : ℕ} {e : α} {es v : List α}

/-- The number of bytes of an element; no bytes if its size is unknown. -/
def Backing.bytes (t : Backing α) (e : α) : ℕ := (t.size.of e).getD 0

def Backing.total (t : Backing α) (v : List α) : ℕ := (v.map t.bytes).sum

@[simp] theorem Backing.total_nil (t : Backing α) : t.total [] = 0 := rfl

@[simp] theorem Backing.total_cons (t : Backing α) (e : α) (v : List α) :
    t.total (e :: v) = t.bytes e + t.total v := by
  simp [Backing.total]

theorem Backing.total_append (t : Backing α) (v w : List α) :
    t.total (v ++ w) = t.total v + t.total w := by
  simp [Backing.total]

theorem Backing.bytes_le_total (he : e ∈ v) : t.bytes e ≤ t.total v :=
  List.single_le_sum (fun _ _ => Nat.zero_le _) _ (List.mem_map_of_mem he)

/-- What has been written at `i` of `b`: the element is there in all bytes that agree with it. -/
def Backing.Wrote (t : Backing α) (b : Bytes) (i n : ℕ) (e : α) (b' : Bytes) : Prop :=
  t.toBytes b i e = pure (n, b') ∧ SameOutside b b' i n ∧
    ∀ c : Bytes, c.length = b.length → SameWithin b' c i n → t.fromBytes c i = .ok e

/-- Every element that the backing is for has a size. Wherever there is room for it, the writer writes
that number of bytes and no others, and the reader gets the element back from these bytes. -/
def Backing.LawfulOn (t : Backing α) (P : α → Prop) : Prop :=
  ∀ e, P e → ∃ n, t.size.of e = some n ∧
    ∀ (b : Bytes) (i : ℕ), i + n ≤ b.length → ∃ b', t.Wrote b i n e b'

theorem Backing.LawfulOn.size (ht : t.LawfulOn P) (he : P e) : t.size.of e = some (t.bytes e) := by
  obtain ⟨n, hn, _⟩ := ht e he
  rw [Backing.bytes, hn]
  rfl

theorem Backing.LawfulOn.write (ht : t.LawfulOn P) (he : P e) (h : i + t.bytes e ≤ b.length) :
    ∃ b', t.Wrote b i (t.bytes e) e b' := by
  obtain ⟨n, hn, hwrite⟩ := ht e he
  have hbytes : t.bytes e = n := by
    rw [Backing.bytes, hn]
    rfl
  rw [hbytes] at h ⊢
  exact hwrite b i h

/-- What has been written at `i` of `b`, and is undone by the reader. -/
def Backing.Puts (t : Backing α) (b : Bytes) (i n : ℕ) (e : α) (b' : Bytes) : Prop :=
  t.toBytes b i e = pure (n, b') ∧ SameOutside b b' i n ∧ t.fromBytes b' i = .ok e

/-- Every element has a size. Wherever there is room for it, the writer writes that number of bytes and
no others, and the reader undoes this. Other bytes may play a part in both. -/
def Backing.Lawful (t : Backing α) : Prop :=
  ∀ e, ∃ n, t.size.of e = some n ∧
    ∀ (b : Bytes) (i : ℕ), i + n ≤ b.length → ∃ b', t.Puts b i n e b'

theorem Backing.LawfulOn.lawful (ht : t.LawfulOn fun _ => True) : t.Lawful := by
  intro e
  obtain ⟨n, hn, hwrite⟩ := ht e trivial
  refine ⟨n, hn, fun b i h => ?_⟩
  obtain ⟨b', hb, hout, hread⟩ := hwrite b i h
  exact ⟨b', hb, hout, hread b' hout.1 fun _ _ _ => rfl⟩

theorem Backing.Lawful.size (ht : t.Lawful) (e : α) : t.size.of e = some (t.bytes e) := by
  obtain ⟨n, hn, _⟩ := ht e
  rw [Backing.bytes, hn]
  rfl

theorem Backing.Lawful.write (ht : t.Lawful) (e : α) (h : i + t.bytes e ≤ b.length) :
    ∃ b', t.Puts b i (t.bytes e) e b' := by
  obtain ⟨n, hn, hwrite⟩ := ht e
  have hbytes : t.bytes e = n := by
    rw [Backing.bytes, hn]
    rfl
  rw [hbytes] at h ⊢
  exact hwrite b i h

/-- The reader looks at no bytes before its offset. -/
def Backing.ReadsForward (t : Backing α) : Prop :=
  ∀ (b b' : Bytes) (i : ℕ), b.length = b'.length → (∀ j, i ≤ j → b[j]? = b'[j]?) →
    t.fromBytes b i = t.fromBytes b' i

theorem T.char_lawful : T.char.LawfulOn fun _ => True := by
  intro e _
  refine ⟨1, rfl, fun b i h => ⟨overwrite b i [e], ?_, overwrite_outside h, fun b' _ hb' => ?_⟩⟩
  · have hset : Bytes.set b i e = .ok (overwrite b i [e]) := if_pos h
    simp only [T.char, T.mkConst, hset]
    rfl
  · have hget : b'[i]? = some e := by
      rw [hb' i (Nat.le_refl i) (Nat.lt_succ_self i)]
      exact overwrite_getElem? (k := 0) h Nat.one_pos
    simp only [T.char, T.mkConst, Bytes.get, hget]

theorem T.char_readsForward : T.char.ReadsForward := by
  intro b c i _ h
  simp only [T.char, T.mkConst, Bytes.get, h i (Nat.le_refl i)]

/-! ## What the iterables write -/

/-- The elements of `v`, written one over the other at `i`. -/
def Stacked (t : Backing α) (i : ℕ) : Bytes → List α → Bytes → Prop
  | b, [], b' => b' = b
  | b, e :: v, b' => ∃ c, t.Puts b i (t.bytes e) e c ∧ Stacked t i c v b'

theorem stacked_exists (ht : t.Lawful) {m : ℕ} (hm : ∀ e ∈ v, t.bytes e ≤ m) (h : i + m ≤ b.length) : ∃ b', Stacked t i b v b' := by
  induction v generalizing b with
  | nil => exact ⟨b, rfl⟩
  | cons e v ih =>
    rw [List.forall_mem_cons] at hm
    obtain ⟨c, hc⟩ := ht.write (b := b) (i := i) e (by omega)
    obtain ⟨b', hb'⟩ := ih hm.2 (hc.2.1.1 ▸ h)
    exact ⟨b', c, hc, hb'⟩

theorem Stacked.outside (h : Stacked t i b v b') {m : ℕ} (hm : ∀ e ∈ v, t.bytes e ≤ m) :
    SameOutside b b' i m := by
  induction v generalizing b with
  | nil =>
    rw [show b' = b from h]
    exact SameOutside.refl b i m
  | cons e v ih =>
    obtain ⟨c, hc, hrest⟩ := h
    rw [List.forall_mem_cons] at hm
    exact (hc.2.1.mono (Nat.le_refl i) (by omega)).trans (ih hrest hm.2)

theorem Stacked.last (h : Stacked t i b (v ++ [e]) b') : ∃ c, t.Puts c i (t.bytes e) e b' := by
  induction v generalizing b with
  | nil =>
    obtain ⟨c, hc, hrest⟩ := h
    cases hrest
    exact ⟨b, hc⟩
  | cons x v ih =>
    obtain ⟨c, _, hrest⟩ := h
    exact ih hrest

theorem Stacked.last_read (h : Stacked t i b (v ++ [e]) b') : t.fromBytes b' i = .ok e := by
  obtain ⟨c, _, _, hread⟩ := h.last
  exact hread

theorem Stacked.foldl (h : Stacked t i b v b') (k : ℕ) :
    v.foldl (fun (call : Result (ℕ × Bytes)) x => call >>= fun (acc, b) =>
        t.toBytes b i x >>= fun (written, b) => pure (acc + written, b)) (pure (k, b)) =
      pure (k + t.total v, b') := by
  induction v generalizing b k with
  | nil =>
    cases h
    rfl
  | cons e v ih =>
    obtain ⟨c, hc, hrest⟩ := h
    rw [List.foldl_cons, pure_bind]
    simp only
    rw [hc.1, pure_bind]
    simp only
    rw [ih hrest, Backing.total_cons, Nat.add_assoc]

/-! ## What they read -/

/-- The reader finds the elements one after the other. -/
def ReadsAt (t : Backing α) (b : Bytes) : ℕ → List α → Prop
  | _, [] => True
  | i, e :: es => t.fromBytes b i = .ok e ∧ ReadsAt t b (i + t.bytes e) es

theorem readsAt_append : ReadsAt t b i (es ++ v) ↔ ReadsAt t b i es ∧ ReadsAt t b (i + t.total es) v := by
  induction es generalizing i with
  | nil => simp [ReadsAt]
  | cons e es ih =>
    rw [List.cons_append, ReadsAt, ReadsAt, ih, Backing.total_cons, Nat.add_assoc, and_assoc]

theorem readsAt_of_split (h : ∀ (w u : List α) (e : α), v = w ++ e :: u →
    t.fromBytes b (i + t.total w) = .ok e) : ReadsAt t b i v := by
  induction v generalizing i with
  | nil => trivial
  | cons e v ih =>
    refine ⟨h [] v e rfl, ih fun w u x hsplit => ?_⟩
    rw [Nat.add_assoc, ← Backing.total_cons]
    exact h (e :: w) u x (by rw [hsplit, List.cons_append])

/-- The call that `init` makes for each element. -/
def readNext (t : Backing α) (b : Bytes) (i : ℕ) (_ written : ℕ) : Except Exn (α × ℕ) :=
  (t.fromBytes b (i + written)).map fun elem => (elem, written + t.bytes elem)

theorem initFrom_readsAt (k written : ℕ) :
    (∃ s, initFrom (readNext t b i) es.length k written = .ok (es, s)) ↔
      ReadsAt t b (i + written) es := by
  induction es generalizing k written with
  | nil => exact iff_of_true ⟨written, rfl⟩ trivial
  | cons e es ih =>
    rw [List.length_cons, initFrom, readNext, ReadsAt, Nat.add_assoc, ← ih (k + 1)]
    cases t.fromBytes b (i + written) with
    | error x =>
      constructor
      · rintro ⟨_, h⟩
        cases h
      · rintro ⟨h, _⟩
        cases h
    | ok elem =>
      simp only [Except.map, Except.bind]
      constructor
      · rintro ⟨s, h⟩
        split at h
        · cases h
        · rename_i r hr
          cases h
          exact ⟨rfl, _, hr⟩
      · rintro ⟨h, r, hr⟩
        cases h
        exact ⟨r, by rw [hr]⟩

end

/-! ## Iterables in order -/

/-- The fold goes through the elements in order, and `init` makes its calls in order. -/
structure IterT.InOrder {ε γ : Type} (iter : IterT ε γ) (elems : γ → List ε) : Prop where
  fold : ∀ {σ : Type} (f : σ → ε → σ) (a : σ) (v : γ), iter.fold f a v = (elems v).foldl f a
  init : ∀ {σ : Type} (v : γ) (f : ℕ → σ → Except Exn (ε × σ)) (s : σ),
    (iter.init (elems v).length f s).map (Prod.map elems id) = initFrom f (elems v).length 0 s
  injective : Function.Injective elems

theorem IterT.list_inOrder (ε : Type) : (IterT.list ε).InOrder id where
  fold := fun _ _ _ => rfl
  init := fun v f s => by
    unfold IterT.list
    simp only [id]
    cases initFrom f v.length 0 s <;> rfl
  injective := Function.injective_id

theorem IterT.array_inOrder (ε : Type) : (IterT.array ε).InOrder Array.toList where
  fold := fun f a v => (Array.foldl_toList f).symm
  init := fun v f s => by
    unfold IterT.array
    simp only
    cases initFrom f v.toList.length 0 s <;> rfl
  injective := fun v w h => Array.toList_inj.mp h

theorem initFrom_length {ε σ : Type} {f : ℕ → σ → Except Exn (ε × σ)} {n k : ℕ} {s s' : σ}
    {es : List ε} (h : initFrom f n k s = .ok (es, s')) : es.length = n := by
  induction n generalizing k s es with
  | zero =>
    cases h
    rfl
  | succ n ih =>
    rw [initFrom] at h
    cases hf : f k s with
    | error x =>
      rw [hf] at h
      cases h
    | ok r =>
      rw [hf] at h
      simp only [Except.bind] at h
      cases hrest : initFrom f n (k + 1) r.2 with
      | error x =>
        rw [hrest] at h
        cases h
      | ok q =>
        rw [hrest] at h
        cases h
        rw [List.length_cons, ih hrest]

theorem IterT.string_inOrder : IterT.string.InOrder MlString.bytes where
  fold := fun _ _ _ => rfl
  init := fun v f s => by
    unfold IterT.string
    simp only
    rw [if_pos v.fits]
    cases h : initFrom f v.bytes.length 0 s with
    | error x => rfl
    | ok r =>
      have hfits : r.1.length ≤ 144115188075855863 := by
        rw [initFrom_length h]
        exact v.fits
      simp only [Except.bind]
      rw [dif_pos hfits]
      rfl
  injective := fun ⟨_, _⟩ ⟨_, _⟩ h => by
    cases h
    rfl

section
variable {α γ : Type} {iter : IterT α γ} {elems : γ → List α} {t : Backing α}
variable {b b' : Bytes} {i : ℕ} {v : γ}

theorem sizeIter_some (ht : t.Lawful) (e : α) (k : ℕ) :
    ((some k).bind fun x =>
      match t.size with
      | .static s => some (x + s)
      | .dynamic s => (s e).map (x + ·)) = some (k + t.bytes e) := by
  have hsize := ht.size e
  cases hs : t.size with
  | static s =>
    rw [hs] at hsize
    cases hsize
    rfl
  | dynamic s =>
    rw [hs] at hsize
    have hse : s e = some (t.bytes e) := hsize
    simp only [Option.bind_some, hse]
    rfl

theorem sizeIter_foldl (ht : t.Lawful) (es : List α) (k : ℕ) :
    es.foldl (fun (acc : Option ℕ) e => acc.bind fun x =>
      match t.size with
      | .static s => some (x + s)
      | .dynamic s => (s e).map (x + ·)) (some k) = some (k + t.total es) := by
  induction es generalizing k with
  | nil => rfl
  | cons e es ih =>
    rw [List.foldl_cons, sizeIter_some ht, ih, Backing.total_cons, Nat.add_assoc]

theorem mkIter_size (hiter : iter.InOrder elems) (ht : t.Lawful) (l : ℕ) :
    (T.mkIter iter t l).size.of v = some (t.total (elems v)) := by
  unfold T.mkIter Size.of
  simp only
  rw [hiter.fold, sizeIter_foldl ht, Nat.zero_add]

theorem mkIter_toBytes (hiter : iter.InOrder elems) (l : ℕ) (h : Stacked t i b (elems v) b') :
    (T.mkIter iter t l).toBytes b i v = pure (t.total (elems v), b') := by
  unfold T.mkIter
  simp only
  rw [hiter.fold, h.foldl 0, Nat.zero_add]

theorem mkIter_fromBytes (hiter : iter.InOrder elems) :
    (T.mkIter iter t (elems v).length).fromBytes b i = .ok v ↔ ReadsAt t b i (elems v) := by
  have hnext : (fun (_ written : ℕ) => (t.fromBytes b (i + written)).map fun elem =>
      match t.size with
      | .static s => (elem, s + written)
      | .dynamic sf =>
        match sf elem with
        | some s => (elem, s + written)
        | none => (elem, written)) = readNext t b i := by
    funext k written
    unfold readNext
    congr 1
    funext elem
    unfold Backing.bytes
    cases t.size with
    | static s => simp [Size.of, Nat.add_comm]
    | dynamic sf =>
      simp only [Size.of]
      cases sf elem with
      | none => rfl
      | some s => simp [Nat.add_comm]
  have hinit := hiter.init v (readNext t b i) 0
  rw [← Nat.add_zero i, ← initFrom_readsAt 0 0, Nat.add_zero, ← hinit]
  unfold T.mkIter
  simp only
  rw [hnext]
  cases iter.init (elems v).length (readNext t b i) 0 with
  | error x =>
    constructor
    · intro h
      cases h
    · rintro ⟨_, h⟩
      cases h
  | ok r =>
    constructor
    · intro h
      cases h
      exact ⟨r.2, rfl⟩
    · rintro ⟨s, h⟩
      simp only [Except.map, Except.ok.injEq, Prod.map, Prod.mk.injEq] at h ⊢
      exact hiter.injective h.1

end

theorem list_fromBytes_length {α : Type} {t : Backing α} {b : Bytes} {i l : ℕ} {v : List α}
    (h : (T.list t l).fromBytes b i = .ok v) : v.length = l := by
  have hmap : ∀ {f : ℕ → ℕ → Except Exn (α × ℕ)},
      (initFrom f l 0 0).map Prod.fst = .ok v → v.length = l := by
    intro f hf
    cases hr : initFrom f l 0 0 with
    | error x =>
      rw [hr] at hf
      cases hf
    | ok r =>
      rw [hr] at hf
      cases hf
      exact initFrom_length hr
  exact hmap h

/-! ## Round trips -/

/-- Where there is room for `n` bytes, writing the field writes `n` bytes and no others, `n` is the
size it reports, and reading with its backing gives it back. -/
def Field.RoundTrips {γ : Type} (f : Field γ) (n : ℕ) : Prop :=
  f.sizeof = some n ∧ ∀ (b : Bytes) (i : ℕ), i + n ≤ b.length →
    ∃ b', f.write b i = pure (n, b') ∧ SameOutside b b' i n ∧ Field.read b' i f.backing = .ok f

section
variable {α γ : Type} {iter : IterT α γ} {elems : γ → List α} {t : Backing α}
variable {v : List α} {e : α}

/-- The reader finds the elements that the writer has left. -/
def StackReads (t : Backing α) (v : List α) : Prop :=
  ∀ (b b' : Bytes) (i : ℕ), i + t.total v ≤ b.length → Stacked t i b v b' → ReadsAt t b' i v

/-- There is one value only, and whatever the bytes are, reading raises nothing at the places behind
the first element of `v`. -/
def OneValue (t : Backing α) (v : List α) : Prop :=
  (∀ x y : α, x = y) ∧
    ∀ (b : Bytes) (i : ℕ), i + t.total v ≤ b.length → ∀ (w u : List α) (e : α), v = w ++ e :: u →
      w ≠ [] → ∃ x, t.fromBytes b (i + t.total w) = .ok x

theorem stackReads_short (h : v.length ≤ 1) : StackReads t v := by
  intro b b' i _ hstack
  match v, h with
  | [], _ => trivial
  | [e], _ => exact ⟨@Stacked.last_read _ t b b' i e [] hstack, trivial⟩

theorem OneValue.stackReads (h : OneValue t v) : StackReads t v := by
  intro b b' i hroom hstack
  have hlen := (hstack.outside fun e he => Backing.bytes_le_total he).1
  refine readsAt_of_split fun w u e hsplit => ?_
  by_cases hw : w = []
  · -- the last of the elements is at the first place
    obtain ⟨v', last, rfl⟩ := (List.eq_nil_or_concat' v).resolve_left (by
      rw [hsplit]
      exact List.append_ne_nil_of_right_ne_nil _ (List.cons_ne_nil _ _))
    rw [hw, Backing.total_nil, Nat.add_zero, hstack.last_read, h.1 last e]
  · obtain ⟨x, hx⟩ := h.2 b' i (hlen ▸ hroom) w u e hsplit hw
    rw [hx, h.1 x e]

/-- Two elements at least: the first place holds the last element, so the first one is equal to it;
and the last place is as it was before, so that it could hold any value. -/
theorem StackReads.one_value (ht : t.Lawful) (hfwd : t.ReadsForward) (hv : v ≠ [])
    (h : StackReads t (v ++ [e])) (x : α) : x = e := by
  obtain ⟨y, w, rfl⟩ := List.exists_cons_of_ne_nil hv
  have hfirst : t.bytes e ≤ t.total (y :: w) := by
    have hsmall : ∀ z ∈ y :: w ++ [e], t.bytes z ≤ t.total (y :: w ++ [e]) :=
      fun z hz => Backing.bytes_le_total hz
    obtain ⟨b', hstack⟩ := stacked_exists (i := 0)
      (b := List.replicate (t.total (y :: w ++ [e])) 0) ht hsmall (by simp)
    have hread := h _ b' 0 (by simp) hstack
    have hy : t.fromBytes b' 0 = .ok y := hread.1
    rw [hstack.last_read] at hy
    cases hy
    exact Backing.bytes_le_total (List.mem_cons_self ..)
  obtain ⟨b, hx⟩ := ht.write (i := t.total (y :: w))
    (b := List.replicate (t.total (y :: w) + t.bytes e + t.bytes x) 0) x
    (by rw [List.length_replicate]; omega)
  have hlen := hx.2.1.1
  rw [List.length_replicate] at hlen
  have hsmall : ∀ z ∈ y :: w ++ [e], t.bytes z ≤ t.total (y :: w) := by
    intro z hz
    rcases List.mem_append.mp hz with hz | hz
    · exact Backing.bytes_le_total hz
    · rw [List.mem_singleton.mp hz]
      exact hfirst
  have hroom : 0 + t.total (y :: w ++ [e]) ≤ b.length := by
    rw [hlen, Backing.total_append, Backing.total_cons t e [], Backing.total_nil]
    omega
  obtain ⟨b', hstack⟩ := stacked_exists (i := 0) (b := b) ht hsmall (by omega)
  have hread := (readsAt_append.mp (h b b' 0 hroom hstack)).2.1
  -- what was written at the last place before is still there
  have hout := hstack.outside hsmall
  have hthere : t.fromBytes b' (t.total (y :: w)) = t.fromBytes b (t.total (y :: w)) :=
    hfwd b' b _ hout.1 fun j hj => hout.2 j (.inr (by omega))
  rw [Nat.zero_add, hthere, hx.2.2] at hread
  cases hread
  rfl

theorem StackReads.oneValue (ht : t.Lawful) (hfwd : t.ReadsForward) (hlong : 1 < v.length)
    (h : StackReads t v) : OneValue t v := by
  obtain ⟨v', last, rfl⟩ := (List.eq_nil_or_concat' v).resolve_left
    (List.ne_nil_of_length_pos (by omega))
  have hv' : v' ≠ [] := by
    rintro rfl
    simp at hlong
  have hone : ∀ x : α, x = last := h.one_value ht hfwd hv'
  refine ⟨fun x y => (hone x).trans (hone y).symm, fun b i hroom w u e hsplit hw => ?_⟩
  obtain ⟨z, w', rfl⟩ := List.exists_cons_of_ne_nil hw
  have hsmall : ∀ x ∈ v' ++ [last], t.bytes x ≤ t.bytes z := by
    intro x _
    rw [hone x, hone z]
  have hz : t.bytes z ≤ t.total (v' ++ [last]) := by
    rw [hsplit]
    exact Backing.bytes_le_total (List.mem_append_left _ List.mem_cons_self)
  obtain ⟨b', hstack⟩ := stacked_exists (i := i) (b := b) ht hsmall (by omega)
  have hread := h b b' i hroom hstack
  rw [hsplit] at hread
  -- only the first place was written to
  have hout := hstack.outside hsmall
  have hbehind : t.fromBytes b' (i + t.total (z :: w')) = t.fromBytes b (i + t.total (z :: w')) := by
    refine hfwd b' b _ hout.1 fun j hj => hout.2 j (.inr ?_)
    rw [Backing.total_cons] at hj
    omega
  exact ⟨e, hbehind.symm.trans (readsAt_append.mp hread).2.1⟩

theorem stackReads_of (h : v.length ≤ 1 ∨ OneValue t v) : StackReads t v :=
  h.elim stackReads_short OneValue.stackReads

theorem stackReads_iff (ht : t.Lawful) (hfwd : t.ReadsForward) :
    StackReads t v ↔ v.length ≤ 1 ∨ OneValue t v := by
  refine ⟨fun h => ?_, stackReads_of⟩
  rcases Nat.lt_or_ge 1 v.length with hlong | hshort
  · exact .inr (h.oneValue ht hfwd hlong)
  · exact .inl hshort

theorem mkIter_roundTrips_iff (hiter : iter.InOrder elems) (ht : t.Lawful) (v : γ) :
    Field.RoundTrips ⟨v, T.mkIter iter t (elems v).length⟩ (t.total (elems v)) ↔
      StackReads t (elems v) := by
  have hread : ∀ (b : Bytes) (i : ℕ),
      Field.read b i (T.mkIter iter t (elems v).length) =
        .ok ⟨v, T.mkIter iter t (elems v).length⟩ ↔ ReadsAt t b i (elems v) := by
    intro b i
    rw [← mkIter_fromBytes hiter, Field.read]
    cases (T.mkIter iter t (elems v).length).fromBytes b i with
    | error x => exact ⟨nofun, nofun⟩
    | ok r => simp [Except.map]
  constructor
  · rintro ⟨_, hwrite⟩ b b' i hroom hstack
    obtain ⟨c, hc, _, hback⟩ := hwrite b i hroom
    have hb' : Field.write b i ⟨v, T.mkIter iter t (elems v).length⟩ = pure (_, b') :=
      mkIter_toBytes hiter _ hstack
    rw [hb'] at hc
    cases Result.pure_inj hc
    exact (hread b' i).mp hback
  · intro h
    refine ⟨mkIter_size hiter ht _, fun b i hroom => ?_⟩
    obtain ⟨b', hstack⟩ := stacked_exists ht (fun e he => Backing.bytes_le_total he) hroom
    exact ⟨b', mkIter_toBytes hiter _ hstack, hstack.outside fun e he => Backing.bytes_le_total he,
      (hread b' i).mpr (h b b' i hroom hstack)⟩

theorem Backing.total_replicate (t : Backing α) (n : ℕ) (e : α) :
    t.total (.replicate n e) = n * t.bytes e := by
  rw [Backing.total, List.map_replicate, List.sum_replicate_nat]

/-- Padding comes back exactly when an array of the same copies does. -/
theorem padding_roundTrips_iff (ht : t.Lawful) (hfwd : t.ReadsForward) (n : ℕ) (e : α) :
    (Field.padding t n e).RoundTrips (n * t.bytes e) ↔ n ≤ 1 ∨ OneValue t (.replicate n e) := by
  have h := mkIter_roundTrips_iff (IterT.array_inOrder α) ht (.replicate n e)
  rw [Array.toList_replicate, List.length_replicate, Backing.total_replicate] at h
  have hreads := stackReads_iff (v := List.replicate n e) ht hfwd
  rw [List.length_replicate] at hreads
  exact h.trans hreads

theorem total_char (s : List Byte) : T.char.total s = s.length := by
  induction s with
  | nil => rfl
  | cons c s ih =>
    rw [Backing.total_cons, ih, List.length_cons, Nat.add_comm]
    rfl

/-- Lists and arrays of at most one element, or of the one value that there is, come back; of a reader
that looks ahead only, no others do. Of strings, those of at most one character come back. -/
theorem iterables_roundTrips_iff (t : Backing α) (ht : t.Lawful) (v : List α) (s : MlString) :
    (v.length ≤ 1 ∨ OneValue t v →
      (Field.list t v).RoundTrips (t.total v) ∧ (Field.array t v.toArray).RoundTrips (t.total v)) ∧
    (t.ReadsForward →
      ((Field.list t v).RoundTrips (t.total v) ↔ v.length ≤ 1 ∨ OneValue t v) ∧
      ((Field.array t v.toArray).RoundTrips (t.total v) ↔ v.length ≤ 1 ∨ OneValue t v)) ∧
    ((Field.string s).RoundTrips s.bytes.length ↔ s.bytes.length ≤ 1) := by
  have hlist := mkIter_roundTrips_iff (IterT.list_inOrder α) ht v
  have harray := mkIter_roundTrips_iff (IterT.array_inOrder α) ht v.toArray
  have hstring := mkIter_roundTrips_iff IterT.string_inOrder T.char_lawful.lawful s
  rw [stackReads_iff T.char_lawful.lawful T.char_readsForward, total_char] at hstring
  refine ⟨fun h => ⟨hlist.mpr (stackReads_of h), harray.mpr (stackReads_of h)⟩, fun hfwd => ?_,
    hstring.trans (or_iff_left ?_)⟩
  · rw [← stackReads_iff ht hfwd]
    exact ⟨hlist, harray⟩
  · rintro ⟨h, _⟩
    exact absurd (h 0 1) (by decide)

end

theorem iterables_roundTrips_iff_one : (Field.list T.char [ascii 'a']).RoundTrips 1 :=
  ((iterables_roundTrips_iff T.char T.char_lawful.lawful [ascii 'a'] ⟨[], by decide⟩).2.1
    T.char_readsForward).1.mpr (.inl (by decide))

/-- The two characters of `ab` are written to one place. -/
theorem iterables_roundTrips_not :
    ¬ ∀ (α : Type) (t : Backing α), t.Lawful → ∀ (v : List α) (s : MlString),
      (Field.list t v).RoundTrips (t.total v) ∧
        (Field.array t v.toArray).RoundTrips (t.total v) ∧
        (Field.string s).RoundTrips s.bytes.length := by
  intro h
  obtain ⟨_, hwrite⟩ := (h Byte T.char T.char_lawful.lawful [ascii 'a', ascii 'b'] ⟨[], by decide⟩).1
  obtain ⟨b', hb', _, hread⟩ := hwrite [0, 0] 0 (by decide)
  have hrun : (Field.list T.char [ascii 'a', ascii 'b']).write [0, 0] 0 =
      pure (2, [ascii 'b', 0]) := rfl
  rw [hrun] at hb'
  cases Result.pure_inj hb'
  have hback : Field.read [ascii 'b', 0] 0 (Field.list T.char [ascii 'a', ascii 'b']).backing =
      .ok ⟨[ascii 'b', 0], T.list T.char 2⟩ := rfl
  rw [hback, Except.ok.injEq] at hread
  exact absurd (congrArg Field.value hread) (by decide)

/-! ## A reader that looks back -/

namespace LooksBack

/-- Behind a `1`, `true` is another byte. -/
def marked (b : Bytes) (i : ℕ) : Bool := 0 < i ∧ b[i - 1]? = some 1

def code (marked clash : Bool) : Bool → Byte
  | true => if marked then 3 else 2
  | false => if clash then 1 else 0

/-- Values of one byte. What is behind `false` is read as `false`, if it was there before. -/
def backing : Backing Bool where
  size := .static 1
  toBytes := fun b i e =>
    .of ((Bytes.set b i (code (marked b i) (b[i + 1]? = some 2) e)).map fun b => (1, b))
  fromBytes := fun b i => .ok (b[i]? = some (if marked b i then 3 else 2))

theorem toBytes_eq {b : Bytes} {i : ℕ} (h : i + 1 ≤ b.length) (e : Bool) : backing.toBytes b i e =
    pure (1, overwrite b i [code (marked b i) (b[i + 1]? = some 2) e]) := by
  have hset : Bytes.set b i (code (marked b i) (b[i + 1]? = some 2) e) = .ok _ := if_pos h
  simp only [backing, hset]
  rfl

theorem lawful : backing.Lawful := by
  intro e
  refine ⟨1, rfl, fun b i h => ⟨_, toBytes_eq h e, overwrite_outside h, ?_⟩⟩
  have hat : (overwrite b i [code (marked b i) (b[i + 1]? = some 2) e])[i]? =
      some (code (marked b i) (b[i + 1]? = some 2) e) := overwrite_getElem? (k := 0) h Nat.one_pos
  have hout := overwrite_outside (w := [code (marked b i) (b[i + 1]? = some 2) e]) h
  have hmarked : marked (overwrite b i [code (marked b i) (b[i + 1]? = some 2) e]) i =
      marked b i := by
    refine decide_eq_decide.mpr (and_congr_right fun hi => ?_)
    rw [hout.2 (i - 1) (.inl (by omega))]
  simp only [backing, hmarked, hat]
  cases marked b i <;> cases decide (b[i + 1]? = some 2) <;> cases e <;> rfl

/-- Two equal elements come back, although they are not the only value: that there is one value only is
needed just of readers that do not look back. -/
theorem list_roundTrips : (Field.list backing [false, false]).RoundTrips 2 := by
  refine (mkIter_roundTrips_iff (IterT.list_inOrder Bool) lawful [false, false]).mpr ?_
  intro b b' i hroom hstack
  have hbytes : backing.bytes false = 1 := rfl
  have htotal : backing.total (id [false, false]) = 2 := rfl
  obtain ⟨d, hput, hout, hread⟩ := Stacked.last (v := [false]) hstack
  rw [hbytes] at hput hout
  have hlen := (hstack.outside (m := 1) (by simp [hbytes])).1
  have hroom' : i + 1 ≤ d.length := by
    have := hout.1
    omega
  rw [toBytes_eq hroom'] at hput
  have hwritten := (Prod.mk.inj (Result.pure_inj hput)).2
  -- the place behind was marked if it read as `true`
  have hat : b'[i]? = some (code (marked d i) (d[i + 1]? = some 2) false) := by
    rw [← hwritten]
    exact overwrite_getElem? (k := 0) hroom' Nat.one_pos
  have hbehind : b'[i + 1]? = d[i + 1]? := hout.2 (i + 1) (.inr (Nat.le_refl _))
  have hmarked : marked b' (i + 1) = decide (d[i + 1]? = some 2) := by
    rw [marked, Nat.add_sub_cancel, hat]
    by_cases hclash : d[i + 1]? = some 2 <;> simp [code, hclash]
  refine ⟨hread, ?_, trivial⟩
  rw [hbytes]
  simp only [backing, hmarked, hbehind]
  by_cases hclash : d[i + 1]? = some 2
  · rw [hclash]
    rfl
  · rw [decide_eq_false hclash, if_neg Bool.false_ne_true, decide_eq_false hclash]

end LooksBack

end Bfcomp.Ocaml
