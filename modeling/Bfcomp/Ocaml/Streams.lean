import Bfcomp.Ocaml.Bytetype

/-! # Streams of a backed type (`StreamT` in `lib/bytetype.ml`)

A stream is read from bytes on demand: each demand reads one element, and moves on by its size. The
bytes are those that the stream was made on, which nothing writes to meanwhile. -/

namespace Bfcomp.Ocaml
set_option autoImplicit false

/-- A stream that `streamOfBytes` has made: its arguments, the number of elements taken, `!idx`, and
whether `from` has answered `None`; it is not asked again. -/
structure Reader (α : Type) where
  t : Backing α
  source : ℕ → Bytes → ℕ → Except Exn (Option α)
  b : Bytes
  i : ℕ
  count : ℕ
  idx : ℕ
  ended : Bool

/-- `Stream.t`. -/
inductive MlStream (α : Type) where
  | ofList (es : List α)
  | ofBytes (r : Reader α)

namespace MlStream
variable {α : Type}

/-- `peek`, and `junk` if there is an element. -/
def next : MlStream α → Except Exn (Option α × MlStream α)
  | ofList [] => .ok (none, ofList [])
  | ofList (e :: es) => .ok (some e, ofList es)
  | ofBytes r =>
    if r.ended then .ok (none, ofBytes r)
    else
      (r.source r.count r.b (r.idx + r.i)).map fun
        | none => (none, ofBytes { r with ended := true })
        | some e =>
          let idx := match r.t.size with
            | .static s => s + r.idx
            | .dynamic sf =>
              match sf e with
              | some s => s + r.idx
              | none => r.idx
          (some e, ofBytes { r with count := r.count + 1, idx })

/-- Taken to its end, the stream gives these elements; what is left is the second stream. -/
inductive Yields : MlStream α → List α → MlStream α → Prop where
  | done {s s' : MlStream α} (h : s.next = .ok (none, s')) : Yields s [] s'
  | more {s s' s'' : MlStream α} {e : α} {es : List α} (h : s.next = .ok (some e, s'))
      (rest : Yields s' es s'') : Yields s (e :: es) s''

end MlStream

/-- `StreamT.t`. -/
structure Streamed (α : Type) where
  size : Option ℕ
  stream : MlStream α

namespace StreamT
variable {α : Type}

def streamSize (s : Streamed α) : Option ℕ := s.size

/-- `Stream.iter f`, with `!idx`; at most `fuel` elements are taken. -/
def writeAll (t : Backing α) (i : ℕ) : ℕ → ℕ → Bytes → MlStream α → Result (ℕ × Bytes × MlStream α)
  | fuel, idx, b, s =>
    match s.next with
    | .error e => .of (.error e)
    | .ok (none, s) => pure (idx, b, s)
    | .ok (some e, s) =>
      match fuel with
      | 0 => ExceptT.mk none
      | fuel + 1 =>
        t.toBytes b (idx + i) e >>= fun (written, b) => writeAll t i fuel (written + idx) b s

/-- The number of bytes written, the bytes, and the stream with its size recorded. -/
def streamToBytes (fuel : ℕ) (t : Backing α) (b : Bytes) (i : ℕ) (s : Streamed α) :
    Result (ℕ × Bytes × Streamed α) :=
  writeAll t i fuel 0 b s.stream >>= fun (idx, b, stream) =>
    pure (idx, b, { size := some idx, stream })

def streamOfBytes (t : Backing α) (source : ℕ → Bytes → ℕ → Except Exn (Option α)) (b : Bytes)
    (i : ℕ) : Streamed α :=
  let idx := 0
  { size := some idx, stream := .ofBytes ⟨t, source, b, i, 0, idx, false⟩ }

def stream (fuel : ℕ) (t : Backing α) (f : ℕ → Bytes → ℕ → Except Exn (Option α)) :
    Backing (Streamed α) where
  size := .dynamic streamSize
  toBytes := fun b i s => streamToBytes fuel t b i s >>= fun (idx, b, _) => pure (idx, b)
  fromBytes := fun b i => .ok (streamOfBytes t f b i)

section
variable {t : Backing α} {P : α → Prop} {source : ℕ → Bytes → ℕ → Except Exn (Option α)}
variable {b b' : Bytes} {i k idx : ℕ} {e : α} {es v : List α} {s s' : MlStream α}

theorem next_some (h : source k b (idx + i) = .ok (some e)) :
    (MlStream.ofBytes ⟨t, source, b, i, k, idx, false⟩).next =
      .ok (some e, .ofBytes ⟨t, source, b, i, k + 1, idx + t.bytes e, false⟩) := by
  have hidx : (match t.size with
      | .static s => s + idx
      | .dynamic sf =>
        match sf e with
        | some s => s + idx
        | none => idx) = idx + t.bytes e := by
    unfold Backing.bytes
    cases t.size with
    | static s => exact Nat.add_comm s idx
    | dynamic sf =>
      simp only [Size.of]
      cases sf e with
      | none => rfl
      | some s => exact Nat.add_comm s idx
  simp only [MlStream.next, Bool.false_eq_true, if_false, h, Except.map, hidx]

theorem next_none (h : source k b (idx + i) = .ok none) :
    (MlStream.ofBytes ⟨t, source, b, i, k, idx, false⟩).next =
      .ok (none, .ofBytes ⟨t, source, b, i, k, idx, true⟩) := by
  simp only [MlStream.next, Bool.false_eq_true, if_false, h, Except.map]

/-- What a demand on a stream from bytes that has not ended can be answered with. -/
theorem next_cases {r : Option α × MlStream α}
    (h : (MlStream.ofBytes ⟨t, source, b, i, k, idx, false⟩).next = .ok r) :
    (source k b (idx + i) = .ok none ∧ r = (none, .ofBytes ⟨t, source, b, i, k, idx, true⟩)) ∨
      ∃ e, source k b (idx + i) = .ok (some e) ∧
        r = (some e, .ofBytes ⟨t, source, b, i, k + 1, idx + t.bytes e, false⟩) := by
  cases hs : source k b (idx + i) with
  | error x =>
    simp only [MlStream.next, Bool.false_eq_true, if_false, hs, Except.map] at h
    cases h
  | ok o =>
    cases o with
    | none =>
      rw [next_none hs] at h
      cases h
      exact .inl ⟨rfl, rfl⟩
    | some e =>
      rw [next_some hs] at h
      cases h
      exact .inr ⟨e, rfl, rfl⟩

theorem Yields.source_none
    (h : (MlStream.ofBytes ⟨t, source, b, i, k, idx, false⟩).Yields [] s') :
    source k b (idx + i) = .ok none := by
  cases h with
  | done hnext =>
    rcases next_cases hnext with ⟨hs, _⟩ | ⟨e, _, he⟩
    · exact hs
    · cases he

theorem Yields.source_some
    (h : (MlStream.ofBytes ⟨t, source, b, i, k, idx, false⟩).Yields (e :: es) s') :
    source k b (idx + i) = .ok (some e) ∧
      (MlStream.ofBytes ⟨t, source, b, i, k + 1, idx + t.bytes e, false⟩).Yields es s' := by
  cases h with
  | more hnext hrest =>
    rcases next_cases hnext with ⟨_, he⟩ | ⟨x, hs, he⟩
    · cases he
    · cases he
      exact ⟨hs, hrest⟩

/-! ## Writing a stream -/

end

/-! ## Round trips -/

section
variable {t : Backing α} {P : α → Prop} {source : ℕ → Bytes → ℕ → Except Exn (Option α)}
variable {b b' : Bytes} {i fuel : ℕ} {es ws : List α}

end

/-- `n` is the number of bytes of each element, as far as the backing knows it. -/
def Knows {α : Type} (t : Backing α) (n : α → ℕ) : Prop :=
  ∀ e m, t.size.of e = some m → n e = m

/-- `from` gives elements of no bytes from the offset on, until it ends. -/
def ZeroSized {α : Type} (source : ℕ → Bytes → ℕ → Except Exn (Option α)) (b : Bytes) (i : ℕ)
    (n : α → ℕ) : Prop :=
  ∃ m, source m b i = .ok none ∧ ∀ k < m, ∃ e, source k b i = .ok (some e) ∧ n e = 0

/-- Each stream of the list is read from where the elements of the one before it end. -/
def Placed {α : Type} (t : Backing α) (source : ℕ → Bytes → ℕ → Except Exn (Option α)) (b : Bytes)
    (n : α → ℕ) : ℕ → List (Streamed α) → Prop
  | _, [] => True
  | i, r :: rs =>
    r = streamOfBytes t source b i ∧
      ∃ es r', r.stream.Yields es r' ∧ Placed t source b n (i + (es.map n).sum) rs

section
variable {t : Backing α} {source : ℕ → Bytes → ℕ → Except Exn (Option α)} {n : α → ℕ}
variable {b : Bytes} {i k idx m fuel : ℕ} {e : α} {es : List α} {s' : MlStream α}

theorem Knows.bytes (hn : Knows t n) (he : n e = 0) : t.bytes e = 0 := by
  unfold Backing.bytes
  cases hsize : t.size.of e with
  | none => rfl
  | some m => rw [Option.getD_some, ← hn e m hsize, he]

theorem Yields.zeroSized_of (hn : Knows t n)
    (h : (MlStream.ofBytes ⟨t, source, b, i, k, idx, false⟩).Yields es s')
    (hes : (es.map n).sum = 0) :
    ∃ m, k ≤ m ∧ source m b (idx + i) = .ok none ∧
      ∀ j, k ≤ j → j < m → ∃ e, source j b (idx + i) = .ok (some e) ∧ n e = 0 := by
  induction es generalizing k idx with
  | nil => exact ⟨k, Nat.le_refl k, Yields.source_none h, fun j lo hi => absurd hi (by omega)⟩
  | cons e es ih =>
    rw [List.map_cons, List.sum_cons] at hes
    obtain ⟨hs, hrest⟩ := Yields.source_some h
    obtain ⟨m, hm, hend, hall⟩ := ih hrest (by omega)
    have hidx : idx + t.bytes e = idx := by rw [hn.bytes (by omega), Nat.add_zero]
    rw [hidx] at hend hall
    refine ⟨m, by omega, hend, fun j lo hi => ?_⟩
    rcases Nat.eq_or_lt_of_le lo with rfl | hlt
    · exact ⟨e, hs, by omega⟩
    · exact hall j hlt hi

theorem Yields.total_of (hn : Knows t n)
    (h : (MlStream.ofBytes ⟨t, source, b, i, k, idx, false⟩).Yields es s') (hk : k ≤ m)
    (hall : ∀ j < m, ∃ e, source j b (idx + i) = .ok (some e) ∧ n e = 0)
    (hend : source m b (idx + i) = .ok none) : (es.map n).sum = 0 := by
  induction es generalizing k idx with
  | nil => rfl
  | cons e es ih =>
    obtain ⟨hs, hrest⟩ := Yields.source_some h
    rcases Nat.eq_or_lt_of_le hk with rfl | hlt
    · rw [hend] at hs
      cases hs
    · obtain ⟨y, hy, hzero⟩ := hall k hlt
      rw [hs] at hy
      cases hy
      rw [hn.bytes hzero] at hrest
      rw [List.map_cons, List.sum_cons, hzero, ih hrest hlt hall hend]

theorem zeroSized_iff (hn : Knows t n) (h : (streamOfBytes t source b i).stream.Yields es s') :
    ZeroSized source b i n ↔ (es.map n).sum = 0 := by
  constructor
  · rintro ⟨m, hend, hall⟩
    exact Yields.total_of hn h (Nat.zero_le m) (by rw [Nat.zero_add]; exact hall)
      (by rw [Nat.zero_add]; exact hend)
  · intro hes
    obtain ⟨m, _, hend, hall⟩ := Yields.zeroSized_of hn h hes
    rw [Nat.zero_add] at hend hall
    exact ⟨m, hend, fun j hj => hall j (Nat.zero_le j) hj⟩

theorem placed_of_zero (h : (streamOfBytes t source b i).stream.Yields es s')
    (hes : (es.map n).sum = 0) {rs : List (Streamed α)}
    (hrs : ReadsAt (stream fuel t source) b i rs) : Placed t source b n i rs := by
  induction rs with
  | nil => trivial
  | cons r rs ih =>
    obtain ⟨hr, hrest⟩ := hrs
    have hr' : streamOfBytes t source b i = r := Except.ok.inj hr
    rw [← hr'] at hrest ⊢
    refine ⟨rfl, es, s', h, ?_⟩
    rw [hes]
    exact ih hrest

/-- A stream that is read and taken to its end reports the number of bytes of its elements, and a list
of such streams puts each behind the one before, exactly when the elements have no bytes at all. Where
the backing does not know the size of an element, its number of bytes is any. -/
theorem streamOfBytes_size_iff (fuel : ℕ) (t : Backing α) (n : α → ℕ) (hn : Knows t n)
    (source : ℕ → Bytes → ℕ → Except Exn (Option α)) (b : Bytes) (i : ℕ) (es : List α)
    (s' : MlStream α) (h : (streamOfBytes t source b i).stream.Yields es s') :
    ((Field.mk { streamOfBytes t source b i with stream := s' } (stream fuel t source)).sizeof =
        some (es.map n).sum ∧
      ∀ (m : ℕ) (rs : List (Streamed α)),
        (T.list (stream fuel t source) m).fromBytes b i = .ok rs → Placed t source b n i rs) ↔
      ZeroSized source b i n := by
  rw [zeroSized_iff hn h]
  constructor
  · rintro ⟨hsize, _⟩
    exact (Option.some.inj hsize).symm
  · intro hes
    refine ⟨by rw [hes]; rfl, fun m rs hrs => ?_⟩
    have hlen := list_fromBytes_length hrs
    rw [← hlen] at hrs
    exact placed_of_zero h hes ((mkIter_fromBytes (IterT.list_inOrder _)).mp hrs)

end

/-- An element that is no bytes. -/
def noBytes : Backing Unit := T.mkConst 0 (fun b _ _ => .ok b) fun _ _ => .ok ()

/-- Two of these. -/
def twoOfThem (k : ℕ) (b : Bytes) (at' : ℕ) : Except Exn (Option Unit) :=
  if k < 2 then (noBytes.fromBytes b at').map some else .ok none

theorem streamOfBytes_size_iff_noBytes :
    (Field.mk { streamOfBytes noBytes twoOfThem [7] 0 with
        stream := .ofBytes ⟨noBytes, twoOfThem, [7], 0, 2, 0, true⟩ }
      (stream 0 noBytes twoOfThem)).sizeof = some 0 ∧
    ∀ (m : ℕ) (rs : List (Streamed Unit)),
      (T.list (stream 0 noBytes twoOfThem) m).fromBytes [7] 0 = .ok rs →
        Placed noBytes twoOfThem [7] (fun _ => 0) 0 rs :=
  (streamOfBytes_size_iff 0 noBytes (fun _ => 0) (fun _ _ h => Option.some.inj h) twoOfThem [7] 0
    [(), ()] _ (.more rfl (.more rfl (.done rfl)))).mpr
    ⟨2, rfl, fun _ hk => ⟨(), if_pos hk, rfl⟩⟩

/-- The stream of the one character of `a` reports no bytes. -/
theorem streamOfBytes_size_not :
    ¬ ∀ (α : Type) (t : Backing α) (n : α → ℕ), Knows t n →
      ∀ (source : ℕ → Bytes → ℕ → Except Exn (Option α)) (b : Bytes) (i : ℕ) (es : List α)
        (s' : MlStream α), (streamOfBytes t source b i).stream.Yields es s' →
        (Field.mk { streamOfBytes t source b i with stream := s' } (stream 0 t source)).sizeof =
          some (es.map n).sum := by
  intro h
  have hyields : (streamOfBytes T.char (fun si b idx =>
      if si < 1 then (T.char.fromBytes b idx).map some else .ok none) [ascii 'a'] 0).stream.Yields
        [ascii 'a'] _ := .more rfl (.done rfl)
  have hsize := h Byte T.char (fun _ => 1) (fun _ _ hm => Option.some.inj hm) _ _ _ _ _ hyields
  exact absurd hsize (by decide)

end StreamT
end Bfcomp.Ocaml
