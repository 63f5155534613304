import Bfcomp.Rxi.Elements

/-! # Histories of a vector

Seen from outside a vector is a list. Whatever the allocator answers, a call either does to the list
what its name says, or changes nothing. -/

namespace Bfcomp
set_option autoImplicit false

section
variable {memsz : ℕ}

/-- A call, with what the allocator answers if it is asked. -/
inductive VecCall (memsz : ℕ) where
  | push (e : Elem memsz) (answer : Answer)
  | pop
  | pusharr (arr : List (Elem memsz)) (answer : Answer)
  | fill (e : Elem memsz) (count : ℕ) (answer : Answer)
  | insert (idx : ℕ) (e : Elem memsz) (answer : Answer)
  | splice (start count : ℕ)
  | swapsplice (start count : ℕ)
  | swap (i j : ℕ)
  | reverse
  | remove (val : Elem memsz)
  | truncate (len : ℕ)
  | clear
  | reserve (n : ℕ) (answer : Answer)
  | compact (answer : Answer)
  | deinit

/-- What a call returns: an error code, nothing, or an element. -/
inductive VecReply where
  | err (code : BitVec 64)
  | done
  | popped (e : List Byte)

namespace VecCall

def run (v : VecBase) : VecCall memsz → Option (VecBase × VecReply)
  | push e answer => (vecPush memsz e.val answer v).map fun r => (r.1, .err r.2)
  | pop => (vecPop memsz v).map fun r => (r.1, .popped r.2)
  | pusharr arr answer => (vecPusharr memsz (arr.map Subtype.val) answer v).map fun v => (v, .done)
  | fill e count answer => (vecFill memsz e.val count answer v).map fun v => (v, .done)
  | insert idx e answer => (vecInsert memsz idx e.val answer v).map fun r => (r.1, .err r.2)
  | splice start count => (vecSplice memsz start count v).map fun v => (v, .done)
  | swapsplice start count => (vecSwapsplice memsz start count v).map fun v => (v, .done)
  | swap i j => (vecSwap memsz i j v).map fun v => (v, .done)
  | reverse => (vecReverse memsz v).map fun v => (v, .done)
  | remove val => (vecRemove memsz val.val v).map fun v => (v, .done)
  | truncate len => some (vecTruncate len v, .done)
  | clear => some (vecClear v, .done)
  | reserve n answer => (vecReserve memsz n answer v).map fun r => (r.1, .err r.2)
  | compact answer => (vecCompact memsz answer v).map fun r => (r.1, .err r.2)
  | deinit => some (vecDeinit v, .done)

/-- Indices are inside, what is added is not larger than half of the address space, `vec_reverse` can
count to the middle, and borrowed memory is not given back. -/
def allowed (v : VecBase) : VecCall memsz → Bool
  | pop => 0 < v.length
  | pusharr arr _ => (v.length + arr.length) * memsz ≤ 2^63
  | fill _ count _ => (v.length + count) * memsz ≤ 2^63
  | insert idx _ _ => idx ≤ v.length
  | splice start count => start + count ≤ v.length
  | swapsplice start count => start + count ≤ v.length
  | swap i j => i < v.length ∧ j < v.length
  | reverse => v.length < 2^32
  | reserve n _ => n * memsz < 2^64
  | compact _ => v.borrowed = true → v.length ≠ 0
  | push _ _ | remove _ | truncate _ | clear | deinit => true

end VecCall

def vecRun : VecBase → List (VecCall memsz) → Option (VecBase × List VecReply)
  | v, [] => some (v, [])
  | v, call :: calls => do
    let (v, reply) ← call.run v
    (vecRun v calls).map fun r => (r.1, reply :: r.2)

/-- Each call is allowed in the state in which it comes. -/
def allowedRun : VecBase → List (VecCall memsz) → Bool
  | _, [] => true
  | v, call :: calls => call.allowed v &&
    match call.run v with
    | none => true
    | some r => allowedRun r.1 calls

/-! ## The list -/

namespace VecCall

/-- What the call makes of the list. -/
def apply (es : List (Elem memsz)) : VecCall memsz → List (Elem memsz)
  | push e _ => es ++ [e]
  | pop => es.dropLast
  | pusharr arr _ => es ++ arr
  | fill e count _ => es ++ List.replicate count e
  | insert idx e _ => es.take idx ++ [e] ++ es.drop idx
  | splice start count => es.take start ++ es.drop (start + count)
  | swapsplice start count => swapspliced es start count
  | swap i j =>
    match es[i]?, es[j]? with
    | some x, some y => (es.set i y).set j x
    | _, _ => es
  | reverse => es.reverse
  | remove val => es.erase val
  | truncate len => es.take len
  | clear | deinit => []
  | reserve _ _ | compact _ => es

def reply (es : List (Elem memsz)) : VecCall memsz → VecReply
  | push _ _ | insert _ _ _ | reserve _ _ | compact _ => .err 0
  | pop => .popped ((es.getLast?.map Subtype.val).getD [])
  | _ => .done

/-- The answer of the allocator, and how many elements it may be asked for at most. -/
def request (es : List (Elem memsz)) : VecCall memsz → Option (Answer × ℕ)
  | push _ answer | insert _ _ answer => some (answer, 2 * (es.length + 1))
  | pusharr arr answer => some (answer, 2 * (es.length + arr.length))
  | fill _ count answer => some (answer, 2 * (es.length + count))
  | reserve n answer => some (answer, n)
  | compact answer => some (answer, es.length)
  | _ => none

/-- What a call returns that has not got its memory; two of them do not tell. -/
def refusal : VecCall memsz → VecReply
  | pusharr _ _ | fill _ _ _ => .done
  | _ => .err (-1)

end VecCall

inductive SeqStep (es : List (Elem memsz)) (call : VecCall memsz) :
    VecReply → List (Elem memsz) → Prop
  | applied : SeqStep es call (call.reply es) (call.apply es)
  | refused {answer : Answer} {m : ℕ} (hrequest : call.request es = some (answer, m))
      (hno : answer = none ∨ 2^63 ≤ m * memsz) : SeqStep es call call.refusal es

inductive SeqRun : List (Elem memsz) → List (VecCall memsz) → List VecReply → List (Elem memsz) → Prop
  | nil {es : List (Elem memsz)} : SeqRun es [] [] es
  | cons {es es' es'' : List (Elem memsz)} {call : VecCall memsz} {calls : List (VecCall memsz)}
      {reply : VecReply} {replies : List VecReply} (h : SeqStep es call reply es')
      (hs : SeqRun es' calls replies es'') : SeqRun es (call :: calls) (reply :: replies) es''

/-! ## Refinement -/

section
variable {v : VecBase} {es : List (Elem memsz)} {call : VecCall memsz}

/-- The call runs, and the list takes the same step. -/
def Simulates (v : VecBase) (es : List (Elem memsz)) (call : VecCall memsz) : Prop :=
  ∃ v' reply es', call.run v = some (v', reply) ∧ SeqStep es call reply es' ∧ v'.Valid es'

theorem Done.simulates {answer : Answer} {cap m : ℕ} {r : Option (VecBase × BitVec 64)}
    (h : Done answer v (call.apply es) cap m r) (H : v.Valid es)
    (hrun : call.run v = r.map fun r => (r.1, .err r.2)) (hreply : call.reply es = .err 0)
    (hrefusal : call.refusal = .err (-1)) (hrequest : call.request es = some (answer, m)) :
    Simulates v es call := by
  rcases h with ⟨v', rfl, hvalid, _⟩ | ⟨rfl, hno⟩
  · refine ⟨v', _, _, hrun, ?_, hvalid⟩
    rw [← hreply]
    exact .applied
  · refine ⟨v, _, _, hrun, ?_, H⟩
    rw [← hrefusal]
    exact .refused hrequest hno

theorem DoneSilently.simulates {answer : Answer} {cap m : ℕ} {r : Option VecBase}
    (h : DoneSilently answer v (call.apply es) cap m r) (H : v.Valid es)
    (hrun : call.run v = r.map fun v => (v, .done)) (hreply : call.reply es = .done)
    (hrefusal : call.refusal = .done) (hrequest : call.request es = some (answer, m)) :
    Simulates v es call := by
  rcases h with ⟨v', rfl, hvalid, _⟩ | ⟨rfl, hno⟩
  · refine ⟨v', _, _, hrun, ?_, hvalid⟩
    rw [← hreply]
    exact .applied
  · refine ⟨v, _, _, hrun, ?_, H⟩
    rw [← hrefusal]
    exact .refused hrequest hno

theorem simulates_of_applied {r : Option VecBase}
    (h : ∃ v', r = some v' ∧ v'.Valid (call.apply es))
    (hrun : call.run v = r.map fun v => (v, .done)) (hreply : call.reply es = .done) :
    Simulates v es call := by
  obtain ⟨v', rfl, hvalid⟩ := h
  refine ⟨v', _, _, hrun, ?_, hvalid⟩
  rw [← hreply]
  exact .applied

theorem valid_empty : ({} : VecBase).Valid ([] : List (Elem memsz)) where
  length := rfl
  room := ⟨[], rfl, .nil _, Nat.two_pow_pos 63⟩
  lent := fun h => by cases h

/-- `vec_borrowed`, around memory with room for `cap` elements. -/
theorem holds_borrowed {block : List Byte} {cap : ℕ} (hcap : cap * memsz ≤ block.length)
    (hobject : block.length < 2^63) (hle : es.length ≤ cap) (hstarts : Record.Starts block es) :
    (VecBase.mk true es.length cap (some block)).Holds es := by
  obtain ⟨rest, hcount, hrest⟩ := hstarts.extend hcap hle
  exact ⟨rfl, rest, hcount, hrest, hobject⟩

theorem VecCall.run_simulates (hpos : 0 < memsz) (hmemsz : memsz < 2^63) (H : v.Valid es)
    (hallowed : call.allowed v = true) : Simulates v es call := by
  cases call with
  | push e answer => exact (vecPush_spec hpos hmemsz H e).simulates H rfl rfl rfl rfl
  | pop =>
    have hlen : 0 < v.length := of_decide_eq_true hallowed
    rw [H.length] at hlen
    have hne := List.ne_nil_of_length_pos hlen
    obtain ⟨v', hv', hvalid⟩ := vecPop_spec H hne
    refine ⟨v', _, _, congrArg (Option.map _) hv', ?_, hvalid⟩
    have happlied : SeqStep es .pop (VecCall.reply es .pop) (VecCall.apply es .pop) := .applied
    rw [VecCall.reply, List.getLast?_eq_some_getLast hne] at happlied
    exact happlied
  | pusharr arr answer =>
    have hfit : (v.length + arr.length) * memsz ≤ 2^63 := of_decide_eq_true hallowed
    rw [H.length] at hfit
    exact (vecPusharr_spec hpos H arr hfit).simulates H rfl rfl rfl rfl
  | fill e count answer =>
    have hfit : (v.length + count) * memsz ≤ 2^63 := of_decide_eq_true hallowed
    rw [H.length, ← List.length_replicate (n := count) (a := e)] at hfit
    have hspec : DoneSilently answer v _ _ _ _ := vecPusharr_spec hpos H (List.replicate count e) hfit
    rw [List.map_replicate, List.length_replicate] at hspec
    exact hspec.simulates H rfl rfl rfl rfl
  | insert idx e answer =>
    have hidx : idx ≤ v.length := of_decide_eq_true hallowed
    rw [H.length] at hidx
    exact (vecInsert_spec hpos hmemsz H hidx e).simulates H rfl rfl rfl rfl
  | splice start count =>
    have hle : start + count ≤ v.length := of_decide_eq_true hallowed
    rw [H.length] at hle
    exact simulates_of_applied (vecSplice_spec H hle) rfl rfl
  | swapsplice start count =>
    have hle : start + count ≤ v.length := of_decide_eq_true hallowed
    rw [H.length] at hle
    exact simulates_of_applied (vecSwapsplice_spec H hle) rfl rfl
  | swap i j =>
    obtain ⟨hi, hj⟩ : i < v.length ∧ j < v.length := of_decide_eq_true hallowed
    rw [H.length] at hi hj
    refine simulates_of_applied ?_ rfl rfl
    rw [VecCall.apply, List.getElem?_eq_getElem hi, List.getElem?_eq_getElem hj]
    exact vecSwap_spec H hi hj
  | reverse =>
    have hlen : v.length < 2^32 := of_decide_eq_true hallowed
    rw [H.length] at hlen
    exact simulates_of_applied (vecReverse_spec H hlen) rfl rfl
  | remove val => exact simulates_of_applied (vecRemove_spec H val) rfl rfl
  | truncate len => exact simulates_of_applied ⟨_, rfl, vecTruncate_spec H len⟩ rfl rfl
  | clear =>
    obtain ⟨rest, hroom⟩ := H.room
    exact simulates_of_applied ⟨vecClear v, rfl, ⟨rfl, es ++ rest, hroom⟩, H.lent⟩ rfl rfl
  | reserve n answer =>
    exact (vecReserve_granted hpos H (of_decide_eq_true hallowed)).simulates H rfl rfl rfl rfl
  | compact answer =>
    have hlent : v.borrowed = true → v.length ≠ 0 := of_decide_eq_true hallowed
    refine (vecCompact_spec hpos H fun hborrowed hnil => ?_).simulates H rfl rfl rfl rfl
    refine hlent hborrowed ?_
    rw [H.length, hnil, List.length_nil]
  | deinit => exact simulates_of_applied ⟨_, rfl, valid_empty⟩ rfl rfl

end

/-- Whatever calls a vector gets and whatever the allocator answers, there is no access outside its
memory, and it does what a list does to which refused calls do nothing. -/
theorem vecRun_refines (hpos : 0 < memsz) (hmemsz : memsz < 2^63) {v : VecBase}
    {es : List (Elem memsz)} (H : v.Valid es) (calls : List (VecCall memsz))
    (hallowed : allowedRun v calls = true) : ∃ v' replies es', vecRun v calls = some (v', replies) ∧
      SeqRun es calls replies es' ∧ v'.Valid es' := by
  induction calls generalizing v es with
  | nil => exact ⟨v, [], es, rfl, .nil, H⟩
  | cons call calls ih =>
    rw [allowedRun, Bool.and_eq_true] at hallowed
    obtain ⟨v₁, reply, es₁, hrun, hstep, H₁⟩ := VecCall.run_simulates hpos hmemsz H hallowed.1
    have hallowed' : allowedRun v₁ calls = true := by
      rw [hrun] at hallowed
      exact hallowed.2
    obtain ⟨v', replies, es', hrest, hsteps, H'⟩ := ih H₁ hallowed'
    refine ⟨v', reply :: replies, es', ?_, .cons hstep hsteps, H'⟩
    simp only [vecRun, hrun, Option.bind_eq_bind, Option.bind_some, hrest, Option.map_some]

/-- Three bytes in memory that is lent for them, and two more, for which it has to be left. -/
def lentBytes : List (Elem 1) := [⟨[1], rfl⟩, ⟨[2], rfl⟩, ⟨[3], rfl⟩]

def lentCalls : List (VecCall 1) :=
  [.push ⟨[7], rfl⟩ (some fun _ => 0), .insert 1 ⟨[9], rfl⟩ none, .reverse, .pop]

theorem vecRun_refines_lent : ∃ v' replies es',
    vecRun ⟨true, 3, 3, some [1, 2, 3]⟩ lentCalls = some (v', replies) ∧
      SeqRun lentBytes lentCalls replies es' ∧ v'.Valid es' := by
  have hstarts : Record.Starts [1, 2, 3] lentBytes := List.prefix_rfl
  have hlent : (VecBase.mk true 3 3 (some [1, 2, 3])).Holds lentBytes :=
    holds_borrowed (by decide) (by decide) (by decide) hstarts
  exact vecRun_refines (by decide) (by decide) ⟨hlent, fun _ => rfl⟩ lentCalls (by decide)

end
end Bfcomp
